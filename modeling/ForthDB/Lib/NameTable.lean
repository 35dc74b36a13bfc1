import Mathlib.Data.List.Nodup
import Mathlib.Data.List.Infix
import Mathlib.Tactic.Common

/-!
# Name tables

A table lists pairs of a number and a name. `intern` gives a name its number, with
a new entry at the first use; `lastEntry` reads a number back, the last entry
winning.

* `Numbered number t`: the names are distinct and the entry at position `i` has the
  number `number i`.
* `intern_spec`: interning keeps that, only appends, and leaves the pair in the table.
* `lastEntry_of_mem`: as long as `number` repeats no number, reading undoes interning.
-/

namespace NameTable

variable {κ : Type} [DecidableEq κ]

def intern (number : ℕ → ℕ) (table : List (ℕ × κ)) (name : κ) : ℕ × List (ℕ × κ) :=
  match table.find? fun e => e.2 = name with
  | some e => (e.1, table)
  | none => (number table.length, table ++ [(number table.length, name)])

omit [DecidableEq κ] in
/-- The name of a number; a later entry replaces an earlier one. -/
def lastEntry (table : List (ℕ × κ)) (n : ℕ) : Option κ :=
  table.foldl (fun found e => if e.1 = n then some e.2 else found) none

structure Numbered (number : ℕ → ℕ) (table : List (ℕ × κ)) : Prop where
  nodup : (table.map Prod.snd).Nodup
  entry : ∀ i e, table[i]? = some e → e.1 = number i

variable {number : ℕ → ℕ} {table : List (ℕ × κ)}

omit [DecidableEq κ] in
theorem numbered_nil : Numbered number ([] : List (ℕ × κ)) := ⟨List.nodup_nil, by simp⟩

/-- **Interning** keeps a table numbered, only appends, and leaves the pair in the table. -/
theorem intern_spec (h : Numbered number table) (name : κ) :
    Numbered number (intern number table name).2 ∧ table <+: (intern number table name).2 ∧
      ((intern number table name).1, name) ∈ (intern number table name).2 := by
  unfold intern
  cases hf : table.find? fun e => e.2 = name with
  | some e =>
    have hname : e.2 = name := by simpa using List.find?_some hf
    subst hname
    exact ⟨h, List.prefix_refl _, List.mem_of_find?_eq_some hf⟩
  | none =>
    have hnew : ∀ e ∈ table, e.2 ≠ name := by simpa using hf
    refine ⟨⟨?_, ?_⟩, List.prefix_append _ _, by simp⟩
    · simp only [List.map_append, List.map_cons, List.map_nil]
      refine List.nodup_append.2 ⟨h.nodup, by simp, ?_⟩
      intro a ha b hb
      obtain ⟨e, he, rfl⟩ := List.mem_map.1 ha
      rw [List.mem_singleton.1 hb]
      exact hnew e he
    · intro i e hi
      rcases lt_trichotomy i table.length with hlt | heq | hgt
      · rw [List.getElem?_append_left hlt] at hi
        exact h.entry i e hi
      · subst heq
        simp only [List.getElem?_concat_length, Option.some.injEq] at hi
        rw [← hi]
      · rw [List.getElem?_eq_none (by simp; omega)] at hi
        cases hi

omit [DecidableEq κ] in
theorem foldl_lastEntry (table : List (ℕ × κ)) (n : ℕ) (found : Option κ) :
    table.foldl (fun found e => if e.1 = n then some e.2 else found) found =
      (lastEntry table n).or found := by
  unfold lastEntry
  induction table generalizing found with
  | nil => rfl
  | cons e table ih =>
    simp only [List.foldl_cons]
    rw [ih, ih (if e.1 = n then some e.2 else none)]
    cases table.foldl (fun found e => if e.1 = n then some e.2 else found) none with
    | some k => rfl
    | none => split <;> rfl

omit [DecidableEq κ] in
theorem lastEntry_eq_none {n : ℕ} (h : ∀ e ∈ table, e.1 ≠ n) : lastEntry table n = none := by
  induction table with
  | nil => rfl
  | cons e table ih =>
    unfold lastEntry
    rw [List.foldl_cons, if_neg (h e (by simp))]
    exact ih fun e' he' => h e' (by simp [he'])

omit [DecidableEq κ] in
/-- **Reading undoes interning.** -/
theorem lastEntry_of_mem (h : Numbered number table)
    (hinj : ∀ i j, i < table.length → j < table.length → number i = number j → i = j)
    {n : ℕ} {name : κ} (hm : (n, name) ∈ table) : lastEntry table n = some name := by
  obtain ⟨i, hi, hget⟩ := List.mem_iff_getElem.1 hm
  have hn : n = number i := h.entry i (n, name) (by rw [List.getElem?_eq_getElem hi, hget])
  have hcut : table = table.take i ++ (n, name) :: table.drop (i + 1) := by
    rw [← hget, ← List.drop_eq_getElem_cons hi, List.take_append_drop]
  -- no later entry has the same number
  have hlater : lastEntry (table.drop (i + 1)) n = none := by
    refine lastEntry_eq_none fun e he hen => ?_
    obtain ⟨j, hj, hje⟩ := List.mem_iff_getElem.1 he
    rw [List.getElem_drop] at hje
    have hlen : i + 1 + j < table.length := by rw [List.length_drop] at hj; omega
    have := h.entry (i + 1 + j) e (by rw [List.getElem?_eq_getElem hlen, hje])
    have := hinj (i + 1 + j) i hlen hi (by rw [← this, hen, hn])
    omega
  unfold lastEntry
  rw [hcut, List.foldl_append, List.foldl_cons, foldl_lastEntry, hlater]
  simp

omit [DecidableEq κ] in
/-- Every number in the table is the number of a position. -/
theorem number_of_mem (h : Numbered number table) {n : ℕ} {name : κ} (hm : (n, name) ∈ table) :
    ∃ i < table.length, n = number i := by
  obtain ⟨i, hi, hget⟩ := List.mem_iff_getElem.1 hm
  exact ⟨i, hi, h.entry i (n, name) (by rw [List.getElem?_eq_getElem hi, hget])⟩

end NameTable
