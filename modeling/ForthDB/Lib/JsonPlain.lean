import Mathlib.Data.List.TakeWhile
import ForthDB.Lib.Json

/-!
# What a JSON reader takes

Every reader takes plain characters off the front of its text: no control character but white
space. So a text that is read as a whole has none (`loads_plain`).
-/

namespace Json

/-- A character that is no control character, or white space. -/
def Plain (c : Char) : Prop := 0x20 ≤ c.toNat ∨ isSpace c = true

/-- A reader took plain characters off the front of a text. -/
def Takes (cs rest : List Char) : Prop := ∃ used, cs = used ++ rest ∧ ∀ c ∈ used, Plain c

theorem Takes.refl (cs : List Char) : Takes cs cs := ⟨[], rfl, by simp⟩

theorem Takes.trans {cs ds es : List Char} (h : Takes cs ds) (h' : Takes ds es) : Takes cs es := by
  obtain ⟨used, rfl, hused⟩ := h
  obtain ⟨used', rfl, hused'⟩ := h'
  refine ⟨used ++ used', (List.append_assoc _ _ _).symm, ?_⟩
  intro c hc
  rcases List.mem_append.1 hc with hc | hc
  · exact hused c hc
  · exact hused' c hc

theorem Takes.cons {c : Char} (hc : Plain c) {cs ds : List Char} (h : Takes cs ds) :
    Takes (c :: cs) ds := by
  obtain ⟨used, rfl, hused⟩ := h
  exact ⟨c :: used, rfl, List.forall_mem_cons.2 ⟨hc, hused⟩⟩

theorem takes_dropWhile {p : Char → Bool} (hp : ∀ c, p c = true → Plain c) (cs : List Char) :
    Takes cs (cs.dropWhile p) := by
  refine ⟨cs.takeWhile p, List.takeWhile_append_dropWhile.symm, ?_⟩
  intro c hc
  exact hp c (List.mem_takeWhile_imp hc)

theorem takes_skip (cs : List Char) : Takes cs (skip cs) := takes_dropWhile (fun _ h => .inr h) cs

theorem plain_of_le {c d : Char} (hd : 0x20 ≤ d.toNat) (h : d ≤ c) : Plain c := by
  have hle : d.toNat ≤ c.toNat := h
  exact .inl (hd.trans hle)

theorem plain_digit (c : Char) (h : c.isDigit = true) : Plain c := by
  unfold Char.isDigit at h
  rw [Bool.and_eq_true, decide_eq_true_eq, decide_eq_true_eq] at h
  have hle : (48 : ℕ) ≤ c.toNat := UInt32.le_iff_toNat_le.1 h.1
  exact .inl (by omega)

theorem plain_hexValue {c : Char} {n : ℕ} (h : hexValue c = some n) : Plain c := by
  unfold hexValue at h
  split_ifs at h with h₁ h₂ h₃
  · exact plain_of_le (by decide) h₁.1
  · exact plain_of_le (by decide) h₂.1
  · exact plain_of_le (by decide) h₃.1

theorem takes_hex4 {cs rest : List Char} {n : ℕ} (h : hex4 cs = some (n, rest)) : Takes cs rest := by
  rcases cs with _ | ⟨a, _ | ⟨b, _ | ⟨c, _ | ⟨d, tail⟩⟩⟩⟩
  · cases h
  · cases h
  · cases h
  · cases h
  · simp only [hex4, bind, Option.bind_eq_some_iff, pure, Option.some.injEq, Prod.mk.injEq] at h
    obtain ⟨a', ha, b', hb, c', hc, d', hd, -, rfl⟩ := h
    exact .cons (plain_hexValue ha) (.cons (plain_hexValue hb) (.cons (plain_hexValue hc)
      (.cons (plain_hexValue hd) (.refl _))))

theorem plain_backslash : Plain backslash := .inl (by decide)

theorem takes_scanEscape {cs rest : List Char} {c : Char} (h : scanEscape cs = some (c, rest)) :
    Takes cs rest := by
  have hletters : ∀ e ∈ longEscapes, 0x20 ≤ e.1.toNat := by decide
  have hu : Plain 'u' := .inl (by decide)
  cases cs with
  | nil => cases h
  | cons letter tail =>
    simp only [scanEscape] at h
    cases hlookup : longEscapes.lookup letter with
    | some d =>
      simp only [hlookup] at h
      obtain ⟨l₁, l₂, hl, -⟩ := List.lookup_eq_some_iff.1 hlookup
      obtain ⟨-, rfl⟩ := Prod.mk.inj (Option.some.inj h)
      have hletter : 0x20 ≤ letter.toNat := hletters (letter, d) (by rw [hl]; simp)
      exact .cons (.inl hletter) (.refl _)
    | none =>
      simp only [hlookup] at h
      by_cases hletter : letter = 'u'
      · subst hletter
        rw [if_pos rfl] at h
        simp only [bind, Option.bind_eq_some_iff] at h
        obtain ⟨⟨unit, rest₁⟩, hunit, h⟩ := h
        have hfirst := takes_hex4 hunit
        simp only at h
        split_ifs at h with hhigh hlow
        · -- a surrogate pair
          rcases rest₁ with _ | ⟨d, _ | ⟨u, rest₂⟩⟩
          · cases h
          · cases h
          · simp only at h
            split_ifs at h with hd
            obtain ⟨rfl, rfl⟩ := hd
            simp only [Option.bind_eq_some_iff] at h
            obtain ⟨⟨low, rest₃⟩, hlow, h⟩ := h
            simp only at h
            split_ifs at h with hrange
            obtain ⟨-, rfl⟩ := Prod.mk.inj (Option.some.inj h)
            exact .cons hu (hfirst.trans (.cons plain_backslash (.cons hu (takes_hex4 hlow))))
        · obtain ⟨-, rfl⟩ := Prod.mk.inj (Option.some.inj h)
          exact .cons hu hfirst
      · rw [if_neg hletter] at h
        cases h

theorem takes_scanChar {cs rest : List Char} {c : Char} (h : scanChar cs = some (c, rest)) :
    Takes cs rest := by
  cases cs with
  | nil => cases h
  | cons d tail =>
    simp only [scanChar] at h
    split_ifs at h with hbackslash hcontrol
    · rw [hbackslash]
      exact .cons plain_backslash (takes_scanEscape h)
    · obtain ⟨-, rfl⟩ := Prod.mk.inj (Option.some.inj h)
      exact .cons (.inl (by omega)) (.refl _)

theorem plain_quote : Plain quote := .inl (by decide)

theorem takes_scanString {fuel : ℕ} {cs s rest : List Char}
    (h : scanString fuel cs = some (s, rest)) : Takes cs rest := by
  induction fuel generalizing cs s with
  | zero => cases h
  | succ fuel ih =>
    cases cs with
    | nil => cases h
    | cons c tail =>
      unfold scanString at h
      split_ifs at h with hquote
      · obtain ⟨-, rfl⟩ := Prod.mk.inj (Option.some.inj h)
        rw [hquote]
        exact .cons plain_quote (.refl _)
      · simp only [bind, Option.bind_eq_some_iff] at h
        obtain ⟨⟨d, rest₁⟩, hchar, ⟨s', rest₂⟩, hstring, h⟩ := h
        obtain ⟨-, rfl⟩ := Prod.mk.inj (Option.some.inj h)
        exact (takes_scanChar hchar).trans (ih hstring)

/-! ## Numbers and literals -/

theorem takes_integerPart {cs whole rest : List Char} (h : integerPart cs = some (whole, rest)) :
    Takes cs rest := by
  cases cs with
  | nil => cases h
  | cons c tail =>
    simp only [integerPart] at h
    split_ifs at h with hzero hdigit
    · obtain ⟨-, rfl⟩ := Prod.mk.inj (Option.some.inj h)
      rw [hzero]
      exact .cons (.inl (by decide)) (.refl _)
    · obtain ⟨-, rfl⟩ := Prod.mk.inj (Option.some.inj h)
      exact .cons (plain_digit c hdigit) (takes_dropWhile plain_digit _)

theorem takes_digitsAfter {text cs digits rest : List Char}
    (h : digitsAfter text cs = some (digits, rest)) : Takes cs rest := by
  unfold digitsAfter at h
  simp only at h
  split_ifs at h
  obtain ⟨-, rfl⟩ := Prod.mk.inj (Option.some.inj h)
  exact takes_dropWhile plain_digit _

theorem takes_fractionPart {cs digits rest : List Char}
    (h : fractionPart cs = some (digits, rest)) : Takes cs rest := by
  cases cs with
  | nil => cases h
  | cons c tail =>
    simp only [fractionPart] at h
    split_ifs at h with hdot
    rw [hdot]
    exact .cons (.inl (by decide)) (takes_digitsAfter h)

theorem takes_exponentPart {cs digits rest : List Char}
    (h : exponentPart cs = some (digits, rest)) : Takes cs rest := by
  rcases cs with _ | ⟨c, _ | ⟨sign, tail⟩⟩
  · cases h
  · cases h
  · simp only [exponentPart] at h
    split_ifs at h with he hsign
    · have hc : Plain c := by rcases he with rfl | rfl <;> exact .inl (by decide)
      have hs : Plain sign := by rcases hsign with rfl | rfl <;> exact .inl (by decide)
      exact .cons hc (.cons hs (takes_digitsAfter h))
    · have hc : Plain c := by rcases he with rfl | rfl <;> exact .inl (by decide)
      exact .cons hc (takes_digitsAfter h)

theorem takes_getD {part : List Char → Option (List Char × List Char)}
    (hpart : ∀ {cs digits rest}, part cs = some (digits, rest) → Takes cs rest) (cs : List Char) :
    Takes cs ((part cs).getD ([], cs)).2 := by
  cases h : part cs with
  | none => exact .refl cs
  | some r => exact hpart h

theorem takes_scanUnsigned {sign cs rest : List Char} {v : Json}
    (h : scanUnsigned sign cs = some (v, rest)) : Takes cs rest := by
  unfold scanUnsigned at h
  simp only [bind, Option.bind_eq_some_iff] at h
  obtain ⟨⟨whole, rest₁⟩, hwhole, h⟩ := h
  have hfraction := takes_getD takes_fractionPart rest₁
  have hexponent := takes_getD takes_exponentPart ((fractionPart rest₁).getD ([], rest₁)).2
  have hall := (takes_integerPart hwhole).trans (hfraction.trans hexponent)
  simp only at h
  split_ifs at h
  · obtain ⟨-, rfl⟩ := Prod.mk.inj (Option.some.inj h)
    exact hall
  · obtain ⟨-, rfl⟩ := Prod.mk.inj (Option.some.inj h)
    exact hall
  · obtain ⟨-, rfl⟩ := Prod.mk.inj (Option.some.inj h)
    exact hall

theorem takes_scanNumber {cs rest : List Char} {v : Json} (h : scanNumber cs = some (v, rest)) :
    Takes cs rest := by
  cases cs with
  | nil => cases h
  | cons c tail =>
    simp only [scanNumber] at h
    split_ifs at h with hminus
    · rw [hminus]
      exact .cons (.inl (by decide)) (takes_scanUnsigned h)
    · exact takes_scanUnsigned h

theorem takes_scanLiteral {cs rest : List Char} {v : Json} (h : scanLiteral cs = some (v, rest)) :
    Takes cs rest := by
  have hplain : ∀ e ∈ literals, ∀ c ∈ e.1.toList, 0x20 ≤ c.toNat := by
    simp [literals]
  unfold scanLiteral at h
  obtain ⟨e, he, h⟩ := List.exists_of_findSome?_eq_some h
  split_ifs at h with hprefix
  obtain ⟨-, rfl⟩ := Prod.mk.inj (Option.some.inj h)
  obtain ⟨tail, rfl⟩ := List.isPrefixOf_iff_prefix.1 hprefix
  refine ⟨e.1.toList, ?_, fun c hc => .inl (hplain e he c hc)⟩
  rw [← String.length_toList, List.drop_left]

/-! ## Values -/

/-- **A value** takes plain characters, and so do items and entries. -/
theorem takes_scan (fuel : ℕ) :
    (∀ {cs rest v}, scanOnce fuel cs = some (v, rest) → Takes cs rest) ∧
    (∀ {cs rest vs}, scanItems fuel cs = some (vs, rest) → Takes cs rest) ∧
    (∀ {cs rest es}, scanEntries fuel cs = some (es, rest) → Takes cs rest) := by
  induction fuel with
  | zero =>
    refine ⟨?_, ?_, ?_⟩
    · intro cs rest v h
      cases h
    · intro cs rest vs h
      cases h
    · intro cs rest es h
      cases h
  | succ fuel ih =>
    obtain ⟨honce, hitems, hentries⟩ := ih
    have hcomma : Plain ',' := .inl (by decide)
    have hclose : Plain ']' := .inl (by decide)
    have hbrace : Plain '}' := .inl (by decide)
    refine ⟨?_, ?_, ?_⟩
    · intro cs rest v h
      cases cs with
      | nil => cases h
      | cons c tail =>
        have hskip := takes_skip tail
        simp only [scanOnce] at h
        split_ifs at h with hquote hopen hobject
        · obtain ⟨⟨s, rest'⟩, hstring, heq⟩ := Option.map_eq_some_iff.1 h
          obtain ⟨-, rfl⟩ := Prod.mk.inj heq
          rw [hquote]
          exact .cons plain_quote (takes_scanString hstring)
        · rw [hopen]
          refine .cons (.inl (by decide)) (hskip.trans ?_)
          cases hs : skip tail with
          | nil =>
            rw [hs] at h
            cases h
          | cons d rest' =>
            rw [hs] at h
            simp only at h
            split_ifs at h with hd
            · obtain ⟨-, rfl⟩ := Prod.mk.inj (Option.some.inj h)
              rw [hd]
              exact .cons hclose (.refl _)
            · obtain ⟨⟨vs, rest''⟩, hscan, heq⟩ := Option.map_eq_some_iff.1 h
              obtain ⟨-, rfl⟩ := Prod.mk.inj heq
              exact hitems hscan
        · rw [hobject]
          refine .cons (.inl (by decide)) (hskip.trans ?_)
          cases hs : skip tail with
          | nil =>
            rw [hs] at h
            cases h
          | cons d rest' =>
            rw [hs] at h
            simp only at h
            split_ifs at h with hd
            · obtain ⟨-, rfl⟩ := Prod.mk.inj (Option.some.inj h)
              rw [hd]
              exact .cons hbrace (.refl _)
            · obtain ⟨⟨es, rest''⟩, hscan, heq⟩ := Option.map_eq_some_iff.1 h
              obtain ⟨-, rfl⟩ := Prod.mk.inj heq
              exact hentries hscan
        · rcases Option.or_eq_some_iff.1 h with hliteral | ⟨-, hnumber⟩
          · exact takes_scanLiteral hliteral
          · exact takes_scanNumber hnumber
    · intro cs rest vs h
      simp only [scanItems, bind, Option.bind_eq_some_iff] at h
      obtain ⟨⟨v, rest₁⟩, hvalue, h⟩ := h
      refine (honce hvalue).trans ((takes_skip rest₁).trans ?_)
      cases hs : skip rest₁ with
      | nil =>
        simp only [hs] at h
        cases h
      | cons d rest₂ =>
        simp only [hs] at h
        split_ifs at h with hd hd'
        · obtain ⟨-, rfl⟩ := Prod.mk.inj (Option.some.inj h)
          rw [hd]
          exact .cons hclose (.refl _)
        · simp only [Option.bind_eq_some_iff] at h
          obtain ⟨⟨vs', rest₃⟩, hscan, h⟩ := h
          obtain ⟨-, rfl⟩ := Prod.mk.inj (Option.some.inj h)
          rw [hd']
          exact .cons hcomma ((takes_skip rest₂).trans (hitems hscan))
    · intro cs rest es h
      cases cs with
      | nil => cases h
      | cons c tail =>
        simp only [scanEntries] at h
        split_ifs at h with hquote
        simp only [bind, Option.bind_eq_some_iff] at h
        obtain ⟨⟨key, rest₁⟩, hkey, h⟩ := h
        rw [hquote]
        refine .cons plain_quote ((takes_scanString hkey).trans ((takes_skip rest₁).trans ?_))
        cases hs : skip rest₁ with
        | nil =>
          simp only [hs] at h
          cases h
        | cons colon rest₂ =>
          simp only [hs] at h
          split_ifs at h with hcolon
          simp only [Option.bind_eq_some_iff] at h
          obtain ⟨⟨v, rest₃⟩, hvalue, h⟩ := h
          rw [hcolon]
          refine .cons (.inl (by decide)) ((takes_skip rest₂).trans ((honce hvalue).trans
            ((takes_skip rest₃).trans ?_)))
          cases hs' : skip rest₃ with
          | nil =>
            simp only [hs'] at h
            cases h
          | cons d rest₄ =>
            simp only [hs'] at h
            split_ifs at h with hd hd'
            · obtain ⟨-, rfl⟩ := Prod.mk.inj (Option.some.inj h)
              rw [hd]
              exact .cons hbrace (.refl _)
            · simp only [Option.bind_eq_some_iff] at h
              obtain ⟨⟨es', rest₅⟩, hscan, h⟩ := h
              obtain ⟨-, rfl⟩ := Prod.mk.inj (Option.some.inj h)
              rw [hd']
              exact .cons hcomma ((takes_skip rest₄).trans (hentries hscan))

/-- **A text that is read** has no control character but white space. -/
theorem loads_plain {cs : List Char} {v : Json} (h : loads cs = some v) : ∀ c ∈ cs, Plain c := by
  unfold loads at h
  simp only [bind, Option.bind_eq_some_iff] at h
  obtain ⟨⟨v', rest⟩, hscan, h⟩ := h
  simp only at h
  split_ifs at h with hrest
  have htail := takes_skip rest
  rw [hrest] at htail
  obtain ⟨used, hused, hplain⟩ := (takes_skip cs).trans (((takes_scan _).1 hscan).trans htail)
  rw [hused, List.append_nil]
  exact hplain

end Json
