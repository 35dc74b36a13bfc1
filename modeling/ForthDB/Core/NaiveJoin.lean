import ForthDB.Core.QueryOrder
import Mathlib.Data.Multiset.Bind

/-!
# The naive join

A query asks for a fact for each of its patterns and a binding under which all of them
match. `choices` lists every way to choose an entry for each pattern, and `joinBinding` is
the binding of such a choice.

* `bindAll_iff`: the binding of a choice is the least one under which the facts match, so
  that the order in which they are unified does not matter.
* `Covers source entries`: the candidates of `source` are those of the entries that unify.
* `Covers.solutions_eq`: **the walk finds every choice once**, whatever pattern it takes
  first.
-/

namespace ForthDB

/-! ## Bindings by what they bind -/

theorem Binding.mem_entries {b : Binding} {name : String} {value : BoundValue} :
    (name, value) ∈ b.entries ↔ b.get name = some value := by
  obtain ⟨entries, hsorted⟩ := b
  unfold get
  simp only
  induction entries with
  | nil => simp
  | cons entry rest ih =>
    obtain ⟨k, v⟩ := entry
    obtain ⟨hfirst, hrest⟩ := List.pairwise_cons.1 hsorted
    rw [List.mem_cons, ih hrest]
    by_cases h : name = k
    · subst h
      rw [List.lookup_cons_self, Option.some_inj]
      constructor
      · rintro (heq | hlookup)
        · cases heq
          rfl
        · -- a key that is bound again would stand behind itself
          exact absurd (hfirst _ ((ih hrest).2 hlookup)) (lt_irrefl _)
      · rintro rfl
        exact .inl rfl
    · have hb : (name == k) = false := by simpa using h
      simp only [List.lookup_cons, hb, Prod.mk.injEq, h, false_and, false_or]

/-- **A binding is what it binds.** -/
theorem Binding.ext_get {b c : Binding} (h : ∀ name, b.get name = c.get name) : b = c := by
  have hnodup (d : Binding) : d.entries.Nodup :=
    d.sorted.imp fun {x y} (hlt : x.1 < y.1) heq => absurd (heq ▸ hlt) (lt_irrefl _)
  have hperm : b.entries.Perm c.entries := by
    refine (List.perm_ext_iff_of_nodup (hnodup b) (hnodup c)).2 fun ⟨name, value⟩ => ?_
    rw [mem_entries, mem_entries, h]
  have heq : b.entries = c.entries :=
    hperm.eq_of_pairwise (fun x y _ _ hxy hyx => absurd (lt_trans hxy hyx) (lt_irrefl _)) b.sorted
      c.sorted
  cases b
  cases c
  cases heq
  rfl

/-- The pattern has the variable. -/
def Pattern.Names (p : Pattern) (name : String) : Prop :=
  (∃ v, p.subject = .var v ∧ v.name = name) ∨ (∃ v, p.predicate = .var v ∧ v.name = name) ∨
    ∃ v, p.object = .var v ∧ v.name = name

theorem Matches.get_of_names {p : Pattern} {fact : Fact} {b : Binding} (h : Matches p fact b)
    {name : String} (hname : p.Names name) : b.get name ≠ none := by
  obtain ⟨h1, h2, h3⟩ := h
  rcases hname with ⟨v, hv, rfl⟩ | ⟨v, hv, rfl⟩ | ⟨v, hv, rfl⟩
  · rw [hv] at h1
    rw [show b.get v.name = _ from h1]
    exact Option.some_ne_none _
  · rw [hv] at h2
    rw [show b.get v.name = _ from h2]
    exact Option.some_ne_none _
  · rw [hv] at h3
    rw [show b.get v.name = _ from h3]
    exact Option.some_ne_none _

theorem unifyVariable_bound {v : Variable} {value : BoundValue} {b c : Binding}
    (h : unifyVariable v value b = some c) {name : String} (hname : c.get name ≠ none) :
    b.get name ≠ none ∨ v.name = name := by
  unfold unifyVariable at h
  cases hget : b.get v.name with
  | some existing =>
    simp only [hget] at h
    split at h
    · cases h
      exact .inl hname
    · cases h
  | none =>
    simp only [hget, Option.some.injEq] at h
    subst h
    rw [Binding.get_insert] at hname
    by_cases hv : name = v.name
    · exact .inr hv.symm
    · rw [if_neg hv] at hname
      exact .inl hname

theorem unifyTerm_bound {term : Term} {value : BoundValue} {b c : Binding}
    (h : unifyTerm term value b = some c) {name : String} (hname : c.get name ≠ none) :
    b.get name ≠ none ∨ ∃ v, term = .var v ∧ v.name = name := by
  cases term with
  | atom a =>
    unfold unifyTerm at h
    simp only at h
    split at h
    · cases h
      exact .inl hname
    · cases h
  | var v => exact (unifyVariable_bound h hname).imp id fun hv => ⟨v, rfl, hv⟩

theorem unifyPredicate_bound {term : PredicateTerm} {value : BoundValue} {b c : Binding}
    (h : unifyPredicate term value b = some c) {name : String} (hname : c.get name ≠ none) :
    b.get name ≠ none ∨ ∃ v, term = .var v ∧ v.name = name := by
  cases term with
  | predicate q =>
    unfold unifyPredicate at h
    simp only at h
    split at h
    · cases h
      exact .inl hname
    · cases h
  | var v => exact (unifyVariable_bound h hname).imp id fun hv => ⟨v, rfl, hv⟩

/-- Unification binds the variables of the pattern only. -/
theorem unifyPattern_bound {p : Pattern} {fact : Fact} {b c : Binding}
    (h : unifyPattern p fact b = some c) {name : String} (hname : c.get name ≠ none) :
    b.get name ≠ none ∨ p.Names name := by
  unfold unifyPattern at h
  simp only [bind, Option.bind_eq_some_iff] at h
  obtain ⟨b₁, h1, b₂, h2, h3⟩ := h
  rcases unifyTerm_bound h3 hname with hname | hname
  · rcases unifyPredicate_bound h2 hname with hname | hname
    · exact (unifyTerm_bound h1 hname).imp id .inl
    · exact .inr (.inr (.inl hname))
  · exact .inr (.inr (.inr hname))

theorem unifyVariable_complete {v : Variable} {value : BoundValue} {b c : Binding}
    (hext : b.Extends c) (hv : c.get v.name = some value) :
    ∃ d, unifyVariable v value b = some d ∧ d.Extends c := by
  unfold unifyVariable
  cases hget : b.get v.name with
  | some existing =>
    have heq : existing = value := Option.some.inj ((hext _ _ hget).symm.trans hv)
    exact ⟨b, by simp [heq], hext⟩
  | none =>
    refine ⟨_, rfl, fun name x hx => ?_⟩
    rw [Binding.get_insert] at hx
    split at hx
    · rename_i hname
      rw [hname, hv, hx]
    · exact hext _ _ hx

theorem unifyTerm_complete {term : Term} {a : Atom} {b c : Binding} (hext : b.Extends c)
    (hd : term.Denotes a c) : ∃ d, unifyTerm term (.ofAtom a) b = some d ∧ d.Extends c := by
  cases term with
  | atom a' =>
    have heq : a = a' := hd
    exact ⟨b, by simp [unifyTerm, heq], hext⟩
  | var v => exact unifyVariable_complete hext hd

theorem unifyPredicate_complete {term : PredicateTerm} {q : Predicate} {b c : Binding}
    (hext : b.Extends c) (hd : term.Denotes q c) :
    ∃ d, unifyPredicate term (.predicate q) b = some d ∧ d.Extends c := by
  cases term with
  | predicate q' =>
    have heq : q = q' := hd
    exact ⟨b, by simp [unifyPredicate, BoundValue.asPredicate, heq], hext⟩
  | var v => exact unifyVariable_complete hext hd

/-- Unification finds a binding below any under which the fact matches. -/
theorem unifyPattern_complete {p : Pattern} {fact : Fact} {b c : Binding} (hext : b.Extends c)
    (hm : Matches p fact c) : ∃ d, unifyPattern p fact b = some d ∧ d.Extends c := by
  obtain ⟨b₁, h1, e1⟩ := unifyTerm_complete hext hm.subject
  obtain ⟨b₂, h2, e2⟩ := unifyPredicate_complete e1 hm.predicate
  obtain ⟨b₃, h3, e3⟩ := unifyTerm_complete e2 hm.object
  refine ⟨b₃, ?_, e3⟩
  unfold unifyPattern
  simp only [bind, h1, h2, h3, Option.bind_some]

/-! ## The binding of a choice -/

/-- Unify patterns with facts, one after the other. -/
def bindAll (b : Binding) : List (Pattern × Fact) → Option Binding
  | [] => some b
  | (p, fact) :: rest => (unifyPattern p fact b).bind fun c => bindAll c rest

/-- The least binding behind `b` under which every fact matches its pattern. -/
structure Binds (b : Binding) (pairs : List (Pattern × Fact)) (c : Binding) : Prop where
  behind : b.Extends c
  facts : ∀ x ∈ pairs, Matches x.1 x.2 c
  bound : ∀ name, c.get name ≠ none → b.get name ≠ none ∨ ∃ x ∈ pairs, x.1.Names name

theorem Binds.unique {b c d : Binding} {pairs : List (Pattern × Fact)} (h : Binds b pairs c)
    (hext : c.Extends d) (h' : Binds b pairs d) : c = d := by
  refine Binding.ext_get fun name => ?_
  cases hc : c.get name with
  | some value => exact (hext _ _ hc).symm
  | none =>
    cases hd : d.get name with
    | none => rfl
    | some value =>
      -- what `d` binds is bound by `b` or by a pattern, and so by `c`
      exfalso
      rcases h'.bound name (by rw [hd]; exact Option.some_ne_none _) with hb | ⟨x, hx, hname⟩
      · obtain ⟨value, hvalue⟩ := Option.ne_none_iff_exists'.1 hb
        rw [h.behind _ _ hvalue] at hc
        cases hc
      · exact (h.facts x hx).get_of_names hname hc

theorem bindAll_binds {b c : Binding} {pairs : List (Pattern × Fact)}
    (h : bindAll b pairs = some c) : Binds b pairs c := by
  induction pairs generalizing b with
  | nil =>
    cases h
    exact ⟨.refl _, by simp, fun name hname => .inl hname⟩
  | cons x pairs ih =>
    obtain ⟨p, fact⟩ := x
    obtain ⟨d, hd, h⟩ := Option.bind_eq_some_iff.1 h
    obtain ⟨hext, hfacts, hbound⟩ := ih h
    obtain ⟨hext', hmatches⟩ := unifyPattern_spec hd
    refine ⟨hext'.trans hext, fun y hy => ?_, fun name hname => ?_⟩
    · rcases List.mem_cons.1 hy with rfl | hy
      · exact hmatches.mono hext
      · exact hfacts y hy
    · rcases hbound name hname with hname | ⟨y, hy, hname⟩
      · exact (unifyPattern_bound hd hname).imp id fun hn => ⟨_, List.mem_cons_self, hn⟩
      · exact .inr ⟨y, List.mem_cons_of_mem _ hy, hname⟩

theorem bindAll_complete {b c : Binding} {pairs : List (Pattern × Fact)} (hext : b.Extends c)
    (hfacts : ∀ x ∈ pairs, Matches x.1 x.2 c) : ∃ d, bindAll b pairs = some d ∧ d.Extends c := by
  induction pairs generalizing b with
  | nil => exact ⟨b, rfl, hext⟩
  | cons x pairs ih =>
    obtain ⟨p, fact⟩ := x
    obtain ⟨d, hd, hdc⟩ := unifyPattern_complete hext (hfacts _ List.mem_cons_self)
    obtain ⟨e, he, hec⟩ := ih hdc fun y hy => hfacts y (List.mem_cons_of_mem _ hy)
    exact ⟨e, by simp [bindAll, hd, he], hec⟩

/-- **The binding of a choice** is the least one under which it matches. -/
theorem bindAll_iff {b c : Binding} {pairs : List (Pattern × Fact)} :
    bindAll b pairs = some c ↔ Binds b pairs c := by
  refine ⟨bindAll_binds, fun h => ?_⟩
  obtain ⟨d, hd, hext⟩ := bindAll_complete h.behind h.facts
  rw [hd, (bindAll_binds hd).unique hext h]

/-- The order does not matter. -/
theorem bindAll_perm {b : Binding} {xs ys : List (Pattern × Fact)} (h : xs.Perm ys) :
    bindAll b xs = bindAll b ys := by
  refine Option.ext fun c => ?_
  have hbinds {xs ys : List (Pattern × Fact)} (h : xs.Perm ys) (hc : Binds b xs c) :
      Binds b ys c :=
    ⟨hc.behind, fun x hx => hc.facts x (h.mem_iff.2 hx), fun name hname =>
      (hc.bound name hname).imp id fun ⟨x, hx, hn⟩ => ⟨x, h.mem_iff.1 hx, hn⟩⟩
  rw [bindAll_iff, bindAll_iff]
  exact ⟨hbinds h, hbinds h.symm⟩

/-! ## Choices -/

/-- Every way to choose an entry for each of `n` patterns. -/
def choices (entries : List (SlotId × Fact)) : ℕ → List (List (SlotId × Fact))
  | 0 => [[]]
  | n + 1 => entries.flatMap fun e => (choices entries n).map fun chosen => e :: chosen

theorem mem_choices {entries : List (SlotId × Fact)} {n : ℕ} {chosen : List (SlotId × Fact)} :
    chosen ∈ choices entries n ↔ chosen.length = n ∧ ∀ e ∈ chosen, e ∈ entries := by
  induction n generalizing chosen with
  | zero =>
    rw [choices, List.mem_singleton, List.length_eq_zero_iff]
    exact ⟨fun h => ⟨h, by simp [h]⟩, And.left⟩
  | succ n ih =>
    rw [choices, List.mem_flatMap]
    constructor
    · rintro ⟨e, he, hmem⟩
      obtain ⟨rest, hrest, rfl⟩ := List.mem_map.1 hmem
      obtain ⟨hlen, hall⟩ := ih.1 hrest
      exact ⟨by rw [List.length_cons, hlen], List.forall_mem_cons.2 ⟨he, hall⟩⟩
    · rintro ⟨hlen, hall⟩
      obtain ⟨e, rest, rfl⟩ := List.exists_cons_of_length_eq_add_one hlen
      obtain ⟨he, hrest⟩ := List.forall_mem_cons.1 hall
      exact ⟨e, he, List.mem_map.2 ⟨rest, ih.2 ⟨by simpa using hlen, hrest⟩, rfl⟩⟩

/-- The binding under which the patterns match the chosen entries, if there is one. -/
def joinBinding (patterns : List Pattern) (chosen : List (SlotId × Fact)) : Option Binding :=
  bindAll .new (patterns.zip (chosen.map Prod.snd))

/-- The chosen facts match the patterns under the binding, which binds their variables only. -/
structure Joins (patterns : List Pattern) (chosen : List (SlotId × Fact)) (b : Binding) : Prop where
  facts : List.Forall₂ (fun p e => Matches p e.2 b) patterns chosen
  bound : ∀ name, b.get name ≠ none → ∃ p ∈ patterns, p.Names name

theorem joinBinding_iff {patterns : List Pattern} {chosen : List (SlotId × Fact)} {b : Binding}
    (hlen : chosen.length = patterns.length) :
    joinBinding patterns chosen = some b ↔ Joins patterns chosen b := by
  have hzip : patterns.zip (chosen.map Prod.snd) =
      (patterns.zip chosen).map fun x => (x.1, x.2.2) := by
    rw [List.zip_map_right]
    rfl
  have hnames : ∀ name, (∃ x ∈ patterns.zip (chosen.map Prod.snd), x.1.Names name) ↔
      ∃ p ∈ patterns, p.Names name := by
    intro name
    have hfst : (patterns.zip (chosen.map Prod.snd)).map Prod.fst = patterns :=
      List.map_fst_zip (by rw [List.length_map, hlen])
    constructor
    · rintro ⟨x, hx, hn⟩
      exact ⟨x.1, hfst ▸ List.mem_map_of_mem hx, hn⟩
    · rintro ⟨p, hp, hn⟩
      rw [← hfst] at hp
      obtain ⟨x, hx, rfl⟩ := List.mem_map.1 hp
      exact ⟨x, hx, hn⟩
  unfold joinBinding
  rw [bindAll_iff]
  constructor
  · rintro ⟨-, hfacts, hbound⟩
    refine ⟨List.forall₂_iff_zip.2 ⟨hlen.symm, fun hx => ?_⟩, fun name hname => ?_⟩
    · refine hfacts (_, _) ?_
      rw [hzip]
      exact List.mem_map.2 ⟨_, hx, rfl⟩
    · exact (hnames name).1 ((hbound name hname).resolve_left fun h => h rfl)
  · rintro ⟨hfacts, hbound⟩
    refine ⟨fun name value h => (nomatch h), fun x hx => ?_, fun name hname => ?_⟩
    · rw [hzip] at hx
      obtain ⟨y, hy, rfl⟩ := List.mem_map.1 hx
      exact (List.forall₂_iff_zip.1 hfacts).2 hy
    · exact .inr ((hnames name).2 (hbound name hname))

/-- What a frame says of its choice: the binding, and the slots in any order. -/
def QueryFrame.key (frame : QueryFrame) : Binding × Multiset SlotId :=
  (frame.binding, frame.provenance)

/-- The nested loop over all entries, behind a frame. -/
def nestedLoop (entries : List (SlotId × Fact)) :
    Binding → Multiset SlotId → List Pattern → Multiset (Binding × Multiset SlotId)
  | b, slots, [] => {(b, slots)}
  | b, slots, p :: patterns => (entries : Multiset (SlotId × Fact)).bind fun e =>
      match unifyPattern p e.2 b with
      | none => 0
      | some c => nestedLoop entries c (e.1 ::ₘ slots) patterns

/-- **The nested loop makes every choice once.** -/
theorem nestedLoop_eq (entries : List (SlotId × Fact)) (b : Binding) (slots : Multiset SlotId)
    (patterns : List Pattern) :
    nestedLoop entries b slots patterns =
      ((choices entries patterns.length).filterMap fun chosen =>
        (bindAll b (patterns.zip (chosen.map Prod.snd))).map fun c =>
          (c, (chosen.map Prod.fst : Multiset SlotId) + slots) :
        List (Binding × Multiset SlotId)) := by
  induction patterns generalizing b slots with
  | nil =>
    simp [nestedLoop, choices, bindAll]
  | cons p patterns ih =>
    unfold nestedLoop
    rw [List.length_cons, choices, List.filterMap_flatMap]
    rw [← Multiset.coe_bind]
    refine congrArg _ (funext fun e => ?_)
    rw [List.filterMap_map]
    cases hunify : unifyPattern p e.2 b with
    | none =>
      have hnone : (choices entries patterns.length).filterMap
          (fun _ => (none : Option (Binding × Multiset SlotId))) = [] :=
        List.filterMap_eq_nil_iff.2 fun _ _ => rfl
      simp only [Function.comp_def, List.map_cons, List.zip_cons_cons, bindAll, hunify,
        Option.bind_none, Option.map_none, hnone, Multiset.coe_nil]
    | some c =>
      have hcons (slots' : Multiset SlotId) : slots' + e.1 ::ₘ slots = e.1 ::ₘ slots' + slots := by
        rw [Multiset.add_cons, Multiset.cons_add]
      simp only [ih, Function.comp_def, List.map_cons, List.zip_cons_cons, bindAll, hunify,
        Option.bind_some, ← Multiset.cons_coe, hcons]

/-- **The order of the patterns** does not matter to the nested loop. -/
theorem nestedLoop_perm (entries : List (SlotId × Fact)) {xs ys : List Pattern} (h : xs.Perm ys)
    (b : Binding) (slots : Multiset SlotId) :
    nestedLoop entries b slots xs = nestedLoop entries b slots ys := by
  induction h generalizing b slots with
  | nil => rfl
  | cons p _ ih =>
    unfold nestedLoop
    refine congrArg _ (funext fun e => ?_)
    cases unifyPattern p e.2 b with
    | none => rfl
    | some c => exact ih c _
  | trans _ _ ih ih' => exact (ih b slots).trans (ih' b slots)
  | swap p q patterns =>
    -- two loops in turn, as one body over both entries
    have htwo (p q : Pattern) : nestedLoop entries b slots (p :: q :: patterns) =
        (entries : Multiset (SlotId × Fact)).bind fun e =>
          (entries : Multiset (SlotId × Fact)).bind fun f =>
            match bindAll b [(p, e.2), (q, f.2)] with
            | none => 0
            | some c => nestedLoop entries c (f.1 ::ₘ e.1 ::ₘ slots) patterns := by
      conv_lhs => unfold nestedLoop
      refine congrArg _ (funext fun e => ?_)
      cases hp : unifyPattern p e.2 b with
      | none => simp [bindAll, hp]
      | some c =>
        simp only [bindAll, hp, Option.bind_some]
        conv_lhs => unfold nestedLoop
        refine congrArg _ (funext fun f => ?_)
        cases unifyPattern q f.2 c <;> rfl
    rw [htwo, htwo, Multiset.bind_bind]
    refine congrArg _ (funext fun e => congrArg _ (funext fun f => ?_))
    rw [bindAll_perm (List.Perm.swap (p, e.2) (q, f.2) []), Multiset.cons_swap]

/-! ## The walk -/

namespace QuerySource

variable {ι : Type} {source : QuerySource ι} {entries : List (SlotId × Fact)}

/-- The candidates of a source that unify are the entries that unify. -/
def Covers (source : QuerySource ι) (entries : List (SlotId × Fact)) : Prop :=
  ∀ p b, ((source.candidates p b).filterMap (source.found p b)).Perm
    (entries.filterMap fun e => (unifyPattern p e.2 b).map fun c => (c, e.1))

theorem bind_filterMap {α β γ : Type} (xs : List α) (f : α → Option β) (g : β → Multiset γ) :
    (xs.filterMap f : Multiset β).bind g =
      (xs : Multiset α).bind fun x => ((f x).map g).getD 0 := by
  induction xs with
  | nil => rfl
  | cons x xs ih =>
    rw [← Multiset.cons_coe, Multiset.cons_bind, ← ih]
    cases hx : f x with
    | none => simp [List.filterMap_cons_none hx]
    | some y => rw [List.filterMap_cons_some hx, ← Multiset.cons_coe, Multiset.cons_bind]; rfl

/-- **The walk finds every choice once**, whatever pattern it takes first. -/
theorem Covers.solutions_eq (h : source.Covers entries) (options : QueryOptions) (count : ℕ)
    (frame : QueryFrame) (remaining : List Pattern) (hcount : remaining.length = count) :
    ((source.solutions options count frame remaining).map QueryFrame.key :
        Multiset (Binding × Multiset SlotId)) =
      nestedLoop entries frame.binding frame.provenance remaining := by
  induction count generalizing frame remaining with
  | zero =>
    obtain rfl := List.length_eq_zero_iff.1 hcount
    rfl
  | succ count ih =>
    have hne : remaining ≠ [] := by
      rintro rfl
      simp at hcount
    have hlt := chosenIndex_lt source options hne frame.binding
    unfold solutions
    generalize source.chosenIndex options remaining frame.binding = index at hlt ⊢
    have hrest : (remaining.eraseIdx index).length = count := by
      rw [List.length_eraseIdx_of_lt hlt]
      omega
    rw [← nestedLoop_perm entries (List.getElem_cons_eraseIdx_perm hlt)]
    simp only [List.getElem?_eq_getElem hlt]
    generalize remaining[index] = chosen
    -- what the rest of the walk adds behind a candidate
    let behind : Binding × SlotId → Multiset (Binding × Multiset SlotId) := fun x =>
      nestedLoop entries x.1 (x.2 ::ₘ frame.provenance) (remaining.eraseIdx index)
    have hbehind : ∀ b slot, ((source.solutions options count ⟨b, frame.provenance ++ [slot]⟩
        (remaining.eraseIdx index)).map QueryFrame.key : Multiset _) = behind (b, slot) := by
      intro b slot
      rw [ih _ _ hrest]
      show nestedLoop entries b (frame.provenance ++ [slot] : List SlotId) _ = _
      rw [← Multiset.coe_add, add_comm]
      rfl
    calc _ = ((source.candidates chosen frame.binding : List ι) : Multiset ι).bind fun i =>
          ((source.found chosen frame.binding i).map behind).getD 0 := by
          rw [List.map_flatMap, ← Multiset.coe_bind]
          refine congrArg _ (funext fun i => ?_)
          rcases source.found chosen frame.binding i with _ | ⟨b, slot⟩
          · rfl
          · exact hbehind b slot
      _ = (entries.filterMap fun e => (unifyPattern chosen e.2 frame.binding).map
            fun c => (c, e.1) : Multiset _).bind behind := by
          rw [← bind_filterMap, Multiset.coe_eq_coe.2 (h chosen frame.binding)]
      _ = nestedLoop entries frame.binding frame.provenance (chosen :: remaining.eraseIdx index) := by
          rw [bind_filterMap]
          unfold nestedLoop
          refine congrArg _ (funext fun e => ?_)
          cases unifyPattern chosen e.2 frame.binding <;> rfl

/-- The frames of a whole query, by their keys. -/
theorem Covers.allSolutions_eq (h : source.Covers entries) (patterns : List Pattern)
    (options : QueryOptions) : ((source.allSolutions patterns options).map QueryFrame.key).Perm
      ((choices entries patterns.length).filterMap fun chosen =>
        (joinBinding patterns chosen).map fun b =>
          (b, (chosen.map Prod.fst : Multiset SlotId))) := by
  rw [← Multiset.coe_eq_coe]
  refine (h.solutions_eq options patterns.length ⟨.new, []⟩ patterns rfl).trans ?_
  rw [nestedLoop_eq]
  refine congrArg _ (List.filterMap_congr fun chosen _ => ?_)
  simp only [Multiset.coe_nil, add_zero]
  rfl

/-- The bindings of a whole query. -/
theorem Covers.bindings_eq (h : source.Covers entries) (patterns : List Pattern)
    (options : QueryOptions) :
    ((source.allSolutions patterns options).map QueryFrame.binding).Perm
      ((choices entries patterns.length).filterMap (joinBinding patterns)) := by
  have hkeys := (h.allSolutions_eq patterns options).map Prod.fst
  rw [List.map_map, List.map_filterMap] at hkeys
  refine hkeys.trans (List.Perm.of_eq (List.filterMap_congr fun chosen _ => ?_))
  cases joinBinding patterns chosen <;> rfl

/-- **Other orders of the patterns, and other plans,** give the same bindings. -/
theorem Covers.bindings_perm (h : source.Covers entries) {patterns patterns' : List Pattern}
    (hperm : patterns'.Perm patterns) (options options' : QueryOptions) :
    ((source.allSolutions patterns' options').map QueryFrame.binding).Perm
      ((source.allSolutions patterns options).map QueryFrame.binding) := by
  have hkeys : ((source.allSolutions patterns' options').map QueryFrame.key).Perm
      ((source.allSolutions patterns options).map QueryFrame.key) := by
    rw [← Multiset.coe_eq_coe]
    refine (h.solutions_eq options' patterns'.length ⟨.new, []⟩ patterns' rfl).trans ?_
    rw [nestedLoop_perm entries hperm]
    exact (h.solutions_eq options patterns.length ⟨.new, []⟩ patterns rfl).symm
  have hfst := hkeys.map Prod.fst
  rw [List.map_map, List.map_map] at hfst
  exact hfst

end QuerySource

/-! ## Rows by their bindings -/

/-- The retained frames have the bindings of all frames, each once. -/
theorem retainDistinct_bindings (frames : List QueryFrame) :
    ((retainDistinct [] frames).map QueryFrame.binding).Nodup ∧
      ∀ b, b ∈ (retainDistinct [] frames).map QueryFrame.binding ↔
        b ∈ frames.map QueryFrame.binding := by
  constructor
  · refine (nodup_retainDistinct frames []).map_on fun x hx y hy hxy => ?_
    have hx' := (mem_retainDistinct.1 hx).2
    rw [hxy, (mem_retainDistinct.1 hy).2] at hx'
    exact (Option.some.inj hx').symm
  · intro b
    rw [List.mem_map, List.mem_map]
    constructor
    · rintro ⟨f, hf, rfl⟩
      exact ⟨f, (List.mem_filter.1 (List.mem_of_mem_head? (mem_retainDistinct.1 hf).2)).1, rfl⟩
    · rintro ⟨f, hf, rfl⟩
      -- the first frame with this binding is retained
      obtain ⟨g, hg⟩ : ∃ g, (framesOf frames f.binding).head? = some g := by
        cases hfr : framesOf frames f.binding with
        | nil =>
          have hmem : f ∈ framesOf frames f.binding := List.mem_filter.2 ⟨hf, by simp⟩
          rw [hfr] at hmem
          cases hmem
        | cons g rest => exact ⟨g, rfl⟩
      have hb : g.binding = f.binding := by
        simpa using (List.mem_filter.1 (List.mem_of_mem_head? hg)).2
      exact ⟨g, mem_retainDistinct.2 ⟨List.not_mem_nil, by rw [hb]; exact hg⟩, hb⟩

/-- The frames of the rows. -/
def keptRows (options : QueryOptions) (output : List QueryFrame) : List QueryFrame :=
  if options.distinct then retainDistinct [] output else output

theorem finishRows_bindings (options : QueryOptions) (output : List QueryFrame) :
    ((finishRows options output).map QueryRow.binding).Perm
      ((keptRows options output).map QueryFrame.binding) := by
  unfold finishRows
  rw [List.map_map]
  exact (List.perm_insertionSort _ _).map QueryFrame.binding

/-- What the rows say of the choices: the slots only if they are asked for. -/
theorem finishRows_keys (options : QueryOptions) (output : List QueryFrame) :
    ((finishRows options output).map fun row =>
        (row.binding, (row.provenance : Multiset SlotId))).Perm
      (((keptRows options output).map QueryFrame.key).map fun x =>
        (x.1, if options.includeProvenance then x.2 else 0)) := by
  unfold finishRows
  rw [List.map_map, List.map_map]
  refine ((List.perm_insertionSort _ _).map _).trans (List.Perm.of_eq ?_)
  refine List.map_congr_left fun f _ => ?_
  show (f.binding, ((if options.includeProvenance then f.provenance else [] : List SlotId) :
    Multiset SlotId)) = (f.binding, if options.includeProvenance then (f.provenance : Multiset SlotId)
      else 0)
  split <;> rfl

/-- Two answers with the same bindings list them in the same order. -/
theorem finishRows_bindings_eq {options options' : QueryOptions} {xs ys : List QueryFrame}
    (h : ((keptRows options xs).map QueryFrame.binding).Perm
      ((keptRows options' ys).map QueryFrame.binding)) :
    (finishRows options xs).map QueryRow.binding = (finishRows options' ys).map QueryRow.binding := by
  have hsorted (o : QueryOptions) (zs : List QueryFrame) :
      ((finishRows o zs).map QueryRow.binding).Pairwise fun b c =>
        b.entries.map toLex ≤ c.entries.map toLex := by
    unfold finishRows
    rw [List.map_map, List.pairwise_map]
    refine (List.pairwise_insertionSort
      (fun left right : QueryFrame => left.rank ≤ right.rank) _).imp fun {f g} hle => ?_
    rcases Prod.Lex.le_iff.1 hle with hlt | ⟨heq, -⟩
    · exact le_of_lt hlt
    · exact le_of_eq heq
  refine ((finishRows_bindings options xs).trans
    (h.trans (finishRows_bindings options' ys).symm)).eq_of_pairwise
      (fun b c _ _ hbc hcb => ?_) (hsorted _ _) (hsorted _ _)
  have hentries : b.entries = c.entries :=
    List.map_injective_iff.2 (fun _ _ h => toLex_inj.1 h) (le_antisymm hbc hcb)
  cases b
  cases c
  cases hentries
  rfl

/-- The kept frames of answers with the same bindings have the same bindings. -/
theorem keptRows_perm {options options' : QueryOptions} (hd : options'.distinct = options.distinct)
    {xs ys : List QueryFrame} (h : (xs.map QueryFrame.binding).Perm (ys.map QueryFrame.binding)) :
    ((keptRows options xs).map QueryFrame.binding).Perm
      ((keptRows options' ys).map QueryFrame.binding) := by
  unfold keptRows
  rw [hd]
  split
  · obtain ⟨hx, hx'⟩ := retainDistinct_bindings xs
    obtain ⟨hy, hy'⟩ := retainDistinct_bindings ys
    refine (List.perm_ext_iff_of_nodup hx hy).2 fun b => ?_
    rw [hx', hy', h.mem_iff]
  · exact h

end ForthDB
