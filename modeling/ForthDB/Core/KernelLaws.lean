import ForthDB.Core.KernelClones

/-!
# The laws of the shared kernel

What holds of every kernel that allocations, defines, forgets and clones lead to.

* `ForthDb.Signed`: the activity signature adds up the heads, in whatever order.
* `SharedForthDb.IndexesExact`: the seven indexes hold the heads under their own keys.
* `SharedForthDb.StackLaw`: a slot is a stack, and both validations succeed.
* `indexes_exact`, `slot_stack_law`: **every member of every family of clones has both.**
-/

namespace ForthDB

namespace KernelApi

variable {κ : Type} (api : KernelApi κ) {P : κ → Prop}

/-- What every operation keeps holds of every member of every family. -/
theorem run_all (hentity : ∀ k, P k → P (api.entity k).2)
    (hdefine : ∀ k slot fact, P k → ∃ recordId k', api.define k slot fact = .ok (recordId, k') ∧ P k')
    (hforget : ∀ k slot, P k → ∃ recordId k', api.forget k slot = .ok (recordId, k') ∧ P k')
    (events : List KernelEvent) {kernels : List κ} (h : ∀ k ∈ kernels, P k) :
    ∃ returned kernels', api.run kernels events = .ok (returned, kernels') ∧ ∀ k ∈ kernels', P k := by
  have hset {kernels : List κ} (h : ∀ k ∈ kernels, P k) (i : ℕ) {k' : κ} (hk' : P k') :
      ∀ k ∈ kernels.set i k', P k := by
    intro k hk
    rcases List.mem_or_eq_of_mem_set hk with hk | rfl
    · exact h k hk
    · exact hk'
  have hstep {kernels : List κ} (h : ∀ k ∈ kernels, P k) (event : KernelEvent) :
      ∃ returned kernels', api.apply kernels event = .ok (returned, kernels') ∧
        ∀ k ∈ kernels', P k := by
    unfold apply
    cases hat : kernels[event.kernel]? with
    | none => exact ⟨_, _, rfl, h⟩
    | some k =>
      have hk : P k := h k (List.mem_of_getElem? hat)
      cases event.operation with
      | entity => exact ⟨_, _, rfl, hset h _ (hentity k hk)⟩
      | define slot fact =>
        obtain ⟨recordId, k', hk', hP⟩ := hdefine k slot fact hk
        simp only [hk', bind, Except.bind]
        exact ⟨_, _, rfl, hset h _ hP⟩
      | forget slot =>
        obtain ⟨recordId, k', hk', hP⟩ := hforget k slot hk
        simp only [hk', bind, Except.bind]
        exact ⟨_, _, rfl, hset h _ hP⟩
      | clone =>
        refine ⟨_, _, rfl, fun k' hk' => ?_⟩
        rcases List.mem_append.1 hk' with hk' | hk'
        · exact h k' hk'
        · rw [List.mem_singleton.1 hk']
          exact hk
  induction events generalizing kernels with
  | nil => exact ⟨_, _, rfl, h⟩
  | cons event events ih =>
    obtain ⟨returned, kernels₁, hrun₁, h₁⟩ := hstep h event
    obtain ⟨rest, kernels₂, hrun₂, h₂⟩ := ih h₁
    refine ⟨returned :: rest, kernels₂, ?_, h₂⟩
    simp only [run, hrun₁, hrun₂, bind, Except.bind]
    rfl

end KernelApi

/-! ## The activity signature -/

namespace ActiveSignature

/-- The signature of a set of records. -/
def ofRecords (active : Finset ℕ) : ActiveSignature := active.sort.foldl add zero

instance : RightCommutative add where
  right_comm s i j := by
    unfold add
    simp only [ActiveSignature.mk.injEq, true_and]
    constructor
    · rw [UInt64.xor_assoc, UInt64.xor_assoc, UInt64.xor_comm (recordToken i)]
    · rw [UInt64.add_assoc, UInt64.add_assoc, UInt64.add_comm (recordToken i)]

/-- Records may be added in any order. -/
theorem foldl_add_eq {recordIds : List ℕ} {active : Finset ℕ} (hnodup : recordIds.Nodup)
    (h : ∀ i, i ∈ recordIds ↔ i ∈ active) : recordIds.foldl add zero = ofRecords active := by
  refine List.Perm.foldl_eq ?_ zero
  refine (List.perm_ext_iff_of_nodup hnodup (Finset.sort_nodup _ _)).2 fun i => ?_
  rw [h, Finset.mem_sort]

@[simp] theorem count_foldl_add (s : ActiveSignature) (recordIds : List ℕ) :
    (recordIds.foldl add s).count = s.count + recordIds.length := by
  induction recordIds generalizing s with
  | nil => rfl
  | cons i recordIds ih =>
    rw [List.foldl_cons, ih, List.length_cons]
    unfold add
    simp only
    omega

theorem count_ofRecords (active : Finset ℕ) : (ofRecords active).count = active.card := by
  unfold ofRecords
  rw [count_foldl_add, Finset.length_sort]
  exact Nat.zero_add _

theorem ofRecords_insert {active : Finset ℕ} {i : ℕ} (hi : i ∉ active) :
    ofRecords (insert i active) = (ofRecords active).add i := by
  have hlist : (active.sort ++ [i]).foldl add zero = ofRecords (insert i active) := by
    refine foldl_add_eq ?_ fun j => ?_
    · rw [List.nodup_append]
      refine ⟨Finset.sort_nodup _ _, List.nodup_singleton _, fun a ha b hb => ?_⟩
      rw [List.mem_singleton.1 hb]
      rintro rfl
      exact hi ((Finset.mem_sort _).1 ha)
    · rw [List.mem_append, Finset.mem_sort, List.mem_singleton, Finset.mem_insert, or_comm]
  rw [← hlist, List.foldl_append]
  rfl

theorem remove_add (s : ActiveSignature) (i : ℕ) : (s.add i).remove i = s := by
  unfold add remove
  simp only
  congr 1
  · rw [UInt64.xor_assoc, UInt64.xor_self, UInt64.xor_zero]
  · rw [UInt64.add_sub_cancel]

theorem ofRecords_erase {active : Finset ℕ} {i : ℕ} (hi : i ∈ active) :
    ofRecords (active.erase i) = (ofRecords active).remove i := by
  conv_rhs => rw [← Finset.insert_erase hi]
  rw [ofRecords_insert (Finset.notMem_erase i active), remove_add]

end ActiveSignature

namespace ForthDb

variable {k : ForthDb}

/-- The signature of the store is that of the heads. -/
def Signed (k : ForthDb) : Prop := k.store.activeSignature = .ofRecords k.active

theorem new_signed : new.Signed := by
  have hactive : new.active = ∅ := rfl
  unfold Signed ActiveSignature.ofRecords
  rw [hactive, Finset.sort_empty]
  rfl

/-- What a slot's head leaves of the signature. -/
theorem Signed.without (h : k.Signed) (slot : SlotId) :
    (match k.store.head.lookup slot with
      | some previous => k.store.activeSignature.remove previous
      | none => k.store.activeSignature) = .ofRecords (k.activeWithout slot) := by
  unfold activeWithout
  cases hold : k.store.head.lookup slot with
  | none => exact h
  | some old =>
    simp only
    rw [ActiveSignature.ofRecords_erase (head_mem_active hold), ← h]

theorem define_signed (h : k.Signed) (hk : k.Sound) (slot : SlotId) (fact : Fact) :
    (k.define slot fact).Signed := by
  unfold Signed
  rw [active_define hk, ActiveSignature.ofRecords_insert, ← h.without slot]
  · rfl
  · intro hmem
    exact absurd (LegacyForthDb.activeWithout_lt hk hmem) (lt_irrefl _)

theorem forget_signed (h : k.Signed) (hk : k.Sound) (slot : SlotId) : (k.forget slot).Signed := by
  have hstore : (k.forget slot).store.activeSignature =
      match k.revealed slot with
      | some revealed => (ActiveSignature.ofRecords (k.activeWithout slot)).add revealed
      | none => .ofRecords (k.activeWithout slot) := by
    rw [← h.without slot]
    unfold ForthDb.forget DefinitionStore.appendForget DefinitionStore.replaceHead
    show (DefinitionStore.activeSignature (match k.revealed slot with
      | some recordId => _
      | none => _)) = _
    cases k.revealed slot <;> rfl
  unfold Signed
  rw [hstore, active_forget hk]
  cases hrev : k.revealed slot with
  | none => rfl
  | some revealed =>
    refine (ActiveSignature.ofRecords_insert fun hmem => ?_).symm
    -- the revealed definition is of the same slot, and older than its head
    obtain ⟨slot', hne, hhead⟩ := hk.mem_activeWithout.1 hmem
    obtain ⟨current, -, -, hdef⟩ := hk.revealed_spec hrev
    exact hne (hdef.slot_eq (hk.heads slot' revealed hhead)).symm

end ForthDb

/-! ## The laws -/

/-- The index holds the heads under their own keys, in buckets that are not empty. -/
structure SharedIndex.Buckets {κ : Type} [DecidableEq κ] [HashBytes κ] (index : SharedIndex κ)
    (isHead : ℕ → Prop) (keyOf : ℕ → Option κ) : Prop where
  mem : ∀ key i, (∃ bucket, index.get key = some bucket ∧ i ∈ bucket) ↔
    isHead i ∧ keyOf i = some key
  nonempty : ∀ key bucket, (key, bucket) ∈ index.entries →
    index.get key = some bucket ∧ bucket.Nonempty

namespace SharedForthDb

variable (s : SharedForthDb)

def IsHead (i : ℕ) : Prop := ∃ slot, s.store.head.get slot = some i

/-- The fact of a record, if it defines one. -/
def factOf (i : ℕ) : Option Fact :=
  match s.store.record i with
  | .ok record => record.fact
  | .error _ => none

structure IndexesExact : Prop where
  bySubject : s.view.bySubject.Buckets s.IsHead fun i => (s.factOf i).map Fact.subject
  byPredicate : s.view.byPredicate.Buckets s.IsHead fun i => (s.factOf i).map Fact.predicate
  byObject : s.view.byObject.Buckets s.IsHead fun i => (s.factOf i).map Fact.object
  bySubjectPredicate : s.view.bySubjectPredicate.Buckets s.IsHead fun i =>
    (s.factOf i).map fun f => (f.subject, f.predicate)
  bySubjectObject : s.view.bySubjectObject.Buckets s.IsHead fun i =>
    (s.factOf i).map fun f => (f.subject, f.object)
  byPredicateObject : s.view.byPredicateObject.Buckets s.IsHead fun i =>
    (s.factOf i).map fun f => (f.predicate, f.object)
  byExact : s.view.byExact.Buckets s.IsHead s.factOf
  ascending : ∀ pattern binding, (s.view.candidates s.store pattern binding).Pairwise (· < ·)
  candidates : ∀ pattern binding i, i ∈ s.view.candidates s.store pattern binding ↔
    s.IsHead i ∧ ∃ fact, s.factOf i = some fact ∧
      ForthDb.Agrees (resolvedAtom pattern.subject binding)
        (resolvedPredicate pattern.predicate binding) (resolvedAtom pattern.object binding) fact

/-- The records of `definitions` are the definitions of the slot, from its head on along the
previous heads. -/
structure Descends (slot : SlotId) (records : List Record) : Prop where
  head : records.head?.map Record.id = s.store.head.get slot
  previous : records.IsChain fun newer older => newer.previousHead = some older.id
  last : ∀ r ∈ records.getLast?, r.previousHead = none
  decreasing : (records.map Record.id).Pairwise (· > ·)
  defines : ∀ r ∈ records, r.kind = .define ∧ r.slot = slot

structure StackLaw : Prop where
  /-- A define pushes. -/
  define : ∀ slot fact, ∃ recordId s' facts, s.define slot fact = .ok (recordId, s') ∧
    s.definitions slot = .ok facts ∧ s'.definitions slot = .ok (fact :: facts) ∧
    ∀ slot', slot' ≠ slot → s'.definitions slot' = s.definitions slot'
  /-- A forget pops. -/
  forget : ∀ slot, ∃ recordId s' facts, s.forget slot = .ok (recordId, s') ∧
    s.definitions slot = .ok facts ∧ s'.definitions slot = .ok facts.tail ∧
    ∀ slot', slot' ≠ slot → s'.definitions slot' = s.definitions slot'
  /-- A forget of an empty slot changes no head. -/
  forgetEmpty : ∀ slot, s.store.head.get slot = none → ∃ recordId s',
    s.forget slot = .ok (recordId, s') ∧
      ∀ slot', s'.store.head.get slot' = s.store.head.get slot'
  resolve : ∀ slot, ∃ facts, s.definitions slot = .ok facts ∧ s.resolve slot = .ok facts.head?
  descends : ∀ slot, ∃ records, s.store.definitions slot = .ok records ∧ s.Descends slot records
  history : ∃ log, s.store.log.Lists log ∧
    ∀ slot, s.history slot = .ok (log.filter fun r => r.slot = slot)
  validate : s.validate = .ok () ↔ s.validateFull = .ok ()
  validated : s.validate = .ok ()
  /-- A record is taken from a signature only where its slot has a head. -/
  counts : s.store.activeSignature.count = s.store.head.len ∧
    s.view.activeSignature.count = s.store.head.len ∧
    ∀ slot, s.store.head.get slot ≠ none → 0 < s.store.head.len

end SharedForthDb

/-! ## The indexes -/

theorem SharedIndex.Keeps.buckets {κ : Type} [DecidableEq κ] [HashBytes κ] {index : SharedIndex κ}
    {keyOf : ℕ → Option κ} {active : Finset ℕ} (h : index.Keeps keyOf active) {isHead : ℕ → Prop}
    (hactive : ∀ i, i ∈ active ↔ isHead i) : index.Buckets isHead keyOf where
  mem key i := by
    rw [← hactive, ← mem_bucketOf, h.indexBy key]
    constructor
    · rintro ⟨bucket, hbucket, hi⟩
      rwa [← keptBucket_getD (bucketOf keyOf active key), hbucket]
    · intro hi
      exact ⟨_, keptBucket_of_mem hi, hi⟩
  nonempty key bucket hmem := by
    obtain ⟨d, hd, hindex⟩ := h
    have hlookup := hd.mem_entries.1 hmem
    refine ⟨(hd.get_eq key).trans hlookup, ?_⟩
    have hkept := (hindex key).symm.trans hlookup
    unfold keptBucket at hkept
    by_cases hempty : bucketOf keyOf active key = ∅
    · rw [if_pos hempty] at hkept
      cases hkept
    · rw [if_neg hempty] at hkept
      cases hkept
      exact Finset.nonempty_iff_ne_empty.2 hempty

namespace SharedForthDb

variable {s : SharedForthDb} {k : ForthDb} {m : SlotStacks}

theorem Refines.isHead_iff (h : s.Refines k) (i : ℕ) : i ∈ k.active ↔ s.IsHead i := by
  rw [ForthDb.mem_active]
  exact exists_congr fun slot => by rw [h.store.head.get_eq]

theorem Refines.factOf_eq (h : s.Refines k) : s.factOf = k.factOf := by
  funext i
  unfold factOf ForthDb.factOf
  rw [h.record_eq]
  unfold ForthDb.record
  cases k.store.log[i]? <;> rfl

/-- **The indexes of a kernel** are exact. -/
theorem Refines.indexesExact (h : s.Refines k) (hk : k.Sound) : s.IndexesExact := by
  have hactive := h.isHead_iff
  have hview := h.view
  rw [← h.factOf_eq] at hview
  have hcandidates (pattern : Pattern) (binding : Binding) :
      s.view.candidates s.store pattern binding = k.candidates pattern binding := by
    rw [← h.view.exact.candidates_eq hk, ← h.activeRecordIds_eq]
    rfl
  refine ⟨hview.bySubject.buckets hactive, hview.byPredicate.buckets hactive,
    hview.byObject.buckets hactive, hview.bySubjectPredicate.buckets hactive,
    hview.bySubjectObject.buckets hactive, hview.byPredicateObject.buckets hactive,
    hview.byExact.buckets hactive, fun pattern binding => ?_, fun pattern binding i => ?_⟩
  · rw [hcandidates]
    exact Finset.sortedLT_sort _ |>.pairwise
  · rw [hcandidates]
    unfold ForthDb.candidates
    rw [Finset.mem_sort, Finset.mem_filter, hactive, h.factOf_eq]
    rfl

/-! ## The stacks -/

/-- The loop of `definitions` descends through the definitions of one slot. -/
theorem definitionsFrom_descends (hk : k.Sound) {fuel : ℕ} {slot : SlotId} {head : Option ℕ}
    (hhead : ∀ i, head = some i → IsDefinition k.store.log slot i) {records : List Record}
    (h : definitionsFrom k.record fuel head = .ok records) :
    records.head?.map Record.id = head ∧
      records.IsChain (fun newer older => newer.previousHead = some older.id) ∧
      (∀ r ∈ records.getLast?, r.previousHead = none) ∧
      (records.map Record.id).Pairwise (· > ·) ∧
      (∀ r ∈ records, r.kind = .define ∧ r.slot = slot) ∧
      ∀ r ∈ records, ∀ i, head = some i → r.id ≤ i := by
  induction fuel generalizing head records with
  | zero =>
    cases head with
    | none => cases h; simp
    | some i => cases h
  | succ fuel ih =>
    cases head with
    | none => cases h; simp
    | some i =>
      obtain ⟨r, f, hr, hkind, hslot, -⟩ := hhead i rfl
      have hrecord : k.record i = .ok r := by
        unfold ForthDb.record
        rw [hr]
      unfold definitionsFrom at h
      simp only [hrecord, bind, Except.bind, pure, Except.pure] at h
      cases hrest : definitionsFrom k.record fuel r.previousHead with
      | error e => rw [hrest] at h; cases h
      | ok rest =>
        rw [hrest] at h
        cases h
        have hprevious (p : ℕ) (hp : r.previousHead = some p) :
            p < i ∧ IsDefinition k.store.log slot p := by
          rw [← hslot]
          exact hk.previous i r hr p hp
        obtain ⟨hfirst, hchain, hlast, hdecreasing, hdefines, hle⟩ :=
          ih (fun p hp => (hprevious p hp).2) hrest
        have hid : r.id = i := hk.ids i r hr
        have hbelow : ∀ q ∈ rest, q.id < i := by
          intro q hq
          cases hp : r.previousHead with
          | none =>
            rw [hp] at hfirst
            rw [List.head?_eq_none_iff.1 (Option.map_eq_none_iff.1 hfirst)] at hq
            cases hq
          | some p =>
            have hlt := (hprevious p hp).1
            have hqp := hle q hq p hp
            omega
        refine ⟨by simp [hid], ?_, ?_, ?_, ?_, ?_⟩
        · cases rest with
          | nil => exact .singleton r
          | cons q rest => exact .cons_cons hfirst.symm hchain
        · intro q hq
          cases hrest' : rest with
          | nil =>
            subst hrest'
            rw [List.getLast?_singleton] at hq
            cases hq
            exact hfirst.symm
          | cons q' rest' =>
            rw [hrest', List.getLast?_cons_cons, ← hrest'] at hq
            exact hlast q hq
        · rw [List.map_cons, List.pairwise_cons]
          refine ⟨fun n hn => ?_, hdecreasing⟩
          obtain ⟨q, hq, rfl⟩ := List.mem_map.1 hn
          rw [hid]
          exact hbelow q hq
        · intro q hq
          rcases List.mem_cons.1 hq with rfl | hq
          · exact ⟨hkind, hslot⟩
          · exact hdefines q hq
        · intro q hq j hj
          cases hj
          rcases List.mem_cons.1 hq with rfl | hq
          · exact hid.le
          · exact (hbelow q hq).le

theorem Refines.definitions_eq (h : s.Refines k) (hk : k.Sound) (hm : k.Holds m) (slot : SlotId) :
    s.definitions slot = .ok (m.stack slot) := by
  rw [← hm.definitions_eq slot]
  exact congrArg (fun o => o.definitions slot) (h.observe_eq hk hm)

theorem Refines.descends (h : s.Refines k) (hk : k.Sound) (slot : SlotId) :
    ∃ records, s.store.definitions slot = .ok records ∧ s.Descends slot records := by
  obtain ⟨records, hrecords⟩ := hk.definitionsFrom_ok k.store.log.length
    (k.store.head.lookup slot) fun i hi => ⟨(hk.heads slot i hi).lt, (hk.heads slot i hi).lt⟩
  refine ⟨records, ?_, ?_⟩
  · unfold SharedDefinitionStore.definitions
    rw [h.store.head.get_eq, h.store.log.len, h.record_eq]
    exact hrecords
  · obtain ⟨hhead, hchain, hlast, hdecreasing, hdefines, -⟩ :=
      definitionsFrom_descends hk (hk.heads slot) hrecords
    refine ⟨?_, hchain, hlast, hdecreasing, hdefines⟩
    rw [h.store.head.get_eq]
    exact hhead

end SharedForthDb

/-! ## Validation -/

namespace SharedForthDb

variable {s : SharedForthDb} {k : ForthDb} {m : SlotStacks}

theorem checkHeads_ok (h : s.Refines k) {recordIds : List ℕ}
    (hdefines : ∀ i ∈ recordIds, ∃ slot, IsDefinition k.store.log slot i) :
    s.store.checkHeads recordIds = .ok () := by
  induction recordIds with
  | nil => rfl
  | cons i recordIds ih =>
    obtain ⟨slot, r, f, hr, hkind, -, hf⟩ := hdefines i List.mem_cons_self
    unfold SharedDefinitionStore.checkHeads
    rw [h.record_eq, ForthDb.record, hr]
    simp only [bind, Except.bind, hkind, hf, ne_eq, not_true_eq_false, reduceCtorEq, or_self,
      if_false]
    exact ih fun j hj => hdefines j (List.mem_cons_of_mem _ hj)

/-- No record is the head of two slots. -/
theorem Refines.nodup_values (h : s.Refines k) (hk : k.Sound) : s.store.head.values.Nodup := by
  unfold ShardedMap.values
  rw [(h.store.head.entries_perm.map Prod.snd).nodup_iff, List.map_map]
  refine List.Nodup.map_on ?_ k.store.head.nodupKeys.nodup
  rintro ⟨slot, i⟩ hslot ⟨slot', i'⟩ hslot' heq
  have hi : i = i' := heq
  have hdef := hk.heads slot i (Dict.mem_entries.1 hslot)
  rw [hi] at hdef
  rw [hdef.slot_eq (hk.heads slot' i' (Dict.mem_entries.1 hslot')), hi]

theorem Refines.mem_values (h : s.Refines k) (i : ℕ) : i ∈ s.store.head.values ↔ i ∈ k.active := by
  rw [← h.activeRecordIds_eq]
  exact List.mem_toFinset.symm

/-- The audited index holds exactly the active records. -/
theorem Refines.indexed_eq (h : s.Refines k) (hk : k.Sound) : s.view.indexed = k.active := by
  have hbuckets := (h.indexesExact hk).bySubjectPredicate
  ext i
  unfold SharedCurrentView.indexed ShardedMap.values
  rw [List.mem_toFinset, List.mem_flatMap, h.isHead_iff]
  constructor
  · rintro ⟨bucket, hbucket, hi⟩
    obtain ⟨⟨key, bucket'⟩, hmem, rfl⟩ := List.mem_map.1 hbucket
    obtain ⟨hget, -⟩ := hbuckets.nonempty key bucket' hmem
    exact ((hbuckets.mem key i).1 ⟨bucket', hget, (Finset.mem_sort _).1 hi⟩).1
  · intro hi
    obtain ⟨fact, hfact⟩ := hk.factOf_active ((h.isHead_iff i).2 hi)
    rw [← h.factOf_eq] at hfact
    obtain ⟨bucket, hget, hmem⟩ := (hbuckets.mem (fact.subject, fact.predicate) i).2
      ⟨hi, by rw [hfact]; rfl⟩
    obtain ⟨d, hd, -⟩ := h.view.bySubjectPredicate
    refine ⟨bucket, List.mem_map.2 ⟨((fact.subject, fact.predicate), bucket), ?_, rfl⟩,
      (Finset.mem_sort _).2 hmem⟩
    rw [hd.mem_entries, ← hd.get_eq]
    exact hget

/-- **The full audit of a kernel succeeds.** -/
theorem Refines.validateFull_ok (h : s.Refines k) (hk : k.Sound) (hm : k.Holds m)
    (hsigned : k.Signed) : s.validateFull = .ok () := by
  have hheads : s.store.checkHeads s.store.head.values = .ok () := by
    refine checkHeads_ok h fun i hi => hk.active_definition ?_
    exact (h.mem_values i).1 hi
  have hstore : s.store.head.values.foldl ActiveSignature.add .zero = s.store.activeSignature := by
    rw [ActiveSignature.foldl_add_eq (h.nodup_values hk) h.mem_values, ← hsigned,
      h.store.signature]
  have hview : s.view.indexed.sort.foldl ActiveSignature.add .zero = s.view.activeSignature := by
    rw [h.indexed_eq hk, h.signature, hm.view, hsigned]
    rfl
  unfold validateFull SharedDefinitionStore.validateFull SharedCurrentView.validateFull
  rw [hheads, hstore, hview, h.activeRecordIds_eq, h.indexed_eq hk]
  simp only [bind, Except.bind, ne_eq, not_true_eq_false, if_false]

/-- **A kernel's slots are stacks.** -/
theorem Refines.stackLaw (h : s.Refines k) (hk : k.Sound) (hm : k.Holds m) (hsigned : k.Signed) :
    s.StackLaw := by
  have hobserve := h.observe_eq hk hm
  have hvalid : s.validate = .ok () := congrArg Observation.validate hobserve
  refine ⟨fun slot fact => ?_, fun slot => ?_, fun slot hempty => ?_, fun slot => ?_,
    h.descends hk, ⟨k.store.log, h.store.log, fun slot => ?_⟩, ?_, hvalid, ?_, ?_, ?_⟩
  · obtain ⟨s', hs', hrefines⟩ := h.define hk slot fact
    have hafter := hrefines.definitions_eq (ForthDb.define_sound hk slot fact)
      (ForthDb.define_holds hm slot fact)
    refine ⟨_, s', m.stack slot, hs', h.definitions_eq hk hm slot, ?_, fun slot' hne => ?_⟩
    · rw [hafter, StackMap.stack_push_self]
    · rw [hafter, StackMap.stack_push_ne m fact hne, h.definitions_eq hk hm]
  · obtain ⟨s', hs', hrefines⟩ := h.forget hk slot
    have hafter := hrefines.definitions_eq (ForthDb.forget_sound hk slot)
      (ForthDb.forget_holds hm slot)
    refine ⟨_, s', m.stack slot, hs', h.definitions_eq hk hm slot, ?_, fun slot' hne => ?_⟩
    · rw [hafter, StackMap.stack_pop_self]
    · rw [hafter, StackMap.stack_pop_ne m hne, h.definitions_eq hk hm]
  · obtain ⟨s', hs', hrefines⟩ := h.forget hk slot
    refine ⟨_, s', hs', fun slot' => ?_⟩
    rw [h.store.head.get_eq] at hempty
    rw [hrefines.store.head.get_eq, h.store.head.get_eq, ForthDb.forget_head]
    by_cases hslot : slot' = slot
    · rw [if_pos hslot, hslot, hempty, ForthDb.revealed, hempty]
      rfl
    · rw [if_neg hslot]
  · refine ⟨m.stack slot, h.definitions_eq hk hm slot, ?_⟩
    have hresolve := congrArg (fun o => o.resolve slot) hobserve
    refine hresolve.trans ?_
    show Except.ok (k.resolve slot) = _
    rw [ForthDb.resolve_eq hm]
    rfl
  · have hhistory := congrArg (fun o => o.history slot) hobserve
    exact hhistory
  · rw [hvalid, h.validateFull_ok hk hm hsigned]
  · rw [h.store.signature, ← hm.count, h.store.head.len]
  · rw [h.signature, hm.view, ← hm.count, h.store.head.len]
  · intro slot hslot
    rw [h.store.head.get_eq] at hslot
    rw [h.store.head.len, Dict.size_eq_card, Finset.card_pos]
    refine ⟨slot, ?_⟩
    rw [List.mem_toFinset]
    exact (Dict.mem_keys _ _).2 hslot

/-- What every operation keeps. -/
def Lawful (s : SharedForthDb) : Prop :=
  ∃ k m, s.Refines k ∧ k.Sound ∧ ForthDb.Holds k m ∧ k.Signed

/-- **Every member of a family of clones is lawful**, and no event panics. -/
theorem family_lawful (events : List KernelEvent) : ∃ returned kernels,
    sharedApi.run [.new] events = .ok (returned, kernels) ∧ ∀ s ∈ kernels, s.Lawful := by
  refine sharedApi.run_all ?_ ?_ ?_ events fun s hs => ?_
  · rintro s ⟨k, m, h, hk, hm, hsigned⟩
    exact ⟨_, m, h.entity.2, ForthDb.entity_sound hk, ForthDb.entity_holds hm, hsigned⟩
  · rintro s slot fact ⟨k, m, h, hk, hm, hsigned⟩
    obtain ⟨s', hs', hrefines⟩ := h.define hk slot fact
    exact ⟨_, s', hs', _, _, hrefines, ForthDb.define_sound hk slot fact,
      ForthDb.define_holds hm slot fact, ForthDb.define_signed hsigned hk slot fact⟩
  · rintro s slot ⟨k, m, h, hk, hm, hsigned⟩
    obtain ⟨s', hs', hrefines⟩ := h.forget hk slot
    exact ⟨_, s', hs', _, _, hrefines, ForthDb.forget_sound hk slot,
      ForthDb.forget_holds hm slot, ForthDb.forget_signed hsigned hk slot⟩
  · rw [List.mem_singleton.1 hs]
    exact ⟨_, _, new_refines, ForthDb.new_sound, ForthDb.new_holds, ForthDb.new_signed⟩

end SharedForthDb

/-- **The indexes hold exactly the heads**, in every kernel that any sequence of events on any
family of clones leads to, and the candidates of a pattern are the heads that agree with its
bound positions. -/
theorem indexes_exact (events : List KernelEvent) : ∃ returned kernels,
    sharedApi.run [.new] events = .ok (returned, kernels) ∧ ∀ s ∈ kernels, s.IndexesExact := by
  obtain ⟨returned, kernels, hrun, hlawful⟩ := SharedForthDb.family_lawful events
  refine ⟨returned, kernels, hrun, fun s hs => ?_⟩
  obtain ⟨k, m, h, hk, -, -⟩ := hlawful s hs
  exact h.indexesExact hk

/-- **A slot is a stack**, in every kernel that any sequence of events on any family of clones
leads to. -/
theorem slot_stack_law (events : List KernelEvent) : ∃ returned kernels,
    sharedApi.run [.new] events = .ok (returned, kernels) ∧ ∀ s ∈ kernels, s.StackLaw := by
  obtain ⟨returned, kernels, hrun, hlawful⟩ := SharedForthDb.family_lawful events
  refine ⟨returned, kernels, hrun, fun s hs => ?_⟩
  obtain ⟨k, m, h, hk, hm, hsigned⟩ := hlawful s hs
  exact h.stackLaw hk hm hsigned

end ForthDB
