import ForthDB.Lib.Slots
import ForthDB.Store.RingEpoch

/-!
# Completions of a submitted epoch

The ring reports each write and the sync of an epoch by one completion, in any order.
`validateCompletionBatch` takes the epoch as durable only when every expected write was
reported once with its full length and the sync once with result 0.

A write is identified by a 32-bit index under a 32-bit tag (`writeUserData`), so a list of
more than `2 ^ 32` writes cannot be told apart and never validates; up to that length the
validator is exact (`validateCompletionBatch_iff`). The ring itself submits one write.
-/

namespace ForthDB

open Slots

/-- The `std::io::Error` of a completion. -/
inductive CompletionError
  | invalidData (message : String)
  | writeZero (message : String)
  | rawOs (code : Int32)
deriving DecidableEq, Repr

namespace Completions

def writeUserDataTag : UInt64 := 0x5752495400000000

def writeUserDataMask : UInt64 := 0xffffffff00000000

def fsyncUserData : UInt64 := 0x4653594e435f4d36

/-- The bits of a write's index. -/
def indexMask : UInt64 := 0xffffffff

def writeUserData (index : ℕ) : UInt64 := writeUserDataTag ||| UInt64.ofNat index

abbrev Checked (α : Type) := Except (EpochIoPhase × CompletionError) α

/-- `invalid_completion`. -/
def invalidCompletion {α : Type} (phase : EpochIoPhase) (message : String) : Checked α :=
  .error (phase, .invalidData message)

/-- The results seen so far: of each expected write, and of the sync. -/
structure Observed where
  writeResults : List (Option Int32)
  fsyncResult : Option Int32
deriving DecidableEq, Repr

/-- How `{:#x}` prints a word. -/
def hexWord (n : UInt64) : String := "0x" ++ String.ofList (Nat.toDigits 16 n.toNat)

/-- The body of the first loop: sort one completion into its slot. -/
def observe (s : Observed) (completion : UInt64 × Int32) : Checked Observed :=
  if completion.1 = fsyncUserData then
    match s.fsyncResult with
    | some _ => invalidCompletion .epochSync "duplicate fsync completion"
    | none => .ok { s with fsyncResult := some completion.2 }
  else if completion.1 &&& writeUserDataMask ≠ writeUserDataTag then
    invalidCompletion .epochWrite ("unknown completion user_data " ++ hexWord completion.1)
  else
    let index := (completion.1 &&& indexMask).toNat
    match s.writeResults[index]? with
    | none => invalidCompletion .epochWrite s!"out-of-range write completion {index}"
    | some (some _) => invalidCompletion .epochWrite s!"duplicate write completion {index}"
    | some none => .ok { s with writeResults := s.writeResults.set index (some completion.2) }

/-- The first loop. -/
def observeAll (s : Observed) : List (UInt64 × Int32) → Checked Observed
  | [] => .ok s
  | completion :: completions =>
    match observe s completion with
    | .ok s' => observeAll s' completions
    | .error e => .error e

/-- The second loop, from write `index` on. -/
def checkWrites (index : ℕ) :
    List (UInt64 × ℕ) → List (Option Int32) → Checked Unit
  | (expectedUserData, expectedLength) :: expected, result :: results =>
    if expectedUserData ≠ writeUserData index then
      invalidCompletion .epochWrite s!"noncanonical expected write identifier at index {index}"
    else match result with
    | none => invalidCompletion .epochWrite s!"missing write completion {index}"
    | some result =>
      if result < 0 then .error (.epochWrite, .rawOs (-result))
      else if result.toInt.toNat ≠ expectedLength then
        .error (.epochWrite, .writeZero
          s!"io_uring write {index} completed {result} of {expectedLength} bytes")
      else checkWrites (index + 1) expected results
  | _, _ => .ok ()

/-- The checks of the sync's result. -/
def checkFsync : Option Int32 → Checked Unit
  | none => invalidCompletion .epochSync "missing data-synchronization completion"
  | some result =>
    if result < 0 then .error (.epochSync, .rawOs (-result))
    else if result ≠ 0 then
      invalidCompletion .epochSync s!"io_uring fsync returned unexpected result {result}"
    else .ok ()

/-- `validate_completion_batch`. -/
def validateCompletionBatch (expectedWrites : List (UInt64 × ℕ)) (expectedCqes : ℕ)
    (completions : List (UInt64 × Int32)) : Checked Unit :=
  if completions.length ≠ expectedCqes then
    invalidCompletion .epochWrite s!"expected {expectedCqes} CQEs, observed {completions.length}"
  else
    match observeAll ⟨List.replicate expectedWrites.length none, none⟩ completions with
    | .error e => .error e
    | .ok s =>
      match checkWrites 0 expectedWrites s.writeResults with
      | .error e => .error e
      | .ok () => checkFsync s.fsyncResult

example : validateCompletionBatch [(writeUserData 0, 11), (writeUserData 1, 17)] 3
    [(writeUserData 1, 17), (fsyncUserData, 0), (writeUserData 0, 11)] = .ok () := by decide +kernel

/-- Writes are identified in order. -/
def Canonical (expected : List (UInt64 × ℕ)) : Prop :=
  ∀ i e, expected[i]? = some e → e.1 = writeUserData i

/-- A completion with its result as a number. -/
def told (completion : UInt64 × Int32) : UInt64 × ℤ := (completion.1, completion.2.toInt)

/-- What a durable epoch reports: each write with its full length, and the sync with 0. -/
def durable (expected : List (UInt64 × ℕ)) : List (UInt64 × ℤ) :=
  (expected.map fun e => (e.1, (e.2 : ℤ))) ++ [(fsyncUserData, 0)]

section Words

theorem and_or_distrib (a b m : UInt64) : (a ||| b) &&& m = (a &&& m) ||| (b &&& m) :=
  UInt64.toBitVec_inj.1 BitVec.and_or_distrib_right

theorem toNat_ofNat_index {i : ℕ} (hi : i < 2 ^ 32) : (UInt64.ofNat i).toNat = i := by
  rw [UInt64.toNat_ofNat']
  exact Nat.mod_eq_of_lt (by omega)

theorem ofNat_and_indexMask {i : ℕ} (hi : i < 2 ^ 32) :
    UInt64.ofNat i &&& indexMask = UInt64.ofNat i := by
  apply UInt64.toNat_inj.1
  rw [UInt64.toNat_and, toNat_ofNat_index hi]
  exact (Nat.and_two_pow_sub_one_eq_mod i 32).trans (Nat.mod_eq_of_lt hi)

theorem writeUserData_index {i : ℕ} (hi : i < 2 ^ 32) :
    (writeUserData i &&& indexMask).toNat = i := by
  have htag : writeUserDataTag &&& indexMask = 0 := by decide
  rw [writeUserData, and_or_distrib, ofNat_and_indexMask hi, htag, UInt64.zero_or,
    toNat_ofNat_index hi]

theorem writeUserData_tag {i : ℕ} (hi : i < 2 ^ 32) :
    writeUserData i &&& writeUserDataMask = writeUserDataTag := by
  have htag : writeUserDataTag &&& writeUserDataMask = writeUserDataTag := by decide
  have hmasks : indexMask &&& writeUserDataMask = 0 := by decide
  rw [writeUserData, and_or_distrib, ← ofNat_and_indexMask hi, UInt64.and_assoc, htag, hmasks,
    UInt64.and_zero, UInt64.or_zero]

/-- Indexes below `2 ^ 32` have identifiers of their own. -/
theorem writeUserData_inj {i j : ℕ} (hi : i < 2 ^ 32) (hj : j < 2 ^ 32)
    (h : writeUserData i = writeUserData j) : i = j := by
  rw [← writeUserData_index hi, h, writeUserData_index hj]

theorem writeUserData_ne_fsync {i : ℕ} (hi : i < 2 ^ 32) : writeUserData i ≠ fsyncUserData := by
  intro h
  have ht := writeUserData_tag hi
  rw [h] at ht
  exact absurd ht (by decide)

/-- A word with the tag is the identifier of its index. -/
theorem eq_writeUserData {u : UInt64} (h : u &&& writeUserDataMask = writeUserDataTag) :
    u = writeUserData (u &&& indexMask).toNat := by
  have hmasks : writeUserDataMask ||| indexMask = -1 := by decide
  rw [writeUserData, UInt64.ofNat_toNat, ← h, UInt64.and_comm u, UInt64.and_comm u,
    ← and_or_distrib, hmasks, UInt64.and_comm, UInt64.and_neg_one]

theorem index_lt (u : UInt64) : (u &&& indexMask).toNat < 2 ^ 32 := by
  rw [UInt64.toNat_and]
  exact lt_of_le_of_lt Nat.and_le_right (by decide)

end Words

/-- The completions that were sorted in. -/
def Observed.completions (s : Observed) : List (UInt64 × Int32) :=
  ((filledFrom 0 s.writeResults).map fun d => (writeUserData d.1, d.2)) ++
    s.fsyncResult.toList.map fun result => (fsyncUserData, result)

/-- The slots of `n` writes hold the completions `seen`, in some order. -/
structure Seen (n : ℕ) (seen : List (UInt64 × Int32)) (s : Observed) : Prop where
  length : s.writeResults.length = n
  completions : s.completions.Perm seen
  index_lt : ∀ d ∈ filledFrom 0 s.writeResults, d.1 < 2 ^ 32

variable {n : ℕ} {seen completions : List (UInt64 × Int32)} {s s' : Observed}
  {expected : List (UInt64 × ℕ)}

theorem seen_nothing (n : ℕ) : Seen n [] ⟨List.replicate n none, none⟩ := by
  refine ⟨List.length_replicate, ?_, ?_⟩
  · simp [Observed.completions, filledFrom_replicate]
  · simp [filledFrom_replicate]

/-- A sync in the empty slot. -/
theorem Seen.fsync (h : Seen n seen s) (hs : s.fsyncResult = none) (result : Int32) :
    Seen n ((fsyncUserData, result) :: seen) { s with fsyncResult := some result } := by
  refine ⟨h.length, ?_, h.index_lt⟩
  have hc := h.completions
  simp only [Observed.completions, hs, Option.toList_none, List.map_nil, List.append_nil] at hc
  simp only [Observed.completions, Option.toList_some, List.map_cons, List.map_nil]
  exact (List.perm_append_singleton _ _).trans (hc.cons _)

/-- A write in its empty slot. -/
theorem Seen.write (h : Seen n seen s) {index : ℕ} (hs : s.writeResults[index]? = some none)
    (hindex : index < 2 ^ 32) (result : Int32) :
    Seen n ((writeUserData index, result) :: seen)
      { s with writeResults := s.writeResults.set index (some result) } := by
  have hset := filledFrom_set (i := 0) hs result
  rw [Nat.zero_add] at hset
  refine ⟨by rw [List.length_set]; exact h.length, ?_, ?_⟩
  · have hmap := hset.map fun d => (writeUserData d.1, d.2)
    exact (hmap.append_right _).trans (h.completions.cons _)
  · intro d hd
    rcases List.mem_cons.1 (hset.subset hd) with rfl | hd
    · exact hindex
    · exact h.index_lt d hd

/-- **One completion** that is accepted was not there yet. -/
theorem Seen.observe (h : Seen n seen s) {completion : UInt64 × Int32}
    (ho : observe s completion = .ok s') : Seen n (completion :: seen) s' := by
  obtain ⟨userData, result⟩ := completion
  unfold Completions.observe at ho
  simp only at ho
  split at ho
  · rename_i hfsync
    subst hfsync
    split at ho
    · cases ho
    · rename_i hnone
      cases ho
      exact h.fsync hnone result
  · split at ho
    · cases ho
    · rename_i htag
      have hid := eq_writeUserData (not_not.1 htag)
      split at ho
      · cases ho
      · cases ho
      · rename_i hempty
        cases ho
        have hw := h.write hempty (Completions.index_lt userData) result
        rwa [← hid] at hw

/-- **A run of the first loop.** -/
theorem Seen.observeAll (h : Seen n seen s) (ho : observeAll s completions = .ok s') :
    Seen n (completions ++ seen) s' := by
  induction completions generalizing s seen with
  | nil =>
    cases ho
    exact h
  | cons completion completions ih =>
    unfold Completions.observeAll at ho
    split at ho
    · rename_i s₁ h₁
      have hs' := ih (h.observe h₁) ho
      exact ⟨hs'.length, hs'.completions.trans List.perm_middle, hs'.index_lt⟩
    · cases ho

/-- A completion that is expected. -/
def Known (n : ℕ) (userData : UInt64) : Prop :=
  userData = fsyncUserData ∨ ∃ index < n, userData = writeUserData index

/-- What a slot holds was seen under its identifier. -/
theorem Seen.mem (h : Seen n seen s) {index : ℕ} {result : Int32}
    (hr : s.writeResults[index]? = some (some result)) : (writeUserData index, result) ∈ seen := by
  apply h.completions.subset
  apply List.mem_append_left
  have hd : (index, result) ∈ filledFrom 0 s.writeResults := mem_filledFrom.2 ⟨index, by simp, hr⟩
  exact List.mem_map.2 ⟨_, hd, rfl⟩

/-- **An expected completion that was not seen** is accepted. -/
theorem Seen.observe_known (h : Seen n seen s) (hn : n ≤ 2 ^ 32) {completion : UInt64 × Int32}
    (hknown : Known n completion.1) (hnew : completion.1 ∉ seen.map Prod.fst) :
    ∃ s', Completions.observe s completion = .ok s' := by
  obtain ⟨userData, result⟩ := completion
  unfold Completions.observe
  simp only at hknown hnew ⊢
  rcases hknown with rfl | ⟨index, hindex, rfl⟩
  · rw [if_pos rfl]
    cases hfsync : s.fsyncResult with
    | none => exact ⟨_, rfl⟩
    | some r =>
      have hmem : (fsyncUserData, r) ∈ seen :=
        h.completions.subset (List.mem_append_right _ (by simp [hfsync]))
      exact absurd (List.mem_map.2 ⟨_, hmem, rfl⟩) hnew
  · have hlt : index < 2 ^ 32 := by omega
    rw [if_neg (writeUserData_ne_fsync hlt), if_neg (not_not.2 (writeUserData_tag hlt)),
      writeUserData_index hlt]
    have hlen : index < s.writeResults.length := by rw [h.length]; exact hindex
    rw [List.getElem?_eq_getElem hlen]
    cases hslot : s.writeResults[index] with
    | none => exact ⟨_, rfl⟩
    | some r =>
      have hfilled : s.writeResults[index]? = some (some r) := by
        rw [List.getElem?_eq_getElem hlen, hslot]
      have hmem := h.mem hfilled
      exact absurd (List.mem_map.2 ⟨_, hmem, rfl⟩) hnew

/-- **Expected completions, each once**, pass the first loop. -/
theorem Seen.observeAll_known (h : Seen n seen s) (hn : n ≤ 2 ^ 32)
    (hknown : ∀ c ∈ completions, Known n c.1)
    (hnodup : ((completions ++ seen).map Prod.fst).Nodup) :
    ∃ s', Completions.observeAll s completions = .ok s' := by
  induction completions generalizing s seen with
  | nil => exact ⟨s, rfl⟩
  | cons completion completions ih =>
    simp only [List.cons_append, List.map_cons, List.nodup_cons] at hnodup
    have hnew : completion.1 ∉ seen.map Prod.fst := by
      intro hmem
      apply hnodup.1
      rw [List.map_append]
      exact List.mem_append_right _ hmem
    obtain ⟨s₁, h₁⟩ := h.observe_known hn (hknown _ (by simp)) hnew
    unfold Completions.observeAll
    rw [h₁]
    apply ih (h.observe h₁) fun c hc => hknown c (by simp [hc])
    have hperm : (completions ++ completion :: seen).Perm (completion :: (completions ++ seen)) :=
      List.perm_middle
    rw [(hperm.map Prod.fst).nodup_iff, List.map_cons, List.nodup_cons]
    exact hnodup

/-- **The second loop** accepts exactly full results for every write. -/
theorem checkWrites_ok {results : List (Option Int32)} {i : ℕ}
    (hcanon : ∀ k e, expected[k]? = some e → e.1 = writeUserData (i + k))
    (hlen : results.length = expected.length) :
    checkWrites i expected results = .ok () ↔
      results.map (Option.map Int32.toInt) = expected.map fun e => some (e.2 : ℤ) := by
  induction expected generalizing results i with
  | nil =>
    obtain rfl : results = [] := List.length_eq_zero_iff.1 hlen
    simp [checkWrites]
  | cons e expected ih =>
    cases results with
    | nil => simp at hlen
    | cons result results =>
      have hhead : e.1 = writeUserData i := hcanon 0 e rfl
      have hrest : results.length = expected.length := by simpa using hlen
      have ih' := ih (i := i + 1)
        (fun k e he => by rw [show i + 1 + k = i + (k + 1) by omega]; exact hcanon (k + 1) e he)
        hrest
      unfold checkWrites
      rw [if_neg (not_not.2 hhead)]
      cases result with
      | none => simp [invalidCompletion]
      | some r =>
        have hneg : r < 0 ↔ r.toInt < 0 := Int32.lt_iff_toInt_lt
        simp only [List.map_cons, Option.map_some, List.cons.injEq, Option.some.injEq]
        by_cases h1 : r < 0
        · have hr : r.toInt ≠ (e.2 : ℤ) := by have := hneg.1 h1; omega
          simp [h1, hr]
        · have hr : r.toInt.toNat = e.2 ↔ r.toInt = (e.2 : ℤ) := by
            have : ¬ r.toInt < 0 := fun h => h1 (hneg.2 h)
            omega
          rw [if_neg h1]
          by_cases h2 : r.toInt.toNat = e.2
          · rw [if_neg (not_not.2 h2), ih']
            simp [hr.1 h2]
          · rw [if_pos h2]
            have hne : ¬ r.toInt = (e.2 : ℤ) := fun h => h2 (hr.2 h)
            simp [hne]

theorem checkFsync_ok {result : Option Int32} :
    checkFsync result = .ok () ↔ result.map Int32.toInt = some 0 := by
  cases result with
  | none => simp [checkFsync, invalidCompletion]
  | some r =>
    have hneg : r < 0 ↔ r.toInt < 0 := Int32.lt_iff_toInt_lt
    have hzero : r = 0 ↔ r.toInt = 0 := (Int32.toInt_inj (y := 0)).symm
    simp only [checkFsync, Option.map_some, Option.some.injEq]
    by_cases h1 : r < 0
    · have hr : r.toInt ≠ 0 := by have := hneg.1 h1; omega
      simp [h1, hr]
    · rw [if_neg h1]
      by_cases h2 : r = 0
      · simp [h2]
      · have hr : ¬ r.toInt = 0 := fun h => h2 (hzero.2 h)
        simp [h2, hr, invalidCompletion]

/-- Full results in the slots are the completions of a durable epoch. -/
theorem told_filledFrom {results : List (Option Int32)} {i : ℕ}
    (hcanon : ∀ k e, expected[k]? = some e → e.1 = writeUserData (i + k))
    (h : results.map (Option.map Int32.toInt) = expected.map fun e => some (e.2 : ℤ)) :
    ((filledFrom i results).map fun d => told (writeUserData d.1, d.2)) =
      expected.map fun e => (e.1, (e.2 : ℤ)) := by
  induction expected generalizing results i with
  | nil =>
    obtain rfl : results = [] := by simpa using h
    rfl
  | cons e expected ih =>
    cases results with
    | nil => simp at h
    | cons result results =>
      simp only [List.map_cons, List.cons.injEq] at h
      obtain ⟨hresult, hrest⟩ := h
      have hhead : e.1 = writeUserData i := hcanon 0 e rfl
      have ih' := ih (i := i + 1)
        (fun k e he => by rw [show i + 1 + k = i + (k + 1) by omega]; exact hcanon (k + 1) e he)
        hrest
      cases result with
      | none => simp at hresult
      | some r =>
        have hr : r.toInt = (e.2 : ℤ) := by simpa using hresult
        have hd : told (writeUserData i, r) = (e.1, (e.2 : ℤ)) := by rw [told, hr, hhead]
        rw [filledFrom, List.map_cons, List.map_cons, hd, ih']

theorem durable_ids (hcanon : Canonical expected) :
    (durable expected).map Prod.fst =
      (List.range expected.length).map writeUserData ++ [fsyncUserData] := by
  have hids : expected.map Prod.fst = (List.range expected.length).map writeUserData := by
    apply List.ext_getElem (by simp)
    intro i h₁ h₂
    have hi : i < expected.length := by simpa using h₁
    have he := hcanon i expected[i] (List.getElem?_eq_getElem hi)
    simp [he]
  simp only [durable, List.map_append, List.map_map, List.map_cons, List.map_nil]
  rw [← hids]
  rfl

/-- Up to `2 ^ 32` writes, the expected identifiers are distinct. -/
theorem durable_nodup (hcanon : Canonical expected) (hn : expected.length ≤ 2 ^ 32) :
    ((durable expected).map Prod.fst).Nodup := by
  rw [durable_ids hcanon]
  apply List.Nodup.append
  · apply List.Nodup.map_on _ List.nodup_range
    intro i hi j hj h
    have hi' := List.mem_range.1 hi
    have hj' := List.mem_range.1 hj
    exact writeUserData_inj (by omega) (by omega) h
  · exact List.nodup_singleton _
  · intro id hid hfsync
    obtain ⟨i, hi, rfl⟩ := List.mem_map.1 hid
    have hi' := List.mem_range.1 hi
    exact writeUserData_ne_fsync (by omega) (List.mem_singleton.1 hfsync)

theorem durable_known (hcanon : Canonical expected) {c : UInt64 × ℤ} (hc : c ∈ durable expected) :
    Known expected.length c.1 := by
  have hid : c.1 ∈ (durable expected).map Prod.fst := List.mem_map.2 ⟨c, hc, rfl⟩
  rw [durable_ids hcanon] at hid
  rcases List.mem_append.1 hid with hid | hid
  · obtain ⟨i, hi, heq⟩ := List.mem_map.1 hid
    exact .inr ⟨i, List.mem_range.1 hi, heq.symm⟩
  · exact .inl (List.mem_singleton.1 hid)

/-- **An accepted batch** reports a durable epoch of at most `2 ^ 32` writes. -/
theorem durable_of_validate (hcanon : Canonical expected)
    (h : validateCompletionBatch expected (expected.length + 1) completions = .ok ()) :
    expected.length ≤ 2 ^ 32 ∧ (completions.map told).Perm (durable expected) := by
  unfold validateCompletionBatch at h
  split at h
  · cases h
  split at h
  · cases h
  rename_i s ho
  split at h
  · cases h
  rename_i hwrites
  have hseen := (seen_nothing expected.length).observeAll ho
  rw [List.append_nil] at hseen
  have hcanon' : ∀ k e, expected[k]? = some e → e.1 = writeUserData (0 + k) := by
    intro k e he
    rw [Nat.zero_add]
    exact hcanon k e he
  have hfull := (checkWrites_ok hcanon' hseen.length).1 hwrites
  have hsync := checkFsync_ok.1 h
  constructor
  · -- the slot of index `2 ^ 32` can never be filled
    by_contra hlong
    have hlen : 2 ^ 32 < s.writeResults.length := by rw [hseen.length]; omega
    have hslot := congrArg (·[2 ^ 32]?) hfull
    simp only [List.getElem?_map, List.getElem?_eq_getElem hlen,
      List.getElem?_eq_getElem (show 2 ^ 32 < expected.length by omega), Option.map_some,
      Option.some.injEq] at hslot
    obtain ⟨r, hr, -⟩ := Option.map_eq_some_iff.1 hslot
    have hmem : (2 ^ 32, r) ∈ filledFrom 0 s.writeResults :=
      mem_filledFrom.2 ⟨2 ^ 32, by simp, by rw [List.getElem?_eq_getElem hlen, hr]⟩
    have := hseen.index_lt _ hmem
    omega
  · refine (hseen.completions.symm.map told).trans ?_
    obtain ⟨r, hr, hzero⟩ := Option.map_eq_some_iff.1 hsync
    simp only [Observed.completions, durable, List.map_append, List.map_map, hr, Option.toList_some,
      List.map_cons, List.map_nil]
    have hmap := told_filledFrom hcanon' hfull
    rw [show (told ∘ fun d : ℕ × Int32 => (writeUserData d.1, d.2)) =
      fun d => told (writeUserData d.1, d.2) from rfl, hmap]
    simp [told, hzero]

/-- **The completions of a durable epoch** of at most `2 ^ 32` writes are accepted. -/
theorem validate_of_durable (hcanon : Canonical expected) (hn : expected.length ≤ 2 ^ 32)
    (h : (completions.map told).Perm (durable expected)) :
    validateCompletionBatch expected (expected.length + 1) completions = .ok () := by
  have hlen : completions.length = expected.length + 1 := by
    have := h.length_eq
    simpa [durable] using this
  have hids : ∀ cs : List (UInt64 × Int32), (cs.map told).map Prod.fst = cs.map Prod.fst := by
    intro cs
    rw [List.map_map]
    rfl
  have hnodup : (completions.map Prod.fst).Nodup := by
    rw [← hids, (h.map Prod.fst).nodup_iff]
    exact durable_nodup hcanon hn
  have hknown : ∀ c ∈ completions, Known expected.length c.1 := by
    intro c hc
    exact durable_known (c := told c) hcanon (h.subset (List.mem_map.2 ⟨c, hc, rfl⟩))
  obtain ⟨s, ho⟩ := (seen_nothing expected.length).observeAll_known hn hknown
    (by rwa [List.append_nil])
  have hseen := (seen_nothing expected.length).observeAll ho
  rw [List.append_nil] at hseen
  have hheld : (s.completions.map told).Perm (durable expected) :=
    (hseen.completions.map told).trans h
  have hcanon' : ∀ k e, expected[k]? = some e → e.1 = writeUserData (0 + k) := by
    intro k e he
    rw [Nat.zero_add]
    exact hcanon k e he
  have hwrites : checkWrites 0 expected s.writeResults = .ok () := by
    rw [checkWrites_ok hcanon' hseen.length]
    apply List.ext_getElem (by simpa using hseen.length)
    intro k h₁ h₂
    have hk : k < expected.length := by simpa using h₂
    have hslot : k < s.writeResults.length := by rw [hseen.length]; exact hk
    -- the slot that reports write `k` can only be slot `k`
    have hmem : (expected[k].1, (expected[k].2 : ℤ)) ∈ durable expected :=
      List.mem_append_left _ (List.mem_map.2 ⟨_, List.getElem_mem hk, rfl⟩)
    have hid : expected[k].1 = writeUserData k := hcanon k _ (List.getElem?_eq_getElem hk)
    obtain ⟨c, hc, hctold⟩ := List.mem_map.1 (hheld.symm.subset hmem)
    have hc1 : c.1 = writeUserData k := (congrArg Prod.fst hctold).trans hid
    have hc2 : c.2.toInt = (expected[k].2 : ℤ) := congrArg Prod.snd hctold
    rcases List.mem_append.1 hc with hc | hc
    · obtain ⟨d, hd, rfl⟩ := List.mem_map.1 hc
      have hdlt := hseen.index_lt d hd
      obtain ⟨j, hj, hjslot⟩ := mem_filledFrom.1 (show (d.1, d.2) ∈ _ from hd)
      have hjk : j = k := writeUserData_inj (by omega) (by omega) (by rw [← hc1, hj, Nat.zero_add])
      subst hjk
      rw [List.getElem?_eq_getElem hslot, Option.some.injEq] at hjslot
      simp [hjslot, hc2]
    · obtain ⟨r, -, rfl⟩ := List.mem_map.1 hc
      exact absurd hc1.symm (writeUserData_ne_fsync (by omega))
  have hsync : checkFsync s.fsyncResult = .ok () := by
    rw [checkFsync_ok]
    have hmem : (fsyncUserData, (0 : ℤ)) ∈ durable expected := List.mem_append_right _ (by simp)
    obtain ⟨c, hc, hctold⟩ := List.mem_map.1 (hheld.symm.subset hmem)
    have hc1 : c.1 = fsyncUserData := congrArg Prod.fst hctold
    have hc2 : c.2.toInt = 0 := congrArg Prod.snd hctold
    rcases List.mem_append.1 hc with hc | hc
    · obtain ⟨d, hd, rfl⟩ := List.mem_map.1 hc
      exact absurd hc1 (writeUserData_ne_fsync (hseen.index_lt d hd))
    · obtain ⟨r, hr, rfl⟩ := List.mem_map.1 hc
      rw [Option.mem_toList.1 hr, Option.map_some, hc2]
  unfold validateCompletionBatch
  rw [if_neg (not_not.2 hlen), ho]
  simp only [hwrites, hsync]

/-- **Completion validation is exact**, for every list of expected writes and every list of
completions: it accepts just the reports of each write once with its full length and of the sync
once with 0, in any order, when the 32-bit indexes reach all writes. -/
theorem validateCompletionBatch_iff (hcanon : Canonical expected)
    (completions : List (UInt64 × Int32)) :
    validateCompletionBatch expected (expected.length + 1) completions = .ok () ↔
      expected.length ≤ 2 ^ 32 ∧ (completions.map told).Perm (durable expected) :=
  ⟨durable_of_validate hcanon, fun h => validate_of_durable hcanon h.1 h.2⟩

/-- `submit_contiguous_epoch` expects one write of all bytes, and the sync. -/
theorem validate_submitted (total : ℕ) (completions : List (UInt64 × Int32)) :
    validateCompletionBatch [(writeUserData 0, total)] 2 completions = .ok () ↔
      (completions.map told).Perm [(writeUserData 0, (total : ℤ)), (fsyncUserData, 0)] := by
  have hcanon : Canonical [(writeUserData 0, total)] := by
    intro i e he
    cases i with
    | zero => rw [← Option.some.inj he]
    | succ i => simp at he
  constructor
  · intro h
    exact (durable_of_validate hcanon h).2
  · intro h
    exact validate_of_durable hcanon (by simp) h

/-- `n` writes of no bytes. -/
def emptyWrites (n : ℕ) : List (UInt64 × ℕ) := (List.range n).map fun i => (writeUserData i, 0)

/-- The report that they were all written and synced. -/
def emptyReport (n : ℕ) : List (UInt64 × Int32) :=
  ((List.range n).map fun i => (writeUserData i, 0)) ++ [(fsyncUserData, 0)]

theorem length_emptyWrites (n : ℕ) : (emptyWrites n).length = n := by simp [emptyWrites]

theorem emptyWrites_canonical (n : ℕ) : Canonical (emptyWrites n) := by
  intro i e he
  obtain ⟨j, hj, rfl⟩ := List.getElem?_map .. ▸ he |> Option.map_eq_some_iff.1
  rw [(List.getElem?_eq_some_iff.1 hj).2.symm, List.getElem_range]

theorem emptyReport_durable (n : ℕ) : (emptyReport n).map told = durable (emptyWrites n) := by
  simp [emptyReport, emptyWrites, durable, told, Function.comp_def]

/-- Three empty writes. -/
theorem validateCompletionBatch_iff_three :
    validateCompletionBatch (emptyWrites 3) 4 (emptyReport 3) = .ok () := by
  have hcanon := emptyWrites_canonical 3
  have hreport : ((emptyReport 3).map told).Perm (durable (emptyWrites 3)) := by
    rw [emptyReport_durable]
  have hn : (emptyWrites 3).length ≤ 2 ^ 32 := by rw [length_emptyWrites]; decide
  exact (validateCompletionBatch_iff hcanon _).2 ⟨hn, hreport⟩

/-- One write more than there are indexes: the full report is not accepted. -/
theorem long_batch_not_validated :
    Canonical (emptyWrites (2 ^ 32 + 1)) ∧
      ((emptyReport (2 ^ 32 + 1)).map told).Perm (durable (emptyWrites (2 ^ 32 + 1))) ∧
      validateCompletionBatch (emptyWrites (2 ^ 32 + 1)) ((emptyWrites (2 ^ 32 + 1)).length + 1)
        (emptyReport (2 ^ 32 + 1)) ≠ .ok () := by
  have hcanon := emptyWrites_canonical (2 ^ 32 + 1)
  refine ⟨hcanon, ?_, ?_⟩
  · rw [emptyReport_durable]
  · intro h
    have hlen := (durable_of_validate hcanon h).1
    rw [length_emptyWrites] at hlen
    omega

end Completions

end ForthDB
