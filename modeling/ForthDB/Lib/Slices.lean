import ForthDB.Lib.Bytes

/-!
# Places in a byte string

A file that is mapped into memory is read by offset. `At file start bytes` says that
`bytes` stands in `file` at `start`; it splits along an append (`At.left`, `At.right`),
composes (`At.trans`), and finds the elements of a table with entries of one width
(`At.nth`).
-/

namespace Bytes

/-- The bytes from `start` up to `stop`, if they are all there. -/
def slice (file : List UInt8) (start stop : ℕ) : Option (List UInt8) :=
  if start ≤ stop ∧ stop ≤ file.length then some ((file.drop start).take (stop - start)) else none

/-- The little-endian number of `k` bytes at an offset. -/
def numberAt (k : ℕ) (file : List UInt8) (offset : ℕ) : Option ℕ :=
  (slice file offset (offset + k)).map ofLe

/-- `bytes` stands in `file` at `start`. -/
def At (file : List UInt8) (start : ℕ) (bytes : List UInt8) : Prop :=
  ∃ front rest, file = front ++ (bytes ++ rest) ∧ front.length = start

variable {file bytes xs ys : List UInt8} {start i : ℕ}

theorem At.refl (file : List UInt8) : At file 0 file := ⟨[], [], by simp, rfl⟩

theorem At.left (h : At file start (xs ++ ys)) : At file start xs := by
  obtain ⟨front, rest, hfile, hfront⟩ := h
  exact ⟨front, ys ++ rest, by simp [hfile], hfront⟩

theorem At.right (h : At file start (xs ++ ys)) : At file (start + xs.length) ys := by
  obtain ⟨front, rest, hfile, hfront⟩ := h
  exact ⟨front ++ xs, rest, by simp [hfile], by simp [hfront]⟩

theorem At.trans (h : At file start bytes) (h' : At bytes i xs) : At file (start + i) xs := by
  obtain ⟨front, rest, hfile, hfront⟩ := h
  obtain ⟨front', rest', hbytes, hfront'⟩ := h'
  exact ⟨front ++ front', rest' ++ rest, by simp [hfile, hbytes], by simp [hfront, hfront']⟩

theorem At.length_le (h : At file start bytes) : start + bytes.length ≤ file.length := by
  obtain ⟨front, rest, hfile, hfront⟩ := h
  rw [hfile, ← hfront]
  simp only [List.length_append]
  omega

/-- **What stands at an offset** is what a slice of its length reads. -/
theorem At.slice (h : At file start bytes) {stop : ℕ} (hstop : stop = start + bytes.length) :
    slice file start stop = some bytes := by
  have hle := h.length_le
  obtain ⟨front, rest, hfile, hfront⟩ := h
  unfold Bytes.slice
  rw [if_pos ⟨by omega, by omega⟩, hfile, List.drop_left' hfront, hstop, Nat.add_sub_cancel_left,
    List.take_left' rfl]

theorem at_of_slice {stop : ℕ} (h : Bytes.slice file start stop = some bytes) :
    At file start bytes ∧ stop = start + bytes.length := by
  unfold Bytes.slice at h
  split at h
  · rename_i hle
    cases h
    have hlen : ((file.drop start).take (stop - start)).length = stop - start := by
      rw [List.length_take, List.length_drop]
      omega
    refine ⟨⟨file.take start, (file.drop start).drop (stop - start), ?_, ?_⟩, by omega⟩
    · rw [List.take_append_drop, List.take_append_drop]
    · rw [List.length_take]
      omega
  · cases h

theorem At.number {k n : ℕ} (h : At file start (le k n)) (hn : n < 256 ^ k) :
    numberAt k file start = some n := by
  unfold numberAt
  rw [h.slice (by rw [Bytes.length_le])]
  exact congrArg some (ofLe_le hn)

/-- Behind a number. -/
theorem At.next {k n : ℕ} (h : At file start (le k n ++ ys)) : At file (start + k) ys := by
  have hright := h.right
  rwa [Bytes.length_le] at hright

/-- A number is read wherever its bytes are there. -/
theorem numberAt_isSome {k offset : ℕ} (h : offset + k ≤ file.length) :
    ∃ n < 256 ^ k, numberAt k file offset = some n := by
  have hlen : ((file.drop offset).take k).length = k := by
    rw [List.length_take, List.length_drop]
    omega
  refine ⟨ofLe ((file.drop offset).take k), ?_, ?_⟩
  · have hlt := ofLe_lt ((file.drop offset).take k)
    rwa [hlen] at hlt
  · unfold numberAt Bytes.slice
    rw [if_pos ⟨by omega, h⟩, Nat.add_sub_cancel_left]
    rfl

/-- **One of some pieces** that stand one behind the other. -/
theorem At.piece {α : Type*} {f : α → List UInt8} {as : List α} (h : At file start (as.flatMap f))
    {a : α} (ha : as[i]? = some a) :
    At file (start + ((as.take i).map fun b => (f b).length).sum) (f a) := by
  induction as generalizing start i with
  | nil => simp at ha
  | cons b as ih =>
    rw [List.flatMap_cons] at h
    cases i with
    | zero =>
      obtain rfl : b = a := by simpa using ha
      exact h.left
    | succ i =>
      have h' := ih h.right (i := i) (by simpa using ha)
      rwa [Nat.add_assoc] at h'

/-- **An entry of a table** whose entries all have width `k`. -/
theorem At.nth {α : Type*} {f : α → List UInt8} {k : ℕ} (hk : ∀ a, (f a).length = k) {as : List α}
    (h : At file start (as.flatMap f)) {a : α} (ha : as[i]? = some a) :
    At file (start + i * k) (f a) := by
  have hi : i < as.length := (List.getElem?_eq_some_iff.1 ha).1
  have hsum : ((as.take i).map fun b => (f b).length).sum = i * k := by
    simp only [hk, List.map_const', List.sum_replicate_nat, List.length_take]
    rw [Nat.min_eq_left (le_of_lt hi)]
  rw [← hsum]
  exact h.piece ha

end Bytes
