import ForthDB.Lib.RecordLog

/-!
# Logs cut at any byte

A log that was read to its end, cut anywhere: what is left is some whole records and the
torn front of the next one.

* `exists_cut`: how many records are left, and that the rest is incomplete.
* `scanLog_cut`: the cut log is read as those records.
* `scan_encode_long`: a record longer than the format's limit is never read back.
* `scanLog_map`: a scan that keeps more beside its state reads the same logs.
-/

namespace RecordLog

open Bytes

variable {σ τ ε : Type} {f : Format} {accept : σ → ℕ → List UInt8 → Except ε σ}
  {damaged : ℕ → Damage → ε}

/-- Nothing, or the front of a record that is not there as a whole. -/
def Torn (f : Format) (tail : List UInt8) : Prop := tail = [] ∨ scan f tail = .incomplete

theorem scanLog_of_torn {tail : List UInt8} (h : Torn f tail) (n : ℕ) (s : σ) (offset : ℕ) :
    scanLog f accept damaged n s offset tail = .ok (s, offset) := by
  cases n with
  | zero => rfl
  | succ n =>
    rcases h with rfl | h
    · simp [scanLog]
    · by_cases ht : tail = []
      · simp [scanLog, ht]
      · simp [scanLog, ht, h]

/-- Fewer bytes do not complete a record. -/
theorem Torn.take {tail : List UInt8} (h : Torn f tail) (n : ℕ) : Torn f (tail.take n) := by
  rcases h with rfl | h
  · exact .inl List.take_nil
  right
  by_cases h20 : (tail.take n).length < 20
  · unfold scan
    rw [if_pos h20]
  -- the cut keeps the three fields, so it is classified by the same comparisons
  have hn : 20 ≤ n ∧ 20 ≤ tail.length := by
    rw [List.length_take] at h20
    omega
  obtain ⟨m, l, s, body, rfl, hm4, hl8, hs8⟩ := exists_fields hn.2
  have hcut : (m ++ (l ++ (s ++ body))).take n = m ++ (l ++ (s ++ body.take (n - 20))) := by
    rw [List.take_append, List.take_append, List.take_append, hm4, hl8, hs8,
      List.take_of_length_le (by omega), List.take_of_length_le (by omega),
      List.take_of_length_le (by omega), show n - 4 - 8 - 8 = n - 20 by omega]
  rw [scan_fields hm4 hl8 hs8] at h
  rw [hcut, scan_fields hm4 hl8 hs8]
  split at h
  · cases h
  rename_i hmagic
  split at h
  · cases h
  rename_i hlimit
  split at h
  · rename_i hshort
    have hle : (body.take (n - 20)).length ≤ body.length := by
      rw [List.length_take]
      exact min_le_right _ _
    rw [if_neg hmagic, if_neg hlimit, if_pos (by omega)]
  · split at h
    · cases h
    · split at h <;> cases h

/-- The front of a record is torn. -/
theorem torn_encode_take {p : List UInt8} (hp : p.length ≤ f.limit) {n : ℕ}
    (hn : n < 20 + p.length + 4) : Torn f ((f.encode p).take n) := by
  have hsplit : f.encode p = (f.encode p).take n ++ (f.encode p).drop n :=
    (List.take_append_drop n _).symm
  have hrest : (f.encode p).drop n ≠ [] := by
    intro h
    have := congrArg List.length h
    rw [List.length_drop, length_encode, List.length_nil] at this
    omega
  exact .inr (scan_torn hp hsplit hrest)

/-- **A log cut at any byte** is some whole records, as many as there is room for, and a torn
rest. -/
theorem exists_cut {ps : List (List UInt8)} (hps : ∀ p ∈ ps, p.length ≤ f.limit)
    {tail : List UInt8} (ht : Torn f tail) (n : ℕ) :
    ∃ k ≤ ps.length, ∃ rest,
      (ps.flatMap f.encode ++ tail).take n = (ps.take k).flatMap f.encode ++ rest ∧ Torn f rest ∧
      ((ps.take k).flatMap f.encode).length ≤ n ∧
      (k < ps.length → n < ((ps.take (k + 1)).flatMap f.encode).length) := by
  induction ps generalizing n with
  | nil => exact ⟨0, le_rfl, tail.take n, rfl, ht.take n, Nat.zero_le _, by simp⟩
  | cons p ps ih =>
    have hp := hps p (by simp)
    by_cases hn : 20 + p.length + 4 ≤ n
    · -- the first record is whole
      obtain ⟨k, hk, rest, h1, h2, h3, h4⟩ := ih (fun q hq => hps q (by simp [hq]))
        (n - (20 + p.length + 4))
      refine ⟨k + 1, by simpa using hk, rest, ?_, h2, ?_, fun hlt => ?_⟩
      · rw [List.flatMap_cons, List.append_assoc, List.take_append, length_encode,
          List.take_of_length_le (by rw [length_encode]; exact hn), h1, List.take_succ_cons,
          List.flatMap_cons, List.append_assoc]
      · rw [List.take_succ_cons, List.flatMap_cons, List.length_append, length_encode]
        omega
      · have hnext := h4 (by simpa using hlt)
        rw [List.take_succ_cons, List.flatMap_cons, List.length_append, length_encode]
        omega
    · refine ⟨0, Nat.zero_le _, (f.encode p).take n, ?_, torn_encode_take hp (by omega),
        Nat.zero_le _, fun _ => ?_⟩
      · rw [List.flatMap_cons, List.append_assoc, List.take_append_of_le_length]
        · rfl
        · rw [length_encode]
          omega
      · simp only [Nat.zero_add, List.take_succ_cons, List.take_zero, List.flatMap_cons,
          List.flatMap_nil, List.append_nil, length_encode]
        omega

/-- The payloads that are accepted before some others. -/
theorem acceptAll_take {ps : List (List UInt8)} {s s' : σ} {offset offset' : ℕ}
    (h : acceptAll accept s offset ps = .ok (s', offset')) (k : ℕ) :
    ∃ t, acceptAll accept s offset (ps.take k) =
      .ok (t, offset + ((ps.take k).flatMap f.encode).length) := by
  induction ps generalizing s offset k with
  | nil => exact ⟨s, by simp [acceptAll]⟩
  | cons p ps ih =>
    cases k with
    | zero => exact ⟨s, rfl⟩
    | succ k =>
      simp only [acceptAll] at h
      cases ha : accept s offset p with
      | error e => rw [ha] at h; cases h
      | ok s₁ =>
        rw [ha] at h
        obtain ⟨t, ht⟩ := ih h k
        refine ⟨t, ?_⟩
        simp only [List.take_succ_cons, acceptAll, ha]
        rw [ht, List.flatMap_cons, List.length_append, length_encode, Nat.add_assoc]

/-- **A cut log is read as the records that are whole.** -/
theorem scanLog_cut {ps : List (List UInt8)} (hps : ∀ p ∈ ps, p.length ≤ f.limit)
    {rest : List UInt8} (hr : Torn f rest) {n : ℕ} {s t : σ} {offset offset' : ℕ}
    (h : acceptAll accept s offset ps = .ok (t, offset'))
    (hn : (ps.flatMap f.encode ++ rest).length ≤ n) :
    scanLog f accept damaged n s offset (ps.flatMap f.encode ++ rest) = .ok (t, offset') := by
  rw [scanLog_records hps hn, h]
  exact scanLog_of_torn hr _ _ _

/-- A payload above the limit is refused behind its length field. -/
theorem scan_encode_long {p : List UInt8} (hp : f.limit < p.length) (hfits : p.length < 256 ^ 8)
    (rest : List UInt8) : scan f (f.encode p ++ rest) = .damaged (.length p.length) := by
  have hl : ofLe (le 8 p.length) = p.length := ofLe_le hfits
  have hbytes : f.encode p ++ rest =
      f.magic ++ (le 8 p.length ++ (le 8 (checksum p) ++ (p ++ f.trailer ++ rest))) := by
    simp [Format.encode]
  rw [hbytes, scan_fields f.magic_length (by simp) (by simp), hl, if_neg (by simp), if_pos hp]

/-- What every accepted payload keeps, a scan keeps. -/
theorem scanLog_rel {R : σ → σ → Prop} (hrefl : ∀ s, R s s)
    (htrans : ∀ s t u, R s t → R t u → R s u)
    (hstep : ∀ s offset p t, accept s offset p = .ok t → R s t) {n : ℕ} {s t : σ} {offset o : ℕ}
    {bytes : List UInt8} (h : scanLog f accept damaged n s offset bytes = .ok (t, o)) : R s t := by
  induction n generalizing s offset bytes with
  | zero => cases h; exact hrefl _
  | succ n ih =>
    simp only [scanLog] at h
    split at h
    · cases h
      exact hrefl _
    · split at h
      · cases h
        exact hrefl _
      · cases h
      · split at h
        · rename_i s' ha
          exact htrans s s' t (hstep _ _ _ _ ha) (ih h)
        · cases h

/-- **A scan that keeps more beside its state** reads the same logs. -/
theorem scanLog_map {accept' : τ → ℕ → List UInt8 → Except ε τ} (view : τ → σ)
    (h : ∀ s offset p, (accept' s offset p).map view = accept (view s) offset p) (n : ℕ) (s : τ)
    (offset : ℕ) (bytes : List UInt8) :
    (scanLog f accept' damaged n s offset bytes).map (fun r => (view r.1, r.2)) =
      scanLog f accept damaged n (view s) offset bytes := by
  induction n generalizing s offset bytes with
  | zero => rfl
  | succ n ih =>
    simp only [scanLog]
    split
    · rfl
    · cases scan f bytes with
      | incomplete => rfl
      | damaged d => rfl
      | record p rest =>
        simp only
        rw [← h s offset p]
        cases accept' s offset p with
        | error e => rfl
        | ok s' => exact ih s' _ _

end RecordLog
