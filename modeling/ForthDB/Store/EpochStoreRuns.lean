import ForthDB.Store.DecodedFrames

/-!
# Runs of the epoch store under faults

* `EpochFileIo.Behind base io`: the file is `base` and anything behind it; `base` ends at
  the append offset. Every call of the I/O keeps it.
* `persist_spec`, `repair_spec`: writing the records appends them or fails behind `base`;
  a repair that succeeds restores `base`.
* `append_cases`: **what an append can do**.
-/

namespace ForthDB

open Bytes FileStore

namespace EpochFileIo

variable {io io' : EpochFileIo} {base : List UInt8}

/-- The file is `base`, which ends at the append offset, and anything behind it. -/
structure Behind (base : List UInt8) (io : EpochFileIo) : Prop where
  offset : io.appendOffset = base.length
  bytes : base <+: io.bytes

theorem next_eq (io : EpochFileIo) :
    ∃ outcome script, io.next = (outcome, { io with script := script }) := by
  unfold next
  cases h : io.script with
  | nil => exact ⟨.done, io.script, rfl⟩
  | cons outcome script => exact ⟨outcome, script, rfl⟩

theorem Behind.land (h : Behind base io) (landed : List UInt8) : Behind base (io.land landed) := by
  refine ⟨h.offset, ?_⟩
  obtain ⟨tail, ht⟩ := h.bytes
  unfold EpochFileIo.land
  rw [h.offset, ← ht, List.take_left]
  exact List.prefix_append _ _

/-- Writing at the end of the file appends. -/
theorem put_end (io : EpochFileIo) (data : List UInt8) :
    io.put io.bytes.length data = { io with bytes := io.bytes ++ data } := by
  simp [put, DiskFile.write]

theorem Behind.append (h : Behind base io) (data : List UInt8) :
    Behind base { io with bytes := io.bytes ++ data } :=
  ⟨h.offset, h.bytes.trans (List.prefix_append _ _)⟩

/-- A write at the end appends some bytes, or fails behind `base`. -/
theorem writeAt_spec (h : Behind base io) (data : List UInt8) :
    Behind base (io.writeAt io.bytes.length data).2 ∧
      ∀ n, (io.writeAt io.bytes.length data).1 = .ok n →
        (io.writeAt io.bytes.length data).2.bytes = io.bytes ++ data.take n ∧ n ≤ data.length := by
  obtain ⟨outcome, script, hnext⟩ := io.next_eq
  have hs : Behind base { io with script := script } := ⟨h.offset, h.bytes⟩
  have hput := fun data => put_end { io with script := script } data
  unfold writeAt
  rw [hnext]
  cases outcome with
  | done =>
    refine ⟨?_, fun n hn => ?_⟩
    · simp only [hput]
      exact hs.append data
    · obtain rfl := Except.ok.inj hn
      simp only [hput, List.take_length, le_refl, and_self]
  | short count =>
    refine ⟨?_, fun n hn => ?_⟩
    · simp only [hput]
      exact hs.append _
    · obtain rfl := Except.ok.inj hn
      simp only [hput]
      refine ⟨?_, by rw [List.length_take]; omega⟩
      rw [List.length_take]
      rcases le_total count data.length with hle | hle
      · rw [min_eq_left hle]
      · rw [min_eq_right hle, List.take_length, List.take_of_length_le hle]
  | fail phase source landed => exact ⟨hs.land landed, fun n hn => (nomatch hn)⟩

/-- **The write loop** appends all of the data, or fails behind `base`. -/
theorem writeAll_spec (h : Behind base io) (data : List UInt8) {fuel : ℕ} (hf : data.length ≤ fuel) :
    Behind base (io.writeAll io.bytes.length data fuel).2 ∧
      ((io.writeAll io.bytes.length data fuel).1 = .ok () →
        (io.writeAll io.bytes.length data fuel).2.bytes = io.bytes ++ data) := by
  -- each turn that goes on has taken at least one byte
  induction fuel generalizing io data with
  | zero =>
    obtain rfl : data = [] := List.length_eq_zero_iff.1 (by omega)
    exact ⟨h, fun _ => (List.append_nil _).symm⟩
  | succ fuel ih =>
    unfold writeAll
    by_cases hd : data = []
    · subst hd
      exact ⟨h, fun _ => (List.append_nil _).symm⟩
    rw [if_neg hd]
    obtain ⟨hb, hok⟩ := writeAt_spec h data
    generalize io.writeAt io.bytes.length data = r at hb hok
    obtain ⟨r, io₁⟩ := r
    cases r with
    | error source => exact ⟨hb, fun hc => (nomatch hc)⟩
    | ok n =>
      cases n with
      | zero => exact ⟨hb, fun hc => (nomatch hc)⟩
      | succ n =>
        obtain ⟨hbytes, hn⟩ := hok (n + 1) rfl
        simp only at hb hbytes ⊢
        have hoff : io.bytes.length + (n + 1) = io₁.bytes.length := by
          rw [hbytes, List.length_append, List.length_take, min_eq_left hn]
        obtain ⟨h₂, ok₂⟩ := ih hb (data.drop (n + 1)) (by rw [List.length_drop]; omega)
        rw [hoff]
        refine ⟨h₂, fun hc => ?_⟩
        rw [ok₂ hc, hbytes, List.append_assoc, List.take_append_drop]

theorem writeAll_nil (io : EpochFileIo) (offset fuel : ℕ) :
    io.writeAll offset [] fuel = (.ok (), io) := by
  cases fuel <;> simp [writeAll]

/-- Without faults the write loop succeeds. -/
theorem writeAll_done (hs : io.script = []) (offset : ℕ) (data : List UInt8) (fuel : ℕ) :
    (io.writeAll offset data fuel).1 = .ok () ∧ (io.writeAll offset data fuel).2.script = [] := by
  cases fuel with
  | zero => exact ⟨rfl, hs⟩
  | succ fuel =>
    by_cases hd : data = []
    · subst hd
      rw [writeAll_nil]
      exact ⟨rfl, hs⟩
    · obtain ⟨n, hn⟩ : ∃ n, data.length = n + 1 :=
        ⟨data.length - 1, by have := List.length_pos_iff.2 hd; omega⟩
      have hdrop : data.drop (n + 1) = [] := by rw [← hn, List.drop_length]
      have hw : io.writeAt offset data = (.ok (n + 1), io.put offset data) := by
        unfold writeAt next
        simp [hs, hn]
      unfold writeAll
      simp only [if_neg hd, hw, hdrop, writeAll_nil]
      exact ⟨trivial, hs⟩

theorem syncEpoch_done (hs : io.script = []) : io.syncEpoch = (.ok (), io) := by
  unfold syncEpoch syncData next
  simp [hs]

theorem writePerFrame_done (hs : io.script = []) (offset : ℕ) (records : List (List UInt8)) :
    (io.writePerFrame offset records).1 = .ok () := by
  induction records generalizing io offset with
  | nil => rfl
  | cons record records ih =>
    obtain ⟨h1, h2⟩ := writeAll_done hs offset record record.length
    unfold writePerFrame writeAllAt
    generalize io.writeAll offset record record.length = r at h1 h2
    obtain ⟨r, io₁⟩ := r
    simp only at h1 h2
    subst h1
    simp only [syncEpoch_done h2]
    exact ih h2 _

theorem syncEpoch_spec (h : Behind base io) :
    Behind base io.syncEpoch.2 ∧ (io.syncEpoch.1 = .ok () → io.syncEpoch.2.bytes = io.bytes) := by
  obtain ⟨outcome, script, hnext⟩ := io.next_eq
  have hs : Behind base { io with script := script } := ⟨h.offset, h.bytes⟩
  unfold syncEpoch syncData
  rw [hnext]
  cases outcome with
  | done => exact ⟨hs, fun _ => rfl⟩
  | short count => exact ⟨hs, fun _ => rfl⟩
  | fail phase source landed => exact ⟨hs.land landed, fun hc => (nomatch hc)⟩

theorem writeOneEpoch_spec (h : Behind base io) (records : List (List UInt8)) :
    Behind base (io.writeOneEpoch io.bytes.length records).2 ∧
      ((io.writeOneEpoch io.bytes.length records).1 = .ok () →
        (io.writeOneEpoch io.bytes.length records).2.bytes = io.bytes ++ records.flatten) := by
  unfold writeOneEpoch
  obtain ⟨hb, hok⟩ := writeAll_spec h records.flatten le_rfl
  unfold writeAllAt
  generalize io.writeAll io.bytes.length records.flatten records.flatten.length = r at hb hok
  obtain ⟨r, io₁⟩ := r
  cases r with
  | error e => exact ⟨hb, fun hc => (nomatch hc)⟩
  | ok =>
    obtain ⟨h₂, ok₂⟩ := syncEpoch_spec hb
    exact ⟨h₂, fun hc => (ok₂ hc).trans (hok rfl)⟩

theorem writePerFrame_spec (h : Behind base io) (records : List (List UInt8)) :
    Behind base (io.writePerFrame io.bytes.length records).2 ∧
      ((io.writePerFrame io.bytes.length records).1 = .ok () →
        (io.writePerFrame io.bytes.length records).2.bytes = io.bytes ++ records.flatten) := by
  induction records generalizing io with
  | nil => exact ⟨h, fun _ => by simp [writePerFrame]⟩
  | cons record records ih =>
    unfold writePerFrame
    obtain ⟨hb, hok⟩ := writeAll_spec h record le_rfl
    unfold writeAllAt
    generalize io.writeAll io.bytes.length record record.length = r at hb hok
    obtain ⟨r, io₁⟩ := r
    cases r with
    | error e => exact ⟨hb, fun hc => (nomatch hc)⟩
    | ok =>
      have h₁ : io₁.bytes = io.bytes ++ record := hok rfl
      obtain ⟨h₂, ok₂⟩ := syncEpoch_spec hb
      simp only
      generalize io₁.syncEpoch = r at h₂ ok₂
      obtain ⟨r, io₂⟩ := r
      cases r with
      | error e => exact ⟨h₂, fun hc => (nomatch hc)⟩
      | ok =>
        have hsync : io₂.bytes = io₁.bytes := ok₂ rfl
        have hoff : io.bytes.length + record.length = io₂.bytes.length := by
          rw [hsync, h₁, List.length_append]
        obtain ⟨h₃, ok₃⟩ := ih h₂
        simp only
        rw [hoff]
        refine ⟨h₃, fun hc => ?_⟩
        rw [ok₃ hc, hsync, h₁, List.flatten_cons, List.append_assoc]

theorem persistEpoch_spec (h : Behind base io) (records : List (List UInt8)) :
    Behind base (io.persistEpoch io.bytes.length records).2 ∧
      ((io.persistEpoch io.bytes.length records).1 = .ok () →
        (io.persistEpoch io.bytes.length records).2.bytes = io.bytes ++ records.flatten) := by
  obtain ⟨outcome, script, hnext⟩ := io.next_eq
  have hs : Behind base { io with script := script } := ⟨h.offset, h.bytes⟩
  have hput := put_end { io with script := script } records.flatten
  unfold persistEpoch
  rw [hnext]
  cases outcome with
  | done =>
    simp only [hput]
    exact ⟨hs.append _, fun _ => trivial⟩
  | short count =>
    simp only [hput]
    exact ⟨hs.append _, fun _ => trivial⟩
  | fail phase source landed => exact ⟨hs.land landed, fun hc => (nomatch hc)⟩

/-- A cut at the end of `base` restores it, or fails behind it. -/
theorem setLen_spec (h : Behind base io) :
    Behind base (io.setLen base.length).2 ∧
      ((io.setLen base.length).1 = .ok () → (io.setLen base.length).2.bytes = base) := by
  obtain ⟨outcome, script, hnext⟩ := io.next_eq
  have hs : Behind base { io with script := script } := ⟨h.offset, h.bytes⟩
  have hcut : io.bytes.take base.length ++ List.replicate (base.length - io.bytes.length) 0 = base := by
    have hle := h.bytes.length_le
    rw [Nat.sub_eq_zero_of_le hle, List.replicate_zero, List.append_nil]
    exact (List.prefix_iff_eq_take.1 h.bytes).symm
  unfold setLen
  rw [hnext]
  cases outcome with
  | done => exact ⟨⟨h.offset, by simp only [DiskFile.setLen, hcut]; exact List.prefix_rfl⟩, fun _ => hcut⟩
  | short count =>
    exact ⟨⟨h.offset, by simp only [DiskFile.setLen, hcut]; exact List.prefix_rfl⟩, fun _ => hcut⟩
  | fail phase source landed => exact ⟨hs.land landed, fun hc => (by cases hc)⟩

theorem syncData_spec (h : Behind base io) :
    Behind base io.syncData.2 ∧ (io.syncData.1 = .ok () → io.syncData.2.bytes = io.bytes) := by
  obtain ⟨outcome, script, hnext⟩ := io.next_eq
  have hs : Behind base { io with script := script } := ⟨h.offset, h.bytes⟩
  unfold syncData
  rw [hnext]
  cases outcome with
  | done => exact ⟨hs, fun _ => rfl⟩
  | short count => exact ⟨hs, fun _ => rfl⟩
  | fail phase source landed => exact ⟨hs.land landed, fun hc => (nomatch hc)⟩

/-- A length query changes no byte, and tells the length. -/
theorem len_spec (io : EpochFileIo) (phase : EpochIoPhase) :
    (io.len phase).2.bytes = io.bytes ∧ (io.len phase).2.transport = io.transport ∧
      (phase ≠ .epochStart → (io.len phase).2.appendOffset = io.appendOffset) ∧
      ∀ n, (io.len phase).1 = .ok n → n = io.bytes.length ∧
        (phase = .epochStart → (io.len phase).2.appendOffset = io.bytes.length) := by
  obtain ⟨outcome, script, hnext⟩ := io.next_eq
  unfold len
  rw [hnext]
  cases outcome with
  | fail phase' source landed => exact ⟨rfl, rfl, fun _ => rfl, fun n hn => (nomatch hn)⟩
  | done =>
    refine ⟨?_, ?_, fun hne => by simp [hne], fun n hn => ⟨(Except.ok.inj hn).symm, ?_⟩⟩
    · simp only; split <;> rfl
    · simp only; split <;> rfl
    · rintro rfl; rfl
  | short count =>
    refine ⟨?_, ?_, fun hne => by simp [hne], fun n hn => ⟨(Except.ok.inj hn).symm, ?_⟩⟩
    · simp only; split <;> rfl
    · simp only; split <;> rfl
    · rintro rfl; rfl

/-- A read changes nothing, and reads the file. -/
theorem readAll_spec (io : EpochFileIo) :
    io.readAll.2.bytes = io.bytes ∧ io.readAll.2.appendOffset = io.appendOffset ∧
      ∀ bytes, io.readAll.1 = .ok bytes → bytes = io.bytes := by
  obtain ⟨outcome, script, hnext⟩ := io.next_eq
  unfold readAll
  rw [hnext]
  cases outcome with
  | done => exact ⟨rfl, rfl, fun bytes hb => (Except.ok.inj hb).symm⟩
  | short count => exact ⟨rfl, rfl, fun bytes hb => (Except.ok.inj hb).symm⟩
  | fail phase source landed => exact ⟨rfl, rfl, fun bytes hb => (nomatch hb)⟩

end EpochFileIo

namespace FileEpochStore

open EpochFile EpochFileIo

variable {s s' : FileEpochStore} {frames : List CommitFrame} {base : List UInt8}

/-- **Writing the records** appends them, or fails behind `base`. -/
theorem persist_spec (h : Behind base s.io) (records : List (List UInt8)) :
    Behind base (s.persist s.io.bytes.length records).2 ∧
      ((s.persist s.io.bytes.length records).1 = .ok () →
        (s.persist s.io.bytes.length records).2.bytes = s.io.bytes ++ records.flatten) := by
  unfold persist
  split
  · exact persistEpoch_spec h records
  · split
    · exact writePerFrame_spec h records
    · exact writeOneEpoch_spec h records

/-- Without faults the records are written. -/
theorem persist_done (hs : s.io.script = []) (offset : ℕ) (records : List (List UInt8)) :
    (s.persist offset records).1 = .ok () := by
  unfold persist
  split
  · unfold persistEpoch next
    simp [hs]
  · split
    · exact writePerFrame_done hs offset records
    · obtain ⟨h1, h2⟩ := writeAll_done hs offset records.flatten records.flatten.length
      unfold writeOneEpoch writeAllAt
      generalize s.io.writeAll offset records.flatten records.flatten.length = r at h1 h2
      obtain ⟨r, io₁⟩ := r
      simp only at h1 h2
      subst h1
      simp only [syncEpoch_done h2]

/-- **A repair that succeeds** restores `base`. -/
theorem repair_spec {io : EpochFileIo} (h : Behind base io) (checkpoint : EpochCheckpoint)
    (hc : checkpoint.startOffset = base.length) :
    Behind base (repair io checkpoint).2 ∧
      ((repair io checkpoint).1 = .ok () → (repair io checkpoint).2.bytes = base) := by
  unfold repair
  rw [hc]
  obtain ⟨h₁, ok₁⟩ := setLen_spec h
  generalize io.setLen base.length = r at h₁ ok₁
  obtain ⟨r, io₁⟩ := r
  cases r with
  | error e => exact ⟨h₁, fun hc => (nomatch hc)⟩
  | ok =>
    have hb₁ : io₁.bytes = base := ok₁ rfl
    obtain ⟨h₂, ok₂⟩ := syncData_spec h₁
    simp only
    generalize io₁.syncData = r at h₂ ok₂
    obtain ⟨r, io₂⟩ := r
    cases r with
    | error e => exact ⟨h₂, fun hc => (nomatch hc)⟩
    | ok =>
      have hb₂ : io₂.bytes = base := (ok₂ rfl).trans hb₁
      obtain ⟨hb₃, -, ho₃, -⟩ := len_spec io₂ .verifyLength
      have h₃ : Behind base (io₂.len .verifyLength).2 := by
        refine ⟨(ho₃ (by decide)).trans h₂.offset, ?_⟩
        rw [hb₃]
        exact h₂.bytes
      simp only
      generalize io₂.len .verifyLength = r at hb₃ h₃
      obtain ⟨r, io₃⟩ := r
      cases r with
      | error e => exact ⟨h₃, fun hc => (nomatch hc)⟩
      | ok n =>
        simp only at hb₃ h₃ ⊢
        split
        · exact ⟨h₃, fun hc => (nomatch hc)⟩
        · obtain ⟨hb₄, ho₄, -⟩ := readAll_spec io₃
          have h₄ : Behind base io₃.readAll.2 := by
            refine ⟨ho₄.trans h₃.offset, ?_⟩
            rw [hb₄]
            exact h₃.bytes
          generalize io₃.readAll = r at hb₄ h₄
          obtain ⟨r, io₄⟩ := r
          cases r with
          | error e => exact ⟨h₄, fun hc => (nomatch hc)⟩
          | ok bytes =>
            simp only at hb₄ h₄ ⊢
            cases verifyRepaired checkpoint bytes with
            | error e => exact ⟨h₄, fun hc => (nomatch hc)⟩
            | ok => exact ⟨h₄, fun _ => (hb₄.trans hb₃).trans hb₂⟩

theorem validateFrom_iff {before : List CommitFrame} :
    validateFrom before frames = .ok () ↔ Linear before frames := by
  induction frames generalizing before with
  | nil => simp [validateFrom, Linear]
  | cons frame frames ih =>
    unfold validateFrom Linear
    cases hc : checkPosition before frame with
    | error e => simp
    | ok => simpa using ih

theorem encodeRecords_ok {records : List (List UInt8)} (h : encodeRecords frames = .ok records) :
    records.flatten = recordsFor frames ∧
      ∀ f ∈ frames, (encodePayload f).length ≤ maxFrameBytes := by
  induction frames generalizing records with
  | nil => cases h; exact ⟨rfl, by simp⟩
  | cons frame frames ih =>
    unfold encodeRecords encodeRecord at h
    simp only at h
    by_cases hlen : maxFrameBytes < (encodePayload frame).length
    · rw [if_pos hlen] at h
      cases h
    · rw [if_neg hlen] at h
      simp only at h
      cases hrest : encodeRecords frames with
      | error e => rw [hrest] at h; cases h
      | ok rest =>
        rw [hrest] at h
        cases h
        obtain ⟨h1, h2⟩ := ih hrest
        refine ⟨by simp [h1], ?_⟩
        rw [List.forall_mem_cons]
        exact ⟨not_lt.1 hlen, h2⟩

/-- The errors of a batch that is refused before its first write. -/
def Refusal : FileEpochStoreError → Prop
  | .file _ | .io .epochStart _ | .storePoisoned _ => True
  | _ => False

theorem refusal_of_ensureHealthy {e : FileEpochStoreError} (h : s.ensureHealthy = .error e) :
    Refusal e := by
  unfold ensureHealthy at h
  split at h <;> cases h <;> trivial

theorem refusal_of_validateFrom {before : List CommitFrame} {e : FileEpochStoreError}
    (h : validateFrom before frames = .error e) : Refusal e := by
  induction frames generalizing before with
  | nil => cases h
  | cons frame frames ih =>
    unfold validateFrom at h
    split at h
    · cases h; trivial
    · exact ih h

theorem refusal_of_encodeRecords {e : FileEpochStoreError} (h : encodeRecords frames = .error e) :
    Refusal e := by
  induction frames with
  | nil => cases h
  | cons frame frames ih =>
    unfold encodeRecords encodeRecord at h
    simp only at h
    by_cases hlen : maxFrameBytes < (encodePayload frame).length
    · rw [if_pos hlen] at h
      cases h
      trivial
    · rw [if_neg hlen] at h
      simp only at h
      cases hrest : encodeRecords frames with
      | error e' => rw [hrest] at h; cases h; exact ih hrest
      | ok rest => rw [hrest] at h; cases h

/-- The store but for its I/O. -/
def SameBut (s s' : FileEpochStore) : Prop := s' = { s with io := s'.io }

/-- **Preparing a batch** refuses it and leaves the store, or checks it and marks the end of
the file. -/
theorem prepareEpoch_cases (s : FileEpochStore) (hne : frames ≠ []) :
    (∃ e s', s.prepareEpoch frames = (.error e, s') ∧ Refusal e ∧ SameBut s s' ∧
      s'.io.bytes = s.io.bytes) ∨
    ∃ records s', s.prepareEpoch frames =
        (.ok ⟨s.checkpoint s.io.bytes.length, frames, records⟩, s') ∧
      s.state = .healthy ∧ Linear s.frames frames ∧ records.flatten = recordsFor frames ∧
      (∀ f ∈ frames, (encodePayload f).length ≤ maxFrameBytes) ∧ SameBut s s' ∧
      s'.io.bytes = s.io.bytes ∧ Behind s.io.bytes s'.io := by
  unfold prepareEpoch
  cases hh : s.ensureHealthy with
  | error e => exact .inl ⟨e, s, rfl, refusal_of_ensureHealthy hh, rfl, rfl⟩
  | ok =>
    have hstate : s.state = .healthy := by
      unfold ensureHealthy at hh
      split at hh
      · assumption
      · cases hh
      · cases hh
    simp only [if_neg hne]
    cases hv : s.validateEpoch frames with
    | error e => exact .inl ⟨e, s, rfl, refusal_of_validateFrom hv, rfl, rfl⟩
    | ok =>
      simp only
      cases he : encodeRecords frames with
      | error e => exact .inl ⟨e, s, rfl, refusal_of_encodeRecords he, rfl, rfl⟩
      | ok records =>
        obtain ⟨hflat, hlen⟩ := encodeRecords_ok he
        simp only
        obtain ⟨hb, -, -, hok⟩ := len_spec s.io .epochStart
        generalize s.io.len .epochStart = r at hb hok
        obtain ⟨r, io⟩ := r
        cases r with
        | error source => exact .inl ⟨_, _, rfl, trivial, rfl, hb⟩
        | ok n =>
          obtain ⟨hn, ho⟩ := hok n rfl
          subst hn
          refine .inr ⟨records, _, rfl, hstate, validateFrom_iff.1 hv, hflat, hlen, rfl, hb, ho rfl,
            ?_⟩
          simp only at hb
          rw [← hb]

/-- What an append that was prepared comes to. -/
inductive Appended (s : FileEpochStore) (frames : List CommitFrame) :
    Except FileEpochStoreError Unit → FileEpochStore → Prop
  /-- The records are behind the old bytes. -/
  | committed {s' : FileEpochStore} : s'.io.bytes = s.io.bytes ++ recordsFor frames →
      s'.frames = s.frames ++ frames → s'.state = .healthy →
      s'.prefixDigest = Fnv.fnv1aFrom s.prefixDigest (recordsFor frames) →
      Appended s frames (.ok ()) s'
  /-- The file is as it was. -/
  | repaired {s' : FileEpochStore} (phase : EpochIoPhase) (source : String) :
      s'.io.bytes = s.io.bytes → s'.frames = s.frames → s'.state = .healthy →
      s'.prefixDigest = s.prefixDigest → Appended s frames (.error (.epochRepaired phase source)) s'
  /-- The old bytes are still there. -/
  | poisoned {s' : FileEpochStore} (phase : EpochIoPhase) (source : String)
      (repairPhase : EpochIoPhase) (repair : String) :
      s.io.bytes <+: s'.io.bytes → s'.frames = s.frames → s'.state = .poisoned →
      Appended s frames (.error (.repairFailed phase source repairPhase repair)) s'

theorem foldl_digest (records : List (List UInt8)) (digest : UInt64) :
    records.foldl Fnv.fnv1aFrom digest = Fnv.fnv1aFrom digest records.flatten := by
  induction records generalizing digest with
  | nil => rfl
  | cons record records ih => rw [List.foldl_cons, ih, List.flatten_cons, Fnv.fnv1aFrom_append]

/-- **What an append can do**: nothing for an empty batch, refuse and leave the store, or
write and then commit, repair or poison. -/
theorem append_cases (s : FileEpochStore) (frames : List CommitFrame) :
    (∃ e s', s.appendEpoch frames = (.error e, s') ∧ (s.prepareEpoch frames).1 = .error e ∧
        Refusal e ∧ SameBut s s' ∧ s'.io.bytes = s.io.bytes) ∨
    (frames = [] ∧ s.appendEpoch frames = (.ok (), s) ∧ ∃ p, (s.prepareEpoch frames).1 = .ok p) ∨
    frames ≠ [] ∧ s.state = .healthy ∧ Linear s.frames frames ∧
      (∀ f ∈ frames, (encodePayload f).length ≤ maxFrameBytes) ∧
      (∃ p, (s.prepareEpoch frames).1 = .ok p) ∧
      Appended s frames (s.appendEpoch frames).1 (s.appendEpoch frames).2 := by
  by_cases hne : frames = []
  · subst hne
    unfold appendEpoch prepareEpoch
    cases hh : s.ensureHealthy with
    | error e => exact .inl ⟨e, s, rfl, rfl, refusal_of_ensureHealthy hh, rfl, rfl⟩
    | ok => exact .inr (.inl ⟨rfl, rfl, _, rfl⟩)
  rcases prepareEpoch_cases s hne with ⟨e, s₁, hp, he, hsame, hb⟩ |
      ⟨records, s₁, hp, hstate, hlin, hflat, hlen, hsame, hb, hbehind⟩
  · refine .inl ⟨e, s₁, ?_, by rw [hp], he, hsame, hb⟩
    unfold appendEpoch
    rw [hp]
  refine .inr (.inr ⟨hne, hstate, hlin, hlen, ⟨_, by rw [hp]⟩, ?_⟩)
  unfold appendEpoch
  rw [hp]
  simp only [if_neg hne]
  obtain ⟨h₂, ok₂⟩ := persist_spec hbehind records
  rw [hb] at h₂ ok₂
  have hoff : (s.checkpoint s.io.bytes.length).startOffset = s.io.bytes.length := rfl
  rw [hoff]
  generalize s₁.persist s.io.bytes.length records = r at h₂ ok₂
  obtain ⟨r, io₂⟩ := r
  unfold SameBut at hsame
  cases r with
  | ok =>
    have hbytes : io₂.bytes = s.io.bytes ++ records.flatten := ok₂ rfl
    unfold finishPreparedEpoch
    simp only [if_neg hne]
    refine .committed ?_ ?_ ?_ ?_
    · rw [hbytes, hflat]
    · rw [hsame]
    · rw [hsame]; exact hstate
    · simp only [foldl_digest, hflat]
      rw [hsame]
  | error e =>
    obtain ⟨phase, source⟩ := e
    obtain ⟨h₃, ok₃⟩ := repair_spec h₂ (s.checkpoint s.io.bytes.length) rfl
    unfold finishPreparedEpoch
    simp only [if_neg hne]
    unfold handlePrimaryFailure
    simp only
    generalize repair io₂ (s.checkpoint s.io.bytes.length) = r at h₃ ok₃
    obtain ⟨r, io₃⟩ := r
    cases r with
    | ok =>
      refine .repaired phase source (ok₃ rfl) ?_ rfl ?_
      · rw [hsame]
      · rw [hsame]
    | error e =>
      obtain ⟨repairPhase, repair⟩ := e
      refine .poisoned phase source repairPhase repair h₃.bytes ?_ rfl
      rw [hsame]

/-- What an append promises. -/
structure AppendSound (s : FileEpochStore) (frames : List CommitFrame) : Prop where
  committed : (s.appendEpoch frames).1 = .ok () →
    (s.appendEpoch frames).2.io.bytes = s.io.bytes ++ recordsFor frames ∧
      (s.appendEpoch frames).2.frames = s.frames ++ frames
  refused : ∀ e, (s.prepareEpoch frames).1 = .error e →
    (s.appendEpoch frames).1 = .error e ∧ (s.appendEpoch frames).2.io.bytes = s.io.bytes ∧
      (s.appendEpoch frames).2.frames = s.frames ∧ (s.appendEpoch frames).2.state = s.state
  repaired : ∀ phase source, (s.appendEpoch frames).1 = .error (.epochRepaired phase source) →
    (s.appendEpoch frames).2.io.bytes = s.io.bytes ∧
      (s.appendEpoch frames).2.frames = s.frames ∧ (s.appendEpoch frames).2.state = .healthy
  poisoned : ∀ p e, (s.prepareEpoch frames).1 = .ok p → (s.appendEpoch frames).1 = .error e →
    (∀ phase source, e ≠ .epochRepaired phase source) → (s.appendEpoch frames).2.state = .poisoned

/-- **Every append** keeps its promises. -/
theorem appendSound (s : FileEpochStore) (frames : List CommitFrame) : s.AppendSound frames := by
  rcases append_cases s frames with ⟨e, s', ha, hp, he, hsame, hb⟩ | ⟨rfl, ha, p, hp⟩ |
      ⟨-, -, -, -, ⟨p, hp⟩, happ⟩
  · -- refused: only the script moved on
    unfold SameBut at hsame
    refine ⟨?_, ?_, ?_, ?_⟩
    · rw [ha]
      exact fun hc => (nomatch hc)
    · rw [ha]
      intro e' he'
      rw [hp] at he'
      cases he'
      refine ⟨rfl, hb, ?_, ?_⟩ <;> rw [hsame]
    · rw [ha]
      intro phase source hc
      obtain rfl := Except.error.inj hc
      exact he.elim
    · intro p' e' hp'
      rw [hp] at hp'
      cases hp'
  · -- an empty batch
    have hok : (s.appendEpoch []).1 = .ok () := by rw [ha]
    refine ⟨?_, ?_, ?_, ?_⟩
    · rw [ha]
      exact fun _ => by simp
    · intro e he
      rw [hp] at he
      cases he
    · intro phase source hc
      rw [hok] at hc
      cases hc
    · intro p' e _ hc
      rw [hok] at hc
      cases hc
  · -- the batch was written
    have hnot : ∀ e, (s.prepareEpoch frames).1 ≠ .error e := by
      intro e he
      rw [hp] at he
      cases he
    generalize hr : s.appendEpoch frames = r at happ
    obtain ⟨r, s'⟩ := r
    simp only at happ
    cases happ with
    | committed hb hf hs hd =>
      refine ⟨fun _ => ?_, fun e he => absurd he (hnot e), ?_, ?_⟩
      · rw [hr]
        exact ⟨hb, hf⟩
      · rw [hr]
        exact fun _ _ hc => (nomatch hc)
      · rw [hr]
        exact fun _ _ _ hc => (nomatch hc)
    | repaired phase source hb hf hs hd =>
      refine ⟨?_, fun e he => absurd he (hnot e), fun _ _ _ => ?_, ?_⟩
      · rw [hr]
        exact fun hc => (nomatch hc)
      · rw [hr]
        exact ⟨hb, hf, hs⟩
      · rw [hr]
        intro p' e _ hc hne
        cases hc
        exact absurd rfl (hne phase source)
    | poisoned phase source repairPhase repair hb hf hs =>
      refine ⟨?_, fun e he => absurd he (hnot e), ?_, fun _ _ _ _ _ => ?_⟩
      · rw [hr]
        exact fun hc => (nomatch hc)
      · rw [hr]
        exact fun _ _ hc => (nomatch hc)
      · rw [hr]
        exact hs

theorem encodeRecords_of_le (hlen : ∀ f ∈ frames, (encodePayload f).length ≤ maxFrameBytes) :
    ∃ records, encodeRecords frames = .ok records := by
  induction frames with
  | nil => exact ⟨[], rfl⟩
  | cons frame frames ih =>
    rw [List.forall_mem_cons] at hlen
    obtain ⟨records, hrec⟩ := ih hlen.2
    unfold encodeRecords encodeRecord
    simp only [if_neg (not_lt.2 hlen.1), hrec]
    exact ⟨_, rfl⟩

/-- **Without faults** a linear batch within the payload limit is committed. -/
theorem append_done (hstate : s.state = .healthy) (hscript : s.io.script = []) (hne : frames ≠ [])
    (hlin : Linear s.frames frames)
    (hlen : ∀ f ∈ frames, (encodePayload f).length ≤ maxFrameBytes) :
    ∃ s', s.appendEpoch frames = (.ok (), s') ∧ s'.frames = s.frames ++ frames := by
  obtain ⟨records, hrec⟩ := encodeRecords_of_le hlen
  have hh : s.ensureHealthy = .ok () := by
    unfold ensureHealthy
    rw [hstate]
  have hv : s.validateEpoch frames = .ok () := validateFrom_iff.2 hlin
  have hl : s.io.len .epochStart =
      (.ok s.io.bytes.length, { s.io with appendOffset := s.io.bytes.length }) := by
    unfold len next
    rw [hscript]
    rfl
  have hp : s.prepareEpoch frames = (.ok ⟨s.checkpoint s.io.bytes.length, frames, records⟩,
      { s with io := { s.io with appendOffset := s.io.bytes.length } }) := by
    unfold prepareEpoch
    rw [hh]
    simp only [if_neg hne, hv, hrec, hl]
  set s₁ : FileEpochStore :=
    { s with io := { s.io with appendOffset := s.io.bytes.length } } with hs₁
  have hdone := persist_done (s := s₁) hscript (s.checkpoint s.io.bytes.length).startOffset records
  unfold appendEpoch
  rw [hp]
  simp only [if_neg hne]
  generalize s₁.persist (s.checkpoint s.io.bytes.length).startOffset records = r at hdone
  obtain ⟨r, io⟩ := r
  simp only at hdone
  subst hdone
  unfold finishPreparedEpoch
  simp only [if_neg hne]
  exact ⟨_, rfl, rfl⟩

/-- The frames are the decoding of a prefix of the file, and of the whole file while the store
is healthy. -/
structure Verified (s : FileEpochStore) : Prop where
  state : s.state ≠ .repairing
  decoded : ∃ base, base <+: s.io.bytes ∧ inspectFile base = .ok (s.frames, base.length) ∧
    (s.state = .healthy → base = s.io.bytes ∧ s.prefixDigest = Fnv.fnv1a base)

/-- The batch has no frame beyond the decoder's limit, or is not committed: it is refused before
its first write, or its I/O fails. -/
def Harmless (s : FileEpochStore) (frames : List CommitFrame) : Prop :=
  (∀ f ∈ frames, f.operations.length ≤ maxOperationsPerFrame) ∨
    match s.prepareEpoch frames with
    | (.error _, _) => True
    | (.ok p, s) => ∃ e, (s.persist p.checkpoint.startOffset p.records).1 = .error e

/-- A batch whose I/O fails is not committed. -/
theorem not_committed {p : PreparedFileEpoch} {s₁ : FileEpochStore} (hne : frames ≠ [])
    (hp : s.prepareEpoch frames = (.ok p, s₁)) {e : EpochIoPhase × String}
    (he : (s₁.persist p.checkpoint.startOffset p.records).1 = .error e) :
    (s.appendEpoch frames).1 ≠ .ok () := by
  have hpf : p.frames = frames := by
    rcases prepareEpoch_cases s hne with ⟨e', s', hp', -⟩ | ⟨records, s', hp', -⟩
    · rw [hp] at hp'
      cases hp'
    · rw [hp] at hp'
      cases hp'
      rfl
  unfold appendEpoch
  rw [hp]
  simp only [hpf, if_neg hne]
  generalize s₁.persist p.checkpoint.startOffset p.records = r at he
  obtain ⟨r, io⟩ := r
  simp only at he
  subst he
  unfold finishPreparedEpoch
  simp only [hpf, if_neg hne]
  exact fun hc => (nomatch hc)

/-- **A verified store stays verified** under an append that is harmless. -/
theorem append_verified (h : s.Verified) (hr : ∀ f ∈ frames, f.InRange) (hc : s.Harmless frames) :
    (s.appendEpoch frames).2.Verified := by
  obtain ⟨base, hpre, hdec, hhealthy⟩ := h.decoded
  rcases append_cases s frames with ⟨e, s', ha, hp, he, hsame, hb⟩ | ⟨rfl, ha, -⟩ |
      ⟨hne, hstate, hlin, hlen, -, happ⟩
  · unfold SameBut at hsame
    have hstate : s'.state = s.state := by rw [hsame]
    have hframes : s'.frames = s.frames := by rw [hsame]
    have hdigest : s'.prefixDigest = s.prefixDigest := by rw [hsame]
    rw [ha]
    refine ⟨?_, base, ?_, ?_, ?_⟩
    · rw [hstate]; exact h.state
    · rw [hb]; exact hpre
    · rw [hframes]; exact hdec
    · rw [hstate, hb, hdigest]; exact hhealthy
  · rw [ha]
    exact h
  · obtain ⟨rfl, hdigest⟩ := hhealthy hstate
    -- a committed batch is within the limit
    have hops : (s.appendEpoch frames).1 = .ok () →
        ∀ f ∈ frames, f.operations.length ≤ maxOperationsPerFrame := by
      intro hok
      rcases hc with hc | hc
      · exact hc
      · rcases prepareEpoch_cases s hne with ⟨e, s', hp, he, -⟩ | ⟨records, s', hp, -⟩
        · exfalso
          have := (appendSound s frames).refused e (by rw [hp])
          rw [hok] at this
          cases this.1
        · rw [hp] at hc
          obtain ⟨e, he⟩ := hc
          exact absurd hok (not_committed hne hp he)
    generalize hr' : s.appendEpoch frames = r at happ hops
    obtain ⟨r, s'⟩ := r
    simp only at happ hops ⊢
    cases happ with
    | committed hb hf hs hd =>
      have hdecoded := decodeFile_records ((inspectFile_iff _ _).1 hdec) hlin hlen hr (hops rfl)
      refine ⟨by rw [hs]; decide, s'.io.bytes, List.prefix_rfl, ?_, fun _ => ⟨rfl, ?_⟩⟩
      · rw [hb, hf]
        exact (inspectFile_iff _ _).2 hdecoded
      · rw [hb, hd, hdigest]
        exact (Fnv.fnv1aFrom_append _ _ _).symm
    | repaired phase source hb hf hs hd =>
      refine ⟨by rw [hs]; decide, s.io.bytes, by rw [hb], ?_, fun _ => ⟨hb.symm, ?_⟩⟩
      · rw [hf]; exact hdec
      · rw [hd]; exact hdigest
    | poisoned phase source repairPhase repair hb hf hs =>
      refine ⟨by rw [hs]; decide, s.io.bytes, hb, ?_, fun hc => ?_⟩
      · rw [hf]; exact hdec
      · rw [hs] at hc
        cases hc

/-- A call on the store. -/
inductive Call
  | append (frames : List CommitFrame)
  | fileLen
  | physicalFrames

/-- The store behind a call, and whether the call succeeded. -/
def call (s : FileEpochStore) : Call → Bool × FileEpochStore
  | .append frames => let (r, s) := s.appendEpoch frames; (r.toBool, s)
  | .fileLen => let (r, s) := s.fileLen; (r.toBool, s)
  | .physicalFrames => let (r, s) := s.physicalFrames; (r.toBool, s)

theorem call_append (s : FileEpochStore) (frames : List CommitFrame) :
    (s.call (.append frames)).2 = (s.appendEpoch frames).2 := rfl

/-- **A read** changes only the script. -/
theorem read_same (s : FileEpochStore) :
    (SameBut s s.fileLen.2 ∧ s.fileLen.2.io.bytes = s.io.bytes) ∧
      SameBut s s.physicalFrames.2 ∧ s.physicalFrames.2.io.bytes = s.io.bytes := by
  refine ⟨?_, ?_⟩
  · unfold fileLen
    split
    · exact ⟨rfl, rfl⟩
    · have hb := (len_spec s.io .verifyLength).1
      split
      · rename_i heq
        rw [heq] at hb
        exact ⟨rfl, hb⟩
      · rename_i heq
        rw [heq] at hb
        exact ⟨rfl, hb⟩
  · unfold physicalFrames
    split
    · exact ⟨rfl, rfl⟩
    · have hb := (readAll_spec s.io).1
      split
      · rename_i heq
        rw [heq] at hb
        exact ⟨rfl, hb⟩
      · rename_i heq
        rw [heq] at hb
        split
        · exact ⟨rfl, hb⟩
        · split <;> exact ⟨rfl, hb⟩

/-- What one call promises. -/
structure CallSound (s : FileEpochStore) (c : Call) : Prop where
  append : ∀ frames, c = .append frames → s.AppendSound frames
  read : (∀ frames, c ≠ .append frames) →
    (s.call c).2.io.bytes = s.io.bytes ∧ (s.call c).2.frames = s.frames ∧
      (s.call c).2.state = s.state
  poisoned : s.state = .poisoned → (s.call c).1 = false ∧ (s.call c).2 = s

theorem ensureHealthy_of_poisoned (h : s.state = .poisoned) : ∃ e, s.ensureHealthy = .error e := by
  unfold ensureHealthy
  rw [h]
  exact ⟨_, rfl⟩

theorem callSound (s : FileEpochStore) (c : Call) : s.CallSound c := by
  refine ⟨fun frames _ => appendSound s frames, fun hread => ?_, fun hp => ?_⟩
  · cases c with
    | append frames => exact absurd rfl (hread frames)
    | fileLen =>
      obtain ⟨hsame, hb⟩ := (read_same s).1
      unfold SameBut at hsame
      refine ⟨hb, ?_, ?_⟩
      · simp only [call]; rw [hsame]
      · simp only [call]; rw [hsame]
    | physicalFrames =>
      obtain ⟨hsame, hb⟩ := (read_same s).2
      unfold SameBut at hsame
      refine ⟨hb, ?_, ?_⟩
      · simp only [call]; rw [hsame]
      · simp only [call]; rw [hsame]
  · obtain ⟨e, he⟩ := ensureHealthy_of_poisoned hp
    cases c with
    | append frames => simp [call, appendEpoch, prepareEpoch, he, Except.toBool]
    | fileLen => simp [call, FileEpochStore.fileLen, he, Except.toBool]
    | physicalFrames => simp [call, FileEpochStore.physicalFrames, he, Except.toBool]

/-- In every state of a run the store is verified, and every call keeps its promises. -/
def Safe (s : FileEpochStore) : List Call → Prop
  | [] => s.Verified
  | c :: calls => s.Verified ∧ s.CallSound c ∧ (s.call c).2.Safe calls

/-- Behind one call the store is verified. -/
theorem Safe.verified_after {c : Call} (h : s.Safe [c]) : (s.call c).2.Verified := h.2.2

/-- Every batch of a run is in the range of the source's types and harmless where it is appended. -/
def AllHarmless (s : FileEpochStore) : List Call → Prop
  | [] => True
  | c :: calls => (∀ frames, c = .append frames → (∀ f ∈ frames, f.InRange) ∧ s.Harmless frames) ∧
      (s.call c).2.AllHarmless calls

theorem call_verified (h : s.Verified) {c : Call}
    (hc : ∀ frames, c = .append frames → (∀ f ∈ frames, f.InRange) ∧ s.Harmless frames) :
    (s.call c).2.Verified := by
  have hread : ∀ s', SameBut s s' → s'.io.bytes = s.io.bytes → s'.Verified := by
    intro s' hsame hb
    unfold SameBut at hsame
    have hstate : s'.state = s.state := by rw [hsame]
    have hframes : s'.frames = s.frames := by rw [hsame]
    have hdigest : s'.prefixDigest = s.prefixDigest := by rw [hsame]
    refine ⟨by rw [hstate]; exact h.state, ?_⟩
    rw [hb, hframes, hstate, hdigest]
    exact h.decoded
  cases c with
  | append frames =>
    obtain ⟨hr, hharm⟩ := hc frames rfl
    exact append_verified h hr hharm
  | fileLen => exact hread _ (read_same s).1.1 (read_same s).1.2
  | physicalFrames => exact hread _ (read_same s).2.1 (read_same s).2.2

theorem verified_safe {calls : List Call} (h : s.Verified) (hc : s.AllHarmless calls) :
    s.Safe calls := by
  induction calls generalizing s with
  | nil => exact h
  | cons c calls ih => exact ⟨h, callSound s c, ih (call_verified h hc.1) hc.2⟩

theorem healthy_of_fromIo {io : EpochFileIo} {policy : FileEpochSyncPolicy}
    (h : fromIo io policy = .ok s) : s.state = .healthy := by
  unfold fromIo at h
  split at h
  · cases h
  split at h
  · cases h
  split at h
  · cases h
  split at h
  · cases h
  cases h
  rfl

/-- A store that was opened is verified. -/
theorem verified_of_fromIo {io : EpochFileIo} {policy : FileEpochSyncPolicy}
    (h : fromIo io policy = .ok s) : s.Verified := by
  obtain ⟨hb, -, hread⟩ := readAll_spec io
  unfold fromIo at h
  split at h
  · cases h
  rename_i bytes io' heq
  rw [heq] at hb hread
  obtain rfl : bytes = io.bytes := hread bytes rfl
  split at h
  · cases h
  rename_i frames offset hins
  split at h
  · cases h
  rename_i hoff
  split at h
  · cases h
  cases h
  push Not at hoff
  subst hoff
  refine ⟨fun hc => (nomatch hc), io.bytes, ?_, hins, fun _ => ⟨hb.symm, rfl⟩⟩
  simp only at hb
  rw [hb]

/-- **The epoch store's state machine** over every run and every fault script. -/
theorem epochStore_safe {io : EpochFileIo} {policy : FileEpochSyncPolicy} {calls : List Call}
    (h : fromIo io policy = .ok s) (hc : s.AllHarmless calls) : s.Safe calls :=
  verified_safe (verified_of_fromIo h) hc

/-- The I/O of a new commit file, with a script of outcomes. -/
def newFile (script : List IoOutcome) : EpochFileIo := ⟨fileHeader, 0, script, false⟩

/-- The store of a new commit file. -/
def created (script : List IoOutcome) (policy : FileEpochSyncPolicy) : FileEpochStore where
  io := newFile script
  frames := []
  policy := policy
  state := .healthy
  poisonReason := none
  prefixDigest := Fnv.fnv1a fileHeader
  recoveredTailBytes := 0

/-- The first write stops after ten bytes and the second fails; the repair cuts them off and the
batch is appended again. -/
theorem epochStore_safe_retried :
    ∃ s, fromIo (newFile [.done, .done, .short 10, .fail .epochWrite "EIO" [7], .done]) .perEpoch =
        .ok s ∧
      s.Safe [.append [FileCommitStore.oneEntity], .append [FileCommitStore.oneEntity],
        .physicalFrames] := by
  have hsmall : ∀ f ∈ [FileCommitStore.oneEntity], f.operations.length ≤ maxOperationsPerFrame := by
    decide
  have hrange : ∀ f ∈ [FileCommitStore.oneEntity], f.InRange := by decide +kernel
  obtain ⟨s, hs⟩ : ∃ s, fromIo (newFile [.done, .done, .short 10,
      .fail .epochWrite "EIO" [7], .done]) .perEpoch = .ok s := ⟨_, rfl⟩
  refine ⟨s, hs, epochStore_safe hs ⟨?_, ?_, ?_, trivial⟩⟩
  · rintro frames hf
    cases hf
    exact ⟨hrange, .inl hsmall⟩
  · rintro frames hf
    cases hf
    exact ⟨hrange, .inl hsmall⟩
  · rintro frames hf
    cases hf

/-- Operations that do nothing. -/
def forgets (n : ℕ) : List Operation := List.replicate n (.forget ⟨""⟩)

theorem length_forgets (n : ℕ) : (forgets n).length = n := List.length_replicate

theorem length_putForgets (n : ℕ) : ((forgets n).flatMap (putOperation 8)).length = n * 9 := by
  induction n with
  | zero => rfl
  | succ n ih =>
    have hone : (putOperation 8 (.forget ⟨""⟩)).length = 9 := by decide
    unfold forgets at ih ⊢
    rw [List.replicate_succ, List.flatMap_cons, List.length_append, ih, hone]
    omega

/-- The first frame of a history, with one operation more than the decoder allows. -/
def overLimit : CommitFrame where
  parentWorld := .genesis
  resultingWorld := calculateWorldId .genesis 1 1 (forgets 1000001)
  parentVersion := 0
  resultingVersion := 1
  resultingAllocator := 1
  operations := forgets 1000001

theorem length_overLimit : (encodePayload overLimit).length = 9000057 := by
  have hops : (overLimit.operations.flatMap (putOperation 8)).length = 9000009 :=
    length_putForgets 1000001
  unfold encodePayload
  simp only [List.length_append, length_le, hops]

theorem overLimit_inRange : overLimit.InRange := by
  refine ⟨by decide, by decide, by decide, ?_, fun op hop => ?_⟩
  · rw [show overLimit.operations.length = 1000001 from length_forgets _]
    decide
  · obtain rfl := List.eq_of_mem_replicate hop
    decide

theorem overLimit_encodes : (encodePayload overLimit).length ≤ maxFrameBytes := by
  rw [length_overLimit]
  decide

theorem overLimit_follows : checkPosition [] overLimit = .ok () := by
  have h1 : overLimit.parentWorld = .genesis := rfl
  have h2 : overLimit.parentVersion = 0 := rfl
  have h3 : overLimit.resultingVersion = 1 := rfl
  simp [checkPosition, lastPosition, h1, h2, h3]

/-- **The committed frame is in no decoding of the file.** -/
theorem overLimit_breaks_store : fromIo (newFile []) .perEpoch = .ok (created [] .perEpoch) ∧
    ¬ (created [] .perEpoch).Safe [.append [overLimit]] := by
  refine ⟨by decide +kernel, fun hsafe => ?_⟩
  have hlin : Linear (created [] .perEpoch).frames [overLimit] := ⟨overLimit_follows, trivial⟩
  have hlen : ∀ f ∈ [overLimit], (encodePayload f).length ≤ maxFrameBytes := by
    intro f hf
    rw [List.mem_singleton.1 hf]
    exact overLimit_encodes
  obtain ⟨s', happ, hframes⟩ := append_done rfl rfl (List.cons_ne_nil _ _) hlin hlen
  have hv := hsafe.verified_after
  rw [call_append, happ] at hv
  obtain ⟨base, -, hdec, -⟩ := hv.decoded
  have hmem : overLimit ∈ s'.frames := by
    rw [hframes]
    exact List.mem_append_right _ (List.mem_singleton.2 rfl)
  have hle := decodeFile_limit ((inspectFile_iff _ _).1 hdec) overLimit hmem
  rw [show overLimit.operations.length = 1000001 from length_forgets _] at hle
  exact absurd hle (by decide)

end FileEpochStore

end ForthDB
