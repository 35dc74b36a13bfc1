import ForthDB.Store.EpochStoreRuns

/-!
# Epochs in two halves

`IoUringEpochFileIo` submits an epoch without waiting for it and completes it later. The
store is locked in between, so a prepared epoch still fits when its I/O is completed.

* `Extends opened s`: the file of `s` holds the bytes that were opened and a record of
  every frame since; nothing else while the store is healthy.
* `Fits file s`: the epoch was prepared on `s` and not finished since.
* `complete_extends`: **finishing an epoch** keeps the first, whatever its I/O did.
-/

namespace ForthDB

open FileStore

/-- `submit_contiguous_epoch`: the ring takes the epoch or fails. -/
def EpochFileIo.submitContiguousEpoch (io : EpochFileIo) (records : List (List UInt8)) :
    Except (EpochIoPhase × String) Unit × EpochFileIo :=
  if 2 ^ 32 ≤ (records.map List.length).sum then
    (.error (.epochWrite, "contiguous epoch exceeds one io_uring write length"), io)
  else match io.next with
    | (.fail _ source landed, io) => (.error (.epochWrite, source), io.land landed)
    | (_, io) => (.ok (), io)

/-- `complete_contiguous_epoch`: all bytes are written and synced, or it fails. -/
def EpochFileIo.completeContiguousEpoch (io : EpochFileIo) (startOffset : ℕ)
    (records : List (List UInt8)) : Except (EpochIoPhase × String) Unit × EpochFileIo :=
  io.persistEpoch startOffset records

/-- `poison_external`. -/
def FileEpochStore.poisonExternal (s : FileEpochStore) (reason : String) : FileEpochStore :=
  { s with state := .poisoned, poisonReason := some reason }

namespace FileEpochStore

open EpochFile EpochFileIo

variable {opened s s' : FileEpochStore} {file : PreparedFileEpoch} {frames : List CommitFrame}

/-- The file holds the opened bytes and the records of the frames behind the opened ones. -/
def Extends (opened s : FileEpochStore) : Prop :=
  ∃ fs, s.frames = opened.frames ++ fs ∧
    (opened.io.bytes ++ recordsFor fs) <+: s.io.bytes ∧
    (s.state = .healthy → s.io.bytes = opened.io.bytes ++ recordsFor fs)

theorem Extends.refl (s : FileEpochStore) : Extends s s :=
  ⟨[], by simp, by simp, fun _ => by simp⟩

/-- The file and the frames decide it. -/
theorem Extends.congr (h : Extends opened s) (hf : s'.frames = s.frames)
    (hb : s'.io.bytes = s.io.bytes) (hs : s'.state = .healthy → s.state = .healthy) :
    Extends opened s' := by
  obtain ⟨fs, h1, h2, h3⟩ := h
  exact ⟨fs, hf.trans h1, by rwa [hb], fun hh => by rw [hb]; exact h3 (hs hh)⟩

/-- **A frame behind the opened ones** has its record in the file. -/
theorem Extends.record_mem (h : Extends opened s) {f : CommitFrame}
    (hf : f ∈ s.frames.drop opened.frames.length) :
    frameFormat.encode (encodePayload f) <:+: s.io.bytes := by
  obtain ⟨fs, h1, h2, -⟩ := h
  rw [h1, List.drop_left] at hf
  obtain ⟨xs, ys, rfl⟩ := List.append_of_mem hf
  refine List.IsInfix.trans ?_ h2.isInfix
  refine ⟨opened.io.bytes ++ recordsFor xs, recordsFor ys, ?_⟩
  simp [recordsFor, List.flatMap_append]

/-- The prepared epoch fits behind the file of a healthy store. -/
structure Fits (file : PreparedFileEpoch) (s : FileEpochStore) : Prop where
  healthy : s.state = .healthy
  offset : file.checkpoint.startOffset = s.io.bytes.length
  records : file.records.flatten = recordsFor file.frames
  nonempty : file.frames ≠ []
  behind : Behind s.io.bytes s.io

/-- **Preparing an epoch.** -/
theorem prepareEpoch_extends (h : Extends opened s) (hne : frames ≠ []) :
    (s.prepareEpoch frames).2.frames = s.frames ∧ Extends opened (s.prepareEpoch frames).2 ∧
      ∀ file, (s.prepareEpoch frames).1 = .ok file →
        file.frames = frames ∧ Fits file (s.prepareEpoch frames).2 := by
  rcases prepareEpoch_cases s hne with ⟨e, s₁, hp, -, hsame, hb⟩ |
      ⟨records, s₁, hp, hstate, -, hflat, -, hsame, hb, hbehind⟩
  · rw [hp]
    have hf : s₁.frames = s.frames := by rw [hsame]
    have hs : s₁.state = s.state := by rw [hsame]
    exact ⟨hf, h.congr hf hb (by rw [hs]; exact id), fun file hok => by cases hok⟩
  · rw [hp]
    have hf : s₁.frames = s.frames := by rw [hsame]
    have hs : s₁.state = s.state := by rw [hsame]
    refine ⟨hf, h.congr hf hb (by rw [hs]; exact id), fun file hok => ?_⟩
    obtain rfl := Except.ok.inj hok
    refine ⟨rfl, hs.trans hstate, ?_, hflat, hne, by rw [hb]; exact hbehind⟩
    show s.io.bytes.length = _
    rw [hb]

/-- A failed epoch is repaired, or the store is poisoned. -/
theorem handlePrimaryFailure_extends (h : Extends opened s) (hfit : Fits file s) {io : EpochFileIo}
    (hio : Behind s.io.bytes io) (phase : EpochIoPhase) (source : String) :
    ({ s with io := io }.handlePrimaryFailure file.checkpoint phase source).2.frames = s.frames ∧
      Extends opened ({ s with io := io }.handlePrimaryFailure file.checkpoint phase source).2 := by
  obtain ⟨hbehind, hok⟩ := repair_spec hio file.checkpoint hfit.offset
  obtain ⟨fs, h1, -, h3⟩ := h
  have hbytes := h3 hfit.healthy
  unfold handlePrimaryFailure
  simp only
  generalize repair io file.checkpoint = r at hbehind hok
  obtain ⟨r, io'⟩ := r
  cases r with
  | ok =>
    have hb : io'.bytes = s.io.bytes := hok rfl
    exact ⟨rfl, fs, h1, by rw [hb, hbytes], fun _ => hb.trans hbytes⟩
  | error e => exact ⟨rfl, fs, h1, hbytes ▸ hbehind.bytes, fun hh => by cases hh⟩

/-- **Submitting an epoch** that the ring takes leaves it fitting; one that it does not take
is finished as a failure. -/
theorem submit_extends (h : Extends opened s) (hfit : Fits file s) {io : EpochFileIo}
    {r : Except (EpochIoPhase × String) Unit}
    (hs : s.io.submitContiguousEpoch file.records = (r, io)) :
    match r with
    | .ok () => Extends opened { s with io := io } ∧ Fits file { s with io := io }
    | .error e => ({ s with io := io }.finishPreparedEpoch file (.error e)).2.frames = s.frames ∧
        Extends opened ({ s with io := io }.finishPreparedEpoch file (.error e)).2 := by
  obtain ⟨outcome, script, hnext⟩ := s.io.next_eq
  have hbase : Behind s.io.bytes { s.io with script := script } :=
    ⟨hfit.behind.offset, hfit.behind.bytes⟩
  have hfail : ∀ {io : EpochFileIo} (e : EpochIoPhase × String), Behind s.io.bytes io →
      ({ s with io := io }.finishPreparedEpoch file (.error e)).2.frames = s.frames ∧
        Extends opened ({ s with io := io }.finishPreparedEpoch file (.error e)).2 := by
    intro io e hio
    unfold finishPreparedEpoch
    rw [if_neg hfit.nonempty]
    exact handlePrimaryFailure_extends h hfit hio e.1 e.2
  have hdone : Extends opened { s with io := { s.io with script := script } } ∧
      Fits file { s with io := { s.io with script := script } } :=
    ⟨h.congr rfl rfl id, hfit.healthy, hfit.offset, hfit.records, hfit.nonempty, hbase⟩
  unfold submitContiguousEpoch at hs
  split at hs
  · cases hs
    exact hfail _ hfit.behind
  · rw [hnext] at hs
    cases outcome with
    | done => cases hs; exact hdone
    | short count => cases hs; exact hdone
    | fail phase source landed => cases hs; exact hfail _ (hbase.land landed)

/-- **Completing an epoch** adds its frames and their records, or leaves the frames. -/
theorem complete_extends (h : Extends opened s) (hfit : Fits file s) {io : EpochFileIo}
    {r : Except (EpochIoPhase × String) Unit}
    (hc : s.io.completeContiguousEpoch file.checkpoint.startOffset file.records = (r, io)) :
    Extends opened ({ s with io := io }.finishPreparedEpoch file r).2 ∧
      ({ s with io := io }.finishPreparedEpoch file r).2.frames =
        match ({ s with io := io }.finishPreparedEpoch file r).1 with
        | .ok () => s.frames ++ file.frames
        | .error _ => s.frames := by
  obtain ⟨hbehind, hbytes⟩ := persistEpoch_spec hfit.behind file.records
  rw [hfit.offset] at hc
  have hc' : s.io.persistEpoch s.io.bytes.length file.records = (r, io) := hc
  rw [hc'] at hbehind hbytes
  unfold finishPreparedEpoch
  rw [if_neg hfit.nonempty]
  cases r with
  | ok =>
    obtain ⟨fs, h1, -, h3⟩ := h
    have hb : io.bytes = opened.io.bytes ++ recordsFor (fs ++ file.frames) := by
      rw [show io.bytes = _ from hbytes rfl, h3 hfit.healthy, hfit.records]
      simp [recordsFor, List.flatMap_append]
    refine ⟨⟨fs ++ file.frames, ?_, ?_, fun _ => hb⟩, rfl⟩
    · show s.frames ++ file.frames = _
      rw [h1, List.append_assoc]
    · show _ <+: io.bytes
      rw [hb]
  | error e =>
    obtain ⟨hf, he⟩ := handlePrimaryFailure_extends h hfit hbehind e.1 e.2
    exact ⟨he, hf⟩

end FileEpochStore

end ForthDB
