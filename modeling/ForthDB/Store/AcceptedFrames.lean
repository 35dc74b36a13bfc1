import ForthDB.Store.EpochStoreRuns

/-!
# Which accepted frames can be read back

* `accepted_decoded_iff`: **the frames that a store acknowledged are decoded exactly when
  each is within the decoder's limit**, appended singly to the commit file or in batches to
  the epoch store. The encoder does not know that limit.
* `overLimit_not_decoded`: a frame that is acknowledged and never decoded.
-/

namespace ForthDB

open FileStore

namespace FileCommitStore

variable {s t : FileCommitStore} {calls : List (CommitFrame × AppendFaults)}

theorem length_acked (s : FileCommitStore) (calls : List (CommitFrame × AppendFaults)) :
    (s.appendAll calls).2.length ≤ calls.length := by
  induction calls generalizing s with
  | nil => exact le_rfl
  | cons call calls ih =>
    obtain ⟨frame, faults⟩ := call
    unfold appendAll
    cases hr : s.append frame faults with
    | mk r s' =>
      have h := ih s'
      cases r with
      | ok => simpa using h
      | error e =>
        simp only [List.length_cons]
        omega

/-- **Appends that were all acknowledged** have written their records. -/
theorem appendAll_acked (h : s.appendAll calls = (t, calls.map Prod.fst)) :
    t.file.bytes = s.file.bytes ++ recordsFor (calls.map Prod.fst) ∧
      Linear s.frames (calls.map Prod.fst) ∧
      ∀ f ∈ calls.map Prod.fst, (encodePayload f).length ≤ maxFrameBytes := by
  induction calls generalizing s with
  | nil =>
    cases h
    exact ⟨by simp, trivial, by simp⟩
  | cons call calls ih =>
    obtain ⟨frame, faults⟩ := call
    unfold appendAll at h
    rcases append_cases s frame faults with ⟨e, he⟩ | ⟨hv, hlen, ⟨file, n, he, hb⟩ |
        ⟨e, file, tail, more, he, -⟩⟩
    · rw [he] at h
      have hle := length_acked s calls
      simp only [List.map_cons] at h
      rw [h] at hle
      simp only [List.length_cons, List.length_map] at hle
      omega
    · rw [he] at h
      simp only [List.map_cons] at h
      generalize hu : (FileCommitStore.mk file (s.frames ++ [frame]) n).appendAll calls = r at h
      obtain ⟨u, acked⟩ := r
      simp only at h
      obtain ⟨rfl, hacked⟩ := Prod.mk.inj h
      obtain rfl := (List.cons.inj hacked).2
      obtain ⟨hbytes, hlin, hall⟩ := ih hu
      refine ⟨?_, ⟨checkPosition_of_validateAppend hv, hlin⟩, ?_⟩
      · rw [hbytes, hb]
        simp [List.append_assoc]
      · rw [List.map_cons, List.forall_mem_cons]
        exact ⟨hlen, hall⟩
    · rw [he] at h
      have hle := length_acked { s with file := file } calls
      simp only [List.map_cons] at h
      rw [h] at hle
      simp only [List.length_cons, List.length_map] at hle
      omega

/-- **Opening a file that decodes to a history** keeps its frames and cuts the rest off. -/
theorem openStore_of_decodeFile {bytes : List UInt8} {frames : List CommitFrame} {offset : ℕ}
    {w : World} (hd : decodeFile bytes = .ok (frames, offset))
    (hw : World.reconstruct frames = .ok w) :
    ∃ s, openStore bytes = .ok s ∧ s.frames = frames ∧ s.file.bytes = bytes.take offset := by
  obtain ⟨ps, tail, hb, -, -, hoff, -⟩ := decodeFile_ok hd
  have hlen := congrArg List.length hb
  simp only [List.length_append, length_fileHeader] at hlen
  have hne : bytes ≠ [] := by
    intro h0
    rw [h0, List.length_nil] at hlen
    omega
  unfold openStore
  simp only [if_neg hne, hd, hw]
  refine ⟨_, rfl, rfl, ?_⟩
  split
  · simp [DiskFile.seekEnd, DiskFile.setLen, show offset - bytes.length = 0 by omega]
  · simp only [DiskFile.seekEnd]
    rw [List.take_of_length_le (by omega)]

/-- What opening a file finds. -/
theorem decodeFile_of_openStore {bytes : List UInt8} (h : openStore bytes = .ok s) :
    ∃ offset w, decodeFile (if bytes = [] then fileHeader else bytes) = .ok (s.frames, offset) ∧
      World.reconstruct s.frames = .ok w ∧
      s.file.bytes = (if bytes = [] then fileHeader else bytes).take offset := by
  have hne : (if bytes = [] then fileHeader else bytes) ≠ [] := by
    split
    · decide
    · assumption
  have hopen : openStore (if bytes = [] then fileHeader else bytes) = .ok s := by
    rw [← h]
    unfold openStore
    rw [if_neg hne]
  generalize (if bytes = [] then fileHeader else bytes) = bs at hne hopen ⊢
  cases hd : decodeFile bs with
  | error e => simp [openStore, if_neg hne, hd] at hopen
  | ok r =>
    obtain ⟨frames, offset⟩ := r
    cases hw : World.reconstruct frames with
    | error e => simp [openStore, if_neg hne, hd, hw] at hopen
    | ok w =>
      obtain ⟨t, ht, hf, hb⟩ := openStore_of_decodeFile hd hw
      rw [hopen] at ht
      cases ht
      rw [hf]
      exact ⟨offset, w, rfl, hw, hb⟩

/-- A store that was opened ends at its last record. -/
theorem atRecordEnd_of_openStore {bytes : List UInt8} (h : openStore bytes = .ok s) :
    s.AtRecordEnd := by
  obtain ⟨offset, w, hd, -, hb⟩ := decodeFile_of_openStore h
  unfold AtRecordEnd
  rw [hb]
  exact decodeFile_take hd

/-- **Acknowledged records at the end of a decoded file are decoded** exactly when each is
within the decoder's limit. -/
theorem decodeFile_records_iff {bytes : List UInt8} {frames new : List CommitFrame}
    (hd : decodeFile bytes = .ok (frames, bytes.length)) (hlin : Linear frames new)
    (hlen : ∀ f ∈ new, (encodePayload f).length ≤ maxFrameBytes) (hr : ∀ f ∈ new, f.InRange) :
    decodeFile (bytes ++ recordsFor new) = .ok (frames ++ new, (bytes ++ recordsFor new).length) ↔
      ∀ f ∈ new, f.operations.length ≤ maxOperationsPerFrame := by
  refine ⟨fun h f hf => decodeFile_limit h f (List.mem_append_right _ hf), fun hops => ?_⟩
  exact decodeFile_records hd hlin hlen hr hops

/-- Without faults a frame that continues the store within the payload limit is appended. -/
theorem append_faultless {frame : CommitFrame} (hpos : checkPosition s.frames frame = .ok ())
    (hlen : (encodePayload frame).length ≤ maxFrameBytes) :
    ∃ t, s.append frame {} = (.ok (), t) := by
  have hv : s.validateAppend frame = .ok () := by
    unfold validateAppend
    rw [hpos]
    rfl
  have he : encodeRecord frame = .ok (frameFormat.encode (encodePayload frame)) := by
    unfold encodeRecord
    simp only [if_neg (not_lt.2 hlen)]
  unfold append
  rw [hv]
  simp only [he]
  exact ⟨_, rfl⟩

/-- Without faults a frame that continues the store within the payload limit is acknowledged. -/
theorem append_done {frame : CommitFrame} (hpos : checkPosition s.frames frame = .ok ())
    (hlen : (encodePayload frame).length ≤ maxFrameBytes) :
    ∃ t, s.appendAll [(frame, {})] = (t, [frame]) := by
  obtain ⟨t, ht⟩ := append_faultless hpos hlen
  refine ⟨t, ?_⟩
  unfold appendAll
  rw [ht]
  rfl

end FileCommitStore

namespace FileEpochStore

open EpochFile

variable {s t : FileEpochStore} {batches : List (List CommitFrame)}

/-- The batches are appended in order and all of them are committed. -/
def AllCommitted (s : FileEpochStore) : List (List CommitFrame) → FileEpochStore → Prop
  | [], t => t = s
  | batch :: batches, t => ∃ s', s.appendEpoch batch = (.ok (), s') ∧ s'.AllCommitted batches t

theorem linear_append {before xs ys : List CommitFrame} (hx : Linear before xs)
    (hy : Linear (before ++ xs) ys) : Linear before (xs ++ ys) := by
  induction xs generalizing before with
  | nil => simpa using hy
  | cons x xs ih =>
    refine ⟨hx.1, ih hx.2 ?_⟩
    rwa [List.append_assoc]

/-- **Batches that were all committed** have written their records. -/
theorem allCommitted_records (h : s.AllCommitted batches t) :
    t.io.bytes = s.io.bytes ++ recordsFor batches.flatten ∧ Linear s.frames batches.flatten ∧
      ∀ f ∈ batches.flatten, (encodePayload f).length ≤ maxFrameBytes := by
  induction batches generalizing s with
  | nil =>
    obtain rfl := h
    exact ⟨by simp, trivial, by simp⟩
  | cons batch batches ih =>
    obtain ⟨s', hs', hrest⟩ := h
    obtain ⟨hbytes, hlin, hlen⟩ := ih hrest
    obtain ⟨hb, hf⟩ := (appendSound s batch).committed (by rw [hs'])
    rw [hs'] at hb hf
    have hbatch : Linear s.frames batch ∧ ∀ f ∈ batch, (encodePayload f).length ≤ maxFrameBytes := by
      rcases append_cases s batch with ⟨e, s₁, ha, -⟩ | ⟨rfl, -⟩ | ⟨-, -, hlin, hlen, -⟩
      · rw [hs'] at ha
        cases ha
      · exact ⟨trivial, by simp⟩
      · exact ⟨hlin, hlen⟩
    simp only at hb hf
    rw [hf] at hlin
    refine ⟨?_, ?_, ?_⟩
    · rw [hbytes, hb]
      simp [List.append_assoc]
    · exact linear_append hbatch.1 hlin
    · rw [List.flatten_cons, List.forall_mem_append]
      exact ⟨hbatch.2, hlen⟩

end FileEpochStore

/-- **What a store acknowledged is decoded** with the end of the file as the last good offset
exactly when every appended frame is within the decoder's limit. -/
theorem accepted_decoded_iff (bytes : List UInt8) (s t : FileCommitStore)
    (calls : List (CommitFrame × AppendFaults)) (io : EpochFileIo) (policy : FileEpochSyncPolicy)
    (e e' : FileEpochStore) (batches : List (List CommitFrame)) :
    (FileCommitStore.openStore bytes = .ok s → (∀ c ∈ calls, c.1.InRange) →
      s.appendAll calls = (t, calls.map Prod.fst) →
      (decodeFile t.file.bytes = .ok (s.frames ++ calls.map Prod.fst, t.file.bytes.length) ↔
        ∀ c ∈ calls, c.1.operations.length ≤ maxOperationsPerFrame)) ∧
    (FileEpochStore.fromIo io policy = .ok e →
      (∀ f ∈ batches.flatten, f.InRange) → e.AllCommitted batches e' →
      (EpochFile.inspectFile e'.io.bytes = .ok (e.frames ++ batches.flatten, e'.io.bytes.length) ↔
        ∀ f ∈ batches.flatten, f.operations.length ≤ maxOperationsPerFrame)) := by
  refine ⟨?_, ?_⟩
  · intro hopen hr hacked
    have hend := FileCommitStore.atRecordEnd_of_openStore hopen
    obtain ⟨hb, hlin, hlen⟩ := FileCommitStore.appendAll_acked hacked
    rw [hb, FileCommitStore.decodeFile_records_iff hend hlin hlen]
    · simp
    · simpa using fun f faults hf => hr (f, faults) hf
  · intro hopen hr hcommitted
    obtain ⟨-, base, -, hdec, hhealthy⟩ := FileEpochStore.verified_of_fromIo hopen
    obtain ⟨hb, hlin, hlen⟩ := FileEpochStore.allCommitted_records hcommitted
    have hstate : e.state = .healthy := FileEpochStore.healthy_of_fromIo hopen
    obtain ⟨rfl, -⟩ := hhealthy hstate
    rw [EpochFile.inspectFile_iff, hb]
    exact FileCommitStore.decodeFile_records_iff ((EpochFile.inspectFile_iff _ _).1 hdec) hlin hlen hr

/-- One frame, appended to a new commit file and as a batch to a new epoch store, is decoded. -/
theorem accepted_decoded_oneEntity :
    (∃ t, FileCommitStore.created.appendAll [(FileCommitStore.oneEntity, {})] =
        (t, [FileCommitStore.oneEntity]) ∧
      decodeFile t.file.bytes = .ok ([FileCommitStore.oneEntity], t.file.bytes.length)) ∧
    ∃ t, (FileEpochStore.created [.done, .short 1] .perFrame).AllCommitted
        [[FileCommitStore.oneEntity]] t ∧
      EpochFile.inspectFile t.io.bytes = .ok ([FileCommitStore.oneEntity], t.io.bytes.length) := by
  have hopen : FileCommitStore.openStore [] = .ok .created := by decide +kernel
  have hio : FileEpochStore.fromIo (FileEpochStore.newFile [.done, .done, .short 1]) .perFrame =
      .ok (FileEpochStore.created [.done, .short 1] .perFrame) := by decide +kernel
  refine ⟨⟨(FileCommitStore.created.appendAll [(FileCommitStore.oneEntity, {})]).1, ?_, ?_⟩,
    ((FileEpochStore.created [.done, .short 1] .perFrame).appendEpoch
      [FileCommitStore.oneEntity]).2, ⟨_, ?_, rfl⟩, ?_⟩
  · decide +kernel
  · exact ((accepted_decoded_iff [] .created _ [(FileCommitStore.oneEntity, {})]
      (FileEpochStore.newFile []) .perFrame (.created [] .perFrame) (.created [] .perFrame) []).1
        hopen (by decide +kernel) (by decide +kernel)).2 (by decide)
  · decide +kernel
  · exact ((accepted_decoded_iff [] .created .created [] _ _ _ _ [[FileCommitStore.oneEntity]]).2
      hio (by decide +kernel) ⟨((FileEpochStore.created [.done, .short 1] .perFrame).appendEpoch
        [FileCommitStore.oneEntity]).2, (by decide +kernel), rfl⟩).2 (by decide)

/-- **An acknowledged frame beyond the decoder's limit is refused**: the commit file that it was
appended to does not decode to it. -/
theorem overLimit_not_decoded : FileCommitStore.openStore [] = .ok .created ∧
    ∃ t, FileCommitStore.created.appendAll [(FileEpochStore.overLimit, {})] =
        (t, [FileEpochStore.overLimit]) ∧
      ∀ offset, decodeFile t.file.bytes ≠ .ok ([FileEpochStore.overLimit], offset) := by
  refine ⟨by decide +kernel, ?_⟩
  obtain ⟨t, ht⟩ := FileCommitStore.append_done (s := .created) FileEpochStore.overLimit_follows
    FileEpochStore.overLimit_encodes
  refine ⟨t, ht, fun offset h => ?_⟩
  have hle := decodeFile_limit h FileEpochStore.overLimit (List.mem_singleton.2 rfl)
  rw [show FileEpochStore.overLimit.operations.length = 1000001 from
    FileEpochStore.length_forgets _] at hle
  exact absurd hle (by decide)

end ForthDB
