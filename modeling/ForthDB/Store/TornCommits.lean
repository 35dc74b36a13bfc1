import ForthDB.Store.AcceptedFrames
import ForthDB.Store.MappedStore

/-!
# Commit files cut at any byte

Both stores open a commit file that is cut behind its header: they keep the frames that
are whole and truncate the file behind the last of them. The next append lands there.

* `tornPrefix_recovered_iff`: **frames appended to the cut file are decoded behind the ones
  that were kept exactly when each is within the decoder's limit.**
* `overLimit_behind_tornRecord`: a frame that is appended behind a torn record, acknowledged
  and never decoded.
-/

namespace ForthDB

open FileStore

namespace MmapCommitStore

variable {s t : MmapCommitStore} {calls : List (CommitFrame × MappedAppendFaults)}

/-- **Opening a file that decodes to a history**, mapped. -/
theorem openStore_of_decodeFile {bytes : List UInt8} {frames : List CommitFrame} {offset : ℕ}
    {w : World} (hd : decodeFile bytes = .ok (frames, offset))
    (hw : World.reconstruct frames = .ok w) :
    ∃ s, openStore bytes = .ok s ∧ s.frames = frames ∧ s.bytes = bytes.take offset ∧
      s.writer = none := by
  obtain ⟨ps, tail, hb, -, -, hoff, -⟩ := decodeFile_ok hd
  obtain ⟨spans, hs⟩ := MappedFile.decodeFile_iff.1 hd
  have hlen := congrArg List.length hb
  simp only [List.length_append, length_fileHeader] at hlen
  have hne : bytes ≠ [] := by
    intro h0
    rw [h0, List.length_nil] at hlen
    omega
  unfold openStore
  simp only [if_neg hne, hs, hw]
  refine ⟨_, rfl, rfl, ?_, rfl⟩
  simp only
  split
  · simp [DiskFile.setLen, show offset - bytes.length = 0 by omega]
  · simp only
    rw [List.take_of_length_le (by omega)]

/-- The writer that the next append uses works on the store's file and frames. -/
def InStep (s : MmapCommitStore) : Prop :=
  ∀ writer, s.openWriter = .ok writer → writer.file.bytes = s.bytes ∧ writer.frames = s.frames

/-- A store without a writer opens one on its file. -/
theorem inStep_of_decodeFile (hw : s.writer = none)
    (hd : decodeFile s.bytes = .ok (s.frames, s.bytes.length)) : s.InStep := by
  intro writer h
  have hne : s.bytes ≠ [] := by
    intro h0
    rw [h0] at hd
    simp [decodeFile] at hd
  unfold openWriter at h
  rw [hw] at h
  obtain ⟨offset, w, hd', -, hb⟩ := FileCommitStore.decodeFile_of_openStore h
  rw [if_neg hne, hd] at hd'
  rw [if_neg hne] at hb
  obtain ⟨hf, ho⟩ := Prod.mk.inj (Except.ok.inj hd')
  exact ⟨by rw [hb, ← ho, List.take_length], hf.symm⟩

theorem remap_same (s : MmapCommitStore) (recordStart : ℕ) (fails : Bool) :
    (s.remapAfterDurableAppend recordStart fails).bytes = s.bytes ∧
      (s.remapAfterDurableAppend recordStart fails).frames = s.frames ∧
      (s.remapAfterDurableAppend recordStart fails).writer = s.writer := by
  unfold remapAfterDurableAppend
  split
  · exact ⟨rfl, rfl, rfl⟩
  · split <;> exact ⟨rfl, rfl, rfl⟩

/-- **One acknowledged append** adds its record to the file and stays in step. -/
theorem append_acked (h : s.InStep) {frame : CommitFrame} {faults : MappedAppendFaults}
    (ha : s.append frame faults = (.ok (), t)) :
    t.bytes = s.bytes ++ frameFormat.encode (encodePayload frame) ∧
      t.frames = s.frames ++ [frame] ∧ checkPosition s.frames frame = .ok () ∧
      (encodePayload frame).length ≤ maxFrameBytes ∧ t.InStep := by
  unfold append at ha
  split at ha
  · cases ha
  split at ha
  · cases ha
  simp only at ha
  split at ha
  · cases ha
  rename_i writer hopen
  obtain ⟨hb, hf⟩ := h writer hopen
  rcases FileCommitStore.append_cases writer frame faults.append with
    ⟨e, he⟩ | ⟨hv, hlen, ⟨file, n, he, hbytes⟩ | ⟨e, file, tail, more, he, -⟩⟩
  · rw [he] at ha
    cases ha
  · -- the writer acknowledged the record behind the same file
    rw [he] at ha
    simp only at ha
    cases ha
    have hpos := FileCommitStore.checkPosition_of_validateAppend hv
    rw [hf] at hpos
    obtain ⟨h1, h2, h3⟩ := remap_same { s with
      bytes := file.bytes, writer := some ⟨file, writer.frames ++ [frame], n⟩,
      frames := s.frames ++ [frame], recoveredTailBytes := 0 } s.bytes.length faults.remap
    refine ⟨by rw [h1, hbytes, hb], h2, hpos, hlen, fun w hw => ?_⟩
    unfold openWriter at hw
    rw [h3] at hw
    cases hw
    exact ⟨h1.symm, by rw [h2, hf]⟩
  · rw [he] at ha
    cases ha

/-- **Appends that were all acknowledged** have written their records. -/
theorem allAppended_records (h : s.InStep) (ha : s.AllAppended calls t) :
    t.bytes = s.bytes ++ recordsFor (calls.map Prod.fst) ∧ Linear s.frames (calls.map Prod.fst) ∧
      ∀ f ∈ calls.map Prod.fst, (encodePayload f).length ≤ maxFrameBytes := by
  induction calls generalizing s with
  | nil =>
    obtain rfl := ha
    exact ⟨by simp, trivial, by simp⟩
  | cons call calls ih =>
    obtain ⟨frame, faults⟩ := call
    obtain ⟨s', hs', hrest⟩ := ha
    obtain ⟨hb, hf, hpos, hlen, hstep⟩ := append_acked h hs'
    obtain ⟨hbytes, hlin, hall⟩ := ih hstep hrest
    rw [hf] at hlin
    refine ⟨by rw [hbytes, hb]; simp [List.append_assoc], ⟨hpos, hlin⟩, ?_⟩
    rw [List.map_cons, List.forall_mem_cons]
    exact ⟨hlen, hall⟩

end MmapCommitStore

/-- **Torn-prefix recovery.** Cut a commit file that decodes to a history anywhere behind its
header: both stores open what is left, hold exactly the frames that are whole, and truncate the
file behind the last of them. Frames that are then appended and all acknowledged make a file
that decodes to the kept frames and the appended ones exactly when each appended frame is
within the decoder's limit. -/
theorem tornPrefix_recovered_iff {bytes : List UInt8} {frames : List CommitFrame} {offset n : ℕ}
    {w : World} (hd : decodeFile bytes = .ok (frames, offset))
    (hw : World.reconstruct frames = .ok w) (hn : 16 ≤ n) :
    ∃ k s m, WholeFrames frames n k ∧
      (FileCommitStore.openStore (bytes.take n) = .ok s ∧ s.frames = frames.take k ∧
        s.file.bytes = bytes.take (16 + (recordsFor (frames.take k)).length)) ∧
      (MmapCommitStore.openStore (bytes.take n) = .ok m ∧ m.frames = frames.take k ∧
        m.bytes = bytes.take (16 + (recordsFor (frames.take k)).length)) ∧
      (∀ calls t, (∀ c ∈ calls, c.1.InRange) → s.appendAll calls = (t, calls.map Prod.fst) →
        (decodeFile t.file.bytes = .ok (frames.take k ++ calls.map Prod.fst, t.file.bytes.length) ↔
          ∀ c ∈ calls, c.1.operations.length ≤ maxOperationsPerFrame)) ∧
      ∀ calls t, (∀ c ∈ calls, c.1.InRange) → m.AllAppended calls t →
        (decodeFile t.bytes = .ok (frames.take k ++ calls.map Prod.fst, t.bytes.length) ↔
          ∀ c ∈ calls, c.1.operations.length ≤ maxOperationsPerFrame) := by
  obtain ⟨k, hwhole, hkept, hcut, hdcut⟩ := decodeFile_cut hd hn
  obtain ⟨a, ha, -⟩ := World.reconstruct_holds hw
  obtain ⟨w', hw'⟩ := World.reconstruct_iff.2 (ha.chained.take k)
  obtain ⟨s, hs, hsf, hsb⟩ := FileCommitStore.openStore_of_decodeFile hdcut hw'
  obtain ⟨m, hm, hmf, hmb, hmw⟩ := MmapCommitStore.openStore_of_decodeFile hdcut hw'
  rw [hcut] at hsb hmb
  have hend := decodeFile_take hdcut
  rw [hcut] at hend
  refine ⟨k, s, m, hwhole, ⟨hs, hsf, by rw [hsb, hkept]⟩, ⟨hm, hmf, by rw [hmb, hkept]⟩, ?_, ?_⟩
  · intro calls t hr hacked
    obtain ⟨hb, hlin, hlen⟩ := FileCommitStore.appendAll_acked hacked
    rw [hsf] at hlin
    rw [hb, hsb, FileCommitStore.decodeFile_records_iff hend hlin hlen]
    · simp
    · simpa using fun f faults hf => hr (f, faults) hf
  · intro calls t hr happended
    have hstep : m.InStep := by
      refine MmapCommitStore.inStep_of_decodeFile hmw ?_
      rw [hmb, hmf]
      exact hend
    obtain ⟨hb, hlin, hlen⟩ := MmapCommitStore.allAppended_records hstep happended
    rw [hmf] at hlin
    rw [hb, hmb, FileCommitStore.decodeFile_records_iff hend hlin hlen]
    · simp
    · simpa using fun f faults hf => hr (f, faults) hf

/-- A file of one frame, cut inside its record: nothing is kept, and the frame appended again is
decoded. -/
theorem tornPrefix_recovered_oneEntity :
    ∃ s, FileCommitStore.openStore (FileCommitStore.oneRecord.take 40) = .ok s ∧ s.frames = [] ∧
      ∃ t, s.appendAll [(FileCommitStore.oneEntity, {})] = (t, [FileCommitStore.oneEntity]) ∧
        decodeFile t.file.bytes = .ok ([FileCommitStore.oneEntity], t.file.bytes.length) := by
  have hd : decodeFile FileCommitStore.oneRecord = .ok ([FileCommitStore.oneEntity], 97) := by
    decide +kernel
  obtain ⟨w, hw⟩ : ∃ w, World.reconstruct [FileCommitStore.oneEntity] = .ok w :=
    World.reconstruct_iff.2 ⟨_, _, _,
      Chained.nil.snoc (f := FileCommitStore.oneEntity) rfl rfl rfl rfl rfl⟩
  obtain ⟨k, s, -, hwhole, ⟨hs, hf, -⟩, -, happend, -⟩ :=
    tornPrefix_recovered_iff (n := 40) hd hw (by decide)
  obtain rfl : k = 0 := by
    by_contra hk
    obtain ⟨hle, hlen, -⟩ := hwhole
    obtain rfl : k = 1 := by
      simp only [List.length_singleton] at hle
      omega
    exact absurd hlen (by decide +kernel)
  rw [List.take_zero] at hf happend
  obtain ⟨t, ht⟩ : ∃ t, s.appendAll [(FileCommitStore.oneEntity, {})] =
      (t, [FileCommitStore.oneEntity]) :=
    FileCommitStore.append_done (by rw [hf]; decide) (by decide)
  exact ⟨s, hs, hf, t, ht, (happend _ _ (by decide +kernel) ht).2 (by decide)⟩

/-- **A frame beyond the decoder's limit, appended behind a torn record**, is acknowledged, and
the file does not decode to it. -/
theorem overLimit_behind_tornRecord :
    ∃ s, FileCommitStore.openStore (FileCommitStore.oneRecord.take 40) = .ok s ∧ s.frames = [] ∧
      ∃ t, s.appendAll [(FileEpochStore.overLimit, {})] = (t, [FileEpochStore.overLimit]) ∧
        ∀ offset, decodeFile t.file.bytes ≠ .ok ([FileEpochStore.overLimit], offset) := by
  obtain ⟨s, hs, hf⟩ : ∃ s, FileCommitStore.openStore (FileCommitStore.oneRecord.take 40) = .ok s ∧
      s.frames = [] := ⟨⟨⟨fileHeader, 16⟩, [], 24⟩, by decide +kernel, rfl⟩
  obtain ⟨t, ht⟩ : ∃ t, s.appendAll [(FileEpochStore.overLimit, {})] =
      (t, [FileEpochStore.overLimit]) :=
    FileCommitStore.append_done (by rw [hf]; exact FileEpochStore.overLimit_follows)
      FileEpochStore.overLimit_encodes
  refine ⟨s, hs, hf, t, ht, fun offset h => ?_⟩
  have hle := decodeFile_limit h FileEpochStore.overLimit (List.mem_singleton.2 rfl)
  rw [show FileEpochStore.overLimit.operations.length = 1000001 from
    FileEpochStore.length_forgets _] at hle
  exact absurd hle (by decide)

end ForthDB
