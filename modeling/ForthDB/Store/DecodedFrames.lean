import ForthDB.Lib.TornLog
import ForthDB.Store.EpochStore
import ForthDB.Store.FileStoreRuns

/-!
# Which frames are read back

The encoder limits the bytes of a payload, the decoder also the operations of a frame.

* `decodeFile_snoc`, `decodeFile_records`: records of frames within both limits extend a
  decoded file.
* `decodeFile_limit`: no other frame is ever decoded.
* `decodeFile_eq`: a decoded file is the header, the records of its frames and a torn rest.
* `decodeFile_cut`: cut anywhere behind the header, it decodes to the frames that are whole.
-/

namespace ForthDB

open Bytes Decode RecordLog

namespace FileStore

variable {bytes : List UInt8} {fs frames : List CommitFrame} {frame : CommitFrame}

/-- A decoded frame has at most as many operations as the decoder allows. -/
theorem decodePayload_limit {p : List UInt8} (h : decodePayload p = .ok frame) :
    frame.operations.length ≤ maxOperationsPerFrame := by
  obtain ⟨n, hn⟩ := decodeAll_ok h
  obtain ⟨_, _, -, hn⟩ := bind_ok hn
  obtain ⟨_, _, -, hn⟩ := bind_ok hn
  obtain ⟨_, _, -, hn⟩ := bind_ok hn
  obtain ⟨_, _, -, hn⟩ := bind_ok hn
  obtain ⟨_, _, -, hn⟩ := bind_ok hn
  obtain ⟨count, _, -, hn⟩ := bind_ok hn
  obtain ⟨ops, _, hops, hn⟩ := bind_ok hn
  cases hn
  unfold readOperations at hops
  split at hops
  · cases hops
  · rename_i hle
    rw [length_of_times hops]
    exact not_lt.1 hle

theorem acceptAll_limit {ps : List (List UInt8)} {offset offset' : ℕ}
    (h : acceptAll acceptFrame fs offset ps = .ok (frames, offset'))
    (hfs : ∀ f ∈ fs, f.operations.length ≤ maxOperationsPerFrame) :
    ∀ f ∈ frames, f.operations.length ≤ maxOperationsPerFrame := by
  induction ps generalizing fs offset with
  | nil => cases h; exact hfs
  | cons p ps ih =>
    unfold acceptAll at h
    cases ha : acceptFrame fs offset p with
    | error e => rw [ha] at h; cases h
    | ok gs =>
      rw [ha] at h
      refine ih h ?_
      unfold acceptFrame at ha
      cases hd : decodePayload p with
      | error e => rw [hd] at ha; cases ha
      | ok g =>
        rw [hd] at ha
        simp only at ha
        split at ha
        · cases ha
        · cases ha
          intro f hf
          rcases List.mem_append.1 hf with hf | hf
          · exact hfs f hf
          · rw [List.mem_singleton.1 hf]
            exact decodePayload_limit hd

/-- **No frame beyond the limit is decoded.** -/
theorem decodeFile_limit {offset : ℕ} (h : decodeFile bytes = .ok (frames, offset)) :
    ∀ f ∈ frames, f.operations.length ≤ maxOperationsPerFrame := by
  obtain ⟨ps, tail, -, -, hacc, -, -⟩ := decodeFile_ok h
  exact acceptAll_limit hacc (by simp)

/-- **A record that continues a decoded file** is decoded with it. -/
theorem decodeFile_snoc (h : decodeFile bytes = .ok (fs, bytes.length))
    (hpos : checkPosition fs frame = .ok ()) (hlen : (encodePayload frame).length ≤ maxFrameBytes)
    (hr : frame.InRange) (hops : frame.operations.length ≤ maxOperationsPerFrame) :
    decodeFile (bytes ++ frameFormat.encode (encodePayload frame)) =
      .ok (fs ++ [frame], (bytes ++ frameFormat.encode (encodePayload frame)).length) := by
  obtain ⟨ps, tail, hb, hps, hacc, hoff, -⟩ := decodeFile_ok h
  have hl := congrArg List.length hb
  rw [List.length_append, length_fileHeader, List.length_append] at hl
  obtain rfl : tail = [] := List.length_eq_zero_iff.1 (by omega)
  rw [List.append_nil] at hb
  have hdec : acceptFrame fs bytes.length (encodePayload frame) = .ok (fs ++ [frame]) :=
    FileCommitStore.acceptFrame_ok (decodePayload_encodePayload hr hops) hpos
  have hfile : bytes ++ frameFormat.encode (encodePayload frame) = fileHeader ++
      (ps.flatMap frameFormat.encode ++ frameFormat.encode (encodePayload frame)) := by
    rw [hb, List.append_assoc]
  have hend : (bytes ++ frameFormat.encode (encodePayload frame)).length =
      bytes.length + (20 + (encodePayload frame).length + 4) := by
    rw [List.length_append, length_encode]
  rw [hend, hfile, decodeFile_header, scanLog_records hps (by simp), hacc]
  exact scanLog_encode hlen hdec le_rfl

/-- The whole records of a decoded file decode alike without what follows them. -/
theorem decodeFile_take {offset : ℕ} (h : decodeFile bytes = .ok (fs, offset)) :
    decodeFile (bytes.take offset) = .ok (fs, (bytes.take offset).length) := by
  obtain ⟨ps, tail, hb, hps, hacc, hoff, -⟩ := decodeFile_ok h
  have htake : bytes.take offset = fileHeader ++ ps.flatMap frameFormat.encode := by
    rw [hb, ← List.append_assoc, List.take_left']
    rw [List.length_append, length_fileHeader, hoff]
  have hlen : (fileHeader ++ ps.flatMap frameFormat.encode).length = offset := by
    rw [List.length_append, length_fileHeader, hoff]
  have hall := decodeFile_header (ps.flatMap frameFormat.encode ++ [])
  rw [scanLog_records hps (by simp), hacc, List.append_nil] at hall
  rw [htake, hall, hlen]
  rfl

/-- Each frame may be appended behind the ones before it. -/
def Linear : List CommitFrame → List CommitFrame → Prop
  | _, [] => True
  | before, frame :: frames => checkPosition before frame = .ok () ∧ Linear (before ++ [frame]) frames

/-- The records of some frames. -/
abbrev recordsFor (frames : List CommitFrame) : List UInt8 :=
  frames.flatMap fun frame => frameFormat.encode (encodePayload frame)

/-- **Records of frames within the limits** extend a decoded file. -/
theorem decodeFile_records (h : decodeFile bytes = .ok (fs, bytes.length)) (hlin : Linear fs frames)
    (hlen : ∀ f ∈ frames, (encodePayload f).length ≤ maxFrameBytes) (hr : ∀ f ∈ frames, f.InRange)
    (hops : ∀ f ∈ frames, f.operations.length ≤ maxOperationsPerFrame) :
    decodeFile (bytes ++ recordsFor frames) =
      .ok (fs ++ frames, (bytes ++ recordsFor frames).length) := by
  induction frames generalizing bytes fs with
  | nil => simpa using h
  | cons frame frames ih =>
    rw [List.forall_mem_cons] at hlen hr hops
    have hone := decodeFile_snoc h hlin.1 hlen.1 hr.1 hops.1
    have hall := ih hone hlin.2 hlen.2 hr.2 hops.2
    simpa [List.append_assoc] using hall

theorem recordsFor_eq (frames : List CommitFrame) :
    (frames.map encodePayload).flatMap frameFormat.encode = recordsFor frames := by
  simp [recordsFor, List.flatMap_map]

/-- **Accepted payloads spell the frames** that they are decoded to. -/
theorem acceptAll_frames {ps : List (List UInt8)} {offset offset' : ℕ}
    (h : acceptAll acceptFrame fs offset ps = .ok (frames, offset')) :
    ∃ new, frames = fs ++ new ∧ ps = new.map encodePayload := by
  induction ps generalizing fs offset with
  | nil => cases h; exact ⟨[], by simp, rfl⟩
  | cons p ps ih =>
    unfold acceptAll at h
    cases ha : acceptFrame fs offset p with
    | error e => rw [ha] at h; cases h
    | ok gs =>
      rw [ha] at h
      obtain ⟨new, rfl, rfl⟩ := ih h
      unfold acceptFrame at ha
      cases hd : decodePayload p with
      | error e => rw [hd] at ha; cases ha
      | ok g =>
        rw [hd] at ha
        simp only at ha
        split at ha
        · cases ha
        · cases ha
          exact ⟨g :: new, by simp, by rw [List.map_cons, encodePayload_decodePayload hd]⟩

/-- The first payloads are decoded to the first frames. -/
theorem acceptAll_frames_take {offset offset' : ℕ}
    (h : acceptAll acceptFrame [] offset (frames.map encodePayload) = .ok (frames, offset')) (k : ℕ) :
    acceptAll acceptFrame [] offset ((frames.take k).map encodePayload) =
      .ok (frames.take k, offset + (recordsFor (frames.take k)).length) := by
  obtain ⟨t, ht⟩ := acceptAll_take (f := frameFormat) h k
  rw [← List.map_take, recordsFor_eq] at ht
  have hsplit : (frames.take k).map encodePayload ++ (frames.drop k).map encodePayload =
      frames.map encodePayload := by
    rw [← List.map_append, List.take_append_drop]
  rw [← hsplit, acceptAll_append, ht] at h
  obtain ⟨first, hfirst, hmap⟩ := acceptAll_frames ht
  obtain ⟨rest, hrest, -⟩ := acceptAll_frames h
  have hlen : (frames.take k).length = t.length := by
    have hl := congrArg List.length hmap
    rw [hfirst]
    simpa using hl
  have hprefix : frames.take k ++ frames.drop k = t ++ rest := by
    rw [List.take_append_drop]
    exact hrest
  rw [ht, (List.append_inj hprefix hlen).1]

/-- **A decoded file** is the header, the records of its frames, and a torn rest. -/
theorem decodeFile_eq {offset : ℕ} (h : decodeFile bytes = .ok (frames, offset)) :
    ∃ tail, bytes = fileHeader ++ (recordsFor frames ++ tail) ∧ Torn frameFormat tail ∧
      offset = 16 + (recordsFor frames).length ∧
      (∀ p ∈ frames.map encodePayload, p.length ≤ frameFormat.limit) ∧
      acceptAll acceptFrame [] 16 (frames.map encodePayload) = .ok (frames, offset) := by
  obtain ⟨ps, tail, hb, hps, hacc, hoff, htail⟩ := decodeFile_ok h
  obtain ⟨new, hnew, rfl⟩ := acceptAll_frames hacc
  rw [List.nil_append] at hnew
  subst hnew
  rw [recordsFor_eq] at hb hoff
  exact ⟨tail, hb, htail, hoff, hps, hacc⟩

/-- How many frames are whole in the first `n` bytes: `k` of them, and no more. -/
def WholeFrames (frames : List CommitFrame) (n k : ℕ) : Prop :=
  k ≤ frames.length ∧ 16 + (recordsFor (frames.take k)).length ≤ n ∧
    (k < frames.length → n < 16 + (recordsFor (frames.take (k + 1))).length)

/-- **A decoded file that is cut behind its header** decodes to the frames that are whole, and
the last good offset is behind the last of them. -/
theorem decodeFile_cut {offset n : ℕ} (h : decodeFile bytes = .ok (frames, offset)) (hn : 16 ≤ n) :
    ∃ k, WholeFrames frames n k ∧
      bytes.take (16 + (recordsFor (frames.take k)).length) =
        fileHeader ++ recordsFor (frames.take k) ∧
      (bytes.take n).take (16 + (recordsFor (frames.take k)).length) =
        fileHeader ++ recordsFor (frames.take k) ∧
      decodeFile (bytes.take n) =
        .ok (frames.take k, 16 + (recordsFor (frames.take k)).length) := by
  obtain ⟨tail, hb, htail, hoff, hps, hacc⟩ := decodeFile_eq h
  obtain ⟨k, hk, rest, hcut, hrest, hle, hlt⟩ := exists_cut hps htail (n - 16)
  simp only [← List.map_take, recordsFor_eq, List.length_map] at hk hcut hle hlt
  have hheader := length_fileHeader
  have hfile : bytes.take n = fileHeader ++ (recordsFor (frames.take k) ++ rest) := by
    rw [hb, List.take_append, hheader, List.take_of_length_le (by omega), hcut]
  have hend : (fileHeader ++ recordsFor (frames.take k)).length =
      16 + (recordsFor (frames.take k)).length := by
    rw [List.length_append, hheader]
  have htake : (bytes.take n).take (16 + (recordsFor (frames.take k)).length) =
      fileHeader ++ recordsFor (frames.take k) := by
    rw [hfile, ← List.append_assoc, ← hend, List.take_left]
  refine ⟨k, ⟨hk, by omega, fun h => ?_⟩, ?_, htake, ?_⟩
  · have := hlt h
    omega
  · rw [List.take_take, min_eq_left (by omega)] at htake
    exact htake
  · have hacck := acceptAll_frames_take hacc k
    have hpsk : ∀ p ∈ (frames.take k).map encodePayload, p.length ≤ frameFormat.limit := by
      intro p hp
      rw [List.map_take] at hp
      exact hps p (List.mem_of_mem_take hp)
    rw [hfile, decodeFile_header, ← recordsFor_eq]
    rw [← recordsFor_eq] at hacck
    exact scanLog_cut hpsk hrest hacck (by simp)

end FileStore

end ForthDB
