import ForthDB.Store.FileStore

/-!
# Runs of the commit file under faults

* `Recoverable s`: the file is the header, whole records of `s.frames`, and at most
  one torn or complete record of a frame that continues them.
* `openStore_recoverable`: reopening such a file succeeds.
* `append_recoverable`: an append keeps it, **as long as the file ends at the last
  acknowledged record when the append starts**. Only a failed rollback breaks that.
* `appends_survive`: so every acknowledged frame survives such a run.
* `failed_rollback_loses_frame`: after a failed rollback the next append is lost.
-/

namespace ForthDB

open Bytes RecordLog

namespace FileStore

theorem length_fileHeader : fileHeader.length = 16 := by decide

theorem decodeFile_header (body : List UInt8) :
    decodeFile (fileHeader ++ body) =
      scanLog frameFormat acceptFrame corrupt (fileHeader ++ body).length [] 16 body := by
  have h8 : (fileHeader ++ body).take 8 = utf8 "FTHDB001" := by
    rw [List.take_append_of_le_length (by decide)]; decide
  have hv : ofLe (((fileHeader ++ body).drop 8).take 4) = 1 := by
    rw [List.drop_append_of_le_length (by decide), List.take_append_of_le_length (by decide)]
    decide
  have hf : ofLe (((fileHeader ++ body).drop 12).take 4) = 0 := by
    rw [List.drop_append_of_le_length (by decide), List.take_append_of_le_length (by decide)]
    decide
  have hd : (fileHeader ++ body).drop 16 = body := by
    rw [← length_fileHeader, List.drop_left]
  have hl : ¬ (fileHeader ++ body).length < 16 := by
    rw [List.length_append, length_fileHeader]; omega
  unfold decodeFile
  rw [if_neg hl, if_neg (not_not.2 h8)]
  simp only [hv, hf, hd]
  rw [if_neg (by simp), if_neg (by simp)]

/-- A file that decodes starts with the header. -/
theorem header_of_decodeFile {bytes : List UInt8} {r : List CommitFrame × ℕ}
    (h : decodeFile bytes = .ok r) : bytes = fileHeader ++ bytes.drop 16 := by
  unfold decodeFile at h
  split at h
  · cases h
  rename_i hl
  split at h
  · cases h
  rename_i hm
  simp only at h
  split at h
  · cases h
  rename_i hv
  split at h
  · cases h
  rename_i hf
  push Not at hm hv hf
  have h4 : ∀ n, n + 4 ≤ bytes.length → ((bytes.drop n).take 4).length = 4 := by
    intro n hn; simp; omega
  have h1 : (bytes.drop 8).take 4 = le 4 1 :=
    ofLe_inj (by rw [h4 8 (by omega)]; rfl) (by rw [hv]; rfl)
  have h2 : (bytes.drop 12).take 4 = le 4 0 :=
    ofLe_inj (by rw [h4 12 (by omega)]; rfl) (by rw [hf]; rfl)
  unfold fileHeader
  rw [← hm, ← h1, ← h2]
  simp only [List.append_assoc]
  rw [show bytes.drop 16 = (bytes.drop 12).drop 4 by rw [List.drop_drop], List.take_append_drop,
    show bytes.drop 12 = (bytes.drop 8).drop 4 by rw [List.drop_drop], List.take_append_drop,
    List.take_append_drop]

/-- What a file that decodes consists of. -/
theorem decodeFile_ok {bytes : List UInt8} {frames : List CommitFrame} {offset : ℕ}
    (h : decodeFile bytes = .ok (frames, offset)) :
    ∃ ps tail, bytes = fileHeader ++ (ps.flatMap frameFormat.encode ++ tail) ∧
      (∀ p ∈ ps, p.length ≤ frameFormat.limit) ∧
      acceptAll acceptFrame [] 16 ps = .ok (frames, offset) ∧
      offset = 16 + (ps.flatMap frameFormat.encode).length ∧
      (tail = [] ∨ scan frameFormat tail = .incomplete) := by
  have hb := header_of_decodeFile h
  rw [hb, decodeFile_header] at h
  obtain ⟨ps, tail, h1, h2, h3, h4, h5⟩ := scanLog_ok (by simp) h
  exact ⟨ps, tail, by rw [← h1]; exact hb, h2, h3, h4, h5⟩

end FileStore

namespace FileCommitStore

open FileStore

variable {s s' : FileCommitStore} {frame : CommitFrame} {faults : AppendFaults}

/-- Behind the stored frames the file has nothing, or a prefix of one record that continues
them. -/
inductive Tail (frames : List CommitFrame) : List UInt8 → Prop
  | none : Tail frames []
  | record {tail more p : List UInt8} {f : CommitFrame} {id : WorldId} {v : ℕ} {a : WorldState} :
      frameFormat.encode p = tail ++ more → p.length ≤ frameFormat.limit →
      decodePayload p = .ok f → checkPosition frames f = .ok () →
      Chained (frames ++ [f]) id v a → Tail frames tail

/-- The header, whole records of the stored frames, and a tail. -/
structure Recoverable (s : FileCommitStore) : Prop where
  bytes : ∃ ps tail, s.file.bytes = fileHeader ++ (ps.flatMap frameFormat.encode ++ tail) ∧
    (∀ p ∈ ps, p.length ≤ frameFormat.limit) ∧
    acceptAll acceptFrame [] 16 ps =
      .ok (s.frames, 16 + (ps.flatMap frameFormat.encode).length) ∧ Tail s.frames tail
  chained : ∃ id v a, Chained s.frames id v a

/-- The file ends at the last acknowledged record: nothing failed is left in it. -/
def AtRecordEnd (s : FileCommitStore) : Prop :=
  decodeFile s.file.bytes = .ok (s.frames, s.file.bytes.length)

theorem acceptFrame_ok {frames : List CommitFrame} {p : List UInt8} {f : CommitFrame} {offset : ℕ}
    (hd : decodePayload p = .ok f) (hp : checkPosition frames f = .ok ()) :
    acceptFrame frames offset p = .ok (frames ++ [f]) := by
  simp [acceptFrame, hd, validateDecodedPosition, hp, Except.mapError]

/-- **Reopening succeeds** and finds the stored frames, and at most the one behind them. -/
theorem openStore_recoverable (h : s.Recoverable) :
    ∃ t, openStore s.file.bytes = .ok t ∧ ∃ extra, extra.length ≤ 1 ∧ t.frames = s.frames ++ extra := by
  obtain ⟨ps, tail, hb, hps, hacc, htail⟩ := h.bytes
  have hne : s.file.bytes ≠ [] := by
    rw [hb]
    intro h0
    have := congrArg List.length h0
    rw [List.length_append, length_fileHeader] at this
    simp at this
  have hdec : ∃ extra offset, extra.length ≤ 1 ∧
      decodeFile s.file.bytes = .ok (s.frames ++ extra, offset) ∧
      ∃ id v a, Chained (s.frames ++ extra) id v a := by
    rw [hb, decodeFile_header, scanLog_records hps (by simp), hacc]
    simp only
    cases htail with
    | none => exact ⟨[], _, by simp, by rw [List.append_nil]; rfl, by simpa using h.chained⟩
    | @record _ more p f id v a henc hlen hd hp hc =>
      by_cases hm : more = []
      · -- the failed record is complete
        subst hm
        rw [List.append_nil] at henc
        subst henc
        exact ⟨[f], _, by simp, scanLog_encode hlen (acceptFrame_ok hd hp) le_rfl, id, v, a, hc⟩
      · exact ⟨[], _, by simp, by rw [scanLog_torn hlen henc hm, List.append_nil],
          by simpa using h.chained⟩
  obtain ⟨extra, offset, hlen, hdec, hchain⟩ := hdec
  obtain ⟨w, hw⟩ := World.reconstruct_iff.2 hchain
  unfold openStore
  simp only [if_neg hne, hdec, hw]
  exact ⟨_, rfl, extra, hlen, rfl⟩

/-- What an append must meet to be readable later: the file ends at the last acknowledged
record, the frame continues the stored history, and its operations are few enough to be
decoded. A frame that `validate_append` refuses meets it. -/
structure Sound (s : FileCommitStore) (frame : CommitFrame) : Prop where
  inRange : frame.InRange
  atEnd : s.validateAppend frame = .ok () → s.AtRecordEnd
  operations : s.validateAppend frame = .ok () → frame.operations.length ≤ maxOperationsPerFrame
  continues : s.validateAppend frame = .ok () → ∃ id v a, Chained (s.frames ++ [frame]) id v a

/-- The file after a write of `data` at its end. -/
theorem write_seekEnd (file : DiskFile) (data : List UInt8) :
    (file.seekEnd.write data).bytes = file.bytes ++ data := by
  simp [DiskFile.write, DiskFile.seekEnd]

theorem rollback_bytes (file : DiskFile) (data : List UInt8) (faults : AppendFaults) :
    (rollbackFailedAppend (file.seekEnd.write data) file.bytes.length faults).bytes =
      file.bytes ++ if faults.rollbackSetLen then data else [] := by
  generalize hg : file.seekEnd.write data = g
  have hb : g.bytes = file.bytes ++ data := by rw [← hg, write_seekEnd]
  have hset : (g.setLen file.bytes.length).bytes = file.bytes := by simp [DiskFile.setLen, hb]
  unfold rollbackFailedAppend
  cases faults.rollbackSetLen <;> cases faults.rollbackSeek <;> simp [DiskFile.seekEnd, hset, hb]

/-- **What an append can do**: refuse and leave the store alone, acknowledge the frame behind a
whole record, or fail and leave a prefix of the record. -/
theorem append_cases (s : FileCommitStore) (frame : CommitFrame) (faults : AppendFaults) :
    (∃ e, s.append frame faults = (.error e, s)) ∨
    s.validateAppend frame = .ok () ∧ (encodePayload frame).length ≤ maxFrameBytes ∧
      ((∃ file n, s.append frame faults = (.ok (), ⟨file, s.frames ++ [frame], n⟩) ∧
          file.bytes = s.file.bytes ++ frameFormat.encode (encodePayload frame)) ∨
        ∃ e file tail more, s.append frame faults = (.error e, { s with file := file }) ∧
          file.bytes = s.file.bytes ++ tail ∧
          (tail = [] ∨ frameFormat.encode (encodePayload frame) = tail ++ more)) := by
  unfold append
  cases hv : s.validateAppend frame with
  | error e => exact .inl ⟨e, rfl⟩
  | ok =>
    unfold encodeRecord
    by_cases hlen : maxFrameBytes < (encodePayload frame).length
    · simp only [if_pos hlen]
      exact .inl ⟨_, rfl⟩
    simp only [if_neg hlen]
    by_cases hseek : faults.seekStart
    · exact .inl ⟨.io, by rw [if_pos hseek]⟩
    rw [if_neg hseek]
    refine .inr ⟨trivial, not_lt.1 hlen, ?_⟩
    set record := frameFormat.encode (encodePayload frame) with hrec
    cases hw : faults.write with
    | some written =>
      refine .inr ⟨.io, _, _, record.drop written, rfl, rollback_bytes _ _ _, ?_⟩
      cases faults.rollbackSetLen
      · exact .inl rfl
      · exact .inr (List.take_append_drop written record).symm
    | none =>
      cases hs : faults.sync with
      | false => exact .inl ⟨_, 0, rfl, write_seekEnd _ _⟩
      | true =>
        refine .inr ⟨.io, _, _, [], rfl, rollback_bytes _ _ _, ?_⟩
        cases faults.rollbackSetLen
        · exact .inl rfl
        · exact .inr (List.append_nil record).symm

/-- A file that ends at the last acknowledged record is the header and whole records. -/
theorem records_of_atRecordEnd (h : s.AtRecordEnd) :
    ∃ ps, s.file.bytes = fileHeader ++ ps.flatMap frameFormat.encode ∧
      (∀ p ∈ ps, p.length ≤ frameFormat.limit) ∧
      acceptAll acceptFrame [] 16 ps =
        .ok (s.frames, 16 + (ps.flatMap frameFormat.encode).length) := by
  obtain ⟨ps, tail, hb, hps, hacc, hoff, -⟩ := decodeFile_ok h
  have hlen := congrArg List.length hb
  rw [List.length_append, length_fileHeader, List.length_append] at hlen
  obtain rfl : tail = [] := List.length_eq_zero_iff.1 (by omega)
  rw [List.append_nil] at hb
  exact ⟨ps, hb, hps, by rw [hacc, ← hoff]⟩

theorem checkPosition_of_validateAppend (h : s.validateAppend frame = .ok ()) :
    checkPosition s.frames frame = .ok () := by
  unfold validateAppend at h
  cases hc : checkPosition s.frames frame with
  | ok => rfl
  | error e => rw [hc] at h; cases h

/-- **One append** keeps the file recoverable. -/
theorem append_recoverable (h : s.Recoverable) (hs : s.Sound frame) (faults : AppendFaults) :
    (s.append frame faults).2.Recoverable ∧
      (s.append frame faults).2.frames =
        s.frames ++ (if (s.append frame faults).1 = .ok () then [frame] else []) := by
  rcases append_cases s frame faults with ⟨e, he⟩ | ⟨hv, hlen, hok | herr⟩
  · rw [he]; exact ⟨h, by simp⟩
  · obtain ⟨file, n, he, hb⟩ := hok
    obtain ⟨ps, hfile, hps, hacc⟩ := records_of_atRecordEnd (hs.atEnd hv)
    have hdec := decodePayload_encodePayload hs.inRange (hs.operations hv)
    have hpos := checkPosition_of_validateAppend hv
    rw [he]
    refine ⟨⟨⟨ps ++ [encodePayload frame], [], ?_, ?_, ?_, .none⟩, hs.continues hv⟩, by simp⟩
    · rw [hb, hfile]; simp
    · intro p hp
      rcases List.mem_append.1 hp with hp | hp
      · exact hps p hp
      · rw [List.mem_singleton.1 hp]; exact hlen
    · rw [acceptAll_append, hacc]
      simp only [acceptAll, acceptFrame_ok hdec hpos, List.flatMap_append, List.length_append]
      simp [Nat.add_assoc]
  · obtain ⟨e, file, tail, more, he, hb, htail⟩ := herr
    obtain ⟨ps, hfile, hps, hacc⟩ := records_of_atRecordEnd (hs.atEnd hv)
    have hdec := decodePayload_encodePayload hs.inRange (hs.operations hv)
    have hpos := checkPosition_of_validateAppend hv
    obtain ⟨id, v, a, hc⟩ := hs.continues hv
    rw [he]
    refine ⟨⟨⟨ps, tail, ?_, hps, hacc, ?_⟩, h.chained⟩, by simp⟩
    · simp only [hb, hfile, List.append_assoc]
    · rcases htail with rfl | henc
      · exact .none
      · exact .record henc hlen hdec hpos hc

/-- Opening yields a recoverable store. -/
theorem recoverable_of_openStore {bytes : List UInt8} (h : openStore bytes = .ok s) :
    s.Recoverable := by
  unfold openStore at h
  set bs := if bytes = [] then fileHeader else bytes with hbs
  cases hd : decodeFile bs with
  | error e => simp [hd] at h
  | ok r =>
    obtain ⟨frames, offset⟩ := r
    simp only [hd] at h
    cases hw : World.reconstruct frames with
    | error e => simp [hw] at h
    | ok w =>
      simp only [hw, Except.ok.injEq] at h
      subst h
      obtain ⟨ps, tail, hb, hps, hacc, hoff, -⟩ := decodeFile_ok hd
      obtain ⟨a, ha, -⟩ := World.reconstruct_holds hw
      refine ⟨⟨ps, [], ?_, hps, by rw [hacc, hoff], .none⟩, ⟨_, _, a, ha.chained⟩⟩
      have hlen := congrArg List.length hb
      rw [List.length_append, length_fileHeader, List.length_append] at hlen
      have htake : bs.take offset = fileHeader ++ ps.flatMap frameFormat.encode := by
        rw [hb, ← List.append_assoc, List.take_left']
        rw [List.length_append, length_fileHeader, hoff]
      rw [List.append_nil, ← htake]
      split
      · simp [DiskFile.seekEnd, DiskFile.setLen, show offset - bs.length = 0 by omega]
      · rename_i hz
        simp only [DiskFile.seekEnd]
        rw [List.take_of_length_le (by omega)]

/-- Every append of a run is sound where it is made. -/
def AllSound (s : FileCommitStore) : List (CommitFrame × AppendFaults) → Prop
  | [] => True
  | (frame, faults) :: calls => s.Sound frame ∧ (s.append frame faults).2.AllSound calls

/-- **A run** keeps the file recoverable, and stores what it acknowledged. -/
theorem appendAll_recoverable {calls : List (CommitFrame × AppendFaults)} (h : s.Recoverable)
    (hs : s.AllSound calls) :
    (s.appendAll calls).1.Recoverable ∧
      (s.appendAll calls).1.frames = s.frames ++ (s.appendAll calls).2 := by
  induction calls generalizing s with
  | nil => exact ⟨h, by simp [appendAll]⟩
  | cons call calls ih =>
    obtain ⟨frame, faults⟩ := call
    obtain ⟨hsound, hrest⟩ := hs
    obtain ⟨h1, h2⟩ := append_recoverable h hsound faults
    obtain ⟨h3, h4⟩ := ih h1 hrest
    unfold appendAll
    cases hr : s.append frame faults with
    | mk r t =>
      rw [hr] at h2 h3 h4
      simp only at h2
      cases r with
      | error e => exact ⟨h3, by rw [h4, h2]; simp⟩
      | ok => exact ⟨h3, by rw [h4, h2]; simp⟩

/-- Reopening succeeds and finds the frames of `s`, then every frame acknowledged by `calls` in
order, and behind them at most one frame more. -/
def Survives (s : FileCommitStore) (calls : List (CommitFrame × AppendFaults)) : Prop :=
  ∃ t, openStore (s.appendAll calls).1.file.bytes = .ok t ∧
    ∃ extra, extra.length ≤ 1 ∧ t.frames = s.frames ++ (s.appendAll calls).2 ++ extra

/-- **The commit file survives I/O faults** in every run whose appends start at the end of the
last acknowledged record. -/
theorem appends_survive {bytes : List UInt8} {calls : List (CommitFrame × AppendFaults)}
    (h : openStore bytes = .ok s) (hs : s.AllSound calls) : s.Survives calls := by
  obtain ⟨h1, h2⟩ := appendAll_recoverable (recoverable_of_openStore h) hs
  obtain ⟨t, ht, extra, hlen, hframes⟩ := openStore_recoverable h1
  exact ⟨t, ht, extra, hlen, by rw [hframes, h2]⟩

/-- The store of a new file. -/
def created : FileCommitStore := ⟨⟨fileHeader, 16⟩, [], 0⟩

/-- The first frame of a history that allocates one entity. -/
def oneEntity : CommitFrame where
  parentWorld := .genesis
  resultingWorld := calculateWorldId .genesis 1 2 [.allocateEntity ⟨1⟩]
  parentVersion := 0
  resultingVersion := 1
  resultingAllocator := 2
  operations := [.allocateEntity ⟨1⟩]

/-- A write fails after ten bytes and is rolled back; the second append succeeds. -/
def retriedAppend : List (CommitFrame × AppendFaults) :=
  [(oneEntity, { write := some 10 }), (oneEntity, {})]

theorem appends_survive_retried : openStore [] = .ok created ∧ created.Survives retriedAppend := by
  have hopen : openStore [] = .ok created := by decide +kernel
  have hsound : ∀ s : FileCommitStore, s.frames = [] → s.AtRecordEnd → s.Sound oneEntity := by
    intro s hf hend
    refine ⟨by decide +kernel, fun _ => hend, fun _ => by decide, fun _ => ?_⟩
    rw [hf]
    exact ⟨_, _, _, Chained.nil.snoc (f := oneEntity) rfl rfl rfl rfl rfl⟩
  refine ⟨hopen, appends_survive hopen ⟨hsound _ rfl ?_, hsound _ ?_ ?_, trivial⟩⟩
  · unfold AtRecordEnd; decide +kernel
  · decide +kernel
  · unfold AtRecordEnd; decide +kernel

/-- A write fails after one byte, and so does the cut that should remove it. -/
def lostAppend : List (CommitFrame × AppendFaults) :=
  [(oneEntity, { write := some 1, rollbackSetLen := true }), (oneEntity, {})]

/-- **A failed rollback loses what is acknowledged next**: the second append returns `Ok` and
the file no longer opens. -/
theorem failed_rollback_loses_frame :
    openStore [] = .ok created ∧ (created.appendAll lostAppend).2 = [oneEntity] ∧
      ¬ created.Survives lostAppend := by
  refine ⟨by decide +kernel, by decide +kernel, ?_⟩
  have h : openStore (created.appendAll lostAppend).1.file.bytes =
      .error (.corruptFrame 16 "frame magic does not match FRM1") := by decide +kernel
  rintro ⟨t, ht, -⟩
  rw [h] at ht
  cases ht

end FileCommitStore

end ForthDB
