import ForthDB.Store.TornCommits

/-!
# The spans of the mapped store

`MmapCommitStore` finds the record of a frame through the span at the same position. An append
pushes its frame before it remaps the file, and its span after.

* `MmapCommitStore.Aligned`: the mapping, cut at the span of a frame, is the frame's record.
* `MmapCommitStore.Overtakes`: an append is about to be mapped in front of which a frame has no
  span.
* `Kept.call`: what every other call keeps.
* `mapping_aligned_iff`: **the mapping stays aligned exactly as long as no append overtakes.**
-/

namespace ForthDB

open FileStore MappedFile RecordLog Bytes

namespace MmapCommitStore

/-- `refresh_mapping`; `fails` is the outcome of the new mapping. -/
def refreshMapping (s : MmapCommitStore) (fails : Bool) :
    Except FileCommitStoreError Unit × MmapCommitStore :=
  let s := { s with mapping := none }
  if fails then (.error .io, s)
  else match MappedFile.decodeFile s.bytes with
    | .error e => (.error e, s)
    | .ok ((frames, spans), lastGoodOffset) =>
      if lastGoodOffset ≠ s.bytes.length then
        (.error (.corruptFrame lastGoodOffset "refresh found an incomplete tail"), s)
      else match World.reconstruct frames with
        | .error e => (.error (.history e), s)
        | .ok _ => (.ok (), { s with
            mapping := some s.bytes, frames := frames, spans := spans, writer := none,
            lastRemapError := none })

/-- A call of the store's user, and whether the file can be mapped in it. -/
inductive Call
  | append (frame : CommitFrame) (mapFails : Bool)
  | read (index : ℕ)
  | refresh (mapFails : Bool)
deriving DecidableEq

/-- The store after a call. -/
def call (s : MmapCommitStore) : Call → MmapCommitStore
  | .append frame mapFails => (s.append frame { remap := mapFails }).2
  | .read _ => s
  | .refresh mapFails => (s.refreshMapping mapFails).2

def calls (s : MmapCommitStore) (cs : List Call) : MmapCommitStore := cs.foldl call s

/-- While a mapping is present every frame has a span, and no frame has another's: cutting the
mapping there stays within it and gives the frame's record. -/
def Aligned (s : MmapCommitStore) : Prop :=
  ∀ mapping, s.mapping = some mapping → s.spans.length = s.frames.length ∧
    ∀ i frame, s.frames[i]? = some frame → ∃ span record, s.spans[i]? = some span ∧
      span.recordStart ≤ span.recordEnd ∧ span.recordEnd ≤ mapping.length ∧
      FileCommitStore.encodeRecord frame = .ok record ∧ s.mappedRecord i = some record

/-- An append is accepted and mapped while an earlier frame has no span. -/
def Overtakes (s : MmapCommitStore) : Call → Prop
  | .append frame false => s.spans.length ≠ s.frames.length ∧
      s.validateAppend frame = .ok () ∧ (encodePayload frame).length ≤ maxFrameBytes
  | _ => False

instance (s : MmapCommitStore) (c : Call) : Decidable (s.Overtakes c) :=
  match c with
  | .append _ false => inferInstanceAs (Decidable (_ ∧ _ ∧ _))
  | .append _ true => inferInstanceAs (Decidable False)
  | .read _ => inferInstanceAs (Decidable False)
  | .refresh _ => inferInstanceAs (Decidable False)

end MmapCommitStore

/-! ## Spans in a file that grows -/

namespace MappedFile

variable {bytes : List UInt8} {span : FrameSpan} {frame : CommitFrame}

/-- A span cuts out the record of its frame, and lies within the file. -/
structure Placed (bytes : List UInt8) (span : FrameSpan) (frame : CommitFrame) : Prop where
  slices : Slices bytes span frame
  ordered : span.recordStart ≤ span.recordEnd
  payloadWithin : span.payloadEnd ≤ span.recordEnd
  within : span.recordEnd ≤ bytes.length

theorem Placed.append (h : Placed bytes span frame) (more : List UInt8) :
    Placed (bytes ++ more) span frame := by
  have hrecord : (bytes ++ more).take span.recordEnd = bytes.take span.recordEnd :=
    List.take_append_of_le_length h.within
  have hpayload : (bytes ++ more).take span.payloadEnd = bytes.take span.payloadEnd :=
    List.take_append_of_le_length (h.payloadWithin.trans h.within)
  refine ⟨⟨?_, ?_⟩, h.ordered, h.payloadWithin, ?_⟩
  · rw [hrecord]
    exact h.slices.record
  · rw [hpayload]
    exact h.slices.payload
  · rw [List.length_append]
    have hwithin := h.within
    omega

theorem spanOf_placed (before : List UInt8) (frame : CommitFrame)
    (hlen : (encodePayload frame).length ≤ maxFrameBytes) :
    Placed (before ++ frameFormat.encode (encodePayload frame))
      (spanOf before.length (encodePayload frame)) frame := by
  refine ⟨spanOf_slices rfl hlen (by rw [List.append_nil]), ?_, ?_, ?_⟩
  · unfold spanOf
    simp only
    omega
  · unfold spanOf
    simp only
    omega
  · rw [List.length_append, length_encode]
    unfold spanOf
    simp only
    omega

/-- Accepting payloads places the spans before the offset that is reached. -/
theorem acceptAll_within {ps : List (List UInt8)} {s s' : List CommitFrame × List FrameSpan}
    {offset offset' : ℕ} (hs : ∀ span ∈ s.2, span.recordStart ≤ span.recordEnd ∧
      span.payloadEnd ≤ span.recordEnd ∧ span.recordEnd ≤ offset)
    (h : acceptAll acceptFrame s offset ps = .ok (s', offset')) :
    ∀ span ∈ s'.2, span.recordStart ≤ span.recordEnd ∧
      span.payloadEnd ≤ span.recordEnd ∧ span.recordEnd ≤ offset' := by
  induction ps generalizing s offset with
  | nil =>
    cases h
    exact hs
  | cons p ps ih =>
    unfold acceptAll at h
    cases ha : acceptFrame s offset p with
    | error e => rw [ha] at h; cases h
    | ok t =>
      rw [ha] at h
      refine ih (fun span hspan => ?_) h
      have ht : t.2 = s.2 ++ [spanOf offset p] := by
        unfold acceptFrame at ha
        split at ha
        · cases ha
        · split at ha
          · cases ha
          · cases ha
            rfl
      rw [ht] at hspan
      rcases List.mem_append.1 hspan with hspan | hspan
      · obtain ⟨h1, h2, h3⟩ := hs span hspan
        exact ⟨h1, h2, by omega⟩
      · rw [List.mem_singleton.1 hspan]
        unfold spanOf
        simp only
        omega

/-- A span lies in every front part of the file that reaches behind it. -/
theorem Placed.take {offset : ℕ} (h : Placed bytes span frame) (hle : span.recordEnd ≤ offset) :
    Placed (bytes.take offset) span frame := by
  have hrecord : (bytes.take offset).take span.recordEnd = bytes.take span.recordEnd := by
    rw [List.take_take, min_eq_left hle]
  have hpayload : (bytes.take offset).take span.payloadEnd = bytes.take span.payloadEnd := by
    rw [List.take_take, min_eq_left (h.payloadWithin.trans hle)]
  refine ⟨⟨?_, ?_⟩, h.ordered, h.payloadWithin, ?_⟩
  · rw [hrecord]
    exact h.slices.record
  · rw [hpayload]
    exact h.slices.payload
  · rw [List.length_take]
    exact le_min hle h.within

/-- **Every span of a parsed file** lies within its whole records, at the place of its frame's. -/
theorem decodeFile_placed {frames : List CommitFrame} {spans : List FrameSpan} {offset : ℕ}
    (h : decodeFile bytes = .ok ((frames, spans), offset)) :
    List.Forall₂ (Placed (bytes.take offset)) spans frames := by
  have hslices := decodeFile_slices h
  have hheader := header_of_decodeFile (decodeFile_iff.2 ⟨spans, h⟩)
  obtain ⟨ps, tail, hb, -, hacc, hoff, -⟩ := scanLog_ok (by simp) (scan_of_decodeFile h)
  have hwithin := acceptAll_within (by simp) hacc
  have hle : offset ≤ bytes.length := by
    have hlen := congrArg List.length hb
    have hlen' := congrArg List.length hheader
    simp only [List.length_append, List.length_drop, length_fileHeader] at hlen hlen'
    omega
  obtain ⟨hlen, hzip⟩ := List.forall₂_iff_zip.1 hslices
  refine List.forall₂_iff_zip.2 ⟨hlen, fun {span frame} hmem => ?_⟩
  obtain ⟨h1, h2, h3⟩ := hwithin span (List.of_mem_zip hmem).1
  have hplaced : Placed bytes span frame := ⟨hzip hmem, h1, h2, h3.trans hle⟩
  exact hplaced.take h3

/-- The span of the record that was just appended. -/
theorem decodeCompleteSpan_encode (before payload : List UInt8)
    (hlen : payload.length ≤ maxFrameBytes) :
    decodeCompleteSpan (before ++ frameFormat.encode payload) before.length =
      .ok (spanOf before.length payload) := by
  have hfront : (before ++ frameFormat.encode payload).drop before.length =
      frameFormat.magic ++ (le 8 payload.length ++ (le 8 (checksum payload) ++
        (payload ++ frameFormat.trailer))) := by
    rw [List.drop_left]
    rfl
  have hmagic : frameFormat.magic.length = 4 := frameFormat.magic_length
  have hdrop4 : (frameFormat.magic ++ (le 8 payload.length ++ (le 8 (checksum payload) ++
      (payload ++ frameFormat.trailer)))).drop 4 = le 8 payload.length ++
        (le 8 (checksum payload) ++ (payload ++ frameFormat.trailer)) := List.drop_left' hmagic
  have hdrop12 : (frameFormat.magic ++ (le 8 payload.length ++ (le 8 (checksum payload) ++
      (payload ++ frameFormat.trailer)))).drop 12 =
        le 8 (checksum payload) ++ (payload ++ frameFormat.trailer) := by
    rw [show 12 = 4 + 8 from rfl, ← List.drop_drop, hdrop4]
    exact List.drop_left' (length_le 8 _)
  have hdrop20 : (frameFormat.magic ++ (le 8 payload.length ++ (le 8 (checksum payload) ++
      (payload ++ frameFormat.trailer)))).drop 20 = payload ++ frameFormat.trailer := by
    rw [show 20 = 12 + 8 from rfl, ← List.drop_drop, hdrop12]
    exact List.drop_left' (length_le 8 _)
  have hdropn : (frameFormat.magic ++ (le 8 payload.length ++ (le 8 (checksum payload) ++
      (payload ++ frameFormat.trailer)))).drop (20 + payload.length) = frameFormat.trailer := by
    rw [← List.drop_drop, hdrop20]
    exact List.drop_left
  have hlength : ofLe (le 8 payload.length) = payload.length := by
    refine ofLe_le (lt_of_le_of_lt hlen ?_)
    decide
  have hchecksum : ofLe (le 8 (checksum payload)) = checksum payload :=
    ofLe_le (checksum_lt payload)
  have hend : before.length + 20 + payload.length + 4 =
      (before ++ frameFormat.encode payload).length := by
    rw [List.length_append, length_encode]
    omega
  have htwenty : ¬ (frameFormat.magic ++ (le 8 payload.length ++ (le 8 (checksum payload) ++
      (payload ++ frameFormat.trailer)))).length < 20 := by
    simp only [List.length_append, length_le, hmagic]
    omega
  unfold decodeCompleteSpan
  simp only [hfront, hdrop4, hdrop12, hdrop20]
  rw [List.take_left' (length_le 8 _), hlength, hdropn, List.take_left' (length_le 8 _), hchecksum,
    List.take_left, List.take_left' hmagic]
  rw [if_neg htwenty, if_neg (by decide), if_neg (by omega), if_neg (by omega),
    if_neg (by decide), if_neg (by simp)]

end MappedFile

/-! ## One call -/

namespace MmapCommitStore

variable {s : MmapCommitStore}

/-- What every call keeps that does not overtake. -/
structure Kept (s : MmapCommitStore) : Prop where
  inStep : s.InStep
  opens : ∃ writer, s.openWriter = .ok writer
  mapping : ∀ mapping, s.mapping = some mapping →
    mapping = s.bytes ∧ s.spans.length = s.frames.length
  spans : ∃ later, ∃ spanned, s.frames = spanned ++ later ∧
    List.Forall₂ (Placed s.bytes) s.spans spanned

/-- With a span for every frame the mapping is aligned. -/
theorem Kept.aligned (h : s.Kept) : s.Aligned := by
  intro mapping hmapping
  obtain ⟨hbytes, hlength⟩ := h.mapping mapping hmapping
  refine ⟨hlength, fun i frame hframe => ?_⟩
  obtain ⟨later, spanned, hframes, hplaced⟩ := h.spans
  have hlen := hplaced.length_eq
  have hlater : later = [] := by
    have hcount := congrArg List.length hframes
    rw [List.length_append] at hcount
    exact List.length_eq_zero_iff.1 (by omega)
  rw [hlater, List.append_nil] at hframes
  rw [hframes] at hframe
  obtain ⟨hi, rfl⟩ := List.getElem?_eq_some_iff.1 hframe
  have hspan : s.spans[i]? = some s.spans[i] := List.getElem?_eq_getElem (by omega)
  have hat : Placed s.bytes s.spans[i] spanned[i] := hplaced.get (by omega) hi
  refine ⟨s.spans[i], _, hspan, hat.ordered, ?_, hat.slices.record, ?_⟩
  · rw [hbytes]
    exact hat.within
  · unfold mappedRecord
    rw [hmapping, hspan, hbytes]
    rfl

/-- A store without a writer opens one on a file that is a history. -/
theorem opens_of_decodeFile {w : World} (hd : FileStore.decodeFile s.bytes =
    .ok (s.frames, s.bytes.length)) (hw : World.reconstruct s.frames = .ok w) :
    ∃ writer, s.openWriter = .ok writer := by
  unfold openWriter
  cases s.writer with
  | some writer => exact ⟨writer, rfl⟩
  | none =>
    have hne : s.bytes ≠ [] := by
      intro h0
      rw [h0] at hd
      simp [FileStore.decodeFile] at hd
    unfold FileCommitStore.openStore
    simp only [if_neg hne, hd, hw]
    exact ⟨_, rfl⟩

/-- A store that holds what its file parses to, cut behind the whole records. -/
theorem kept_of_decodeFile {bytes : List UInt8} {offset : ℕ} {w : World}
    (hd : MappedFile.decodeFile bytes = .ok ((s.frames, s.spans), offset))
    (hw : World.reconstruct s.frames = .ok w) (hbytes : s.bytes = bytes.take offset)
    (hwriter : s.writer = none) (hmapping : s.mapping = some s.bytes) : s.Kept := by
  have hfile := decodeFile_take (MappedFile.decodeFile_iff.2 ⟨s.spans, hd⟩)
  have hplaced := MappedFile.decodeFile_placed hd
  rw [← hbytes] at hfile hplaced
  refine ⟨inStep_of_decodeFile hwriter hfile, opens_of_decodeFile hfile hw, fun mapping h => ?_,
    [], s.frames, by rw [List.append_nil], hplaced⟩
  rw [hmapping] at h
  cases h
  exact ⟨rfl, hplaced.length_eq⟩

/-- **A store that was opened** is kept. -/
theorem kept_of_openStore {bytes : List UInt8} (h : openStore bytes = .ok s) : s.Kept := by
  unfold openStore at h
  generalize (if bytes = [] then fileHeader else bytes) = file at h
  simp only at h
  cases hd : MappedFile.decodeFile file with
  | error e => rw [hd] at h; cases h
  | ok r =>
    obtain ⟨⟨frames, spans⟩, offset⟩ := r
    rw [hd] at h
    simp only at h
    cases hw : World.reconstruct frames with
    | error e => rw [hw] at h; cases h
    | ok w =>
      rw [hw] at h
      cases h
      refine kept_of_decodeFile hd hw ?_ rfl rfl
      by_cases htail : file.length - offset ≠ 0
      · simp [htail, DiskFile.setLen, show offset - file.length = 0 by omega]
      · simp only [htail, ↓reduceIte]
        rw [List.take_of_length_le (by omega)]

/-- Losing the mapping keeps the rest. -/
theorem Kept.unmapped (h : s.Kept) : Kept { s with mapping := none } where
  inStep := h.inStep
  opens := h.opens
  mapping _ hmapping := by cases hmapping
  spans := h.spans

theorem Kept.refresh (h : s.Kept) (mapFails : Bool) : (s.refreshMapping mapFails).2.Kept := by
  unfold refreshMapping
  simp only
  split
  · exact h.unmapped
  · split
    · exact h.unmapped
    · rename_i frames spans offset hd
      by_cases hoffset : offset ≠ s.bytes.length
      · rw [if_pos hoffset]
        exact h.unmapped
      · rw [if_neg hoffset]
        rw [not_not.1 hoffset] at hd
        cases hw : World.reconstruct frames with
        | error e => exact h.unmapped
        | ok w => exact kept_of_decodeFile hd hw (List.take_length).symm rfl rfl

/-- A frame that continues the store within the payload limit. -/
def Accepts (s : MmapCommitStore) (frame : CommitFrame) : Prop :=
  s.validateAppend frame = .ok () ∧ (encodePayload frame).length ≤ maxFrameBytes

/-- **A refused append** at most opens the writer. -/
theorem Kept.append_refused (h : s.Kept) {frame : CommitFrame} (hno : ¬ s.Accepts frame)
    (mapFails : Bool) : (s.append frame { remap := mapFails }).2.Kept := by
  unfold append
  cases hv : s.validateAppend frame with
  | error e => exact h
  | ok =>
    obtain ⟨writer, hopen⟩ := h.opens
    obtain ⟨hbytes, hframes⟩ := h.inStep writer hopen
    simp only [Bool.false_eq_true, ↓reduceIte, hopen]
    rcases FileCommitStore.append_cases writer frame {} with ⟨e, he⟩ | ⟨-, hlen, -⟩
    · rw [he]
      refine ⟨?_, ⟨writer, rfl⟩, ?_, ?_⟩
      · intro writer' hopen'
        cases hopen'
        exact ⟨rfl, hframes⟩
      · intro mapping hmapping
        simp only [hbytes]
        exact h.mapping mapping hmapping
      · simp only [hbytes]
        exact h.spans
    · exact absurd ⟨hv, hlen⟩ hno

/-- **An accepted append** pushes its frame, and its span if the file can be mapped. -/
theorem Kept.append_accepted (h : s.Kept) {frame : CommitFrame} (hyes : s.Accepts frame)
    (mapFails : Bool) :
    ∃ t, s.append frame { remap := mapFails } = (.ok (), t) ∧ t.InStep ∧
      (∃ writer, t.openWriter = .ok writer) ∧ t.frames = s.frames ++ [frame] ∧
      t.bytes = s.bytes ++ frameFormat.encode (encodePayload frame) ∧
      if mapFails then t.mapping = none ∧ t.spans = s.spans
      else t.mapping = some t.bytes ∧
        t.spans = s.spans ++ [spanOf s.bytes.length (encodePayload frame)] := by
  obtain ⟨hv, hlen⟩ := hyes
  obtain ⟨writer, hopen⟩ := h.opens
  obtain ⟨hbytes, hframes⟩ := h.inStep writer hopen
  have hpos : checkPosition writer.frames frame = .ok () := by
    unfold validateAppend at hv
    rw [hframes]
    cases hc : checkPosition s.frames frame with
    | ok => rfl
    | error e => rw [hc] at hv; cases hv
  obtain ⟨written, hwritten⟩ := FileCommitStore.append_faultless hpos hlen
  have happend : s.append frame { remap := mapFails } = (.ok (),
      remapAfterDurableAppend { s with
        bytes := written.file.bytes, writer := some written, frames := s.frames ++ [frame],
        recoveredTailBytes := 0 } s.bytes.length mapFails) := by
    unfold append
    rw [hv]
    simp only [Bool.false_eq_true, ↓reduceIte, hopen, hwritten]
  obtain ⟨hfile, hpushed, -, -, hstep⟩ := append_acked h.inStep happend
  refine ⟨_, happend, hstep, ⟨written, ?_⟩, hpushed, hfile, ?_⟩
  · unfold openWriter
    rw [(remap_same _ _ _).2.2]
  · rw [(remap_same _ _ _).1] at hfile
    have hspan := decodeCompleteSpan_encode s.bytes (encodePayload frame) hlen
    rw [← hfile] at hspan
    unfold remapAfterDurableAppend
    cases mapFails with
    | true => exact ⟨rfl, rfl⟩
    | false => simp only [hspan, Bool.false_eq_true, ↓reduceIte, and_self]

/-- **A call that does not overtake** keeps the spans beside their frames. -/
theorem Kept.call (h : s.Kept) {c : Call} (hno : ¬ s.Overtakes c) : (s.call c).Kept := by
  cases c with
  | read index => exact h
  | refresh mapFails => exact h.refresh mapFails
  | append frame mapFails =>
    by_cases hyes : s.Accepts frame
    · obtain ⟨t, ht, hstep, hopens, hframes, hbytes, hmap⟩ := h.append_accepted hyes mapFails
      obtain ⟨later, spanned, hspanned, hplaced⟩ := h.spans
      have hold : List.Forall₂ (Placed t.bytes) s.spans spanned := by
        rw [hbytes]
        exact hplaced.imp fun _ _ hat => hat.append _
      show (s.append frame { remap := mapFails }).2.Kept
      rw [ht]
      cases mapFails with
      | true =>
        -- the frame has no span, and nothing is mapped
        obtain ⟨hnone, hspans⟩ := hmap
        refine ⟨hstep, hopens, fun mapping hmapping => ?_, later ++ [frame], spanned, ?_, ?_⟩
        · rw [hnone] at hmapping
          cases hmapping
        · rw [hframes, hspanned, List.append_assoc]
        · rw [hspans]
          exact hold
      | false =>
        obtain ⟨hsome, hspans⟩ := hmap
        have hcount : s.spans.length = s.frames.length := by
          by_contra hne
          exact hno ⟨hne, hyes.1, hyes.2⟩
        have hlen := hplaced.length_eq
        obtain rfl : later = [] := by
          rw [hspanned, List.length_append] at hcount
          exact List.length_eq_zero_iff.1 (by omega)
        rw [List.append_nil] at hspanned
        refine ⟨hstep, hopens, fun mapping hmapping => ?_, [], spanned ++ [frame], ?_, ?_⟩
        · rw [hsome] at hmapping
          cases hmapping
          refine ⟨rfl, ?_⟩
          rw [hspans, hframes, List.length_append, List.length_append, hcount]
          rfl
        · rw [hframes, hspanned, List.append_nil]
        · rw [hspans]
          refine List.rel_append hold (.cons ?_ .nil)
          rw [hbytes]
          exact spanOf_placed s.bytes frame hyes.2
    · exact h.append_refused hyes mapFails

/-- **A call that overtakes** leaves a mapping with fewer spans than frames. -/
theorem Kept.call_overtakes (h : s.Kept) {c : Call} (ho : s.Overtakes c) :
    ¬ (s.call c).Aligned := by
  rcases c with ⟨frame, _ | _⟩ | index | mapFails
  · obtain ⟨hne, hyes⟩ := ho
    obtain ⟨t, ht, -, -, hframes, -, hsome, hspans⟩ := h.append_accepted hyes false
    intro haligned
    have hcall : s.call (.append frame false) = t := congrArg Prod.snd ht
    rw [hcall] at haligned
    have hcount := (haligned _ hsome).1
    rw [hspans, hframes, List.length_append, List.length_append] at hcount
    simp only [List.length_singleton, Nat.add_right_cancel_iff] at hcount
    exact hne hcount
  · exact ho.elim
  · exact ho.elim
  · exact ho.elim

/-! ## Every run -/

theorem calls_succ {cs : List Call} {n : ℕ} {c : Call} (h : cs[n]? = some c) :
    s.calls (cs.take (n + 1)) = (s.calls (cs.take n)).call c := by
  unfold calls
  rw [List.take_add_one, h, List.foldl_append]
  rfl

/-- As long as no call overtakes, the store is kept. -/
theorem Kept.calls (h : s.Kept) {cs : List Call}
    (hno : ∀ n c, cs[n]? = some c → ¬ (s.calls (cs.take n)).Overtakes c) (n : ℕ) :
    (s.calls (cs.take n)).Kept := by
  induction n with
  | zero =>
    rw [List.take_zero]
    exact h
  | succ n ih =>
    cases hc : cs[n]? with
    | none =>
      have hend : cs.take (n + 1) = cs.take n := by
        rw [List.take_add_one, hc]
        exact List.append_nil _
      rw [hend]
      exact ih
    | some c =>
      rw [calls_succ hc]
      exact ih.call (hno n c hc)

end MmapCommitStore

/-- **The mapping stays aligned** over a run of appends, reads and refreshes, whatever maps fail
in it, exactly as long as no append is accepted and mapped while an earlier frame has no span. -/
theorem mapping_aligned_iff {bytes : List UInt8} {s : MmapCommitStore}
    (h : MmapCommitStore.openStore bytes = .ok s) (cs : List MmapCommitStore.Call) :
    (∀ n, (s.calls (cs.take n)).Aligned) ↔
      ∀ n c, cs[n]? = some c → ¬ (s.calls (cs.take n)).Overtakes c := by
  have hkept := MmapCommitStore.kept_of_openStore h
  constructor
  · intro haligned n
    -- the calls before do not overtake, so the first that does is made on a kept store
    induction n using Nat.strong_induction_on with
    | _ n ih =>
      intro c hc ho
      have hbefore : (s.calls ((cs.take n).take n)).Kept := by
        refine hkept.calls (fun m d hd => ?_) n
        have hm : m < n := by
          obtain ⟨hlen, -⟩ := List.getElem?_eq_some_iff.1 hd
          rw [List.length_take] at hlen
          omega
        rw [List.getElem?_take_of_lt hm] at hd
        rw [List.take_take, min_eq_left hm.le]
        exact ih m hm d hd
      rw [List.take_take, min_self] at hbefore
      refine hbefore.call_overtakes ho ?_
      rw [← MmapCommitStore.calls_succ hc]
      exact haligned (n + 1)
  · intro hno n
    exact (hkept.calls hno n).aligned

namespace MmapCommitStore

/-- The store of a new commit file. -/
def fresh : MmapCommitStore := ⟨fileHeader, some fileHeader, [], [], 0, none, none⟩

/-- The frame behind `FileCommitStore.oneEntity`, which allocates the next entity. -/
def secondEntity : CommitFrame where
  parentWorld := FileCommitStore.oneEntity.resultingWorld
  resultingWorld :=
    calculateWorldId FileCommitStore.oneEntity.resultingWorld 2 3 [.allocateEntity ⟨2⟩]
  parentVersion := 1
  resultingVersion := 2
  resultingAllocator := 3
  operations := [.allocateEntity ⟨2⟩]

end MmapCommitStore

open MmapCommitStore in
/-- A frame that could not be mapped gets its span by the refresh before the next append. -/
theorem mapping_aligned_refreshed :
    (fresh.calls [.append FileCommitStore.oneEntity true, .refresh false,
      .append secondEntity false]).Aligned := by
  have hopen : openStore [] = .ok fresh := by decide +kernel
  refine (mapping_aligned_iff hopen [.append FileCommitStore.oneEntity true, .refresh false,
    .append secondEntity false]).2 (fun n c hc => ?_) 3
  rcases n with _ | _ | _ | n
  · cases hc; decide +kernel
  · cases hc; decide +kernel
  · cases hc; decide +kernel
  · cases hc

open MmapCommitStore in
/-- **An append that is mapped behind one that was not**: the store holds two frames and one span,
and the record that it reads for the first frame is the second frame's. -/
theorem mapping_misaligned :
    openStore [] = .ok fresh ∧
      let t := fresh.calls [.append FileCommitStore.oneEntity true, .append secondEntity false]
      t.frames = [FileCommitStore.oneEntity, secondEntity] ∧ t.spans.length = 1 ∧
        (FileCommitStore.encodeRecord secondEntity).toOption = t.mappedRecord 0 ∧
        ¬ t.Aligned := by
  refine ⟨by decide +kernel, by decide +kernel, by decide +kernel, by decide +kernel, ?_⟩
  intro haligned
  obtain ⟨mapping, hmapping⟩ : ∃ mapping, (fresh.calls [.append FileCommitStore.oneEntity true,
      .append secondEntity false]).mapping = some mapping :=
    Option.isSome_iff_exists.1 (by decide +kernel)
  exact absurd (haligned mapping hmapping).1 (by decide +kernel)

end ForthDB
