import ForthDB.Journal.EpochCodec
import ForthDB.Lib.TornLog
import ForthDB.Queue.LiftedStream
import ForthDB.Snapshot.Image

/-!
# Recovery of the admission journal

`recover_journal` reads the epochs of the journal back and cuts off a torn last record, or
takes them from an image that covers the whole journal.

* `decodeEpochPayload_encode_iff`: an epoch is read back exactly when all its intents
  survive lowering.
* `journal_recovered_iff`: **the epochs of a journal are recovered, at every cut, exactly
  when each is within the reader's limit and survives lowering.** The writer knows only the
  length of one ring write.
* `oversized_epoch_lost`: an epoch that is admitted and never recovered.
-/

namespace ForthDB

open Bytes Decode RecordLog

inductive AdmissionEpochOpenError
  | io
  | format (message : String)
deriving DecidableEq, Repr

/-- `RecoveredJournal`, with the bytes of the file that is left. -/
structure RecoveredJournal where
  bytes : List UInt8
  epochs : List (List QueuedIntent)
  fileLen : ℕ
  totalEpochs : ℕ
  snapshot : Option MmapVmSnapshot
deriving DecidableEq, Repr

namespace Journal

/-- Magic `FTHADM01`, version one, and a word that recovery does not read. -/
def journalHeader : List UInt8 := utf8 "FTHADM01" ++ (le 4 1 ++ le 4 0)

/-- The error of a damaged record. -/
def damagedEpoch (offset : ℕ) : Damage → AdmissionEpochOpenError
  | .magic => .format s!"invalid epoch magic at {offset}"
  | .length _ => .format "epoch exceeds size limit"
  | .trailer => .format s!"invalid epoch trailer at {offset}"
  | .checksum _ _ => .format s!"epoch checksum mismatch at {offset}"

/-- What the loop of `recover_journal` does with one payload. -/
def acceptEpoch (epochs : List (List QueuedIntent)) (_offset : ℕ) (payload : List UInt8) :
    Except AdmissionEpochOpenError (List (List QueuedIntent)) :=
  match decodeEpochPayload payload with
  | .error e => .error (.format e)
  | .ok (epochId, intents) =>
    let expectedEpoch := epochs.length + 1
    if epochId ≠ expectedEpoch then
      .error (.format s!"expected admission epoch {expectedEpoch}, found {epochId}")
    else .ok (epochs ++ [intents])

/-- `recover_journal` on the bytes of the file. `image` is what `MmapVmSnapshot::open` returned,
if images are allowed and it opened one. -/
def recoverJournal (image : Option MmapVmSnapshot) (bytes : List UInt8) :
    Except AdmissionEpochOpenError RecoveredJournal :=
  let bytes := if bytes = [] then journalHeader else bytes
  if bytes.length < 16 ∨ bytes.take 8 ≠ utf8 "FTHADM01" then
    .error (.format "invalid journal header")
  else if ofLe ((bytes.drop 8).take 4) ≠ 1 then .error (.format "unsupported journal version")
  else match image.filter fun snapshot => snapshot.journalOffset = bytes.length with
    | some snapshot => .ok {
        bytes := bytes, epochs := [], fileLen := bytes.length,
        totalEpochs := snapshot.epochCount, snapshot := some snapshot }
    | none =>
      match scanLog epochFormat acceptEpoch damagedEpoch bytes.length [] 16 (bytes.drop 16) with
      | .error e => .error e
      | .ok (epochs, offset) => .ok {
          bytes := if offset ≠ bytes.length then bytes.take offset else bytes
          epochs := epochs, fileLen := offset, totalEpochs := epochs.length, snapshot := none }

/-- The batches of some epochs, numbered as the worker does. -/
def numbered : ℕ → List (List QueuedIntent) → List EpochBatch
  | _, [] => []
  | first, intents :: epochs => ⟨first, intents⟩ :: numbered (first + 1) epochs

/-- The records of some epochs. -/
def recordsOf (first : ℕ) (epochs : List (List QueuedIntent)) : List UInt8 :=
  (numbered first epochs).flatMap encodeEpoch

/-- The journal that the worker leaves behind the epochs it admitted. -/
def journalOf (epochs : List (List QueuedIntent)) : List UInt8 := journalHeader ++ recordsOf 1 epochs

/-- The one check of a record's size: `submit_contiguous_epoch` writes it with one ring entry,
whose length is a `u32`. -/
def Admissible (batch : EpochBatch) : Prop := (encodeEpoch batch).length < 2 ^ 32

/-- An epoch that recovery gives back. -/
def Recoverable (batch : EpochBatch) : Prop :=
  (∀ i ∈ batch.intents, i.Liftable) ∧ (encodeEpochPayload batch).length ≤ epochFormat.limit

/-- How many epochs are whole in the first `n` bytes of a journal: `k` of them, and no more. -/
def WholeEpochs (epochs : List (List QueuedIntent)) (n k : ℕ) : Prop :=
  k ≤ epochs.length ∧ 16 + (recordsOf 1 (epochs.take k)).length ≤ n ∧
    (k < epochs.length → n < 16 + (recordsOf 1 (epochs.take (k + 1))).length)

/-! ## One epoch -/

theorem decodeIntent_liftable {i j : QueuedIntent} (h : decodeIntent (encodeIntent i) = .ok j) :
    j.Liftable := by
  obtain ⟨-, -, -, hmagic⟩ := encodeIntent_eq i
  unfold decodeIntent at h
  rw [if_pos hmagic] at h
  cases hr : Isa.readFrame ⟨encodeIntent i, 0⟩ with
  | error e => rw [hr] at h; cases h
  | ok r =>
    obtain ⟨frame, c⟩ := r
    rw [hr] at h
    simp only at h
    cases hf : fromStreamFrame frame with
    | error e => rw [hf] at h; cases h
    | ok k =>
      rw [hf] at h
      simp only [Except.map, wholeIntent] at h
      split at h
      · cases h
        exact fromStreamFrame_liftable (Isa.arguments_lt hr) hf
      · cases h

theorem readEpochIntent_encoded {bytes : List UInt8} (hlen : bytes.length < 2 ^ 32)
    (rest : List UInt8) (pos : ℕ) :
    readEpochIntent ⟨le 4 bytes.length ++ (bytes ++ rest), pos⟩ =
      match decodeIntent bytes with
      | .ok i => .ok (i, ⟨rest, pos + 4 + bytes.length⟩)
      | .error e => .error e := by
  unfold readEpochIntent
  rw [bind_apply, reads_u32 hlen, length_le]
  simp only
  rw [bind_apply, reads_take]
  simp only
  cases decodeIntent bytes <;> rfl

/-- Intents that are read back from their bytes survive lowering. -/
theorem liftable_of_times {is : List QueuedIntent}
    (hlen : ∀ i ∈ is, (encodeIntent i).length < 2 ^ 32) {rest : List UInt8} {pos : ℕ} {c : Cursor}
    (h : times is.length readEpochIntent
      ⟨(is.flatMap fun i => le 4 (encodeIntent i).length ++ encodeIntent i) ++ rest, pos⟩ =
        .ok (is, c)) : ∀ i ∈ is, i.Liftable := by
  induction is generalizing pos c with
  | nil => intro i hi; cases hi
  | cons i is ih =>
    rw [List.forall_mem_cons] at hlen
    obtain ⟨j, c₁, hfirst, h⟩ := bind_ok h
    obtain ⟨js, c₂, hrest, h⟩ := bind_ok h
    rw [pure_apply, Except.ok.injEq, Prod.mk.injEq, List.cons.injEq] at h
    obtain ⟨⟨rfl, rfl⟩, -⟩ := h
    rw [List.flatMap_cons, List.append_assoc, List.append_assoc,
      readEpochIntent_encoded hlen.1] at hfirst
    cases hd : decodeIntent (encodeIntent j) with
    | error e => rw [hd] at hfirst; cases hfirst
    | ok k =>
      rw [hd] at hfirst
      simp only [Except.ok.injEq, Prod.mk.injEq] at hfirst
      obtain ⟨rfl, rfl⟩ := hfirst
      exact List.forall_mem_cons.2 ⟨decodeIntent_liftable hd, ih hlen.2 hrest⟩

/-- **An epoch is read back exactly when its intents survive lowering.** -/
theorem decodeEpochPayload_encode_iff {batch : EpochBatch} (hid : batch.id < 2 ^ 64)
    (hb : ∀ i ∈ batch.intents, i.Built ∧ i.space < 2 ^ 64)
    (hlen : (encodeEpochPayload batch).length < 2 ^ 32) :
    decodeEpochPayload (encodeEpochPayload batch) = .ok (batch.id, batch.intents) ↔
      ∀ i ∈ batch.intents, i.Liftable := by
  refine ⟨fun h => ?_, fun hl => decodeEpochPayload_encode hid hb ⟨hl, hlen⟩⟩
  unfold encodeEpochPayload at hlen h
  simp only [List.length_append, length_le] at hlen
  have hcount : batch.intents.length < 2 ^ 32 := by
    have := Isa.count_le_flatMap (fun i => le 4 (encodeIntent i).length ++ encodeIntent i)
      batch.intents (fun i => by simp)
    omega
  have hshort : ∀ i ∈ batch.intents, (encodeIntent i).length < 2 ^ 32 := by
    intro i hi
    have hle := Isa.length_le_flatMap (fun i => le 4 (encodeIntent i).length ++ encodeIntent i) hi
    simp only [List.length_append, length_le] at hle
    omega
  obtain ⟨p, hp⟩ := decodeAll_ok h
  unfold readEpoch at hp
  rw [bind_apply, reads_u64 hid] at hp
  simp only at hp
  rw [bind_apply, reads_u32 hcount] at hp
  simp only at hp
  obtain ⟨is, c, htimes, hp⟩ := bind_ok hp
  rw [pure_apply, Except.ok.injEq, Prod.mk.injEq, Prod.mk.injEq] at hp
  obtain ⟨⟨-, rfl⟩, -⟩ := hp
  rw [← List.append_nil (batch.intents.flatMap _)] at htimes
  exact liftable_of_times hshort htimes

/-! ## The journal -/

theorem numbered_take (first : ℕ) (epochs : List (List QueuedIntent)) (k : ℕ) :
    (numbered first epochs).take k = numbered first (epochs.take k) := by
  induction epochs generalizing first k with
  | nil => simp [numbered]
  | cons e es ih =>
    cases k with
    | zero => rfl
    | succ k => simp only [numbered, List.take_succ_cons, ih]

theorem length_numbered (first : ℕ) (epochs : List (List QueuedIntent)) :
    (numbered first epochs).length = epochs.length := by
  induction epochs generalizing first with
  | nil => rfl
  | cons e es ih => simp only [numbered, List.length_cons, ih]

/-- The payloads behind the records. -/
def payloadsOf (first : ℕ) (epochs : List (List QueuedIntent)) : List (List UInt8) :=
  (numbered first epochs).map encodeEpochPayload

theorem recordsOf_eq (first : ℕ) (epochs : List (List QueuedIntent)) :
    recordsOf first epochs = (payloadsOf first epochs).flatMap epochFormat.encode := by
  unfold recordsOf payloadsOf
  rw [List.flatMap_map]
  rfl

theorem recordsOf_cons (first : ℕ) (e : List QueuedIntent) (es : List (List QueuedIntent)) :
    recordsOf first (e :: es) =
      epochFormat.encode (encodeEpochPayload ⟨first, e⟩) ++ recordsOf (first + 1) es := rfl

/-- What the source's types and the writer promise of admitted epochs. -/
structure Admitted (first : ℕ) (epochs : List (List QueuedIntent)) : Prop where
  count : first + epochs.length ≤ 2 ^ 64
  intents : ∀ intents ∈ epochs, ∀ i ∈ intents, i.Built ∧ i.space < 2 ^ 64
  sizes : ∀ batch ∈ numbered first epochs, Admissible batch

theorem Admitted.tail {first : ℕ} {e : List QueuedIntent} {es : List (List QueuedIntent)}
    (h : Admitted first (e :: es)) : Admitted (first + 1) es := by
  refine ⟨?_, fun intents hi => h.intents intents (by simp [hi]),
    fun batch hb => h.sizes batch (by simp [numbered, hb])⟩
  have := h.count
  rw [List.length_cons] at this
  omega

/-- **The epoch at the front** is read back exactly when its intents survive lowering. -/
theorem Admitted.head_decoded_iff {first : ℕ} {e : List QueuedIntent}
    {es : List (List QueuedIntent)} (h : Admitted first (e :: es)) :
    decodeEpochPayload (encodeEpochPayload ⟨first, e⟩) = .ok (first, e) ↔ ∀ i ∈ e, i.Liftable := by
  have hsize : Admissible ⟨first, e⟩ := h.sizes _ (by simp [numbered])
  have hcount := h.count
  unfold Admissible encodeEpoch at hsize
  rw [length_encode] at hsize
  rw [List.length_cons] at hcount
  have hlen : (encodeEpochPayload ⟨first, e⟩).length < 2 ^ 32 := by omega
  exact decodeEpochPayload_encode_iff (show first < 2 ^ 64 by omega) (h.intents e (by simp)) hlen

/-- **Recoverable epochs** are accepted one after the other. -/
theorem acceptAll_epochs (before : List (List QueuedIntent)) {epochs : List (List QueuedIntent)}
    (h : Admitted (before.length + 1) epochs)
    (hr : ∀ batch ∈ numbered (before.length + 1) epochs, Recoverable batch) (offset : ℕ) :
    acceptAll acceptEpoch before offset (payloadsOf (before.length + 1) epochs) =
      .ok (before ++ epochs, offset + (recordsOf (before.length + 1) epochs).length) := by
  induction epochs generalizing before offset with
  | nil => simp [payloadsOf, numbered, recordsOf, acceptAll]
  | cons e es ih =>
    have hhead := hr ⟨before.length + 1, e⟩ (by simp [numbered])
    have haccept : acceptEpoch before offset (encodeEpochPayload ⟨before.length + 1, e⟩) =
        .ok (before ++ [e]) := by
      unfold acceptEpoch
      rw [h.head_decoded_iff.2 hhead.1]
      simp
    have hlen : (before ++ [e]).length + 1 = before.length + 1 + 1 := by simp
    have hnext := ih (before ++ [e]) (by rw [hlen]; exact h.tail)
      (by rw [hlen]; exact fun batch hb => hr batch (by simp [numbered, hb]))
    rw [hlen] at hnext
    show acceptAll acceptEpoch before offset (encodeEpochPayload ⟨before.length + 1, e⟩ ::
      payloadsOf (before.length + 1 + 1) es) = _
    simp only [acceptAll, haccept, hnext]
    rw [recordsOf_cons, List.length_append, length_encode, List.append_assoc]
    simp only [List.singleton_append, Nat.add_assoc]

/-- The reader only ever adds epochs. -/
theorem scan_extends {n offset o : ℕ} {s t : List (List QueuedIntent)} {bytes : List UInt8}
    (h : scanLog epochFormat acceptEpoch damagedEpoch n s offset bytes = .ok (t, o)) : s <+: t := by
  refine scanLog_rel (R := (· <+: ·)) List.prefix_refl (fun _ _ _ h1 h2 => h1.trans h2) ?_ h
  intro s offset p t ha
  unfold acceptEpoch at ha
  split at ha
  · cases ha
  · simp only at ha
    split at ha
    · cases ha
    · cases ha
      exact List.prefix_append _ _

/-- **Epochs that were read back are recoverable.** -/
theorem recoverable_of_scan (before : List (List QueuedIntent)) {epochs : List (List QueuedIntent)}
    (h : Admitted (before.length + 1) epochs) {n offset o : ℕ}
    (hn : (recordsOf (before.length + 1) epochs).length ≤ n)
    (hscan : scanLog epochFormat acceptEpoch damagedEpoch n before offset
      (recordsOf (before.length + 1) epochs) = .ok (before ++ epochs, o)) :
    ∀ batch ∈ numbered (before.length + 1) epochs, Recoverable batch := by
  induction epochs generalizing before n offset with
  | nil => intro batch hb; cases hb
  | cons e es ih =>
    have hsize : Admissible ⟨before.length + 1, e⟩ := h.sizes _ (by simp [numbered])
    unfold Admissible encodeEpoch at hsize
    rw [length_encode] at hsize
    rw [recordsOf_cons] at hscan hn
    have hlen : (epochFormat.encode (encodeEpochPayload ⟨before.length + 1, e⟩) ++
        recordsOf (before.length + 1 + 1) es).length = 20 +
        (encodeEpochPayload ⟨before.length + 1, e⟩).length + 4 +
        (recordsOf (before.length + 1 + 1) es).length := by
      rw [List.length_append, length_encode]
    obtain ⟨n, rfl⟩ : ∃ m, n = m + 1 := ⟨n - 1, by omega⟩
    have hne : epochFormat.encode (encodeEpochPayload ⟨before.length + 1, e⟩) ++
        recordsOf (before.length + 1 + 1) es ≠ [] := by
      intro h0
      rw [h0, List.length_nil] at hlen
      omega
    simp only [scanLog, if_neg hne] at hscan
    rcases Nat.lt_or_ge epochFormat.limit (encodeEpochPayload ⟨before.length + 1, e⟩).length with
      hlong | hshort
    · -- above the reader's limit the length field is refused
      rw [scan_encode_long hlong (by norm_num; omega)] at hscan
      cases hscan
    rw [scan_encode hshort] at hscan
    simp only at hscan
    cases ha : acceptEpoch before offset (encodeEpochPayload ⟨before.length + 1, e⟩) with
    | error e => rw [ha] at hscan; cases hscan
    | ok s =>
      rw [ha] at hscan
      simp only at hscan
      unfold acceptEpoch at ha
      cases hd : decodeEpochPayload (encodeEpochPayload ⟨before.length + 1, e⟩) with
      | error e => rw [hd] at ha; cases ha
      | ok r =>
        obtain ⟨id, intents⟩ := r
        rw [hd] at ha
        simp only at ha
        split at ha
        · cases ha
        rename_i hid
        cases ha
        -- what was read back here is the epoch, since the scan ends with all of them
        obtain ⟨more, hmore⟩ := scan_extends hscan
        rw [List.append_assoc, List.append_cancel_left_eq, List.singleton_append,
          List.cons.injEq] at hmore
        obtain ⟨rfl, -⟩ := hmore
        rw [not_not.1 hid] at hd
        have hnext : (before ++ [intents]).length + 1 = before.length + 1 + 1 := by simp
        have hrest := ih (before ++ [intents]) (by rw [hnext]; exact h.tail) (n := n)
          (by rw [hnext]; omega) (by rw [hnext, List.append_assoc]; exact hscan)
        rw [hnext] at hrest
        exact List.forall_mem_cons.2 ⟨⟨h.head_decoded_iff.1 hd, hshort⟩, hrest⟩

theorem length_journalHeader : journalHeader.length = 16 := by decide

/-- Recovery of a journal without an image of it. -/
theorem recoverJournal_header {image : Option MmapVmSnapshot} {body : List UInt8}
    (hi : ∀ s, image = some s → s.journalOffset ≠ (journalHeader ++ body).length) :
    recoverJournal image (journalHeader ++ body) =
      match scanLog epochFormat acceptEpoch damagedEpoch (journalHeader ++ body).length [] 16 body with
      | .error e => .error e
      | .ok (epochs, offset) => .ok {
          bytes := if offset ≠ (journalHeader ++ body).length
            then (journalHeader ++ body).take offset else journalHeader ++ body
          epochs := epochs, fileLen := offset, totalEpochs := epochs.length, snapshot := none } := by
  have hheader := length_journalHeader
  have hne : journalHeader ++ body ≠ [] := by
    intro h0
    have := congrArg List.length h0
    rw [List.length_append, hheader, List.length_nil] at this
    omega
  have h8 : (journalHeader ++ body).take 8 = utf8 "FTHADM01" := by
    rw [List.take_append_of_le_length (by decide)]; decide
  have hv : ofLe (((journalHeader ++ body).drop 8).take 4) = 1 := by
    rw [List.drop_append_of_le_length (by decide), List.take_append_of_le_length (by decide)]
    decide
  have hd : (journalHeader ++ body).drop 16 = body := by
    rw [← hheader, List.drop_left]
  have hlen : 16 ≤ (journalHeader ++ body).length := by
    rw [List.length_append, hheader]; omega
  have himage : (image.filter fun s => s.journalOffset = (journalHeader ++ body).length) = none := by
    cases image with
    | none => rfl
    | some s =>
      have hs := hi s rfl
      simp only [Option.filter, decide_eq_true_eq, if_neg hs]
  unfold recoverJournal
  simp only [if_neg hne]
  rw [if_neg (by rw [h8]; simp; omega), if_neg (by rw [hv]; simp), himage, hd]

/-- **Recovery at every cut, exactly when every epoch is recoverable.** -/
theorem journal_recovered_iff {epochs : List (List QueuedIntent)} (h : Admitted 1 epochs) :
    (∀ n image, 16 ≤ n →
      (∀ s, image = some s → s.journalOffset ≠ ((journalOf epochs).take n).length) →
      ∃ k, WholeEpochs epochs n k ∧ recoverJournal image ((journalOf epochs).take n) = .ok {
        bytes := (journalOf epochs).take (16 + (recordsOf 1 (epochs.take k)).length)
        epochs := epochs.take k
        fileLen := 16 + (recordsOf 1 (epochs.take k)).length
        totalEpochs := k
        snapshot := none }) ↔
    ∀ batch ∈ numbered 1 epochs, Recoverable batch := by
  have hheader := length_journalHeader
  constructor
  · intro hall
    have hwhole : (journalOf epochs).take ((journalOf epochs).length + 16) = journalOf epochs :=
      List.take_of_length_le (by omega)
    obtain ⟨k, ⟨hk, -, hlast⟩, hrec⟩ := hall ((journalOf epochs).length + 16) none (by omega)
      (fun s hs => by cases hs)
    have hlen : (journalOf epochs).length = 16 + (recordsOf 1 epochs).length := by
      rw [journalOf, List.length_append, hheader]
    -- with all bytes there, all epochs are whole
    obtain rfl : k = epochs.length := by
      by_contra hne
      have hle : (recordsOf 1 (epochs.take (k + 1))).length ≤ (recordsOf 1 epochs).length := by
        unfold recordsOf
        rw [← numbered_take]
        have hpre := List.take_prefix (k + 1) (numbered 1 epochs)
        exact (List.IsPrefix.flatMap hpre encodeEpoch).length_le
      have := hlast (by omega)
      omega
    rw [hwhole, List.take_length, journalOf, recoverJournal_header (fun s hs => by cases hs)] at hrec
    split at hrec
    · cases hrec
    · rename_i read offset hscan
      simp only [Except.ok.injEq, RecoveredJournal.mk.injEq] at hrec
      obtain ⟨-, hread, -⟩ := hrec
      rw [hread] at hscan
      refine recoverable_of_scan [] h ?_ hscan
      rw [List.length_append]
      simp
  · intro hr n image hn hi
    have hps : ∀ p ∈ payloadsOf 1 epochs, p.length ≤ epochFormat.limit := by
      intro p hp
      obtain ⟨batch, hbatch, rfl⟩ := List.mem_map.1 hp
      exact (hr batch hbatch).2
    obtain ⟨k, hk, rest, hcut, hrest, hle, hlt⟩ := exists_cut hps (.inl rfl) (n - 16)
    have htake : ∀ k, (payloadsOf 1 epochs).take k = payloadsOf 1 (epochs.take k) := by
      intro k
      unfold payloadsOf
      rw [← List.map_take, numbered_take]
    have hlength : (payloadsOf 1 epochs).length = epochs.length := by
      simp [payloadsOf, length_numbered]
    simp only [htake, ← recordsOf_eq, hlength, List.append_nil] at hk hcut hle hlt
    have hfile : (journalOf epochs).take n =
        journalHeader ++ (recordsOf 1 (epochs.take k) ++ rest) := by
      rw [journalOf, List.take_append, hheader, List.take_of_length_le (by omega), hcut]
    have hend : (journalHeader ++ recordsOf 1 (epochs.take k)).length =
        16 + (recordsOf 1 (epochs.take k)).length := by
      rw [List.length_append, hheader]
    have hkept : ((journalOf epochs).take n).take (16 + (recordsOf 1 (epochs.take k)).length) =
        (journalOf epochs).take (16 + (recordsOf 1 (epochs.take k)).length) := by
      rw [List.take_take, min_eq_left (by omega)]
    have hadmitted : Admitted 1 (epochs.take k) := by
      refine ⟨?_, fun intents hi => h.intents intents (List.mem_of_mem_take hi), fun batch hb => ?_⟩
      · have := h.count
        rw [List.length_take]
        omega
      · rw [← numbered_take] at hb
        exact h.sizes batch (List.mem_of_mem_take hb)
    have haccept := acceptAll_epochs [] hadmitted (fun batch hb => by
      rw [List.length_nil, Nat.zero_add, ← numbered_take] at hb
      exact hr batch (List.mem_of_mem_take hb)) 16
    have hpsk : ∀ p ∈ payloadsOf 1 (epochs.take k), p.length ≤ epochFormat.limit := by
      intro p hp
      rw [← htake] at hp
      exact hps p (List.mem_of_mem_take hp)
    refine ⟨k, ⟨hk, by omega, fun hlast => ?_⟩, ?_⟩
    · have := hlt hlast
      omega
    · rw [hfile] at hi
      rw [hfile] at hkept
      rw [hfile, recoverJournal_header hi, recordsOf_eq]
      have hlong : ((payloadsOf 1 (epochs.take k)).flatMap epochFormat.encode ++ rest).length ≤
          (journalHeader ++ ((payloadsOf 1 (epochs.take k)).flatMap epochFormat.encode ++
            rest)).length := by
        simp only [List.length_append]
        omega
      rw [scanLog_cut hpsk hrest haccept hlong]
      simp only [List.nil_append, List.length_nil, Nat.zero_add, ← recordsOf_eq]
      have hcount : (epochs.take k).length = k := by
        rw [List.length_take]
        omega
      rw [hcount, ← hkept]
      congr 2
      split
      · rfl
      · rename_i hfull
        rw [not_not.1 hfull, List.take_length]

/-- An epoch of one intent that allocates one entity. -/
def oneIntent : List QueuedIntent := [(QueuedIntent.new 1).entity]

/-- A journal of one epoch, cut inside its record. -/
theorem journal_recovered_oneIntent : ∃ k, WholeEpochs [oneIntent] 40 k ∧
    recoverJournal none ((journalOf [oneIntent]).take 40) = .ok {
      bytes := (journalOf [oneIntent]).take (16 + (recordsOf 1 ([oneIntent].take k)).length)
      epochs := [oneIntent].take k
      fileLen := 16 + (recordsOf 1 ([oneIntent].take k)).length
      totalEpochs := k
      snapshot := none } := by
  have hintents : ∀ intents ∈ [oneIntent], ∀ i ∈ intents, i = (QueuedIntent.new 1).entity := by
    intro intents h i hi
    rw [List.mem_singleton.1 h] at hi
    exact List.mem_singleton.1 hi
  refine (journal_recovered_iff ⟨by decide, fun intents h i hi => ?_, fun batch hb => ?_⟩).2
    (fun batch hb => ?_) 40 none (by decide) (fun s hs => by cases hs)
  · rw [hintents intents h i hi]
    exact ⟨.entity (.new 1) (by decide), by decide⟩
  · obtain rfl := List.mem_singleton.1 hb
    unfold Admissible
    decide +kernel
  · obtain rfl := List.mem_singleton.1 hb
    refine ⟨fun i hi => ?_, by decide +kernel⟩
    rw [List.mem_singleton.1 hi]
    refine ⟨fun p hp => (List.not_mem_nil hp).elim, fun op hop => ?_⟩
    rw [List.mem_singleton.1 hop]
    trivial

/-- An epoch of `n` empty intents. -/
def emptyIntents (n : ℕ) : List QueuedIntent := List.replicate n (QueuedIntent.new 1)

theorem length_emptyIntents (n : ℕ) : (encodeEpochPayload ⟨1, emptyIntents n⟩).length = 12 + n * 40 := by
  have hone : (encodeIntent (QueuedIntent.new 1)).length = 36 := by decide +kernel
  have hall : ((emptyIntents n).flatMap fun i => le 4 (encodeIntent i).length ++
      encodeIntent i).length = n * 40 := by
    induction n with
    | zero => rfl
    | succ n ih =>
      have hsucc : emptyIntents (n + 1) = QueuedIntent.new 1 :: emptyIntents n := rfl
      rw [hsucc, List.flatMap_cons, List.length_append, ih, List.length_append, length_le, hone]
      omega
  have hcount : (encodeEpochPayload ⟨1, emptyIntents n⟩).length = 8 + (4 +
      ((emptyIntents n).flatMap fun i => le 4 (encodeIntent i).length ++ encodeIntent i).length) := by
    unfold encodeEpochPayload
    rw [List.length_append, length_le, List.length_append, length_le]
  rw [hcount, hall]
  omega

/-- Enough empty intents make an epoch that is admitted and that recovery refuses. -/
theorem emptyIntents_lost {n : ℕ} (hlong : epochFormat.limit < 12 + n * 40)
    (hfits : 36 + n * 40 < 2 ^ 32) : Admitted 1 [emptyIntents n] ∧
    recoverJournal none (journalOf [emptyIntents n]) =
      .error (.format "epoch exceeds size limit") := by
  have hlen := length_emptyIntents n
  constructor
  · refine ⟨by simp only [List.length_singleton]; omega, fun intents h i hi => ?_,
      fun batch hb => ?_⟩
    · rw [List.mem_singleton.1 h] at hi
      rw [List.eq_of_mem_replicate hi]
      exact ⟨.new 1, by decide⟩
    · obtain rfl := List.mem_singleton.1 hb
      unfold Admissible encodeEpoch
      rw [length_encode, hlen]
      omega
  · rw [← hlen] at hlong
    have hscan := scan_encode_long hlong (by rw [hlen]; omega) []
    have hrecords : recordsOf 1 [emptyIntents n] =
        epochFormat.encode (encodeEpochPayload ⟨1, emptyIntents n⟩) ++ [] := rfl
    rw [← hrecords] at hscan
    obtain ⟨m, hm⟩ : ∃ m, (journalHeader ++ recordsOf 1 [emptyIntents n]).length = m + 1 :=
      ⟨15 + (recordsOf 1 [emptyIntents n]).length, by
        rw [List.length_append, length_journalHeader]; omega⟩
    have hne : recordsOf 1 [emptyIntents n] ≠ [] := by
      intro h0
      have := congrArg List.length h0
      rw [hrecords, List.length_append, length_encode, List.length_nil] at this
      omega
    rw [journalOf, recoverJournal_header (fun s hs => by cases hs), hm]
    simp only [scanLog, if_neg hne, hscan, damagedEpoch]

/-- **An admitted epoch above the reader's limit is lost**: recovery refuses the journal. -/
theorem oversized_epoch_lost : Admitted 1 [emptyIntents 16777216] ∧
    recoverJournal none (journalOf [emptyIntents 16777216]) =
      .error (.format "epoch exceeds size limit") :=
  emptyIntents_lost (by decide) (by decide)

end Journal

end ForthDB
