import ForthDB.Lib.JsonPlain
import ForthDB.Python.WorldRuns

/-!
# Commits behind a torn tail

`_recover` reads up to an incomplete frame and leaves its bytes in the file, and `_commit` writes
behind them. What is committed then is never read again: the torn frame takes the bytes behind it
for its own.

* `commitPayload_lead`: how every payload begins.
* `read_torn`: what is found at a torn frame with another one behind it.
* `torn_tail_loses`: **no world that is committed behind a torn tail is ever recovered**, whatever
  is written after it.
-/

namespace ForthDB

open Bytes Json SealedLog

/-! ## How a payload begins -/

theorem sort_fields {α : Type} (a b c d e f : α) :
    sortByKey [("format", a), ("version", b), ("parent_digest", c), ("operations", d),
      ("next_entity", e), ("world_digest", f)] =
    [("format", a), ("next_entity", e), ("operations", d), ("parent_digest", c), ("version", b),
      ("world_digest", f)] := by
  simp +decide [sortByKey, List.insertionSort, List.orderedInsert]

theorem dumps_commit (world : CommittedWorld) (operations : List StoreOperation)
    (candidate : PythonForthDb) :
    ∃ rest, dumps (.object (commitFields world operations candidate)) =
      "\x7b\"format\":1,\"next_entity\":".toList ++ ((toString (candidate.nextEntity : ℤ)).toList ++
        (",\"operations\":[".toList ++ rest)) := by
  have hformat : member ("format", dumps (.int 1)) = "\"format\":1".toList := by decide
  have hnext : ∀ text, member ("next_entity", text) = "\"next_entity\":".toList ++ text := by
    intro text
    have hkey : quoted "next_entity" ++ [':'] = "\"next_entity\":".toList := by decide
    rw [← hkey, List.append_assoc]
    rfl
  have hoperations : ∀ text, member ("operations", text) = "\"operations\":".toList ++ text := by
    intro text
    have hkey : quoted "operations" ++ [':'] = "\"operations\":".toList := by decide
    rw [← hkey, List.append_assoc]
    rfl
  unfold commitFields
  rw [dumps, dumpsEntries_eq]
  simp only [List.map_cons, List.map_nil, sort_fields, join_cons, List.flatMap_cons, hformat, hnext,
    hoperations]
  simp only [dumps]
  exact ⟨_, by simp only [List.append_assoc, List.cons_append, List.nil_append]; rfl⟩

/-- A byte of a text that begins no frame. -/
def Texty (b : UInt8) : Prop := 0x20 ≤ b.toNat ∧ b ≠ 0x46

instance (b : UInt8) : Decidable (Texty b) := inferInstanceAs (Decidable (_ ∧ _))

theorem texty_digits (n : ℕ) : ∀ b ∈ utf8 (toString (n : ℤ)), Texty b := by
  intro b hb
  obtain ⟨c, hc, hmem⟩ := mem_utf8 hb
  rw [toList_int, if_pos (Int.natCast_nonneg n), Int.toNat_natCast] at hc
  have hdigit : c.isDigit = true := Nat.isDigit_of_mem_toDigits (by omega) (by omega) hc
  unfold Char.isDigit at hdigit
  rw [Bool.and_eq_true, decide_eq_true_eq, decide_eq_true_eq] at hdigit
  have hlow : (48 : ℕ) ≤ c.toNat := UInt32.le_iff_toNat_le.1 hdigit.1
  have hhigh : c.toNat ≤ 57 := UInt32.le_iff_toNat_le.1 hdigit.2
  rw [utf8EncodeChar_ascii (by omega), List.mem_singleton] at hmem
  have hbyte : b.toNat = c.toNat := by
    rw [hmem, UInt8.toNat_ofNat']
    omega
  refine ⟨by omega, ?_⟩
  rintro rfl
  have h46 : (0x46 : UInt8).toNat = 70 := rfl
  omega

/-- **A payload** begins with a brace, and with more text than a trailer is long. -/
theorem commitPayload_lead (world : CommittedWorld) (operations : List StoreOperation)
    (candidate : PythonForthDb) :
    ∃ lead rest, commitPayload world operations candidate = 0x7B :: (lead ++ rest) ∧
      40 ≤ lead.length ∧ ∀ b ∈ lead, Texty b := by
  obtain ⟨rest, hdumps⟩ := dumps_commit world operations candidate
  have hopen : utf8 "\x7b\"format\":1,\"next_entity\":" =
      0x7B :: (utf8 "\x7b\"format\":1,\"next_entity\":").tail := by decide
  have htexty : ∀ {bs : List UInt8}, (bs.all fun b => decide (Texty b)) = true →
      ∀ b ∈ bs, Texty b := by
    intro bs hall b hb
    exact of_decide_eq_true (List.all_eq_true.1 hall b hb)
  have hfront : (utf8 "\x7b\"format\":1,\"next_entity\":").tail.length = 25 ∧
      ∀ b ∈ (utf8 "\x7b\"format\":1,\"next_entity\":").tail, Texty b :=
    ⟨by decide, htexty (by decide)⟩
  have hback : (utf8 ",\"operations\":[").length = 15 ∧
      ∀ b ∈ utf8 ",\"operations\":[", Texty b := ⟨by decide, htexty (by decide)⟩
  have hdigits : utf8 (toString (candidate.nextEntity : ℤ)) ≠ [] := by
    intro hnil
    have htext : toString (candidate.nextEntity : ℤ) = "" := utf8_injective hnil
    have hlist := toList_int candidate.nextEntity
    obtain ⟨c, ds, hhead, -⟩ := toDigits_head candidate.nextEntity
    rw [if_pos (Int.natCast_nonneg _), Int.toNat_natCast, htext, hhead] at hlist
    cases hlist
  refine ⟨(utf8 "\x7b\"format\":1,\"next_entity\":").tail ++
    (utf8 (toString (candidate.nextEntity : ℤ)) ++ utf8 ",\"operations\":["),
    utf8 (String.ofList rest), ?_, ?_, ?_⟩
  · rw [commitPayload_eq, canonicalBytes, hdumps, String.ofList_append, String.ofList_append,
      String.ofList_append, utf8_append, utf8_append, utf8_append, String.ofList_toList,
      String.ofList_toList, String.ofList_toList, hopen]
    simp only [List.tail_cons, List.cons_append, List.append_assoc]
  · have hpos := List.length_pos_iff.2 hdigits
    simp only [List.length_append]
    omega
  · intro b hb
    rcases List.mem_append.1 hb with hb | hb
    · exact hfront.2 b hb
    · rcases List.mem_append.1 hb with hb | hb
      · exact texty_digits _ b hb
      · exact hback.2 b hb

/-! ## What is found at a torn frame -/

/-- The bytes of a frame, with anything behind it. -/
structure Framed (next : List UInt8) : Prop where
  shape : ∃ b₃ b₂ b₁ b₀ lead rest,
    next = 0x46 :: 0x44 :: 0x42 :: 0x31 :: 0 :: 0 :: 0 :: 0 :: b₃ :: b₂ :: b₁ :: b₀ :: 0x7B ::
      (lead ++ rest) ∧ b₃ ≠ 0x46 ∧ 40 ≤ lead.length ∧ ∀ b ∈ lead, Texty b

/-- Four bytes of a number that fits in them. -/
theorem be_eight {n : ℕ} (h : n < 2 ^ 30) :
    ∃ b₃ b₂ b₁ b₀, be 8 n = [0, 0, 0, 0, b₃, b₂, b₁, b₀] ∧ b₃ ≠ 0x46 := by
  have hzero : ∀ k, 4 ≤ k → k < 8 → n / 256 ^ k % 256 = 0 := by
    intro k hk _
    have hlt : n < 256 ^ k := lt_of_lt_of_le (by omega) (Nat.pow_le_pow_right (by omega) hk)
    rw [Nat.div_eq_of_lt hlt]
  refine ⟨UInt8.ofNat (n / 256 ^ 3 % 256), UInt8.ofNat (n / 256 ^ 2 % 256),
    UInt8.ofNat (n / 256 ^ 1 % 256), UInt8.ofNat (n / 256 ^ 0 % 256), ?_, ?_⟩
  · rw [be_succ, be_succ, be_succ, be_succ, hzero 7 (by omega) (by omega),
      hzero 6 (by omega) (by omega), hzero 5 (by omega) (by omega), hzero 4 (by omega) (by omega),
      be_succ, be_succ, be_succ, be_succ]
    rfl
  · intro h46
    have hnat := congrArg UInt8.toNat h46
    rw [UInt8.toNat_ofNat'] at hnat
    simp at hnat
    omega

theorem frameBytes_framed {world : CommittedWorld} {operations : List StoreOperation}
    {candidate : PythonForthDb} (h : (commitPayload world operations candidate).length < 2 ^ 30)
    (more : List UInt8) :
    Framed (frameBytes (commitPayload world operations candidate) ++ more) := by
  obtain ⟨lead, rest, hlead, hlength, htexty⟩ := commitPayload_lead world operations candidate
  obtain ⟨b₃, b₂, b₁, b₀, hbe, h46⟩ := be_eight h
  have hbytes : ∃ tail, frameBytes (commitPayload world operations candidate) ++ more =
      worldMagic ++ (be 8 (commitPayload world operations candidate).length ++
        (commitPayload world operations candidate ++ tail)) := by
    unfold frameBytes encode
    rw [List.append_assoc, List.append_assoc, List.append_assoc]
    exact ⟨_, rfl⟩
  obtain ⟨tail, htail⟩ := hbytes
  refine ⟨b₃, b₂, b₁, b₀, lead, rest ++ tail, ?_, h46, hlength, htexty⟩
  rw [htail, hbe, hlead]
  simp only [worldMagic, List.cons_append, List.nil_append, List.append_assoc]

/-- **Behind the first byte of a frame** there is no other frame. -/
theorem Framed.read_drop {next : List UInt8} (h : Framed next) {i : ℕ} (hpos : 1 ≤ i)
    (hi : i ≤ 40) : read worldSealing (next.drop i) = .damaged .magic := by
  obtain ⟨b₃, b₂, b₁, b₀, lead, rest, rfl, h46, hlength, htexty⟩ := h
  apply read_magic
  · simp only [List.length_drop, List.length_cons, List.length_append]
    omega
  intro hmagic
  change _ = worldMagic at hmagic
  rcases Nat.lt_or_ge i 13 with hheader | hlead
  · interval_cases i <;> simp [worldMagic] at hmagic
    exact h46 hmagic.1
  · -- a byte of the text
    obtain ⟨k, rfl⟩ : ∃ k, i = 13 + k := ⟨i - 13, by omega⟩
    have hk : k < lead.length := by omega
    rw [← List.drop_drop] at hmagic
    simp only [List.drop_succ_cons, List.drop_zero] at hmagic
    rw [List.drop_append_of_le_length hk.le, List.drop_eq_getElem_cons hk, List.cons_append,
      List.take_succ_cons] at hmagic
    exact (htexty _ (List.getElem_mem hk)).2 (List.cons.inj hmagic).1

/-- What a torn frame makes of the bytes behind it: nothing, a damage, a payload that is no text, or
a frame behind which there is a damage. -/
def Spoils (front : Front) : Prop :=
  front = .torn ∨ (∃ damage, front = .damaged damage) ∨
    ∃ payload rest, front = .frame payload rest ∧
      (0 ∈ payload ∨ ∃ damage, read worldSealing rest = .damaged damage)

/-- A body with a zero byte where the payload is meant to be. -/
theorem spoils_zero {length i : ℕ} {body : List UInt8} (hi : i < length)
    (hzero : body[i]? = some 0) : Spoils (readBody worldSealing length body) := by
  rcases readBody_cases (f := worldSealing) length body with htorn | hdamaged | ⟨-, -, hframe⟩
  · exact .inl htorn
  · exact .inr (.inl hdamaged)
  · refine .inr (.inr ⟨_, _, hframe, .inl ?_⟩)
    apply List.mem_of_getElem? (i := i)
    rw [List.getElem?_take_of_lt hi, hzero]

/-- A length that is longer than the file. -/
theorem spoils_long {length : ℕ} {body : List UInt8} (h : body.length < length) :
    Spoils (readBody worldSealing length body) := by
  rcases readBody_cases (f := worldSealing) length body with htorn | hdamaged | ⟨hle, -⟩
  · exact .inl htorn
  · exact .inr (.inl hdamaged)
  · omega

/-- A torn header, with the bytes of the next one in its length. -/
theorem spoils_length {header body : List UInt8} (hheader : header.length = 8)
    (h : 2 ^ 30 ≤ ofBe header ∧ body.length < 2 ^ 30 ∨
      ∃ i < ofBe header, body[i]? = some 0) :
    Spoils (read worldSealing (worldMagic ++ (header ++ body))) := by
  have hread : read worldSealing (worldMagic ++ (header ++ body)) =
      readBody worldSealing (ofBe header) body := read_header hheader body
  rw [hread]
  rcases h with ⟨hlong, hbody⟩ | ⟨i, hi, hzero⟩
  · exact spoils_long (by omega)
  · exact spoils_zero hi hzero

/-- The frame is torn in its magic or in its length. -/
theorem spoils_header {payload next : List UInt8} (h : Framed next)
    (hp : payload.length < 2 ^ 30) {m : ℕ} (hpos : 0 < m) (hm : m < 12)
    (hfits : next.length < 2 ^ 30) :
    Spoils (read worldSealing ((encode worldSealing payload).take m ++ next)) := by
  obtain ⟨b₃, b₂, b₁, b₀, lead, rest, rfl, h46, hlength, htexty⟩ := h
  obtain ⟨c₃, c₂, c₁, c₀, hbe, -⟩ := be_eight hp
  have hencode : ∃ tail, encode worldSealing payload =
      [0x46, 0x44, 0x42, 0x31, 0, 0, 0, 0, c₃, c₂, c₁, c₀] ++ tail := by
    unfold encode
    rw [← List.append_assoc, hbe]
    exact ⟨_, rfl⟩
  obtain ⟨tail, htail⟩ := hencode
  rw [htail, List.take_append_of_le_length (by simp; omega)]
  simp only [List.length_cons, List.length_append] at hfits
  have hmagic : ∀ bytes : List UInt8, 12 ≤ bytes.length → bytes.take 4 ≠ worldMagic →
      Spoils (read worldSealing bytes) := fun bytes h12 hne => .inr (.inl ⟨_, read_magic h12 hne⟩)
  interval_cases m
  -- the magic is torn: it is followed by the first byte of another one
  · apply hmagic
    · simp
    · simp [worldMagic]
  · apply hmagic
    · simp
    · simp [worldMagic]
  · apply hmagic
    · simp
    · simp [worldMagic]
  -- the length takes the magic in its high bytes: no file is as long
  · exact @spoils_length [0x46, 0x44, 0x42, 0x31, 0, 0, 0, 0] _ rfl
      (.inl ⟨by decide, by simp; omega⟩)
  · exact @spoils_length [0, 0x46, 0x44, 0x42, 0x31, 0, 0, 0] _ rfl
      (.inl ⟨by decide, by simp; omega⟩)
  · exact @spoils_length [0, 0, 0x46, 0x44, 0x42, 0x31, 0, 0] _ rfl
      (.inl ⟨by decide, by simp; omega⟩)
  · exact @spoils_length [0, 0, 0, 0x46, 0x44, 0x42, 0x31, 0] _ rfl
      (.inl ⟨by decide, by simp; omega⟩)
  · exact @spoils_length [0, 0, 0, 0, 0x46, 0x44, 0x42, 0x31] _ rfl
      (.inl ⟨by decide, by simp; omega⟩)
  -- the payload takes the zeros of the next length
  · exact @spoils_length [0, 0, 0, 0, c₃, 0x46, 0x44, 0x42] _ rfl
      (.inr ⟨1, by simp [ofBe, ofLe]; omega, rfl⟩)
  · exact @spoils_length [0, 0, 0, 0, c₃, c₂, 0x46, 0x44] _ rfl
      (.inr ⟨2, by simp [ofBe, ofLe]; omega, rfl⟩)
  · exact @spoils_length [0, 0, 0, 0, c₃, c₂, c₁, 0x46] _ rfl
      (.inr ⟨3, by simp [ofBe, ofLe]; omega, rfl⟩)

/-- The text of a payload, read as a number, is longer than any file. -/
theorem Framed.length_drop {next : List UInt8} (h : Framed next) {k : ℕ} (hlow : 33 ≤ k)
    (hhigh : k ≤ 36) : 2 ^ 30 ≤ ofBe ((next.drop k).take 8) := by
  obtain ⟨b₃, b₂, b₁, b₀, lead, rest, rfl, -, hlength, htexty⟩ := h
  obtain ⟨i, rfl⟩ : ∃ i, k = 13 + i := ⟨k - 13, by omega⟩
  have hi : i < lead.length := by omega
  have hbyte := (htexty _ (List.getElem_mem hi)).1
  rw [← List.drop_drop]
  simp only [List.drop_succ_cons, List.drop_zero]
  rw [List.drop_append_of_le_length hi.le, List.drop_eq_getElem_cons hi, List.cons_append,
    List.take_succ_cons, ofBe_cons]
  have hseven : ((lead.drop (i + 1) ++ rest).take 7).length = 7 := by
    rw [List.length_take, List.length_append, List.length_drop]
    omega
  rw [hseven]
  omega

/-- The frame is torn in its payload. -/
theorem spoils_payload {payload next : List UInt8} (h : Framed next)
    (hp : payload.length < 2 ^ 30) {m : ℕ} (hlow : 12 ≤ m) (hm : m < 12 + payload.length) :
    Spoils (read worldSealing ((encode worldSealing payload).take m ++ next)) := by
  have hfits : payload.length < 256 ^ 8 := by omega
  rw [encode_take hlow, List.take_append_of_le_length (by omega), List.append_assoc,
    List.append_assoc, read_header (length_be 8 _), ofBe_be hfits]
  have hfront : (payload.take (m - 12)).length = m - 12 := by
    rw [List.length_take]
    omega
  rcases Nat.lt_or_ge (m - 12 + 4) payload.length with hzero | hshort
  · -- the payload takes the zeros of the next length
    obtain ⟨b₃, b₂, b₁, b₀, lead, rest, rfl, -⟩ := h
    apply spoils_zero hzero
    rw [List.getElem?_append_right (by omega), hfront, Nat.add_sub_cancel_left]
    rfl
  · -- the length of the trailer is the text of the next payload
    rcases readBody_cases (f := worldSealing) payload.length (payload.take (m - 12) ++ next) with
      htorn | hdamaged | ⟨-, hlength, -⟩
    · exact .inl htorn
    · exact .inr (.inl hdamaged)
    · have hdrop : ((payload.take (m - 12) ++ next).drop payload.length).drop worldSealing.width =
          next.drop (payload.length - (m - 12) + 32) := by
        have hall : (payload.take (m - 12)).length ≤ payload.length := by omega
        rw [List.drop_append, List.drop_of_length_le hall, List.nil_append, hfront, List.drop_drop]
        rfl
      have hlong := @Framed.length_drop _ h (payload.length - (m - 12) + 32) (by omega) (by omega)
      rw [hdrop] at hlength
      omega

/-- The frame is torn in its trailer. -/
theorem spoils_trailer {payload next : List UInt8} (h : Framed next)
    (hp : payload.length < 2 ^ 30) {m : ℕ} (hlow : 12 + payload.length ≤ m)
    (hm : m < (encode worldSealing payload).length) :
    Spoils (read worldSealing ((encode worldSealing payload).take m ++ next)) := by
  have hfits : payload.length < 256 ^ 8 := by omega
  have hwidth : worldSealing.width = 32 := rfl
  rw [length_encode, hwidth] at hm
  rw [encode_take (by omega), List.take_append, List.take_of_length_le (by omega),
    List.append_assoc, List.append_assoc, List.append_assoc, read_header (length_be 8 _),
    ofBe_be hfits]
  set front := (worldSealing.digest payload ++ be 8 payload.length).take (m - 12 - payload.length)
    with hfront
  have hlen : front.length = m - 12 - payload.length := by
    rw [hfront, List.length_take, List.length_append, worldSealing.digest_length, length_be, hwidth]
    omega
  rcases readBody_cases (f := worldSealing) payload.length (payload ++ (front ++ next)) with
    htorn | hdamaged | ⟨-, -, hframe⟩
  · exact .inl htorn
  · exact .inr (.inl hdamaged)
  · -- the payload may be whole, but no frame is behind it
    have hrest : ((payload ++ (front ++ next)).drop payload.length).drop (worldSealing.width + 8) =
        next.drop (40 - front.length) := by
      rw [List.drop_left, hwidth, List.drop_append, List.drop_of_length_le (by omega),
        List.nil_append]
    rw [hrest] at hframe
    exact .inr (.inr ⟨_, _, hframe, .inr ⟨_, h.read_drop (by omega) (by omega)⟩⟩)

/-- **A torn frame spoils the bytes behind it**, wherever it is torn. -/
theorem read_torn {payload next : List UInt8} (h : Framed next) (hp : payload.length < 2 ^ 30)
    (hfits : next.length < 2 ^ 30) {m : ℕ} (hpos : 0 < m)
    (hm : m < (encode worldSealing payload).length) :
    Spoils (read worldSealing ((encode worldSealing payload).take m ++ next)) := by
  rcases Nat.lt_or_ge m 12 with hheader | hbody
  · exact spoils_header h hp hpos hheader hfits
  · rcases Nat.lt_or_ge m (12 + payload.length) with hpayload | htrailer
    · exact spoils_payload h hp hbody hpayload
    · exact spoils_trailer h hp htrailer hm

/-! ## Recovery -/

/-- A payload with a zero byte is no frame. -/
theorem acceptCommit_zero {payload : List UInt8} (h : 0 ∈ payload) (world : CommittedWorld)
    (start : ℕ) : ∃ e, acceptCommit world start payload = .error e := by
  have hparse : ∃ e, parseFrame start payload = .error e := by
    unfold parseFrame
    cases htext : ofUtf8 payload with
    | none => exact ⟨_, rfl⟩
    | some text =>
      rw [← utf8_of_ofUtf8 htext] at h
      obtain ⟨c, hc, hzero⟩ := zero_mem_utf8 h
      cases hloads : Json.loads text.toList with
      | none =>
        simp only [Option.bind_some, hloads]
        exact ⟨_, rfl⟩
      | some v =>
        -- the reader would have taken a control character
        exfalso
        have hnul : c = Char.ofNat 0 := by
          rw [← hzero, Char.ofNat_toNat]
        rcases loads_plain hloads c hc with hplain | hspace
        · omega
        · rw [hnul] at hspace
          exact absurd hspace (by decide)
  obtain ⟨e, he⟩ := hparse
  refine ⟨e, ?_⟩
  unfold acceptCommit
  rw [he]
  rfl

/-- **What is behind a spoiled frame** is not read. -/
theorem readLog_spoiled {bytes : List UInt8} (h : Spoils (read worldSealing bytes)) {fuel : ℕ}
    (hfuel : 2 ≤ fuel) (world : CommittedWorld) (start : ℕ) :
    (∃ e, readLog worldSealing acceptCommit frameDamage fuel world start bytes = .error e) ∨
      readLog worldSealing acceptCommit frameDamage fuel world start bytes = .ok world := by
  obtain ⟨fuel, rfl⟩ : ∃ n, fuel = n + 2 := ⟨fuel - 2, by omega⟩
  rcases h with htorn | ⟨damage, hdamaged⟩ | ⟨payload, rest, hframe, hzero | ⟨damage, hrest⟩⟩
  · right
    simp only [readLog, htorn]
  · left
    simp only [readLog, hdamaged]
    exact ⟨_, rfl⟩
  · left
    obtain ⟨e, he⟩ := acceptCommit_zero hzero world start
    simp only [readLog, hframe, he]
    exact ⟨_, rfl⟩
  · left
    simp only [readLog, hframe, hrest, bind, Except.bind]
    cases acceptCommit world start payload with
    | error e => exact ⟨_, rfl⟩
    | ok world' => exact ⟨_, rfl⟩

/-- A file that ends in a torn frame is recovered to the world before it, and so is one in which
more is written behind that frame. -/
theorem recover_torn {spec : WorldSpec} {db : WorldDb}
    {chain : List (List UInt8 × CommittedWorld)} (h : spec.Holds db chain) {payload next : List UInt8}
    (hp : payload.length < 2 ^ 30) {m : ℕ} (hpos : 0 < m) (hm : m < (frameBytes payload).length) :
    recover (db.path ++ (frameBytes payload).take m) = .ok db.world ∧
      (Framed next → next.length < 2 ^ 30 →
        (∃ e, recover (db.path ++ ((frameBytes payload).take m ++ next)) = .error e) ∨
          recover (db.path ++ ((frameBytes payload).take m ++ next)) = .ok db.world) := by
  have hcount := length_le_encodeAll (f := worldSealing) chain
  have hlimit : payload.length < worldSealing.limit := by
    change _ < 2 ^ 63
    omega
  have htake : ((frameBytes payload).take m).length = m := by
    rw [List.length_take]
    omega
  unfold recover
  rw [h.path]
  constructor
  · rw [readLog_append h.accepted (by simp only [List.length_append]; omega), h.newest]
    obtain ⟨fuel, hfuel⟩ : ∃ n, (encodeAll worldSealing chain ++
        (frameBytes payload).take m).length + 1 - chain.length = n + 1 := by
      rw [List.length_append]
      exact ⟨(encodeAll worldSealing chain).length + ((frameBytes payload).take m).length -
        chain.length, by omega⟩
    rw [hfuel]
    rcases read_take hlimit hm with hread | hread
    · unfold frameBytes
      simp only [readLog, hread]
    · unfold frameBytes
      simp only [readLog, hread]
  · intro hnext hfits
    rw [readLog_append h.accepted (by simp only [List.length_append]; omega), h.newest]
    apply readLog_spoiled (read_torn hnext hp hfits hpos hm)
    simp only [List.length_append]
    omega

namespace WorldSession

/-- **A commit behind a torn tail is lost.** After any run the process dies in a commit, when some
but not all bytes of its frame are in the file. The file that is left is opened at the world before
that commit. Whatever is committed then, and whatever is written after it, up to a file of a
gibibyte: recovery raises, or finds the world before both commits. -/
theorem torn_tail_loses (events : List WorldEvent) {tx : WorldTransaction}
    (htx : tx ∈ (new.run events).2.transactions) {n : ℕ}
    (hn : (new.run events).2.db.path.length < n)
    (hcut : n < ((new.run events).2.db.commit tx false).2.path.length)
    (hfits : ((new.run events).2.db.commit tx false).2.path.length < 2 ^ 30) :
    WorldDb.open (((new.run events).2.db.commit tx false).2.path.take n) =
        .ok ⟨((new.run events).2.db.commit tx false).2.path.take n, (new.run events).2.db.world⟩ ∧
      ∀ (later : WorldTransaction) (more : List UInt8) (db : WorldDb),
        ((⟨((new.run events).2.db.commit tx false).2.path.take n,
          (new.run events).2.db.world⟩ : WorldDb).commit later false).2 = db →
        n < db.path.length → (db.path ++ more).length < 2 ^ 30 →
        (∃ e, recover (db.path ++ more) = .error e) ∨
          recover (db.path ++ more) = .ok (new.run events).2.db.world := by
  have hprefix := WorldDb.commit_grows (new.run events).2.db tx false
  have hlen := hprefix.length_le
  obtain ⟨-, hagrees⟩ := new_agrees.run events (by omega)
  generalize (new.run events).2 = s at *
  obtain ⟨chain, hchain⟩ := hagrees.file
  rcases s.db.commit_path tx false with hsame | ⟨candidate, hwritten⟩
  · rw [hsame] at hcut
    omega
  rw [hwritten] at hcut hfits ⊢
  generalize commitPayload s.db.world tx.operations candidate = payload at hcut hfits ⊢
  rw [List.length_append] at hcut hfits
  have hframe : (frameBytes payload).length = payload.length + 32 + 20 := length_encode payload
  have hcutEq : (s.db.path ++ frameBytes payload).take n =
      s.db.path ++ (frameBytes payload).take (n - s.db.path.length) := by
    rw [List.take_append, List.take_of_length_le hn.le]
  rw [hcutEq]
  constructor
  · obtain ⟨hopen, -⟩ := @recover_torn _ _ _ hchain payload [] (by omega)
      (n - s.db.path.length) (by omega) (by omega)
    unfold WorldDb.open
    rw [hopen]
    rfl
  · rintro later more db rfl hlonger hbound
    rcases (⟨s.db.path ++ (frameBytes payload).take (n - s.db.path.length),
        s.db.world⟩ : WorldDb).commit_path later false with hsame | ⟨candidate', hwritten'⟩
    · rw [hsame, List.length_append, List.length_take] at hlonger
      omega
    · rw [hwritten'] at hbound ⊢
      have hframe' : (frameBytes (commitPayload s.db.world later.operations candidate')).length =
        (commitPayload s.db.world later.operations candidate').length + 32 + 20 := length_encode _
      simp only [List.length_append] at hbound
      have hframed := @frameBytes_framed s.db.world later.operations candidate' (by omega) more
      rw [List.append_assoc, List.append_assoc]
      apply (recover_torn hchain (by omega) (by omega) (by omega)).2 hframed
      rw [List.length_append]
      omega

/-- A first frame of which 20 bytes are written, and a whole one behind it. -/
theorem torn_tail_loses_second :
    ∃ db : WorldDb, 20 < db.path.length ∧ ((∃ e, recover (db.path ++ []) = .error e) ∨
      recover (db.path ++ []) = .ok (new.run [.transaction]).2.db.world) := by
  obtain ⟨-, hlost⟩ := @torn_tail_loses [.transaction] genesisWorld.transaction
    (List.mem_singleton.2 rfl) 20 (by decide +kernel) (by decide +kernel) (by decide +kernel)
  have hdb := hlost genesisWorld.transaction []
  have hlonger : 20 < ((⟨((new.run [.transaction]).2.db.commit
      genesisWorld.transaction false).2.path.take 20, (new.run [.transaction]).2.db.world⟩ :
        WorldDb).commit genesisWorld.transaction false).2.path.length := by
    decide +kernel
  exact ⟨_, hlonger, hdb _ rfl hlonger (by decide +kernel)⟩

end WorldSession

end ForthDB
