import ForthDB.Lib.Bytes

/-!
# Logs of sealed frames

A frame is a magic of four bytes and the length of its payload, the payload, and a digest of the
payload with the length again. Numbers are written most significant byte first. A log is read from
the front, frame by frame, up to its end or to a frame that is not there as a whole.

* `read`: the frame at the front of a log, or why there is none.
* `readLog`: the states that the payloads lead to, up to the last one.
* `readLog_cut`: **a log cut at any byte is read as the frames that are whole**.
* `readLog_append`: what is behind a chain of frames is read from the state they lead to.
-/

namespace SealedLog

open Bytes

/-- The magic, the digest, and the length from which on a read is refused. -/
structure Sealing where
  magic : List UInt8
  digest : List UInt8 → List UInt8
  width : ℕ
  limit : ℕ
  magic_length : magic.length = 4
  digest_length : ∀ payload, (digest payload).length = width
  limit_le : limit ≤ 256 ^ 8

inductive Damage
  | magic
  | oversized
  | length
  | digest

/-- What is at the front of a log. -/
inductive Front
  | done
  | torn
  | damaged (damage : Damage)
  | frame (payload rest : List UInt8)

variable (f : Sealing)

def encode (payload : List UInt8) : List UInt8 :=
  f.magic ++ (be 8 payload.length ++ (payload ++ (f.digest payload ++ be 8 payload.length)))

/-- The front, behind a header with the length of the payload. -/
def readBody (length : ℕ) (body : List UInt8) : Front :=
  if f.limit ≤ length then .damaged .oversized
  else if body.length < length then .torn
  else
    let payload := body.take length
    let trailer := body.drop length
    if trailer.length < f.width + 8 then .torn
    else if ofBe ((trailer.drop f.width).take 8) ≠ length then .damaged .length
    else if f.digest payload ≠ trailer.take f.width then .damaged .digest
    else .frame payload (trailer.drop (f.width + 8))

def read (bytes : List UInt8) : Front :=
  if bytes = [] then .done
  else if bytes.length < 12 then .torn
  else if bytes.take 4 ≠ f.magic then .damaged .magic
  else readBody f (ofBe ((bytes.drop 4).take 8)) (bytes.drop 12)

variable {σ ε : Type}

/-- The loop over the frames. A frame takes a byte, so the length of the log is enough fuel. -/
def readLog (accept : σ → ℕ → List UInt8 → Except ε σ) (damaged : ℕ → Damage → ε) :
    ℕ → σ → ℕ → List UInt8 → Except ε σ
  | 0, s, _, _ => .ok s
  | fuel + 1, s, start, bytes =>
    match read f bytes with
    | .done => .ok s
    | .torn => .ok s
    | .damaged damage => .error (damaged start damage)
    | .frame payload rest => do
      let s ← accept s start payload
      readLog accept damaged fuel s (start + (bytes.length - rest.length)) rest

variable {f}

@[simp] theorem length_encode (payload : List UInt8) :
    (encode f payload).length = payload.length + f.width + 20 := by
  unfold encode
  simp only [List.length_append, f.magic_length, f.digest_length, length_be]
  omega

/-! ## Reading one frame -/

/-- A header, taken apart. -/
theorem read_header {header : List UInt8} (h : header.length = 8) (body : List UInt8) :
    read f (f.magic ++ (header ++ body)) = readBody f (ofBe header) body := by
  have hmagic := f.magic_length
  have hne : f.magic ++ (header ++ body) ≠ [] := by
    intro hnil
    have := congrArg List.length hnil
    simp only [List.length_append, List.length_nil] at this
    omega
  have hlen : ¬ (f.magic ++ (header ++ body)).length < 12 := by
    simp only [List.length_append]
    omega
  have htake : (f.magic ++ (header ++ body)).take 4 = f.magic :=
    List.take_left' hmagic
  have hdrop : (f.magic ++ (header ++ body)).drop 4 = header ++ body :=
    List.drop_left' hmagic
  have hlength : (header ++ body).take 8 = header := List.take_left' h
  have hbody : (f.magic ++ (header ++ body)).drop 12 = body := by
    rw [show (12 : ℕ) = 4 + 8 from rfl, ← List.drop_drop, hdrop, ← h, List.drop_left]
  unfold read
  rw [if_neg hne, if_neg hlen, if_neg (not_not_intro htake), hdrop, hlength, hbody]

/-- Bytes that begin otherwise than a frame. -/
theorem read_magic {bytes : List UInt8} (h : 12 ≤ bytes.length) (hmagic : bytes.take 4 ≠ f.magic) :
    read f bytes = .damaged .magic := by
  have hne : bytes ≠ [] := by
    rintro rfl
    simp at h
  unfold read
  rw [if_neg hne, if_neg (by omega), if_pos hmagic]

/-- A body whose payload is not there is no frame; any other holds the payload that is meant. -/
theorem readBody_cases (length : ℕ) (body : List UInt8) :
    readBody f length body = .torn ∨ (∃ damage, readBody f length body = .damaged damage) ∨
      length ≤ body.length ∧
        ofBe (((body.drop length).drop f.width).take 8) = length ∧
        readBody f length body =
          .frame (body.take length) ((body.drop length).drop (f.width + 8)) := by
  unfold readBody
  by_cases hlimit : f.limit ≤ length
  · rw [if_pos hlimit]
    exact .inr (.inl ⟨_, rfl⟩)
  rw [if_neg hlimit]
  by_cases hshort : body.length < length
  · rw [if_pos hshort]
    exact .inl rfl
  rw [if_neg hshort]
  simp only
  by_cases htrailer : (body.drop length).length < f.width + 8
  · rw [if_pos htrailer]
    exact .inl rfl
  rw [if_neg htrailer]
  by_cases hlength : ofBe (((body.drop length).drop f.width).take 8) ≠ length
  · rw [if_pos hlength]
    exact .inr (.inl ⟨_, rfl⟩)
  rw [if_neg hlength]
  by_cases hdigest : f.digest (body.take length) ≠ (body.drop length).take f.width
  · rw [if_pos hdigest]
    exact .inr (.inl ⟨_, rfl⟩)
  rw [if_neg hdigest]
  exact .inr (.inr ⟨by omega, not_not.1 hlength, rfl⟩)

/-- **A frame** is read back, whatever is behind it. -/
theorem read_encode {payload : List UInt8} (h : payload.length < f.limit) (rest : List UInt8) :
    read f (encode f payload ++ rest) = .frame payload rest := by
  have hfits : payload.length < 256 ^ 8 := lt_of_lt_of_le h f.limit_le
  have hsplit : encode f payload ++ rest = f.magic ++ (be 8 payload.length ++
      (payload ++ (f.digest payload ++ (be 8 payload.length ++ rest)))) := by simp [encode]
  have hwidth := f.digest_length payload
  have htrailer : ¬ (f.digest payload ++ (be 8 payload.length ++ rest)).length < f.width + 8 := by
    simp only [List.length_append, hwidth, length_be]
    omega
  have hdrop : (f.digest payload ++ (be 8 payload.length ++ rest)).drop f.width =
      be 8 payload.length ++ rest := List.drop_left' hwidth
  have hdigest : (f.digest payload ++ (be 8 payload.length ++ rest)).take f.width =
      f.digest payload := List.take_left' hwidth
  have hlength : (be 8 payload.length ++ rest).take 8 = be 8 payload.length :=
    List.take_left' (length_be 8 _)
  have hrest : (be 8 payload.length ++ rest).drop 8 = rest :=
    List.drop_left' (length_be 8 _)
  rw [hsplit, read_header (length_be 8 _), ofBe_be hfits]
  unfold readBody
  rw [if_neg (by omega), if_neg (by simp)]
  simp only [List.take_left, List.drop_left]
  rw [if_neg htrailer, hdrop, hlength, ofBe_be hfits, if_neg (by simp), hdigest,
    if_neg (by simp), ← List.drop_drop, hdrop, hrest]

/-- A cut that keeps the header. -/
theorem encode_take {payload : List UInt8} {n : ℕ} (hn : 12 ≤ n) :
    (encode f payload).take n = f.magic ++ (be 8 payload.length ++
      ((payload ++ (f.digest payload ++ be 8 payload.length)).take (n - 12))) := by
  have hmagic := f.magic_length
  unfold encode
  rw [List.take_append, List.take_of_length_le (by omega), List.take_append,
    List.take_of_length_le (by rw [length_be]; omega), length_be, hmagic]
  congr 3

/-- **The front of a frame** is no frame, and no damage. -/
theorem read_take {payload : List UInt8} (h : payload.length < f.limit) {n : ℕ}
    (hn : n < (encode f payload).length) :
    read f ((encode f payload).take n) = .done ∨ read f ((encode f payload).take n) = .torn := by
  have hfits : payload.length < 256 ^ 8 := lt_of_lt_of_le h f.limit_le
  rw [length_encode] at hn
  by_cases hempty : (encode f payload).take n = []
  · left
    unfold read
    rw [if_pos hempty]
  right
  by_cases hheader : n < 12
  · have hlen : ((encode f payload).take n).length < 12 := by
      rw [List.length_take]
      omega
    unfold read
    rw [if_neg hempty, if_pos hlen]
  rw [encode_take (by omega), read_header (length_be 8 _), ofBe_be hfits]
  unfold readBody
  rw [if_neg (by omega)]
  by_cases hpayload : n - 12 < payload.length
  · rw [if_pos]
    rw [List.length_take]
    omega
  · have hbody : ¬ ((payload ++ (f.digest payload ++ be 8 payload.length)).take
        (n - 12)).length < payload.length := by
      simp only [List.length_take, List.length_append]
      omega
    have htrailer : (((payload ++ (f.digest payload ++ be 8 payload.length)).take
        (n - 12)).drop payload.length).length < f.width + 8 := by
      simp only [List.length_drop, List.length_take, List.length_append, f.digest_length,
        length_be]
      omega
    rw [if_neg hbody, if_pos htrailer]

/-! ## Reading a log -/

variable {accept : σ → ℕ → List UInt8 → Except ε σ} {damaged : ℕ → Damage → ε}

/-- Payloads that are accepted one after the other, with the states they lead to. -/
def Chain (f : Sealing) (accept : σ → ℕ → List UInt8 → Except ε σ) (s : σ) :
    List (List UInt8 × σ) → Prop
  | [] => True
  | (payload, t) :: rest =>
    payload.length < f.limit ∧ (∀ start, accept s start payload = .ok t) ∧ Chain f accept t rest

/-- The state that a chain leads to. -/
def last (s : σ) (chain : List (List UInt8 × σ)) : σ := (chain.map Prod.snd).getLastD s

def encodeAll (f : Sealing) (chain : List (List UInt8 × σ)) : List UInt8 :=
  chain.flatMap fun entry => encode f entry.1

/-- How many frames of a chain are whole within `n` bytes. -/
def whole (f : Sealing) : ℕ → List (List UInt8 × σ) → ℕ
  | _, [] => 0
  | n, entry :: rest =>
    if (encode f entry.1).length ≤ n then whole f (n - (encode f entry.1).length) rest + 1 else 0

theorem last_cons (s : σ) (entry : List UInt8 × σ) (rest : List (List UInt8 × σ)) :
    last s (entry :: rest) = last entry.2 rest := by
  unfold last
  rw [List.map_cons, List.getLastD_cons]

theorem last_append (s : σ) (chain : List (List UInt8 × σ)) (entry : List UInt8 × σ) :
    last s (chain ++ [entry]) = entry.2 := by
  unfold last
  rw [List.map_append, List.map_singleton, List.getLastD_concat]

theorem Chain.append {s : σ} {chain : List (List UInt8 × σ)} {payload : List UInt8} {t : σ}
    (h : Chain f accept s chain) (hlimit : payload.length < f.limit)
    (haccept : ∀ start, accept (last s chain) start payload = .ok t) :
    Chain f accept s (chain ++ [(payload, t)]) := by
  induction chain generalizing s with
  | nil => exact ⟨hlimit, haccept, trivial⟩
  | cons entry rest ih =>
    obtain ⟨hentry, hstep, hrest⟩ := h
    rw [last_cons] at haccept
    exact ⟨hentry, hstep, ih hrest haccept⟩

theorem Chain.take {s : σ} {chain : List (List UInt8 × σ)} (h : Chain f accept s chain) (k : ℕ) :
    Chain f accept s (chain.take k) := by
  induction chain generalizing s k with
  | nil =>
    rw [List.take_nil]
    trivial
  | cons entry rest ih =>
    obtain ⟨hentry, hstep, hrest⟩ := h
    cases k with
    | zero => trivial
    | succ k => exact ⟨hentry, hstep, ih hrest k⟩

/-- **What is behind a chain of frames** is read from the state they lead to. -/
theorem readLog_append {s : σ} {chain : List (List UInt8 × σ)} (h : Chain f accept s chain)
    {fuel : ℕ} (hfuel : chain.length ≤ fuel) (start : ℕ) (rest : List UInt8) :
    readLog f accept damaged fuel s start (encodeAll f chain ++ rest) =
      readLog f accept damaged (fuel - chain.length) (last s chain)
        (start + (encodeAll f chain).length) rest := by
  induction chain generalizing s start fuel with
  | nil => rfl
  | cons entry chain ih =>
    obtain ⟨hlimit, hstep, hchain⟩ := h
    rw [List.length_cons] at hfuel
    obtain ⟨fuel, rfl⟩ : ∃ m, fuel = m + 1 := ⟨fuel - 1, by omega⟩
    have hbytes : encodeAll f (entry :: chain) ++ rest =
        encode f entry.1 ++ (encodeAll f chain ++ rest) := by
      unfold encodeAll
      rw [List.flatMap_cons, List.append_assoc]
    have hread := read_encode hlimit (encodeAll f chain ++ rest)
    have hstart : start + ((encode f entry.1 ++ (encodeAll f chain ++ rest)).length -
        (encodeAll f chain ++ rest).length) + (encodeAll f chain).length =
        start + (encodeAll f (entry :: chain)).length := by
      unfold encodeAll
      simp only [List.length_append, List.flatMap_cons]
      omega
    rw [hbytes]
    simp only [readLog, hread, hstep, bind, Except.bind]
    rw [ih hchain (by omega), hstart, last_cons, List.length_cons, Nat.add_sub_add_right]

/-- A cut log is the frames that are whole, and the front of the next one. -/
theorem encodeAll_take (n : ℕ) (chain : List (List UInt8 × σ)) :
    ∃ rest, (encodeAll f chain).take n = encodeAll f (chain.take (whole f n chain)) ++ rest ∧
      (rest = [] ∨ ∃ entry ∈ chain, ∃ m < (encode f entry.1).length,
        rest = (encode f entry.1).take m) := by
  induction chain generalizing n with
  | nil => exact ⟨[], by simp [encodeAll], .inl rfl⟩
  | cons entry chain ih =>
    have hcons : encodeAll f (entry :: chain) = encode f entry.1 ++ encodeAll f chain := by
      unfold encodeAll
      rw [List.flatMap_cons]
    rw [hcons, List.take_append]
    by_cases hwhole : (encode f entry.1).length ≤ n
    · obtain ⟨rest, hrest, htorn⟩ := ih (n - (encode f entry.1).length)
      refine ⟨rest, ?_, htorn.imp_right ?_⟩
      · rw [List.take_of_length_le hwhole, hrest, whole, if_pos hwhole, List.take_succ_cons,
          ← List.append_assoc]
        rfl
      · rintro ⟨other, hmem, hm⟩
        exact ⟨other, List.mem_cons_of_mem _ hmem, hm⟩
    · have hnone : n - (encode f entry.1).length = 0 := by omega
      refine ⟨(encode f entry.1).take n, ?_, .inr ⟨entry, List.mem_cons_self, n, by omega, rfl⟩⟩
      rw [whole, if_neg hwhole, hnone, List.take_zero, List.take_zero, List.append_nil]
      rfl

theorem whole_le (n : ℕ) (chain : List (List UInt8 × σ)) : whole f n chain ≤ chain.length := by
  induction chain generalizing n with
  | nil => exact le_rfl
  | cons entry chain ih =>
    have hrest := ih (n - (encode f entry.1).length)
    unfold whole
    rw [List.length_cons]
    split <;> omega

/-- More bytes hold more frames. -/
theorem whole_mono {m n : ℕ} (h : m ≤ n) (chain : List (List UInt8 × σ)) :
    whole f m chain ≤ whole f n chain := by
  induction chain generalizing m n with
  | nil => exact le_rfl
  | cons entry chain ih =>
    have hrest : whole f (m - (encode f entry.1).length) chain ≤
        whole f (n - (encode f entry.1).length) chain := ih (by omega)
    unfold whole
    by_cases hm : (encode f entry.1).length ≤ m
    · rw [if_pos hm, if_pos (by omega)]
      omega
    · rw [if_neg hm]
      exact Nat.zero_le _

theorem Chain.limit {s : σ} {chain : List (List UInt8 × σ)} (h : Chain f accept s chain) :
    ∀ entry ∈ chain, entry.1.length < f.limit := by
  induction chain generalizing s with
  | nil =>
    intro entry hentry
    cases hentry
  | cons first chain ih =>
    obtain ⟨hlimit, -, hchain⟩ := h
    intro entry hentry
    rcases List.mem_cons.1 hentry with rfl | hentry
    · exact hlimit
    · exact ih hchain entry hentry

/-- Every frame takes a byte. -/
theorem length_le_encodeAll (chain : List (List UInt8 × σ)) :
    chain.length ≤ (encodeAll f chain).length := by
  induction chain with
  | nil => exact Nat.zero_le _
  | cons entry chain ih =>
    unfold encodeAll at ih ⊢
    rw [List.flatMap_cons, List.length_append, length_encode, List.length_cons]
    omega

/-- **A log cut at any byte** is read as the frames that are whole. -/
theorem readLog_cut {s : σ} {chain : List (List UInt8 × σ)} (h : Chain f accept s chain) (n : ℕ)
    {fuel : ℕ} (hfuel : ((encodeAll f chain).take n).length < fuel) (start : ℕ) :
    readLog f accept damaged fuel s start ((encodeAll f chain).take n) =
      .ok (last s (chain.take (whole f n chain))) := by
  obtain ⟨rest, hrest, htorn⟩ := encodeAll_take (f := f) n chain
  have hcount := length_le_encodeAll (f := f) (chain.take (whole f n chain))
  rw [hrest, List.length_append] at hfuel
  rw [hrest, readLog_append (h.take _) (by omega)]
  obtain ⟨m, hm⟩ : ∃ m, fuel - (chain.take (whole f n chain)).length = m + 1 :=
    ⟨fuel - (chain.take (whole f n chain)).length - 1, by omega⟩
  rw [hm]
  rcases htorn with rfl | ⟨entry, hentry, k, hk, rfl⟩
  · rfl
  · unfold readLog
    rcases read_take (h.limit entry hentry) hk with hread | hread
    · rw [hread]
    · rw [hread]

/-- A log that is not cut is read to its end. -/
theorem readLog_all {s : σ} {chain : List (List UInt8 × σ)} (h : Chain f accept s chain) {fuel : ℕ}
    (hfuel : (encodeAll f chain).length < fuel) (start : ℕ) :
    readLog f accept damaged fuel s start (encodeAll f chain) = .ok (last s chain) := by
  have hcount := length_le_encodeAll (f := f) chain
  have hlog : readLog f accept damaged fuel s start (encodeAll f chain ++ []) = _ :=
    readLog_append h (by omega) start []
  rw [List.append_nil] at hlog
  rw [hlog]
  obtain ⟨m, hm⟩ : ∃ m, fuel - chain.length = m + 1 := ⟨fuel - chain.length - 1, by omega⟩
  rw [hm]
  rfl

end SealedLog
