import ForthDB.Lib.Fnv

/-!
# Logs of checksummed records

A record is a magic, the length of its payload, a checksum, the payload and a
trailer. `scan` looks at the front of a byte string; `scanLog` reads record after
record and stops at an incomplete one.

* `scan_encode`, `scan_torn`: a complete record is read, a proper prefix of one is
  incomplete.
* `scanLog_records`: whole records are passed to `accept` in order.
* `scan_altered`: **what one changed byte does to a complete record**. It is always
  noticed, except where the length field comes to point behind the end of the file
  (`Overruns`), or to another end whose bytes pass for a record.
-/

namespace RecordLog

open Bytes

/-- A record format: what frames the payload, and the largest payload read back. -/
structure Format where
  magic : List UInt8
  trailer : List UInt8
  limit : ℕ
  magic_length : magic.length = 4
  trailer_length : trailer.length = 4
  limit_lt : limit < 256 ^ 8

inductive Damage
  | magic
  | length (declared : ℕ)
  | trailer
  | checksum (expected actual : ℕ)
deriving DecidableEq, Repr

inductive Scan
  | incomplete
  | damaged (damage : Damage)
  | record (payload rest : List UInt8)
deriving DecidableEq, Repr

def checksum (payload : List UInt8) : ℕ := (Fnv.fnv1a payload).toNat

def Format.encode (f : Format) (payload : List UInt8) : List UInt8 :=
  f.magic ++ (le 8 payload.length ++ (le 8 (checksum payload) ++ (payload ++ f.trailer)))

/-- Look at the front of `bytes`. -/
def scan (f : Format) (bytes : List UInt8) : Scan :=
  if bytes.length < 20 then .incomplete
  else if bytes.take 4 ≠ f.magic then .damaged .magic
  else
    let declared := ofLe ((bytes.drop 4).take 8)
    if f.limit < declared then .damaged (.length declared)
    else if bytes.length < 20 + declared + 4 then .incomplete
    else if (bytes.drop (20 + declared)).take 4 ≠ f.trailer then .damaged .trailer
    else
      let expected := ofLe ((bytes.drop 12).take 8)
      let payload := (bytes.drop 20).take declared
      if checksum payload ≠ expected then .damaged (.checksum expected (checksum payload))
      else .record payload (bytes.drop (20 + declared + 4))

variable {σ ε : Type}

/-- Read record after record; the offset behind the last accepted one comes back. -/
def scanLog (f : Format) (accept : σ → ℕ → List UInt8 → Except ε σ) (damaged : ℕ → Damage → ε) :
    ℕ → σ → ℕ → List UInt8 → Except ε (σ × ℕ)
  | 0, s, offset, _ => .ok (s, offset)
  | fuel + 1, s, offset, bytes =>
    if bytes = [] then .ok (s, offset)
    else match scan f bytes with
      | .incomplete => .ok (s, offset)
      | .damaged d => .error (damaged offset d)
      | .record payload rest =>
        match accept s offset payload with
        | .ok s' => scanLog f accept damaged fuel s' (offset + (20 + payload.length + 4)) rest
        | .error e => .error e

/-- Accept payloads one by one. -/
def acceptAll (accept : σ → ℕ → List UInt8 → Except ε σ) :
    σ → ℕ → List (List UInt8) → Except ε (σ × ℕ)
  | s, offset, [] => .ok (s, offset)
  | s, offset, p :: ps =>
    match accept s offset p with
    | .ok s' => acceptAll accept s' (offset + (20 + p.length + 4)) ps
    | .error e => .error e

variable {f : Format} {accept : σ → ℕ → List UInt8 → Except ε σ} {damaged : ℕ → Damage → ε}

@[simp] theorem length_encode (f : Format) (p : List UInt8) :
    (f.encode p).length = 20 + p.length + 4 := by
  simp [Format.encode, f.magic_length, f.trailer_length]; omega

theorem checksum_lt (p : List UInt8) : checksum p < 256 ^ 8 := (Fnv.fnv1a p).toNat_lt

/-- `scan` on a string cut into its fields. -/
theorem scan_fields {m l s body : List UInt8} (hm : m.length = 4) (hl : l.length = 8)
    (hs : s.length = 8) :
    scan f (m ++ (l ++ (s ++ body))) =
      if m ≠ f.magic then .damaged .magic
      else if f.limit < ofLe l then .damaged (.length (ofLe l))
      else if body.length < ofLe l + 4 then .incomplete
      else if (body.drop (ofLe l)).take 4 ≠ f.trailer then .damaged .trailer
      else if checksum (body.take (ofLe l)) ≠ ofLe s then
        .damaged (.checksum (ofLe s) (checksum (body.take (ofLe l))))
      else .record (body.take (ofLe l)) (body.drop (ofLe l + 4)) := by
  have h4 : (m ++ (l ++ (s ++ body))).take 4 = m := by
    rw [← hm, List.take_left]
  have d4 : (m ++ (l ++ (s ++ body))).drop 4 = l ++ (s ++ body) := by
    rw [← hm, List.drop_left]
  have d12 : (m ++ (l ++ (s ++ body))).drop 12 = s ++ body := by
    rw [show 12 = 4 + 8 from rfl, ← List.drop_drop, d4, ← hl, List.drop_left]
  have d20 : (m ++ (l ++ (s ++ body))).drop 20 = body := by
    rw [show 20 = 12 + 8 from rfl, ← List.drop_drop, d12, ← hs, List.drop_left]
  have dn : ∀ n, (m ++ (l ++ (s ++ body))).drop (20 + n) = body.drop n := by
    intro n; rw [← List.drop_drop, d20]
  have tl : ((m ++ (l ++ (s ++ body))).drop 4).take 8 = l := by rw [d4, ← hl, List.take_left]
  have ts : ((m ++ (l ++ (s ++ body))).drop 12).take 8 = s := by rw [d12, ← hs, List.take_left]
  have hlen : (m ++ (l ++ (s ++ body))).length = 20 + body.length := by
    simp only [List.length_append, hm, hl, hs]; omega
  have hcmp : ∀ n, 20 + body.length < 20 + n + 4 ↔ body.length < n + 4 := by omega
  unfold scan
  simp only [h4, tl, ts, d20, hlen, dn, show ∀ n, 20 + n + 4 = 20 + (n + 4) by omega]
  rw [if_neg (by omega : ¬ 20 + body.length < 20)]
  simp only [Nat.add_lt_add_iff_left]

theorem scan_encode {p : List UInt8} (hp : p.length ≤ f.limit) (rest : List UInt8) :
    scan f (f.encode p ++ rest) = .record p rest := by
  have hl : ofLe (le 8 p.length) = p.length := ofLe_le (lt_of_le_of_lt hp f.limit_lt)
  have hs : ofLe (le 8 (checksum p)) = checksum p := ofLe_le (checksum_lt p)
  have ht := f.trailer_length
  have h1 : (p ++ f.trailer ++ rest).drop p.length = f.trailer ++ rest := by
    rw [List.append_assoc, List.drop_left]
  have h2 : (p ++ f.trailer ++ rest).take p.length = p := by
    rw [List.append_assoc, List.take_left]
  have h3 : (p ++ f.trailer ++ rest).drop (p.length + 4) = rest := by
    rw [← List.drop_drop, h1, ← ht, List.drop_left]
  have h4 : (f.trailer ++ rest).take 4 = f.trailer := by rw [← ht, List.take_left]
  have h5 : f.encode p ++ rest =
      f.magic ++ (le 8 p.length ++ (le 8 (checksum p) ++ (p ++ f.trailer ++ rest))) := by
    simp [Format.encode]
  rw [h5, scan_fields f.magic_length (by simp) (by simp)]
  rw [hl, hs, h1, h2, h3, h4]
  rw [if_neg (by simp), if_neg (by omega), if_neg (by simp; omega), if_neg (by simp),
    if_neg (by simp)]

/-- A proper prefix of a record is incomplete. -/
theorem scan_torn {p t more : List UInt8} (hp : p.length ≤ f.limit) (h : f.encode p = t ++ more)
    (hm : more ≠ []) : scan f t = .incomplete := by
  have hlen : t.length + more.length = 20 + p.length + 4 := by
    rw [← List.length_append, ← h, length_encode]
  have hpos : 0 < more.length := List.length_pos_iff.2 hm
  by_cases ht : t.length < 20
  · unfold scan; rw [if_pos ht]
  · -- the prefix holds the three fields
    have h1 : t = f.magic ++ (le 8 p.length ++ (le 8 (checksum p) ++ t.drop 20)) := by
      have h2 : t.take 20 = f.magic ++ (le 8 p.length ++ le 8 (checksum p)) := by
        have h3 : (f.encode p).take 20 = f.magic ++ (le 8 p.length ++ le 8 (checksum p)) := by
          have h4 : f.encode p = (f.magic ++ (le 8 p.length ++ le 8 (checksum p))) ++
              (p ++ f.trailer) := by simp [Format.encode]
          rw [h4]
          exact List.take_left' (by simp [f.magic_length])
        rw [← h3, h, List.take_append_of_le_length (by omega)]
      calc t = t.take 20 ++ t.drop 20 := (List.take_append_drop 20 t).symm
        _ = _ := by rw [h2]; simp
    have hl : ofLe (le 8 p.length) = p.length := ofLe_le (lt_of_le_of_lt hp f.limit_lt)
    rw [h1, scan_fields f.magic_length (by simp) (by simp), hl]
    rw [if_neg (by simp), if_neg (by omega), if_pos (by simp; omega)]

theorem exists_fields {bytes : List UInt8} (h : 20 ≤ bytes.length) :
    ∃ m l s body, bytes = m ++ (l ++ (s ++ body)) ∧ m.length = 4 ∧ l.length = 8 ∧ s.length = 8 := by
  refine ⟨bytes.take 4, (bytes.drop 4).take 8, (bytes.drop 12).take 8, bytes.drop 20, ?_, ?_, ?_, ?_⟩
  · rw [show bytes.drop 20 = (bytes.drop 12).drop 8 by rw [List.drop_drop],
      List.take_append_drop, show bytes.drop 12 = (bytes.drop 4).drop 8 by rw [List.drop_drop],
      List.take_append_drop, List.take_append_drop]
  all_goals simp; omega

/-- **What is read is well formed**: the string starts with the record of its payload. -/
theorem scan_record_eq {bytes p rest : List UInt8} (h : scan f bytes = .record p rest) :
    bytes = f.encode p ++ rest ∧ p.length ≤ f.limit := by
  by_cases h20 : bytes.length < 20
  · simp [scan, h20] at h
  obtain ⟨m, l, s, body, rfl, hm4, hl8, hs8⟩ := exists_fields (not_lt.1 h20)
  rw [scan_fields hm4 hl8 hs8] at h
  split at h
  · cases h
  rename_i hm
  split at h
  · cases h
  rename_i hlim
  split at h
  · cases h
  rename_i hlen
  split at h
  · cases h
  rename_i htr
  split at h
  · cases h
  rename_i hsum
  cases h
  push Not at hm htr hsum
  have hp : (body.take (ofLe l)).length = ofLe l := by rw [List.length_take]; omega
  have h1 : le 8 (ofLe l) = l := by rw [← hl8, le_ofLe]
  have h2 : le 8 (ofLe s) = s := by rw [← hs8, le_ofLe]
  refine ⟨?_, by omega⟩
  have hb : body = body.take (ofLe l) ++ (f.trailer ++ body.drop (ofLe l + 4)) := by
    rw [← htr, ← List.drop_drop, List.take_append_drop, List.take_append_drop]
  unfold Format.encode
  rw [hp, hsum, h1, h2, hm]
  nth_rewrite 1 [hb]
  simp only [List.append_assoc]

/-- A record consumes bytes. -/
theorem scan_rest_lt {bytes p rest : List UInt8} (h : scan f bytes = .record p rest) :
    rest.length + (20 + p.length + 4) = bytes.length := by
  rw [(scan_record_eq h).1, List.length_append, length_encode]
  omega

/-- Fuel beyond the length of the string changes nothing. -/
theorem scanLog_fuel {n n' : ℕ} {s : σ} {offset : ℕ} {bytes : List UInt8}
    (h : bytes.length ≤ n) (h' : bytes.length ≤ n') :
    scanLog f accept damaged n s offset bytes = scanLog f accept damaged n' s offset bytes := by
  induction n generalizing n' s offset bytes with
  | zero =>
    obtain rfl : bytes = [] := List.length_eq_zero_iff.1 (by omega)
    cases n' <;> simp [scanLog]
  | succ n ih =>
    cases n' with
    | zero =>
      obtain rfl : bytes = [] := List.length_eq_zero_iff.1 (by omega)
      simp [scanLog]
    | succ n' =>
      by_cases hb : bytes = []
      · simp [scanLog, hb]
      · simp only [scanLog, if_neg hb]
        cases hs : scan f bytes with
        | incomplete => rfl
        | damaged d => rfl
        | record p rest =>
          have hlt := scan_rest_lt hs
          simp only
          cases accept s offset p with
          | error e => rfl
          | ok s' => exact ih (by omega) (by omega)

/-- **Whole records are accepted in order**, whatever follows them. -/
theorem scanLog_records {ps : List (List UInt8)} (hp : ∀ p ∈ ps, p.length ≤ f.limit)
    {n : ℕ} {s : σ} {offset : ℕ} {tail : List UInt8}
    (hn : (ps.flatMap f.encode ++ tail).length ≤ n) :
    scanLog f accept damaged n s offset (ps.flatMap f.encode ++ tail) =
      match acceptAll accept s offset ps with
      | .ok (s', offset') => scanLog f accept damaged tail.length s' offset' tail
      | .error e => .error e := by
  induction ps generalizing n s offset with
  | nil => exact scanLog_fuel hn le_rfl
  | cons p ps ih =>
    have hlen : (List.flatMap f.encode (p :: ps) ++ tail).length =
        20 + p.length + 4 + (ps.flatMap f.encode ++ tail).length := by
      simp only [List.flatMap_cons, List.length_append, length_encode]; omega
    cases n with
    | zero => omega
    | succ n =>
      have hne : List.flatMap f.encode (p :: ps) ++ tail ≠ [] := by
        intro h0
        rw [h0, List.length_nil] at hlen
        omega
      simp only [scanLog, if_neg hne]
      rw [List.flatMap_cons, List.append_assoc, scan_encode (hp p (by simp))]
      simp only [acceptAll]
      cases accept s offset p with
      | error e => rfl
      | ok s' => exact ih (fun q hq => hp q (by simp [hq])) (by omega)

theorem acceptAll_append (s : σ) (offset : ℕ) (ps qs : List (List UInt8)) :
    acceptAll accept s offset (ps ++ qs) =
      match acceptAll accept s offset ps with
      | .ok (s', offset') => acceptAll accept s' offset' qs
      | .error e => .error e := by
  induction ps generalizing s offset with
  | nil => rfl
  | cons p ps ih =>
    simp only [List.cons_append, acceptAll]
    cases accept s offset p with
    | ok s' => exact ih s' _
    | error e => rfl

/-- One whole record and nothing behind it. -/
theorem scanLog_encode {p : List UInt8} (hp : p.length ≤ f.limit) {n : ℕ} {s s' : σ} {offset : ℕ}
    (ha : accept s offset p = .ok s') (hn : (f.encode p).length ≤ n) :
    scanLog f accept damaged n s offset (f.encode p) =
      .ok (s', offset + (20 + p.length + 4)) := by
  have hone : [p].flatMap f.encode ++ [] = f.encode p := by simp
  have hps : ∀ q ∈ [p], q.length ≤ f.limit := by simpa using hp
  rw [← hone, scanLog_records hps (by rwa [hone])]
  simp [acceptAll, ha, scanLog]

/-- **What a scan accepted**: whole records in order, and an incomplete rest or nothing. -/
theorem scanLog_ok {n : ℕ} {s s' : σ} {offset offset' : ℕ} {bytes : List UInt8}
    (hn : bytes.length ≤ n) (h : scanLog f accept damaged n s offset bytes = .ok (s', offset')) :
    ∃ ps tail, bytes = ps.flatMap f.encode ++ tail ∧ (∀ p ∈ ps, p.length ≤ f.limit) ∧
      acceptAll accept s offset ps = .ok (s', offset') ∧
      offset' = offset + (ps.flatMap f.encode).length ∧ (tail = [] ∨ scan f tail = .incomplete) := by
  induction n generalizing s offset bytes with
  | zero =>
    obtain rfl : bytes = [] := List.length_eq_zero_iff.1 (by omega)
    cases h
    exact ⟨[], [], rfl, by simp, rfl, rfl, .inl rfl⟩
  | succ n ih =>
    simp only [scanLog] at h
    split at h
    · rename_i hb
      cases h
      exact ⟨[], [], hb, by simp, rfl, rfl, .inl rfl⟩
    · cases hs : scan f bytes with
      | incomplete =>
        rw [hs] at h
        cases h
        exact ⟨[], bytes, rfl, by simp, rfl, rfl, .inr hs⟩
      | damaged d => rw [hs] at h; cases h
      | record p rest =>
        rw [hs] at h
        simp only at h
        obtain ⟨hb, hp⟩ := scan_record_eq hs
        have hlt := scan_rest_lt hs
        cases ha : accept s offset p with
        | error e => rw [ha] at h; cases h
        | ok t =>
          rw [ha] at h
          obtain ⟨ps, tail, h1, h2, h3, h4, h5⟩ := ih (by omega) h
          refine ⟨p :: ps, tail, ?_, ?_, ?_, ?_, h5⟩
          · rw [hb, h1]; simp
          · intro q hq
            rcases List.mem_cons.1 hq with rfl | hq
            · exact hp
            · exact h2 q hq
          · simp only [acceptAll, ha, h3]
          · rw [h4, List.flatMap_cons, List.length_append, length_encode]; omega

/-- Scans that accept the same payloads read the same logs, whatever their errors. -/
theorem scanLog_agrees {ε' : Type} {accept' : σ → ℕ → List UInt8 → Except ε' σ}
    {damaged' : ℕ → Damage → ε'}
    (h : ∀ s offset p s', accept s offset p = .ok s' ↔ accept' s offset p = .ok s') (n : ℕ) (s : σ)
    (offset : ℕ) (bytes : List UInt8) (r : σ × ℕ) :
    scanLog f accept damaged n s offset bytes = .ok r ↔
      scanLog f accept' damaged' n s offset bytes = .ok r := by
  induction n generalizing s offset bytes with
  | zero => simp [scanLog]
  | succ n ih =>
    simp only [scanLog]
    split
    · simp
    · cases scan f bytes with
      | incomplete => simp
      | damaged d => simp
      | record p rest =>
        simp only
        have hs := h s offset p
        cases ha : accept s offset p with
        | ok s' =>
          rw [(hs s').1 ha]
          exact ih _ _ _
        | error e =>
          cases ha' : accept' s offset p with
          | ok s' =>
            rw [(hs s').2 ha'] at ha
            cases ha
          | error e' => simp

/-- A torn record, or nothing, ends the scan. -/
theorem scanLog_torn {p t more : List UInt8} (hp : p.length ≤ f.limit)
    (h : f.encode p = t ++ more) (hm : more ≠ []) {n : ℕ} {s : σ} {offset : ℕ} :
    scanLog f accept damaged n s offset t = .ok (s, offset) := by
  cases n with
  | zero => rfl
  | succ n =>
    by_cases ht : t = []
    · simp [scanLog, ht]
    · simp [scanLog, ht, scan_torn hp h hm]

/-- The changed length field of `f.encode p` points behind the end of the file. -/
def Overruns (f : Format) (p rest : List UInt8) (i : ℕ) (b : UInt8) : Prop :=
  (4 ≤ i ∧ i < 12) ∧ ofLe ((le 8 p.length).set (i - 4) b) ≤ f.limit ∧
    p.length + rest.length < ofLe ((le 8 p.length).set (i - 4) b)

instance (f : Format) (p rest : List UInt8) (i : ℕ) (b : UInt8) : Decidable (Overruns f p rest i b) :=
  inferInstanceAs (Decidable (_ ∧ _))

theorem set_ne {l : List UInt8} {i : ℕ} {b c : UInt8} (hc : l[i]? = some c) (hb : b ≠ c) :
    l.set i b ≠ l := by
  intro h
  have hi : i < l.length := (List.getElem?_eq_some_iff.1 hc).1
  have h1 : (l.set i b)[i]? = some b := by simp [hi]
  rw [h, hc] at h1
  exact hb (Option.some.inj h1).symm

/-- A changed byte of a payload changes its checksum. -/
theorem checksum_set_ne {l : List UInt8} {i : ℕ} {b c : UInt8} (hc : l[i]? = some c) (hb : b ≠ c) :
    checksum (l.set i b) ≠ checksum l := by
  obtain ⟨hi, hv⟩ := List.getElem?_eq_some_iff.1 hc
  have h1 : l = l.take i ++ c :: l.drop (i + 1) := by
    rw [← hv, ← List.drop_eq_getElem_cons hi, List.take_append_drop]
  have h2 : l.set i b = l.take i ++ b :: l.drop (i + 1) := List.set_eq_take_append_cons_drop.trans
    (if_pos hi)
  intro h
  rw [h2] at h
  nth_rewrite 3 [h1] at h
  exact Fnv.fnv1a_middle_ne _ _ hb (UInt64.toNat_inj.1 h)

/-- **One changed byte of a complete record.** The scan calls the record incomplete exactly
when its length field now points behind the end. Otherwise it reports damage, or reads a
payload that is cut short or runs on. -/
theorem scan_altered {p : List UInt8} (hp : p.length ≤ f.limit) {i : ℕ} {b c : UInt8}
    (hc : (f.encode p)[i]? = some c) (hb : b ≠ c) (rest : List UInt8) :
    if Overruns f p rest i b then scan f ((f.encode p).set i b ++ rest) = .incomplete
    else (∃ d, scan f ((f.encode p).set i b ++ rest) = .damaged d) ∨
      ∃ q rest', scan f ((f.encode p).set i b ++ rest) = .record q rest' ∧ q ≠ p ∧
        (q <+: p ∨ p <+: q) := by
  have hm := f.magic_length
  have ht := f.trailer_length
  have hi : i < 20 + p.length + 4 := by
    rw [← length_encode f p]; exact (List.getElem?_eq_some_iff.1 hc).1
  have hl : ofLe (le 8 p.length) = p.length := ofLe_le (lt_of_le_of_lt hp f.limit_lt)
  have hs : ofLe (le 8 (checksum p)) = checksum p := ofLe_le (checksum_lt p)
  have hL : (le 8 p.length).length = 8 := by simp
  have hS : (le 8 (checksum p)).length = 8 := by simp
  unfold Format.encode at hc ⊢
  by_cases h4 : i < 4
  · -- the magic
    rw [List.getElem?_append_left (by omega)] at hc
    rw [if_neg (by unfold Overruns; omega)]
    left
    rw [List.set_append, if_pos (by omega)]
    simp only [List.append_assoc]
    rw [scan_fields (by simp [hm]) hL hS, if_pos (set_ne hc hb)]
    exact ⟨_, rfl⟩
  by_cases h12 : i < 12
  · -- the length field
    rw [List.getElem?_append_right (by omega), hm,
      List.getElem?_append_left (by omega)] at hc
    have hset : (f.magic ++ (le 8 p.length ++ (le 8 (checksum p) ++ (p ++ f.trailer)))).set i b =
        f.magic ++ ((le 8 p.length).set (i - 4) b ++ (le 8 (checksum p) ++ (p ++ f.trailer))) := by
      rw [List.set_append, if_neg (by omega), hm, List.set_append, if_pos (by omega)]
    rw [hset]
    simp only [List.append_assoc]
    rw [scan_fields hm (by simp) hS, if_neg (not_not.2 rfl), hs]
    set n := ofLe ((le 8 p.length).set (i - 4) b) with hn
    have hne : n ≠ p.length := by
      intro h
      refine set_ne hc hb (ofLe_inj (by simp) ?_)
      rw [← hn, h, hl]
    have hlen : (p ++ (f.trailer ++ rest)).length = p.length + 4 + rest.length := by
      simp only [List.length_append, ht]; omega
    by_cases ho : Overruns f p rest i b
    · rw [if_pos ho]
      obtain ⟨-, h1, h2⟩ := ho
      rw [← hn] at h1 h2
      rw [if_neg (by omega), if_pos (by rw [hlen]; omega)]
    · rw [if_neg ho]
      by_cases h1 : f.limit < n
      · left; rw [if_pos h1]; exact ⟨_, rfl⟩
      have h2 : n ≤ p.length + rest.length := by
        by_contra h2
        exact ho ⟨⟨by omega, h12⟩, by rw [← hn]; omega, by rw [← hn]; omega⟩
      rw [if_neg h1, if_neg (by rw [hlen]; omega)]
      split
      · left; exact ⟨_, rfl⟩
      split
      · left; exact ⟨_, rfl⟩
      · right
        refine ⟨_, _, rfl, ?_, ?_⟩
        · intro h
          have := congrArg List.length h
          rw [List.length_take, hlen] at this
          omega
        · rcases Nat.lt_or_ge n p.length with h3 | h3
          · left
            rw [List.take_append_of_le_length (by omega)]
            exact List.take_prefix n p
          · right
            refine ⟨(f.trailer ++ rest).take (n - p.length), ?_⟩
            have hpn : p.take n = p := List.take_of_length_le h3
            calc p ++ (f.trailer ++ rest).take (n - p.length)
                = p.take n ++ (f.trailer ++ rest).take (n - p.length) := by rw [hpn]
              _ = (p ++ (f.trailer ++ rest)).take n := List.take_append.symm
  have hO : ¬ Overruns f p rest i b := by unfold Overruns; omega
  rw [if_neg hO]
  left
  by_cases h20 : i < 20
  · -- the stored checksum
    rw [List.getElem?_append_right (by omega), List.getElem?_append_right (by omega),
      List.getElem?_append_left (by omega)] at hc
    rw [List.set_append, if_neg (by omega), List.set_append, if_neg (by omega), List.set_append,
      if_pos (by omega)]
    simp only [List.append_assoc]
    rw [scan_fields hm hL (by simp), hl, if_neg (by simp), if_neg (by omega),
      if_neg (by simp; omega)]
    split
    · exact ⟨_, rfl⟩
    rw [List.take_left, if_pos]
    · exact ⟨_, rfl⟩
    · intro h
      refine set_ne hc hb (ofLe_inj (by simp) ?_)
      rw [← h, hs]
  have hget : (p ++ f.trailer)[i - 20]? = some c := by
    rw [List.getElem?_append_right (by omega), List.getElem?_append_right (by omega),
      List.getElem?_append_right (by omega)] at hc
    rw [← hc]; congr 1; omega
  rw [List.set_append, if_neg (by omega), List.set_append, if_neg (by omega), List.set_append,
    if_neg (by omega), show i - f.magic.length - (le 8 p.length).length -
      (le 8 (checksum p)).length = i - 20 by omega]
  simp only [List.append_assoc]
  rw [scan_fields hm hL hS, hl, hs, if_neg (by simp), if_neg (by omega), if_neg (by simp; omega)]
  by_cases hpay : i - 20 < p.length
  · -- the payload
    rw [List.getElem?_append_left hpay] at hget
    rw [List.set_append, if_pos hpay]
    simp only [List.append_assoc]
    have htake : (p.set (i - 20) b ++ (f.trailer ++ rest)).take p.length = p.set (i - 20) b :=
      List.take_left' (by simp)
    rw [List.drop_left' (by simp), htake, List.take_left' ht, if_neg (not_not.2 rfl),
      if_pos (checksum_set_ne hget hb)]
    exact ⟨_, rfl⟩
  · -- the trailer
    rw [List.getElem?_append_right (by omega)] at hget
    rw [List.set_append, if_neg hpay]
    simp only [List.append_assoc]
    rw [List.drop_left, List.take_left' (by simp [ht]), if_pos (set_ne hget hb)]
    exact ⟨_, rfl⟩

/-- **One changed byte in a log.** When no cut-short or overlong payload is accepted in the
place of `p`, the log is refused, unless the changed length field overruns the file: then
everything from the record on is dropped. -/
theorem scanLog_altered {ps : List (List UInt8)} (hps : ∀ q ∈ ps, q.length ≤ f.limit)
    {p : List UInt8} (hp : p.length ≤ f.limit) {i : ℕ} {b c : UInt8}
    (hc : (f.encode p)[i]? = some c) (hb : b ≠ c) (rest : List UInt8) {s s' : σ}
    {offset offset' : ℕ} (hpre : acceptAll accept s offset ps = .ok (s', offset'))
    (hq : ∀ q, q ≠ p → q <+: p ∨ p <+: q → ∃ e, accept s' offset' q = .error e) {n : ℕ}
    (hn : (ps.flatMap f.encode ++ ((f.encode p).set i b ++ rest)).length ≤ n) :
    if Overruns f p rest i b then
      scanLog f accept damaged n s offset (ps.flatMap f.encode ++ ((f.encode p).set i b ++ rest)) =
        .ok (s', offset')
    else ∃ e, scanLog f accept damaged n s offset
      (ps.flatMap f.encode ++ ((f.encode p).set i b ++ rest)) = .error e := by
  have h := scan_altered hp hc hb rest
  rw [scanLog_records hps hn, hpre]
  simp only
  set tail := (f.encode p).set i b ++ rest with htail
  have hlen : tail.length = 20 + p.length + 4 + rest.length := by simp [htail]
  have hne : tail ≠ [] := by
    intro h0
    rw [h0, List.length_nil] at hlen
    omega
  obtain ⟨n', hn'⟩ : ∃ n', tail.length = n' + 1 := ⟨19 + p.length + 4 + rest.length, by omega⟩
  rw [hn']
  simp only [scanLog, if_neg hne]
  by_cases ho : Overruns f p rest i b
  · rw [if_pos ho] at h ⊢
    rw [h]
  · rw [if_neg ho] at h ⊢
    rcases h with ⟨d, hd⟩ | ⟨q, rest', hd, hqp, hpre'⟩
    · rw [hd]; exact ⟨_, rfl⟩
    · obtain ⟨e, he⟩ := hq q hqp hpre'
      rw [hd]
      simp only [he]
      exact ⟨_, rfl⟩

end RecordLog
