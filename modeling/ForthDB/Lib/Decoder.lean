import ForthDB.Lib.Bytes

/-!
# Decoders over a byte cursor

A decoder reads from a cursor and either fails with a message or returns a value
and the cursor behind what it read. Two properties carry every codec proof:

* `Reads d bs a`: in front of any rest, `d` reads exactly `bs` and returns `a`.
* `Stable d`: what `d` returns depends only on the bytes it read. Then no byte
  string that decodes as a whole is a proper prefix of another one
  (`decodeAll_prefix`).

`Agrees d d'`: the two decoders succeed alike; their messages may differ.

`Spells d enc`: whatever `d` returns is spelled by `enc`, so that no two byte strings
are read as the same value (`encode_of_decodeAll`).

`Yields d P`: whatever `d` returns is well formed.
-/

namespace Decode

open Bytes

/-- The unread bytes, and how many were read before them. -/
structure Cursor where
  rest : List UInt8
  pos : ℕ
deriving DecidableEq, Repr

/-- A decoder: a value and the cursor behind it, or a message. -/
def Decoder (α : Type) : Type := Cursor → Except String (α × Cursor)

variable {α β : Type}

namespace Decoder

protected def pure (a : α) : Decoder α := fun c => .ok (a, c)

protected def bind (d : Decoder α) (f : α → Decoder β) : Decoder β := fun c =>
  match d c with
  | .ok (a, c') => f a c'
  | .error e => .error e

instance : Monad Decoder where
  pure := Decoder.pure
  bind := Decoder.bind

end Decoder

/-- Fail with a message. -/
def fail (message : String) : Decoder α := fun _ => .error message

/-- The next `n` bytes; `eof` words the failure from the position and `n`. -/
def take (eof : ℕ → ℕ → String) (n : ℕ) : Decoder (List UInt8) := fun c =>
  if n ≤ c.rest.length then .ok (c.rest.take n, ⟨c.rest.drop n, c.pos + n⟩)
  else .error (eof c.pos n)

/-- A little-endian number of `k` bytes. -/
def number (eof : ℕ → ℕ → String) (k : ℕ) : Decoder ℕ := do
  let bytes ← take eof k
  pure (ofLe bytes)

/-- `n` values in a row. -/
def times : ℕ → Decoder α → Decoder (List α)
  | 0, _ => pure []
  | n + 1, d => do
    let a ← d
    let as ← times n d
    pure (a :: as)

/-- Decode a whole byte string: the decoder must read all of it. -/
def decodeAll (trailing : ℕ → String) (d : Decoder α) (bytes : List UInt8) : Except String α :=
  match d ⟨bytes, 0⟩ with
  | .ok (a, c) => if c.rest = [] then .ok a else .error (trailing c.rest.length)
  | .error e => .error e

@[simp] theorem pure_apply (a : α) (c : Cursor) : (pure a : Decoder α) c = .ok (a, c) := rfl

theorem bind_apply (d : Decoder α) (f : α → Decoder β) (c : Cursor) :
    (d >>= f) c = match d c with
      | .ok (a, c') => f a c'
      | .error e => .error e := rfl

theorem bind_ok {d : Decoder α} {f : α → Decoder β} {c c'' : Cursor} {b : β}
    (h : (d >>= f) c = .ok (b, c'')) : ∃ a c', d c = .ok (a, c') ∧ f a c' = .ok (b, c'') := by
  rw [bind_apply] at h
  split at h
  · rename_i a c' heq; exact ⟨a, c', heq, h⟩
  · cases h

/-- In front of any rest, `d` reads exactly `bs` and returns `a`. -/
def Reads (d : Decoder α) (bs : List UInt8) (a : α) : Prop :=
  ∀ rest pos, d ⟨bs ++ rest, pos⟩ = .ok (a, ⟨rest, pos + bs.length⟩)

/-- What `d` returns depends only on the bytes it read. -/
def Stable (d : Decoder α) : Prop :=
  ∀ bs pos a c, d ⟨bs, pos⟩ = .ok (a, c) →
    ∃ used, bs = used ++ c.rest ∧ c.pos = pos + used.length ∧
      ∀ rest, d ⟨used ++ rest, pos⟩ = .ok (a, ⟨rest, c.pos⟩)

theorem reads_pure (a : α) : Reads (pure a) [] a := by
  intro rest pos; simp

theorem Reads.bind {d : Decoder α} {f : α → Decoder β} {as bs : List UInt8} {a : α} {b : β}
    (hd : Reads d as a) (hf : Reads (f a) bs b) : Reads (d >>= f) (as ++ bs) b := by
  intro rest pos
  rw [bind_apply, List.append_assoc, hd]
  simp only
  rw [hf, List.length_append, Nat.add_assoc]

/-- Reading a value and returning a function of it. -/
theorem Reads.bind_pure {d : Decoder α} {bs : List UInt8} {a : α} (g : α → β)
    (hd : Reads d bs a) : Reads (d >>= fun x => pure (g x)) bs (g a) := by
  intro rest pos
  rw [bind_apply, hd]
  rfl

/-- A step that reads nothing, after one that does. -/
theorem Reads.bind_nil {d : Decoder α} {f : α → Decoder β} {bs : List UInt8} {a : α} {b : β}
    (hd : Reads d bs a) (hf : Reads (f a) [] b) : Reads (d >>= f) bs b := by
  have := hd.bind hf
  rwa [List.append_nil] at this

theorem reads_take (eof : ℕ → ℕ → String) (bs : List UInt8) : Reads (take eof bs.length) bs bs := by
  intro rest pos
  simp [take]

theorem reads_number {eof : ℕ → ℕ → String} {k n : ℕ} (h : n < 256 ^ k) :
    Reads (number eof k) (le k n) n := by
  have ht := reads_take eof (le k n)
  rw [length_le] at ht
  have := ht.bind_pure ofLe
  rwa [ofLe_le h] at this

theorem reads_u64 {eof : ℕ → ℕ → String} {n : ℕ} (h : n < 2 ^ 64) :
    Reads (number eof 8) (le 8 n) n := reads_number h

theorem reads_u32 {eof : ℕ → ℕ → String} {n : ℕ} (h : n < 2 ^ 32) :
    Reads (number eof 4) (le 4 n) n := reads_number h

theorem reads_times {d : Decoder α} {enc : α → List UInt8} :
    ∀ as : List α, (∀ a ∈ as, Reads d (enc a) a) → Reads (times as.length d) (as.flatMap enc) as := by
  intro as
  induction as with
  | nil => intro _; exact reads_pure []
  | cons a as ih =>
    intro h
    have h1 := h a (by simp)
    have h2 := ih fun x hx => h x (by simp [hx])
    exact h1.bind (h2.bind_pure (a :: ·))

/-- **What one decoder reads is unambiguous**: two encodings it reads in front of two rests
agree when the whole strings do. -/
theorem Reads.append_inj {d : Decoder α} {as bs xs ys : List UInt8} {a b : α} (ha : Reads d as a)
    (hb : Reads d bs b) (h : as ++ xs = bs ++ ys) : a = b ∧ xs = ys := by
  have h1 := ha xs 0
  rw [h, hb ys 0] at h1
  simp only [Except.ok.injEq, Prod.mk.injEq, Cursor.mk.injEq] at h1
  obtain ⟨hab, hrest, -⟩ := h1
  exact ⟨hab.symm, hrest.symm⟩

theorem stable_pure (a : α) : Stable (pure a) := by
  intro bs pos b c h
  cases h
  exact ⟨[], by simp, by simp, fun rest => rfl⟩

theorem stable_fail (m : String) : Stable (fail m : Decoder α) := by
  intro bs pos a c h; cases h

theorem Stable.bind {d : Decoder α} {f : α → Decoder β} (hd : Stable d) (hf : ∀ a, Stable (f a)) :
    Stable (d >>= f) := by
  intro bs pos b c h
  obtain ⟨a, c', h1, h2⟩ := bind_ok h
  obtain ⟨u, hu, hp, hr⟩ := hd _ _ _ _ h1
  obtain ⟨v, hv, hq, hs⟩ := hf a c'.rest c'.pos b c h2
  refine ⟨u ++ v, by rw [hu, hv, List.append_assoc], by rw [hq, hp, List.length_append]; omega, ?_⟩
  intro rest
  rw [bind_apply, List.append_assoc, hr]
  exact hs rest

theorem stable_take (eof : ℕ → ℕ → String) (n : ℕ) : Stable (take eof n) := by
  intro bs pos a c h
  unfold take at h
  split at h
  · rename_i hn
    cases h
    have hl : (bs.take n).length = n := by simpa using hn
    refine ⟨bs.take n, by simp, by simp [hl], ?_⟩
    intro rest
    have := reads_take eof (bs.take n) rest pos
    rwa [hl] at this
  · cases h

theorem stable_number (eof : ℕ → ℕ → String) (k : ℕ) : Stable (number eof k) :=
  (stable_take eof k).bind fun _ => stable_pure _

theorem stable_times {d : Decoder α} (hd : Stable d) : ∀ n, Stable (times n d) := by
  intro n
  induction n with
  | zero => exact stable_pure []
  | succ n ih => exact hd.bind fun _ => ih.bind fun _ => stable_pure _

theorem length_of_times {d : Decoder α} {n : ℕ} {c c' : Cursor} {as : List α}
    (h : times n d c = .ok (as, c')) : as.length = n := by
  induction n generalizing c as with
  | zero => cases h; rfl
  | succ n ih =>
    obtain ⟨a, c₁, -, h⟩ := bind_ok h
    obtain ⟨as', c₂, h', h⟩ := bind_ok h
    cases h
    rw [List.length_cons, ih h']

/-- Each of some values in a row was read by the decoder. -/
theorem mem_of_times {d : Decoder α} {n : ℕ} {c c' : Cursor} {as : List α}
    (h : times n d c = .ok (as, c')) : ∀ a ∈ as, ∃ c₁ c₂, d c₁ = .ok (a, c₂) := by
  induction n generalizing c as with
  | zero =>
    cases h
    intro a ha
    cases ha
  | succ n ih =>
    obtain ⟨b, c₁, hb, h⟩ := bind_ok h
    obtain ⟨bs, c₂, hbs, h⟩ := bind_ok h
    cases h
    exact List.forall_mem_cons.2 ⟨⟨c, c₁, hb⟩, ih hbs⟩

theorem number_lt {eof : ℕ → ℕ → String} {k n : ℕ} {c c' : Cursor}
    (h : number eof k c = .ok (n, c')) : n < 256 ^ k := by
  obtain ⟨bs, c₁, h1, h2⟩ := bind_ok h
  unfold take at h1
  split at h1
  · rename_i hk
    cases h1; cases h2
    have := ofLe_lt (c.rest.take k)
    rwa [List.length_take, min_eq_left hk] at this
  · cases h1

theorem decodeAll_of_reads {trailing : ℕ → String} {d : Decoder α} {bs : List UInt8} {a : α}
    (h : Reads d bs a) : decodeAll trailing d bs = .ok a := by
  have := h [] 0
  rw [List.append_nil] at this
  simp [decodeAll, this]

theorem decodeAll_ok {trailing : ℕ → String} {d : Decoder α} {bs : List UInt8} {a : α}
    (h : decodeAll trailing d bs = .ok a) : ∃ p, d ⟨bs, 0⟩ = .ok (a, ⟨[], p⟩) := by
  unfold decodeAll at h
  split at h
  · rename_i b c heq
    split at h
    · rename_i hc
      cases h
      exact ⟨c.pos, by rw [heq, ← hc]⟩
    · cases h
  · cases h

/-- **Self-delimiting.** A byte string that decodes as a whole is not a proper prefix of
another one. -/
theorem decodeAll_prefix {trailing : ℕ → String} {d : Decoder α} (hd : Stable d)
    {bs more : List UInt8} {a b : α} (h1 : decodeAll trailing d bs = .ok a)
    (h2 : decodeAll trailing d (bs ++ more) = .ok b) : more = [] := by
  obtain ⟨p, hp⟩ := decodeAll_ok h1
  obtain ⟨q, hq⟩ := decodeAll_ok h2
  obtain ⟨u, hu, -, hr⟩ := hd _ _ _ _ hp
  have := hr more
  rw [List.append_nil] at hu
  rw [← hu, hq] at this
  cases this; rfl

/-- The two decoders succeed on the same cursors, with the same result. -/
def Agrees (d d' : Decoder α) : Prop := ∀ c r, d c = .ok r ↔ d' c = .ok r

theorem Agrees.refl (d : Decoder α) : Agrees d d := fun _ _ => Iff.rfl

theorem Agrees.bind {d d' : Decoder α} {f f' : α → Decoder β} (hd : Agrees d d')
    (hf : ∀ a, Agrees (f a) (f' a)) : Agrees (d >>= f) (d' >>= f') := by
  intro c r
  obtain ⟨b, c''⟩ := r
  constructor
  · intro h
    obtain ⟨a, c', h1, h2⟩ := bind_ok h
    rw [bind_apply, (hd c _).1 h1]
    exact (hf a c' _).1 h2
  · intro h
    obtain ⟨a, c', h1, h2⟩ := bind_ok h
    rw [bind_apply, (hd c _).2 h1]
    exact (hf a c' _).2 h2

theorem agrees_fail (m m' : String) : Agrees (fail m : Decoder α) (fail m') :=
  fun _ _ => ⟨fun h => (nomatch h), fun h => (nomatch h)⟩

theorem agrees_take (eof eof' : ℕ → ℕ → String) (n : ℕ) : Agrees (take eof n) (take eof' n) := by
  intro c r
  unfold take
  split
  · exact Iff.rfl
  · exact ⟨fun h => (nomatch h), fun h => (nomatch h)⟩

theorem agrees_number (eof eof' : ℕ → ℕ → String) (k : ℕ) :
    Agrees (number eof k) (number eof' k) :=
  (agrees_take eof eof' k).bind fun _ => .refl _

theorem agrees_times {d d' : Decoder α} (h : Agrees d d') : ∀ n, Agrees (times n d) (times n d') := by
  intro n
  induction n with
  | zero => exact .refl _
  | succ n ih => exact h.bind fun _ => ih.bind fun _ => .refl _

theorem Agrees.decodeAll {d d' : Decoder α} (h : Agrees d d') (trailing trailing' : ℕ → String)
    (bs : List UInt8) (a : α) :
    decodeAll trailing d bs = .ok a ↔ Decode.decodeAll trailing' d' bs = .ok a := by
  constructor
  · intro hd
    obtain ⟨p, hp⟩ := decodeAll_ok hd
    simp [Decode.decodeAll, (h _ _).1 hp]
  · intro hd
    obtain ⟨p, hp⟩ := decodeAll_ok hd
    simp [Decode.decodeAll, (h _ _).2 hp]

/-- Whatever `d` returns satisfies `P`. -/
def Yields (d : Decoder α) (P : α → Prop) : Prop := ∀ c a c', d c = .ok (a, c') → P a

theorem yields_pure {P : α → Prop} {a : α} (h : P a) : Yields (pure a) P := by
  intro c b c' hb
  cases hb
  exact h

theorem yields_fail (m : String) (P : α → Prop) : Yields (fail m) P := by
  intro c a c' h
  cases h

theorem Yields.bind {d : Decoder α} {f : α → Decoder β} {P : α → Prop} {Q : β → Prop}
    (hd : Yields d P) (hf : ∀ a, P a → Yields (f a) Q) : Yields (d >>= f) Q := by
  intro c b c'' h
  obtain ⟨a, c', h1, h2⟩ := bind_ok h
  exact hf a (hd c a c' h1) c' b c'' h2

theorem yields_number (eof : ℕ → ℕ → String) (k : ℕ) : Yields (number eof k) (· < 256 ^ k) :=
  fun _ _ _ h => number_lt h

theorem yields_times {d : Decoder α} {P : α → Prop} (hd : Yields d P) (n : ℕ) :
    Yields (times n d) fun as => as.length = n ∧ ∀ a ∈ as, P a := by
  intro c as c' h
  refine ⟨length_of_times h, fun a ha => ?_⟩
  obtain ⟨c₁, c₂, hread⟩ := mem_of_times h a ha
  exact hd c₁ a c₂ hread

/-- What `d` read, behind the bytes `before` that were read already, spells what it returned. -/
def SpellsAfter (before : List UInt8) (d : Decoder α) (enc : α → List UInt8) : Prop :=
  ∀ c a c', d c = .ok (a, c') → before ++ c.rest = enc a ++ c'.rest

/-- What `d` read spells what it returned. -/
abbrev Spells (d : Decoder α) (enc : α → List UInt8) : Prop := SpellsAfter [] d enc

theorem spells_pure {before : List UInt8} {a : α} {enc : α → List UInt8} (h : enc a = before) :
    SpellsAfter before (pure a) enc := by
  intro c b c' hb
  cases hb
  rw [h]

theorem spells_fail (before : List UInt8) (m : String) (enc : α → List UInt8) :
    SpellsAfter before (fail m) enc := by
  intro c a c' h
  cases h

theorem SpellsAfter.bind {before : List UInt8} {d : Decoder α} {f : α → Decoder β}
    {encA : α → List UInt8} {enc : β → List UInt8} (hd : SpellsAfter before d encA)
    (hf : ∀ a, SpellsAfter (encA a) (f a) enc) : SpellsAfter before (d >>= f) enc := by
  intro c b c'' h
  obtain ⟨a, c', h1, h2⟩ := bind_ok h
  rw [hd c a c' h1]
  exact hf a c' b c'' h2

/-- Reading goes on behind what was read before. -/
theorem Spells.after {d : Decoder α} {enc : α → List UInt8} (hd : Spells d enc)
    (before : List UInt8) : SpellsAfter before d (fun a => before ++ enc a) := by
  intro c a c' h
  have hrest := hd c a c' h
  rw [List.nil_append] at hrest
  rw [hrest, List.append_assoc]

theorem Spells.bind {before : List UInt8} {d : Decoder α} {f : α → Decoder β}
    {encA : α → List UInt8} {enc : β → List UInt8} (hd : Spells d encA)
    (hf : ∀ a, SpellsAfter (before ++ encA a) (f a) enc) : SpellsAfter before (d >>= f) enc :=
  (hd.after before).bind hf

theorem take_ok {eof : ℕ → ℕ → String} {n : ℕ} {c c' : Cursor} {bs : List UInt8}
    (h : take eof n c = .ok (bs, c')) : bs.length = n ∧ c.rest = bs ++ c'.rest := by
  unfold take at h
  split at h
  · rename_i hn
    cases h
    exact ⟨by simpa using hn, (List.take_append_drop n c.rest).symm⟩
  · cases h

theorem spells_number (eof : ℕ → ℕ → String) (k : ℕ) : Spells (number eof k) (le k) := by
  intro c n c' h
  obtain ⟨bs, c₁, h1, h2⟩ := bind_ok h
  cases h2
  obtain ⟨hlen, hrest⟩ := take_ok h1
  rw [List.nil_append, hrest, ← hlen, le_ofLe]

theorem spells_times {d : Decoder α} {enc : α → List UInt8} (hd : Spells d enc) (n : ℕ) :
    Spells (times n d) (List.flatMap enc) := by
  induction n with
  | zero => exact spells_pure rfl
  | succ n ih =>
    refine Spells.bind hd fun a => Spells.bind ih fun as => spells_pure ?_
    simp

/-- A count and as many values. -/
theorem spells_counted {d : Decoder α} {enc : α → List UInt8} (hd : Spells d enc)
    (before : List UInt8) (k n : ℕ) : SpellsAfter (before ++ le k n) (times n d)
      (fun as => before ++ (le k as.length ++ as.flatMap enc)) := by
  intro c as c' h
  have hlen := length_of_times h
  have hrest := spells_times hd n c as c' h
  rw [List.nil_append] at hrest
  simp only [hrest, hlen, List.append_assoc]

/-- What a stable decoder consumes spells what it returns. -/
theorem Stable.consumes {d : Decoder α} {enc : α → List UInt8} (hs : Stable d) (hd : Spells d enc)
    {bs : List UInt8} {pos : ℕ} {a : α} {c : Cursor} (h : d ⟨bs, pos⟩ = .ok (a, c)) :
    bs = enc a ++ c.rest ∧ c.pos = pos + (enc a).length := by
  obtain ⟨used, hbs, hpos, -⟩ := hs bs pos a c h
  have hspelled : bs = enc a ++ c.rest := hd ⟨bs, pos⟩ a c h
  have hused : used = enc a := List.append_cancel_right (hbs.symm.trans hspelled)
  exact ⟨hspelled, by rw [hpos, hused]⟩

/-- **Only one byte string decodes to a value**: the one that spells it. -/
theorem encode_of_decodeAll {trailing : ℕ → String} {d : Decoder α} {enc : α → List UInt8}
    (hd : Spells d enc) {bs : List UInt8} {a : α} (h : decodeAll trailing d bs = .ok a) :
    enc a = bs := by
  obtain ⟨p, hp⟩ := decodeAll_ok h
  simpa using (hd _ _ _ hp).symm

end Decode
