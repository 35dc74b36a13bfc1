import Mathlib.Algebra.Order.Ring.Nat
import Mathlib.Algebra.Order.Group.Nat
import Mathlib.Tactic.Ring
import Mathlib.Tactic.Common

/-!
# Fixed-width numbers and text as bytes

* `le k n`, `be k n`: the `k` low bytes of `n`, least or most significant first.
* `ofLe`, `ofBe`: the number a byte string spells.
* `utf8`, `ofUtf8`: text to bytes and back.

Reading undoes writing for every number below `256 ^ k` (`ofLe_le`, `ofBe_be`),
and writing undoes reading (`le_ofLe`).
-/

namespace Bytes

/-- The `k` low bytes of `n`, least significant first. -/
def le : ℕ → ℕ → List UInt8
  | 0, _ => []
  | k + 1, n => UInt8.ofNat (n % 256) :: le k (n / 256)

/-- The number spelled by `bs`, least significant byte first. -/
def ofLe : List UInt8 → ℕ
  | [] => 0
  | b :: bs => b.toNat + 256 * ofLe bs

/-- The `k` low bytes of `n`, most significant first. -/
def be (k n : ℕ) : List UInt8 := (le k n).reverse

/-- The number spelled by `bs`, most significant byte first. -/
def ofBe (bs : List UInt8) : ℕ := ofLe bs.reverse

@[simp] theorem length_le (k n : ℕ) : (le k n).length = k := by
  induction k generalizing n with
  | zero => rfl
  | succ k ih => simp [le, ih]

@[simp] theorem length_be (k n : ℕ) : (be k n).length = k := by simp [be]

theorem ofLe_le_mod (k n : ℕ) : ofLe (le k n) = n % 256 ^ k := by
  induction k generalizing n with
  | zero => simp [le, ofLe, Nat.mod_one]
  | succ k ih =>
    have h : n % 256 % 2 ^ 8 = n % 256 := by omega
    simp only [le, ofLe, ih, UInt8.toNat_ofNat', h]
    rw [pow_succ', Nat.mod_mul]

theorem ofLe_le {k n : ℕ} (h : n < 256 ^ k) : ofLe (le k n) = n := by
  rw [ofLe_le_mod, Nat.mod_eq_of_lt h]

theorem ofBe_be {k n : ℕ} (h : n < 256 ^ k) : ofBe (be k n) = n := by
  simp [ofBe, be, ofLe_le h]

theorem ofLe_lt (bs : List UInt8) : ofLe bs < 256 ^ bs.length := by
  induction bs with
  | nil => simp [ofLe]
  | cons b bs ih =>
    have hb : b.toNat < 256 := b.toNat_lt
    simp only [ofLe, List.length_cons, pow_succ']
    omega

theorem ofBe_lt (bs : List UInt8) : ofBe bs < 256 ^ bs.length := by
  simpa [ofBe] using ofLe_lt bs.reverse

theorem ofLe_append (as bs : List UInt8) : ofLe (as ++ bs) = ofLe as + 256 ^ as.length * ofLe bs := by
  induction as with
  | nil => simp [ofLe]
  | cons a as ih =>
    rw [List.cons_append, ofLe, ofLe, ih, List.length_cons, pow_succ]
    ring

/-- The first byte counts most. -/
theorem ofBe_cons (b : UInt8) (bs : List UInt8) :
    ofBe (b :: bs) = b.toNat * 256 ^ bs.length + ofBe bs := by
  unfold ofBe
  rw [List.reverse_cons, ofLe_append, List.length_reverse]
  simp only [ofLe]
  ring

/-- The high bytes stand before the low ones. -/
theorem be_succ (k n : ℕ) : be (k + 1) n = UInt8.ofNat (n / 256 ^ k % 256) :: be k n := by
  unfold be
  rw [← List.reverse_concat]
  congr 1
  induction k generalizing n with
  | zero => simp [le]
  | succ k ih =>
    have hdiv : n / 256 / 256 ^ k = n / 256 ^ (k + 1) := by
      rw [Nat.div_div_eq_div_mul, pow_succ']
    rw [le, ih, hdiv, le]
    rfl

theorem le_ofLe (bs : List UInt8) : le bs.length (ofLe bs) = bs := by
  induction bs with
  | nil => rfl
  | cons b bs ih =>
    have hb : b.toNat < 256 := b.toNat_lt
    have h1 : (b.toNat + 256 * ofLe bs) % 256 = b.toNat := by omega
    have h2 : (b.toNat + 256 * ofLe bs) / 256 = ofLe bs := by omega
    simp [le, ofLe, h1, h2, ih]

/-- Only the low bytes are written. -/
theorem le_mod (k n : ℕ) : le k (n % 256 ^ k) = le k n := by
  have h := le_ofLe (le k n)
  rwa [length_le, ofLe_le_mod] at h

/-- Two byte strings of one length that spell the same number are equal. -/
theorem ofLe_inj {as bs : List UInt8} (hl : as.length = bs.length) (h : ofLe as = ofLe bs) :
    as = bs := by
  rw [← le_ofLe as, ← le_ofLe bs, hl, h]

theorem ofBe_inj {as bs : List UInt8} (hl : as.length = bs.length) (h : ofBe as = ofBe bs) :
    as = bs :=
  List.reverse_inj.1 (ofLe_inj (by simpa using hl) h)

/-- Text as UTF-8 bytes. -/
def utf8 (s : String) : List UInt8 := s.toByteArray.data.toList

/-- The text a byte string spells, if it is valid UTF-8. -/
def ofUtf8 (bs : List UInt8) : Option String := String.fromUTF8? ⟨bs.toArray⟩

@[simp] theorem ofUtf8_utf8 (s : String) : ofUtf8 (utf8 s) = some s := by
  unfold ofUtf8 utf8 String.fromUTF8?
  rw [dif_pos s.isValidUTF8]
  rfl

theorem utf8_of_ofUtf8 {bs : List UInt8} {s : String} (h : ofUtf8 bs = some s) : utf8 s = bs := by
  unfold ofUtf8 String.fromUTF8? at h
  split at h
  · cases h; rfl
  · cases h

theorem utf8_append (s t : String) : utf8 (s ++ t) = utf8 s ++ utf8 t := by
  unfold utf8
  rw [String.toByteArray_append]
  simp

/-- Only one character has a zero byte. -/
theorem zero_mem_utf8EncodeChar {c : Char} (h : 0 ∈ String.utf8EncodeChar c) : c.toNat = 0 := by
  have hv : c.val.toNat = c.toNat := rfl
  unfold String.utf8EncodeChar at h
  simp only [hv] at h
  split_ifs at h <;> simp only [List.mem_cons, List.not_mem_nil, or_false, ← UInt8.toNat_inj,
    UInt8.toNat_ofNat', UInt8.toNat_zero] at h <;> omega

theorem mem_utf8 {s : String} {b : UInt8} (h : b ∈ utf8 s) :
    ∃ c ∈ s.toList, b ∈ String.utf8EncodeChar c := by
  unfold utf8 at h
  rw [← String.utf8Encode_toList] at h
  unfold List.utf8Encode at h
  rw [List.data_toByteArray] at h
  exact List.mem_flatMap.1 h

theorem zero_mem_utf8 {s : String} (h : 0 ∈ utf8 s) : ∃ c ∈ s.toList, c.toNat = 0 := by
  obtain ⟨c, hc, hzero⟩ := mem_utf8 h
  exact ⟨c, hc, zero_mem_utf8EncodeChar hzero⟩

/-- A character of one byte. -/
theorem utf8EncodeChar_ascii {c : Char} (h : c.toNat ≤ 127) :
    String.utf8EncodeChar c = [UInt8.ofNat c.toNat] := by
  have hv : c.val.toNat = c.toNat := rfl
  unfold String.utf8EncodeChar
  simp only [hv, if_pos h]

theorem utf8_injective : Function.Injective utf8 := by
  intro s t h
  have := congrArg ofUtf8 h
  simpa using this

end Bytes
