import ForthDB.Lib.Bytes

/-!
# FNV-1a, 64 bits

The hash absorbs one byte by `xor` and a multiplication with an odd prime. Both
are invertible on 64-bit words, so hashing a fixed tail is injective in the state
before it (`fnv1a_inj`) and **a change of exactly one byte always changes the
hash** (`fnv1a_set_ne`).
-/

namespace Fnv

/-- The offset basis. -/
def offsetBasis : UInt64 := 0xcbf29ce484222325

/-- The 64-bit FNV prime. -/
def prime : UInt64 := 0x100000001b3

/-- Absorb one byte. -/
def absorb (hash : UInt64) (byte : UInt8) : UInt64 := (hash ^^^ byte.toUInt64) * prime

/-- Absorb a byte string from a given state. -/
def fnv1aFrom (hash : UInt64) (bytes : List UInt8) : UInt64 := bytes.foldl absorb hash

/-- The hash of a byte string. -/
def fnv1a (bytes : List UInt8) : UInt64 := fnv1aFrom offsetBasis bytes

@[simp] theorem fnv1aFrom_nil (h : UInt64) : fnv1aFrom h [] = h := rfl

@[simp] theorem fnv1aFrom_cons (h : UInt64) (b : UInt8) (bs : List UInt8) :
    fnv1aFrom h (b :: bs) = fnv1aFrom (absorb h b) bs := rfl

theorem fnv1aFrom_append (h : UInt64) (as bs : List UInt8) :
    fnv1aFrom h (as ++ bs) = fnv1aFrom (fnv1aFrom h as) bs := List.foldl_append

/-- The inverse of the prime modulo `2 ^ 64`. -/
def primeInv : UInt64 := 0xce965057aff6957b

theorem mul_prime_inj {a b : UInt64} (h : a * prime = b * prime) : a = b := by
  have hp : prime * primeInv = 1 := by decide
  have := congrArg (· * primeInv) h
  simpa [UInt64.mul_assoc, hp] using this

theorem xor_left_inj {a b c : UInt64} (h : a ^^^ c = b ^^^ c) : a = b := by
  have := congrArg (· ^^^ c) h
  simpa [UInt64.xor_assoc] using this

theorem xor_right_inj {a b c : UInt64} (h : c ^^^ a = c ^^^ b) : a = b :=
  xor_left_inj (c := c) (by rwa [UInt64.xor_comm a, UInt64.xor_comm b])

theorem absorb_inj {a b : UInt64} {x : UInt8} (h : absorb a x = absorb b x) : a = b :=
  xor_left_inj (mul_prime_inj h)

theorem absorb_byte_inj {a : UInt64} {x y : UInt8} (h : absorb a x = absorb a y) : x = y := by
  have h1 : x.toUInt64 = y.toUInt64 := xor_right_inj (mul_prime_inj h)
  have h2 := congrArg UInt64.toNat h1
  simp only [UInt8.toNat_toUInt64] at h2
  exact UInt8.toNat_inj.1 h2

/-- Hashing a fixed tail is injective in the state before it. -/
theorem fnv1aFrom_inj {a b : UInt64} (bs : List UInt8)
    (h : fnv1aFrom a bs = fnv1aFrom b bs) : a = b := by
  induction bs generalizing a b with
  | nil => exact h
  | cons x bs ih => exact absorb_inj (ih h)

/-- **Every one-byte change is detected.** -/
theorem fnv1a_middle_ne (as bs : List UInt8) {x y : UInt8} (hxy : x ≠ y) :
    fnv1a (as ++ x :: bs) ≠ fnv1a (as ++ y :: bs) := by
  intro h
  simp only [fnv1a, fnv1aFrom_append, fnv1aFrom_cons] at h
  exact hxy (absorb_byte_inj (fnv1aFrom_inj bs h))

end Fnv
