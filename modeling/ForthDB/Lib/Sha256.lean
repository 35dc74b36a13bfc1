import ForthDB.Lib.Bytes

/-!
# SHA-256

The hash of FIPS 180-4 on byte strings, and its text in lower-case hexadecimal.

* `pad`: the message, one bit, zeros and the length in bits, to a whole number of blocks.
* `compress`: sixty-four rounds over the schedule of a block.
* `digest`, `hexdigest`: a digest is 32 bytes long (`length_digest`).
-/

namespace Sha256

open Bytes

/-- The eight words of a state, in order. -/
structure Working where
  a : UInt32
  b : UInt32
  c : UInt32
  d : UInt32
  e : UInt32
  f : UInt32
  g : UInt32
  h : UInt32

def initial : Working where
  a := 0x6a09e667
  b := 0xbb67ae85
  c := 0x3c6ef372
  d := 0xa54ff53a
  e := 0x510e527f
  f := 0x9b05688c
  g := 0x1f83d9ab
  h := 0x5be0cd19

def roundConstants : List UInt32 :=
  [0x428a2f98, 0x71374491, 0xb5c0fbcf, 0xe9b5dba5, 0x3956c25b, 0x59f111f1, 0x923f82a4, 0xab1c5ed5,
    0xd807aa98, 0x12835b01, 0x243185be, 0x550c7dc3, 0x72be5d74, 0x80deb1fe, 0x9bdc06a7, 0xc19bf174,
    0xe49b69c1, 0xefbe4786, 0x0fc19dc6, 0x240ca1cc, 0x2de92c6f, 0x4a7484aa, 0x5cb0a9dc, 0x76f988da,
    0x983e5152, 0xa831c66d, 0xb00327c8, 0xbf597fc7, 0xc6e00bf3, 0xd5a79147, 0x06ca6351, 0x14292967,
    0x27b70a85, 0x2e1b2138, 0x4d2c6dfc, 0x53380d13, 0x650a7354, 0x766a0abb, 0x81c2c92e, 0x92722c85,
    0xa2bfe8a1, 0xa81a664b, 0xc24b8b70, 0xc76c51a3, 0xd192e819, 0xd6990624, 0xf40e3585, 0x106aa070,
    0x19a4c116, 0x1e376c08, 0x2748774c, 0x34b0bcb5, 0x391c0cb3, 0x4ed8aa4a, 0x5b9cca4f, 0x682e6ff3,
    0x748f82ee, 0x78a5636f, 0x84c87814, 0x8cc70208, 0x90befffa, 0xa4506ceb, 0xbef9a3f7, 0xc67178f2]

def rotr (x n : UInt32) : UInt32 := (x >>> n) ||| (x <<< (32 - n))

def choose (x y z : UInt32) : UInt32 := (x &&& y) ^^^ (~~~x &&& z)

def majority (x y z : UInt32) : UInt32 := (x &&& y) ^^^ (x &&& z) ^^^ (y &&& z)

def bigSigma0 (x : UInt32) : UInt32 := rotr x 2 ^^^ rotr x 13 ^^^ rotr x 22

def bigSigma1 (x : UInt32) : UInt32 := rotr x 6 ^^^ rotr x 11 ^^^ rotr x 25

def smallSigma0 (x : UInt32) : UInt32 := rotr x 7 ^^^ rotr x 18 ^^^ (x >>> 3)

def smallSigma1 (x : UInt32) : UInt32 := rotr x 17 ^^^ rotr x 19 ^^^ (x >>> 10)

/-- The message, a bit, and zeros up to the length in bits at the end of a block. -/
def pad (message : List UInt8) : List UInt8 :=
  message ++ 0x80 :: (List.replicate ((119 - message.length % 64) % 64) 0 ++
    be 8 (8 * message.length))

/-- The `i`-th part of `size` bytes. -/
def part (size i : ℕ) (bytes : List UInt8) : List UInt8 := (bytes.drop (size * i)).take size

/-- The words of a block, the last one first. -/
def words (block : List UInt8) : List UInt32 :=
  ((List.range 16).map fun i => UInt32.ofNat (ofBe (part 4 i block))).reverse

/-- One more word, from those that came 2, 7, 15 and 16 before it. -/
def extend (ws : List UInt32) : List UInt32 :=
  (smallSigma1 (ws.getD 1 0) + ws.getD 6 0 + smallSigma0 (ws.getD 14 0) + ws.getD 15 0) :: ws

def schedule (block : List UInt8) : List UInt32 :=
  ((List.range 48).foldl (fun ws _ => extend ws) (words block)).reverse

def round (s : Working) (input : UInt32 × UInt32) : Working :=
  let t1 := s.h + bigSigma1 s.e + choose s.e s.f s.g + input.1 + input.2
  let t2 := bigSigma0 s.a + majority s.a s.b s.c
  { a := t1 + t2, b := s.a, c := s.b, d := s.c, e := s.d + t1, f := s.e, g := s.f, h := s.g }

def compress (s : Working) (block : List UInt8) : Working :=
  let t := (roundConstants.zip (schedule block)).foldl round s
  { a := s.a + t.a, b := s.b + t.b, c := s.c + t.c, d := s.d + t.d,
    e := s.e + t.e, f := s.f + t.f, g := s.g + t.g, h := s.h + t.h }

def Working.bytes (s : Working) : List UInt8 :=
  [s.a, s.b, s.c, s.d, s.e, s.f, s.g, s.h].flatMap fun w => be 4 w.toNat

def digest (message : List UInt8) : List UInt8 :=
  let padded := pad message
  ((List.range (padded.length / 64)).foldl (fun s i => compress s (part 64 i padded)) initial).bytes

def hexdigest (message : List UInt8) : String :=
  String.ofList ((digest message).flatMap fun b =>
    [Nat.digitChar (b.toNat / 16), Nat.digitChar (b.toNat % 16)])

@[simp] theorem length_digest (message : List UInt8) : (digest message).length = 32 := by
  simp [digest, Working.bytes]

/-- The message of FIPS 180-4, appendix B.1. -/
example : hexdigest (utf8 "abc") =
    "ba7816bf8f01cfea414140de5dae2223b00361a396177a9cb410ff61f20015ad" := by decide +kernel

end Sha256
