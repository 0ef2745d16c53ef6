import Mathlib

/-!
SHA-256 over lists of bytes, with words of 32 bits as natural numbers, so that digests
can be computed in proofs about fixed inputs.
-/

namespace Sha256

def word (value : Nat) : Nat := value % 2 ^ 32

def rotateRight (count value : Nat) : Nat := word ((value >>> count) ||| (value <<< (32 - count)))

def roundConstants : List Nat := [
  0x428a2f98, 0x71374491, 0xb5c0fbcf, 0xe9b5dba5, 0x3956c25b, 0x59f111f1, 0x923f82a4, 0xab1c5ed5,
  0xd807aa98, 0x12835b01, 0x243185be, 0x550c7dc3, 0x72be5d74, 0x80deb1fe, 0x9bdc06a7, 0xc19bf174,
  0xe49b69c1, 0xefbe4786, 0x0fc19dc6, 0x240ca1cc, 0x2de92c6f, 0x4a7484aa, 0x5cb0a9dc, 0x76f988da,
  0x983e5152, 0xa831c66d, 0xb00327c8, 0xbf597fc7, 0xc6e00bf3, 0xd5a79147, 0x06ca6351, 0x14292967,
  0x27b70a85, 0x2e1b2138, 0x4d2c6dfc, 0x53380d13, 0x650a7354, 0x766a0abb, 0x81c2c92e, 0x92722c85,
  0xa2bfe8a1, 0xa81a664b, 0xc24b8b70, 0xc76c51a3, 0xd192e819, 0xd6990624, 0xf40e3585, 0x106aa070,
  0x19a4c116, 0x1e376c08, 0x2748774c, 0x34b0bcb5, 0x391c0cb3, 0x4ed8aa4a, 0x5b9cca4f, 0x682e6ff3,
  0x748f82ee, 0x78a5636f, 0x84c87814, 0x8cc70208, 0x90befffa, 0xa4506ceb, 0xbef9a3f7, 0xc67178f2]

def initialState : List Nat := [
  0x6a09e667, 0xbb67ae85, 0x3c6ef372, 0xa54ff53a, 0x510e527f, 0x9b05688c, 0x1f83d9ab, 0x5be0cd19]

/-- Extend a message schedule, the newest word first. -/
def schedule : Nat → List Nat → List Nat
  | 0, words => words
  | count + 1, words =>
      let recent := words.getD 1 0
      let distant := words.getD 14 0
      let low := rotateRight 7 distant ^^^ rotateRight 18 distant ^^^ (distant >>> 3)
      let high := rotateRight 17 recent ^^^ rotateRight 19 recent ^^^ (recent >>> 10)
      schedule count (word (high + words.getD 6 0 + low + words.getD 15 0) :: words)

def round : List Nat → Nat × Nat → List Nat
  | [a, b, c, d, e, f, g, h], (constant, scheduled) =>
      let choice := (e &&& f) ^^^ ((2 ^ 32 - 1 - e) &&& g)
      let majority := (a &&& b) ^^^ (a &&& c) ^^^ (b &&& c)
      let first := h + (rotateRight 6 e ^^^ rotateRight 11 e ^^^ rotateRight 25 e) + choice +
        constant + scheduled
      let second := (rotateRight 2 a ^^^ rotateRight 13 a ^^^ rotateRight 22 a) + majority
      [word (first + second), a, b, c, word (d + first), e, f, g]
  | state, _ => state

def compress (state block : List Nat) : List Nat :=
  let words := (schedule 48 block.reverse).reverse
  List.zipWith (fun old new => word (old + new)) state
    ((roundConstants.zip words).foldl round state)

def words : List Nat → List Nat
  | a :: b :: c :: d :: rest => (((a * 256 + b) * 256 + c) * 256 + d) :: words rest
  | _ => []

def blocks : Nat → List Nat → List (List Nat)
  | 0, _ => []
  | count + 1, remaining => remaining.take 16 :: blocks count (remaining.drop 16)

def pad (message : List UInt8) : List Nat :=
  let size := message.length
  message.map UInt8.toNat ++ [128] ++ List.replicate ((119 - size % 64) % 64) 0 ++
    (List.range 8).map fun place => 8 * size / 256 ^ (7 - place) % 256

def digest (message : List UInt8) : BitVec 256 :=
  let padded := words (pad message)
  BitVec.ofNat 256 (((blocks (padded.length / 16) padded).foldl compress initialState).foldl
    (fun value next => value * 2 ^ 32 + next) 0)

example : digest [0x61, 0x62, 0x63] =
    0xba7816bf8f01cfea414140de5dae2223b00361a396177a9cb410ff61f20015ad#256 := by
  decide +kernel

end Sha256
