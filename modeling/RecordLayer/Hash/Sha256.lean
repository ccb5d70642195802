import RecordLayer.Hash.Words

/-! # SHA-256

The compression function of SHA-256 on blocks of 64 bytes.
-/

namespace RecordLayer.Sha256
open Words

structure Chain where
  (a b c d e f g h : UInt32)
  deriving DecidableEq

def initial : Chain :=
  ⟨0x6a09e667, 0xbb67ae85, 0x3c6ef372, 0xa54ff53a,
    0x510e527f, 0x9b05688c, 0x1f83d9ab, 0x5be0cd19⟩

def constants : List UInt32 := [
  0x428a2f98, 0x71374491, 0xb5c0fbcf, 0xe9b5dba5, 0x3956c25b, 0x59f111f1,
  0x923f82a4, 0xab1c5ed5, 0xd807aa98, 0x12835b01, 0x243185be, 0x550c7dc3,
  0x72be5d74, 0x80deb1fe, 0x9bdc06a7, 0xc19bf174, 0xe49b69c1, 0xefbe4786,
  0x0fc19dc6, 0x240ca1cc, 0x2de92c6f, 0x4a7484aa, 0x5cb0a9dc, 0x76f988da,
  0x983e5152, 0xa831c66d, 0xb00327c8, 0xbf597fc7, 0xc6e00bf3, 0xd5a79147,
  0x06ca6351, 0x14292967, 0x27b70a85, 0x2e1b2138, 0x4d2c6dfc, 0x53380d13,
  0x650a7354, 0x766a0abb, 0x81c2c92e, 0x92722c85, 0xa2bfe8a1, 0xa81a664b,
  0xc24b8b70, 0xc76c51a3, 0xd192e819, 0xd6990624, 0xf40e3585, 0x106aa070,
  0x19a4c116, 0x1e376c08, 0x2748774c, 0x34b0bcb5, 0x391c0cb3, 0x4ed8aa4a,
  0x5b9cca4f, 0x682e6ff3, 0x748f82ee, 0x78a5636f, 0x84c87814, 0x8cc70208,
  0x90befffa, 0xa4506ceb, 0xbef9a3f7, 0xc67178f2]

/-- The sixteen words of the block, followed by those computed from them. -/
def schedule (block : Bytes) : Array UInt32 :=
  (List.range 48).foldl
    (fun w t =>
      let x := w.getD (t + 1) 0
      let y := w.getD (t + 14) 0
      let u := rotateRight32 7 x ^^^ rotateRight32 18 x ^^^ (x >>> 3)
      let v := rotateRight32 17 y ^^^ rotateRight32 19 y ^^^ (y >>> 10)
      w.push (w.getD t 0 + u + w.getD (t + 9) 0 + v))
    (be32 block).toArray

@[inline] def step (s : Chain) (k w : UInt32) : Chain :=
  let u := rotateRight32 6 s.e ^^^ rotateRight32 11 s.e ^^^ rotateRight32 25 s.e
  let choice := (s.e &&& s.f) ^^^ (~~~s.e &&& s.g)
  let t := s.h + u + choice + k + w
  let v := rotateRight32 2 s.a ^^^ rotateRight32 13 s.a ^^^ rotateRight32 22 s.a
  let majority := (s.a &&& s.b) ^^^ (s.a &&& s.c) ^^^ (s.b &&& s.c)
  ⟨t + (v + majority), s.a, s.b, s.c, s.d + t, s.e, s.f, s.g⟩

def rounds : Chain → List UInt32 → List UInt32 → Chain
  | s, k :: ks, w :: ws => rounds (step s k w) ks ws
  | s, _, _ => s

def compress (s : Chain) (block : Bytes) : Chain :=
  let t := rounds s constants (schedule block).toList
  ⟨s.a + t.a, s.b + t.b, s.c + t.c, s.d + t.d, s.e + t.e, s.f + t.f, s.g + t.g, s.h + t.h⟩

def output (s : Chain) : Bytes :=
  [s.a, s.b, s.c, s.d, s.e, s.f, s.g, s.h].flatMap fun w => Bytes.be 4 w.toNat

@[simp] theorem length_output (s : Chain) : (output s).length = 32 := by simp [output]

end RecordLayer.Sha256
