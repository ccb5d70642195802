import RecordLayer.Hash.Words

/-! # SHA-1

The compression function of SHA-1 on blocks of 64 bytes.
-/

namespace RecordLayer.Sha1
open Words

structure Chain where
  (a b c d e : UInt32)
  deriving DecidableEq

def initial : Chain := ⟨0x67452301, 0xefcdab89, 0x98badcfe, 0x10325476, 0xc3d2e1f0⟩

/-- The sixteen words of the block, followed by the sixty-four computed from them. -/
def schedule (block : Bytes) : Array UInt32 :=
  (List.range 64).foldl
    (fun w t => w.push (rotateLeft32 1
      (w.getD (t + 13) 0 ^^^ w.getD (t + 8) 0 ^^^ w.getD (t + 2) 0 ^^^ w.getD t 0)))
    (be32 block).toArray

@[inline] def step (s : Chain) (i : Nat) (w : UInt32) : Chain :=
  let (f, k) : UInt32 × UInt32 :=
    if i < 20 then ((s.b &&& s.c) ||| (~~~s.b &&& s.d), 0x5a827999)
    else if i < 40 then (s.b ^^^ s.c ^^^ s.d, 0x6ed9eba1)
    else if i < 60 then ((s.b &&& s.c) ||| (s.b &&& s.d) ||| (s.c &&& s.d), 0x8f1bbcdc)
    else (s.b ^^^ s.c ^^^ s.d, 0xca62c1d6)
  ⟨rotateLeft32 5 s.a + f + s.e + k + w, s.a, rotateLeft32 30 s.b, s.c, s.d⟩

def rounds : Chain → Nat → List UInt32 → Chain
  | s, i, w :: ws => rounds (step s i w) (i + 1) ws
  | s, _, [] => s

def compress (s : Chain) (block : Bytes) : Chain :=
  let t := rounds s 0 (schedule block).toList
  ⟨s.a + t.a, s.b + t.b, s.c + t.c, s.d + t.d, s.e + t.e⟩

def output (s : Chain) : Bytes :=
  Bytes.be 4 s.a.toNat ++ Bytes.be 4 s.b.toNat ++ Bytes.be 4 s.c.toNat ++ Bytes.be 4 s.d.toNat ++
    Bytes.be 4 s.e.toNat

end RecordLayer.Sha1
