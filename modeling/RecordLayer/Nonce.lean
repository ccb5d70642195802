import RecordLayer.Bytes

/-! # Nonces

A nonce joins the fixed initial vector of a direction with the number of a record: written after
its first bytes, or added to its last bytes.
-/

namespace RecordLayer

inductive NonceMode
  | explicit
  | implicit
  deriving DecidableEq, Repr

namespace NonceMode

def fixedIvSize : NonceMode → Nat
  | explicit => 4
  | implicit => 12

def recordIvSize : NonceMode → Nat
  | explicit => 8
  | implicit => 0

end NonceMode

namespace Nonce

/-- The first four bytes of the initial vector, then the part from the record. -/
def explicit (iv carried : Bytes) : Bytes := iv.take 4 ++ carried

/-- The initial vector with the record number added to its last eight bytes. -/
def implicit (iv : Bytes) (seq : UInt64) : Bytes :=
  iv.take (iv.length - 8) ++ Bytes.xor (iv.drop (iv.length - 8)) (Bytes.be 8 seq.toNat)

@[simp] theorem length_implicit (iv : Bytes) (seq : UInt64) :
    (implicit iv seq).length = iv.length := by
  simp only [implicit, List.length_append, List.length_take, Bytes.length_xor, List.length_drop,
    Bytes.length_be]
  omega

end Nonce

end RecordLayer
