import RecordLayer.Bytes

/-! # Poly1305

The one-time authenticator Poly1305: a polynomial with the blocks of the message as coefficients,
evaluated modulo the prime `2 ^ 130 - 5`.
-/

namespace RecordLayer.Poly1305

def prime : Nat := 0x3fffffffffffffffffffffffffffffffb

def clampMask : Nat := 0x0ffffffc0ffffffc0ffffffc0fffffff

/-- The number of a block: its bytes with a final one. -/
def coefficient (x : Bytes) : Nat := Bytes.ofLe (x ++ [1])

def tag (key message : Bytes) : Bytes :=
  let r := Bytes.ofLe (key.take 16) &&& clampMask
  let s := Bytes.ofLe (key.drop 16)
  let blocks := message.pieces 16 ((message.length + 15) / 16)
  let n := blocks.foldl (fun n x => (n + coefficient x) * r % prime) 0
  Bytes.le 16 (n + s)

@[simp] theorem length_tag (key message : Bytes) : (tag key message).length = 16 :=
  Bytes.length_le ..

end RecordLayer.Poly1305
