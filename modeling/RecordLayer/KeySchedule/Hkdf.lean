import RecordLayer.Mac

/-! # Labelled key derivation

HKDF, and its form with a label. Only the SHA-2 functions serve it.
-/

namespace RecordLayer.Hkdf

def supports : Hash → Bool
  | .md5 | .sha1 => false
  | .sha256 | .sha384 | .sha512 => true

def unsupported : CryptoError := .unsupportedAlgorithm "HKDF requires SHA-2"

def extract (h : Hash) (salt ikm : Bytes) : Except CryptoError Bytes :=
  if supports h then .ok (h.hmac salt ikm) else .error unsupported

/-- The blocks numbered from `i`, where `last` is the block before. -/
def expandBlocks (h : Hash) (key info : Bytes) : Nat → Nat → Bytes → List Bytes
  | 0, _, _ => []
  | n + 1, i, last =>
    let block := h.hmac key (last ++ info ++ [UInt8.ofNat i])
    block :: expandBlocks h key info n (i + 1) block

def limit (h : Hash) : Nat := 255 * h.size

def expand (h : Hash) (key info : Bytes) (len : Nat) : Except CryptoError Bytes :=
  if key.length < h.size then .error (.invalidKeyLength h.size key.length)
  else if limit h < len then .error (.invalidOutputLength len (limit h))
  else .ok ((expandBlocks h key info ((len + h.size - 1) / h.size) 1 []).flatten.take len)

/-- The info string: the length, the label after its tag and the context. -/
def labelInfo (tag label context : Bytes) (len : Nat) : Bytes :=
  Bytes.be 2 len ++ (UInt8.ofNat (tag ++ label).length :: (tag ++ label)) ++
    (UInt8.ofNat context.length :: context)

def labelInfo? (tag label context : Bytes) (len : Nat) : Except CryptoError Bytes :=
  if len ≤ 65535 ∧ (tag ++ label).length ≤ 255 ∧ context.length ≤ 255 then
    .ok (labelInfo tag label context len)
  else .error (.invalidOutputLength len 65535)

/-- Expand a key for the use that the label names. -/
def expandLabel (h : Hash) (key tag label context : Bytes) (len : Nat) :
    Except CryptoError Bytes := do
  let info ← labelInfo? tag label context len
  if supports h then expand h key info len else .error unsupported

end RecordLayer.Hkdf
