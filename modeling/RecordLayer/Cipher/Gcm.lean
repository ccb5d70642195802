import RecordLayer.Cipher.Aes

/-! # Galois/Counter Mode

The tag is a hash in the field of `2 ^ 128` elements, masked with a block of key stream.
-/

namespace RecordLayer.Gcm
open Aes (Block)

/-- A field element, as the bits of a block in their order of writing. -/
structure Element where
  (high low : UInt64)

namespace Element

def xor (x y : Element) : Element := ⟨x.high ^^^ y.high, x.low ^^^ y.low⟩

def ofBytes (x : Bytes) : Element :=
  ⟨UInt64.ofNat (Bytes.ofBe (x.take 8)), UInt64.ofNat (Bytes.ofBe ((x.drop 8).take 8))⟩

def bytes (x : Element) : Bytes := Bytes.be 8 x.high.toNat ++ Bytes.be 8 x.low.toNat

/-- Add to `z` the product of the first `n` bits of `x` with `y`. -/
def mulAdd : Nat → UInt64 → UInt64 → UInt64 → UInt64 → UInt64 → UInt64 → Element
  | 0, _, _, _, _, zHigh, zLow => ⟨zHigh, zLow⟩
  | n + 1, xHigh, xLow, yHigh, yLow, zHigh, zLow =>
    let top : UInt64 := xHigh >>> 63
    let take := 0 - top
    let reduce := (yLow &&& 1) * 0xe100000000000000
    mulAdd n ((xHigh <<< 1) ||| (xLow >>> 63)) (xLow <<< 1)
      ((yHigh >>> 1) ^^^ reduce) ((yLow >>> 1) ||| (yHigh <<< 63))
      (zHigh ^^^ (yHigh &&& take)) (zLow ^^^ (yLow &&& take))

def mul (x y : Element) : Element := mulAdd 128 x.high x.low y.high y.low 0 0

end Element

def hash (point : Element) (data : Bytes) : Bytes :=
  let step (z : Element) (x : Bytes) : Element := (z.xor (.ofBytes x)).mul point
  ((data.pieces 16 (data.length / 16)).foldl step ⟨0, 0⟩).bytes

def keyBlock (k : Aes.Key) (nonce : Bytes) (i : Nat) : Bytes :=
  (Aes.encrypt k (.ofBytes (nonce ++ Bytes.be 4 i))).bytes

/-- Encrypt or decrypt. The stream begins with block number two. -/
def crypt (k : Aes.Key) (nonce message : Bytes) : Bytes :=
  Bytes.xor message
    ((List.range ((message.length + 15) / 16)).flatMap fun i => keyBlock k nonce (i + 2))

/-- What the tag authenticates: both strings filled up to blocks and their lengths in bits. -/
def authenticated (aad ciphertext : Bytes) : Bytes :=
  Bytes.zeroPad 16 aad ++ Bytes.zeroPad 16 ciphertext ++ Bytes.be 8 (8 * aad.length) ++
    Bytes.be 8 (8 * ciphertext.length)

def tag (k : Aes.Key) (nonce aad ciphertext : Bytes) : Bytes :=
  Bytes.xor (hash (.ofBytes (Aes.encrypt k .zero).bytes) (authenticated aad ciphertext))
    (keyBlock k nonce 1)

@[simp] theorem length_keyBlock (k : Aes.Key) (nonce : Bytes) (i : Nat) :
    (keyBlock k nonce i).length = 16 := rfl

@[simp] theorem length_tag (k : Aes.Key) (nonce aad ciphertext : Bytes) :
    (tag k nonce aad ciphertext).length = 16 := by
  simp [tag, hash, Element.bytes]

end RecordLayer.Gcm
