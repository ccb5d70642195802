import RecordLayer.Cipher.Aes

/-! # Counter mode with CBC-MAC

CCM with a nonce of 12 bytes, which leaves three bytes for the length of a message.
-/

namespace RecordLayer.Ccm
open Aes (Block)

def messageBound : Nat := 16777216

def keyBlock (k : Aes.Key) (nonce : Bytes) (i : Nat) : Bytes :=
  (Aes.encrypt k (.ofBytes (2 :: nonce ++ Bytes.be 3 i))).bytes

/-- Encrypt or decrypt. The stream begins with block number one. -/
def crypt (k : Aes.Key) (nonce message : Bytes) : Bytes :=
  Bytes.xor message
    ((List.range ((message.length + 15) / 16)).flatMap fun i => keyBlock k nonce (i + 1))

/-- The length of the additional data, in two bytes or marked and in four. -/
def aadLength (n : Nat) : Bytes :=
  if n < 0xff00 then Bytes.be 2 n else [0xff, 0xfe] ++ Bytes.be 4 n

/-- What the tag authenticates, in whole blocks. -/
def authenticated (tagSize : Nat) (nonce aad message : Bytes) : Bytes :=
  let flags := (if aad.isEmpty then 0 else 0x40) + 8 * ((tagSize - 2) / 2) + 2
  (UInt8.ofNat flags :: nonce ++ Bytes.be 3 message.length) ++
    (if aad.isEmpty then [] else Bytes.zeroPad 16 (aadLength aad.length ++ aad)) ++
    Bytes.zeroPad 16 message

def tag (k : Aes.Key) (tagSize : Nat) (nonce aad message : Bytes) : Bytes :=
  let mac := (Block.list (authenticated tagSize nonce aad message)).foldl
    (fun z x => Aes.encrypt k (z.xor x)) Block.zero
  (Bytes.xor mac.bytes (keyBlock k nonce 0)).take tagSize

@[simp] theorem length_keyBlock (k : Aes.Key) (nonce : Bytes) (i : Nat) :
    (keyBlock k nonce i).length = 16 := rfl

theorem length_tag {tagSize : Nat} (h : tagSize ≤ 16) (k : Aes.Key) (nonce aad message : Bytes) :
    (tag k tagSize nonce aad message).length = tagSize := by
  simp [tag, Block.size, h]

end RecordLayer.Ccm
