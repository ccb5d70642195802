import RecordLayer.Cipher.Aes
import RecordLayer.Failure

/-! # Cipher block chaining

One direction of a CBC stream. The chaining value stays from call to call, so a stream may be cut
at any block boundary.
-/

namespace RecordLayer

structure Cbc where
  variant : Aes.Variant
  key : Aes.Key
  /-- The last ciphertext block, or the initial vector. -/
  chain : Aes.Block

namespace Cbc
open Aes (Block)

def encryptBlocks (k : Aes.Key) (chain : Block) : List Block → List Block
  | [] => []
  | x :: xs =>
    let y := Aes.encrypt k (x.xor chain)
    y :: encryptBlocks k y xs

def decryptBlocks (k : Aes.Key) (chain : Block) : List Block → List Block
  | [] => []
  | y :: ys => (Aes.decrypt k y).xor chain :: decryptBlocks k y ys

def keyed (v : Aes.Variant) (key iv : Bytes) : Except CryptoError Cbc :=
  if key.length ≠ v.keySize then .error (.invalidKeyLength v.keySize key.length)
  else if iv.length ≠ Block.size then .error (.invalidKeyLength Block.size iv.length)
  else .ok ⟨v, Aes.Key.expand v key, Block.ofBytes iv⟩

def misaligned : CryptoError := .engine "CBC input is not block aligned"

def encrypt (s : Cbc) (data : Bytes) : Except CryptoError Bytes × Cbc :=
  if data.length % Block.size ≠ 0 then (.error misaligned, s)
  else
    let ys := encryptBlocks s.key s.chain (Block.list data)
    (.ok (ys.flatMap Block.bytes), { s with chain := ys.getLastD s.chain })

def decrypt (s : Cbc) (data : Bytes) : Except CryptoError Bytes × Cbc :=
  if data.length % Block.size ≠ 0 then (.error misaligned, s)
  else
    let ys := Block.list data
    (.ok ((decryptBlocks s.key s.chain ys).flatMap Block.bytes),
      { s with chain := ys.getLastD s.chain })

theorem length_encryptBlocks (k : Aes.Key) (chain : Block) (xs : List Block) :
    (encryptBlocks k chain xs).length = xs.length := by
  induction xs generalizing chain with
  | nil => rfl
  | cons x xs ih => simp [encryptBlocks, ih]

theorem length_decryptBlocks (k : Aes.Key) (chain : Block) (ys : List Block) :
    (decryptBlocks k chain ys).length = ys.length := by
  induction ys generalizing chain with
  | nil => rfl
  | cons y ys ih => simp [decryptBlocks, ih]

theorem decryptBlocks_encryptBlocks (k : Aes.Key) (chain : Block) (xs : List Block) :
    decryptBlocks k chain (encryptBlocks k chain xs) = xs := by
  induction xs generalizing chain with
  | nil => rfl
  | cons x xs ih =>
    rw [encryptBlocks, decryptBlocks, ih, Aes.decrypt_encrypt, Block.xor_xor]

end Cbc

end RecordLayer
