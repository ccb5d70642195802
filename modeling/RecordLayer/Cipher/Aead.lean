import RecordLayer.Cipher.Gcm
import RecordLayer.Cipher.Ccm
import RecordLayer.Cipher.ChaCha20
import RecordLayer.Cipher.Poly1305
import RecordLayer.Failure

/-! # Authenticated encryption

Seven algorithms behind one interface. Sealing encrypts a message and appends the tag; opening
checks the tag before it gives back the message, and undoes sealing
(`openBuffer_of_sealMessage`).
-/

namespace RecordLayer

inductive AeadAlgorithm
  | aes128Gcm
  | aes256Gcm
  | aes128Ccm
  | aes256Ccm
  | aes128Ccm8
  | aes256Ccm8
  | chaCha20Poly1305
  deriving DecidableEq, Repr

inductive AeadFamily
  | gcm
  | ccm
  | chaCha20Poly1305
  deriving DecidableEq, Repr

namespace AeadAlgorithm

def keySize : AeadAlgorithm → Nat
  | aes128Gcm | aes128Ccm | aes128Ccm8 => 16
  | aes256Gcm | aes256Ccm | aes256Ccm8 | chaCha20Poly1305 => 32

def tagSize : AeadAlgorithm → Nat
  | aes128Ccm8 | aes256Ccm8 => 8
  | _ => 16

def family : AeadAlgorithm → AeadFamily
  | aes128Gcm | aes256Gcm => .gcm
  | aes128Ccm | aes256Ccm | aes128Ccm8 | aes256Ccm8 => .ccm
  | chaCha20Poly1305 => .chaCha20Poly1305

end AeadAlgorithm

structure Aead where
  algorithm : AeadAlgorithm
  key : Bytes
  schedule : Aes.Key

namespace Aead

def nonceSize : Nat := 12

def keyed (a : AeadAlgorithm) (key : Bytes) : Except CryptoError Aead :=
  if key.length ≠ a.keySize then .error (.invalidKeyLength a.keySize key.length)
  else .ok ⟨a, key, Aes.Key.expand (if a.keySize = 16 then .aes128 else .aes256) key⟩

variable (e : Aead)

def tagSize : Nat := e.algorithm.tagSize

/-- Encrypt or decrypt: the same key stream is added both times. -/
def crypt (nonce message : Bytes) : Bytes :=
  match e.algorithm.family with
  | .gcm => Gcm.crypt e.schedule nonce message
  | .ccm => Ccm.crypt e.schedule nonce message
  | .chaCha20Poly1305 =>
    Bytes.xor message (ChaCha20.keystream e.key nonce 1 ((message.length + 63) / 64))

def tag (nonce aad message ciphertext : Bytes) : Bytes :=
  match e.algorithm.family with
  | .gcm => Gcm.tag e.schedule nonce aad ciphertext
  | .ccm => Ccm.tag e.schedule e.tagSize nonce aad message
  | .chaCha20Poly1305 =>
    Poly1305.tag ((ChaCha20.keystream e.key nonce 0 1).take 32)
      (Bytes.zeroPad 16 aad ++ Bytes.zeroPad 16 ciphertext ++ Bytes.le 8 aad.length ++
        Bytes.le 8 ciphertext.length)

def accepts (message : Bytes) : Bool :=
  e.algorithm.family != .ccm || message.length < Ccm.messageBound

def outputSize (sealing : Bool) (n : Nat) : Except Fault Nat :=
  if sealing then Size.add n e.tagSize else .ok (n - e.tagSize)

def sealMessage (nonce aad message : Bytes) : Except CryptoError Bytes :=
  if nonce.length ≠ nonceSize then .error (.engine "AEAD nonce must be 12 bytes")
  else if !e.accepts message then .error (.engine "AEAD seal failed")
  else
    let ciphertext := e.crypt nonce message
    .ok (ciphertext ++ e.tag nonce aad message ciphertext)

def check (nonce buffer : Bytes) : Except CryptoError Unit :=
  if nonce.length ≠ nonceSize then .error (.engine "AEAD nonce must be 12 bytes")
  else if buffer.length < e.tagSize then .error (.engine "buffer shorter than the AEAD tag")
  else .ok ()

/-- Seal a buffer that ends with room for the tag. -/
def sealBuffer (nonce aad buffer : Bytes) : Except CryptoError Bytes := do
  e.check nonce buffer
  e.sealMessage nonce aad (buffer.take (buffer.length - e.tagSize))

/-- The message of a sealed buffer. -/
def openBuffer (nonce aad buffer : Bytes) : Except CryptoError Bytes := do
  e.check nonce buffer
  let ciphertext := buffer.take (buffer.length - e.tagSize)
  let message := e.crypt nonce ciphertext
  if e.accepts ciphertext ∧
      e.tag nonce aad message ciphertext = buffer.drop (buffer.length - e.tagSize) then
    pure message
  else .error .authenticationFailed

theorem xor_flatMap_twice {f : Nat → Bytes} {n : Nat} {message : Bytes} (g : Nat → Nat)
    (hf : ∀ i, (f i).length = n) (hn : message.length ≤ g message.length * n) :
    let crypt (x : Bytes) := Bytes.xor x ((List.range (g x.length)).flatMap f)
    crypt (crypt message) = message ∧ (crypt message).length = message.length := by
  intro crypt
  have hs : ((List.range (g message.length)).flatMap f).length = g message.length * n := by
    simp [List.length_flatMap, hf, List.map_const']
  have hlen : (crypt message).length = message.length := by
    simp only [crypt, Bytes.length_xor, hs]
    omega
  refine ⟨?_, hlen⟩
  show Bytes.xor (crypt message) ((List.range (g (crypt message).length)).flatMap f) = message
  rw [hlen]
  show Bytes.xor (Bytes.xor message _) _ = message
  rw [Bytes.xor_xor, hs]
  exact List.take_of_length_le hn

theorem crypt_twice (nonce message : Bytes) :
    e.crypt nonce (e.crypt nonce message) = message ∧
      (e.crypt nonce message).length = message.length := by
  unfold crypt
  cases e.algorithm.family with
  | gcm =>
    exact xor_flatMap_twice (fun n => (n + 15) / 16)
      (fun i => Gcm.length_keyBlock e.schedule nonce (i + 2)) (by omega)
  | ccm =>
    exact xor_flatMap_twice (fun n => (n + 15) / 16)
      (fun i => Ccm.length_keyBlock e.schedule nonce (i + 1)) (by omega)
  | chaCha20Poly1305 =>
    exact xor_flatMap_twice (fun n => (n + 63) / 64)
      (fun i => ChaCha20.length_block e.key (.ofBytes (Bytes.le 4 (1 + i) ++ nonce))) (by omega)

@[simp] theorem crypt_crypt (nonce message : Bytes) :
    e.crypt nonce (e.crypt nonce message) = message := (e.crypt_twice nonce message).1

@[simp] theorem length_crypt (nonce message : Bytes) :
    (e.crypt nonce message).length = message.length := (e.crypt_twice nonce message).2

@[simp] theorem length_tag (nonce aad message ciphertext : Bytes) :
    (e.tag nonce aad message ciphertext).length = e.tagSize := by
  obtain ⟨a, key, schedule⟩ := e
  cases a <;>
    simp [tag, tagSize, AeadAlgorithm.family, AeadAlgorithm.tagSize, Ccm.length_tag]

theorem accepts_congr {x y : Bytes} (h : x.length = y.length) : e.accepts x = e.accepts y := by
  simp [accepts, h]

theorem openBuffer_of_sealMessage {nonce aad message buffer : Bytes}
    (h : e.sealMessage nonce aad message = .ok buffer) :
    e.openBuffer nonce aad buffer = .ok message := by
  unfold sealMessage at h
  split at h
  · cases h
  · split at h
    · cases h
    · rename_i hn ha
      obtain rfl := Except.ok.inj h
      have hcheck : e.check nonce
          (e.crypt nonce message ++ e.tag nonce aad message (e.crypt nonce message)) = .ok () := by
        simp [check, hn]
      have hacc : e.accepts (e.crypt nonce message) = true := by
        rw [e.accepts_congr (e.length_crypt nonce message)]
        simpa using ha
      simp [openBuffer, hcheck, hacc, bind, Except.bind, pure, Except.pure]

end Aead

end RecordLayer
