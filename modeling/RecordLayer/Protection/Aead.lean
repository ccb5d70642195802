import RecordLayer.Protection.Record
import RecordLayer.Cipher.Aead
import RecordLayer.AdditionalData
import RecordLayer.InnerPlaintext
import RecordLayer.Nonce
import RecordLayer.Context

/-! # Authenticated encryption of records

The plaintext is sealed under a nonce made from the record number. Before traffic secrets came
into use, the block cipher suites carried the varying part of the nonce in front of the
ciphertext.
-/

namespace RecordLayer

/-- What one end writes and the other reads. -/
structure AeadDirection where
  isTls13 : Bool
  mode : NonceMode
  aead : Aead
  iv : Bytes
  /-- The connection ID of the reader. -/
  id : Bytes

namespace AeadDirection
variable (d : AeadDirection)

def inner : Bool := d.isTls13 || !d.id.isEmpty

def recordIvSize : Nat := d.mode.recordIvSize

def overhead : Nat := d.aead.tagSize + d.recordIvSize

def recordIv (seq : UInt64) : Bytes :=
  match d.mode with
  | .explicit => Bytes.be 8 seq.toNat
  | .implicit => []

def nonce (seq : UInt64) (carried : Bytes) : Bytes :=
  match d.mode with
  | .explicit => Nonce.explicit d.iv carried
  | .implicit => Nonce.implicit d.iv seq

/-- The nonce under which a record is protected. -/
def encryptNonce (seq : UInt64) : Bytes := d.nonce seq (d.recordIv seq)

/-- The additional data of a record with a ciphertext of `n` bytes. -/
def additionalData (seq : UInt64) (t : ContentType) (v : Version) (n : Nat) : Bytes :=
  AdditionalData.ofAead d.isTls13 seq t v d.id n (n - d.aead.tagSize)

def encode (seq : UInt64) (t : ContentType) (v : Version) (room : Nat) (plaintext : Bytes) :
    Except Failure Protected := do
  let payload := InnerPlaintext.wrap d.inner t plaintext
  let outer := ContentType.outer d.isTls13 d.id t
  let n ← d.aead.outputSize true payload.length
  Protected.expectSize (payload.length + d.aead.tagSize) n "AEAD output size mispredicted"
  Size.reserve room (d.recordIvSize + n)
  let ciphertext ← forRecord
    (d.aead.sealMessage (d.encryptNonce seq) (d.additionalData seq outer v n) payload)
  pure (.ofSize room (d.recordIvSize + n) outer (d.recordIv seq ++ ciphertext))

def decode (seq : UInt64) (t : ContentType) (v : Version) (fragment : Bytes) :
    Except Failure Recovered := do
  if fragment.length < d.overhead then
    throw (.refused (.decodeError "record shorter than nonce and tag"))
  let carried ← fragment.slice 0 d.recordIvSize
  let ciphertext ← fragment.slice d.recordIvSize fragment.length
  let n ← d.aead.outputSize false ciphertext.length
  let payload ← forRecord (d.aead.openBuffer (d.nonce seq carried)
    (d.additionalData seq t v ciphertext.length) ciphertext)
  Protected.expectSize n payload.length "AEAD plaintext length mispredicted"
  let (plaintext, t) ← InnerPlaintext.unwrap d.inner t payload
  pure ⟨plaintext, t⟩

def derive (c : Context) (owner : Role) (a : AeadAlgorithm) (id : Bytes) :
    Except RecordError AeadDirection := do
  let keys ← c.trafficKeys "TLS 1.3 cipher requires a traffic secret" owner c.params.prfHash
    a.keySize Aead.nonceSize
  let aead ← forRecord (Aead.keyed a keys.key)
  pure ⟨true, .implicit, aead, keys.iv, id⟩

end AeadDirection

structure AeadProtection where
  algorithm : AeadAlgorithm
  isTls13 : Bool
  mode : NonceMode
  encoder : AeadDirection
  decoder : AeadDirection

namespace AeadProtection
variable (p : AeadProtection)

/-- Only the suites over block ciphers, before traffic secrets, write their nonces out. -/
def modeOf (isTls13 : Bool) (a : AeadAlgorithm) : NonceMode :=
  if isTls13 ∨ a.family = .chaCha20Poly1305 then .implicit else .explicit

def new (c : Context) (a : AeadAlgorithm) : Except RecordError AeadProtection := do
  let isTls13 := c.version.isTls13
  let mode := modeOf isTls13 a
  if isTls13 then
    let encoder ← AeadDirection.derive c c.role a c.params.peerId
    let decoder ← AeadDirection.derive c c.role.peer a c.params.localId
    pure ⟨a, isTls13, mode, encoder, decoder⟩
  else
    let keys ← c.keyBlock "AEAD cipher requires a master secret" 0 a.keySize mode.fixedIvSize
    let write := keys.keysOf c.role
    let read := keys.keysOf c.role.peer
    let encryptor ← forRecord (Aead.keyed a write.key)
    let decryptor ← forRecord (Aead.keyed a read.key)
    pure ⟨a, isTls13, mode, ⟨isTls13, mode, encryptor, write.iv, c.params.peerId⟩,
      ⟨isTls13, mode, decryptor, read.iv, c.params.localId⟩⟩

def rekeyUnsupported : RecordError := .internalError "rekey requires TLS 1.3"

def direction : Side → AeadDirection
  | .write => p.encoder
  | .read => p.decoder

def withDirection (d : AeadDirection) : Side → AeadProtection
  | .write => { p with encoder := d }
  | .read => { p with decoder := d }

@[simp] theorem direction_withDirection (d : AeadDirection) (side : Side) :
    (p.withDirection d side).direction side = d := by cases side <;> rfl

@[simp] theorem direction_withDirection_other (d : AeadDirection) (side : Side) :
    (p.withDirection d side).direction side.other = p.direction side.other := by
  cases side <;> rfl

def rekey (c : Context) (side : Side) : Except RecordError AeadProtection :=
  if p.isTls13 then
    (p.withDirection · side) <$>
      AeadDirection.derive c (side.owner c.role) p.algorithm (p.direction side).id
  else .error rekeyUnsupported

def ciphertextDecodeLimit (n : Nat) : Except Fault Nat := do
  let n ← Size.add n p.decoder.aead.tagSize
  let n ← Size.add n p.decoder.recordIvSize
  Size.add n (InnerPlaintext.allowance p.decoder.inner)

def ciphertextEncodeLimit (n limit : Nat) : Except Fault Nat := do
  let n ← Size.add (min n limit) (InnerPlaintext.overhead p.encoder.inner)
  let n ← Size.add n p.encoder.aead.tagSize
  Size.add n p.encoder.recordIvSize

def plaintextDecodeLimit (n : Nat) : Nat :=
  n - (p.decoder.overhead + InnerPlaintext.overhead p.decoder.inner)

def plaintextEncodeLimit (n : Nat) : Nat :=
  n - (p.encoder.overhead + InnerPlaintext.overhead p.encoder.inner)

end AeadProtection

end RecordLayer
