import RecordLayer.Protection.Record
import RecordLayer.Protection.Padding
import RecordLayer.Cipher.Cbc
import RecordLayer.InnerPlaintext
import RecordLayer.RecordMac
import RecordLayer.Context

/-! # Block cipher protection

The plaintext is padded and encrypted in CBC mode. Its tag is encrypted with it, or follows the
ciphertext and covers it. Older versions chain records together; later ones encrypt a random block
ahead of each record.
-/

namespace RecordLayer

structure BlockDirection where
  cbc : Cbc
  mac : RecordMac
  id : Bytes
  encryptThenMac : Bool
  explicitIv : Bool

namespace BlockDirection
variable (d : BlockDirection)

def blockSize : Nat := Aes.Block.size

def inner : Bool := !d.id.isEmpty

def ivSize : Nat := if d.explicitIv then blockSize else 0

/-- The length of a tag that is encrypted with the plaintext. -/
def innerMacSize : Nat := if d.encryptThenMac then 0 else d.mac.size

/-- The length of a tag that follows the ciphertext. -/
def outerMacSize : Nat := if d.encryptThenMac then d.mac.size else 0

/-- The length of a fragment for `n` bytes with a padding of at most `maxPadding`. -/
def ciphertextSize (maxPadding n : Nat) : Except Fault Nat := do
  let n ← Size.add n maxPadding
  let n ←
    if d.encryptThenMac then Size.add (Size.floorTo blockSize n) d.mac.size
    else Size.floorTo blockSize <$> Size.add n d.mac.size
  if d.explicitIv then Size.add n blockSize else pure n

/-- The longest string that a fragment of `n` bytes can hold besides tag, padding and random
block. -/
def contentLimit (n : Nat) : Nat :=
  let n := n - d.ivSize
  if d.encryptThenMac then Size.floorTo blockSize (n - d.mac.size) - 1
  else Size.floorTo blockSize n - d.mac.size - 1

def minSize : Nat :=
  (if d.encryptThenMac then blockSize + d.mac.size else max blockSize (d.mac.size + 1)) + d.ivSize

def split (fragment : Bytes) : Except Failure (Bytes × Bytes) := do
  if fragment.length < d.minSize then
    throw (.refused (.decodeError "CBC record too short"))
  let (blocks, tag) ← splitTag d.outerMacSize fragment
  if blocks.length % blockSize ≠ 0 then
    throw (.refused (.decodeError "CBC record is not block aligned"))
  pure (blocks, tag)

def outerTag (seq : UInt64) (t : ContentType) (blocks : Bytes) : Bytes × BlockDirection :=
  if d.encryptThenMac then
    let (tag, mac) := d.mac.tag seq t d.id blocks
    (tag, { d with mac })
  else ([], d)

end BlockDirection

structure BlockEncoder extends BlockDirection where
  extraPadding : Bool

namespace BlockEncoder
variable (e : BlockEncoder)

def maxPadding : Nat := if e.extraPadding then Padding.maxSize else BlockDirection.blockSize

/-- Choose the length of the padding after `n` bytes. -/
def drawPadding (r : Randomness) (n : Nat) : Except CryptoError (Nat × Randomness) := do
  let size := Padding.least BlockDirection.blockSize n
  if e.extraPadding then
    let (x, r) ← r.drawWord
    pure (Padding.extend BlockDirection.blockSize size x, r)
  else pure (size, r)

def drawIv (r : Randomness) : Except CryptoError (Bytes × Randomness) :=
  if e.explicitIv then r.draw BlockDirection.blockSize else .ok ([], r)

/-- What the next record encrypts. -/
def payload (seq : UInt64) (outer t : ContentType) (iv : Bytes) (padding : Nat)
    (plaintext : Bytes) : Bytes × BlockEncoder :=
  let content := InnerPlaintext.wrap e.inner t plaintext
  if e.encryptThenMac then (iv ++ content ++ Padding.bytes padding, e)
  else
    let (tag, mac) := e.mac.tag seq outer e.id content
    (iv ++ content ++ tag ++ Padding.bytes padding, { e with mac })

def fragment (seq : UInt64) (outer t : ContentType) (iv : Bytes) (padding : Nat)
    (plaintext : Bytes) : Except CryptoError Bytes × BlockEncoder :=
  let (payload, e) := e.payload seq outer t iv padding plaintext
  let (result, cbc) := e.cbc.encrypt payload
  let e := { e with cbc }
  match result with
  | .error err => (.error err, e)
  | .ok blocks =>
    let (tag, d) := e.outerTag seq outer blocks
    (.ok (blocks ++ tag), { e with toBlockDirection := d })

def encode (r : Randomness) (seq : UInt64) (t : ContentType) (room : Nat) (plaintext : Bytes) :
    Except Failure Protected × BlockEncoder × Randomness :=
  let n := plaintext.length + InnerPlaintext.overhead e.inner + e.innerMacSize
  match e.drawPadding r n with
  | .error err => (.error (.refused err.toRecordError), e, r.refused 4)
  | .ok (padding, r) =>
    let total := e.ivSize + n + padding + e.outerMacSize
    match Size.reserve room total with
    | .error f => (.error (.fault f), e, r)
    | .ok () =>
      match e.drawIv r with
      | .error err => (.error (.refused err.toRecordError), e, r.refused BlockDirection.blockSize)
      | .ok (iv, r) =>
        let outer := ContentType.outer false e.id t
        match e.fragment seq outer t iv padding plaintext with
        | (.error err, e) => (.error (.refused err.toRecordError), e, r)
        | (.ok fragment, e) =>
          match Protected.expectSize total fragment.length "CBC record length mispredicted" with
          | .error err => (.error (.refused err), e, r)
          | .ok () => (.ok (.ofSize room total outer fragment), e, r)

end BlockEncoder

structure BlockDecoder extends BlockDirection where
  longPadding : Bool
  /-- What the padding check compares with after the padding. -/
  scratch : Bytes

/-- What an attempt to decode a fragment leaves behind. -/
structure BlockDecoding where
  result : Except Failure Recovered
  decoder : BlockDecoder
  /-- The buffer that held the fragment, where it is decrypted in place. -/
  buffer : Bytes

namespace BlockDecoder
variable (d : BlockDecoder)

/-- The content of a decrypted record, and whether padding and tag are right. -/
def verify (seq : UInt64) (t : ContentType) (body : Bytes) :
    Except Fault (Bytes × Bool) × BlockDecoder :=
  match Padding.check d.longPadding BlockDirection.blockSize d.innerMacSize body d.scratch with
  | .error f => (.error f, d)
  | .ok check =>
    let d := { d with scratch := check.scratch }
    let padded := check.size ≠ 0
    match splitTag check.size body with
    | .error f => (.error f, d)
    | .ok (rest, _) =>
      if d.encryptThenMac then (.ok (rest, padded), d)
      else
        match splitTag d.mac.size rest with
        | .error f => (.error f, d)
        | .ok (content, received) =>
          let (tag, mac) :=
            d.mac.uniformTag seq t d.id content (body.length - d.mac.size) d.scratch
          (tag.map fun tag => (content, decide (tag = received) && padded), { d with mac })

def decode (seq : UInt64) (t : ContentType) (fragment : Bytes) : BlockDecoding :=
  match d.split fragment with
  | .error e => ⟨.error e, d, fragment⟩
  | .ok (blocks, received) =>
    let (tag, dir) := d.outerTag seq t blocks
    let d := { d with toBlockDirection := dir }
    if tag ≠ received then ⟨.error (.refused .badRecordMac), d, fragment⟩
    else
      let (result, cbc) := d.cbc.decrypt blocks
      let d := { d with cbc }
      match result with
      | .error e => ⟨.error (.refused e.toRecordError), d, fragment⟩
      | .ok plain =>
        let buffer := plain ++ received
        match plain.slice d.ivSize plain.length with
        | .error f => ⟨.error (.fault f), d, buffer⟩
        | .ok body =>
          match d.verify seq t body with
          | (.error f, d) => ⟨.error (.fault f), d, buffer⟩
          | (.ok (content, good), d) =>
            if !good then ⟨.error (.refused .badRecordMac), d, buffer⟩
            else
              match InnerPlaintext.unwrap d.inner t content with
              | .error e => ⟨.error (.refused e), d, buffer⟩
              | .ok (plaintext, t) => ⟨.ok ⟨plaintext, t⟩, d, buffer⟩

end BlockDecoder

structure BlockProtection where
  encoder : BlockEncoder
  decoder : BlockDecoder

namespace BlockProtection
variable (p : BlockProtection)

/-- Variable paddings are written where the version allows them and a tag of full length, or one
over the ciphertext, protects them. -/
def usesExtraPadding (p : Parameters) : Bool :=
  p.extendedPadding && !p.version.isSsl && !p.version.isDatagram &&
    (p.encryptThenMac || !p.truncatedHmac)

def direction (c : Context) (id : Bytes) (cbc : Cbc) (mac : Mac) : BlockDirection :=
  ⟨cbc, RecordMac.new c.version c.params.truncatedHmac mac, id, c.params.encryptThenMac,
    c.version.hasExplicitIv⟩

/-- Key both directions from the key block. With a random block ahead of each record the chains
start at zero. -/
def ofKeyBlock (c : Context) (v : Aes.Variant) (a : MacAlgorithm) (scratch : Bytes) :
    Except RecordError BlockProtection := do
  let ivSize := if c.version.hasExplicitIv then 0 else BlockDirection.blockSize
  let keys ← c.keyBlock "CBC cipher requires a master secret" a.size v.keySize ivSize
  let write := keys.keysOf c.role
  let read := keys.keysOf c.role.peer
  let ivOf (k : DirectionKeys) :=
    if c.version.hasExplicitIv then Bytes.zeros BlockDirection.blockSize else k.iv
  let writeMac ← forRecord (Mac.keyed a write.mac)
  let readMac ← forRecord (Mac.keyed a read.mac)
  let encryptor ← forRecord (Cbc.keyed v write.key (ivOf write))
  let decryptor ← forRecord (Cbc.keyed v read.key (ivOf read))
  pure ⟨⟨direction c c.params.peerId encryptor writeMac, usesExtraPadding c.params⟩,
    ⟨direction c c.params.localId decryptor readMac, !c.version.isSsl, scratch⟩⟩

/-- Build both directions. The scratch of the padding check is drawn first. -/
def new (c : Context) (v : Aes.Variant) (a : MacAlgorithm) :
    Except RecordError BlockProtection × Context :=
  if c.version.isTls13 then
    (.error (.internalError "CBC cipher suites cannot be used with TLS 1.3"), c)
  else
    match c.randomness.draw Padding.maxSize with
    | .error e =>
      (.error e.toRecordError, { c with randomness := c.randomness.refused Padding.maxSize })
    | .ok (scratch, r) => (ofKeyBlock c v a scratch, { c with randomness := r })

def ciphertextDecodeLimit (n : Nat) : Except Fault Nat := do
  let n ← Size.add n (InnerPlaintext.allowance p.decoder.inner)
  p.decoder.ciphertextSize Padding.maxSize n

def ciphertextEncodeLimit (n limit : Nat) : Except Fault Nat := do
  let n ← Size.add (min n limit) (InnerPlaintext.overhead p.encoder.inner)
  p.encoder.ciphertextSize p.encoder.maxPadding n

def plaintextDecodeLimit (n : Nat) : Nat :=
  p.decoder.contentLimit n - InnerPlaintext.overhead p.decoder.inner

/-- The longest plaintext that fits a fragment of `n` bytes with the shortest padding. -/
def plaintextEncodeLimit (n : Nat) : Nat :=
  p.decoder.contentLimit n - InnerPlaintext.overhead p.encoder.inner

end BlockProtection

end RecordLayer
