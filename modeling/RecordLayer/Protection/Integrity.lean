import RecordLayer.Protection.Record
import RecordLayer.AdditionalData
import RecordLayer.InnerPlaintext
import RecordLayer.Mac
import RecordLayer.Nonce
import RecordLayer.Context

/-! # Integrity under traffic secrets

The inner plaintext travels in the clear, followed by a tag over the nonce, the header and the
inner plaintext.
-/

namespace RecordLayer

structure IntegrityDirection where
  hash : Hash
  mac : Mac
  iv : Bytes

namespace IntegrityDirection
variable (d : IntegrityDirection)

def overhead : Nat := d.hash.size + 1

def tag (seq : UInt64) (t : ContentType) (v : Version) (payload : Bytes) :
    Bytes × IntegrityDirection :=
  let header := AdditionalData.tls13 t v (payload.length + d.hash.size)
  let (tag, mac) := (((d.mac.update (Nonce.implicit d.iv seq)).update header).update payload).finish
  (tag, { d with mac })

def encode (seq : UInt64) (t : ContentType) (v : Version) (room : Nat) (plaintext : Bytes) :
    Except Failure Protected × IntegrityDirection :=
  let payload := InnerPlaintext.wrap true t plaintext
  let total := payload.length + d.hash.size
  match Size.reserve room total with
  | .error f => (.error (.fault f), d)
  | .ok () =>
    let (tag, d) := d.tag seq .applicationData v payload
    (.ok (.ofSize room total .applicationData (payload ++ tag)), d)

def decode (seq : UInt64) (t : ContentType) (v : Version) (fragment : Bytes) :
    Except Failure Recovered × IntegrityDirection :=
  if fragment.length < d.overhead then
    (.error (.refused (.decodeError "record shorter than tag and content type")), d)
  else
    match splitTag d.hash.size fragment with
    | .error f => (.error (.fault f), d)
    | .ok (payload, received) =>
      let (tag, d) := d.tag seq t v payload
      if tag ≠ received then (.error (.refused .badRecordMac), d)
      else
        match InnerPlaintext.unwrap true t payload with
        | .error e => (.error (.refused e), d)
        | .ok (plaintext, t) => (.ok ⟨plaintext, t⟩, d)

def derive (c : Context) (owner : Role) (h : Hash) : Except RecordError IntegrityDirection := do
  let keys ← c.trafficKeys "integrity-only cipher requires a traffic secret" owner h h.size h.size
  pure ⟨h, Mac.hmac h keys.key, keys.iv⟩

end IntegrityDirection

structure IntegrityProtection where
  hash : Hash
  encoder : IntegrityDirection
  decoder : IntegrityDirection

namespace IntegrityProtection
variable (p : IntegrityProtection)

def new (c : Context) (h : Hash) : Except RecordError IntegrityProtection := do
  if !c.version.isTls13 then
    throw (.internalError "integrity-only cipher suites require TLS 1.3")
  let encoder ← IntegrityDirection.derive c c.role h
  let decoder ← IntegrityDirection.derive c c.role.peer h
  pure ⟨h, encoder, decoder⟩

def direction : Side → IntegrityDirection
  | .write => p.encoder
  | .read => p.decoder

def withDirection (d : IntegrityDirection) : Side → IntegrityProtection
  | .write => { p with encoder := d }
  | .read => { p with decoder := d }

@[simp] theorem direction_withDirection (d : IntegrityDirection) (side : Side) :
    (p.withDirection d side).direction side = d := by cases side <;> rfl

@[simp] theorem direction_withDirection_other (d : IntegrityDirection) (side : Side) :
    (p.withDirection d side).direction side.other = p.direction side.other := by
  cases side <;> rfl

def rekey (c : Context) (side : Side) : Except RecordError IntegrityProtection :=
  (p.withDirection · side) <$> IntegrityDirection.derive c (side.owner c.role) p.hash

def ciphertextDecodeLimit (n : Nat) : Except Fault Nat := do
  let n ← Size.add n p.hash.size
  Size.add n (InnerPlaintext.allowance true)

def ciphertextEncodeLimit (n limit : Nat) : Except Fault Nat :=
  Size.add (min n limit) (p.hash.size + 1)

def plaintextDecodeLimit (n : Nat) : Nat := n - (p.hash.size + 1)

def plaintextEncodeLimit (n : Nat) : Nat := n - (p.hash.size + 1)

end IntegrityProtection

end RecordLayer
