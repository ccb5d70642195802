import RecordLayer.Protection.Record
import RecordLayer.InnerPlaintext
import RecordLayer.RecordMac
import RecordLayer.Context

/-! # Authentication without encryption

The plaintext is followed by its tag. Before the first handshake there is not even a tag, and
records pass unchanged.
-/

namespace RecordLayer

structure NullDirection where
  mac : Option RecordMac
  id : Bytes

namespace NullDirection
variable (d : NullDirection)

def passthrough : NullDirection := ⟨none, []⟩

def inner : Bool := !d.id.isEmpty

def macSize : Nat := d.mac.elim 0 RecordMac.size

def encode (seq : UInt64) (t : ContentType) (room : Nat) (plaintext : Bytes) :
    Except Failure Protected × NullDirection :=
  let payload := InnerPlaintext.wrap d.inner t plaintext
  let total := payload.length + d.macSize
  match Size.reserve room total with
  | .error f => (.error (.fault f), d)
  | .ok () =>
    match d.mac with
    | none => (.ok (.ofSize room plaintext.length t plaintext), d)
    | some m =>
      let outer := ContentType.outer false d.id t
      let (tag, m) := m.tag seq outer d.id payload
      (.ok (.ofSize room total outer (payload ++ tag)), { d with mac := some m })

def decode (seq : UInt64) (t : ContentType) (fragment : Bytes) :
    Except Failure Recovered × NullDirection :=
  match d.mac with
  | none => (.ok ⟨fragment, t⟩, d)
  | some m =>
    if fragment.length < m.size then
      (.error (.refused (.decodeError "record shorter than MAC")), d)
    else
      match splitTag m.size fragment with
      | .error f => (.error (.fault f), d)
      | .ok (payload, received) =>
        let (tag, m) := m.tag seq t d.id payload
        let d := { d with mac := some m }
        if tag ≠ received then (.error (.refused .badRecordMac), d)
        else
          match InnerPlaintext.unwrap d.inner t payload with
          | .error e => (.error (.refused e), d)
          | .ok (plaintext, t) => (.ok ⟨plaintext, t⟩, d)

end NullDirection

structure NullProtection where
  encoder : NullDirection
  decoder : NullDirection

namespace NullProtection
variable (p : NullProtection)

def passthrough : NullProtection := ⟨.passthrough, .passthrough⟩

def new (c : Context) (a : MacAlgorithm) : Except RecordError NullProtection := do
  if c.version.isTls13 then
    throw (.internalError "NULL cipher suites cannot be used with TLS 1.3")
  let keys ← c.keyBlock "NULL cipher requires a master secret" a.size 0 0
  let write ← forRecord (Mac.keyed a (keys.keysOf c.role).mac)
  let read ← forRecord (Mac.keyed a (keys.keysOf c.role.peer).mac)
  let mac := RecordMac.new c.version c.params.truncatedHmac
  pure ⟨⟨some (mac write), c.params.peerId⟩, ⟨some (mac read), c.params.localId⟩⟩

def ciphertextDecodeLimit (n : Nat) : Except Fault Nat := do
  let n ← Size.add n (InnerPlaintext.allowance p.decoder.inner)
  Size.add n p.decoder.macSize

def ciphertextEncodeLimit (n limit : Nat) : Except Fault Nat := do
  let n ← Size.add (min n limit) (InnerPlaintext.overhead p.encoder.inner)
  Size.add n p.encoder.macSize

def plaintextDecodeLimit (n : Nat) : Nat :=
  n - (p.decoder.macSize + InnerPlaintext.overhead p.decoder.inner)

def plaintextEncodeLimit (n : Nat) : Nat :=
  n - (p.encoder.macSize + InnerPlaintext.overhead p.encoder.inner)

end NullProtection

end RecordLayer
