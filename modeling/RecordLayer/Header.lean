import RecordLayer.Version
import RecordLayer.ContentType
import RecordLayer.Failure

/-! # Record headers

A header gives type, version and length. Datagram headers also number the record, and carry a
connection ID when the type says so.
-/

namespace RecordLayer

structure Header where
  contentType : ContentType
  version : Version
  /-- The epoch and the number of a datagram record. -/
  sequence : Option UInt64
  connectionId : Bytes
  length : Nat
  deriving DecidableEq

namespace Header

def streamSize : Nat := 5

def datagramSize : Nat := 13

def size (h : Header) : Nat :=
  match h.sequence with
  | some _ => datagramSize + h.connectionId.length
  | none => streamSize

def bytes (h : Header) : Bytes :=
  let middle :=
    match h.sequence with
    | some seq => Bytes.be 8 seq.toNat ++ h.connectionId
    | none => []
  h.contentType.code :: h.version.bytes ++ middle ++ Bytes.be 2 h.length

/-- Write a header into `room` bytes, which it has to fill. -/
def write (h : Header) (room : Nat) : Except RecordError Bytes :=
  if 65535 < h.length then
    .error (.internalError ("fragment of " ++ toString h.length ++ " bytes"))
  else if room ≠ h.size then .error (.internalError "header buffer has the wrong size")
  else .ok h.bytes

/-- The length of the header that begins with this type, if connection IDs have `idSize` bytes. -/
def sizeFor (datagram : Bool) (t : ContentType) (idSize : Nat) : Except Fault Nat :=
  if !datagram then .ok streamSize
  else if t = .connectionId then Size.add datagramSize idSize
  else .ok datagramSize

def truncated : RecordError := .decodeError "truncated record header"

/-- Read the header at the start of a string. -/
def parse (x : Bytes) (datagram : Bool) (idSize : Nat) : Except Failure Header := do
  let some code := x.head? | throw (.refused truncated)
  let size ← sizeFor datagram ⟨code⟩ idSize
  if x.length < size then throw (.refused truncated)
  let version ←
    match ← x.slice 1 3 with
    | [major, minor] =>
      match Version.ofBytes? major minor with
      | some v => pure v
      | none => throw (.refused (.decodeError "unknown record version"))
    | _ => throw (.fault .outOfRange)
  let (sequence, id) ←
    if datagram then do
      let seq ← x.slice 3 11
      let id ← x.slice 11 (← Size.sub size 2)
      pure (some (UInt64.ofNat seq.ofBe), id)
    else pure (none, [])
  let length ← x.slice (← Size.sub size 2) size
  pure ⟨⟨code⟩, version, sequence, id, length.ofBe⟩

end Header

end RecordLayer
