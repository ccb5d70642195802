import RecordLayer.Protection
import RecordLayer.Header

/-! # Endpoints

One end of a connection: its protection with the counters of both directions. Stream records are
numbered here; datagram records carry an epoch and their number, and a key update starts the next
epoch.
-/

namespace RecordLayer

structure Endpoint where
  context : Context
  protection : Protection
  headerVersion : Version
  writeEpoch : UInt16
  readEpoch : UInt16
  writeSeq : UInt64
  readSeq : UInt64

namespace Endpoint

def new (c : Context) (p : Protection) : Endpoint := ⟨c, p, c.version.headerVersion, 0, 0, 0, 0⟩

variable (e : Endpoint)

def role : Role := e.context.role

def isDatagram : Bool := e.context.version.isDatagram

/-- The number of a record as protection and header take it: datagrams put the epoch into its
upper 16 bits. -/
def packed (epoch : UInt16) (seq : UInt64) : UInt64 :=
  if e.isDatagram then (epoch.toUInt64 <<< 48) ||| (seq &&& 0xFFFFFFFFFFFF) else seq

def next (seq : UInt64) : Except Fault UInt64 :=
  if seq.toNat + 1 < Size.bound then .ok (seq + 1) else .error .sizeOverflow

def headerRoom : Nat :=
  if e.isDatagram then Header.datagramSize + e.context.params.peerId.length else Header.streamSize

def header (seq : UInt64) (p : Protected) : Header where
  contentType := p.recordType
  version := e.headerVersion
  sequence := if e.isDatagram then some seq else none
  connectionId :=
    if e.isDatagram ∧ p.recordType = .connectionId then e.context.params.peerId else []
  length := p.size

/-- Write the header into the room ahead of a fragment, and drop what it leaves over. -/
def frame (seq : UInt64) (p : Protected) : Except Failure Bytes := do
  let h := e.header seq p
  let start ← Size.sub p.offset h.size
  let room ← p.buffer.slice start p.offset
  let bytes ← h.write room.length
  pure (bytes ++ p.buffer.drop p.offset)

def send (t : ContentType) (plaintext : Bytes) : Except Failure Bytes × Endpoint :=
  let seq := e.packed e.writeEpoch e.writeSeq
  let (result, protection, randomness) :=
    e.protection.encode e.context.randomness seq t e.headerVersion e.headerRoom plaintext
  let e := { e with protection, context := { e.context with randomness } }
  match result with
  | .error f => (.error f, e)
  | .ok p =>
    match e.frame seq p with
    | .error f => (.error f, e)
    | .ok wire =>
      match next e.writeSeq with
      | .error f => (.error (.fault f), e)
      | .ok writeSeq => (.ok wire, { e with writeSeq })

/-- Read the header of a record and check it: the number, the type and the fragment. -/
def accept (wire : Bytes) : Except Failure (UInt64 × ContentType × Bytes) := do
  let h ← Header.parse wire e.isDatagram e.context.params.localId.length
  if h.version ≠ e.headerVersion then
    throw (.refused (.decodeError "unexpected record version"))
  let n ← Size.sub wire.length h.size
  if n ≠ h.length then
    throw (.refused (.decodeError "record length does not match header"))
  let seq ←
    match h.sequence with
    | some seq =>
      if (seq >>> 48).toUInt16 ≠ e.readEpoch then
        throw (.refused (.unexpectedMessage "record from another epoch"))
      else pure seq
    | none => pure e.readSeq
  let fragment ← wire.slice h.size wire.length
  pure (seq, h.contentType, fragment)

def receive (wire : Bytes) : Except Failure Recovered × Endpoint :=
  match e.accept wire with
  | .error f => (.error f, e)
  | .ok (seq, t, fragment) =>
    let (result, protection) := e.protection.decode seq t e.headerVersion fragment
    let e := { e with protection }
    match result with
    | .error f => (.error f, e)
    | .ok received =>
      match next e.readSeq with
      | .error f => (.error (.fault f), e)
      | .ok readSeq => (.ok received, { e with readSeq })

def nextEpoch : Side → Endpoint
  | .write => { e with writeEpoch := e.writeEpoch + 1, writeSeq := 0 }
  | .read => { e with readEpoch := e.readEpoch + 1, readSeq := 0 }

/-- Replace the traffic secret behind one direction and key the direction from it. -/
def updateKeys (side : Side) : Except RecordError Unit × Endpoint :=
  match forRecord (e.context.updateTrafficSecret (side.owner e.role)) with
  | .error err => (.error err, e)
  | .ok context =>
    let e := { e with context }
    match e.protection.rekey context side with
    | .error err => (.error err, e)
    | .ok protection => (.ok (), nextEpoch { e with protection } side)

def updateWriteKeys : Except RecordError Unit × Endpoint := e.updateKeys .write

def updateReadKeys : Except RecordError Unit × Endpoint := e.updateKeys .read

end Endpoint

end RecordLayer
