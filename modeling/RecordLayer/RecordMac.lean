import RecordLayer.Mac
import RecordLayer.AdditionalData

/-! # Record tags

The tag of a record covers a header, which depends on the version and the connection ID, and the
message. A tag can also be computed in uniform time: dummy blocks make up for the blocks that a
longer message would have filled.
-/

namespace RecordLayer

/-- The tags of one direction. -/
structure RecordMac where
  version : Version
  mac : Mac
  size : Nat

namespace RecordMac

/-- The longest tag, where short tags were negotiated. -/
def truncatedSize : Nat := 10

def new (v : Version) (truncated : Bool) (mac : Mac) : RecordMac :=
  ⟨v, mac, if truncated then min mac.size truncatedSize else mac.size⟩

variable (m : RecordMac)

/-- What is authenticated ahead of a message of `len` bytes. -/
def header (seq : UInt64) (t : ContentType) (id : Bytes) (len : Nat) : Bytes :=
  if !id.isEmpty then AdditionalData.connectionId seq m.version id len
  else if m.version.isSsl then AdditionalData.ssl3 seq t len
  else AdditionalData.legacy seq t m.version len

def headerSize (id : Bytes) : Nat :=
  if !id.isEmpty then AdditionalData.connectionIdBaseSize + id.length
  else if m.version.isSsl then AdditionalData.ssl3Size
  else AdditionalData.legacySize

def tag (seq : UInt64) (t : ContentType) (id message : Bytes) : Bytes × RecordMac :=
  let (full, mac) := ((m.mac.update (m.header seq t id message.length)).update message).finish
  (full.take m.size, { m with mac })

def blockCount (n : Nat) : Except Fault Nat :=
  (· / m.mac.blockSize) <$> Size.add n m.mac.lengthSize

/-- How many more blocks a message of `fullSize` bytes would fill. -/
def dummyBlocks (headerSize messageSize fullSize : Nat) : Except Fault Nat := do
  let full ← m.blockCount (← Size.add headerSize fullSize)
  let actual ← m.blockCount (← Size.add headerSize messageSize)
  pure (full - actual)

def feed (data : Bytes) : Nat → Mac → Mac
  | 0, mac => mac
  | n + 1, mac => feed data n (mac.update data)

/-- The tag of a message, with the work that a message of `fullSize` bytes would take. -/
def uniformTag (seq : UInt64) (t : ContentType) (id message : Bytes) (fullSize : Nat)
    (dummy : Bytes) : Except Fault Bytes × RecordMac :=
  let (tag, m) := m.tag seq t id message
  match m.dummyBlocks (m.headerSize id) message.length fullSize with
  | .error f => (.error f, m)
  | .ok n =>
    let mac := feed (dummy.take m.mac.blockSize) n m.mac
    (.ok tag, { m with mac := (mac.update (dummy.take 1)).reset })

theorem length_header (seq : UInt64) (t : ContentType) (id : Bytes) (len : Nat) :
    (m.header seq t id len).length = m.headerSize id := by
  unfold header headerSize
  split
  · exact AdditionalData.length_connectionId ..
  · split
    · exact AdditionalData.length_ssl3 ..
    · exact AdditionalData.length_legacy ..

end RecordMac

end RecordLayer
