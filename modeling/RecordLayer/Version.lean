import RecordLayer.Bytes

/-! # Protocol versions

A version is two bytes on the wire. The datagram versions count downwards, so versions are
ordered by the stream version each one is derived from.
-/

namespace RecordLayer

inductive Version
  | ssl30
  | tls10
  | tls11
  | tls12
  | tls13
  | dtls10
  | dtls12
  | dtls13
  deriving DecidableEq, Repr

namespace Version

def all : List Version := [ssl30, tls10, tls11, tls12, tls13, dtls10, dtls12, dtls13]

def major : Version → UInt8
  | ssl30 | tls10 | tls11 | tls12 | tls13 => 0x03
  | dtls10 | dtls12 | dtls13 => 0xFE

def minor : Version → UInt8
  | ssl30 => 0x00
  | tls10 => 0x01
  | tls11 => 0x02
  | tls12 => 0x03
  | tls13 => 0x04
  | dtls10 => 0xFF
  | dtls12 => 0xFD
  | dtls13 => 0xFC

def bytes (v : Version) : Bytes := [v.major, v.minor]

def code (v : Version) : Nat := 256 * v.major.toNat + v.minor.toNat

/-- The known version with these wire bytes. -/
def ofBytes? (major minor : UInt8) : Option Version :=
  all.find? fun v => v.major = major ∧ v.minor = minor

def name : Version → String
  | ssl30 => "SSLv3"
  | tls10 => "TLSv1.0"
  | tls11 => "TLSv1.1"
  | tls12 => "TLSv1.2"
  | tls13 => "TLSv1.3"
  | dtls10 => "DTLSv1.0"
  | dtls12 => "DTLSv1.2"
  | dtls13 => "DTLSv1.3"

def unknownMessage (major minor : UInt8) : String :=
  "unknown protocol version: 0x" ++ Bytes.hex 2 major.toNat ++ ".0x" ++ Bytes.hex 2 minor.toNat

def isDatagram (v : Version) : Bool := v.major == 0xFE

def isSsl (v : Version) : Bool := v == ssl30

/-- The stream version that a datagram version is derived from. -/
def streamVersion : Version → Version
  | dtls10 => tls11
  | dtls12 => tls12
  | dtls13 => tls13
  | v => v

/-- Order by the stream versions. -/
def atLeast (v w : Version) : Bool := w.streamVersion.minor ≤ v.streamVersion.minor

def isTls13 (v : Version) : Bool := v.atLeast tls13

def isTls12 (v : Version) : Bool := v.streamVersion == tls12

/-- Block cipher records carry their own initial vector. -/
def hasExplicitIv (v : Version) : Bool := v.atLeast tls11

/-- The six bytes that begin every label of the key derivation. -/
def labelTag (v : Version) : Bytes :=
  Bytes.ofText (if v.isDatagram then "dtls13" else "tls13 ")

/-- The version that record headers carry. -/
def headerVersion : Version → Version
  | tls13 => tls12
  | dtls13 => dtls12
  | v => v

@[simp] theorem length_bytes (v : Version) : v.bytes.length = 2 := rfl

theorem ofBytes?_major_minor (v : Version) : ofBytes? v.major v.minor = some v := by
  cases v <;> decide

theorem eq_of_ofBytes? {major minor : UInt8} {v : Version} (h : ofBytes? major minor = some v) :
    v.major = major ∧ v.minor = minor := by
  simpa using List.find?_some h

end Version

end RecordLayer
