import RecordLayer.Bytes

/-! # Content types

Any byte is a content type. A record that hides its type inside the plaintext can carry every
nonzero one.
-/

namespace RecordLayer

structure ContentType where
  code : UInt8
  deriving DecidableEq, Repr

namespace ContentType

/-- The outer type of records that hide their type under traffic secrets. -/
def applicationData : ContentType := ⟨23⟩

/-- The outer type of records that carry a connection ID. -/
def connectionId : ContentType := ⟨25⟩

def name (t : ContentType) : String :=
  match t.code.toNat with
  | 20 => "change_cipher_spec"
  | 21 => "alert"
  | 22 => "handshake"
  | 23 => "application_data"
  | 24 => "heartbeat"
  | 25 => "tls12_cid"
  | 26 => "ack"
  | n => "content_type(" ++ toString n ++ ")"

/-- The outer type of a protected record. -/
def outer (isTls13 : Bool) (id : Bytes) (t : ContentType) : ContentType :=
  if isTls13 then applicationData else if id.isEmpty then t else connectionId

end ContentType

end RecordLayer
