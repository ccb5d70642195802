/-! # Alerts

The alerts that record protection can raise. Each one ends the connection.
-/

namespace RecordLayer

inductive Alert
  | unexpectedMessage
  | badRecordMac
  | decodeError
  | internalError
  deriving DecidableEq, Repr

namespace Alert

def code : Alert → UInt8
  | unexpectedMessage => 10
  | badRecordMac => 20
  | decodeError => 50
  | internalError => 80

def name : Alert → String
  | unexpectedMessage => "unexpected_message"
  | badRecordMac => "bad_record_mac"
  | decodeError => "decode_error"
  | internalError => "internal_error"

def text (a : Alert) : String := a.name ++ "(" ++ toString a.code.toNat ++ ")"

def ofCode? (n : UInt8) : Option Alert :=
  [unexpectedMessage, badRecordMac, decodeError, internalError].find? fun a => a.code = n

def unknownMessage (n : UInt8) : String :=
  "unknown alert description: " ++ toString n.toNat

theorem ofCode?_code (a : Alert) : ofCode? a.code = some a := by cases a <;> decide

end Alert

end RecordLayer
