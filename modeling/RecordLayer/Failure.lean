import RecordLayer.Size
import RecordLayer.Alert

/-! # Failures

Cryptographic operations and record protection refuse for a stated cause. The cause of a refused
record decides the alert; a failed tag says nothing about which check it failed.
-/

namespace RecordLayer

/-- Why a cryptographic operation refuses. -/
inductive CryptoError
  | deadSecret
  | invalidKeyLength (expected actual : Nat)
  | invalidOutputLength (requested max : Nat)
  | unsupportedAlgorithm (reason : String)
  | randomness
  | authenticationFailed
  | engine (reason : String)
  deriving DecidableEq, Repr

/-- Why a record cannot be protected or is not accepted. -/
inductive RecordError
  | decodeError (reason : String)
  | badRecordMac
  | internalError (reason : String)
  | unexpectedMessage (reason : String)
  deriving DecidableEq, Repr

/-- A refusal, or a fault in the sizes involved. -/
inductive Failure
  | refused (e : RecordError)
  | fault (f : Fault)
  deriving DecidableEq, Repr

namespace CryptoError

def message : CryptoError → String
  | deadSecret => "secret is no longer alive"
  | invalidKeyLength expected actual =>
    "invalid key length: expected " ++ toString expected ++ ", got " ++ toString actual
  | invalidOutputLength requested max =>
    "invalid output length: requested " ++ toString requested ++ ", max " ++ toString max
  | unsupportedAlgorithm reason => "unsupported algorithm: " ++ reason
  | randomness => "randomness source failed"
  | authenticationFailed => "authentication failed"
  | engine reason => "engine failure: " ++ reason

/-- The caller is at fault, and neither its surroundings nor the peer. -/
def isMisuse : CryptoError → Bool
  | randomness | authenticationFailed => false
  | _ => true

/-- A failed authentication is a bad record; all else is an error of this end. -/
def toRecordError : CryptoError → RecordError
  | authenticationFailed => .badRecordMac
  | e => .internalError e.message

end CryptoError

namespace RecordError

def message : RecordError → String
  | decodeError reason => "decode error: " ++ reason
  | badRecordMac => "bad record MAC"
  | internalError reason => "internal error: " ++ reason
  | unexpectedMessage reason => "unexpected message: " ++ reason

def alert : RecordError → Alert
  | decodeError _ => .decodeError
  | badRecordMac => .badRecordMac
  | internalError _ => .internalError
  | unexpectedMessage _ => .unexpectedMessage

/-- A refused record is never tried again. -/
def isFatal : RecordError → Bool := fun _ => true

end RecordError

def forRecord {α : Type} : Except CryptoError α → Except RecordError α
  | .ok a => .ok a
  | .error e => .error e.toRecordError

instance : MonadLift (Except RecordError) (Except Failure) := ⟨Except.mapError .refused⟩

instance : MonadLift (Except Fault) (Except Failure) := ⟨Except.mapError .fault⟩

end RecordLayer
