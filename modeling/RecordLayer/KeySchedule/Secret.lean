import RecordLayer.KeySchedule.Prf
import RecordLayer.KeySchedule.Hkdf

/-! # Secrets

A secret serves any number of derivations and is handed out at most once. After it was handed out
or destroyed it is dead, and every use of it is refused.
-/

namespace RecordLayer

/-- Key material, until it is handed out or destroyed. -/
structure Secret where
  material : Option Bytes
  deriving DecidableEq

structure TrafficKeys where
  key : Bytes
  iv : Bytes
  deriving DecidableEq

namespace Secret

def new (data : Bytes) : Secret := ⟨some data⟩

def isAlive (s : Secret) : Bool := s.material.isSome

def read (s : Secret) : Except CryptoError Bytes :=
  match s.material with
  | some data => .ok data
  | none => .error .deadSecret

def extract (s : Secret) : Except CryptoError Bytes × Secret := (s.read, ⟨none⟩)

def destroy (_ : Secret) : Secret := ⟨none⟩

def applyPrf (s : Secret) (f : Prf) (label seed : Bytes) (len : Nat) :
    Except CryptoError Secret := do
  let data ← s.read
  new <$> f.apply data label seed len

def expandLabel (s : Secret) (h : Hash) (tag label context : Bytes) (len : Nat) :
    Except CryptoError Secret := do
  let data ← s.read
  new <$> Hkdf.expandLabel h data tag label context len

/-- A new secret with this one as the salt. -/
def hkdfExtract (s : Secret) (h : Hash) (ikm : Bytes) : Except CryptoError Secret := do
  let data ← s.read
  new <$> Hkdf.extract h data ikm

def keyBlock (s : Secret) (f : Prf) (clientRandom serverRandom : Bytes) (len : Nat) :
    Except CryptoError Bytes := do
  let data ← s.read
  f.keyBlock data clientRandom serverRandom len

/-- The key and the initial vector of a traffic secret. Each is handed out of a secret of its
own. -/
def trafficKeys (s : Secret) (h : Hash) (tag : Bytes) (keySize ivSize : Nat) :
    Except CryptoError TrafficKeys := do
  let key ← (← s.expandLabel h tag (Bytes.ofText "key") [] keySize).extract.1
  let iv ← (← s.expandLabel h tag (Bytes.ofText "iv") [] ivSize).extract.1
  pure ⟨key, iv⟩

end Secret

end RecordLayer
