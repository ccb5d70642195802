import RecordLayer.KeySchedule.KeyBlock
import RecordLayer.Randomness

/-! # Contexts

What one end of a connection knows: its role, what was negotiated, its secrets and its source of
randomness. Of these only the secrets and the randomness change after the handshake.
-/

namespace RecordLayer

structure Parameters where
  version : Version
  prfHash : Hash := .sha256
  clientRandom : Bytes := Bytes.zeros 32
  serverRandom : Bytes := Bytes.zeros 32
  /-- The connection ID on records from the peer. -/
  localId : Bytes := []
  /-- The connection ID on records to the peer. -/
  peerId : Bytes := []
  truncatedHmac : Bool := false
  encryptThenMac : Bool := false
  extendedPadding : Bool := false

structure Context where
  role : Role
  params : Parameters
  master : Option Secret := none
  clientTraffic : Option Secret := none
  serverTraffic : Option Secret := none
  randomness : Randomness

namespace Parameters

def prf (p : Parameters) : Prf := Prf.ofVersion p.version p.prfHash

end Parameters

namespace Context
variable (c : Context)

def version : Version := c.params.version

/-- The traffic secret of what `r` writes. -/
def trafficSecret : Role → Option Secret
  | .client => c.clientTraffic
  | .server => c.serverTraffic

def setTrafficSecret (r : Role) (s : Secret) : Context :=
  match r with
  | .client => { c with clientTraffic := some s }
  | .server => { c with serverTraffic := some s }

def nextTrafficSecret (r : Role) : Except CryptoError Secret :=
  match c.trafficSecret r with
  | none => .error .deadSecret
  | some s =>
    s.expandLabel c.params.prfHash c.version.labelTag (Bytes.ofText "traffic upd") []
      c.params.prfHash.size

/-- Replace the traffic secret of what `r` writes by the next one. Keys in use stay the same. -/
def updateTrafficSecret (r : Role) : Except CryptoError Context :=
  c.setTrafficSecret r <$> c.nextTrafficSecret r

/-- The key block of the master secret; `missing` is the refusal if there is none. -/
def keyBlock (missing : String) (macSize keySize ivSize : Nat) : Except RecordError KeyBlock :=
  match c.master with
  | none => .error (.internalError missing)
  | some s => do
    let data ← forRecord (s.keyBlock c.params.prf c.params.clientRandom c.params.serverRandom
      (KeyBlock.size macSize keySize ivSize))
    match KeyBlock.split? macSize keySize ivSize data with
    | some b => pure b
    | none => .error (.internalError "key block too short")

/-- The key and initial vector of what `r` writes; `missing` is the refusal if there is no
secret. -/
def trafficKeys (missing : String) (r : Role) (h : Hash) (keySize ivSize : Nat) :
    Except RecordError TrafficKeys :=
  match c.trafficSecret r with
  | none => .error (.internalError missing)
  | some s => forRecord (s.trafficKeys h c.version.labelTag keySize ivSize)

theorem trafficSecret_setTrafficSecret (r : Role) (s : Secret) :
    (c.setTrafficSecret r s).trafficSecret r = some s := by cases r <;> rfl

theorem trafficSecret_setTrafficSecret_peer (r : Role) (s : Secret) :
    (c.setTrafficSecret r s).trafficSecret r.peer = c.trafficSecret r.peer := by cases r <;> rfl

end Context

end RecordLayer
