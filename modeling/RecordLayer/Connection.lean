import RecordLayer.Endpoint

/-! # Connections

A client and a server with the same keys, all drawn from one seed, as a handshake would leave
them.
-/

namespace RecordLayer

namespace Connection

/-- What both ends of a connection agree on. -/
structure Settings where
  suite : CipherSuite
  version : Version
  seed : UInt64 := 0x7e575eed
  truncatedHmac : Bool := false
  encryptThenMac : Bool := false
  extendedPadding : Bool := false
  clientId : Bytes := []
  serverId : Bytes := []

structure SharedKeys where
  master : Bytes
  clientRandom : Bytes
  serverRandom : Bytes
  keyMaterial : Bytes

def SharedKeys.ofSeed (seed : UInt64) (h : Hash) : Except CryptoError SharedKeys := do
  let (master, r) ← (Randomness.ofSeed seed).draw 48
  let (clientRandom, r) ← r.draw 32
  let (serverRandom, r) ← r.draw 32
  let (keyMaterial, _) ← r.draw h.size
  pure ⟨master, clientRandom, serverRandom, keyMaterial⟩

def SharedKeys.trafficSecrets (k : SharedKeys) (h : Hash) (tag : Bytes) :
    Except CryptoError (Secret × Secret) := do
  let main ← (Secret.new (Bytes.zeros h.size)).hkdfExtract h k.keyMaterial
  let client ← main.expandLabel h tag (Bytes.ofText "c ap traffic") [] h.size
  let server ← main.expandLabel h tag (Bytes.ofText "s ap traffic") [] h.size
  pure (client, server)

namespace Settings
variable (s : Settings)

/-- The connection ID on records to `r`. -/
def idOf : Role → Bytes
  | .client => s.clientId
  | .server => s.serverId

def seedOf : Role → UInt64
  | .client => s.seed + 1
  | .server => s.seed + 2

def params (r : Role) : Parameters where
  version := s.version
  prfHash := s.suite.prfHash
  localId := s.idOf r
  peerId := s.idOf r.peer
  truncatedHmac := s.truncatedHmac
  encryptThenMac := s.encryptThenMac
  extendedPadding := s.extendedPadding

/-- What `r` knows after the handshake. -/
def context (k : SharedKeys) (r : Role) : Except CryptoError Context := do
  let p := s.params r
  let randomness := Randomness.ofSeed (s.seedOf r)
  if s.version.isTls13 then
    let (client, server) ← k.trafficSecrets p.prfHash s.version.labelTag
    pure { role := r, params := p, clientTraffic := some client, serverTraffic := some server,
           randomness }
  else
    let p := { p with clientRandom := k.clientRandom, serverRandom := k.serverRandom }
    pure { role := r, params := p, master := some (Secret.new k.master), randomness }

def endpoint (k : SharedKeys) (r : Role) : Except RecordError Endpoint := do
  let c ← forRecord (s.context k r)
  let (p, c) := Protection.ofSuite c s.suite
  Endpoint.new c <$> p

end Settings

end Connection

structure Connection where
  suite : CipherSuite
  version : Version
  client : Endpoint
  server : Endpoint

namespace Connection

/-- Derive both ends of a connection. -/
def establish (s : Settings) : Except RecordError Connection := do
  let k ← forRecord (SharedKeys.ofSeed s.seed s.suite.prfHash)
  let client ← s.endpoint k .client
  let server ← s.endpoint k .server
  pure ⟨s.suite, s.version, client, server⟩

variable (c : Connection)

def endpoint : Role → Endpoint
  | .client => c.client
  | .server => c.server

def setEndpoint (r : Role) (e : Endpoint) : Connection :=
  match r with
  | .client => { c with client := e }
  | .server => { c with server := e }

def send (r : Role) (t : ContentType) (plaintext : Bytes) : Except Failure Bytes × Connection :=
  let (result, e) := (c.endpoint r).send t plaintext
  (result, c.setEndpoint r e)

def receive (r : Role) (wire : Bytes) : Except Failure Recovered × Connection :=
  let (result, e) := (c.endpoint r).receive wire
  (result, c.setEndpoint r e)

/-- Send one record from `r` to its peer. -/
def transfer (r : Role) (t : ContentType) (plaintext : Bytes) :
    Except Failure Recovered × Connection :=
  match c.send r t plaintext with
  | (.error f, c) => (.error f, c)
  | (.ok wire, c) => c.receive r.peer wire

def updateWriteKeys (r : Role) : Except RecordError Unit × Connection :=
  let (result, e) := (c.endpoint r).updateWriteKeys
  (result, c.setEndpoint r e)

def updateReadKeys (r : Role) : Except RecordError Unit × Connection :=
  let (result, e) := (c.endpoint r).updateReadKeys
  (result, c.setEndpoint r e)

def updateKeys (r : Role) : Except RecordError Unit × Connection :=
  match c.updateWriteKeys r with
  | (.error e, c) => (.error e, c)
  | (.ok (), c) => c.updateReadKeys r.peer

end Connection

end RecordLayer
