import RecordLayer.CipherSuite
import RecordLayer.Protection.Aead
import RecordLayer.Protection.Block
import RecordLayer.Protection.Integrity
import RecordLayer.Protection.Null

/-! # Record protection

The four families of protection behind one interface. Every operation returns the state that it
leaves behind, also when it refuses.
-/

namespace RecordLayer

inductive Protection
  | aead (p : AeadProtection)
  | block (p : BlockProtection)
  | null (p : NullProtection)
  | integrity (p : IntegrityProtection)

namespace Protection

/-- The tags of the oldest version have a construction of their own. -/
def macOf (v : Version) : MacAlgorithm → MacAlgorithm
  | .hmac h => if v.isSsl then .ssl3 h else .hmac h
  | a => a

/-- The protection that a suite calls for. -/
def ofSuite (c : Context) (s : CipherSuite) : Except RecordError Protection × Context :=
  if s.isTls13 ≠ c.version.isTls13 then
    (.error (.internalError
      (s.text ++ " cannot protect " ++ c.version.name ++ " records")), c)
  else
    match s.bulk, macOf c.version s.mac with
    | .null, .null => (.ok (.null .passthrough), c)
    | .null, a => (.null <$> NullProtection.new c a, c)
    | .block v, a =>
      let (p, c) := BlockProtection.new c v a
      (.block <$> p, c)
    | .aead a, _ => (.aead <$> AeadProtection.new c a, c)
    | .integrity h, _ => (.integrity <$> IntegrityProtection.new c h, c)

/-- Protect a plaintext, with `room` for a header ahead of it. -/
def encode (p : Protection) (r : Randomness) (seq : UInt64) (t : ContentType) (v : Version)
    (room : Nat) (plaintext : Bytes) : Except Failure Protected × Protection × Randomness :=
  match p with
  | aead p => (p.encoder.encode seq t v room plaintext, aead p, r)
  | block p =>
    let (result, encoder, r) := p.encoder.encode r seq t room plaintext
    (result, block { p with encoder }, r)
  | null p =>
    let (result, encoder) := p.encoder.encode seq t room plaintext
    (result, null { p with encoder }, r)
  | integrity p =>
    let (result, encoder) := p.encoder.encode seq t v room plaintext
    (result, integrity { p with encoder }, r)

/-- Recover the plaintext of a fragment. -/
def decode (p : Protection) (seq : UInt64) (t : ContentType) (v : Version) (fragment : Bytes) :
    Except Failure Recovered × Protection :=
  match p with
  | aead p => (p.decoder.decode seq t v fragment, aead p)
  | block p =>
    let d := p.decoder.decode seq t fragment
    (d.result, block { p with decoder := d.decoder })
  | null p =>
    let (result, decoder) := p.decoder.decode seq t fragment
    (result, null { p with decoder })
  | integrity p =>
    let (result, decoder) := p.decoder.decode seq t v fragment
    (result, integrity { p with decoder })

def rekeyUnsupported : RecordError := .internalError "rekey is not supported by this cipher"

/-- Key one direction from its current traffic secret. -/
def rekey (p : Protection) (c : Context) (side : Side) : Except RecordError Protection :=
  match p with
  | aead p => aead <$> p.rekey c side
  | integrity p => integrity <$> p.rekey c side
  | block _ | null _ => .error rekeyUnsupported

def rekeyEncoder (p : Protection) (c : Context) : Except RecordError Protection := p.rekey c .write

def rekeyDecoder (p : Protection) (c : Context) : Except RecordError Protection := p.rekey c .read

/-- The type in the header of a received record says nothing about its content. -/
def usesOpaqueType : Protection → Bool
  | aead p => p.decoder.inner
  | block p => p.decoder.inner
  | null p => p.decoder.inner
  | integrity _ => true

/-- The longest fragment that a peer may send for a plaintext of at most `n` bytes. -/
def ciphertextDecodeLimit (p : Protection) (n : Nat) : Except Fault Nat :=
  match p with
  | aead p => p.ciphertextDecodeLimit n
  | block p => p.ciphertextDecodeLimit n
  | null p => p.ciphertextDecodeLimit n
  | integrity p => p.ciphertextDecodeLimit n

/-- The longest fragment for a plaintext of `n` bytes, of which at most `limit` count. -/
def ciphertextEncodeLimit (p : Protection) (n limit : Nat) : Except Fault Nat :=
  match p with
  | aead p => p.ciphertextEncodeLimit n limit
  | block p => p.ciphertextEncodeLimit n limit
  | null p => p.ciphertextEncodeLimit n limit
  | integrity p => p.ciphertextEncodeLimit n limit

/-- The longest plaintext that a received fragment of `n` bytes can hold. -/
def plaintextDecodeLimit (p : Protection) (n : Nat) : Nat :=
  match p with
  | aead p => p.plaintextDecodeLimit n
  | block p => p.plaintextDecodeLimit n
  | null p => p.plaintextDecodeLimit n
  | integrity p => p.plaintextDecodeLimit n

/-- The longest plaintext that fits a fragment of `n` bytes. -/
def plaintextEncodeLimit (p : Protection) (n : Nat) : Nat :=
  match p with
  | aead p => p.plaintextEncodeLimit n
  | block p => p.plaintextEncodeLimit n
  | null p => p.plaintextEncodeLimit n
  | integrity p => p.plaintextEncodeLimit n

end Protection

end RecordLayer
