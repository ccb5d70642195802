import RecordLayer.Connection
import RecordLayer.Outline

/-! # Diagnostics

What may be shown of the values of this library. Keys and secrets are left out.
-/

namespace RecordLayer

open Outline

def Role.outline : Role → Outline
  | .client => plain "Client"
  | .server => plain "Server"

def Version.outline (v : Version) : Outline :=
  record "ProtocolVersion" [("major", number v.major.toNat), ("minor", number v.minor.toNat)] false

def Hash.outline : Hash → Outline
  | .md5 => plain "Md5"
  | .sha1 => plain "Sha1"
  | .sha256 => plain "Sha256"
  | .sha384 => plain "Sha384"
  | .sha512 => plain "Sha512"

def MacAlgorithm.outline : MacAlgorithm → Outline
  | .null => plain "Null"
  | .hmac h => applied "Hmac" h.outline
  | .ssl3 h => applied "Ssl3" h.outline

def AeadAlgorithm.outline : AeadAlgorithm → Outline
  | .aes128Gcm => plain "Aes128Gcm"
  | .aes256Gcm => plain "Aes256Gcm"
  | .aes128Ccm => plain "Aes128Ccm"
  | .aes256Ccm => plain "Aes256Ccm"
  | .aes128Ccm8 => plain "Aes128Ccm8"
  | .aes256Ccm8 => plain "Aes256Ccm8"
  | .chaCha20Poly1305 => plain "ChaCha20Poly1305"

def Aes.Variant.outline : Aes.Variant → Outline
  | .aes128 => plain "Aes128"
  | .aes256 => plain "Aes256"

def NonceMode.outline : NonceMode → Outline
  | .explicit => plain "Explicit"
  | .implicit => plain "Implicit"

def Secret.outline (s : Secret) : Outline := record "Secret" [("alive", flag s.isAlive)] true

/-- Only a seed has an outline; the bytes of a script are not shown. -/
def Randomness.outline : Randomness → Outline
  | .seeded seed _ => record "SeededNonceGenerator" [("seed", number seed.toNat)] true
  | .script _ _ => record "ScriptedNonceGenerator" [] true

def Cbc.outline (s : Cbc) : Outline :=
  record "CbcCipher" [("algorithm", s.variant.outline)] true

def Aead.outline (e : Aead) : Outline :=
  record "AeadEngine" [("algorithm", e.algorithm.outline)] true

def RecordMac.outline (m : RecordMac) : Outline :=
  record "SuiteMac" [("version", m.version.outline), ("algorithm", m.mac.algorithm.outline),
    ("mac_size", number m.size)] true

def Parameters.outline (p : Parameters) : Outline :=
  record "SecurityParameters" [("negotiated_version", p.version.outline),
    ("prf_hash", p.prfHash.outline), ("connection_id_local", bytes p.localId),
    ("connection_id_peer", bytes p.peerId), ("truncated_hmac", flag p.truncatedHmac),
    ("encrypt_then_mac", flag p.encryptThenMac),
    ("extended_padding", flag p.extendedPadding)] true

def Context.outline (c : Context) : Outline :=
  record "CryptoContext" [("entity", c.role.outline), ("params", c.params.outline)] true

def AeadProtection.outline (p : AeadProtection) : Outline :=
  record "AeadRecordCipher" [("algorithm", p.algorithm.outline), ("is_tls13", flag p.isTls13),
    ("nonce_mode", p.mode.outline)] true

def BlockProtection.outline (p : BlockProtection) : Outline :=
  record "BlockRecordCipher" [("cipher", p.encoder.cbc.outline), ("mac", p.encoder.mac.outline),
    ("encrypt_then_mac", flag p.encoder.encryptThenMac),
    ("use_explicit_iv", flag p.encoder.explicitIv)] true

def NullProtection.outline (p : NullProtection) : Outline :=
  match p.encoder.mac with
  | some m => record "NullRecordCipher" [("version", m.version.outline), ("mac", m.outline)] true
  | none => record "NullRecordCipher" [("mac", quoted "none")] true

def IntegrityProtection.outline (p : IntegrityProtection) : Outline :=
  record "IntegrityOnlyCipher" [("hash", p.hash.outline)] true

def Protection.outline : Protection → Outline
  | .aead p => applied "Aead" p.outline
  | .block p => applied "Block" p.outline
  | .null p => applied "Null" p.outline
  | .integrity p => applied "IntegrityOnly" p.outline

def Endpoint.outline (e : Endpoint) : Outline :=
  record "Endpoint" [("ctx", e.context.outline), ("protection", e.protection.outline),
    ("record_version", e.headerVersion.outline), ("write_epoch", number e.writeEpoch.toNat),
    ("read_epoch", number e.readEpoch.toNat), ("write_seq", number e.writeSeq.toNat),
    ("read_seq", number e.readSeq.toNat)] false

end RecordLayer
