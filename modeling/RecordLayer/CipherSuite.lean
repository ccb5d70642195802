import RecordLayer.Mac
import RecordLayer.Cipher.Aead

/-! # Cipher suites

The registered suites whose records can be protected, with the protection that each one calls
for.
-/

namespace RecordLayer

/-- The protection of the bulk of the data. -/
inductive BulkCipher
  | null
  | block (variant : Aes.Variant)
  | aead (algorithm : AeadAlgorithm)
  | integrity (hash : Hash)
  deriving DecidableEq, Repr

structure CipherSuite where
  id : Nat
  name : String
  bulk : BulkCipher
  /-- The algorithm of the tag, where it is apart from the encryption. -/
  mac : MacAlgorithm
  /-- The hash of the key derivation. -/
  prfHash : Hash
  deriving DecidableEq, Repr

namespace CipherSuite

/-- The suite that every connection begins with. -/
def nullWithNullNull : CipherSuite :=
  ⟨0x0000, "TLS_NULL_WITH_NULL_NULL", .null, .null, .sha256⟩

def all : List CipherSuite := [
  nullWithNullNull,
  ⟨0x0002, "TLS_RSA_WITH_NULL_SHA", .null, .hmac .sha1, .sha256⟩,
  ⟨0x003B, "TLS_RSA_WITH_NULL_SHA256", .null, .hmac .sha256, .sha256⟩,
  ⟨0x002F, "TLS_RSA_WITH_AES_128_CBC_SHA", .block .aes128, .hmac .sha1, .sha256⟩,
  ⟨0x0035, "TLS_RSA_WITH_AES_256_CBC_SHA", .block .aes256, .hmac .sha1, .sha256⟩,
  ⟨0x003C, "TLS_RSA_WITH_AES_128_CBC_SHA256", .block .aes128, .hmac .sha256, .sha256⟩,
  ⟨0x003D, "TLS_RSA_WITH_AES_256_CBC_SHA256", .block .aes256, .hmac .sha256, .sha256⟩,
  ⟨0xC013, "TLS_ECDHE_RSA_WITH_AES_128_CBC_SHA", .block .aes128, .hmac .sha1, .sha256⟩,
  ⟨0xC014, "TLS_ECDHE_RSA_WITH_AES_256_CBC_SHA", .block .aes256, .hmac .sha1, .sha256⟩,
  ⟨0xC027, "TLS_ECDHE_RSA_WITH_AES_128_CBC_SHA256", .block .aes128, .hmac .sha256, .sha256⟩,
  ⟨0xC028, "TLS_ECDHE_RSA_WITH_AES_256_CBC_SHA384", .block .aes256, .hmac .sha384, .sha384⟩,
  ⟨0x009C, "TLS_RSA_WITH_AES_128_GCM_SHA256", .aead .aes128Gcm, .null, .sha256⟩,
  ⟨0x009D, "TLS_RSA_WITH_AES_256_GCM_SHA384", .aead .aes256Gcm, .null, .sha384⟩,
  ⟨0xC02F, "TLS_ECDHE_RSA_WITH_AES_128_GCM_SHA256", .aead .aes128Gcm, .null, .sha256⟩,
  ⟨0xC030, "TLS_ECDHE_RSA_WITH_AES_256_GCM_SHA384", .aead .aes256Gcm, .null, .sha384⟩,
  ⟨0xC09C, "TLS_RSA_WITH_AES_128_CCM", .aead .aes128Ccm, .null, .sha256⟩,
  ⟨0xC09D, "TLS_RSA_WITH_AES_256_CCM", .aead .aes256Ccm, .null, .sha256⟩,
  ⟨0xC0A0, "TLS_RSA_WITH_AES_128_CCM_8", .aead .aes128Ccm8, .null, .sha256⟩,
  ⟨0xC0A1, "TLS_RSA_WITH_AES_256_CCM_8", .aead .aes256Ccm8, .null, .sha256⟩,
  ⟨0xCCA8, "TLS_ECDHE_RSA_WITH_CHACHA20_POLY1305_SHA256", .aead .chaCha20Poly1305, .null, .sha256⟩,
  ⟨0x1301, "TLS_AES_128_GCM_SHA256", .aead .aes128Gcm, .null, .sha256⟩,
  ⟨0x1302, "TLS_AES_256_GCM_SHA384", .aead .aes256Gcm, .null, .sha384⟩,
  ⟨0x1303, "TLS_CHACHA20_POLY1305_SHA256", .aead .chaCha20Poly1305, .null, .sha256⟩,
  ⟨0x1304, "TLS_AES_128_CCM_SHA256", .aead .aes128Ccm, .null, .sha256⟩,
  ⟨0x1305, "TLS_AES_128_CCM_8_SHA256", .aead .aes128Ccm8, .null, .sha256⟩,
  ⟨0xC0B4, "TLS_SHA256_SHA256", .integrity .sha256, .null, .sha256⟩,
  ⟨0xC0B5, "TLS_SHA384_SHA384", .integrity .sha384, .null, .sha384⟩]

def ofId? (id : Nat) : Option CipherSuite := all.find? fun s => s.id = id

def isTls13 (s : CipherSuite) : Bool :=
  s.id / 256 == 0x13 || match s.bulk with
    | .integrity _ => true
    | _ => false

def text (s : CipherSuite) : String :=
  s.name ++ " (0x" ++ (Bytes.hex 4 s.id).toUpper ++ ")"

end CipherSuite

end RecordLayer
