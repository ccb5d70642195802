import RecordLayer.Version
import RecordLayer.ContentType

/-! # Additional data

The strings that are authenticated ahead of a record. Lengths keep their low 16 bits, and the
length of a connection ID its low 8 bits.
-/

namespace RecordLayer.AdditionalData

def tls13Size : Nat := 5

def legacySize : Nat := 13

def ssl3Size : Nat := 11

def connectionIdBaseSize : Nat := 23

def tls13 (t : ContentType) (v : Version) (len : Nat) : Bytes :=
  t.code :: v.bytes ++ Bytes.be 2 len

def legacy (seq : UInt64) (t : ContentType) (v : Version) (len : Nat) : Bytes :=
  Bytes.be 8 seq.toNat ++ t.code :: v.bytes ++ Bytes.be 2 len

def ssl3 (seq : UInt64) (t : ContentType) (len : Nat) : Bytes :=
  Bytes.be 8 seq.toNat ++ t.code :: Bytes.be 2 len

/-- A mark in place of the record number and of the type, and both IDs of the record: its number
and the connection ID. -/
def connectionId (seq : UInt64) (v : Version) (id : Bytes) (len : Nat) : Bytes :=
  let t := ContentType.connectionId.code
  List.replicate 8 0xff ++ [t, UInt8.ofNat id.length, t] ++ v.bytes ++ Bytes.be 8 seq.toNat ++
    id ++ Bytes.be 2 len

/-- The additional data of authenticated encryption: under traffic secrets the length of the
ciphertext counts, before them that of the plaintext. -/
def ofAead (isTls13 : Bool) (seq : UInt64) (t : ContentType) (v : Version) (id : Bytes)
    (ciphertextLen plaintextLen : Nat) : Bytes :=
  if isTls13 then tls13 t v ciphertextLen
  else if id.isEmpty then legacy seq t v plaintextLen
  else connectionId seq v id plaintextLen

@[simp] theorem length_tls13 (t : ContentType) (v : Version) (len : Nat) :
    (tls13 t v len).length = tls13Size := by simp [tls13, tls13Size]

@[simp] theorem length_legacy (seq : UInt64) (t : ContentType) (v : Version) (len : Nat) :
    (legacy seq t v len).length = legacySize := by simp [legacy, legacySize]

@[simp] theorem length_ssl3 (seq : UInt64) (t : ContentType) (len : Nat) :
    (ssl3 seq t len).length = ssl3Size := by simp [ssl3, ssl3Size]

@[simp] theorem length_connectionId (seq : UInt64) (v : Version) (id : Bytes) (len : Nat) :
    (connectionId seq v id len).length = connectionIdBaseSize + id.length := by
  simp [connectionId, connectionIdBaseSize]
  omega

end RecordLayer.AdditionalData
