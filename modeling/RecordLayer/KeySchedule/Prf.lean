import RecordLayer.Mac
import RecordLayer.Version

/-! # Pseudo-random functions

The functions that expand a master secret before traffic secrets came into use.
-/

namespace RecordLayer

inductive Prf
  | ssl3
  | tls10
  | tls12 (hash : Hash)
  | tls13 (hash : Hash)
  deriving DecidableEq, Repr

namespace Prf

/-- Only the later versions follow the hash that the suite names. -/
def ofVersion (v : Version) (h : Hash) : Prf :=
  if v.isSsl then ssl3
  else if v.isTls13 then tls13 h
  else if v.isTls12 then tls12 h
  else tls10

def expandBlocks (seed : Bytes) : Nat → Mac → Bytes → List Bytes
  | 0, _, _ => []
  | n + 1, mac, a =>
    let (block, mac) := ((mac.update a).update seed).finish
    let (next, mac) := (mac.update a).finish
    block :: expandBlocks seed n mac next

def pieceCount (n len : Nat) : Nat := (len + n - 1) / n

/-- The first `len` bytes of the expansion of a seed under one hash function. -/
def expand (h : Hash) (secret seed : Bytes) (len : Nat) : Bytes :=
  let (a, mac) := ((Mac.hmac h secret).update seed).finish
  (expandBlocks seed (pieceCount h.size len) mac a).flatten.take len

def apply (f : Prf) (secret label seed : Bytes) (len : Nat) : Except CryptoError Bytes :=
  match f with
  | tls10 =>
    let half := (secret.length + 1) / 2
    .ok (Bytes.xor (expand .md5 (secret.take half) (label ++ seed) len)
      (expand .sha1 (secret.drop (secret.length - half)) (label ++ seed) len))
  | tls12 h => .ok (expand h secret (label ++ seed) len)
  | ssl3 | tls13 _ => .error (.unsupportedAlgorithm "no labelled PRF for this version")

/-- The labelled function with the buffers that it takes: one for label and seed and one for what it
gives. -/
def evaluate (f : Prf) (secret label seed : Bytes) (len : Nat) :
    Except Fault (Except CryptoError Bytes) := do
  Size.reserve label.length seed.length
  Size.reserve len 0
  pure (f.apply secret label seed len)

def ssl3Limit : Nat := 416

/-- The key block of the oldest version; round `r` is salted with `r + 1` copies of letter `r`. -/
def ssl3KeyBlock (secret random : Bytes) (len : Nat) : Except CryptoError Bytes :=
  if ssl3Limit < len then .error (.invalidOutputLength len ssl3Limit)
  else
    let round (r : Nat) : Bytes :=
      let salt := List.replicate (r + 1) (UInt8.ofNat (65 + r))
      Hash.md5.digest (secret ++ Hash.sha1.digest (salt ++ secret ++ random))
    .ok (((List.range (pieceCount 16 len)).flatMap round).take len)

/-- The first `len` bytes of the key block. The seed puts the random of the server first. -/
def keyBlock (f : Prf) (secret clientRandom serverRandom : Bytes) (len : Nat) :
    Except CryptoError Bytes :=
  let seed := serverRandom ++ clientRandom
  match f with
  | ssl3 => ssl3KeyBlock secret seed len
  | f => f.apply secret (Bytes.ofText "key expansion") seed len

end Prf

end RecordLayer
