import RecordLayer.Hash.Digest
import RecordLayer.Failure

/-! # Message authentication

Both families of tags hash twice: the tag is the digest of an outer key string followed by the
digest of an inner key string and the message. A running `Mac` keeps its keyed state, so that it
is ready for the next message as soon as a tag was taken.
-/

namespace RecordLayer

inductive MacAlgorithm
  | null
  | hmac (hash : Hash)
  | ssl3 (hash : Hash)
  deriving DecidableEq, Repr

namespace MacAlgorithm

/-- The length of a tag, which is also the length of the key taken from a key block. -/
def size : MacAlgorithm → Nat
  | null => 0
  | hmac h | ssl3 h => h.size

end MacAlgorithm

/-- The strings that are hashed before the message and before its digest. -/
structure KeyStrings where
  hash : Hash
  inner : Bytes
  outer : Bytes

namespace KeyStrings

/-- A key is hashed if it is longer than a block, filled up to a block and masked. -/
def hmac (h : Hash) (key : Bytes) : KeyStrings :=
  let short := if h.blockSize < key.length then h.digest key else key
  let block := short ++ Bytes.zeros (h.blockSize - short.length)
  ⟨h, block.map (· ^^^ 0x36), block.map (· ^^^ 0x5c)⟩

def ssl3PadSize : Hash → Nat
  | .md5 => 48
  | _ => 40

def ssl3 (h : Hash) (key : Bytes) : KeyStrings :=
  ⟨h, key ++ List.replicate (ssl3PadSize h) 0x36, key ++ List.replicate (ssl3PadSize h) 0x5c⟩

def of : MacAlgorithm → Bytes → Except CryptoError KeyStrings
  | .hmac h, key => .ok (hmac h key)
  | .ssl3 .md5, key => .ok (ssl3 .md5 key)
  | .ssl3 .sha1, key => .ok (ssl3 .sha1 key)
  | .ssl3 _, _ => .error (.unsupportedAlgorithm "SSLv3 MAC requires MD5 or SHA-1")
  | .null, _ => .error (.unsupportedAlgorithm "null MAC cannot be keyed")

def tag (k : KeyStrings) (message : Bytes) : Bytes :=
  k.hash.digest (k.outer ++ k.hash.digest (k.inner ++ message))

end KeyStrings

structure NestedDigest where
  hash : Hash
  inner : Digest hash
  outer : Digest hash

namespace NestedDigest

def new (k : KeyStrings) : NestedDigest :=
  ⟨k.hash, (Digest.new k.hash).update k.inner, (Digest.new k.hash).update k.outer⟩

def update (d : NestedDigest) (data : Bytes) : NestedDigest :=
  { d with inner := d.inner.update data }

def finish (d : NestedDigest) : Bytes := (d.outer.update d.inner.finish).finish

theorem update_append (d : NestedDigest) (x y : Bytes) :
    d.update (x ++ y) = (d.update x).update y := by
  simp [update, Digest.update_append]

theorem finish_update_new (k : KeyStrings) (message : Bytes) :
    ((new k).update message).finish = k.tag message := by
  rw [finish, update, new, KeyStrings.tag, ← Digest.finish_update_new, ← Digest.finish_update_new,
    Digest.update_append, Digest.update_append]

@[simp] theorem length_finish (d : NestedDigest) : d.finish.length = d.hash.size :=
  Digest.length_finish _

end NestedDigest

/-- A running tag with the keyed state that each message starts from. -/
structure Mac where
  algorithm : MacAlgorithm
  template : NestedDigest
  current : NestedDigest

namespace Mac

def ofStrings (a : MacAlgorithm) (k : KeyStrings) : Mac :=
  ⟨a, NestedDigest.new k, NestedDigest.new k⟩

/-- Key an algorithm. Keys of any length are accepted. -/
def keyed (a : MacAlgorithm) (key : Bytes) : Except CryptoError Mac :=
  (KeyStrings.of a key).map (ofStrings a)

def hmac (h : Hash) (key : Bytes) : Mac := ofStrings (.hmac h) (KeyStrings.hmac h key)

def size (m : Mac) : Nat := m.algorithm.size

def blockSize (m : Mac) : Nat := m.template.hash.blockSize

def lengthSize (m : Mac) : Nat := m.template.hash.lengthSize

def update (m : Mac) (data : Bytes) : Mac := { m with current := m.current.update data }

def reset (m : Mac) : Mac := { m with current := m.template }

/-- The tag of the message so far; the next message starts afresh. -/
def finish (m : Mac) : Bytes × Mac := (m.current.finish, m.reset)

def Fresh (m : Mac) : Prop := m.current = m.template

theorem keyed_hmac (h : Hash) (key : Bytes) : keyed (.hmac h) key = .ok (hmac h key) := rfl

theorem fresh_ofStrings (a : MacAlgorithm) (k : KeyStrings) : (ofStrings a k).Fresh := rfl

theorem fresh_reset (m : Mac) : m.reset.Fresh := rfl

theorem Fresh.reset {m : Mac} (h : m.Fresh) : m.reset = m := by
  cases m
  simp only [Fresh] at h
  rw [Mac.reset, h]

@[simp] theorem reset_update (m : Mac) (data : Bytes) : (m.update data).reset = m.reset := rfl

@[simp] theorem reset_reset (m : Mac) : m.reset.reset = m.reset := rfl

end Mac

namespace Hash

/-- The HMAC of a message. -/
def hmac (h : Hash) (key message : Bytes) : Bytes := (KeyStrings.hmac h key).tag message

theorem finish_update_hmac (h : Hash) (key message : Bytes) :
    ((Mac.hmac h key).update message).finish.1 = h.hmac key message :=
  NestedDigest.finish_update_new _ message

@[simp] theorem length_hmac (h : Hash) (key message : Bytes) :
    (h.hmac key message).length = h.size := length_digest ..

end Hash

end RecordLayer
