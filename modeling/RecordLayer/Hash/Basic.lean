import RecordLayer.Hash.Md5
import RecordLayer.Hash.Sha1
import RecordLayer.Hash.Sha256
import RecordLayer.Hash.Sha512

/-! # Hash functions

Each hash function folds a compression function over the blocks of a padded message.
-/

namespace RecordLayer

inductive Hash
  | md5
  | sha1
  | sha256
  | sha384
  | sha512
  deriving DecidableEq, Repr

namespace Hash

def size : Hash → Nat
  | md5 => 16
  | sha1 => 20
  | sha256 => 32
  | sha384 => 48
  | sha512 => 64

def blockSize : Hash → Nat
  | md5 | sha1 | sha256 => 64
  | sha384 | sha512 => 128

def lengthSize (h : Hash) : Nat := h.blockSize / 8

/-- The values that pass from block to block. -/
@[reducible] def Chain : Hash → Type
  | md5 => Md5.Chain
  | sha1 => Sha1.Chain
  | sha256 => Sha256.Chain
  | sha384 | sha512 => Sha512.Chain

def initial : (h : Hash) → h.Chain
  | md5 => Md5.initial
  | sha1 => Sha1.initial
  | sha256 => Sha256.initial
  | sha384 => Sha512.initial384
  | sha512 => Sha512.initial

def compress : (h : Hash) → h.Chain → Bytes → h.Chain
  | md5 => Md5.compress
  | sha1 => Sha1.compress
  | sha256 => Sha256.compress
  | sha384 | sha512 => Sha512.compress

/-- The digest that the last chaining value stands for. -/
def output : (h : Hash) → h.Chain → Bytes
  | md5, c => Md5.output c
  | sha1, c => Sha1.output c
  | sha256, c => Sha256.output c
  | sha384, c => (Sha512.output c).take 48
  | sha512, c => Sha512.output c

/-- What follows a message of `n` bytes: a marker, zeros up to the last field of a block, and the
number of bits in that field. -/
def padding (h : Hash) (n : Nat) : Bytes :=
  let zeros := Bytes.zeros ((h.blockSize - (n + 1 + h.lengthSize) % h.blockSize) % h.blockSize)
  let bits := if h = md5 then Bytes.le h.lengthSize (8 * n) else Bytes.be h.lengthSize (8 * n)
  0x80 :: zeros ++ bits

def digest (h : Hash) (message : Bytes) : Bytes :=
  let padded := message ++ h.padding message.length
  h.output ((padded.pieces h.blockSize (padded.length / h.blockSize)).foldl h.compress h.initial)

theorem blockSize_pos (h : Hash) : 0 < h.blockSize := by cases h <;> decide

@[simp] theorem length_output (h : Hash) (c : h.Chain) : (h.output c).length = h.size := by
  cases h <;> simp [output, size, Md5.output, Sha1.output]

@[simp] theorem length_digest (h : Hash) (message : Bytes) :
    (h.digest message).length = h.size := length_output ..

theorem length_padding (h : Hash) (n : Nat) : (n + (h.padding n).length) % h.blockSize = 0 := by
  cases h <;> simp [padding, blockSize, lengthSize] <;> omega

end Hash

end RecordLayer
