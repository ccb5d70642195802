import RecordLayer.Bytes

/-! # Block cipher padding

Every byte of a padding, the last one included, holds the number of the bytes before it. The
check compares the same number of bytes whatever it finds: once the claimed padding is exhausted it
goes on over a scratch buffer, whose first byte takes up the differences.
-/

namespace RecordLayer.Padding

/-- The longest padding, which is also the number of comparisons and the size of the scratch. -/
def maxSize : Nat := 256

def bytes (n : Nat) : Bytes := List.replicate n (UInt8.ofNat (n - 1))

/-- The shortest padding that brings `n` bytes to a block boundary. -/
def least (blockSize n : Nat) : Nat := blockSize - n % blockSize

/-- The number of zero bits below the lowest one bit, or 32 for zero. -/
def trailingZeros (x : UInt32) : Nat :=
  ((List.range 32).takeWhile fun i => !x.toNat.testBit i).length

/-- Lengthen a padding by some blocks. Each further one is half as likely as the one before. -/
def extend (blockSize size : Nat) (x : UInt32) : Nat :=
  size + min (trailingZeros x) ((maxSize - size) / blockSize) * blockSize

structure Check where
  /-- The length of the padding, or zero if there is none. -/
  size : Nat
  comparisons : Nat
  scratch : Bytes
  deriving DecidableEq

/-- What the comparisons so far have found. -/
structure Scan where
  difference : UInt8 := 0
  comparisons : Nat := 0

def Scan.across (b : UInt8) (scan : Scan) (x : Bytes) : Scan :=
  x.foldl (fun scan y => ⟨scan.difference ||| (y ^^^ b), scan.comparisons + 1⟩) scan

/-- The longest padding at the end of `n` bytes that also hold a tag of `tagSize` bytes. -/
def limit (long : Bool) (blockSize tagSize n : Nat) : Nat :=
  min (if long then maxSize else blockSize) (n - tagSize)

/-- Check the padding at the end of a string. -/
def check (long : Bool) (blockSize tagSize : Nat) (x scratch : Bytes) : Except Fault Check := do
  let some b := x.getLast? | throw .outOfRange
  let claimed := b.toNat + 1
  let (size, position, scan) ←
    if limit long blockSize tagSize x.length < claimed then pure (0, 0, ({} : Scan))
    else do
      let scan := Scan.across b {} (← x.slice (← Size.sub x.length claimed) x.length)
      pure (if scan.difference = 0 then claimed else 0, claimed, scan)
  -- The scan goes on behind the claimed padding, wherever that ends.
  let scan := scan.across b (← scratch.slice position maxSize)
  pure ⟨size, scan.comparisons, scratch.modify 0 (· ^^^ scan.difference)⟩

end RecordLayer.Padding
