import RecordLayer.Bytes

/-! # Machine words

Bit rotations and the words that a block of bytes holds.
-/

namespace RecordLayer.Words

@[inline] def rotateLeft32 (n x : UInt32) : UInt32 := (x <<< n) ||| (x >>> (32 - n))

@[inline] def rotateRight32 (n x : UInt32) : UInt32 := (x >>> n) ||| (x <<< (32 - n))

@[inline] def rotateRight64 (n x : UInt64) : UInt64 := (x >>> n) ||| (x <<< (64 - n))

def be32 : Bytes → List UInt32
  | a :: b :: c :: d :: rest =>
    ((a.toUInt32 <<< 24) ||| (b.toUInt32 <<< 16) ||| (c.toUInt32 <<< 8) ||| d.toUInt32) :: be32 rest
  | _ => []

def le32 : Bytes → List UInt32
  | a :: b :: c :: d :: rest =>
    (a.toUInt32 ||| (b.toUInt32 <<< 8) ||| (c.toUInt32 <<< 16) ||| (d.toUInt32 <<< 24)) :: le32 rest
  | _ => []

def be64 : Bytes → List UInt64
  | a :: b :: c :: d :: e :: f :: g :: h :: rest =>
    ((a.toUInt64 <<< 56) ||| (b.toUInt64 <<< 48) ||| (c.toUInt64 <<< 40) ||| (d.toUInt64 <<< 32) |||
      (e.toUInt64 <<< 24) ||| (f.toUInt64 <<< 16) ||| (g.toUInt64 <<< 8) ||| h.toUInt64) ::
      be64 rest
  | _ => []

end RecordLayer.Words
