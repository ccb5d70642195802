import RecordLayer.Bytes

/-! # AES

The block cipher AES with keys of 128 and 256 bits. A block is four columns of four bytes.
Decryption undoes encryption under every expanded key (`decrypt_encrypt`).
-/

namespace RecordLayer.Aes

structure Column where
  (a b c d : UInt8)
  deriving DecidableEq

structure Block where
  (p q r s : Column)
  deriving DecidableEq

namespace Column

def xor (x y : Column) : Column := ⟨x.a ^^^ y.a, x.b ^^^ y.b, x.c ^^^ y.c, x.d ^^^ y.d⟩

def map (f : UInt8 → UInt8) (x : Column) : Column := ⟨f x.a, f x.b, f x.c, f x.d⟩

def bytes (x : Column) : Bytes := [x.a, x.b, x.c, x.d]

def ofBytes (x : Bytes) : Column := ⟨x.getD 0 0, x.getD 1 0, x.getD 2 0, x.getD 3 0⟩

end Column

namespace Block

def size : Nat := 16

def xor (x y : Block) : Block := ⟨x.p.xor y.p, x.q.xor y.q, x.r.xor y.r, x.s.xor y.s⟩

def map (f : Column → Column) (x : Block) : Block := ⟨f x.p, f x.q, f x.r, f x.s⟩

def zero : Block := ⟨⟨0, 0, 0, 0⟩, ⟨0, 0, 0, 0⟩, ⟨0, 0, 0, 0⟩, ⟨0, 0, 0, 0⟩⟩

def bytes (x : Block) : Bytes := x.p.bytes ++ x.q.bytes ++ x.r.bytes ++ x.s.bytes

def ofBytes (x : Bytes) : Block :=
  ⟨.ofBytes x, .ofBytes (x.drop 4), .ofBytes (x.drop 8), .ofBytes (x.drop 12)⟩

def list (x : Bytes) : List Block := (x.pieces size (x.length / size)).map ofBytes

@[simp] theorem length_bytes (x : Block) : x.bytes.length = size := rfl

@[simp] theorem ofBytes_bytes_append (x : Block) (t : Bytes) : ofBytes (x.bytes ++ t) = x := rfl

@[simp] theorem ofBytes_bytes (x : Block) : ofBytes x.bytes = x := rfl

theorem bytes_ofBytes {x : Bytes} (h : x.length = size) : (ofBytes x).bytes = x := by
  match x, h with
  | [_, _, _, _, _, _, _, _, _, _, _, _, _, _, _, _], _ => rfl

theorem xor_comm (x y : Block) : x.xor y = y.xor x := by
  simp only [xor, Column.xor, UInt8.xor_comm]

@[simp] theorem xor_xor (x y : Block) : (x.xor y).xor y = x := by
  simp only [xor, Column.xor, Bytes.xor_byte_xor_byte]

end Block

/-! ## Substitution -/

/-- The table of the substitution: the high half of a byte chooses the row. -/
def substitutionTable : Array (Array UInt8) := #[
  #[0x63, 0x7c, 0x77, 0x7b, 0xf2, 0x6b, 0x6f, 0xc5, 0x30, 0x01, 0x67, 0x2b, 0xfe, 0xd7, 0xab, 0x76],
  #[0xca, 0x82, 0xc9, 0x7d, 0xfa, 0x59, 0x47, 0xf0, 0xad, 0xd4, 0xa2, 0xaf, 0x9c, 0xa4, 0x72, 0xc0],
  #[0xb7, 0xfd, 0x93, 0x26, 0x36, 0x3f, 0xf7, 0xcc, 0x34, 0xa5, 0xe5, 0xf1, 0x71, 0xd8, 0x31, 0x15],
  #[0x04, 0xc7, 0x23, 0xc3, 0x18, 0x96, 0x05, 0x9a, 0x07, 0x12, 0x80, 0xe2, 0xeb, 0x27, 0xb2, 0x75],
  #[0x09, 0x83, 0x2c, 0x1a, 0x1b, 0x6e, 0x5a, 0xa0, 0x52, 0x3b, 0xd6, 0xb3, 0x29, 0xe3, 0x2f, 0x84],
  #[0x53, 0xd1, 0x00, 0xed, 0x20, 0xfc, 0xb1, 0x5b, 0x6a, 0xcb, 0xbe, 0x39, 0x4a, 0x4c, 0x58, 0xcf],
  #[0xd0, 0xef, 0xaa, 0xfb, 0x43, 0x4d, 0x33, 0x85, 0x45, 0xf9, 0x02, 0x7f, 0x50, 0x3c, 0x9f, 0xa8],
  #[0x51, 0xa3, 0x40, 0x8f, 0x92, 0x9d, 0x38, 0xf5, 0xbc, 0xb6, 0xda, 0x21, 0x10, 0xff, 0xf3, 0xd2],
  #[0xcd, 0x0c, 0x13, 0xec, 0x5f, 0x97, 0x44, 0x17, 0xc4, 0xa7, 0x7e, 0x3d, 0x64, 0x5d, 0x19, 0x73],
  #[0x60, 0x81, 0x4f, 0xdc, 0x22, 0x2a, 0x90, 0x88, 0x46, 0xee, 0xb8, 0x14, 0xde, 0x5e, 0x0b, 0xdb],
  #[0xe0, 0x32, 0x3a, 0x0a, 0x49, 0x06, 0x24, 0x5c, 0xc2, 0xd3, 0xac, 0x62, 0x91, 0x95, 0xe4, 0x79],
  #[0xe7, 0xc8, 0x37, 0x6d, 0x8d, 0xd5, 0x4e, 0xa9, 0x6c, 0x56, 0xf4, 0xea, 0x65, 0x7a, 0xae, 0x08],
  #[0xba, 0x78, 0x25, 0x2e, 0x1c, 0xa6, 0xb4, 0xc6, 0xe8, 0xdd, 0x74, 0x1f, 0x4b, 0xbd, 0x8b, 0x8a],
  #[0x70, 0x3e, 0xb5, 0x66, 0x48, 0x03, 0xf6, 0x0e, 0x61, 0x35, 0x57, 0xb9, 0x86, 0xc1, 0x1d, 0x9e],
  #[0xe1, 0xf8, 0x98, 0x11, 0x69, 0xd9, 0x8e, 0x94, 0x9b, 0x1e, 0x87, 0xe9, 0xce, 0x55, 0x28, 0xdf],
  #[0x8c, 0xa1, 0x89, 0x0d, 0xbf, 0xe6, 0x42, 0x68, 0x41, 0x99, 0x2d, 0x0f, 0xb0, 0x54, 0xbb, 0x16]]

def inverseTable : Array (Array UInt8) := #[
  #[0x52, 0x09, 0x6a, 0xd5, 0x30, 0x36, 0xa5, 0x38, 0xbf, 0x40, 0xa3, 0x9e, 0x81, 0xf3, 0xd7, 0xfb],
  #[0x7c, 0xe3, 0x39, 0x82, 0x9b, 0x2f, 0xff, 0x87, 0x34, 0x8e, 0x43, 0x44, 0xc4, 0xde, 0xe9, 0xcb],
  #[0x54, 0x7b, 0x94, 0x32, 0xa6, 0xc2, 0x23, 0x3d, 0xee, 0x4c, 0x95, 0x0b, 0x42, 0xfa, 0xc3, 0x4e],
  #[0x08, 0x2e, 0xa1, 0x66, 0x28, 0xd9, 0x24, 0xb2, 0x76, 0x5b, 0xa2, 0x49, 0x6d, 0x8b, 0xd1, 0x25],
  #[0x72, 0xf8, 0xf6, 0x64, 0x86, 0x68, 0x98, 0x16, 0xd4, 0xa4, 0x5c, 0xcc, 0x5d, 0x65, 0xb6, 0x92],
  #[0x6c, 0x70, 0x48, 0x50, 0xfd, 0xed, 0xb9, 0xda, 0x5e, 0x15, 0x46, 0x57, 0xa7, 0x8d, 0x9d, 0x84],
  #[0x90, 0xd8, 0xab, 0x00, 0x8c, 0xbc, 0xd3, 0x0a, 0xf7, 0xe4, 0x58, 0x05, 0xb8, 0xb3, 0x45, 0x06],
  #[0xd0, 0x2c, 0x1e, 0x8f, 0xca, 0x3f, 0x0f, 0x02, 0xc1, 0xaf, 0xbd, 0x03, 0x01, 0x13, 0x8a, 0x6b],
  #[0x3a, 0x91, 0x11, 0x41, 0x4f, 0x67, 0xdc, 0xea, 0x97, 0xf2, 0xcf, 0xce, 0xf0, 0xb4, 0xe6, 0x73],
  #[0x96, 0xac, 0x74, 0x22, 0xe7, 0xad, 0x35, 0x85, 0xe2, 0xf9, 0x37, 0xe8, 0x1c, 0x75, 0xdf, 0x6e],
  #[0x47, 0xf1, 0x1a, 0x71, 0x1d, 0x29, 0xc5, 0x89, 0x6f, 0xb7, 0x62, 0x0e, 0xaa, 0x18, 0xbe, 0x1b],
  #[0xfc, 0x56, 0x3e, 0x4b, 0xc6, 0xd2, 0x79, 0x20, 0x9a, 0xdb, 0xc0, 0xfe, 0x78, 0xcd, 0x5a, 0xf4],
  #[0x1f, 0xdd, 0xa8, 0x33, 0x88, 0x07, 0xc7, 0x31, 0xb1, 0x12, 0x10, 0x59, 0x27, 0x80, 0xec, 0x5f],
  #[0x60, 0x51, 0x7f, 0xa9, 0x19, 0xb5, 0x4a, 0x0d, 0x2d, 0xe5, 0x7a, 0x9f, 0x93, 0xc9, 0x9c, 0xef],
  #[0xa0, 0xe0, 0x3b, 0x4d, 0xae, 0x2a, 0xf5, 0xb0, 0xc8, 0xeb, 0xbb, 0x3c, 0x83, 0x53, 0x99, 0x61],
  #[0x17, 0x2b, 0x04, 0x7e, 0xba, 0x77, 0xd6, 0x26, 0xe1, 0x69, 0x14, 0x63, 0x55, 0x21, 0x0c, 0x7d]]

def lookup (table : Array (Array UInt8)) (x : UInt8) : UInt8 :=
  (table.getD (x.toNat / 16) #[]).getD (x.toNat % 16) 0

def substitute (x : UInt8) : UInt8 := lookup substitutionTable x

def unsubstitute (x : UInt8) : UInt8 := lookup inverseTable x

/-! ## Rows and columns -/

def shiftRows (x : Block) : Block :=
  ⟨⟨x.p.a, x.q.b, x.r.c, x.s.d⟩, ⟨x.q.a, x.r.b, x.s.c, x.p.d⟩,
    ⟨x.r.a, x.s.b, x.p.c, x.q.d⟩, ⟨x.s.a, x.p.b, x.q.c, x.r.d⟩⟩

def unshiftRows (x : Block) : Block :=
  ⟨⟨x.p.a, x.s.b, x.r.c, x.q.d⟩, ⟨x.q.a, x.p.b, x.s.c, x.r.d⟩,
    ⟨x.r.a, x.q.b, x.p.c, x.s.d⟩, ⟨x.s.a, x.r.b, x.q.c, x.p.d⟩⟩

def double (x : UInt8) : UInt8 := (x <<< 1) ^^^ ((x >>> 7) * 0x1b)

def triple (x : UInt8) : UInt8 := double x ^^^ x

def mix (x : Column) : Column :=
  ⟨double x.a ^^^ triple x.b ^^^ x.c ^^^ x.d, x.a ^^^ double x.b ^^^ triple x.c ^^^ x.d,
    x.a ^^^ x.b ^^^ double x.c ^^^ triple x.d, triple x.a ^^^ x.b ^^^ x.c ^^^ double x.d⟩

/-- Multiply by four and by five. -/
def four (x : UInt8) : UInt8 := double (double x)

def five (x : UInt8) : UInt8 := double (double x) ^^^ x

def mixTwice (x : Column) : Column :=
  ⟨five x.a ^^^ four x.c, five x.b ^^^ four x.d, four x.a ^^^ five x.c, four x.b ^^^ five x.d⟩

/-- Mix three times over, which undoes mixing because four times change nothing. -/
def unmix (x : Column) : Column := mixTwice (mix x)

/-! ## Keys -/

inductive Variant
  | aes128
  | aes256
  deriving DecidableEq, Repr

def Variant.keySize : Variant → Nat
  | .aes128 => 16
  | .aes256 => 32

/-- The round keys: for the start, for each full round and for the last round. -/
structure Key where
  first : Block
  middle : List Block
  last : Block

def roundConstant (i : Nat) : UInt8 :=
  [0x01, 0x02, 0x04, 0x08, 0x10, 0x20, 0x40, 0x80, 0x1b, 0x36].getD i 0

/-- The next column of the key expansion, which goes `n` columns back. -/
def nextColumn (n : Nat) (w : Array Column) : Column :=
  let i := w.size
  let t := w.getD (i - 1) ⟨0, 0, 0, 0⟩
  let t :=
    if i % n = 0 then
      (Column.map substitute ⟨t.b, t.c, t.d, t.a⟩).xor ⟨roundConstant (i / n - 1), 0, 0, 0⟩
    else if 6 < n ∧ i % n = 4 then t.map substitute
    else t
  (w.getD (i - n) ⟨0, 0, 0, 0⟩).xor t

def blockAt (w : Array Column) (i : Nat) : Block :=
  let column (j : Nat) := w.getD (4 * i + j) ⟨0, 0, 0, 0⟩
  ⟨column 0, column 1, column 2, column 3⟩

def Key.expand (v : Variant) (key : Bytes) : Key :=
  let n := v.keySize / 4
  let rounds := n + 6
  let start := ((key.pieces 4 n).map Column.ofBytes).toArray
  let w := (List.range (4 * (rounds + 1) - n)).foldl (fun w _ => w.push (nextColumn n w)) start
  ⟨blockAt w 0, (List.range (rounds - 1)).map fun i => blockAt w (i + 1), blockAt w rounds⟩

/-! ## The cipher -/

def round (x k : Block) : Block := ((shiftRows (x.map (·.map substitute))).map mix).xor k

def unround (x k : Block) : Block := (unshiftRows ((x.xor k).map unmix)).map (·.map unsubstitute)

def encrypt (k : Key) (x : Block) : Block :=
  (shiftRows ((k.middle.foldl round (x.xor k.first)).map (·.map substitute))).xor k.last

def decrypt (k : Key) (x : Block) : Block :=
  (k.middle.reverse.foldl unround ((unshiftRows (x.xor k.last)).map (·.map unsubstitute))).xor
    k.first

/-! ## Decryption undoes encryption -/

theorem forall_byte {p : UInt8 → Prop} (h : ∀ n < 256, p (UInt8.ofNat n)) (x : UInt8) : p x := by
  simpa using h x.toNat x.toNat_lt

theorem unsubstitute_substitute (x : UInt8) : unsubstitute (substitute x) = x := by
  refine forall_byte (p := fun x => unsubstitute (substitute x) = x) ?_ x
  decide +kernel

theorem xor_cancel (x y : UInt8) : x ^^^ (x ^^^ y) = y := by
  rw [← UInt8.xor_assoc, UInt8.xor_self, UInt8.zero_xor]

theorem xor_left_comm (x y z : UInt8) : x ^^^ (y ^^^ z) = y ^^^ (x ^^^ z) := by
  rw [← UInt8.xor_assoc, UInt8.xor_comm x y, UInt8.xor_assoc]

theorem double_xor (x y : UInt8) : double (x ^^^ y) = double x ^^^ double y := by
  have top (x : UInt8) : x >>> 7 = 0 ∨ x >>> 7 = 1 := by
    refine forall_byte (p := fun x => x >>> 7 = 0 ∨ x >>> 7 = 1) ?_ x
    decide +kernel
  rw [double, double, double, UInt8.shiftLeft_xor, UInt8.shiftRight_xor]
  rcases top x with hx | hx <;> rcases top y with hy | hy <;> rw [hx, hy] <;>
    simp [UInt8.xor_assoc, UInt8.xor_comm, xor_left_comm]

theorem mix_mix (x : Column) : mix (mix x) = mixTwice x := by
  obtain ⟨a, b, c, d⟩ := x
  simp only [mix, mixTwice, triple, four, five, double_xor, Column.mk.injEq]
  generalize double a = a1, double b = b1, double c = c1, double d = d1
  generalize double a1 = a2, double b1 = b2, double c1 = c2, double d1 = d2
  refine ⟨?_, ?_, ?_, ?_⟩ <;>
    simp only [UInt8.xor_comm, xor_left_comm, xor_cancel, UInt8.xor_self, UInt8.xor_zero]

theorem mixTwice_mixTwice (x : Column) : mixTwice (mixTwice x) = x := by
  obtain ⟨a, b, c, d⟩ := x
  simp only [mixTwice, four, five, double_xor, Column.mk.injEq]
  refine ⟨?_, ?_, ?_, ?_⟩ <;>
    simp only [UInt8.xor_assoc, UInt8.xor_comm, xor_left_comm, xor_cancel, UInt8.xor_self,
      UInt8.xor_zero]

theorem unmix_mix (x : Column) : unmix (mix x) = x := by
  rw [unmix, mix_mix, mixTwice_mixTwice]

theorem unshiftRows_shiftRows (x : Block) : unshiftRows (shiftRows x) = x := rfl

theorem map_unsubstitute_substitute (x : Block) :
    (x.map (·.map substitute)).map (·.map unsubstitute) = x := by
  simp only [Block.map, Column.map, unsubstitute_substitute]

theorem map_unmix_mix (x : Block) : (x.map mix).map unmix = x := by
  simp only [Block.map, unmix_mix]

theorem unround_round (x k : Block) : unround (round x k) k = x := by
  rw [unround, round, Block.xor_xor, map_unmix_mix, unshiftRows_shiftRows,
    map_unsubstitute_substitute]

theorem foldl_unround_foldl_round (ks : List Block) (x : Block) :
    ks.reverse.foldl unround (ks.foldl round x) = x := by
  induction ks generalizing x with
  | nil => rfl
  | cons k ks ih =>
    rw [List.reverse_cons, List.foldl_append, List.foldl_cons, List.foldl_nil, List.foldl_cons, ih]
    exact unround_round x k

theorem decrypt_encrypt (k : Key) (x : Block) : decrypt k (encrypt k x) = x := by
  rw [decrypt, encrypt, Block.xor_xor, unshiftRows_shiftRows, map_unsubstitute_substitute,
    foldl_unround_foldl_round, Block.xor_xor]

end RecordLayer.Aes
