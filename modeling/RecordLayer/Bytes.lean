import RecordLayer.Size

/-! # Byte strings

Byte strings are lists of bytes. A number is written at a fixed width and keeps only the low
bits that fit it.
-/

namespace RecordLayer

abbrev Bytes := List UInt8

namespace Bytes

def zeros (n : Nat) : Bytes := List.replicate n 0

def xor (x y : Bytes) : Bytes := x.zipWith (· ^^^ ·) y

/-- The low `width` bytes of a number, least significant first. -/
def le : Nat → Nat → Bytes
  | 0, _ => []
  | width + 1, n => UInt8.ofNat n :: le width (n / 256)

/-- The low `width` bytes of a number, most significant first. -/
def be (width n : Nat) : Bytes := (le width n).reverse

/-- The number that a string writes, most significant byte first. -/
def ofBe (x : Bytes) : Nat := x.foldl (fun n b => 256 * n + b.toNat) 0

def ofLe (x : Bytes) : Nat := x.foldr (fun b n => b.toNat + 256 * n) 0

/-- The bytes from position `i` up to position `j`. -/
def slice (x : Bytes) (i j : Nat) : Except Fault Bytes :=
  if i ≤ j ∧ j ≤ x.length then .ok ((x.drop i).take (j - i)) else .error .outOfRange

def pieces (n : Nat) : Nat → Bytes → List Bytes
  | 0, _ => []
  | count + 1, x => x.take n :: pieces n count (x.drop n)

/-- Fill up with zeros to a multiple of `n`. -/
def zeroPad (n : Nat) (x : Bytes) : Bytes := x ++ zeros ((n - x.length % n) % n)

def ofText (s : String) : Bytes := s.toUTF8.toList

/-- The digits of a number in base sixteen, at least `width` of them. -/
def hex (width n : Nat) : String :=
  let digits := Nat.toDigits 16 n
  String.ofList (List.replicate (width - digits.length) '0' ++ digits)

@[simp] theorem length_zeros (n : Nat) : (zeros n).length = n := List.length_replicate

@[simp] theorem length_xor (x y : Bytes) : (xor x y).length = min x.length y.length :=
  List.length_zipWith

@[simp] theorem length_le (width n : Nat) : (le width n).length = width := by
  induction width generalizing n with
  | zero => rfl
  | succ width ih => simp [le, ih]

@[simp] theorem length_be (width n : Nat) : (be width n).length = width := by simp [be]

theorem ofBe_reverse (x : Bytes) : ofBe x.reverse = ofLe x := by
  simp only [ofBe, ofLe, List.foldl_reverse, Nat.add_comm]

theorem slice_eq_ok {x : Bytes} {i j : Nat} (hij : i ≤ j) (hj : j ≤ x.length) :
    x.slice i j = .ok ((x.drop i).take (j - i)) := if_pos ⟨hij, hj⟩

theorem xor_byte_xor_byte (a b : UInt8) : a ^^^ b ^^^ b = a := by
  rw [UInt8.xor_assoc, UInt8.xor_self, UInt8.xor_zero]

theorem xor_xor (x y : Bytes) : xor (xor x y) y = x.take y.length := by
  induction x generalizing y with
  | nil => simp [xor]
  | cons a x ih =>
    cases y with
    | nil => simp [xor]
    | cons b y =>
      have hx := ih y
      simp only [xor] at hx
      simp only [xor, List.zipWith_cons_cons, xor_byte_xor_byte, hx, List.length_cons,
        List.take_succ_cons]

end Bytes

end RecordLayer
