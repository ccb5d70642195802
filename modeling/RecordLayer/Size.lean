/-! # Sizes

Sizes and byte counts are 64-bit numbers. An addition that leaves the range, a difference below
zero and an index outside a buffer are faults: no result is defined for them.
-/

namespace RecordLayer

/-- A computation on sizes that has no result. -/
inductive Fault
  | sizeOverflow
  | outOfRange
  deriving DecidableEq, Repr

namespace Size

def bound : Nat := 18446744073709551616

/-- The longest buffer that can be held. -/
def capacity : Nat := 9223372036854775807

def add (a b : Nat) : Except Fault Nat :=
  if a + b < bound then .ok (a + b) else .error .sizeOverflow

def sub (a b : Nat) : Except Fault Nat :=
  if b ≤ a then .ok (a - b) else .error .sizeOverflow

/-- Make room for two parts in one buffer. -/
def reserve (a b : Nat) : Except Fault Unit :=
  if a + b ≤ capacity then .ok () else .error .sizeOverflow

variable {a b : Nat}

theorem add_eq_ok (h : a + b < bound) : add a b = .ok (a + b) := if_pos h

theorem add_eq_ok_iff {x : Nat} : add a b = .ok x ↔ a + b < bound ∧ a + b = x := by
  unfold add
  split
  · rename_i h
    simp [h]
  · rename_i h
    exact iff_of_false (by rintro ⟨⟩) fun hx => h hx.1

theorem sub_eq_ok (h : b ≤ a) : sub a b = .ok (a - b) := if_pos h

theorem reserve_eq_ok : reserve a b = .ok () ↔ a + b ≤ capacity := by
  simp [reserve]

def floorTo (n a : Nat) : Nat := a - a % n

theorem floorTo_le (n a : Nat) : floorTo n a ≤ a := Nat.sub_le ..

theorem floorTo_eq_mul (n a : Nat) : floorTo n a = n * (a / n) :=
  Nat.sub_eq_of_eq_add (Nat.div_add_mod a n).symm

theorem floorTo_mono {n : Nat} (h : a ≤ b) : floorTo n a ≤ floorTo n b := by
  rw [floorTo_eq_mul, floorTo_eq_mul]
  exact Nat.mul_le_mul_left n (Nat.div_le_div_right h)

theorem floorTo_add_le_iff {n : Nat} (hn : 0 < n) : floorTo n (a + n) ≤ b ↔ a < floorTo n b := by
  rw [floorTo_eq_mul, floorTo_eq_mul, Nat.add_div_right a hn, Nat.mul_comm,
    ← Nat.le_div_iff_mul_le hn, Nat.succ_le_iff, Nat.div_lt_iff_lt_mul hn, Nat.mul_comm]

end Size

end RecordLayer
