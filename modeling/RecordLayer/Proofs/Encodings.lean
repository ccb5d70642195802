import Mathlib.Algebra.Group.Nat.Defs
import RecordLayer.Version
import RecordLayer.Nonce

/-! # Encodings

Numbers, versions and nonces are read back from what is written of them, so a string of fixed
fields determines each of its fields. The other way around, a string is written again from the
number that it was read as.
-/

namespace RecordLayer

namespace Bytes

variable {x y z : Bytes}

theorem ofLe_le (width n : Nat) : ofLe (le width n) = n % 256 ^ width := by
  induction width generalizing n with
  | zero => simp [le, ofLe, Nat.mod_one]
  | succ width ih =>
    have h : ofLe (le (width + 1) n) = n % 256 + 256 * ofLe (le width (n / 256)) := by
      simp [le, ofLe]
    have hw : 256 ^ (width + 1) = 256 * 256 ^ width := Nat.pow_succ'
    rw [h, ih, hw, Nat.mod_mul]

theorem ofBe_be (width n : Nat) : ofBe (be width n) = n % 256 ^ width := by
  rw [be, ofBe_reverse, ofLe_le]

theorem le_ofLe (x : Bytes) : le x.length (ofLe x) = x := by
  induction x with
  | nil => rfl
  | cons b x ih =>
    have hb := b.toNat_lt
    have hnumber : ofLe (b :: x) = b.toNat + 256 * ofLe x := rfl
    have hlow : UInt8.ofNat (b.toNat + 256 * ofLe x) = b := by
      apply UInt8.toNat_inj.mp
      rw [UInt8.toNat_ofNat']
      omega
    have hhigh : (b.toNat + 256 * ofLe x) / 256 = ofLe x := by omega
    rw [List.length_cons, le, hnumber, hlow, hhigh, ih]

theorem ofLe_lt (x : Bytes) : ofLe x < 256 ^ x.length := by
  induction x with
  | nil => decide
  | cons b x ih =>
    have hb := b.toNat_lt
    have hnumber : ofLe (b :: x) = b.toNat + 256 * ofLe x := rfl
    rw [hnumber, List.length_cons, Nat.pow_succ']
    omega

theorem be_ofBe (x : Bytes) : be x.length (ofBe x) = x := by
  have h := le_ofLe x.reverse
  rw [← ofBe_reverse, List.reverse_reverse, List.length_reverse] at h
  rw [be, h, List.reverse_reverse]

theorem ofBe_lt (x : Bytes) : ofBe x < 256 ^ x.length := by
  have h := ofLe_lt x.reverse
  rwa [← ofBe_reverse, List.reverse_reverse, List.length_reverse] at h

theorem be8_ofBe (h : x.length = 8) : be 8 (UInt64.ofNat (ofBe x)).toNat = x := by
  have hlt := ofBe_lt x
  have hbe := be_ofBe x
  rw [h] at hlt hbe
  rwa [UInt64.toNat_ofNat_of_lt' hlt]

theorem be2_ofBe (h : x.length = 2) : ofBe x ≤ 65535 ∧ be 2 (ofBe x) = x := by
  have hlt := ofBe_lt x
  have hbe := be_ofBe x
  rw [h] at hlt hbe
  exact ⟨Nat.le_of_lt_succ hlt, hbe⟩

theorem ofBe_be8 (s : UInt64) : ofBe (be 8 s.toNat) = s.toNat := by
  rw [ofBe_be]
  exact Nat.mod_eq_of_lt s.toNat_lt

theorem eq_of_be8_eq {s t : UInt64} (h : be 8 s.toNat = be 8 t.toNat) : s = t := by
  have hv := congrArg ofBe h
  rw [ofBe_be8, ofBe_be8] at hv
  exact UInt64.toNat_inj.mp hv

theorem ofBe_be2 {n : Nat} (h : n ≤ 65535) : ofBe (be 2 n) = n := by
  rw [ofBe_be]
  exact Nat.mod_eq_of_lt (by omega)

theorem eq_of_ofNat_eq {m n : Nat} (hm : m ≤ 255) (hn : n ≤ 255)
    (h : UInt8.ofNat m = UInt8.ofNat n) : m = n := by
  have hnat := congrArg UInt8.toNat h
  rwa [UInt8.toNat_ofNat_of_lt' (Nat.lt_succ_of_le hm),
    UInt8.toNat_ofNat_of_lt' (Nat.lt_succ_of_le hn)] at hnat

theorem xor_byte_left_cancel {a b c : UInt8} (h : a ^^^ b = a ^^^ c) : b = c := by
  have hb : a ^^^ (a ^^^ b) = a ^^^ (a ^^^ c) := congrArg (a ^^^ ·) h
  rwa [← UInt8.xor_assoc, ← UInt8.xor_assoc, UInt8.xor_self, UInt8.zero_xor,
    UInt8.zero_xor] at hb

theorem eq_of_xor_eq (hy : y.length = x.length) (hz : z.length = x.length)
    (h : xor x y = xor x z) : y = z := by
  induction x generalizing y z with
  | nil => rw [List.length_eq_zero_iff.mp hy, List.length_eq_zero_iff.mp hz]
  | cons a x ih =>
    cases y with
    | nil => simp at hy
    | cons b y =>
      cases z with
      | nil => simp at hz
      | cons c z =>
        simp only [xor, List.zipWith_cons_cons, List.cons.injEq] at h ih
        simp only [List.length_cons, Nat.add_right_cancel_iff] at hy hz
        rw [xor_byte_left_cancel h.1, ih hy hz h.2]

end Bytes

theorem Version.eq_of_bytes_eq {v w : Version} (h : v.bytes = w.bytes) : v = w := by
  have hv := ofBytes?_major_minor v
  simp only [bytes, List.cons.injEq, and_true] at h
  rw [h.1, h.2, ofBytes?_major_minor w] at hv
  exact (Option.some.inj hv).symm

theorem Version.bytes_of_ofBytes? {a b : UInt8} {v : Version} (h : ofBytes? a b = some v) :
    v.bytes = [a, b] := by
  obtain ⟨rfl, rfl⟩ := eq_of_ofBytes? h
  rfl

namespace Nonce

variable {iv : Bytes} {s t : UInt64}

/-- Under one initial vector of at least eight bytes, the nonce determines the record number. -/
theorem eq_of_implicit_eq (hiv : 8 ≤ iv.length) (h : implicit iv s = implicit iv t) : s = t := by
  have hd : (iv.drop (iv.length - 8)).length = 8 := by
    rw [List.length_drop]
    omega
  have hx := (List.append_inj h rfl).2
  exact Bytes.eq_of_be8_eq (Bytes.eq_of_xor_eq (by simp [hd]) (by simp [hd]) hx)

end Nonce

end RecordLayer
