import Mathlib.Data.List.Basic
import RecordLayer.Header
import RecordLayer.Proofs.Encodings
import RecordLayer.Proofs.Results

/-! # Headers on the wire

A header that was written is read back with the fields it was written from, and what a header is
read off was written from its fields. A record number gives back its epoch.
-/

namespace RecordLayer

namespace Header

variable {h : Header} {datagram : Bool} {idSize room : Nat} {rest : Bytes}

/-- The header has the fields of its kind, and its length fits. -/
structure Fits (h : Header) (datagram : Bool) (idSize : Nat) : Prop where
  length_le : h.length ≤ 65535
  sequence : h.sequence.isSome = datagram
  length_id : h.connectionId.length =
    if datagram = true ∧ h.contentType = .connectionId then idSize else 0
  idSize_le : datagramSize + idSize < Size.bound

theorem length_bytes (h : Header) : h.bytes.length = h.size := by
  obtain ⟨t, v, _ | seq, id, n⟩ := h
  · simp [bytes, size, streamSize]
  · simp [bytes, size, datagramSize]
    omega

theorem write_eq_ok (hlen : h.length ≤ 65535) : h.write h.size = .ok h.bytes := by
  unfold write
  rw [if_neg (Nat.not_lt.mpr hlen), if_neg (by simp)]

theorem slice_append {x y z : Bytes} {i j : Nat} (hi : x.length = i) (hj : i + y.length = j) :
    (x ++ (y ++ z)).slice i j = .ok y := by
  subst hi hj
  rw [Bytes.slice_eq_ok (Nat.le_add_right ..) (by simp only [List.length_append]; omega),
    List.drop_left' rfl, Nat.add_sub_cancel_left, List.take_left' rfl]

theorem drop_of_slice {x y : Bytes} {i j : Nat} (h : x.slice i j = .ok y) :
    y.length = j - i ∧ x.drop i = y ++ x.drop j := by
  unfold Bytes.slice at h
  split at h
  · rename_i hij
    obtain rfl := Except.ok.inj h
    refine ⟨?_, ?_⟩
    · rw [List.length_take, List.length_drop]
      omega
    · have hdrop : x.drop j = (x.drop i).drop (j - i) := by
        rw [List.drop_drop, Nat.add_sub_cancel' hij.1]
      rw [hdrop, List.take_append_drop]
  · cases h

theorem sizeFor_eq (hf : h.Fits datagram idSize) :
    sizeFor datagram h.contentType idSize = .ok h.size := by
  have hid := hf.length_id
  have hseq := hf.sequence
  unfold sizeFor size
  cases hs : h.sequence with
  | none =>
    rw [hs] at hseq
    obtain rfl : datagram = false := hseq.symm
    rfl
  | some seq =>
    rw [hs] at hseq
    obtain rfl : datagram = true := hseq.symm
    by_cases ht : h.contentType = .connectionId
    · rw [if_pos ⟨rfl, ht⟩] at hid
      simp only [ht, Bool.not_true, Bool.false_eq_true, if_false, if_true, hid,
        Size.add_eq_ok hf.idSize_le]
    · rw [if_neg (fun hc => ht hc.2)] at hid
      simp only [ht, Bool.not_true, Bool.false_eq_true, if_false, hid, Nat.add_zero]

theorem parse_bytes (hf : h.Fits datagram idSize) (rest : Bytes) :
    parse (h.bytes ++ rest) datagram idSize = .ok h := by
  have hsize := sizeFor_eq hf
  have hlen : ¬ (h.bytes ++ rest).length < h.size := by
    rw [List.length_append, length_bytes]
    omega
  have hseq := hf.sequence
  have hid := hf.length_id
  have hle := hf.length_le
  obtain ⟨t, v, sequence, id, n⟩ := h
  have hversion : ((⟨t, v, sequence, id, n⟩ : Header).bytes ++ rest).slice 1 3 =
      .ok [v.major, v.minor] := rfl
  have hhead : ((⟨t, v, sequence, id, n⟩ : Header).bytes ++ rest).head? = some t.code := rfl
  cases sequence with
  | none =>
    obtain rfl : datagram = false := hseq.symm
    obtain rfl : id = [] := List.length_eq_zero_iff.mp hid
    have hn : ((⟨t, v, none, [], n⟩ : Header).bytes ++ rest).slice 3 5 = .ok (Bytes.be 2 n) :=
      slice_append (x := [t.code, v.major, v.minor]) (y := Bytes.be 2 n) rfl
        (by rw [Bytes.length_be])
    have hsize : sizeFor false ⟨t.code⟩ idSize = .ok 5 := hsize
    have hlen : ¬ ((⟨t, v, none, [], n⟩ : Header).bytes ++ rest).length < 5 := hlen
    have hsub : Size.sub 5 2 = .ok 3 := rfl
    simp only [parse, hhead, hsize, hlen, hversion, Version.ofBytes?_major_minor, hsub, hn,
      liftFault_ok, ok_bind, pure_bind, if_false, Bool.false_eq_true, Bytes.ofBe_be2 hle]
    rfl
  | some seq =>
    obtain rfl : datagram = true := hseq.symm
    have hsize : sizeFor true ⟨t.code⟩ idSize = .ok (13 + id.length) := hsize
    have hlen : ¬ ((⟨t, v, some seq, id, n⟩ : Header).bytes ++ rest).length < 13 + id.length :=
      hlen
    have hsub : Size.sub (13 + id.length) 2 = .ok (11 + id.length) := by
      rw [Size.sub_eq_ok (by omega)]
      exact congrArg Except.ok (by omega)
    have hbytes : (⟨t, v, some seq, id, n⟩ : Header).bytes ++ rest = [t.code, v.major, v.minor] ++
        (Bytes.be 8 seq.toNat ++ (id ++ (Bytes.be 2 n ++ rest))) := by
      simp [bytes, Version.bytes]
    have hs : ((⟨t, v, some seq, id, n⟩ : Header).bytes ++ rest).slice 3 11 =
        .ok (Bytes.be 8 seq.toNat) := by
      rw [hbytes]
      exact slice_append rfl (by rw [Bytes.length_be])
    have hi : ((⟨t, v, some seq, id, n⟩ : Header).bytes ++ rest).slice 11 (11 + id.length) =
        .ok id := by
      rw [hbytes, ← List.append_assoc]
      exact slice_append (by rw [List.length_append, Bytes.length_be]; rfl) rfl
    have hn : ((⟨t, v, some seq, id, n⟩ : Header).bytes ++ rest).slice (11 + id.length)
        (13 + id.length) = .ok (Bytes.be 2 n) := by
      rw [hbytes, ← List.append_assoc, ← List.append_assoc]
      exact slice_append (by simp only [List.length_append, Bytes.length_be]; rfl)
        (by rw [Bytes.length_be]; omega)
    simp only [parse, hhead, hsize, hlen, hversion, Version.ofBytes?_major_minor, hsub, hs, hi, hn,
      liftFault_ok, ok_bind, pure_bind, if_false, if_true, Bytes.ofBe_be2 hle, Bytes.ofBe_be8,
      UInt64.ofNat_toNat]
    rfl

theorem size_of_sizeFor {t : ContentType} {n : Nat} (h : sizeFor true t idSize = .ok n) :
    n = datagramSize + if t = .connectionId then idSize else 0 := by
  simp only [sizeFor, Size.add, Bool.not_true, Bool.false_eq_true, if_false] at h
  split at h
  · rename_i ht
    split at h
    · rw [if_pos ht]
      exact (Except.ok.inj h).symm
    · cases h
  · rename_i ht
    rw [if_neg ht]
    exact (Except.ok.inj h).symm

theorem parse_eq_ok {x : Bytes} (hid : datagramSize + idSize < Size.bound)
    (hp : parse x datagram idSize = .ok h) :
    h.Fits datagram idSize ∧ x = h.bytes ++ x.drop h.size := by
  cases x with
  | nil => cases hp
  | cons code rest =>
    simp only [parse, List.head?_cons, bind_eq_ok, liftFault_eq_ok] at hp
    obtain ⟨size, hsize, hp⟩ := hp
    split at hp
    · cases hp
    obtain ⟨versionBytes, hversion, hp⟩ := bind_eq_ok.mp hp
    rw [liftFault_eq_ok] at hversion
    split at hp
    case h_2 => cases hp
    split at hp
    case h_2 => cases hp
    rename_i major minor _ v hv
    obtain ⟨-, hversion⟩ := drop_of_slice hversion
    rw [← Version.bytes_of_ofBytes? hv] at hversion
    have hstart : code :: rest = code :: v.bytes ++ (code :: rest).drop 3 :=
      congrArg (List.cons code) hversion
    cases datagram with
    | false =>
      obtain rfl := Except.ok.inj hsize
      simp only [pure_bind, Bool.false_eq_true, if_false, bind_eq_ok, pure_eq_ok,
        liftFault_eq_ok] at hp
      obtain ⟨n, hn, length, hlength, rfl⟩ := hp
      obtain rfl : 3 = n := Except.ok.inj hn
      obtain ⟨hwidth, hlength⟩ := drop_of_slice hlength
      obtain ⟨hle, hbe⟩ := Bytes.be2_ofBe hwidth
      refine ⟨⟨hle, rfl, rfl, hid⟩, ?_⟩
      simp only [bytes, hbe, List.append_nil, List.append_assoc]
      rw [hlength] at hstart
      exact hstart
    | true =>
      simp only [pure_bind, if_true, bind_eq_ok, pure_eq_ok, liftFault_eq_ok] at hp
      obtain ⟨seq, hseq, n, hn, id, hi, m, hm, length, hlength, rfl⟩ := hp
      obtain rfl := size_of_sizeFor hsize
      rw [Size.sub_eq_ok (by unfold datagramSize; omega)] at hn hm
      obtain rfl := Except.ok.inj hn
      obtain rfl := Except.ok.inj hm
      obtain ⟨hseqWidth, hseq⟩ := drop_of_slice hseq
      obtain ⟨hidWidth, hi⟩ := drop_of_slice hi
      obtain ⟨hwidth, hlength⟩ := drop_of_slice hlength
      obtain ⟨hle, hbe⟩ := Bytes.be2_ofBe (x := length) (by unfold datagramSize at hwidth; omega)
      have hidSize : id.length = if (⟨code⟩ : ContentType) = .connectionId then idSize else 0 := by
        unfold datagramSize at hidWidth
        omega
      refine ⟨⟨hle, rfl, ?_, hid⟩, ?_⟩
      · simp only [true_and]
        exact hidSize
      · have hfields : (code :: rest).drop 3 =
            seq ++ (id ++ (length ++ (code :: rest).drop (datagramSize + id.length))) := by
          rw [hidSize, ← hlength, ← hi, ← hseq]
        rw [hfields] at hstart
        simp only [bytes, size, hbe, List.append_assoc, Bytes.be8_ofBe hseqWidth]
        exact hstart

def expectedSize (datagram : Bool) (t : ContentType) (idSize : Nat) : Nat :=
  if datagram then datagramSize + if t = .connectionId then idSize else 0 else streamSize

def UnknownVersion (x : Bytes) : Prop :=
  ∃ major minor, x.slice 1 3 = .ok [major, minor] ∧ Version.ofBytes? major minor = none

theorem streamSize_le_expectedSize (datagram : Bool) (t : ContentType) (idSize : Nat) :
    streamSize ≤ expectedSize datagram t idSize := by
  unfold expectedSize streamSize datagramSize
  split <;> omega

theorem sizeFor_eq_expectedSize {t : ContentType}
    (hn : expectedSize datagram t idSize < Size.bound) :
    sizeFor datagram t idSize = .ok (expectedSize datagram t idSize) := by
  unfold sizeFor
  unfold expectedSize at hn ⊢
  cases datagram with
  | false => rfl
  | true =>
    simp only [Bool.not_true, Bool.false_eq_true, if_false, if_true] at hn ⊢
    split
    · rename_i ht
      rw [if_pos ht] at hn
      exact Size.add_eq_ok hn
    · rfl

theorem sizeFor_of_bound_le {t : ContentType}
    (hn : Size.bound ≤ expectedSize datagram t idSize) :
    sizeFor datagram t idSize = .error .sizeOverflow := by
  unfold expectedSize at hn
  unfold sizeFor
  cases datagram with
  | false =>
    rw [if_neg Bool.false_ne_true] at hn
    exact absurd hn (by decide)
  | true =>
    simp only [Bool.not_true, Bool.false_eq_true, if_false, if_true] at hn ⊢
    split
    · rename_i ht
      rw [if_pos ht] at hn
      exact if_neg (Nat.not_lt.mpr hn)
    · rename_i ht
      rw [if_neg ht] at hn
      exact absurd hn (by decide)

/-- What reading a header of `n` bytes off the front of a string comes to. -/
inductive Outcome (x : Bytes) (n : Nat) : Except Failure Header → Prop
  | overflow (hn : Size.bound ≤ n) : Outcome x n (.error (.fault .sizeOverflow))
  | short (hn : n < Size.bound) (hlen : x.length < n) : Outcome x n (.error (.refused truncated))
  | unknown (hn : n < Size.bound) (hlen : n ≤ x.length) (hversion : UnknownVersion x) :
    Outcome x n (.error (.refused (.decodeError "unknown record version")))
  | read (hn : n < Size.bound) (hlen : n ≤ x.length) (hversion : ¬ UnknownVersion x) (h : Header) :
    Outcome x n (.ok h)

/-- The length is checked before the version, and nothing else is. -/
theorem parse_outcome {x : Bytes} {code : UInt8} (hcode : x.head? = some code) :
    Outcome x (expectedSize datagram ⟨code⟩ idSize) (parse x datagram idSize) := by
  rcases Nat.lt_or_ge (expectedSize datagram ⟨code⟩ idSize) Size.bound with hn | hn
  case inr =>
    simp only [parse, hcode, sizeFor_of_bound_le hn]
    exact .overflow hn
  have hstream := streamSize_le_expectedSize datagram ⟨code⟩ idSize
  have hsize := sizeFor_eq_expectedSize hn
  have hdatagram : datagram = true → 13 ≤ expectedSize datagram ⟨code⟩ idSize := by
    rintro rfl
    exact Nat.le_add_right ..
  generalize expectedSize datagram ⟨code⟩ idSize = n at hn hstream hsize hdatagram ⊢
  unfold streamSize at hstream
  by_cases hlen : x.length < n
  · simp only [parse, hcode, hsize, liftFault_ok, ok_bind, if_pos hlen]
    exact .short hn hlen
  · have htwo : ((x.drop 1).take (3 - 1)).length = 2 := by
      rw [List.length_take, List.length_drop]
      omega
    obtain ⟨major, minor, hbytes⟩ := List.length_eq_two.mp htwo
    have hversion : x.slice 1 3 = .ok [major, minor] := by
      rw [Bytes.slice_eq_ok (by decide) (by omega), hbytes]
    have hsub : Size.sub n 2 = .ok (n - 2) := Size.sub_eq_ok (by omega)
    have hlength : ∃ y, x.slice (n - 2) n = .ok y :=
      ⟨_, Bytes.slice_eq_ok (by omega) (by omega)⟩
    obtain ⟨y, hy⟩ := hlength
    cases hof : Version.ofBytes? major minor with
    | none =>
      simp only [parse, hcode, hsize, liftFault_ok, ok_bind, if_neg hlen, hversion, hof]
      exact .unknown hn (Nat.not_lt.mp hlen) ⟨major, minor, hversion, hof⟩
    | some v =>
      have hknown : ¬ UnknownVersion x := by
        rintro ⟨major', minor', hversion', hof'⟩
        obtain ⟨rfl, rfl⟩ : major = major' ∧ minor = minor' := by
          simpa using hversion.symm.trans hversion'
        rw [hof] at hof'
        cases hof'
      cases datagram with
      | false =>
        simp only [parse, hcode, hsize, liftFault_ok, ok_bind, if_neg hlen, hversion, hof, hsub,
          hy, pure_bind, Bool.false_eq_true, if_false]
        exact .read hn (Nat.not_lt.mp hlen) hknown _
      | true =>
        have hlow := hdatagram rfl
        have hs := Bytes.slice_eq_ok (x := x) (show 3 ≤ 11 by decide) (by omega)
        have hi := Bytes.slice_eq_ok (x := x) (show 11 ≤ n - 2 by omega) (by omega)
        simp only [parse, hcode, hsize, liftFault_ok, ok_bind, if_neg hlen, hversion, hof, hsub,
          hy, hs, hi, pure_bind, if_true]
        exact .read hn (Nat.not_lt.mp hlen) hknown _

end Header

theorem toNat_number (epoch : UInt16) (seq : UInt64) :
    ((epoch.toUInt64 <<< 48) ||| (seq &&& 0xFFFFFFFFFFFF)).toNat =
      2 ^ 48 * epoch.toNat + seq.toNat % 2 ^ 48 := by
  have he := epoch.toNat_lt
  have hlow : seq.toNat % 2 ^ 48 < 2 ^ 48 := Nat.mod_lt _ (by decide)
  have hhigh : epoch.toNat <<< 48 % 2 ^ 64 = epoch.toNat <<< 48 := by
    rw [Nat.shiftLeft_eq]
    exact Nat.mod_eq_of_lt (by omega)
  simp only [UInt64.toNat_or, UInt64.toNat_shiftLeft, UInt64.toNat_and, UInt16.toNat_toUInt64]
  change epoch.toNat <<< 48 % 2 ^ 64 ||| seq.toNat &&& (2 ^ 48 - 1) = _
  rw [Nat.and_two_pow_sub_one_eq_mod, hhigh, ← Nat.shiftLeft_add_eq_or_of_lt hlow,
    Nat.shiftLeft_eq, Nat.mul_comm]

theorem epoch_of_number (epoch : UInt16) (seq : UInt64) :
    (((epoch.toUInt64 <<< 48) ||| (seq &&& 0xFFFFFFFFFFFF)) >>> 48).toUInt16 = epoch := by
  have he := epoch.toNat_lt
  apply UInt16.toNat_inj.mp
  rw [UInt64.toNat_toUInt16, UInt64.toNat_shiftRight, toNat_number]
  change (2 ^ 48 * epoch.toNat + seq.toNat % 2 ^ 48) >>> 48 % 2 ^ 16 = epoch.toNat
  rw [Nat.shiftRight_eq_div_pow]
  omega

end RecordLayer
