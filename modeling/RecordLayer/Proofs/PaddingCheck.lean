import RecordLayer.Protection.Padding

/-! # Padding lengths and the padding check

Paddings end at block boundaries and are at most 256 bytes long. The check finds the one padding
that a string can end with, if it is within the limit, and compares the same number of bytes in
every case (`check_finds`).
-/

namespace RecordLayer.Padding

variable {x scratch : Bytes} {b : UInt8} {blockSize k l n : Nat}

@[simp] theorem length_bytes (n : Nat) : (bytes n).length = n := List.length_replicate

@[simp] theorem Scan.comparisons_across (b : UInt8) (scan : Scan) (x : Bytes) :
    (scan.across b x).comparisons = scan.comparisons + x.length := by
  induction x generalizing scan with
  | nil => rfl
  | cons y x ih =>
    rw [across, List.foldl_cons, ← across, ih, List.length_cons]
    exact Nat.succ_add_eq_add_succ ..

theorem Scan.difference_across_eq_zero_iff {scan : Scan} :
    (scan.across b x).difference = 0 ↔ scan.difference = 0 ∧ ∀ y ∈ x, y = b := by
  induction x generalizing scan with
  | nil => simp [across]
  | cons y x ih =>
    rw [across, List.foldl_cons, ← across, ih, UInt8.or_eq_zero_iff, UInt8.xor_eq_zero_iff,
      List.forall_mem_cons, and_assoc]

theorem bytes_toNat_add_one (b : UInt8) :
    bytes (b.toNat + 1) = List.replicate (b.toNat + 1) b := by
  rw [bytes, Nat.add_sub_cancel, UInt8.ofNat_toNat]

theorem eq_of_suffix (hk : 1 ≤ k) (hm : k ≤ maxSize) (h : bytes k <:+ x)
    (hb : x.getLast? = some b) : k = b.toNat + 1 := by
  obtain ⟨front, rfl⟩ := h
  have hlast : (bytes k).getLast? = some (UInt8.ofNat (k - 1)) := by
    rw [bytes, List.getLast?_replicate, if_neg (by omega)]
  rw [List.getLast?_append, hlast, Option.some_or] at hb
  have hk' : k - 1 < 256 := by simp only [maxSize] at hm; omega
  rw [← Option.some.inj hb, UInt8.toNat_ofNat_of_lt' hk']
  omega

theorem suffix_unique (hk : 1 ≤ k) (hkm : k ≤ maxSize) (hl : 1 ≤ l) (hlm : l ≤ maxSize)
    (h : bytes k <:+ x) (h' : bytes l <:+ x) : k = l := by
  cases hx : x.getLast? with
  | none =>
    have hlen := h.length_le
    rw [List.getLast?_eq_none_iff.mp hx, length_bytes, List.length_nil] at hlen
    omega
  | some b => rw [eq_of_suffix hk hkm h hx, eq_of_suffix hl hlm h' hx]

theorem suffix_iff (hn : b.toNat + 1 ≤ x.length) :
    bytes (b.toNat + 1) <:+ x ↔ ∀ y ∈ x.drop (x.length - (b.toNat + 1)), y = b := by
  rw [List.suffix_iff_eq_drop, length_bytes, bytes_toNat_add_one, eq_comm, List.eq_replicate_iff]
  exact and_iff_right (by rw [List.length_drop]; omega)

theorem limit_le (long : Bool) (blockSize tagSize n : Nat) :
    limit long blockSize tagSize n ≤ n - tagSize := Nat.min_le_right ..

instance : Decidable (bytes k <:+ x) :=
  decidable_of_iff (bytes k = x.drop (x.length - k))
    (by rw [List.suffix_iff_eq_drop, length_bytes])

/-- What the check answers: the claimed padding if it is there within the limit, and nothing
else. -/
theorem check_eq (long : Bool) (blockSize tagSize : Nat) (hb : x.getLast? = some b)
    (hs : scratch.length = maxSize) :
    ∃ mixed, check long blockSize tagSize x scratch = .ok
      ⟨if b.toNat + 1 ≤ limit long blockSize tagSize x.length ∧ bytes (b.toNat + 1) <:+ x then
          b.toNat + 1 else 0,
        maxSize, scratch.modify 0 (· ^^^ mixed)⟩ := by
  have hlt := b.toNat_lt
  have hlim := limit_le long blockSize tagSize x.length
  -- The second scan ends at the same count, wherever in the scratch it starts.
  have hscan (i : Nat) (hi : i ≤ maxSize) (scan : Scan) (hcount : scan.comparisons = i) :
      scratch.slice i maxSize = .ok ((scratch.drop i).take (maxSize - i)) ∧
        (scan.across b ((scratch.drop i).take (maxSize - i))).comparisons = maxSize := by
    refine ⟨Bytes.slice_eq_ok hi (by omega), ?_⟩
    rw [Scan.comparisons_across, hcount, List.length_take, List.length_drop]
    omega
  by_cases hc : limit long blockSize tagSize x.length < b.toNat + 1
  · obtain ⟨hslice, hcount⟩ := hscan 0 (Nat.zero_le _) {} rfl
    simp only [check, hb, if_pos hc, hslice, hcount, bind, Except.bind, pure, Except.pure]
    rw [if_neg (by omega)]
    exact ⟨_, rfl⟩
  · have hx : b.toNat + 1 ≤ x.length := by omega
    have hclaim : x.slice (x.length - (b.toNat + 1)) x.length =
        .ok (x.drop (x.length - (b.toNat + 1))) := by
      rw [Bytes.slice_eq_ok (by omega) (Nat.le_refl _)]
      exact congrArg Except.ok (List.take_of_length_le (Nat.le_of_eq List.length_drop))
    have hclaimed : (Scan.across b {} (x.drop (x.length - (b.toNat + 1)))).comparisons =
        b.toNat + 1 := by
      rw [Scan.comparisons_across, List.length_drop, Nat.zero_add]
      omega
    obtain ⟨hslice, hcount⟩ := hscan (b.toNat + 1) (by simp only [maxSize]; omega) _ hclaimed
    simp only [check, hb, if_neg hc, Size.sub_eq_ok hx, hclaim, hslice, hcount, bind, Except.bind,
      pure, Except.pure, Scan.difference_across_eq_zero_iff, ← suffix_iff hx, true_and]
    simp only [and_iff_right (Nat.le_of_not_lt hc)]
    exact ⟨_, rfl⟩

/-- Whatever the scratch holds, the check of a string that is not empty compares 256 bytes and
changes at most the first byte of the scratch. It finds the padding that the last byte claims if
that is within the limit and repeats the last byte, and none otherwise. -/
theorem check_finds (long : Bool) (blockSize tagSize : Nat) (hx : x ≠ []) :
    let v := x.getLast hx
    let Found := v.toNat + 1 ≤ min (if long then 256 else blockSize) (x.length - tagSize) ∧
      ∀ y ∈ x.drop (x.length - (v.toNat + 1)), y = v
    ∃ size, (Found → size = v.toNat + 1) ∧ (¬ Found → size = 0) ∧
      ∀ scratch : Bytes, scratch.length = 256 →
        ∃ found, check long blockSize tagSize x scratch = .ok found ∧ found.size = size ∧
          found.comparisons = 256 ∧ found.scratch.length = 256 ∧
            found.scratch.tail = scratch.tail := by
  intro v Found
  have hb : x.getLast? = some v := List.getLast?_eq_some_getLast hx
  have hiff : (v.toNat + 1 ≤ limit long blockSize tagSize x.length ∧
      bytes (v.toNat + 1) <:+ x) ↔ Found := by
    refine and_congr_right fun hlim => suffix_iff ?_
    have hle := limit_le long blockSize tagSize x.length
    omega
  refine ⟨if v.toNat + 1 ≤ limit long blockSize tagSize x.length ∧ bytes (v.toNat + 1) <:+ x then
    v.toNat + 1 else 0, fun h => if_pos (hiff.mpr h), fun h => if_neg (mt hiff.mp h), ?_⟩
  intro scratch hs
  obtain ⟨mixed, hcheck⟩ := check_eq long blockSize tagSize hb hs
  refine ⟨_, hcheck, rfl, rfl, ?_, ?_⟩
  · rw [List.length_modify, hs]
  · cases scratch with
    | nil => rfl
    | cons y scratch => rfl

theorem check_finds_three : ∃ found, check true 16 1 [9, 2, 2, 2] (Bytes.zeros 256) = .ok found ∧
    found.size = 3 ∧ found.comparisons = 256 := by
  obtain ⟨size, hfound, -, hcheck⟩ := check_finds true 16 1 (x := [9, 2, 2, 2]) (by decide)
  obtain ⟨found, hok, hsize, hcount, -⟩ := hcheck (Bytes.zeros 256) (Bytes.length_zeros 256)
  exact ⟨found, hok, hsize.trans (hfound ⟨by decide, by simp⟩), hcount⟩

theorem least_bounds (hb : 0 < blockSize) (n : Nat) :
    1 ≤ least blockSize n ∧ least blockSize n ≤ blockSize ∧
      (n + least blockSize n) % blockSize = 0 := by
  have hlt := Nat.mod_lt n hb
  refine ⟨by rw [least]; omega, Nat.sub_le .., ?_⟩
  have hsum : n + least blockSize n = blockSize * (n / blockSize) + blockSize := by
    have hdiv := Nat.div_add_mod n blockSize
    rw [least]
    omega
  rw [hsum, Nat.add_mod_right, Nat.mul_mod_right]

theorem extend_bounds {size : Nat} (hs : size ≤ maxSize) (h : (n + size) % blockSize = 0)
    (draw : UInt32) : size ≤ extend blockSize size draw ∧ extend blockSize size draw ≤ maxSize ∧
      (n + extend blockSize size draw) % blockSize = 0 := by
  have hmul : min (trailingZeros draw) ((maxSize - size) / blockSize) * blockSize ≤
      maxSize - size :=
    Nat.le_trans (Nat.mul_le_mul_right _ (Nat.min_le_right ..)) (Nat.div_mul_le_self ..)
  refine ⟨Nat.le_add_right .., by rw [extend]; omega, ?_⟩
  rw [extend, ← Nat.add_assoc, Nat.add_mul_mod_self_right, h]

end RecordLayer.Padding
