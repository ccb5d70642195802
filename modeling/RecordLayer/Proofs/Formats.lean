import RecordLayer.Proofs.Histories

/-! # Formats

How much longer a fragment is than its plaintext depends on the lengths of tags, nonces and blocks.
Both ends of a connection share them, and no key changes them.
-/

namespace RecordLayer

/-- What the length of a fragment depends on. -/
inductive Format
  | appended (overhead : Nat)
  | blocks (macSize : Nat) (encryptThenMac explicitIv : Bool)

namespace Format

variable {f : Format} {padding padding' n n' k c : Nat}

/-- The length of the longest fragment for `n` bytes with a padding of at most `padding`. -/
def size (padding n : Nat) : Format → Nat
  | appended overhead => n + overhead
  | blocks macSize encryptThenMac explicitIv =>
    (if encryptThenMac then Size.floorTo BlockDirection.blockSize (n + padding) + macSize
      else Size.floorTo BlockDirection.blockSize (n + padding + macSize)) +
    (if explicitIv then BlockDirection.blockSize else 0)

/-- The number of bytes that a fragment of `n` bytes has room for. -/
def capacity (n : Nat) : Format → Nat
  | appended overhead => n - overhead
  | blocks macSize encryptThenMac explicitIv =>
    let n := n - if explicitIv then BlockDirection.blockSize else 0
    if encryptThenMac then Size.floorTo BlockDirection.blockSize (n - macSize) - 1
    else Size.floorTo BlockDirection.blockSize n - macSize - 1

def overhead : Format → Nat
  | appended overhead => overhead
  | blocks macSize _ explicitIv => macSize + if explicitIv then BlockDirection.blockSize else 0

theorem size_mono (hp : padding ≤ padding') (hn : n ≤ n') :
    f.size padding n ≤ f.size padding' n' := by
  cases f with
  | appended overhead => exact Nat.add_le_add_right hn overhead
  | blocks macSize encryptThenMac explicitIv =>
    refine Nat.add_le_add_right ?_ _
    split
    · exact Nat.add_le_add_right (Size.floorTo_mono (by omega)) macSize
    · exact Size.floorTo_mono (by omega)

theorem le_size (f : Format) (n : Nat) : n ≤ f.size BlockDirection.blockSize n := by
  cases f with
  | appended overhead => exact Nat.le_add_right ..
  | blocks macSize encryptThenMac explicitIv =>
    simp only [size, Size.floorTo, BlockDirection.blockSize, Aes.Block.size]
    split <;> omega

/-- With the shortest paddings, a fragment has room for what makes no longer fragment. -/
theorem le_capacity_iff (hk : 0 < k) :
    k ≤ f.capacity c ↔ f.size BlockDirection.blockSize k ≤ c := by
  cases f with
  | appended overhead =>
    simp only [size, capacity]
    omega
  | blocks macSize encryptThenMac explicitIv =>
    have hb : 0 < BlockDirection.blockSize := by decide
    have hblock (n : Nat) :
        0 < Size.floorTo BlockDirection.blockSize (n + BlockDirection.blockSize) := by
      have hiff := Size.floorTo_add_le_iff (a := n) (b := 0) hb
      have hzero := Size.floorTo_le BlockDirection.blockSize 0
      omega
    cases encryptThenMac with
    | true =>
      have hiff := Size.floorTo_add_le_iff (a := k)
        (b := c - (if explicitIv then BlockDirection.blockSize else 0) - macSize) hb
      have hpos := hblock k
      simp only [size, capacity, if_true]
      omega
    | false =>
      have hiff := Size.floorTo_add_le_iff (a := k + macSize)
        (b := c - if explicitIv then BlockDirection.blockSize else 0) hb
      have hpos := hblock (k + macSize)
      rw [Nat.add_right_comm] at hiff hpos
      simp only [size, capacity, Bool.false_eq_true, if_false]
      omega

theorem capacity_le (hc : c < f.size BlockDirection.blockSize k) : f.capacity c ≤ k := by
  refine Nat.le_of_not_lt fun hlt => ?_
  have hfits := (le_capacity_iff (f := f) (c := c) (k := k + 1) (Nat.succ_pos k)).mp hlt
  have hmono : f.size BlockDirection.blockSize k ≤ f.size BlockDirection.blockSize (k + 1) :=
    size_mono (Nat.le_refl _) (Nat.le_succ k)
  omega

end Format

variable {c d : Context} {owner : Role} {id : Bytes}

def MacAlgorithm.wireSize (c : Context) (a : MacAlgorithm) : Nat :=
  if c.params.truncatedHmac then min a.size RecordMac.truncatedSize else a.size

def Direction.format : Direction → Format
  | aead d => .appended d.overhead
  | block d => .blocks d.mac.size d.encryptThenMac d.explicitIv
  | null d => .appended d.macSize
  | integrity d => .appended d.hash.size

def BulkCipher.format : BulkCipher → Format
  | aead a => .appended a.tagSize
  | integrity h => .appended h.size
  | null | block _ => .appended 0

def Family.format (c : Context) : Family → Format
  | aead a => .appended (a.tagSize + (AeadProtection.modeOf c.version.isTls13 a).recordIvSize)
  | block _ a => .blocks (a.wireSize c) c.params.encryptThenMac c.version.hasExplicitIv
  | null a => .appended (a.wireSize c)
  | passthrough => .appended 0
  | integrity h => .appended h.size

theorem Mac.algorithm_of_keyed {a : MacAlgorithm} {key : Bytes} {m : Mac}
    (h : keyed a key = .ok m) : m.algorithm = a := by
  unfold keyed at h
  cases hk : KeyStrings.of a key with
  | error e =>
    rw [hk] at h
    cases h
  | ok k =>
    rw [hk] at h
    obtain rfl := Except.ok.inj h
    rfl

theorem Aead.algorithm_of_keyed {a : AeadAlgorithm} {key : Bytes} {e : Aead}
    (h : keyed a key = .ok e) : e.algorithm = a := by
  unfold keyed at h
  split at h
  · cases h
  · obtain rfl := Except.ok.inj h
    rfl

theorem RecordMac.size_new {a : MacAlgorithm} {key : Bytes} {m : Mac}
    (h : Mac.keyed a key = .ok m) (c : Context) :
    (new c.version c.params.truncatedHmac m).size = a.wireSize c := by
  have hsize : m.size = a.size := congrArg MacAlgorithm.size (Mac.algorithm_of_keyed h)
  simp only [new, MacAlgorithm.wireSize, hsize]

theorem BulkCipher.format_of_derive {b : BulkCipher} {x : Direction}
    (h : b.derive c owner id = .ok x) : x.format = b.format ∧ x.inner = true := by
  cases b with
  | aead a =>
    simp only [derive, AeadDirection.derive, map_eq_ok, bind_eq_ok, pure_eq_ok,
      forRecord_eq_ok] at h
    obtain ⟨_, ⟨keys, -, aead, haead, rfl⟩, rfl⟩ := h
    refine ⟨?_, rfl⟩
    have htag := congrArg AeadAlgorithm.tagSize (Aead.algorithm_of_keyed haead)
    exact congrArg Format.appended htag
  | integrity hash =>
    obtain ⟨x, hx, rfl⟩ := map_eq_ok.mp h
    have hhash := congrArg Hash.size (Protection.hash_of_derive hx)
    exact ⟨congrArg Format.appended hhash, rfl⟩
  | null | block _ => cases h

namespace Family

variable {f : Family}

theorem format_congr (h : c.Opposite d) (f : Family) : f.format d = f.format c := by
  have hversion : d.version = c.version := h.version
  unfold format MacAlgorithm.wireSize
  rw [hversion, h.truncatedHmac, h.encryptThenMac]

theorem format_of_direction {x : Direction} (h : f.direction c owner id = .ok x) :
    x.format = f.format c := by
  cases f with
  | aead a =>
    obtain ⟨x, hx, rfl⟩ := map_eq_ok.mp h
    unfold AeadDirection.of at hx
    cases hv : c.version.isTls13 with
    | true =>
      rw [hv, if_pos rfl] at hx
      have hderive : (BulkCipher.aead a).derive c owner id = .ok (.aead x) :=
        congrArg (Direction.aead <$> ·) hx
      simp only [format, hv]
      exact (BulkCipher.format_of_derive hderive).1
    | false =>
      simp only [hv, Bool.false_eq_true, if_false, bind_eq_ok, pure_eq_ok, forRecord_eq_ok] at hx
      obtain ⟨keys, -, aead, haead, rfl⟩ := hx
      have htag := congrArg AeadAlgorithm.tagSize (Aead.algorithm_of_keyed haead)
      simp only [format, hv]
      exact congrArg (fun n => Format.appended (n + _)) htag
  | block k a =>
    simp only [direction, BlockDirection.of, map_eq_ok, bind_eq_ok, pure_eq_ok,
      forRecord_eq_ok] at h
    obtain ⟨x, ⟨keys, -, mac, hmac, cbc, -, rfl⟩, rfl⟩ := h
    exact congrArg (Format.blocks · _ _) (RecordMac.size_new hmac c)
  | null a =>
    simp only [direction, NullDirection.of, map_eq_ok, bind_eq_ok, pure_eq_ok,
      forRecord_eq_ok] at h
    obtain ⟨x, ⟨keys, -, mac, hmac, rfl⟩, rfl⟩ := h
    exact congrArg Format.appended (RecordMac.size_new hmac c)
  | passthrough =>
    obtain rfl := Except.ok.inj h
    rfl
  | integrity hash =>
    have hderive : (BulkCipher.integrity hash).derive c owner id = .ok x := h
    exact (BulkCipher.format_of_derive hderive).1

theorem overhead_le (f : Family) (c : Context) : (f.format c).overhead ≤ 80 := by
  have hmac (a : MacAlgorithm) : a.wireSize c ≤ 64 := by
    have hsize : a.size ≤ 64 := by
      cases a with
      | null => exact Nat.zero_le _
      | hmac h | ssl3 h => exact h.size_le
    unfold MacAlgorithm.wireSize
    split <;> omega
  cases f with
  | aead a =>
    have htag : a.tagSize ≤ 16 := by cases a <;> decide
    have hiv (m : NonceMode) : m.recordIvSize ≤ 8 := by cases m <;> decide
    have hmode := hiv (AeadProtection.modeOf c.version.isTls13 a)
    simp only [format, Format.overhead]
    omega
  | block k a =>
    have ha := hmac a
    have hblock : BlockDirection.blockSize ≤ 16 := by decide
    simp only [format, Format.overhead]
    split <;> omega
  | null a => exact Nat.le_trans (hmac a) (by decide)
  | passthrough => exact Nat.zero_le _
  | integrity h => exact Nat.le_trans h.size_le (by decide)

end Family

namespace BlockDirection

variable {d : BlockDirection} {padding n x : Nat}

theorem ciphertextSize_eq_ok (h : d.ciphertextSize padding n = .ok x) :
    (Direction.block d).format.size padding n = x := by
  have hiv {m : Nat}
      (hm : (if d.explicitIv then Size.add m blockSize else pure m) = Except.ok x) :
      m + (if d.explicitIv then blockSize else 0) = x := by
    by_cases hx : d.explicitIv = true
    · rw [if_pos hx] at hm ⊢
      exact (Size.add_eq_ok_iff.mp hm).2
    · rw [if_neg hx] at hm ⊢
      exact pure_eq_ok.mp hm
  unfold ciphertextSize at h
  obtain ⟨_, hn, h⟩ := bind_eq_ok.mp h
  obtain ⟨-, rfl⟩ := Size.add_eq_ok_iff.mp hn
  simp only [Direction.format, Format.size]
  by_cases hmode : d.encryptThenMac = true
  · simp only [if_pos hmode] at h ⊢
    obtain ⟨m, hm, h⟩ := bind_eq_ok.mp h
    rw [(Size.add_eq_ok_iff.mp hm).2]
    exact hiv h
  · simp only [if_neg hmode] at h ⊢
    obtain ⟨m, hm, h⟩ := bind_eq_ok.mp h
    obtain ⟨k, hk, rfl⟩ := map_eq_ok.mp hm
    rw [(Size.add_eq_ok_iff.mp hk).2]
    exact hiv h

theorem exists_ciphertextSize (d : BlockDirection) (padding n : Nat)
    (hn : n + padding + (Direction.block d).format.overhead < Size.bound) :
    ∃ x, d.ciphertextSize padding n = .ok x := by
  simp only [Direction.format, Format.overhead] at hn
  have hiv {m : Nat} (hm : m ≤ n + padding + d.mac.size) :
      ∃ x, (if d.explicitIv then Size.add m blockSize else pure m) = Except.ok x := by
    split at hn
    · rename_i hx
      rw [if_pos hx]
      exact ⟨_, Size.add_eq_ok (by omega)⟩
    · rename_i hx
      rw [if_neg hx]
      exact ⟨_, rfl⟩
  have hfloor := Size.floorTo_le blockSize (n + padding)
  have hfloor' := Size.floorTo_le blockSize (n + padding + d.mac.size)
  have hsum : n + padding < Size.bound := by omega
  have hfull : n + padding + d.mac.size < Size.bound := by omega
  unfold ciphertextSize
  rw [Size.add_eq_ok hsum, ok_bind]
  by_cases hmode : d.encryptThenMac = true
  · simp only [if_pos hmode]
    rw [Size.add_eq_ok (by omega)]
    exact hiv (by omega)
  · simp only [if_neg hmode]
    rw [Size.add_eq_ok hfull]
    exact hiv hfloor'

end BlockDirection

theorem Direction.SameKeys.format_eq {x y : Direction} (h : x.SameKeys y) :
    y.format = x.format := by
  obtain ⟨chain, rfl⟩ := h
  cases x <;> rfl

end RecordLayer
