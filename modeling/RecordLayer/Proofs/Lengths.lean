import RecordLayer.Proofs.Authenticity
import RecordLayer.Proofs.Limits
import RecordLayer.Proofs.Refusals

/-! # Lengths

The length of a fragment lies between those for the shortest and the longest padding of what it
carries. Encoders stay on the shortest padding unless they draw some blocks on top of it.
-/

namespace RecordLayer

open Aes (Block)

variable {s : UInt64} {t : ContentType} {v : Version} {room : Nat}
  {plaintext payload fragment : Bytes} {record : Protected} {r r' : Randomness}

namespace Padding

variable {k : Nat} {w : UInt32}

theorem le_length_takeWhile_iff {α : Type} {p : α → Bool} {xs : List α} (hk : k ≤ xs.length) :
    k ≤ (xs.takeWhile p).length ↔ ∀ x ∈ xs.take k, p x = true := by
  induction xs generalizing k with
  | nil =>
    obtain rfl : k = 0 := Nat.le_zero.mp hk
    simp
  | cons x xs ih =>
    cases k with
    | zero => simp
    | succ k =>
      have ih := ih (Nat.le_of_succ_le_succ hk)
      by_cases hx : p x = true
      · simp [hx, ih]
      · simp [hx]

theorem two_pow_dvd_iff {x : Nat} : 2 ^ k ∣ x ↔ ∀ i < k, x.testBit i = false := by
  constructor
  · rintro ⟨y, rfl⟩ i hi
    rw [Nat.testBit_two_pow_mul, decide_eq_false (Nat.not_le.mpr hi), Bool.false_and]
  · intro h
    refine Nat.dvd_of_mod_eq_zero (Nat.eq_of_testBit_eq fun i => ?_)
    rw [Nat.testBit_mod_two_pow, Nat.zero_testBit]
    by_cases hi : i < k
    · rw [h i hi, Bool.and_false]
    · rw [decide_eq_false hi, Bool.false_and]

theorem le_trailingZeros_iff (hk : k ≤ 32) : k ≤ trailingZeros w ↔ 2 ^ k ∣ w.toNat := by
  have hlen : k ≤ (List.range 32).length := by rwa [List.length_range]
  rw [trailingZeros, le_length_takeWhile_iff hlen, two_pow_dvd_iff, List.take_range,
    Nat.min_eq_left hk]
  simp

end Padding

namespace Randomness

variable {n used k : Nat}

def zeros (k : Nat) (requests : List Nat) (used : Nat) : Randomness :=
  ofBytes (Bytes.zeros k) .randomness requests used

theorem draw_zeros (requests : List Nat) (h : used + n ≤ k) :
    (zeros k requests used).draw n = .ok (Bytes.zeros n, zeros k (n :: requests) (used + n)) := by
  have hlen : used + n ≤ (Bytes.zeros k).length := by rwa [Bytes.length_zeros]
  have hmin : min n (k - used) = n := by omega
  rw [zeros, draw_ofBytes, if_pos hlen, Bytes.zeros, Bytes.zeros, List.drop_replicate,
    List.take_replicate, hmin]
  rfl

theorem drawWord_zeros (requests : List Nat) (h : used + 4 ≤ k) :
    ∃ r', (zeros k requests used).drawWord = .ok (0, r') := by
  unfold drawWord
  rw [draw_zeros requests h]
  exact ⟨_, rfl⟩

end Randomness

namespace BlockEncoder

variable {e : BlockEncoder} {n padding : Nat}

/-- The most blocks that a padding has on top of the shortest one. -/
def maxExtra (e : BlockEncoder) : Nat := if e.extraPadding then 15 else 0

def extraBlocks (e : BlockEncoder) (r : Randomness) : Nat :=
  match r.drawWord with
  | .ok (w, _) => min (Padding.trailingZeros w) e.maxExtra
  | .error _ => 0

theorem maxExtra_le (e : BlockEncoder) : e.maxExtra ≤ 15 := by
  unfold maxExtra
  split <;> decide

theorem extraBlocks_le (e : BlockEncoder) (r : Randomness) : e.extraBlocks r ≤ e.maxExtra := by
  unfold extraBlocks
  split
  · exact Nat.min_le_right ..
  · exact Nat.zero_le _

theorem maxExtra_eq_zero (h : e.extraPadding = false) : e.maxExtra = 0 := by rw [maxExtra, h]; rfl

theorem extraBlocks_eq_zero (h : e.extraPadding = false) (r : Randomness) :
    e.extraBlocks r = 0 := Nat.le_zero.mp (maxExtra_eq_zero h ▸ e.extraBlocks_le r)

theorem extraBlocks_eq_max {w : UInt32} (hw : r.drawWord = .ok (w, r'))
    (hdvd : 2 ^ 15 ∣ w.toNat) : e.extraBlocks r = e.maxExtra := by
  have hzeros : 15 ≤ Padding.trailingZeros w := (Padding.le_trailingZeros_iff (by decide)).mpr hdvd
  unfold extraBlocks
  rw [hw]
  exact Nat.min_eq_right (Nat.le_trans e.maxExtra_le hzeros)

theorem drawPadding_eq (h : e.drawPadding r n = .ok (padding, r')) : padding =
    Padding.least BlockDirection.blockSize n + BlockDirection.blockSize * e.extraBlocks r := by
  have hb : BlockDirection.blockSize = 16 := rfl
  obtain ⟨hpos, hle, -⟩ := Padding.least_bounds (show 0 < BlockDirection.blockSize by decide) n
  unfold drawPadding at h
  cases hx : e.extraPadding with
  | false =>
    simp only [hx, Bool.false_eq_true, if_false] at h
    obtain ⟨rfl, -⟩ := Prod.mk.inj (pure_eq_ok.mp h)
    rw [extraBlocks_eq_zero hx]
    rfl
  | true =>
    simp only [hx, if_true] at h
    obtain ⟨⟨w, r₁⟩, hw, h⟩ := bind_eq_ok.mp h
    obtain ⟨rfl, -⟩ := Prod.mk.inj (pure_eq_ok.mp h)
    have hroom : (Padding.maxSize - Padding.least BlockDirection.blockSize n) /
        BlockDirection.blockSize = 15 := by
      simp only [hb, Padding.maxSize] at *
      omega
    rw [Padding.extend, hroom, extraBlocks, hw, maxExtra, hx, Nat.mul_comm]
    rfl

theorem writes_of_encode (h : e.mac.Ready)
    (hok : (e.encode r s t room plaintext).1 = .ok record) :
    ∃ iv padding r', e.Draws r (e.unpaddedSize plaintext) padding iv r' ∧
      e.Writes s t plaintext iv padding record.fragment ∧
      record.size = record.fragment.length := by
  rcases encode_cases h r s t room plaintext with
    ⟨f, r', henc⟩ | ⟨iv, padding, fragment, r', hd, hw, -, henc⟩
  · rw [henc] at hok
    cases hok
  · rw [henc] at hok
    obtain rfl := Except.ok.inj hok
    refine ⟨iv, padding, r', hd, ?_, ?_⟩
    · rwa [Protected.fragment_assemble]
    · rw [Protected.fragment_assemble]
      rfl

/-- What is written has the shortest length for its plaintext and the extra blocks. -/
theorem size_of_encode (h : e.mac.Ready)
    (hok : (e.encode r s t room plaintext).1 = .ok record) :
    record.size = (Direction.block e.toBlockDirection).format.size BlockDirection.blockSize
        (plaintext.length + InnerPlaintext.overhead e.inner) +
      BlockDirection.blockSize * e.extraBlocks r := by
  obtain ⟨iv, padding, r', ⟨r₁, hpad, -⟩, hw, hsize⟩ := writes_of_encode h hok
  rw [hsize, hw.length_fragment h, drawPadding_eq hpad]
  simp only [Direction.format, Format.size, unpaddedSize, BlockDirection.ivSize,
    BlockDirection.innerMacSize, BlockDirection.outerMacSize, Padding.least, Size.floorTo,
    BlockDirection.blockSize, Block.size]
  by_cases hmode : e.encryptThenMac = true
  · simp only [if_pos hmode]
    omega
  · simp only [if_neg hmode]
    omega

theorem exists_encode {iv : Bytes} (h : e.mac.Ready)
    (hd : e.Draws r (e.unpaddedSize plaintext) padding iv r')
    (hroom : room + plaintext.length + 353 ≤ Size.capacity) :
    ∃ record, (e.encode r s t room plaintext).1 = .ok record := by
  have hpadding : padding ≤ 256 := by
    obtain ⟨r₁, hpad, -⟩ := hd
    exact Nat.le_trans (drawPadding_ok hpad).2.1 e.maxPadding_le
  have hmac : e.mac.size ≤ 64 := Nat.le_trans h.size_le (Hash.size_le _)
  have htags : e.innerMacSize + e.outerMacSize = e.mac.size := by
    unfold BlockDirection.innerMacSize BlockDirection.outerMacSize
    split <;> omega
  have hinner : InnerPlaintext.overhead e.inner ≤ 1 := by
    unfold InnerPlaintext.overhead
    split <;> decide
  have hiv : e.ivSize ≤ 16 := by
    unfold BlockDirection.ivSize
    split <;> decide
  have hspace : room + (e.ivSize + e.unpaddedSize plaintext + padding + e.outerMacSize) ≤
      Size.capacity := by
    unfold unpaddedSize
    omega
  obtain ⟨fragment, -, henc⟩ := encode_of_draws (s := s) (t := t) h hd hspace
  exact ⟨_, congrArg Prod.fst henc⟩

theorem exists_encode_zeros (e : BlockEncoder) (h : e.mac.Ready) (s : UInt64) (t : ContentType)
    (room : Nat) (plaintext : Bytes) {k used : Nat} (requests : List Nat) (hk : used + 20 ≤ k)
    (hroom : room + plaintext.length + 353 ≤ Size.capacity) :
    ∃ record, (e.encode (.zeros k requests used) s t room plaintext).1 = .ok record := by
  have hiv {requests' : List Nat} {used' : Nat} (h' : used' ≤ used + 4) :
      ∃ iv r', e.drawIv (.zeros k requests' used') = .ok (iv, r') := by
    have hblock : BlockDirection.blockSize = 16 := rfl
    unfold drawIv
    split
    · exact ⟨_, _, Randomness.draw_zeros _ (by omega)⟩
    · exact ⟨_, _, rfl⟩
  have hpad (n : Nat) : ∃ padding requests' used', used' ≤ used + 4 ∧
      e.drawPadding (.zeros k requests used) n =
        .ok (padding, .zeros k requests' used') := by
    unfold drawPadding Randomness.drawWord
    rw [Randomness.draw_zeros requests (show used + 4 ≤ k by omega)]
    split
    · exact ⟨_, _, _, Nat.le_refl _, rfl⟩
    · exact ⟨_, _, _, Nat.le_add_right .., rfl⟩
  obtain ⟨padding, requests', used', hle, hpad⟩ := hpad (e.unpaddedSize plaintext)
  obtain ⟨iv, r', hiv⟩ := hiv hle
  exact exists_encode h ⟨_, hpad, hiv⟩ hroom

theorem size_maxPadding (e : BlockEncoder) (n : Nat) :
    (Direction.block e.toBlockDirection).format.size e.maxPadding n =
      (Direction.block e.toBlockDirection).format.size BlockDirection.blockSize n +
        BlockDirection.blockSize * e.maxExtra := by
  simp only [Direction.format, Format.size, maxPadding, maxExtra, Size.floorTo, Padding.maxSize,
    BlockDirection.blockSize, Block.size]
  by_cases hx : e.extraPadding = true
  · simp only [if_pos hx]
    by_cases hmode : e.encryptThenMac = true
    · simp only [if_pos hmode]
      omega
    · simp only [if_neg hmode]
      omega
  · simp only [if_neg hx]
    rfl

end BlockEncoder

theorem BlockDirection.Carries.length_bounds {d : BlockDirection} (hr : d.mac.Ready)
    (h : d.Carries s t fragment payload) :
    (Direction.block d).format.size blockSize payload.length ≤ fragment.length ∧
      fragment.length ≤ (Direction.block d).format.size Padding.maxSize payload.length := by
  obtain ⟨hm, -, k, hk, hkl, hbody⟩ := h
  obtain ⟨-, -, -, hmod, hlen⟩ := length_bodyOf hm
  have hmax := d.paddingLimit_le
  have hplain : (d.bodyOf fragment).length = payload.length + d.innerMacSize + k := by
    rw [hbody, List.length_append, List.length_append, length_innerTag hr, Padding.length_bytes]
  rw [hplain] at hmod hlen
  simp only [Direction.format, Format.size, ivSize, innerMacSize, outerMacSize, Size.floorTo,
    Padding.maxSize, blockSize, Block.size] at *
  by_cases hmode : d.encryptThenMac = true
  · simp only [if_pos hmode] at *
    omega
  · simp only [if_neg hmode] at *
    omega

namespace Direction

variable {d : Direction}

theorem Carries.length_bounds (hr : d.Ready) (h : d.Carries s t v fragment payload) :
    d.format.size BlockDirection.blockSize payload.length ≤ fragment.length ∧
      fragment.length ≤ d.format.size Padding.maxSize payload.length := by
  cases d with
  | aead d =>
    obtain ⟨carried, ciphertext, rfl, hcarried, hopen⟩ := h
    have hle := AeadDirection.le_length_of_openBuffer hopen
    have hopened := Except.ok.inj (Aead.length_of_openBuffer hopen)
    have hlen : (carried ++ ciphertext).length = payload.length + d.overhead := by
      rw [List.length_append, AeadDirection.overhead]
      omega
    exact ⟨Nat.le_of_eq hlen.symm, Nat.le_of_eq hlen⟩
  | block d => exact BlockDirection.Carries.length_bounds hr h
  | null d =>
    obtain ⟨_ | m, id⟩ := d
    · obtain rfl : fragment = payload := h
      exact ⟨Nat.le_refl _, Nat.le_refl _⟩
    · obtain rfl : fragment = payload ++ m.tagOf (m.covered s t id payload) := h
      have hlen : (payload ++ m.tagOf (m.covered s t id payload)).length =
          payload.length + m.size := by
        rw [List.length_append, (hr.mac m rfl).length_tagOf]
      exact ⟨Nat.le_of_eq hlen.symm, Nat.le_of_eq hlen⟩
  | integrity d =>
    obtain rfl : fragment = payload ++ d.tagOf (d.covered s t v payload) := h
    have hlen : (payload ++ d.tagOf (d.covered s t v payload)).length =
        payload.length + d.hash.size := by
      rw [List.length_append, IntegrityDirection.Ready.length_tagOf hr]
    exact ⟨Nat.le_of_eq hlen.symm, Nat.le_of_eq hlen⟩

end Direction

/-- A client of TLS 1.2 with extended padding, which draws nothing but zeros. -/
def Context.zeroDraws : Context :=
  ⟨.client, { version := .tls12, extendedPadding := true }, some (.new (Bytes.zeros 48)), none,
    none, .zeros 276 [] 0⟩

theorem BlockProtection.exists_zeroDraws : ∃ p, new .zeroDraws .aes128 (.hmac .sha1) =
    (.ok p, { Context.zeroDraws with randomness := .zeros 276 [256] 256 }) := by
  have hmaster : Context.zeroDraws.master = some (.new (Bytes.zeros 48)) := rfl
  have hscratch := Randomness.draw_zeros [] (show 0 + Padding.maxSize ≤ 276 by decide)
  exact exists_new hmaster ⟨_, rfl, Bytes.length_zeros 48⟩ rfl hscratch .aes128 .sha1

namespace Protection

variable {c c' : Context} {p p₀ : Protection} {n limit : Nat}

theorem ciphertextEncodeLimit_of_le (p : Protection) (h : n ≤ limit) :
    p.ciphertextEncodeLimit n limit = p.ciphertextEncodeLimit n n := by
  have hmin : min n limit = min n n := by rw [Nat.min_eq_left h, Nat.min_self]
  cases p with
  | aead p => simp only [ciphertextEncodeLimit, AeadProtection.ciphertextEncodeLimit, hmin]
  | block p => simp only [ciphertextEncodeLimit, BlockProtection.ciphertextEncodeLimit, hmin]
  | null p => simp only [ciphertextEncodeLimit, NullProtection.ciphertextEncodeLimit, hmin]
  | integrity p =>
    simp only [ciphertextEncodeLimit, IntegrityProtection.ciphertextEncodeLimit, hmin]

/-- What is written is as long as predicted, unless it is padded with blocks that are drawn. Then
some of the blocks that were allowed for may be missing. -/
theorem encoded_length {plan : Plan} (hb : plan.build c = (.ok p₀, c')) (hp : p₀.Becomes p)
    (hlimit : plaintext.length ≤ limit)
    (hok : (p.encode r s t v room plaintext).1 = .ok record) :
    ∃ x, p.ciphertextEncodeLimit plaintext.length limit = .ok x ∧ record.size ≤ x ∧
      (p.extraPadding = false → record.size = x) ∧
      ∀ q, p = .block q →
        BlockDirection.blockSize ∣ x - record.size ∧
        (∃ iv padding, q.encoder.Writes s t plaintext iv padding record.fragment ∧
          1 ≤ padding ∧ padding ≤ Padding.maxSize) ∧
        ∀ w r', r.drawWord = .ok (w, r') → 2 ^ 15 ∣ w.toNat → record.size = x := by
  obtain ⟨hformat, -, -⟩ := hp.formatted (formatted_of_build (Plan.build_resolve hb))
  have hready := hformat.ready
  obtain ⟨fragment, hrec, hcap, hcarries, -⟩ := hready.encode_ok hok
  have hbounds := hcarries.length_bounds hready.writing_ready
  rw [InnerPlaintext.length_wrap] at hbounds
  have hmemory : plaintext.length + 592 < Size.bound := by
    have hle := p.writing.format.le_size
      (plaintext.length + InnerPlaintext.overhead p.writing.inner)
    simp only [Size.capacity, Size.bound] at *
    omega
  obtain ⟨⟨x, hx⟩, -⟩ := hformat.exists_limits (Family.overhead_le _ c) hmemory
  have hsize := hformat.size_of_encodeLimit hx
  rw [← hformat.writing] at hsize
  refine ⟨x, (p.ciphertextEncodeLimit_of_le hlimit).trans hx, ?_⟩
  cases p with
  | block q =>
    have hmac := hready.1.mac
    have hlength := BlockEncoder.size_of_encode hmac hok
    have hmax : x = _ + BlockDirection.blockSize * q.encoder.maxExtra :=
      hsize.symm.trans (q.encoder.size_maxPadding _)
    have hreached (h : q.encoder.extraBlocks r = q.encoder.maxExtra) : record.size = x := by
      rw [hlength, hmax, h]
      rfl
    refine ⟨?_, ?_, ?_⟩
    · rw [hlength, hmax]
      exact Nat.add_le_add_left (Nat.mul_le_mul_left _ (q.encoder.extraBlocks_le r)) _
    · intro hextra
      have hextra : q.encoder.extraPadding = false := hextra
      exact hreached ((BlockEncoder.extraBlocks_eq_zero hextra r).trans
        (BlockEncoder.maxExtra_eq_zero hextra).symm)
    · rintro q' ⟨⟩
      obtain ⟨iv, padding, -, -, hw, -⟩ := BlockEncoder.writes_of_encode hmac hok
      have hpadding := Nat.le_trans hw.padding_le q.encoder.maxPadding_le
      refine ⟨?_, ⟨iv, padding, hw, hw.padding_pos, hpadding⟩, ?_⟩
      · rw [hlength, hmax]
        refine ⟨q.encoder.maxExtra - q.encoder.extraBlocks r, ?_⟩
        rw [Nat.mul_sub]
        exact Nat.add_sub_add_left ..
      · intro w r' hw hdvd
        exact hreached (BlockEncoder.extraBlocks_eq_max hw hdvd)
  | aead p | null p | integrity p =>
    have heq : fragment.length = x := (Nat.le_antisymm hbounds.2 hbounds.1).trans hsize
    have hrecord : record.size = x := (congrArg Protected.size hrec).trans heq
    exact ⟨Nat.le_of_eq hrecord, fun _ => hrecord, by rintro q ⟨⟩⟩

theorem encoded_length_zeroDraws :
    let r := Randomness.zeros 276 [256] 256
    ∃ p record, Plan.build .zeroDraws (.family (.block .aes128 (.hmac .sha1))) =
        (.ok (.block p), { Context.zeroDraws with randomness := r }) ∧
      ((block p).encode r 0 .applicationData .tls12 5 [1, 2, 3]).1 = .ok record ∧
      (block p).ciphertextEncodeLimit 3 4 = .ok record.size := by
  intro r
  obtain ⟨p, hp⟩ := BlockProtection.exists_zeroDraws
  have hbuild := Plan.build_block hp
  have hmac := (Family.keyedFrom_of_build (Plan.build_resolve hbuild)).ready.1.mac
  obtain ⟨record, hok⟩ := p.encoder.exists_encode_zeros hmac 0 .applicationData 5 [1, 2, 3] [256]
    (show 256 + 20 ≤ 276 by decide) (by decide)
  have hlimit : ([1, 2, 3] : Bytes).length ≤ 4 := by decide
  obtain ⟨x, hx, -, -, hblock⟩ := encoded_length (v := .tls12) hbuild .start hlimit hok
  obtain ⟨-, -, hreached⟩ := hblock p rfl
  obtain ⟨r', hword⟩ := Randomness.drawWord_zeros [256] (show 256 + 4 ≤ 276 by decide)
  exact ⟨p, record, hbuild, hok, hreached 0 r' hword (by decide) ▸ hx⟩

end Protection

end RecordLayer
