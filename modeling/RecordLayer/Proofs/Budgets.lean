import RecordLayer.Proofs.BlockGrammar
import RecordLayer.Proofs.Lengths
import RecordLayer.Proofs.Robustness

/-! # Budgets

How much plaintext a number of bytes of ciphertext holds. For the writer this is what fits behind
the shortest padding, so blocks that are drawn on top of it may exceed the budget. For the reader it
is a bound on everything that it accepts.
-/

namespace RecordLayer

variable {s s' : UInt64} {t t' : ContentType} {v : Version} {room room' budget : Nat}
  {plaintext fragment : Bytes} {record empty : Protected} {r r' : Randomness}
  {c c' : Context} {received : Recovered}

def BlockEncoder.shortest (e : BlockEncoder) : BlockEncoder := { e with extraPadding := false }

theorem BlockEncoder.size_of_encode_shortest {e : BlockEncoder} (h : e.mac.Ready)
    (hok : (e.shortest.encode r s t room plaintext).1 = .ok record) :
    record.size = (Direction.block e.toBlockDirection).format.size BlockDirection.blockSize
      (plaintext.length + InnerPlaintext.overhead e.inner) := by
  have hsize := size_of_encode (e := e.shortest) h hok
  rw [extraBlocks_eq_zero rfl] at hsize
  exact hsize

namespace Protection

variable {p p₀ : Protection} {q : BlockProtection} {f : Format} {n : Nat}

theorem Formatted.size_le_of_fits (h : p.Formatted f)
    (hempty : f.size BlockDirection.blockSize (InnerPlaintext.overhead p.writing.inner) ≤ budget)
    (hfit : n ≤ p.plaintextEncodeLimit budget) :
    f.size BlockDirection.blockSize (n + InnerPlaintext.overhead p.writing.inner) ≤ budget := by
  rw [h.plaintextEncodeLimit_eq] at hfit
  rcases Nat.eq_zero_or_pos n with rfl | hn
  · rwa [Nat.zero_add]
  · exact (Format.le_capacity_iff (by omega)).mp (by omega)

theorem exists_planned_zeroDraws :
    let r := Randomness.zeros 276 [256] 256
    ∃ q c' empty record, BlockProtection.new .zeroDraws .aes128 (.hmac .sha1) = (.ok q, c') ∧
      (q.encoder.shortest.encode r 0 .applicationData 0 []).1 = .ok empty ∧ empty.size = 48 ∧
      (Bytes.zeros 11).length ≤ q.plaintextEncodeLimit 48 ∧
      (q.encoder.encode r 0 .applicationData 0 (Bytes.zeros 11)).1 = .ok record ∧
      record.size = 288 := by
  intro r
  obtain ⟨q, hq⟩ := BlockProtection.exists_zeroDraws
  have hbuild := Plan.build_resolve (Plan.build_block hq)
  have hformat : (block q).Formatted (.blocks 20 false true) := formatted_of_build hbuild
  have hwriting : (Direction.block q.encoder.toBlockDirection).format = .blocks 20 false true :=
    hformat.writing
  have hmac := hformat.ready.1.mac
  have hid : q.encoder.id = [] :=
    (Family.id_of_direction (Family.keyedFrom_of_build hbuild).writing).elim id id
  have hinner : q.encoder.inner = false := by
    rw [BlockDirection.inner, hid]
    rfl
  obtain ⟨w, hword⟩ := Randomness.drawWord_zeros [256] (show 256 + 4 ≤ 276 by decide)
  have hextra : q.encoder.extraBlocks r = 15 := by
    rw [BlockEncoder.extraBlocks_eq_max hword (by decide), BlockEncoder.maxExtra,
      (BlockProtection.of_new hq).2.2.1]
    rfl
  obtain ⟨empty, hempty⟩ := q.encoder.shortest.exists_encode_zeros hmac 0 .applicationData 0 []
    [256] (show 256 + 20 ≤ 276 by decide) (by decide)
  obtain ⟨record, hok⟩ := q.encoder.exists_encode_zeros hmac 0 .applicationData 0 (Bytes.zeros 11)
    [256] (show 256 + 20 ≤ 276 by decide) (by decide)
  refine ⟨q, _, empty, record, hq, hempty, ?_, ?_, hok, ?_⟩
  · rw [BlockEncoder.size_of_encode_shortest hmac hempty, hwriting, hinner]
    rfl
  · have hlimit := hformat.plaintextEncodeLimit_eq 48
    have hinner' : (block q).writing.inner = false := hinner
    rw [hinner'] at hlimit
    exact Nat.le_of_eq hlimit.symm
  · rw [BlockEncoder.size_of_encode hmac hok, hwriting, hinner, hextra]
    rfl

/-- A plaintext that is planned for a budget has a record that fits it, and every record for the
plaintext is longer than that one by the extra blocks that are drawn. -/
theorem planned_size {plan : Plan} (hb : plan.build c = (.ok p₀, c')) (hp : p₀.Becomes (.block q))
    (hempty : (q.encoder.shortest.encode r' s' t' room' []).1 = .ok empty)
    (hbudget : empty.size ≤ budget) (hfit : plaintext.length ≤ q.plaintextEncodeLimit budget)
    (hok : (q.encoder.encode r s t room plaintext).1 = .ok record) :
    ∃ least ≤ budget,
      (∀ r s t room record, (q.encoder.shortest.encode r s t room plaintext).1 = .ok record →
        record.size = least) ∧
      record.size = least + BlockDirection.blockSize * q.encoder.extraBlocks r ∧
      q.encoder.extraBlocks r ≤ 15 ∧
      (q.encoder.extraPadding = false → record.size ≤ budget) := by
  obtain ⟨hformat, -, -⟩ := hp.formatted (formatted_of_build (Plan.build_resolve hb))
  have hmac := hformat.ready.1.mac
  have hsize := BlockEncoder.size_of_encode hmac hok
  rw [BlockEncoder.size_of_encode_shortest hmac hempty, List.length_nil, Nat.zero_add] at hbudget
  have hwriting : (Direction.block q.encoder.toBlockDirection).format = _ := hformat.writing
  rw [hwriting] at hbudget hsize
  have hle := hformat.size_le_of_fits hbudget hfit
  have hextra := Nat.le_trans (q.encoder.extraBlocks_le r) q.encoder.maxExtra_le
  refine ⟨_, hle, ?_, hsize, hextra, ?_⟩
  · intro r s t room record hshort
    rw [BlockEncoder.size_of_encode_shortest hmac hshort, hwriting]
    rfl
  · intro hextra
    rw [hsize, BlockEncoder.extraBlocks_eq_zero hextra]
    exact hle

theorem planned_size_zeroDraws :
    let r := Randomness.zeros 276 [256] 256
    ∃ q c' record, BlockProtection.new .zeroDraws .aes128 (.hmac .sha1) = (.ok q, c') ∧
      (q.encoder.encode r 0 .applicationData 0 (Bytes.zeros 11)).1 = .ok record ∧
      ∃ least ≤ 48, record.size = least + BlockDirection.blockSize * q.encoder.extraBlocks r := by
  intro r
  obtain ⟨q, c', empty, record, hq, hempty, hsize, hfit, hok, -⟩ := exists_planned_zeroDraws
  obtain ⟨least, hleast, -, hrecord, -⟩ :=
    planned_size (Plan.build_block hq) .start hempty (Nat.le_of_eq hsize) hfit hok
  exact ⟨q, c', record, hq, hok, least, hleast, hrecord⟩

/-- With fifteen extra blocks, a record for eleven bytes exceeds what they were planned for. -/
theorem planned_overflow :
    ¬ ∀ (q : BlockProtection) (c c' : Context) (k : Aes.Variant) (a : MacAlgorithm),
      BlockProtection.new c k a = (.ok q, c') →
      ∀ (r : Randomness) (s : UInt64) (t : ContentType) (room budget : Nat) (plaintext : Bytes)
        (empty record : Protected),
        (q.encoder.shortest.encode r s t room []).1 = .ok empty → empty.size ≤ budget →
        plaintext.length ≤ q.plaintextEncodeLimit budget →
        (q.encoder.encode r s t room plaintext).1 = .ok record → record.size ≤ budget := by
  intro h
  obtain ⟨q, c', empty, record, hq, hempty, hsize, hfit, hok, hlong⟩ := exists_planned_zeroDraws
  have hle := h q _ c' _ _ hq _ _ _ _ 48 _ empty record hempty (Nat.le_of_eq hsize) hfit hok
  rw [hlong] at hle
  exact absurd hle (by decide)

theorem Becomes.reachable {p q : Protection} (h : p.Becomes q) (hp : p.Reachable) :
    q.Reachable := by
  induction h with
  | start => exact hp
  | used _ call ih => exact ih.used call
  | rekeyed _ side hq ih => exact ih.rekeyed side hq

/-- The limits of a reader hold for whatever it accepts: no plaintext is longer than its fragment
allows for, and only zeros behind a type make a fragment longer than its plaintext allows for. -/
theorem decode_limits {plan : Plan} (hb : plan.build c = (.ok p₀, c')) (hp : p₀.Becomes p)
    (hid : AdditionalData.Holds c.params.localId) (hlen : fragment.length ≤ Size.capacity)
    (hok : (p.decode s t v fragment).1 = .ok received) :
    received.plaintext.length ≤ p.plaintextDecodeLimit fragment.length ∧
      ∃ n, p.reading.Carries s t v fragment (InnerPlaintext.wrap p.reading.inner
          received.contentType received.plaintext ++ Bytes.zeros n) ∧
        (p.reading.inner = true → received.contentType.code ≠ 0) ∧
        (p.reading.inner = false → n = 0) ∧
        (n ≤ 255 → ∃ y, p.ciphertextDecodeLimit received.plaintext.length = .ok y ∧
          fragment.length ≤ y) := by
  obtain ⟨hformat, -, -⟩ := hp.formatted (formatted_of_build (Plan.build_resolve hb))
  have hguarded := (hp.reachable (.built hid hb)).guarded
  obtain ⟨payload, hcarries, hr⟩ := (hguarded.ready.decode_ok_iff hlen hguarded.holds).mp hok
  obtain ⟨n, rfl, htype, hzeros⟩ := InnerPlaintext.exists_zeros hr
  obtain ⟨hshort, hlong⟩ := hcarries.length_bounds hguarded.ready.reading_ready
  rw [hformat.reading, List.length_append, InnerPlaintext.length_wrap, Bytes.length_zeros]
    at hshort hlong
  refine ⟨?_, n, hcarries, htype, hzeros, ?_⟩
  · rw [hformat.plaintextDecodeLimit_eq]
    rcases Nat.eq_zero_or_pos received.plaintext.length with hempty | hpos
    · rw [hempty]
      exact Nat.zero_le _
    · have hfits := (Format.le_capacity_iff (by omega)).mpr hshort
      omega
  · intro hn
    have hmemory : received.plaintext.length + 592 < Size.bound := by
      have hle := Format.le_size (Family.format c (plan.resolve c.version))
        (received.plaintext.length + InnerPlaintext.overhead p.reading.inner + n)
      simp only [Size.capacity, Size.bound] at *
      omega
    obtain ⟨-, y, hy⟩ := hformat.exists_limits (Family.overhead_le _ c) hmemory
    refine ⟨y, hy, Nat.le_trans hlong ?_⟩
    rw [← hformat.size_of_decodeLimit hy]
    refine Format.size_mono (Nat.le_refl _) ?_
    cases hi : p.reading.inner with
    | false =>
      rw [hzeros hi]
      exact Nat.le_refl _
    | true =>
      simp only [InnerPlaintext.overhead, InnerPlaintext.allowance, if_true]
      omega

theorem decode_limits_exchange : ∃ q fragment,
    Plan.build (sharing .server) (.family (.integrity .sha256)) = (.ok q, sharing .server) ∧
      (q.decode 7 .applicationData .tls12 fragment).1 = .ok ⟨[1, 2, 3], .applicationData⟩ ∧
      3 ≤ q.plaintextDecodeLimit fragment.length := by
  obtain ⟨-, q, fragment, -, hq, -, hlen, -, hok⟩ := exists_exchange
  have hcap : fragment.length ≤ Size.capacity := Nat.le_trans hlen (by decide)
  exact ⟨.integrity q, fragment, hq, hok, (decode_limits hq .start (by decide) hcap hok).1⟩

end Protection

end RecordLayer
