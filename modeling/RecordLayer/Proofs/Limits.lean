import RecordLayer.Proofs.Formats

/-! # Limits

What an encoder may need for a plaintext and what fits a fragment determine each other, at one end
of a connection and between both.
-/

namespace RecordLayer

variable {c c' : Context}

namespace Protection

variable {p p₀ q q₀ : Protection} {f : Format} {n x y : Nat}

def extraPadding : Protection → Bool
  | block p => p.encoder.extraPadding
  | aead _ | null _ | integrity _ => false

def maxPadding (p : Protection) : Nat :=
  if p.extraPadding then Padding.maxSize else BlockDirection.blockSize

/-- Both directions have the format `f`, and would have it under new keys. -/
structure Formatted (p : Protection) (f : Format) : Prop where
  ready : p.Ready
  format : ∀ side, (p.direction side).format = f
  cipher : ∀ b, p.cipher? = some b → b.format = f ∧ ∀ side, (p.direction side).inner = true

theorem Formatted.writing (h : p.Formatted f) : p.writing.format = f := h.format .write

theorem Formatted.reading (h : p.Formatted f) : p.reading.format = f := h.format .read

theorem formatted_of_build {g : Family} (h : g.build c = (.ok p, c')) :
    p.Formatted (g.format c) := by
  have hkeyed := Family.keyedFrom_of_build h
  have hwriting := Family.format_of_direction hkeyed.writing
  refine ⟨hkeyed.ready, ?_, ?_⟩
  · rintro (_ | _)
    · exact hwriting
    · exact Family.format_of_direction hkeyed.reading
  · intro b hb
    have hderive (side : Side) := BulkCipher.format_of_derive (derive_of_build h hb side)
    exact ⟨(hderive .write).1.symm.trans hwriting, fun side => (hderive side).2⟩

theorem extraPadding_of_cipher? {b : BulkCipher} (h : p.cipher? = some b) :
    p.extraPadding = false := by
  cases p with
  | block p => cases h
  | aead p | null p | integrity p => rfl

theorem Ready.extraPadding_after (h : p.Ready) (call : Call) :
    (p.after call).extraPadding = p.extraPadding := by
  cases p with
  | block p =>
    cases call with
    | encode r s t v room plaintext =>
      obtain ⟨chain, henc⟩ := h.1.encode_encoder r s t room plaintext
      change (p.encoder.encode r s t room plaintext).2.1.extraPadding = p.encoder.extraPadding
      rw [henc]
      rfl
    | decode s t v fragment => rfl
  | aead p | null p | integrity p => cases call <;> rfl

theorem Formatted.after (h : p.Formatted f) (call : Call) : (p.after call).Formatted f := by
  have hkeys := h.ready.sameKeys_after call
  refine ⟨(h.ready.after call).1, fun side => (hkeys side).format_eq.trans (h.format side), ?_⟩
  intro b hb
  rw [cipher?_after] at hb
  obtain ⟨hformat, hinner⟩ := h.cipher b hb
  exact ⟨hformat, fun side => (hkeys side).inner_eq.trans (hinner side)⟩

/-- Neither uses nor new keys change what limits depend on. -/
theorem Becomes.formatted (h : p.Becomes q) (hp : p.Formatted f) : q.Formatted f ∧
    (∀ side, (q.direction side).inner = (p.direction side).inner) ∧
      q.extraPadding = p.extraPadding := by
  induction h with
  | start => exact ⟨hp, fun _ => rfl, rfl⟩
  | used h call ih =>
    obtain ⟨hq, hinner, hextra⟩ := ih
    exact ⟨hq.after call,
      fun side => (hq.ready.sameKeys_after call side).inner_eq.trans (hinner side),
      (hq.ready.extraPadding_after call).trans hextra⟩
  | @rekeyed q q' c h side hrekey ih =>
    obtain ⟨hq, hinner, hextra⟩ := ih
    obtain ⟨b, hb, hd, hother, hb', hready⟩ := rekey_eq_ok hrekey
    obtain ⟨hformat, hhidden⟩ := hq.cipher b hb
    obtain ⟨hformat', hhidden'⟩ := BulkCipher.format_of_derive hd
    have hdirection (x : Side) : (q'.direction x).format = f ∧ (q'.direction x).inner = true := by
      rcases x.eq_or_eq_other side with rfl | rfl
      · exact ⟨hformat'.trans hformat, hhidden'⟩
      · exact hother ▸ ⟨hq.format _, hhidden _⟩
    refine ⟨⟨hready hq.ready, fun x => (hdirection x).1, ?_⟩, ?_, ?_⟩
    · intro b' hb''
      obtain rfl := Option.some.inj (hb''.symm.trans hb')
      exact ⟨hformat, fun x => (hdirection x).2⟩
    · exact fun x => (hdirection x).2.trans ((hhidden x).symm.trans (hinner x))
    · rw [extraPadding_of_cipher? hb', ← hextra, extraPadding_of_cipher? hb]

theorem Formatted.integrity {p : IntegrityProtection} (h : (integrity p).Formatted f) :
    f = .appended p.hash.size := (h.cipher _ rfl).1.symm

theorem Formatted.size_of_encodeLimit (h : p.Formatted f)
    (hx : p.ciphertextEncodeLimit n n = .ok x) :
    f.size p.maxPadding (n + InnerPlaintext.overhead p.writing.inner) = x := by
  cases p with
  | aead p =>
    obtain rfl := h.writing
    simp only [ciphertextEncodeLimit, AeadProtection.ciphertextEncodeLimit, bind_eq_ok,
      Size.add_eq_ok_iff, Nat.min_self] at hx
    obtain ⟨_, ⟨-, rfl⟩, _, ⟨-, rfl⟩, -, rfl⟩ := hx
    exact (Nat.add_assoc ..).symm
  | block p =>
    obtain rfl := h.writing
    simp only [ciphertextEncodeLimit, BlockProtection.ciphertextEncodeLimit, bind_eq_ok,
      Size.add_eq_ok_iff, Nat.min_self] at hx
    obtain ⟨_, ⟨-, rfl⟩, hx⟩ := hx
    exact BlockDirection.ciphertextSize_eq_ok hx
  | null p =>
    obtain rfl := h.writing
    simp only [ciphertextEncodeLimit, NullProtection.ciphertextEncodeLimit, bind_eq_ok,
      Size.add_eq_ok_iff, Nat.min_self] at hx
    obtain ⟨_, ⟨-, rfl⟩, -, rfl⟩ := hx
    rfl
  | integrity p =>
    obtain rfl := h.integrity
    simp only [ciphertextEncodeLimit, IntegrityProtection.ciphertextEncodeLimit,
      Size.add_eq_ok_iff, Nat.min_self] at hx
    obtain ⟨-, rfl⟩ := hx
    exact Nat.add_right_comm n 1 p.hash.size

theorem Formatted.size_of_decodeLimit (h : p.Formatted f)
    (hx : p.ciphertextDecodeLimit n = .ok x) :
    f.size Padding.maxSize (n + InnerPlaintext.allowance p.reading.inner) = x := by
  cases p with
  | aead p =>
    obtain rfl := h.reading
    simp only [ciphertextDecodeLimit, AeadProtection.ciphertextDecodeLimit, bind_eq_ok,
      Size.add_eq_ok_iff] at hx
    obtain ⟨_, ⟨-, rfl⟩, _, ⟨-, rfl⟩, -, rfl⟩ := hx
    rw [Nat.add_assoc n, Nat.add_right_comm]
    rfl
  | block p =>
    obtain rfl := h.reading
    simp only [ciphertextDecodeLimit, BlockProtection.ciphertextDecodeLimit, bind_eq_ok,
      Size.add_eq_ok_iff] at hx
    obtain ⟨_, ⟨-, rfl⟩, hx⟩ := hx
    exact BlockDirection.ciphertextSize_eq_ok hx
  | null p =>
    obtain rfl := h.reading
    simp only [ciphertextDecodeLimit, NullProtection.ciphertextDecodeLimit, bind_eq_ok,
      Size.add_eq_ok_iff] at hx
    obtain ⟨_, ⟨-, rfl⟩, -, rfl⟩ := hx
    rfl
  | integrity p =>
    obtain rfl := h.integrity
    simp only [ciphertextDecodeLimit, IntegrityProtection.ciphertextDecodeLimit, bind_eq_ok,
      Size.add_eq_ok_iff] at hx
    obtain ⟨_, ⟨-, rfl⟩, -, rfl⟩ := hx
    exact Nat.add_right_comm n _ p.hash.size

theorem Formatted.plaintextDecodeLimit_eq (h : p.Formatted f) (n : Nat) :
    p.plaintextDecodeLimit n = f.capacity n - InnerPlaintext.overhead p.reading.inner := by
  cases p with
  | aead p | null p =>
    obtain rfl := h.reading
    exact (Nat.sub_sub ..).symm
  | block p =>
    obtain rfl := h.reading
    rfl
  | integrity p =>
    obtain rfl := h.integrity
    exact (Nat.sub_sub ..).symm

theorem Formatted.plaintextEncodeLimit_eq (h : p.Formatted f) (n : Nat) :
    p.plaintextEncodeLimit n = f.capacity n - InnerPlaintext.overhead p.writing.inner := by
  cases p with
  | aead p | null p =>
    obtain rfl := h.writing
    exact (Nat.sub_sub ..).symm
  | block p =>
    obtain rfl := h.reading
    rfl
  | integrity p =>
    obtain rfl := h.integrity
    exact (Nat.sub_sub ..).symm

theorem Formatted.exists_limits (h : p.Formatted f) (hf : f.overhead ≤ 80)
    (hn : n + 592 < Size.bound) :
    (∃ x, p.ciphertextEncodeLimit n n = .ok x) ∧ ∃ y, p.ciphertextDecodeLimit n = .ok y := by
  have hoverhead (b : Bool) : InnerPlaintext.overhead b ≤ 1 := by cases b <;> decide
  have hallowance (b : Bool) : InnerPlaintext.allowance b ≤ 256 := by cases b <;> decide
  have hw : p.writing.format.overhead ≤ 80 := h.writing ▸ hf
  have hr : p.reading.format.overhead ≤ 80 := h.reading ▸ hf
  cases p with
  | aead p =>
    have hw : p.encoder.aead.tagSize + p.encoder.recordIvSize ≤ 80 := hw
    have hr : p.decoder.aead.tagSize + p.decoder.recordIvSize ≤ 80 := hr
    have ho := hoverhead p.encoder.inner
    have ha := hallowance p.decoder.inner
    simp only [ciphertextEncodeLimit, AeadProtection.ciphertextEncodeLimit, ciphertextDecodeLimit,
      AeadProtection.ciphertextDecodeLimit, bind_eq_ok, Size.add_eq_ok_iff, Nat.min_self]
    exact ⟨⟨_, _, ⟨by omega, rfl⟩, _, ⟨by omega, rfl⟩, by omega, rfl⟩,
      _, _, ⟨by omega, rfl⟩, _, ⟨by omega, rfl⟩, by omega, rfl⟩
  | block p =>
    have ho := hoverhead p.encoder.inner
    have ha := hallowance p.decoder.inner
    have hpadding := p.encoder.maxPadding_le
    have hmax : Padding.maxSize = 256 := rfl
    obtain ⟨x, hx⟩ := p.encoder.exists_ciphertextSize p.encoder.maxPadding
      (n + InnerPlaintext.overhead p.encoder.inner)
      (Nat.lt_of_le_of_lt (Nat.add_le_add_left hw _) (by omega))
    obtain ⟨y, hy⟩ := p.decoder.exists_ciphertextSize Padding.maxSize
      (n + InnerPlaintext.allowance p.decoder.inner)
      (Nat.lt_of_le_of_lt (Nat.add_le_add_left hr _) (by omega))
    simp only [ciphertextEncodeLimit, BlockProtection.ciphertextEncodeLimit, ciphertextDecodeLimit,
      BlockProtection.ciphertextDecodeLimit, bind_eq_ok, Size.add_eq_ok_iff, Nat.min_self]
    exact ⟨⟨x, _, ⟨by omega, rfl⟩, hx⟩, y, _, ⟨by omega, rfl⟩, hy⟩
  | null p =>
    have hw : p.encoder.macSize ≤ 80 := hw
    have hr : p.decoder.macSize ≤ 80 := hr
    have ho := hoverhead p.encoder.inner
    have ha := hallowance p.decoder.inner
    simp only [ciphertextEncodeLimit, NullProtection.ciphertextEncodeLimit, ciphertextDecodeLimit,
      NullProtection.ciphertextDecodeLimit, bind_eq_ok, Size.add_eq_ok_iff, Nat.min_self]
    exact ⟨⟨_, _, ⟨by omega, rfl⟩, by omega, rfl⟩, _, _, ⟨by omega, rfl⟩, by omega, rfl⟩
  | integrity p =>
    have hhash := p.hash.size_le
    have ha := hallowance true
    simp only [ciphertextEncodeLimit, IntegrityProtection.ciphertextEncodeLimit,
      ciphertextDecodeLimit, IntegrityProtection.ciphertextDecodeLimit, bind_eq_ok,
      Size.add_eq_ok_iff, Nat.min_self]
    exact ⟨⟨_, by omega, rfl⟩, _, _, ⟨by omega, rfl⟩, by omega, rfl⟩

theorem Formatted.limits_of_reader (hp : p.Formatted f) (hq : q.Formatted f)
    (hinner : q.reading.inner = p.writing.inner) (hx : p.ciphertextEncodeLimit n n = .ok x) :
    n ≤ q.plaintextDecodeLimit x ∧ ∀ y, q.ciphertextDecodeLimit n = .ok y → x ≤ y := by
  have hle : BlockDirection.blockSize ≤ p.maxPadding ∧ p.maxPadding ≤ Padding.maxSize := by
    unfold maxPadding
    split <;> decide
  have hsize := hp.size_of_encodeLimit hx
  constructor
  · rw [hq.plaintextDecodeLimit_eq, hinner]
    rcases Nat.eq_zero_or_pos n with rfl | hn
    · exact Nat.zero_le _
    · refine Nat.le_sub_of_add_le ((Format.le_capacity_iff (Nat.add_pos_left hn _)).mpr ?_)
      rw [← hsize]
      exact Format.size_mono hle.1 (Nat.le_refl _)
  · intro y hy
    rw [← hsize, ← hq.size_of_decodeLimit hy, hinner]
    refine Format.size_mono hle.2 (Nat.add_le_add_left ?_ n)
    cases p.writing.inner <;> decide

theorem Formatted.limits_of_writer {x₀ m : Nat} (hp : p.Formatted f)
    (hextra : p.extraPadding = false) (hx₀ : p.ciphertextEncodeLimit 0 0 = .ok x₀) :
    (x₀ ≤ m → ∀ n x, p.ciphertextEncodeLimit n n = .ok x →
        (n ≤ p.plaintextEncodeLimit m ↔ x ≤ m)) ∧
      (m < x₀ → p.plaintextEncodeLimit m = 0) := by
  have hmax : p.maxPadding = BlockDirection.blockSize := by rw [maxPadding, hextra]; rfl
  have hsize₀ := hp.size_of_encodeLimit hx₀
  rw [hmax, Nat.zero_add] at hsize₀
  rw [hp.plaintextEncodeLimit_eq]
  constructor
  · intro hm n x hx
    have hsize := hp.size_of_encodeLimit hx
    rw [hmax] at hsize
    rcases Nat.eq_zero_or_pos n with rfl | hn
    · rw [Nat.zero_add, hsize₀] at hsize
      exact iff_of_true (Nat.zero_le _) (hsize ▸ hm)
    · have hpos := Nat.add_pos_left hn (InnerPlaintext.overhead p.writing.inner)
      have hiff := Format.le_capacity_iff (f := f) (c := m) hpos
      rw [hsize] at hiff
      rw [← hiff]
      omega
  · intro hm
    rw [← hsize₀] at hm
    exact Nat.sub_eq_zero_of_le (Format.capacity_le hm)

/-- The limits of an end that is built, used and keyed again agree with each other and, whatever
became of the opposite end, with those of that end. -/
theorem limits_agree {plan : Plan} (hb : plan.build c = (.ok p₀, c')) (hp : p₀.Becomes p) :
    (∀ n, n + 592 < Size.bound →
      (∃ x, p.ciphertextEncodeLimit n n = .ok x) ∧ ∃ y, p.ciphertextDecodeLimit n = .ok y) ∧
    (∀ d d' q₀ q, c.Opposite d → plan.build d = (.ok q₀, d') → q₀.Becomes q →
      ∀ n x, p.ciphertextEncodeLimit n n = .ok x →
        n ≤ q.plaintextDecodeLimit x ∧ ∀ y, q.ciphertextDecodeLimit n = .ok y → x ≤ y) ∧
    (p.extraPadding = false → ∃ x₀, p.ciphertextEncodeLimit 0 0 = .ok x₀ ∧ ∀ m,
      (x₀ ≤ m → ∀ n x, p.ciphertextEncodeLimit n n = .ok x →
        (n ≤ p.plaintextEncodeLimit m ↔ x ≤ m)) ∧
      (m < x₀ → p.plaintextEncodeLimit m = 0)) := by
  have hb' := Plan.build_resolve hb
  obtain ⟨hformat, hkept, -⟩ := hp.formatted (formatted_of_build hb')
  have hwriting : p.writing.inner = p₀.writing.inner := hkept .write
  have hdefined (n : Nat) := hformat.exists_limits (n := n) (Family.overhead_le _ c)
  refine ⟨hdefined, ?_, ?_⟩
  · intro d d' q₀ q hcd hq hq₀ n x hx
    have hq' := Plan.build_resolve hq
    have hversion : d.version = c.version := hcd.version
    rw [hversion] at hq'
    obtain ⟨hformat', hkept', -⟩ := hq₀.formatted (formatted_of_build hq')
    have hreading : q.reading.inner = q₀.reading.inner := hkept' .read
    rw [Family.format_congr hcd] at hformat'
    have hinner : q.reading.inner = p.writing.inner := by
      rw [hreading, hwriting, Family.reading_eq_writing hcd hb' hq']
    exact hformat.limits_of_reader hformat' hinner hx
  · intro hextra
    obtain ⟨⟨x₀, hx₀⟩, -⟩ := hdefined 0 (by decide)
    exact ⟨x₀, hx₀, fun m => hformat.limits_of_writer hextra hx₀⟩

theorem limits_agree_integrity :
    let secret := some (Secret.new (Bytes.zeros 32))
    let c : Context := ⟨.client, { version := .tls13 }, none, secret, secret, .ofSeed 0⟩
    let d : Context := ⟨.server, { version := .tls13 }, none, secret, secret, .ofSeed 1⟩
    ∃ p q x, Plan.build c (.family (.integrity .sha256)) = (.ok p, c) ∧
      Plan.build d (.family (.integrity .sha256)) = (.ok q, d) ∧
      p.ciphertextEncodeLimit 5 5 = .ok x ∧ 5 ≤ q.plaintextDecodeLimit x ∧
      5 ≤ p.plaintextEncodeLimit x := by
  intro secret c d
  have hcd : c.Opposite d := ⟨rfl, rfl, rfl, rfl, rfl, rfl, rfl, rfl, rfl, rfl, rfl, rfl⟩
  have hsize : (Secret.new (Bytes.zeros 32)).HasSize 32 := ⟨_, rfl, Bytes.length_zeros 32⟩
  obtain ⟨p, hp, -⟩ := Plan.exists_integrity (h := .sha256)
    (Context.hasTrafficSecrets (c := c) rfl rfl hsize hsize) (by decide) (by decide) (by decide)
  obtain ⟨q, hq, -⟩ := Plan.exists_integrity (h := .sha256)
    (Context.hasTrafficSecrets (c := d) rfl rfl hsize hsize) (by decide) (by decide) (by decide)
  obtain ⟨hdefined, hreader, hwriter⟩ := limits_agree hp .start
  obtain ⟨⟨x, hx⟩, -⟩ := hdefined 5 (by decide)
  obtain ⟨x₀, hx₀, hm⟩ := hwriter rfl
  have hle : x₀ ≤ x := by
    have hsum := (Size.add_eq_ok_iff.mp hx).2
    have hsum₀ := (Size.add_eq_ok_iff.mp hx₀).2
    omega
  exact ⟨_, _, x, hp, hq, hx, (hreader d d _ _ hcd hq .start 5 x hx).1,
    ((hm x).1 hle 5 x hx).mpr (Nat.le_refl x)⟩

end Protection

end RecordLayer
