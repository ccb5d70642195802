import RecordLayer.Proofs.Authenticity
import RecordLayer.Proofs.BlockGrammar
import RecordLayer.Proofs.Formats
import RecordLayer.Proofs.Robustness

/-! # The grammar of records that end with a tag

What a decoder makes of a fragment without blocks, spelled out over its bytes: too short, wrong tag,
no type, or a plaintext with its type. Where the payload travels in the clear, the plaintext and its
type determine the fragment.
-/

namespace RecordLayer

variable {s : UInt64} {t : ContentType} {v : Version} {room : Nat}
  {plaintext payload fragment : Bytes} {received : Recovered} {r : Randomness}

/-- What becomes of a fragment that has to have `least` bytes, if its check leaves `payload?`. -/
structure Decides (least : Nat) (payload? : Option Bytes) (inUse : Bool) (outer : ContentType)
    (fragment : Bytes) (result : Except Failure Recovered) : Prop where
  short : (∃ reason, result = .error (.refused (.decodeError reason))) ↔ fragment.length < least
  forged : result = .error (.refused .badRecordMac) ↔ least ≤ fragment.length ∧ payload? = none
  untyped : (∃ reason, result = .error (.refused (.unexpectedMessage reason))) ↔
    least ≤ fragment.length ∧ inUse = true ∧
      ∃ payload, payload? = some payload ∧ ∀ b ∈ payload, b = 0
  typed : inUse = true → least ≤ fragment.length → ∀ plaintext b zeros,
    payload? = some (plaintext ++ b :: zeros) → b ≠ 0 → (∀ z ∈ zeros, z = 0) →
      result = .ok ⟨plaintext, ⟨b⟩⟩
  plain : inUse = false → least ≤ fragment.length → ∀ payload, payload? = some payload →
    result = .ok ⟨payload, outer⟩

theorem Bytes.eq_zero_of_getLast?_ne {x : Bytes} {n : Nat}
    (h : (x ++ zeros n).getLast? ≠ some 0) : n = 0 := by
  cases n with
  | zero => rfl
  | succ n =>
    refine absurd ?_ h
    rw [zeros, List.replicate_succ', ← List.append_assoc, List.getLast?_concat]

theorem InnerPlaintext.recover_cases (inUse : Bool) (outer : ContentType) (payload : Bytes) :
    (inUse = true ∧ (∀ b ∈ payload, b = 0) ∧ ∃ reason,
        recover inUse outer payload = .error (.refused (.unexpectedMessage reason))) ∨
      ¬ (inUse = true ∧ ∀ b ∈ payload, b = 0) ∧
        ∃ received, recover inUse outer payload = .ok received := by
  have hmeans := means_recover inUse outer payload
  generalize recover inUse outer payload = result at hmeans
  cases hmeans with
  | plain _ hi => exact Or.inr ⟨by simp [hi], _, rfl⟩
  | typed plaintext type n hi ht =>
    refine Or.inr ⟨?_, _, rfl⟩
    rintro ⟨-, hzeros⟩
    exact ht (hzeros type.code (by simp))
  | untyped n hi => exact Or.inl ⟨hi, fun b hb => List.eq_of_mem_replicate hb, _, rfl⟩

theorem decides_conclude (least : Nat) (reason : String) (fragment : Bytes)
    (payload? : Option Bytes) (inUse : Bool) (outer : ContentType) :
    Decides least payload? inUse outer fragment
      (conclude least reason fragment payload? inUse outer) := by
  rcases Nat.lt_or_ge fragment.length least with hlt | hle
  · have hnot := Nat.not_le.mpr hlt
    rw [conclude_of_lt reason payload? inUse outer hlt]
    exact ⟨iff_of_true ⟨_, rfl⟩ hlt, by simp [hnot], by simp [hnot], fun _ hle => absurd hle hnot,
      fun _ hle => absurd hle hnot⟩
  cases payload? with
  | none =>
    rw [conclude_none reason inUse outer hle]
    exact ⟨by simp [hle], by simp [hle], by simp, by simp, by simp⟩
  | some payload =>
    rw [conclude_some reason payload inUse outer hle]
    have hcases := InnerPlaintext.recover_cases inUse outer payload
    constructor
    case short =>
      refine iff_of_false ?_ (Nat.not_lt.mpr hle)
      rintro ⟨reason, h⟩
      simp [h] at hcases
    case forged =>
      refine iff_of_false ?_ (by simp)
      intro h
      simp [h] at hcases
    case untyped =>
      constructor
      · rintro ⟨reason, h⟩
        rcases hcases with ⟨hi, hzeros, -⟩ | ⟨-, _, hok⟩
        · exact ⟨hle, hi, payload, rfl, hzeros⟩
        · cases h.symm.trans hok
      · rintro ⟨-, hi, _, ⟨⟩, hzeros⟩
        rcases hcases with ⟨-, -, h⟩ | ⟨hnot, -⟩
        · exact h
        · exact absurd ⟨hi, hzeros⟩ hnot
    case typed =>
      rintro rfl - plaintext b zeros ⟨⟩ hb hzeros
      rw [List.eq_replicate_of_mem hzeros]
      exact InnerPlaintext.recover_typed outer (t := ⟨b⟩) hb plaintext _
    case plain =>
      rintro rfl - _ ⟨⟩
      rfl

namespace Direction

variable {d d' : Direction}

def InClear : Direction → Prop
  | null _ | integrity _ => True
  | aead _ | block _ => False

theorem SameKeys.eq_of_inClear (h : d.SameKeys d') (hd : d.InClear) : d' = d := by
  obtain ⟨chain, rfl⟩ := h
  cases d with
  | null d | integrity d => rfl
  | aead d | block d => cases hd

theorem Carries.exists_tag (hr : d.Ready) (hd : d.InClear)
    (h : d.Carries s t v fragment payload) :
    ∃ tag, fragment = payload ++ tag ∧ tag.length = d.format.overhead := by
  cases d with
  | null d =>
    obtain ⟨_ | m, id⟩ := d
    · exact ⟨[], by rw [List.append_nil]; exact h, rfl⟩
    · exact ⟨_, h, (hr.mac m rfl).length_tagOf _⟩
  | integrity d => exact ⟨_, h, IntegrityDirection.Ready.length_tagOf hr _⟩
  | aead d | block d => cases hd

end Direction

namespace Protection

variable {p p₀ q sender : Protection} {c c' : Context}

theorem Ready.carries_of_decode (h : p.Ready) (hd : p.reading.InClear)
    (hok : (p.decode s t v fragment).1 = .ok received) :
    ∃ payload, p.reading.Carries s t v fragment payload ∧
      InnerPlaintext.recover p.reading.inner t payload = .ok received := by
  cases p with
  | null p => exact h.2.decode_ok_iff.mp hok
  | integrity p => exact h.2.decode_ok_iff.mp hok
  | aead p | block p => cases hd

theorem Ready.encode_of_carries (h : p.Ready) (hd : p.writing.InClear)
    (hc : p.writing.Carries s (p.writing.outer t) v fragment
      (InnerPlaintext.wrap p.writing.inner t plaintext))
    (hroom : room + fragment.length ≤ Size.capacity) :
    (p.encode r s t v room plaintext).1 =
      .ok (.assemble room (p.writing.outer t) fragment) := by
  cases p with
  | null p => exact h.1.encode_of_carries hc hroom
  | integrity p => exact h.1.encode_of_carries hc hroom
  | aead p | block p => cases hd

/-- What is accepted under the type that its sender puts into the header, without zeros behind the
type in it, is what the sender makes of the plaintext. -/
theorem Ready.encode_of_decode (h : p.Ready) (hd : p.reading.InClear) (hsender : sender.Ready)
    (hkeys : sender.writing.SameKeys p.reading) (hok : (p.decode s t v fragment).1 = .ok received)
    (ht : t = sender.writing.outer received.contentType)
    (hzeros : p.reading.inner = true →
      (fragment.take (fragment.length - p.reading.format.overhead)).getLast? ≠ some 0)
    (hroom : room + fragment.length ≤ Size.capacity) :
    (sender.encode r s received.contentType v room received.plaintext).1 =
      .ok (.assemble room t fragment) := by
  obtain ⟨payload, hc, hr⟩ := h.carries_of_decode hd hok
  obtain ⟨tag, hfragment, htag⟩ := hc.exists_tag h.reading_ready hd
  obtain ⟨n, rfl, -, hnone⟩ := InnerPlaintext.exists_zeros hr
  have hwriting : sender.writing = p.reading := hkeys.symm.eq_of_inClear hd
  obtain rfl : n = 0 := by
    cases hi : p.reading.inner with
    | false => exact hnone hi
    | true =>
      have hlast := hzeros hi
      rw [hfragment, List.length_append, htag, Nat.add_sub_cancel, List.take_left' rfl] at hlast
      exact Bytes.eq_zero_of_getLast?_ne hlast
  have hcarries : sender.writing.Carries s (sender.writing.outer received.contentType) v fragment
      (InnerPlaintext.wrap sender.writing.inner received.contentType received.plaintext) := by
    rw [← ht, hwriting]
    rwa [Bytes.zeros, List.replicate_zero, List.append_nil] at hc
  rw [ht]
  exact hsender.encode_of_carries (hwriting ▸ hd) hcarries hroom

/-- What a decoder of records without blocks makes of any bytes, and which bytes it accepts as the
sender writes them. -/
theorem decode_decides {plan : Plan} (hb : plan.build c = (.ok p₀, c')) (hp : p₀.Becomes p)
    (s : UInt64) (t : ContentType) (v : Version) (fragment : Bytes) :
    (∀ q, p = .aead q →
      Decides (q.decoder.recordIvSize + q.decoder.aead.tagSize) (q.decoder.opened? s t v fragment)
        q.decoder.inner t fragment (p.decode s t v fragment).1) ∧
    (∀ q m, p = .null q → q.decoder.mac = some m →
      Decides m.size (q.decoder.checked? s t fragment) q.decoder.inner t fragment
        (p.decode s t v fragment).1) ∧
    (∀ q, p = .integrity q →
      Decides (q.decoder.hash.size + 1) (q.decoder.checked? s t v fragment) true t fragment
        (p.decode s t v fragment).1) ∧
    ∀ (sender : Protection) (r : Randomness) (room : Nat) (received : Recovered),
      p.reading.InClear → sender.Ready → sender.writing.SameKeys p.reading →
      (p.decode s t v fragment).1 = .ok received →
      t = sender.writing.outer received.contentType →
      (p.reading.inner = true →
        (fragment.take (fragment.length - p.reading.format.overhead)).getLast? ≠ some 0) →
      room + fragment.length ≤ Size.capacity →
        (sender.encode r s received.contentType v room received.plaintext).1 =
          .ok (.assemble room t fragment) := by
  have hkeyed := Family.keyedFrom_of_build (Plan.build_resolve hb)
  have hready := hp.ready hkeyed.ready
  have hsized := hp.sized hkeyed.ready (Family.sized_of_direction hkeyed.reading)
  refine ⟨?_, ?_, ?_, ?_⟩
  · rintro q rfl
    change Decides _ _ _ _ _ (q.decoder.decode s t v fragment)
    rw [AeadDirection.Sized.decode_eq_conclude hsized, AeadDirection.overhead, Nat.add_comm]
    exact decides_conclude _ _ _ _ _ _
  · rintro q m rfl hm
    change Decides _ _ _ _ _ (q.decoder.decode s t fragment).1
    rw [hready.2.decode_eq_conclude, NullDirection.macSize, hm]
    exact decides_conclude _ _ _ _ _ _
  · rintro q rfl
    change Decides _ _ _ _ _ (q.decoder.decode s t v fragment).1
    rw [hready.2.decode_eq_conclude]
    exact decides_conclude _ _ _ _ _ _
  · intro sender r room received hd hsender hkeys hok ht hzeros hroom
    exact hready.encode_of_decode hd hsender hkeys hok ht hzeros hroom

theorem decode_decides_exchange : ∃ p q fragment,
    Plan.build (sharing .client) (.family (.integrity .sha256)) = (.ok p, sharing .client) ∧
      Plan.build (sharing .server) (.family (.integrity .sha256)) = (.ok q, sharing .server) ∧
      (q.decode 7 .applicationData .tls12 fragment).1 = .ok ⟨[1, 2, 3], .applicationData⟩ ∧
      (p.encode (.ofSeed 0) 7 .applicationData .tls12 5 [1, 2, 3]).1 =
        .ok (.assemble 5 .applicationData fragment) := by
  obtain ⟨p, q, fragment, hp, hq, hmatched, hlen, hcarries, hok⟩ := exists_exchange
  obtain ⟨-, -, -, hsender⟩ := decode_decides hq .start 7 .applicationData .tls12 fragment
  have hlast : (fragment.take (fragment.length - q.decoder.hash.size)).getLast? ≠ some 0 := by
    have hcarries : fragment = _ := hcarries
    rw [hcarries, List.length_append, hmatched.ready_peer.2.length_tagOf, Nat.add_sub_cancel,
      List.take_left' rfl]
    decide
  have hroom : 5 + fragment.length ≤ Size.capacity :=
    Nat.le_trans (Nat.add_le_add_left hlen 5) (by decide)
  have hencode := hsender (.integrity p) (.ofSeed 0) 5 ⟨[1, 2, 3], .applicationData⟩ trivial
    hmatched.ready hmatched.sameKeys hok rfl (fun _ => hlast) hroom
  exact ⟨.integrity p, .integrity q, fragment, hp, hq, hok, hencode⟩

end Protection

end RecordLayer
