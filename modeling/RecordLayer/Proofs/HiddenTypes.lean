import RecordLayer.Proofs.BlockGrammar
import RecordLayer.Proofs.RoundTrip

/-! # Hidden types

A hidden type is found again as the last byte that is not zero. A type of zero is written like any
other but never found: the record is refused, or a byte of its plaintext counts as the type.
-/

namespace RecordLayer

variable {s : UInt64} {t : ContentType} {v : Version} {room : Nat}
  {plaintext payload fragment : Bytes} {received : Recovered}

namespace InnerPlaintext

variable {content : Bytes}

theorem wrap_ne_nil (t : ContentType) (plaintext : Bytes) : wrap true t plaintext ≠ [] :=
  List.append_ne_nil_of_right_ne_nil plaintext (List.cons_ne_nil t.code [])

theorem recover_wrap_zero (ht : t.code = 0) (outer : ContentType) (plaintext : Bytes) :
    recover true outer (wrap true t plaintext) = recover true outer plaintext := by
  have hrev : (wrap true t plaintext).reverse = Bytes.zeros 1 ++ plaintext.reverse := by
    rw [wrap, if_pos rfl, List.reverse_append, ht]
    rfl
  simp only [recover, unwrap, strip, if_true, hrev, stripReversed_zeros_append]

theorem exists_recover_iff (outer : ContentType) (content : Bytes) :
    (∃ received, recover true outer content = .ok received) ↔ ∃ b ∈ content, b ≠ 0 := by
  have hmeans := means_recover true outer content
  generalize recover true outer content = result at hmeans
  cases hmeans with
  | plain _ hi => cases hi
  | typed plaintext t n _ ht => exact ⟨fun _ => ⟨t.code, by simp, ht⟩, fun _ => ⟨_, rfl⟩⟩
  | untyped n =>
    constructor
    · rintro ⟨received, ⟨⟩⟩
    · rintro ⟨b, hb, hne⟩
      exact absurd (List.eq_of_mem_replicate hb) hne

theorem recover_wrap_ne_iff {inUse : Bool} {outer : ContentType}
    (ho : inUse = false → outer = t) (plaintext : Bytes) :
    (∃ received, recover inUse outer (wrap inUse t plaintext) = .ok received ∧
        received ≠ ⟨plaintext, t⟩) ↔
      inUse = true ∧ t.code = 0 ∧ ∃ b ∈ plaintext, b ≠ 0 := by
  by_cases ht : inUse = true → t.code ≠ 0
  · rw [recover_wrap ht ho]
    constructor
    · rintro ⟨received, hreceived, hne⟩
      exact absurd (Except.ok.inj hreceived).symm hne
    · rintro ⟨hi, hzero, -⟩
      exact absurd hzero (ht hi)
  · obtain ⟨rfl, hzero⟩ : inUse = true ∧ t.code = 0 := by simpa using ht
    rw [recover_wrap_zero hzero, ← exists_recover_iff outer plaintext]
    constructor
    · rintro ⟨received, hreceived, -⟩
      exact ⟨rfl, hzero, received, hreceived⟩
    · rintro ⟨-, -, received, hreceived⟩
      refine ⟨received, hreceived, fun heq => ?_⟩
      obtain ⟨-, -, htyped, -⟩ := exists_zeros hreceived
      exact htyped rfl (heq ▸ hzero)

end InnerPlaintext

namespace Protection

variable {p q : Protection} {record : Protected} {r : Randomness}

theorem Matched.decode_eq_recover {c : Context} (h : Matched c p q)
    (hid : AdditionalData.Holds c.params.peerId) (hchain : p.writing.chain? = q.reading.chain?)
    (hok : (p.encode r s t v room plaintext).1 = .ok record) :
    (q.decode s record.recordType v record.fragment).1 =
      InnerPlaintext.recover p.writing.inner (p.writing.outer t)
        (InnerPlaintext.wrap p.writing.inner t plaintext) := by
  obtain ⟨fragment, rfl, hlen, hc, -⟩ := h.ready.encode_ok hok
  have hinner := h.sameKeys.inner_eq
  have hcarries := (h.sameKeys.carries_iff hchain).mpr hc
  have hne (hi : q.reading.inner = true) :
      InnerPlaintext.wrap p.writing.inner t plaintext ≠ [] := by
    rw [← hinner, hi]
    exact InnerPlaintext.wrap_ne_nil t plaintext
  rw [Protected.fragment_assemble, ← hinner]
  rw [← hinner] at hne hcarries
  exact h.ready_peer.decode_of_carries hlen (h.sameKeys.id_eq ▸ h.holds hid) hne hcarries

theorem exists_untyped : ∃ (p q : IntegrityProtection) (record : Protected),
    Plan.build (sharing .client) (.family (.integrity .sha256)) =
        (.ok (.integrity p), sharing .client) ∧
      Plan.build (sharing .server) (.family (.integrity .sha256)) =
        (.ok (.integrity q), sharing .server) ∧
      Matched (sharing .client) (.integrity p) (.integrity q) ∧
      ((integrity p).encode (.ofSeed 0) 0 ⟨0⟩ .tls12 5 [1, 2, 3]).1 = .ok record := by
  obtain ⟨p, q, -, hp, hq, hmatched, -⟩ := exists_exchange
  obtain ⟨fragment, hok, -⟩ :=
    hmatched.ready.1.exists_encode_short 0 ⟨0⟩ .tls12 5 [1, 2, 3] (by decide)
  exact ⟨p, q, _, hp, hq, hmatched, hok⟩

/-- The plaintext and the type come back for every type that is not both hidden and zero. A hidden
type of zero has the record refused if the plaintext is all zeros. Otherwise its last byte that is
not zero comes back as the type, and only what precedes it as the plaintext. -/
theorem retyped_iff {c d c' d' : Context} {plan : Plan} (hcd : c.Opposite d)
    (hp : plan.build c = (.ok p, c')) (hq : plan.build d = (.ok q, d'))
    (hid : AdditionalData.Holds c.params.peerId) (calls calls' : List Call)
    (hchain : (p.afterAll calls).writing.chain? = (q.afterAll calls').reading.chain?)
    (hok : ((p.afterAll calls).encode r s t v room plaintext).1 = .ok record) :
    let decoded := ((q.afterAll calls').decode s record.recordType v record.fragment).1
    (p.writing.inner = false ∨ t.code ≠ 0 → decoded = .ok ⟨plaintext, t⟩) ∧
      (p.writing.inner = true → t.code = 0 →
        ((∀ b ∈ plaintext, b = 0) → decoded =
          .error (.refused (.unexpectedMessage "inner plaintext has no content type"))) ∧
        ∀ (front : Bytes) (t' : ContentType) (n : Nat), t'.code ≠ 0 →
          plaintext = front ++ t'.code :: Bytes.zeros n → decoded = .ok ⟨front, t'⟩) ∧
      ((∃ received, decoded = .ok received ∧ received ≠ ⟨plaintext, t⟩) ↔
        p.writing.inner = true ∧ t.code = 0 ∧ ∃ b ∈ plaintext, b ≠ 0) := by
  intro decoded
  have h := matched_of_build hcd hp hq calls calls'
  have hinner : (p.afterAll calls).writing.inner = p.writing.inner :=
    ((Family.keyedFrom_of_build (Plan.build_resolve hp)).ready.afterAll calls).2.1.inner_eq
  have houter (hi : p.writing.inner = false) : (p.afterAll calls).writing.outer t = t :=
    Direction.outer_eq (hinner.trans hi) t
  have hdec : decoded = _ := h.decode_eq_recover hid hchain hok
  rw [hdec, hinner]
  refine ⟨fun ht => ?_, fun hi ht => ?_, InnerPlaintext.recover_wrap_ne_iff houter plaintext⟩
  · exact InnerPlaintext.recover_wrap (fun hi => ht.resolve_left (by rw [hi]; decide)) houter _
  · rw [hi, InnerPlaintext.recover_wrap_zero ht]
    constructor
    · intro hzeros
      rw [show plaintext = Bytes.zeros plaintext.length from
        List.eq_replicate_iff.mpr ⟨rfl, hzeros⟩, InnerPlaintext.recover_zeros]
    · intro front t' n ht' hx
      rw [hx, InnerPlaintext.recover_typed _ ht']

theorem retyped_iff_untyped : ∃ (p q : Protection) (record : Protected) (received : Recovered),
    Plan.build (sharing .client) (.family (.integrity .sha256)) = (.ok p, sharing .client) ∧
      Plan.build (sharing .server) (.family (.integrity .sha256)) = (.ok q, sharing .server) ∧
      (p.encode (.ofSeed 0) 0 ⟨0⟩ .tls12 5 [1, 2, 3]).1 = .ok record ∧
      (q.decode 0 record.recordType .tls12 record.fragment).1 = .ok received ∧
      received ≠ ⟨[1, 2, 3], ⟨0⟩⟩ := by
  obtain ⟨p, q, record, hp, hq, -, hok⟩ := exists_untyped
  obtain ⟨-, -, hiff⟩ := retyped_iff opposite_sharing hp hq (by decide) [] [] rfl hok
  obtain ⟨received, hdec, hne⟩ := hiff.mpr ⟨rfl, rfl, 1, by decide, by decide⟩
  exact ⟨.integrity p, .integrity q, record, received, hp, hq, hok, hdec, hne⟩

/-- What a client sends as `[1, 2, 3]` of type 0 is accepted as `[1, 2]` of type 3. -/
theorem retyped_sent : ∃ (p q : Protection) (record : Protected),
    Plan.build (sharing .client) (.family (.integrity .sha256)) = (.ok p, sharing .client) ∧
      Plan.build (sharing .server) (.family (.integrity .sha256)) = (.ok q, sharing .server) ∧
      p.writing.inner = true ∧ (p.encode (.ofSeed 0) 0 ⟨0⟩ .tls12 5 [1, 2, 3]).1 = .ok record ∧
      (q.decode 0 record.recordType .tls12 record.fragment).1 = .ok ⟨[1, 2], ⟨3⟩⟩ := by
  obtain ⟨p, q, record, hp, hq, hmatched, hok⟩ := exists_untyped
  refine ⟨.integrity p, .integrity q, record, hp, hq, rfl, hok, ?_⟩
  rw [hmatched.decode_eq_recover (by decide) rfl hok]
  exact InnerPlaintext.recover_typed _ (t := ⟨3⟩) (by decide) [1, 2] 1

end Protection

end RecordLayer
