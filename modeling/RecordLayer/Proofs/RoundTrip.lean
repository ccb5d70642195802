import RecordLayer.Proofs.Pairing

/-! # Round trips

An opposite end that is built alike gives back what was protected, whatever was written and read
in between. Where no random block starts a record the chains have to agree, and then they agree
afterwards.
-/

namespace RecordLayer.Protection

variable {p q : Protection} {s : UInt64} {t : ContentType} {v : Version} {room : Nat}
  {plaintext : Bytes} {record : Protected} {r : Randomness}

/-- One record between protections that match. -/
theorem Matched.decode_of_encode {c : Context} (h : Matched c p q)
    (hid : AdditionalData.Holds c.params.peerId) (hchain : p.writing.chain? = q.reading.chain?)
    (ht : p.writing.inner = true → t.code ≠ 0)
    (hok : (p.encode r s t v room plaintext).1 = .ok record) :
    ∃ fragment, record = .assemble room (p.writing.outer t) fragment ∧
      (q.decode s record.recordType v record.fragment).1 = .ok ⟨plaintext, t⟩ ∧
      (p.encode r s t v room plaintext).2.1.writing = p.writing.advance fragment ∧
      (q.decode s record.recordType v record.fragment).2.reading = q.reading.advance fragment := by
  obtain ⟨fragment, rfl, hlen, hc, hafter⟩ := h.ready.encode_ok hok
  have hcarries := (h.sameKeys.carries_iff hchain).mpr hc
  refine ⟨fragment, rfl, ?_, hafter, ?_⟩
  · rw [Protected.fragment_assemble]
    refine (h.ready_peer.decode_ok_iff hlen (h.sameKeys.id_eq ▸ h.holds hid)).mpr
      ⟨_, hcarries, ?_⟩
    rw [h.sameKeys.inner_eq]
    exact InnerPlaintext.recover_wrap ht (fun hi => Direction.outer_eq hi t) plaintext
  · rw [Protected.fragment_assemble]
    exact h.ready_peer.decode_reading hcarries

/-- The round trip between two ends that are built alike over opposite contexts. -/
theorem decode_encode {c d c' d' : Context} {plan : Plan} (hcd : c.Opposite d)
    (hp : plan.build c = (.ok p, c')) (hq : plan.build d = (.ok q, d'))
    (hid : AdditionalData.Holds c.params.peerId) (calls calls' : List Call)
    (hchain : (p.afterAll calls).writing.chain? = (q.afterAll calls').reading.chain?)
    (ht : c.HidesTypes → t.code ≠ 0)
    (hok : ((p.afterAll calls).encode r s t v room plaintext).1 = .ok record) :
    record.offset = room ∧ record.buffer.length = record.offset + record.size ∧
      record.buffer.take record.offset = Bytes.zeros room ∧
      ((q.afterAll calls').decode s record.recordType v record.fragment).1 =
        .ok ⟨plaintext, t⟩ ∧
      ((p.afterAll calls).encode r s t v room plaintext).2.1.writing.chain? =
        ((q.afterAll calls').decode s record.recordType v record.fragment).2.reading.chain? := by
  have h := matched_of_build hcd hp hq calls calls'
  obtain ⟨fragment, rfl, hdec, hw, hr⟩ :=
    h.decode_of_encode hid hchain (fun hi => ht (h.hidesTypes hi)) hok
  refine ⟨rfl, ?_, ?_, hdec, ?_⟩
  · exact List.length_append.trans (congrArg (· + fragment.length) (Bytes.length_zeros room))
  · exact List.take_left' (Bytes.length_zeros room)
  · rw [hw, hr]
    exact h.sameKeys.chain_advance hchain fragment

theorem decode_encode_integrity :
    let secret := some (Secret.new (Bytes.zeros 32))
    let c : Context := ⟨.client, { version := .tls13 }, none, secret, secret, .ofSeed 0⟩
    let d : Context := ⟨.server, { version := .tls13 }, none, secret, secret, .ofSeed 1⟩
    ∃ p q record, Plan.build c (.family (.integrity .sha256)) = (.ok p, c) ∧
      Plan.build d (.family (.integrity .sha256)) = (.ok q, d) ∧
      (p.encode c.randomness 7 .applicationData .tls12 5 [1, 2, 3]).1 = .ok record ∧
      (q.decode 7 record.recordType .tls12 record.fragment).1 =
        .ok ⟨[1, 2, 3], .applicationData⟩ := by
  intro secret c d
  have hcd : c.Opposite d := ⟨rfl, rfl, rfl, rfl, rfl, rfl, rfl, rfl, rfl, rfl, rfl, rfl⟩
  have hsize : (Secret.new (Bytes.zeros 32)).HasSize 32 := ⟨_, rfl, Bytes.length_zeros 32⟩
  obtain ⟨p, hp, hready⟩ := Plan.exists_integrity (h := .sha256)
    (Context.hasTrafficSecrets (c := c) rfl rfl hsize hsize) (by decide) (by decide) (by decide)
  obtain ⟨q, hq, -⟩ := Plan.exists_integrity (h := .sha256)
    (Context.hasTrafficSecrets (c := d) rfl rfl hsize hsize) (by decide) (by decide) (by decide)
  obtain ⟨fragment, hok, -⟩ :=
    hready.exists_encode_short 7 .applicationData .tls12 5 [1, 2, 3] (by decide)
  obtain ⟨-, -, -, hdec, -⟩ := decode_encode (r := c.randomness) hcd hp hq (by decide) [] [] rfl
    (fun _ => by decide) hok
  exact ⟨.integrity p, .integrity q, _, hp, hq, hok, hdec⟩

/-- The end of `r` in a connection whose ends share their traffic secrets. -/
def sharing (r : Role) : Context :=
  let secret := some (Secret.new (Bytes.zeros 32))
  ⟨r, { version := .tls13 }, none, secret, secret, .ofSeed 0⟩

theorem opposite_sharing : (sharing .client).Opposite (sharing .server) :=
  ⟨rfl, rfl, rfl, rfl, rfl, rfl, rfl, rfl, rfl, rfl, rfl, rfl⟩

theorem exists_exchange : ∃ (p q : IntegrityProtection) (fragment : Bytes),
    Plan.build (sharing .client) (.family (.integrity .sha256)) =
        (.ok (.integrity p), sharing .client) ∧
      Plan.build (sharing .server) (.family (.integrity .sha256)) =
        (.ok (.integrity q), sharing .server) ∧
      Matched (sharing .client) (.integrity p) (.integrity q) ∧ fragment.length ≤ 68 ∧
      q.decoder.Carries 7 .applicationData .tls12 fragment [1, 2, 3, 23] ∧
      (q.decoder.decode 7 .applicationData .tls12 fragment).1 =
        .ok ⟨[1, 2, 3], .applicationData⟩ := by
  have hsize : (Secret.new (Bytes.zeros 32)).HasSize 32 := ⟨_, rfl, Bytes.length_zeros 32⟩
  have hsecrets (r : Role) : (sharing r).HasTrafficSecrets 32 :=
    Context.hasTrafficSecrets rfl rfl hsize hsize
  obtain ⟨p, hp, -⟩ := Plan.exists_integrity (h := .sha256) (hsecrets .client) (by decide)
    (by decide) rfl
  obtain ⟨q, hq, -⟩ := Plan.exists_integrity (h := .sha256) (hsecrets .server) (by decide)
    (by decide) rfl
  have hmatched : Matched (sharing .client) (.integrity p) (.integrity q) :=
    matched_of_build opposite_sharing hp hq [] []
  have hready := hmatched.ready_peer.2
  have hcarries : q.decoder.Carries 7 .applicationData .tls12 _ [1, 2, 3, 23] := rfl
  refine ⟨p, q, _, hp, hq, hmatched, ?_, hcarries, hready.decode_ok_iff.mpr ⟨_, hcarries, rfl⟩⟩
  have hle := q.decoder.hash.size_le
  rw [List.length_append, hready.length_tagOf]
  simp only [List.length_cons, List.length_nil]
  omega

end RecordLayer.Protection
