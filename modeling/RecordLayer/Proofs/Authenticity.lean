import RecordLayer.Proofs.RoundTrip

/-! # Authenticity

What the check of a record is about determines the record: its number, its content and, as far as
the header is authenticated, its type and version. So a record that is accepted is one that was
sent, unless its tag stands over a string that was never authenticated.
-/

namespace RecordLayer

open Aes (Block)

/-- What the check of a record is about: the string under a tag, or what was sealed. -/
inductive Evidence
  | nothing
  | tagged (string : Bytes)
  | sealed (nonce aad ciphertext : Bytes)
  deriving DecidableEq

variable {s s' : UInt64} {t t' : ContentType} {v v' : Version}
  {fragment fragment' payload payload' : Bytes}

namespace AeadDirection

variable {d : AeadDirection}

def evidence (d : AeadDirection) (s : UInt64) (t : ContentType) (v : Version)
    (fragment : Bytes) : Evidence :=
  let ciphertext := fragment.drop d.recordIvSize
  .sealed (d.nonce s (fragment.take d.recordIvSize)) (d.additionalData s t v ciphertext.length)
    ciphertext

theorem eq_of_additionalData {n n' : Nat}
    (h : d.additionalData s t v n = d.additionalData s' t' v' n') :
    (d.isTls13 = false → s = s') ∧ (d.id = [] → t = t') ∧ v = v' := by
  unfold additionalData AdditionalData.ofAead at h
  split at h
  · rename_i h13
    obtain ⟨ht, hv⟩ := AdditionalData.tls13_inj h
    exact ⟨fun hn => absurd h13 (by rw [hn]; decide), fun _ => ht, hv⟩
  · split at h
    · obtain ⟨hs, ht, hv⟩ := AdditionalData.legacy_inj h
      exact ⟨fun _ => hs, fun _ => ht, hv⟩
    · rename_i hid
      obtain ⟨hs, hv⟩ := AdditionalData.connectionId_inj h
      exact ⟨fun _ => hs, fun hn => absurd (by rw [hn]; rfl) hid, hv⟩

theorem Ready.eq_of_evidence (hr : d.Ready) (hc : d.Carries s t v fragment payload)
    (hc' : d.Carries s' t' v' fragment' payload')
    (h : d.evidence s t v fragment = d.evidence s' t' v' fragment') :
    s = s' ∧ (d.id = [] → t = t') ∧ v = v' ∧ payload = payload' := by
  obtain ⟨carried, ciphertext, rfl, hlen, hopen⟩ := hc
  obtain ⟨carried', ciphertext', rfl, hlen', hopen'⟩ := hc'
  unfold evidence at h
  rw [List.take_left' hlen, List.drop_left' hlen, List.take_left' hlen',
    List.drop_left' hlen'] at h
  obtain ⟨hnonce, haad, hct⟩ := Evidence.sealed.inj h
  obtain ⟨hs, ht, hv⟩ := eq_of_additionalData haad
  refine ⟨?_, ht, hv, ?_⟩
  · cases h13 : d.isTls13 with
    | false => exact hs h13
    | true =>
      have himplicit := hr.mode h13
      unfold nonce at hnonce
      simp only [himplicit] at hnonce
      exact Nonce.eq_of_implicit_eq (hr.length_iv h13) hnonce
  · rw [hnonce, haad, hct, hopen'] at hopen
    exact (Except.ok.inj hopen).symm

end AeadDirection

theorem IntegrityDirection.Ready.eq_of_covered {d : IntegrityDirection} (hr : d.Ready)
    (h : d.covered s t v payload = d.covered s' t' v' payload') :
    s = s' ∧ t = t' ∧ v = v' ∧ payload = payload' := by
  obtain ⟨hfront, hpayload⟩ := List.append_inj h (by simp)
  obtain ⟨hnonce, hheader⟩ := List.append_inj hfront (by simp)
  obtain ⟨ht, hv⟩ := AdditionalData.tls13_inj hheader
  exact ⟨Nonce.eq_of_implicit_eq hr.length_iv hnonce, ht, hv, hpayload⟩

namespace Direction

variable {d d' : Direction}

def evidence (d : Direction) (s : UInt64) (t : ContentType) (v : Version)
    (fragment payload : Bytes) : Evidence :=
  match d with
  | aead d => d.evidence s t v fragment
  | block d =>
    .tagged (d.mac.covered s t d.id (if d.encryptThenMac then d.blocksOf fragment else payload))
  | null d => d.mac.elim .nothing fun m => .tagged (m.covered s t d.id payload)
  | integrity d => .tagged (d.covered s t v payload)

/-- The tag covers the ciphertext, so the plaintext also depends on the chain. -/
def coversCiphertext : Direction → Bool
  | block d => d.encryptThenMac
  | _ => false

def coversVersion : Direction → Bool
  | aead _ | integrity _ => true
  | block _ | null _ => false

def Ready : Direction → Prop
  | aead d => d.Ready
  | block d => d.mac.Ready
  | null d => d.Ready
  | integrity d => d.Ready

theorem id_eq_nil (h : d.inner = false) : d.id = [] := by
  cases d with
  | aead d =>
    simp only [inner, AeadDirection.inner, Bool.or_eq_false_iff, Bool.not_eq_false'] at h
    exact List.isEmpty_iff.mp h.2
  | block d =>
    simp only [inner, BlockDirection.inner, Bool.not_eq_false'] at h
    exact List.isEmpty_iff.mp h
  | null d =>
    simp only [inner, NullDirection.inner, Bool.not_eq_false'] at h
    exact List.isEmpty_iff.mp h
  | integrity d => rfl

theorem SameKeys.eq_of_evidence (hk : d.SameKeys d') (hr : d.Ready)
    (hc : d.Carries s t v fragment payload) (hc' : d'.Carries s' t' v' fragment' payload')
    (hchain : d.coversCiphertext = true → d.chain? = d'.chain?)
    (h : d.evidence s t v fragment payload = d'.evidence s' t' v' fragment' payload')
    (hsome : d.evidence s t v fragment payload ≠ .nothing) :
    s = s' ∧ (d.id = [] → t = t') ∧ (d.coversVersion = true → v = v') ∧ payload = payload' := by
  cases d with
  | aead d =>
    obtain ⟨chain, rfl⟩ := hk
    obtain ⟨hs, ht, hv, hp⟩ := AeadDirection.Ready.eq_of_evidence hr hc hc' h
    exact ⟨hs, ht, fun _ => hv, hp⟩
  | block d =>
    have hk' := hk
    obtain ⟨chain, rfl⟩ := hk'
    have hcovered : d.mac.covered s t d.id
        (if d.encryptThenMac then d.blocksOf fragment else payload) =
          d.mac.covered s' t' d.id (if d.encryptThenMac then d.blocksOf fragment' else payload') :=
      Evidence.tagged.inj h
    obtain ⟨hs, ht, hmsg⟩ := RecordMac.covered_inj hcovered
    refine ⟨hs, ht, by rintro ⟨⟩, ?_⟩
    by_cases hmode : d.encryptThenMac = true
    · -- Both bodies are decrypted from the same blocks under the same chain.
      rw [if_pos hmode, if_pos hmode] at hmsg
      obtain ⟨-, -, hh⟩ := hc
      obtain ⟨-, -, hh'⟩ := (hk.carries_iff (hchain hmode)).mp hc'
      have hbody : d.bodyOf fragment' = d.bodyOf fragment :=
        congrArg (fun x => (d.cbc.decryption x).drop d.ivSize) hmsg.symm
      rw [hbody] at hh'
      exact BlockDirection.Holds.unique hr hh (hh'.of_encryptThenMac hmode s t)
    · rw [if_neg hmode, if_neg hmode] at hmsg
      exact hmsg
  | null d =>
    obtain ⟨chain, rfl⟩ := hk
    obtain ⟨_ | m, id⟩ := d
    · exact absurd rfl hsome
    · obtain ⟨hs, ht, hp⟩ := RecordMac.covered_inj (Evidence.tagged.inj h)
      exact ⟨hs, ht, by rintro ⟨⟩, hp⟩
  | integrity d =>
    obtain ⟨chain, rfl⟩ := hk
    obtain ⟨hs, ht, hv, hp⟩ := IntegrityDirection.Ready.eq_of_covered hr (Evidence.tagged.inj h)
    exact ⟨hs, fun _ => ht, fun _ => hv, hp⟩

def Checks : Direction → Prop
  | null d => d.mac ≠ none
  | _ => True

theorem Checks.evidence_ne (h : d.Checks) : d.evidence s t v fragment payload ≠ .nothing := by
  cases d with
  | null d =>
    obtain ⟨_ | m, id⟩ := d
    · exact absurd rfl h
    · rintro ⟨⟩
  | aead d | block d | integrity d => rintro ⟨⟩

theorem SameKeys.checks (hk : d.SameKeys d') (h : d.Checks) : d'.Checks := by
  obtain ⟨chain, rfl⟩ := hk
  cases d <;> exact h

end Direction

theorem Family.checks_of_direction {f : Family} {c : Context} {owner : Role} {id : Bytes}
    {x : Direction} (hf : f ≠ .passthrough) (h : f.direction c owner id = .ok x) : x.Checks := by
  cases f with
  | aead a =>
    obtain ⟨x, -, rfl⟩ := map_eq_ok.mp h
    trivial
  | block k a =>
    obtain ⟨x, -, rfl⟩ := map_eq_ok.mp h
    trivial
  | null a =>
    simp only [direction, NullDirection.of, map_eq_ok, bind_eq_ok, pure_eq_ok] at h
    obtain ⟨x, ⟨keys, -, mac, -, rfl⟩, rfl⟩ := h
    rintro ⟨⟩
  | passthrough => exact absurd rfl hf
  | integrity hash =>
    obtain ⟨x, -, rfl⟩ := map_eq_ok.mp h
    trivial

namespace Protection

variable {p q : Protection} {received : Recovered}

theorem Ready.writing_ready (h : p.Ready) : p.writing.Ready := by
  cases p with
  | aead p => exact h.1
  | block p => exact h.1.mac
  | null p => exact h.1
  | integrity p => exact h.1

theorem Ready.reading_ready (h : p.Ready) : p.reading.Ready := by
  cases p with
  | aead p => exact h.2
  | block p => exact h.2.mac
  | null p => exact h.2
  | integrity p => exact h.2

structure Sent where
  before : Protection
  seq : UInt64
  contentType : ContentType
  version : Version
  plaintext : Bytes
  record : Protected

def Sent.evidence (e : Sent) : Evidence :=
  e.before.writing.evidence e.seq e.record.recordType e.version e.record.fragment
    (InnerPlaintext.wrap e.before.writing.inner e.contentType e.plaintext)

def history (p : Protection) : List Call → List Sent
  | [] => []
  | .encode r s t v room plaintext :: calls =>
    let rest := (p.encode r s t v room plaintext).2.1.history calls
    match (p.encode r s t v room plaintext).1 with
    | .ok record => ⟨p, s, t, v, plaintext, record⟩ :: rest
    | .error _ => rest
  | .decode s t v fragment :: calls => (p.decode s t v fragment).2.history calls

theorem exists_of_mem_history {e : Sent} {calls : List Call} (h : e ∈ p.history calls) :
    ∃ earlier r room, e.before = p.afterAll earlier ∧
      (e.before.encode r e.seq e.contentType e.version room e.plaintext).1 = .ok e.record := by
  induction calls generalizing p with
  | nil => cases h
  | cons call calls ih =>
    have hlater (hmem : e ∈ (p.after call).history calls) : ∃ earlier r room,
        e.before = p.afterAll earlier ∧
          (e.before.encode r e.seq e.contentType e.version room e.plaintext).1 =
            .ok e.record := by
      obtain ⟨earlier, r, room, hb, hok⟩ := ih hmem
      exact ⟨call :: earlier, r, room, hb, hok⟩
    cases call with
    | encode r s t v room plaintext =>
      simp only [history] at h
      split at h
      · rename_i record hok
        rcases List.mem_cons.mp h with rfl | hmem
        · exact ⟨[], r, room, rfl, hok⟩
        · exact hlater hmem
      · exact hlater h
    | decode s t v fragment => exact hlater h

theorem checks_of_build {c c' : Context} {plan : Plan} (hp : plan.build c = (.ok p, c'))
    (hmac : p ≠ .null .passthrough) (calls : List Call) :
    (p.afterAll calls).writing.Checks := by
  have hp' := Plan.build_resolve hp
  have hkeyed := Family.keyedFrom_of_build hp'
  have hf : plan.resolve c.version ≠ .passthrough := by
    intro hf
    rw [hf] at hp'
    exact hmac (Except.ok.inj (Prod.mk.inj hp').1).symm
  exact (hkeyed.ready.afterAll calls).2.1.checks (Family.checks_of_direction hf hkeyed.writing)

/-- A record that is accepted is, up to what its check does not cover, every record that was
authenticated with the same evidence. -/
theorem decode_genuine {c d c' d' : Context} {plan : Plan} (hcd : c.Opposite d)
    (hp : plan.build c = (.ok p, c')) (hq : plan.build d = (.ok q, d'))
    (hid : AdditionalData.Holds c.params.peerId) (hmac : p ≠ .null .passthrough)
    (calls calls' : List Call) (htypes : ∀ e ∈ p.history calls, e.contentType.code ≠ 0)
    (hlen : fragment.length ≤ Size.capacity)
    (hok : ((q.afterAll calls').decode s t v fragment).1 = .ok received) :
    ∃ payload, (q.afterAll calls').reading.Carries s t v fragment payload ∧
      ∀ e ∈ p.history calls,
        e.evidence = (q.afterAll calls').reading.evidence s t v fragment payload →
        (e.before.writing.coversCiphertext = true →
          e.before.writing.chain? = (q.afterAll calls').reading.chain?) →
        e.seq = s ∧ (c.params.peerId = [] → e.record.recordType = t) ∧
          (e.before.writing.coversVersion = true → e.version = v) ∧
          e.plaintext = received.plaintext ∧ e.contentType = received.contentType := by
  have h := matched_of_build hcd hp hq calls calls'
  obtain ⟨payload, hc, hr⟩ :=
    (h.ready_peer.decode_ok_iff hlen (h.sameKeys.id_eq ▸ h.holds hid)).mp hok
  refine ⟨payload, hc, ?_⟩
  intro e he hev hchain
  obtain ⟨earlier, r, room, hb, hsent⟩ := exists_of_mem_history he
  have he' := matched_of_build hcd hp hq earlier calls'
  have hchecks := checks_of_build hp hmac earlier
  rw [← hb] at he' hchecks
  obtain ⟨fragment', hrec, -, hc', -⟩ := he'.ready.encode_ok hsent
  have htype : e.record.recordType = e.before.writing.outer e.contentType := by rw [hrec]; rfl
  have hfragment : e.record.fragment = fragment' := by rw [hrec, Protected.fragment_assemble]
  rw [← htype, ← hfragment] at hc'
  obtain ⟨hs, ht, hv, hpayload⟩ := he'.sameKeys.eq_of_evidence he'.ready.writing_ready hc' hc hchain
    hev hchecks.evidence_ne
  have hpeer : c.params.peerId = [] → e.before.writing.id = [] := by
    intro hnil
    rcases he'.id with hid' | hid'
    · rw [hid', hnil]
    · exact hid'
  have hback : InnerPlaintext.recover e.before.writing.inner t payload =
      .ok ⟨e.plaintext, e.contentType⟩ := by
    rw [← hpayload]
    refine InnerPlaintext.recover_wrap (fun _ => htypes e he) (fun hi => ?_) e.plaintext
    rw [← ht (Direction.id_eq_nil hi), htype, Direction.outer_eq hi]
  rw [he'.sameKeys.inner_eq, hback] at hr
  obtain rfl := Except.ok.inj hr
  exact ⟨hs, fun hnil => ht (hpeer hnil), hv, rfl, rfl⟩

theorem decode_genuine_integrity :
    let secret := some (Secret.new (Bytes.zeros 32))
    let c : Context := ⟨.client, { version := .tls13 }, none, secret, secret, .ofSeed 0⟩
    let d : Context := ⟨.server, { version := .tls13 }, none, secret, secret, .ofSeed 1⟩
    ∃ p q record, Plan.build c (.family (.integrity .sha256)) = (.ok p, c) ∧
      Plan.build d (.family (.integrity .sha256)) = (.ok q, d) ∧
      (p.encode c.randomness 7 .applicationData .tls12 5 [1, 2, 3]).1 = .ok record ∧
      ∃ payload, q.reading.Carries 7 record.recordType .tls12 record.fragment payload ∧
        ∀ e ∈ p.history [.encode c.randomness 7 .applicationData .tls12 5 [1, 2, 3]],
          e.evidence = q.reading.evidence 7 record.recordType .tls12 record.fragment payload →
          (e.before.writing.coversCiphertext = true →
            e.before.writing.chain? = q.reading.chain?) →
          e.seq = 7 ∧ (([] : Bytes) = [] → e.record.recordType = record.recordType) ∧
            (e.before.writing.coversVersion = true → e.version = .tls12) ∧
            e.plaintext = [1, 2, 3] ∧ e.contentType = .applicationData := by
  intro secret c d
  have hcd : c.Opposite d := ⟨rfl, rfl, rfl, rfl, rfl, rfl, rfl, rfl, rfl, rfl, rfl, rfl⟩
  have hsize : (Secret.new (Bytes.zeros 32)).HasSize 32 := ⟨_, rfl, Bytes.length_zeros 32⟩
  obtain ⟨p, hp, hready⟩ := Plan.exists_integrity (h := .sha256)
    (Context.hasTrafficSecrets (c := c) rfl rfl hsize hsize) (by decide) (by decide) (by decide)
  obtain ⟨q, hq, -⟩ := Plan.exists_integrity (h := .sha256)
    (Context.hasTrafficSecrets (c := d) rfl rfl hsize hsize) (by decide) (by decide) (by decide)
  obtain ⟨fragment, hok, hlen⟩ :=
    hready.exists_encode_short 7 .applicationData .tls12 5 [1, 2, 3] (by decide)
  have hmatched := matched_of_build hcd hp hq [] []
  obtain ⟨-, -, hdec, -⟩ := hmatched.decode_of_encode (r := c.randomness) (by decide) rfl
    (fun _ => by decide) hok
  have htypes : ∀ e ∈ (integrity p).history
      [.encode c.randomness 7 .applicationData .tls12 5 [1, 2, 3]], e.contentType.code ≠ 0 := by
    intro e he
    simp only [history] at he
    split at he
    · obtain rfl := List.mem_singleton.mp he
      exact (by decide : ContentType.applicationData.code ≠ 0)
    · cases he
  have hcap : (Protected.assemble 5 .applicationData fragment).fragment.length ≤
      Size.capacity := by
    rw [Protected.fragment_assemble]
    exact hlen
  refine ⟨.integrity p, .integrity q, _, hp, hq, hok, ?_⟩
  exact decode_genuine hcd hp hq (by decide) (by rintro ⟨⟩) _ [] htypes hcap hdec

end Protection

end RecordLayer
