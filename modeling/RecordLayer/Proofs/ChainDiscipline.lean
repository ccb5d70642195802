import RecordLayer.Proofs.BlockGrammar
import RecordLayer.Proofs.Histories

/-! # When chains move

A chain moves exactly when something is encrypted or decrypted, and then to the last ciphertext
block. What fails before that leaves everything as it was, so forged records that are told apart
before they are decrypted leave no trace.
-/

namespace RecordLayer

open Aes (Block)

variable {s : UInt64} {t : ContentType} {v : Version} {room : Nat} {r : Randomness}
  {plaintext fragment : Bytes}

def BlockDirection.lastBlockOf (d : BlockDirection) (fragment : Bytes) : Bytes :=
  (d.blocksOf fragment).drop ((d.blocksOf fragment).length - Block.size)

namespace BlockEncoder

variable {e : BlockEncoder} {record : Protected}

inductive DrawFails (e : BlockEncoder) (r : Randomness) (n : Nat) : CryptoError → Prop
  | padding {cause : CryptoError} (h : e.drawPadding r n = .error cause) : DrawFails e r n cause
  | iv {cause : CryptoError} {padding : Nat} {r₁ : Randomness}
    (hp : e.drawPadding r n = .ok (padding, r₁)) (h : e.drawIv r₁ = .error cause) :
    DrawFails e r n cause

theorem drawFails_of_refused {err : RecordError} (h : e.mac.Ready)
    (he : (e.encode r s t room plaintext).1 = .error (.refused err)) :
    ∃ cause, err = cause.toRecordError ∧ e.DrawFails r (e.unpaddedSize plaintext) cause := by
  unfold encode at he
  cases hpad : e.drawPadding r (e.unpaddedSize plaintext) with
  | error cause =>
    unfold unpaddedSize at hpad
    simp only [hpad, Except.error.injEq, Failure.refused.injEq] at he
    exact ⟨cause, he.symm, .padding hpad⟩
  | ok x =>
    obtain ⟨padding, r₁⟩ := x
    by_cases hroom : room + (e.ivSize + e.unpaddedSize plaintext + padding + e.outerMacSize) ≤
        Size.capacity
    · cases hiv : e.drawIv r₁ with
      | error cause =>
        unfold unpaddedSize at hpad hroom
        simp only [hpad, Size.reserve_eq_ok.mpr hroom, hiv, Except.error.injEq,
          Failure.refused.injEq] at he
        exact ⟨cause, he.symm, .iv hpad hiv⟩
      | ok y =>
        obtain ⟨fragment, -, henc⟩ := encode_of_draws (s := s) (t := t) h ⟨r₁, hpad, hiv⟩ hroom
        unfold encode at henc
        rw [henc] at he
        cases he
    · have hfault : Size.reserve room
          (e.ivSize + e.unpaddedSize plaintext + padding + e.outerMacSize) =
            .error .sizeOverflow := if_neg hroom
      unfold unpaddedSize at hpad hfault
      simp only [hpad, hfault] at he
      cases he

theorem encode_chain (h : e.mac.Ready) (r : Randomness) (s : UInt64) (t : ContentType)
    (room : Nat) (plaintext : Bytes) :
    (∃ f r', e.encode r s t room plaintext = (.error f, e, r')) ∨
      ∃ record chain r', e.encode r s t room plaintext = (.ok record, e.withChain chain, r') ∧
        chain.bytes = e.lastBlockOf record.fragment := by
  rcases encode_cases h r s t room plaintext with herr | ⟨iv, padding, fragment, r', -, hw, -, henc⟩
  · exact Or.inl herr
  · refine Or.inr ⟨_, _, r', henc, ?_⟩
    have hlen := length_plainOf h s t iv padding plaintext
    have hpos := hw.padding_pos
    have hblocks := Cbc.length_encryption (s := e.cbc) hw.aligned
    rw [Protected.fragment_assemble, hw.fragment_eq, BlockDirection.lastBlockOf,
      BlockDirection.blocksOf_append _ (BlockDirection.length_trailer h ..)]
    exact e.cbc.bytes_lastBlock (by rw [hblocks]; exact hw.aligned) (by omega)

end BlockEncoder

namespace BlockDecoder

variable {d : BlockDecoder}

def Forged (d : BlockDecoder) (s : UInt64) (t : ContentType) (fragment : Bytes) : Prop :=
  d.encryptThenMac = true ∧ (d.mac.tag s t d.id (d.blocksOf fragment)).1 ≠ d.trailerOf fragment

instance : Decidable (d.Forged s t fragment) := by unfold Forged; infer_instance

theorem forged_iff (d : BlockDecoder) (s : UInt64) (t : ContentType) (fragment : Bytes) :
    d.Forged s t fragment ↔ d.trailer s t (d.blocksOf fragment) ≠ d.trailerOf fragment := by
  unfold Forged BlockDirection.trailer
  by_cases hmode : d.encryptThenMac = true
  · rw [if_pos hmode]
    exact and_iff_right hmode
  · have hnil : d.trailerOf fragment = [] := by
      rw [BlockDirection.trailerOf, BlockDirection.outerMacSize, if_neg hmode, Nat.sub_zero,
        List.drop_length]
    rw [if_neg hmode, hnil]
    exact iff_of_false (fun h => hmode h.1) (fun h => h rfl)

/-- What an attempt to decode a fragment leaves behind. -/
inductive Leaves (d : BlockDecoder) (s : UInt64) (t : ContentType) (fragment : Bytes) :
    BlockDecoding → Prop
  | malformed (reason : String) :
    Leaves d s t fragment ⟨.error (.refused (.decodeError reason)), d, fragment⟩
  | forged (h : d.Forged s t fragment) :
    Leaves d s t fragment ⟨.error (.refused .badRecordMac), d, fragment⟩
  | decrypted {x : BlockDecoding} (hf : ¬ d.Forged s t fragment)
    (hr : ∀ reason, x.result ≠ .error (.refused (.decodeError reason)))
    (hc : x.decoder.cbc.chain.bytes = d.lastBlockOf fragment) : Leaves d s t fragment x

theorem Leaves.unmoved {x : BlockDecoding} (h : d.Leaves s t fragment x)
    (hs : (∃ reason, x.result = .error (.refused (.decodeError reason))) ∨
      d.Forged s t fragment) :
    (∃ err, x.result = .error (.refused err)) ∧ x.decoder = d ∧ x.buffer = fragment := by
  cases h with
  | malformed reason => exact ⟨⟨_, rfl⟩, rfl, rfl⟩
  | forged hf => exact ⟨⟨_, rfl⟩, rfl, rfl⟩
  | decrypted hf hr hc =>
    rcases hs with ⟨reason, hres⟩ | hforged
    · exact absurd hres (hr reason)
    · exact absurd hforged hf

theorem Leaves.moved {x : BlockDecoding} (h : d.Leaves s t fragment x)
    (hs : ¬ ((∃ reason, x.result = .error (.refused (.decodeError reason))) ∨
      d.Forged s t fragment)) : x.decoder.cbc.chain.bytes = d.lastBlockOf fragment := by
  cases h with
  | malformed reason => exact absurd (Or.inl ⟨reason, rfl⟩) hs
  | forged hf => exact absurd (Or.inr hf) hs
  | decrypted hf hr hc => exact hc

theorem verdict_ne_decodeError (inUse : Bool) (outer : ContentType)
    (checked : Except Fault (Bytes × Bool)) (reason : String) :
    verdict inUse outer checked ≠ .error (.refused (.decodeError reason)) := by
  intro h
  cases checked with
  | error f => cases h
  | ok x =>
    obtain ⟨content, good⟩ := x
    cases good with
    | false => cases h
    | true =>
      have hmeans := InnerPlaintext.means_recover inUse outer content
      rw [show InnerPlaintext.recover inUse outer content = _ from h] at hmeans
      cases hmeans

theorem Ready.leaves_decode (h : d.Ready) (s : UInt64) (t : ContentType) (fragment : Bytes) :
    d.Leaves s t fragment (d.decode s t fragment) := by
  by_cases hm : d.Malformed fragment
  · obtain ⟨reason, hdec⟩ := decode_malformed (s := s) (t := t) hm
    rw [hdec]
    exact .malformed reason
  by_cases htag : d.trailer s t (d.blocksOf fragment) = d.trailerOf fragment
  · obtain ⟨hmod, hiv, hbody, -, -⟩ := BlockDirection.length_bodyOf hm
    rw [BlockDirection.bodyOf, List.length_drop, Cbc.length_decryption hmod] at hbody
    obtain ⟨scratch, hv, -⟩ := (h.withChain (d.cbc.lastBlock (d.blocksOf fragment))).verify_snd
      s t (d.bodyOf fragment)
    rw [h.decode_eq hm htag, hv]
    refine .decrypted (fun hf => (d.forged_iff s t fragment).mp hf htag) ?_ ?_
    · exact verdict_ne_decodeError _ _ _
    · exact d.cbc.bytes_lastBlock hmod (by omega)
  · rw [h.decode_forged hm htag]
    exact .forged ((d.forged_iff s t fragment).mpr htag)

end BlockDecoder

namespace Protection

variable {p₀ : Protection} {p : BlockProtection}

def Call.isForgery (d : BlockDecoder) : Call → Bool
  | .encode .. => false
  | .decode s t _ fragment => decide (d.Forged s t fragment)

theorem isForgery_after (h : (block p).Ready) (call : Call) :
    ∃ q, (block p).after call = block q ∧ Call.isForgery q.decoder = Call.isForgery p.decoder := by
  cases call with
  | encode r s t v room plaintext =>
    exact ⟨{ p with encoder := (p.encoder.encode r s t room plaintext).2.1 }, rfl, rfl⟩
  | decode s t v fragment =>
    obtain ⟨chain, scratch, hd, -⟩ := BlockDecoder.Ready.decode_decoder h.2 s t fragment
    refine ⟨{ p with decoder := (p.decoder.decode s t fragment).decoder }, rfl, ?_⟩
    rw [hd]
    rfl

/-- Forged records leave no trace among other uses. -/
theorem afterAll_forgeries (h : (block p).Ready) (calls : List Call) :
    (block p).afterAll calls =
      (block p).afterAll (calls.filter fun call => !call.isForgery p.decoder) := by
  -- The first decoder judges all calls, later ones agree with it: the induction is over every `p`.
  induction calls generalizing p with
  | nil => rfl
  | cons call calls ih =>
    obtain ⟨q, hq, hsame⟩ := isForgery_after h call
    have hready := hq ▸ (h.after call).1
    by_cases hf : call.isForgery p.decoder = true
    · have hkeep : (block p).after call = block p := by
        cases call with
        | encode => cases hf
        | decode s t v fragment =>
          exact congrArg (fun d => block { p with decoder := d })
            ((BlockDecoder.Ready.leaves_decode h.2 s t fragment).unmoved
              (Or.inr (of_decide_eq_true hf))).2.1
      rw [List.filter_cons_of_neg (by simp [hf]), ← ih h]
      exact congrArg (·.afterAll calls) hkeep
    · rw [List.filter_cons_of_pos (by simp [hf])]
      calc ((block p).after call).afterAll calls
        _ = (block q).afterAll calls := by rw [hq]
        _ = (block q).afterAll (calls.filter fun call => !call.isForgery q.decoder) := ih hready
        _ = ((block p).after call).afterAll
            (calls.filter fun call => !call.isForgery p.decoder) := by rw [hsame, hq]

/-- When the chains of a protection in use move, and that forged records in between change nothing
for the genuine ones. -/
theorem chain_discipline {plan : Plan} {c c' : Context} (hb : plan.build c = (.ok p₀, c'))
    (hp : p₀.Becomes (block p)) :
    (∀ r s t room plaintext,
      (∃ record chain r', p.encoder.encode r s t room plaintext =
          (.ok record, p.encoder.withChain chain, r') ∧
        chain.bytes = p.encoder.lastBlockOf record.fragment) ∨
      ∃ f r', p.encoder.encode r s t room plaintext = (.error f, p.encoder, r') ∧
        ∀ err, f = .refused err → ∃ cause, err = cause.toRecordError ∧
          p.encoder.DrawFails r (p.encoder.unpaddedSize plaintext) cause) ∧
    (∀ s t fragment,
      let x := p.decoder.decode s t fragment
      let early := (∃ reason, x.result = .error (.refused (.decodeError reason))) ∨
        p.decoder.Forged s t fragment
      (early → (∃ err, x.result = .error (.refused err)) ∧ x.decoder = p.decoder ∧
        x.buffer = fragment) ∧
      (¬ early → x.decoder.cbc.chain.bytes = p.decoder.lastBlockOf fragment)) ∧
    (∀ calls s t v fragment,
      ((block p).afterAll calls).decode s t v fragment =
        ((block p).afterAll (calls.filter fun call => !call.isForgery p.decoder)).decode s t v
          fragment) := by
  have hready := hp.ready (Family.keyedFrom_of_build (Plan.build_resolve hb)).ready
  have hmac : p.encoder.mac.Ready := hready.1.1
  have hdecoder : p.decoder.Ready := hready.2
  refine ⟨?_, ?_, ?_⟩
  · intro r s t room plaintext
    rcases BlockEncoder.encode_chain hmac r s t room plaintext with ⟨f, r', herr⟩ | hok
    · refine Or.inr ⟨f, r', herr, ?_⟩
      rintro err rfl
      exact BlockEncoder.drawFails_of_refused hmac (congrArg (·.1) herr)
    · exact Or.inl hok
  · intro s t fragment x early
    have hleaves := hdecoder.leaves_decode s t fragment
    exact ⟨hleaves.unmoved, hleaves.moved⟩
  · intro calls s t v fragment
    rw [afterAll_forgeries hready]

theorem chain_discipline_tls10 :
    let c : Context := ⟨.server, { version := .tls10, encryptThenMac := true },
      some (.new (Bytes.zeros 48)), none, none, .ofSeed 0⟩
    ∃ p c', Plan.build c (.family (.block .aes128 (.hmac .sha1))) = (.ok (.block p), c') ∧
      ∀ calls s t v fragment, ((block p).afterAll calls).decode s t v fragment =
        ((block p).afterAll (calls.filter fun call => !call.isForgery p.decoder)).decode s t v
          fragment := by
  intro c
  have hmaster : c.master = some (.new (Bytes.zeros 48)) := rfl
  obtain ⟨p, hp⟩ := BlockProtection.exists_new hmaster ⟨_, rfl, Bytes.length_zeros 48⟩ rfl rfl
    .aes128 .sha1
  have hbuild := Plan.build_block hp
  obtain ⟨-, -, hforgeries⟩ := chain_discipline hbuild .start
  exact ⟨p, _, hbuild, hforgeries⟩

end Protection

end RecordLayer
