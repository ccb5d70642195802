import RecordLayer.Diagnostics
import RecordLayer.Proofs.Formats
import RecordLayer.Proofs.KeyBlocks

/-! # What is shown

The outline of a protection depends on the plan that it was built by and on what was negotiated.
Neither the secrets behind it nor the records that went through it show there.
-/

namespace RecordLayer

variable {c c' d d' : Context} {p p₀ q q₀ : Protection}

theorem Mac.outline_congr {a : MacAlgorithm} {m m' : Mac} (h : m.algorithm = a)
    (h' : m'.algorithm = a) (v : Version) (truncated : Bool) :
    (RecordMac.new v truncated m').outline = (RecordMac.new v truncated m).outline := by
  unfold RecordMac.outline RecordMac.new Mac.size
  rw [h, h']

/-- What shows in an outline was negotiated alike. -/
structure Context.SameModes (c d : Context) : Prop where
  version : d.version = c.version
  truncatedHmac : d.params.truncatedHmac = c.params.truncatedHmac
  encryptThenMac : d.params.encryptThenMac = c.params.encryptThenMac

theorem NullDirection.mac_of {owner : Role} {a : MacAlgorithm} {id : Bytes} {x : NullDirection}
    (h : NullDirection.of c owner a id = .ok x) : ∃ m : Mac, m.algorithm = a ∧
      x.mac = some (.new c.version c.params.truncatedHmac m) := by
  simp only [NullDirection.of, bind_eq_ok, pure_eq_ok, forRecord_eq_ok] at h
  obtain ⟨_, -, m, hm, rfl⟩ := h
  exact ⟨m, Mac.algorithm_of_keyed hm, rfl⟩

theorem BlockDirection.fields_of {owner : Role} {v : Aes.Variant} {a : MacAlgorithm} {id : Bytes}
    {x : BlockDirection} (h : BlockDirection.of c owner v a id = .ok x) :
    ∃ m : Mac, m.algorithm = a ∧ x.cbc.variant = v ∧
      x.mac = .new c.version c.params.truncatedHmac m ∧
      x.encryptThenMac = c.params.encryptThenMac ∧ x.explicitIv = c.version.hasExplicitIv := by
  simp only [BlockDirection.of, bind_eq_ok, pure_eq_ok, forRecord_eq_ok] at h
  obtain ⟨_, -, m, hm, cbc, hcbc, rfl⟩ := h
  refine ⟨m, Mac.algorithm_of_keyed hm, ?_, rfl, rfl, rfl⟩
  obtain ⟨_, -, rfl⟩ := Cbc.keyed_eq_ok hcbc
  rfl

theorem AeadProtection.fields_of_new {a : AeadAlgorithm} {x : AeadProtection}
    (h : new c a = .ok x) : x.algorithm = a ∧ x.isTls13 = c.version.isTls13 ∧
      x.mode = modeOf c.version.isTls13 a := by
  unfold new at h
  cases hv : c.version.isTls13 with
  | true =>
    simp only [hv, if_true, bind_eq_ok, pure_eq_ok] at h
    obtain ⟨_, -, _, -, rfl⟩ := h
    exact ⟨rfl, rfl, rfl⟩
  | false =>
    simp only [hv, Bool.false_eq_true, if_false, bind_eq_ok, pure_eq_ok] at h
    obtain ⟨_, -, _, -, _, -, rfl⟩ := h
    exact ⟨rfl, rfl, rfl⟩

theorem Family.outline_congr {f : Family} (h : c.SameModes d) (hc : f.build c = (.ok p, c'))
    (hd : f.build d = (.ok q, d')) : q.outline = p.outline := by
  cases f with
  | aead a =>
    obtain ⟨p, hp, rfl⟩ := map_eq_ok.mp (Prod.mk.inj hc).1
    obtain ⟨q, hq, rfl⟩ := map_eq_ok.mp (Prod.mk.inj hd).1
    obtain ⟨halgorithm, h13, hmode⟩ := AeadProtection.fields_of_new hp
    obtain ⟨halgorithm', h13', hmode'⟩ := AeadProtection.fields_of_new hq
    rw [h.version] at h13' hmode'
    refine congrArg (Outline.applied "Aead") ?_
    unfold AeadProtection.outline
    rw [halgorithm, h13, hmode, halgorithm', h13', hmode']
  | block v a =>
    obtain ⟨p, hp, rfl⟩ := map_eq_ok.mp (Prod.mk.inj hc).1
    obtain ⟨q, hq, rfl⟩ := map_eq_ok.mp (Prod.mk.inj hd).1
    obtain ⟨m, hm, hv, hmac, hmode, hiv⟩ :=
      BlockDirection.fields_of (BlockProtection.of_new (Prod.ext hp rfl)).1
    obtain ⟨m', hm', hv', hmac', hmode', hiv'⟩ :=
      BlockDirection.fields_of (BlockProtection.of_new (Prod.ext hq rfl)).1
    rw [h.version, h.truncatedHmac] at hmac'
    rw [h.encryptThenMac] at hmode'
    rw [h.version] at hiv'
    refine congrArg (Outline.applied "Block") ?_
    unfold BlockProtection.outline Cbc.outline
    rw [hv, hmac, hmode, hiv, hv', hmac', hmode', hiv', Mac.outline_congr hm hm']
  | null a =>
    obtain ⟨p, hp, rfl⟩ := map_eq_ok.mp (Prod.mk.inj hc).1
    obtain ⟨q, hq, rfl⟩ := map_eq_ok.mp (Prod.mk.inj hd).1
    obtain ⟨m, hm, hmac⟩ := NullDirection.mac_of (NullProtection.of_new hp).1
    obtain ⟨m', hm', hmac'⟩ := NullDirection.mac_of (NullProtection.of_new hq).1
    rw [h.version, h.truncatedHmac] at hmac'
    refine congrArg (Outline.applied "Null") ?_
    unfold NullProtection.outline
    rw [hmac, hmac']
    dsimp only
    rw [Mac.outline_congr hm hm']
    rfl
  | passthrough =>
    obtain rfl := Except.ok.inj (Prod.mk.inj hc).1
    obtain rfl := Except.ok.inj (Prod.mk.inj hd).1
    rfl
  | integrity hash =>
    obtain ⟨p, hp, rfl⟩ := map_eq_ok.mp (Prod.mk.inj hc).1
    obtain ⟨q, hq, rfl⟩ := map_eq_ok.mp (Prod.mk.inj hd).1
    refine congrArg (Outline.applied "IntegrityOnly") ?_
    unfold IntegrityProtection.outline
    rw [IntegrityProtection.hash_of_new hp, IntegrityProtection.hash_of_new hq]

namespace Protection

theorem Ready.outline_after (h : p.Ready) (call : Call) : (p.after call).outline = p.outline := by
  cases p with
  | aead p | integrity p => cases call <;> rfl
  | block p =>
    cases call with
    | encode r s t v room plaintext =>
      obtain ⟨chain, henc⟩ := h.1.encode_encoder r s t room plaintext
      have hencoder := congrArg (fun e => (block { p with encoder := e }).outline) henc
      exact hencoder
    | decode s t v fragment => rfl
  | null p =>
    cases call with
    | encode r s t v room plaintext =>
      have hencoder := h.1.encode_snd s t room plaintext
      exact congrArg (fun e => (null { p with encoder := e }).outline) hencoder
    | decode s t v fragment => rfl

theorem outline_rekey {side : Side} (h : p.rekey c side = .ok q) : q.outline = p.outline := by
  cases p with
  | aead p =>
    obtain ⟨q, hq, rfl⟩ := map_eq_ok.mp h
    unfold AeadProtection.rekey at hq
    split at hq
    · obtain ⟨_, -, rfl⟩ := map_eq_ok.mp hq
      cases side <;> rfl
    · cases hq
  | integrity p =>
    obtain ⟨q, hq, rfl⟩ := map_eq_ok.mp h
    obtain ⟨_, -, rfl⟩ := map_eq_ok.mp hq
    cases side <;> rfl
  | block p | null p => cases h

theorem Becomes.outline_eq (h : p.Becomes q) (hp : p.Ready) : q.outline = p.outline := by
  induction h with
  | start => rfl
  | used h call ih => exact ((h.ready hp).outline_after call).trans ih
  | rekeyed _ _ hq ih => exact (outline_rekey hq).trans ih

/-- Whatever the secrets of two ends are and whatever became of their protections, these look
alike. -/
theorem outline_alike {plan : Plan} (h : c.SameModes d) (hp : plan.build c = (.ok p₀, c'))
    (hq : plan.build d = (.ok q₀, d')) (hp' : p₀.Becomes p) (hq' : q₀.Becomes q) :
    q.outline = p.outline := by
  have hp := Plan.build_resolve hp
  have hq := Plan.build_resolve hq
  rw [hp'.outline_eq (Family.keyedFrom_of_build hp).ready,
    hq'.outline_eq (Family.keyedFrom_of_build hq).ready]
  rw [h.version] at hq
  exact Family.outline_congr h hp hq

end Protection

end RecordLayer
