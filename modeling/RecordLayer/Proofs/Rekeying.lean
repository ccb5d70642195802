import RecordLayer.Proofs.Atomicity
import RecordLayer.Proofs.Independence
import RecordLayer.Proofs.KeyUpdates
import RecordLayer.Proofs.TrafficKeys

/-! # New keys in place

A direction is keyed again where it stands, in two writes: the initial vector, then the engine.
Both are expanded before either is written, so a failure comes too early to leave a mixture.
-/

namespace RecordLayer

variable {c c' c₀ d d' : Context} {owner : Role} {b : BulkCipher} {p p₀ q : Protection}
  {v : Version} {h : Hash} {data : Bytes}

def AeadDirection.rekey (x : AeadDirection) (c : Context) (owner : Role) (a : AeadAlgorithm) :
    Except RecordError Unit × AeadDirection :=
  match c.trafficKeys "TLS 1.3 cipher requires a traffic secret" owner c.params.prfHash
      a.keySize Aead.nonceSize with
  | .error err => (.error err, x)
  | .ok keys =>
    match forRecord (Aead.keyed a keys.key) with
    | .error err => (.error err, x)
    | .ok aead =>
      let x := { x with iv := keys.iv }
      (.ok (), { x with aead })

def IntegrityDirection.rekey (x : IntegrityDirection) (c : Context) (owner : Role) (h : Hash) :
    Except RecordError Unit × IntegrityDirection :=
  match derive c owner h with
  | .error err => (.error err, x)
  | .ok x => (.ok (), x)

/-- A protection with the context that it takes its secrets from. -/
structure Session where
  context : Context
  protection : Protection

namespace Session
variable (s : Session)

def rekey (side : Side) : Except RecordError Unit × Session :=
  match s.protection with
  | .aead p =>
    if p.isTls13 then
      let (result, d) := (p.direction side).rekey s.context (side.owner s.context.role) p.algorithm
      (result, { s with protection := .aead (p.withDirection d side) })
    else (.error AeadProtection.rekeyUnsupported, s)
  | .integrity p =>
    let (result, d) := (p.direction side).rekey s.context (side.owner s.context.role) p.hash
    (result, { s with protection := .integrity (p.withDirection d side) })
  | .block _ | .null _ => (.error Protection.rekeyUnsupported, s)

def rekeyEncoder : Except RecordError Unit × Session := s.rekey .write

def rekeyDecoder : Except RecordError Unit × Session := s.rekey .read

def settle : Except RecordError Protection → Except RecordError Unit × Session
  | .ok q => (.ok (), { s with protection := q })
  | .error err => (.error err, s)

end Session

def Direction.Implicit : Direction → Prop
  | aead x => x.isTls13 = true ∧ x.mode = .implicit
  | _ => True

theorem Direction.DerivedFrom.implicit {x : Direction} {id : Bytes}
    (hx : x.DerivedFrom v h data id b) : x.Implicit := by
  cases hx with
  | aead => exact ⟨rfl, rfl⟩
  | integrity => trivial

theorem Direction.SameKeys.implicit {x x' : Direction} (h : x.SameKeys x') (hx : x.Implicit) :
    x'.Implicit := by
  obtain ⟨chain, rfl⟩ := h
  cases x <;> exact hx

theorem AeadDirection.rekey_eq {x : AeadDirection} (hx : (Direction.aead x).Implicit)
    (c : Context) (owner : Role) (a : AeadAlgorithm) : x.rekey c owner a =
      match derive c owner a x.id with
      | .error err => (.error err, x)
      | .ok x' => (.ok (), x') := by
  obtain ⟨isTls13, mode, aead, iv, id⟩ := x
  obtain ⟨rfl, rfl⟩ := hx
  unfold rekey derive
  cases c.trafficKeys "TLS 1.3 cipher requires a traffic secret" owner c.params.prfHash
      a.keySize Aead.nonceSize with
  | error err => rfl
  | ok keys =>
    simp only [ok_bind]
    cases forRecord (Aead.keyed a keys.key) with
    | error err => rfl
    | ok aead => rfl

namespace Session

variable {s : Session}

theorem settle_cases (s : Session) {result : Except RecordError Protection} {good : Prop}
    (h : (∃ q, result = .ok q) ↔ good) :
    (¬ good ∧ ∃ err, s.settle result = (.error err, s)) ∨
      good ∧ ∃ q, result = .ok q ∧ s.settle result = (.ok (), ⟨s.context, q⟩) := by
  cases result with
  | error err =>
    refine Or.inl ⟨fun hg => ?_, err, rfl⟩
    obtain ⟨q, hq⟩ := h.mpr hg
    cases hq
  | ok q => exact Or.inr ⟨h.mp ⟨q, rfl⟩, q, rfl, rfl⟩

theorem rekey_eq {side : Side}
    (hs : s.protection.cipher? ≠ none → (s.protection.direction side).Implicit) :
    s.rekey side = s.settle (s.protection.rekey s.context side) := by
  obtain ⟨c, p⟩ := s
  cases p with
  | aead p =>
    have hkept : p.withDirection (p.direction side) side = p := by cases side <;> rfl
    unfold rekey Protection.rekey AeadProtection.rekey
    by_cases h13 : p.isTls13 = true
    · have himplicit := hs (by simp [Protection.cipher?, h13])
      rw [Protection.direction_aead] at himplicit
      simp only [if_pos h13, AeadDirection.rekey_eq himplicit]
      cases AeadDirection.derive c (side.owner c.role) p.algorithm (p.direction side).id with
      | error err =>
        dsimp only
        rw [hkept]
        rfl
      | ok d => rfl
    · simp only [if_neg h13]
      rfl
  | integrity p =>
    have hkept : p.withDirection (p.direction side) side = p := by cases side <;> rfl
    unfold rekey Protection.rekey IntegrityProtection.rekey IntegrityDirection.rekey
    dsimp only
    cases IntegrityDirection.derive c (side.owner c.role) p.hash with
    | error err =>
      dsimp only
      rw [hkept]
      rfl
    | ok d => rfl
  | block p | null p => rfl

end Session

def Family.cipher? (v : Version) : Family → Option BulkCipher
  | aead a => if v.isTls13 then some (.aead a) else none
  | integrity h => some (.integrity h)
  | block .. | null _ | passthrough => none

theorem Family.cipher?_of_build {f : Family} (h : f.build c = (.ok p, c')) :
    p.cipher? = f.cipher? c.version := by
  cases f with
  | aead a =>
    obtain ⟨p, hp, rfl⟩ := map_eq_ok.mp (Prod.mk.inj h).1
    unfold AeadProtection.new at hp
    unfold Protection.cipher? Family.cipher?
    cases hv : c.version.isTls13 with
    | true =>
      simp only [hv, if_true, bind_eq_ok, pure_eq_ok] at hp
      obtain ⟨e, -, x, -, rfl⟩ := hp
      rfl
    | false =>
      simp only [hv, Bool.false_eq_true, if_false, bind_eq_ok, pure_eq_ok] at hp
      obtain ⟨keys, -, e, -, x, -, rfl⟩ := hp
      rfl
  | integrity hash =>
    obtain ⟨p, hp, rfl⟩ := map_eq_ok.mp (Prod.mk.inj h).1
    exact congrArg (fun x => some (BulkCipher.integrity x)) (IntegrityProtection.hash_of_new hp)
  | block k a | null a =>
    obtain ⟨p, -, rfl⟩ := map_eq_ok.mp (Prod.mk.inj h).1
    rfl
  | passthrough =>
    obtain rfl := Except.ok.inj (Prod.mk.inj h).1
    rfl

theorem Family.exists_build {f : Family} (hf : f.cipher? d.version = some b)
    (h13 : d.version.isTls13 = true) (hk : ∀ owner, d.Keys owner b) :
    ∃ q, f.build d = (.ok q, d) := by
  obtain ⟨_, he⟩ := (Context.exists_derive_iff d.params.peerId).mpr (hk d.role)
  obtain ⟨_, hx⟩ := (Context.exists_derive_iff d.params.localId).mpr (hk d.role.peer)
  cases f with
  | aead a =>
    simp only [cipher?, h13, if_true, Option.some.injEq] at hf
    subst hf
    obtain ⟨e, he, -⟩ := map_eq_ok.mp he
    obtain ⟨x, hx, -⟩ := map_eq_ok.mp hx
    have hnew : AeadProtection.new d a = .ok ⟨a, true, AeadProtection.modeOf true a, e, x⟩ := by
      simp only [AeadProtection.new, h13, if_true, he, hx]
      rfl
    exact ⟨_, Prod.ext (map_eq_ok.mpr ⟨_, hnew, rfl⟩) rfl⟩
  | integrity hash =>
    obtain rfl := Option.some.inj hf
    obtain ⟨e, he, -⟩ := map_eq_ok.mp he
    obtain ⟨x, hx, -⟩ := map_eq_ok.mp hx
    have hnew : IntegrityProtection.new d hash = .ok ⟨hash, e, x⟩ := by
      simp only [IntegrityProtection.new, h13, Bool.not_true, Bool.false_eq_true, if_false, he, hx]
      rfl
    exact ⟨_, Prod.ext (map_eq_ok.mpr ⟨_, hnew, rfl⟩) rfl⟩
  | block k a | null a | passthrough => cases hf

theorem Family.isTls13_of_cipher? {f : Family} (h : f.build c = (.ok p, c'))
    (hf : f.cipher? c.version = some b) : c.version.isTls13 = true := by
  cases f with
  | aead a =>
    simp only [cipher?, Option.ite_none_right_eq_some] at hf
    exact hf.1
  | integrity hash =>
    obtain ⟨p, hp, -⟩ := map_eq_ok.mp (Prod.mk.inj h).1
    unfold IntegrityProtection.new at hp
    split at hp
    · cases hp
    · rename_i hv
      simpa using hv
  | block k a | null a | passthrough => cases hf

/-- What was built once is built from the secrets alone under the same version. -/
theorem Plan.build_eq {plan : Plan} (hb : plan.build c₀ = (.ok p₀, c'))
    (hv : d.version = c₀.version) : plan.build d = (plan.resolve d.version).build d := by
  cases plan with
  | suite s =>
    refine Protection.ofSuite_eq_build ?_
    rw [hv]
    exact Protection.isTls13_of_suite hb
  | family f => rfl

theorem Direction.DerivedFrom.of_id {x x₀ : Direction} {v₀ : Version} {h₀ : Hash}
    {data₀ id : Bytes} (hx₀ : x₀.DerivedFrom v₀ h₀ data₀ id b)
    (hx : x.DerivedFrom v h data x₀.id b) : x.DerivedFrom v h data id b := by
  cases hx₀ with
  | aead => exact hx
  | integrity =>
    cases hx with
    | integrity hkey hiv => exact .integrity hkey hiv

namespace Protection

theorem id_of_derived {x : Direction} {side : Side} (hb : p.cipher? = some b)
    (hx : x.DerivedFrom v h data (p.direction side).id b) : x.id = (p.direction side).id := by
  cases p with
  | aead p =>
    simp only [cipher?, Option.ite_none_right_eq_some, Option.some.injEq] at hb
    obtain ⟨-, rfl⟩ := hb
    cases hx
    rfl
  | integrity p =>
    obtain rfl := Option.some.inj hb
    rw [direction_integrity]
    cases hx
    rfl
  | block p | null p => cases hb

theorem Becomes.keeps (hp : p₀.Becomes p) (hr : p₀.Ready)
    (hi : p₀.cipher? ≠ none → ∀ side, (p₀.direction side).Implicit) :
    (∀ side, (p.direction side).id = (p₀.direction side).id) ∧
      (p.cipher? ≠ none → ∀ side, (p.direction side).Implicit) := by
  induction hp with
  | start => exact ⟨fun _ => rfl, hi⟩
  | used h call ih =>
    obtain ⟨hid, himplicit⟩ := ih
    have hkeys := (h.ready hr).sameKeys_after call
    rw [cipher?_after]
    exact ⟨fun side => (hkeys side).id_eq.trans (hid side),
      fun hc side => (hkeys side).implicit (himplicit hc side)⟩
  | @rekeyed q q' c h side hq ih =>
    obtain ⟨hid, himplicit⟩ := ih
    obtain ⟨b, hb, hd, hother, -, -⟩ := rekey_eq_ok hq
    obtain ⟨data, -, hx⟩ := BulkCipher.derive_eq_ok.mp hd
    have hdirection (x : Side) : (q'.direction x).id = (q.direction x).id ∧
        (q'.direction x).Implicit := by
      rcases x.eq_or_eq_other side with rfl | rfl
      · exact ⟨id_of_derived hb hx, hx.implicit⟩
      · rw [hother]
        exact ⟨rfl, himplicit (by rw [hb]; rintro ⟨⟩) _⟩
    exact ⟨fun x => (hdirection x).1.trans (hid x), fun _ x => (hdirection x).2⟩

/-- Both behave alike in one direction. -/
def Alike (p q : Protection) : Side → Prop
  | .write => ∀ calls, p.encodings calls = q.encodings calls
  | .read => ∀ calls, p.decodings calls = q.decodings calls

theorem SameEncoder.alike (h : p.SameEncoder q) : p.Alike q .write := by
  intro calls
  rw [h.encodings, (SameEncoder.refl q).encodings calls]

theorem SameDecoder.alike (h : p.SameDecoder q) : p.Alike q .read := by
  intro calls
  rw [h.decodings, (SameDecoder.refl q).decodings calls]

theorem alike_of_direction {side : Side} (hb : p.cipher? = some b)
    (h : p.direction side = q.direction side) : p.Alike q side := by
  cases p with
  | aead p =>
    cases q with
    | aead q =>
      rw [direction_aead, direction_aead] at h
      cases side
      · exact SameEncoder.alike (.aead (Direction.aead.inj h))
      · exact SameDecoder.alike (.aead (Direction.aead.inj h))
    | block q | null q | integrity q => cases side <;> cases h
  | integrity p =>
    cases q with
    | integrity q =>
      rw [direction_integrity, direction_integrity] at h
      cases side
      · exact SameEncoder.alike (.integrity (Direction.integrity.inj h))
      · exact SameDecoder.alike (.integrity (Direction.integrity.inj h))
    | aead q | block q | null q => cases side <;> cases h
  | block p | null p => cases hb

end Protection

/-- The contexts differ in nothing that the keys of `owner` come from. -/
structure Context.Agrees (c d : Context) (owner : Role) : Prop where
  role : d.role = c.role
  params : d.params = c.params
  secret : d.trafficSecret owner = c.trafficSecret owner

theorem Context.Keys.exists_agrees (hk : c.Keys owner b) :
    ∃ d, c.Agrees d owner ∧ ∀ other, d.Keys other b := by
  obtain ⟨secret, n, hs, hsize, hfits⟩ := hk
  have hparams := c.params_setTrafficSecret owner.peer secret
  have hsecret := c.trafficSecret_setTrafficSecret_peer owner.peer secret
  rw [Role.peer_peer] at hsecret
  refine ⟨c.setTrafficSecret owner.peer secret, ⟨c.role_setTrafficSecret .., hparams, hsecret⟩, ?_⟩
  intro other
  rw [← hparams] at hfits
  rcases Role.eq_or_eq_peer other owner with rfl | rfl
  · exact ⟨secret, n, hsecret.trans hs, hsize, hfits⟩
  · exact ⟨secret, n, c.trafficSecret_setTrafficSecret .., hsize, hfits⟩

theorem BulkCipher.derived_eq {o₀ : Role} {id : Bytes} {x₀ x y : Direction}
    (h₀ : b.derive c₀ o₀ id = .ok x₀) (hx : b.derive c owner x₀.id = .ok x)
    (hy : b.derive d owner id = .ok y) (hd : c.Agrees d owner) : x = y := by
  obtain ⟨data₀, -, hx₀⟩ := derive_eq_ok.mp h₀
  obtain ⟨data, hs, hx⟩ := derive_eq_ok.mp hx
  have hy := derivedFrom_of_derive (hd.secret.trans hs) hy
  rw [Context.version, hd.params] at hy
  exact (hx₀.of_id hx).unique hy

/-- A protection that the plan builds on the secret of `owner`, whatever the other one is. -/
def Plan.Fresh (plan : Plan) (c : Context) (owner : Role) (fresh : Protection) : Prop :=
  ∃ d d', c.Agrees d owner ∧ plan.build d = (.ok fresh, d')

variable {plan : Plan} {fresh : Protection}

theorem Plan.exists_fresh (hb : plan.build c₀ = (.ok p₀, c')) (hbulk : p₀.cipher? = some b)
    (hparams : c.params = c₀.params) (hk : c.Keys owner b) :
    ∃ fresh, plan.Fresh c owner fresh := by
  obtain ⟨d, hagrees, hkeys⟩ := hk.exists_agrees
  have hv : d.version = c₀.version :=
    congrArg Parameters.version (hagrees.params.trans hparams)
  have hbuild := build_resolve hb
  have hcipher := (Family.cipher?_of_build hbuild).symm.trans hbulk
  have h13 := Family.isTls13_of_cipher? hbuild hcipher
  rw [← hv] at hcipher h13
  obtain ⟨q, hq⟩ := Family.exists_build hcipher h13 hkeys
  exact ⟨q, d, d, hagrees, (build_eq hb hv).trans (hv ▸ hq)⟩

theorem Plan.Fresh.derive (hf : plan.Fresh c owner fresh) (hb : plan.build c₀ = (.ok p₀, c'))
    (hbulk : p₀.cipher? = some b) (hparams : c.params = c₀.params) (side : Side) :
    ∃ d, c.Agrees d owner ∧
      b.derive d (side.owner c.role) (c₀.params.idOf side) = .ok (fresh.direction side) := by
  obtain ⟨d, d', hagrees, hq⟩ := hf
  have hsame := hagrees.params.trans hparams
  have hbuild := build_resolve hq
  refine ⟨d, hagrees, ?_⟩
  rw [← hsame, ← hagrees.role]
  refine Protection.derive_of_build hbuild ?_ side
  rw [Family.cipher?_of_build hbuild, Context.version, hsame, ← Context.version,
    ← Family.cipher?_of_build (build_resolve hb), hbulk]

namespace Protection

theorem Becomes.keeps_of_build (hp : p₀.Becomes p) (hb : plan.build c₀ = (.ok p₀, c')) :
    (∀ side, (p.direction side).id = (p₀.direction side).id) ∧
      (p.cipher? ≠ none → ∀ side, (p.direction side).Implicit) := by
  have hbuild := Plan.build_resolve hb
  refine hp.keeps (Family.keyedFrom_of_build hbuild).ready fun hne side => ?_
  obtain ⟨b, hbulk⟩ := Option.ne_none_iff_exists'.mp hne
  obtain ⟨_, -, hx⟩ := BulkCipher.derive_eq_ok.mp (derive_of_build hbuild hbulk side)
  exact hx.implicit

/-- A direction with new keys is the one that would be built now. -/
theorem alike_of_fresh {side : Side} (hb : plan.build c₀ = (.ok p₀, c')) (hp : p₀.Becomes p)
    (hparams : c.params = c₀.params) (hq : p.rekey c side = .ok q)
    (hf : plan.Fresh c (side.owner c.role) fresh) : q.Alike fresh side := by
  obtain ⟨b, hbulk, hd, -, hbulk', -⟩ := rekey_eq_ok hq
  obtain ⟨hid, -⟩ := hp.keeps_of_build hb
  rw [hp.cipher?_eq] at hbulk
  rw [hid] at hd
  have h₀ := derive_of_build (Plan.build_resolve hb) hbulk side
  obtain ⟨d, hagrees, hy⟩ := hf.derive hb hbulk hparams side
  exact alike_of_direction hbulk' (BulkCipher.derived_eq h₀ hd hy hagrees)

def HasKeys (p : Protection) (c : Context) (owner : Role) : Prop :=
  ∃ b, p.cipher? = some b ∧ c.Keys owner b

theorem exists_rekey_iff_hasKeys {side : Side} :
    (∃ q, p.rekey c side = .ok q) ↔ p.HasKeys c (side.owner c.role) := by
  constructor
  · rintro ⟨q, hq⟩
    obtain ⟨b, hbulk, -⟩ := rekey_eq_ok hq
    exact ⟨b, hbulk, (exists_rekey_iff hbulk side).mp ⟨q, hq⟩⟩
  · rintro ⟨b, hbulk, hk⟩
    exact (exists_rekey_iff hbulk side).mpr hk

theorem rekey_atomic_side (hb : plan.build c₀ = (.ok p₀, c')) (hp : p₀.Becomes p)
    (hparams : c.params = c₀.params) (side : Side) :
    let s : Session := ⟨c, p⟩
    let owner := side.owner c.role
    s.rekey side = s.settle (p.rekey c side) ∧
      ((¬ p.HasKeys c owner ∧ ∃ err, s.rekey side = (.error err, s)) ∨
        p.HasKeys c owner ∧ ∃ q, s.rekey side = (.ok (), ⟨c, q⟩) ∧ q.Alike p side.other ∧
          (∃ fresh, plan.Fresh c owner fresh) ∧
          ∀ fresh, plan.Fresh c owner fresh → q.Alike fresh side) := by
  intro s owner
  obtain ⟨-, himplicit⟩ := hp.keeps_of_build hb
  have hs : s.rekey side = s.settle (p.rekey c side) :=
    Session.rekey_eq fun hne => himplicit hne side
  refine ⟨hs, ?_⟩
  rw [hs]
  rcases s.settle_cases exists_rekey_iff_hasKeys with hrefused | ⟨hk, q, hq, hok⟩
  · exact Or.inl hrefused
  · obtain ⟨b, -, -, hother, hbulk, -⟩ := rekey_eq_ok hq
    obtain ⟨b', hbulk', hkeys⟩ := hk
    exact Or.inr ⟨⟨b', hbulk', hkeys⟩, q, hok, alike_of_direction hbulk hother,
      Plan.exists_fresh hb (hp.cipher?_eq.symm.trans hbulk') hparams hkeys,
      fun fresh hf => alike_of_fresh hb hp hparams hq hf⟩

/-- New keys for one direction either change nothing at all, for want of a secret that is alive and
long enough, or make that direction the one that would be built now and leave the other alone. The
secrets stay in any case. -/
theorem rekey_atomic (hb : plan.build c₀ = (.ok p₀, c')) (hp : p₀.Becomes p)
    (hparams : c.params = c₀.params) :
    let s : Session := ⟨c, p⟩
    (s.rekeyEncoder = s.settle (p.rekeyEncoder c) ∧
      ((¬ p.HasKeys c c.role ∧ ∃ err, s.rekeyEncoder = (.error err, s)) ∨
        p.HasKeys c c.role ∧ ∃ q, s.rekeyEncoder = (.ok (), ⟨c, q⟩) ∧
          (∀ calls, q.decodings calls = p.decodings calls) ∧
          (∃ fresh, plan.Fresh c c.role fresh) ∧
          ∀ fresh, plan.Fresh c c.role fresh →
            ∀ calls, q.encodings calls = fresh.encodings calls)) ∧
    (s.rekeyDecoder = s.settle (p.rekeyDecoder c) ∧
      ((¬ p.HasKeys c c.role.peer ∧ ∃ err, s.rekeyDecoder = (.error err, s)) ∨
        p.HasKeys c c.role.peer ∧ ∃ q, s.rekeyDecoder = (.ok (), ⟨c, q⟩) ∧
          (∀ calls, q.encodings calls = p.encodings calls) ∧
          (∃ fresh, plan.Fresh c c.role.peer fresh) ∧
          ∀ fresh, plan.Fresh c c.role.peer fresh →
            ∀ calls, q.decodings calls = fresh.decodings calls)) :=
  ⟨rekey_atomic_side hb hp hparams .write, rekey_atomic_side hb hp hparams .read⟩

theorem rekey_atomic_dead : let c := { Context.longSecrets with serverTraffic := some ⟨none⟩ }
    ∃ p, Plan.build .longSecrets (.suite .sha384Sha384) = (.ok p, .longSecrets) ∧
      (∃ q, Session.rekeyEncoder ⟨c, p⟩ = (.ok (), ⟨c, q⟩)) ∧
        ∃ err, Session.rekeyDecoder ⟨c, p⟩ = (.error err, ⟨c, p⟩) := by
  intro c
  obtain ⟨p, hp, hbulk⟩ := exists_longSecrets
  have hplan : Plan.build .longSecrets (.suite .sha384Sha384) = (.ok p, .longSecrets) := hp
  have hparams : c.params = Context.longSecrets.params := rfl
  obtain ⟨⟨-, hencoder⟩, -, hdecoder⟩ := rekey_atomic hplan .start hparams
  refine ⟨p, hplan, ?_, ?_⟩
  · have halive : p.HasKeys c c.role :=
      ⟨_, hbulk, _, 48, rfl, ⟨_, rfl, Bytes.length_zeros 48⟩, rfl, by decide⟩
    rcases hencoder with ⟨hnone, -⟩ | ⟨-, q, hq, -⟩
    · exact absurd halive hnone
    · exact ⟨q, hq⟩
  · rcases hdecoder with ⟨-, herr⟩ | ⟨⟨b, -, secret, n, hs, ⟨data, hdata, -⟩, -⟩, -⟩
    · exact herr
    · obtain rfl := Option.some.inj hs
      cases hdata

end Protection

end RecordLayer
