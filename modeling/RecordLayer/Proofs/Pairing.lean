import RecordLayer.Proofs.Construction
import RecordLayer.Proofs.Directions

/-! # Opposite ends

The keys of a direction are a function of the end that writes in it and of what both ends know. So
two ends that are built alike agree on what one of them writes and the other reads.
-/

namespace RecordLayer

open Aes (Block)

/-- The contexts of two ends that negotiated the same version and flags and share their secrets,
where records from `c` carry the connection ID that `d` expects. -/
structure Context.Opposite (c d : Context) : Prop where
  role : d.role = c.role.peer
  version : d.params.version = c.params.version
  prfHash : d.params.prfHash = c.params.prfHash
  clientRandom : d.params.clientRandom = c.params.clientRandom
  serverRandom : d.params.serverRandom = c.params.serverRandom
  truncatedHmac : d.params.truncatedHmac = c.params.truncatedHmac
  encryptThenMac : d.params.encryptThenMac = c.params.encryptThenMac
  extendedPadding : d.params.extendedPadding = c.params.extendedPadding
  master : d.master = c.master
  clientTraffic : d.clientTraffic = c.clientTraffic
  serverTraffic : d.serverTraffic = c.serverTraffic
  id : d.params.localId = c.params.peerId

/-- A family of protection with its algorithms. -/
inductive Family
  | aead (a : AeadAlgorithm)
  | block (v : Aes.Variant) (a : MacAlgorithm)
  | null (a : MacAlgorithm)
  | passthrough
  | integrity (h : Hash)

variable {c d c' d' : Context} {owner : Role} {id : Bytes}

namespace Context.Opposite

theorem keyBlock_eq (h : c.Opposite d) : d.keyBlock = c.keyBlock := by
  funext missing macSize keySize ivSize
  unfold keyBlock Parameters.prf
  rw [h.master, h.version, h.prfHash, h.clientRandom, h.serverRandom]

theorem trafficKeys_eq (h : c.Opposite d) : d.trafficKeys = c.trafficKeys := by
  funext missing owner hash keySize ivSize
  unfold trafficKeys trafficSecret Context.version
  rw [h.version, h.clientTraffic, h.serverTraffic]

end Context.Opposite

def AeadDirection.of (c : Context) (owner : Role) (a : AeadAlgorithm) (id : Bytes) :
    Except RecordError AeadDirection :=
  if c.version.isTls13 then derive c owner a id
  else do
    let mode := AeadProtection.modeOf false a
    let keys ← c.keyBlock "AEAD cipher requires a master secret" 0 a.keySize mode.fixedIvSize
    let aead ← forRecord (Aead.keyed a (keys.keysOf owner).key)
    pure ⟨false, mode, aead, (keys.keysOf owner).iv, id⟩

def BlockDirection.of (c : Context) (owner : Role) (v : Aes.Variant) (a : MacAlgorithm)
    (id : Bytes) : Except RecordError BlockDirection := do
  let ivSize := if c.version.hasExplicitIv then 0 else blockSize
  let keys ← c.keyBlock "CBC cipher requires a master secret" a.size v.keySize ivSize
  let keys := keys.keysOf owner
  let iv := if c.version.hasExplicitIv then Bytes.zeros blockSize else keys.iv
  let mac ← forRecord (Mac.keyed a keys.mac)
  let cbc ← forRecord (Cbc.keyed v keys.key iv)
  pure (BlockProtection.direction c id cbc mac)

def NullDirection.of (c : Context) (owner : Role) (a : MacAlgorithm) (id : Bytes) :
    Except RecordError NullDirection := do
  let keys ← c.keyBlock "NULL cipher requires a master secret" a.size 0 0
  let mac ← forRecord (Mac.keyed a (keys.keysOf owner).mac)
  pure ⟨some (RecordMac.new c.version c.params.truncatedHmac mac), id⟩

namespace Family

def direction (c : Context) (owner : Role) (id : Bytes) : Family → Except RecordError Direction
  | aead a => .aead <$> AeadDirection.of c owner a id
  | block v a => .block <$> BlockDirection.of c owner v a id
  | null a => .null <$> NullDirection.of c owner a id
  | passthrough => .ok (.null .passthrough)
  | integrity h => .integrity <$> IntegrityDirection.derive c owner h

def build (c : Context) : Family → Except RecordError Protection × Context
  | aead a => (.aead <$> AeadProtection.new c a, c)
  | block v a =>
    let (p, c) := BlockProtection.new c v a
    (.block <$> p, c)
  | null a => (.null <$> NullProtection.new c a, c)
  | passthrough => (.ok (.null .passthrough), c)
  | integrity h => (.integrity <$> IntegrityProtection.new c h, c)

theorem direction_congr (h : c.Opposite d) (owner : Role) (id : Bytes) (f : Family) :
    f.direction d owner id = f.direction c owner id := by
  have hversion : d.version = c.version := h.version
  cases f with
  | aead a =>
    refine congrArg (Direction.aead <$> ·) ?_
    unfold AeadDirection.of AeadDirection.derive
    rw [hversion, h.prfHash, h.keyBlock_eq, h.trafficKeys_eq]
  | block v a =>
    refine congrArg (Direction.block <$> ·) ?_
    unfold BlockDirection.of BlockProtection.direction
    rw [hversion, h.truncatedHmac, h.encryptThenMac, h.keyBlock_eq]
  | null a =>
    refine congrArg (Direction.null <$> ·) ?_
    unfold NullDirection.of
    rw [hversion, h.truncatedHmac, h.keyBlock_eq]
  | passthrough => rfl
  | integrity hash =>
    refine congrArg (Direction.integrity <$> ·) ?_
    unfold IntegrityDirection.derive
    rw [h.trafficKeys_eq]

end Family

/-- Both directions of `p` are ready, and keyed for what the end of `c` writes and reads. -/
structure Protection.KeyedFrom (p : Protection) (f : Family) (c : Context) : Prop where
  ready : p.Ready
  writing : f.direction c c.role c.params.peerId = .ok p.writing
  reading : f.direction c c.role.peer c.params.localId = .ok p.reading

/-- Records from this end hide their type in the plaintext, if they are protected at all. -/
def Context.HidesTypes (c : Context) : Prop :=
  c.version.isTls13 = true ∨ c.params.peerId ≠ []

theorem AeadDirection.fields_of {a : AeadAlgorithm} {x : AeadDirection}
    (h : AeadDirection.of c owner a id = .ok x) : x.id = id ∧ x.isTls13 = c.version.isTls13 := by
  unfold AeadDirection.of at h
  cases hv : c.version.isTls13 with
  | true =>
    simp only [hv, if_true, derive, bind_eq_ok, pure_eq_ok] at h
    obtain ⟨keys, -, aead, -, rfl⟩ := h
    exact ⟨rfl, rfl⟩
  | false =>
    simp only [hv, Bool.false_eq_true, if_false, bind_eq_ok, pure_eq_ok] at h
    obtain ⟨keys, -, aead, -, rfl⟩ := h
    exact ⟨rfl, rfl⟩

theorem AeadDirection.ready_derive {a : AeadAlgorithm} {x : AeadDirection}
    (h : AeadDirection.derive c owner a id = .ok x) : x.Ready := by
  simp only [derive, Context.trafficKeys, bind_eq_ok, pure_eq_ok] at h
  obtain ⟨keys, hkeys, aead, -, rfl⟩ := h
  split at hkeys
  · cases hkeys
  · have hlen := (Secret.length_of_trafficKeys (forRecord_eq_ok.mp hkeys)).2
    exact ⟨fun _ => rfl, fun _ => by rw [hlen]; decide⟩

theorem AeadDirection.ready_of {a : AeadAlgorithm} {x : AeadDirection}
    (h : AeadDirection.of c owner a id = .ok x) : x.Ready := by
  unfold AeadDirection.of at h
  split at h
  · exact ready_derive h
  · simp only [bind_eq_ok, pure_eq_ok] at h
    obtain ⟨keys, -, aead, -, rfl⟩ := h
    exact ⟨by rintro ⟨⟩, by rintro ⟨⟩⟩

theorem IntegrityDirection.ready_derive {hash : Hash} {x : IntegrityDirection}
    (h : IntegrityDirection.derive c owner hash = .ok x) : x.Ready := by
  simp only [derive, Context.trafficKeys, bind_eq_ok, pure_eq_ok] at h
  obtain ⟨keys, hkeys, rfl⟩ := h
  split at hkeys
  · cases hkeys
  · have hlen := (Secret.length_of_trafficKeys (forRecord_eq_ok.mp hkeys)).2
    refine ⟨Mac.fresh_ofStrings _ _, rfl, ?_⟩
    rw [hlen]
    cases hash <;> decide

theorem IntegrityDirection.Ready.exists_encode_short {x : IntegrityDirection} (h : x.Ready)
    (s : UInt64) (t : ContentType) (v : Version) (room : Nat) (plaintext : Bytes)
    (hshort : room + plaintext.length ≤ 8) :
    ∃ fragment, (x.encode s t v room plaintext).1 = .ok (.assemble room .applicationData fragment) ∧
      fragment.length ≤ Size.capacity := by
  have hsize := x.hash.size_le
  have hcap : 73 ≤ Size.capacity := by decide
  obtain ⟨fragment, hok, hlen⟩ := h.exists_encode s t v room plaintext (by omega)
  exact ⟨fragment, hok, by omega⟩

theorem NullDirection.ready_of {a : MacAlgorithm} {x : NullDirection}
    (h : NullDirection.of c owner a id = .ok x) : x.Ready := by
  simp only [NullDirection.of, bind_eq_ok, pure_eq_ok, forRecord_eq_ok] at h
  obtain ⟨keys, -, mac, hmac, rfl⟩ := h
  refine ⟨?_, by rintro ⟨⟩⟩
  rintro m hm
  obtain rfl := Option.some.inj hm
  exact RecordMac.ready_new hmac ..

theorem BlockDirection.ready_of {v : Aes.Variant} {a : MacAlgorithm} {x : BlockDirection}
    (h : BlockDirection.of c owner v a id = .ok x) :
    x.mac.Ready ∧ x.mac.version = c.version := by
  simp only [BlockDirection.of, bind_eq_ok, pure_eq_ok, forRecord_eq_ok] at h
  obtain ⟨keys, -, mac, hmac, cbc, -, rfl⟩ := h
  exact ⟨RecordMac.ready_new hmac .., rfl⟩

theorem BlockProtection.maxPadding_le {x : BlockDirection} (h : x.mac.version = c.version) :
    BlockEncoder.maxPadding ⟨x, usesExtraPadding c.params⟩ ≤ x.paddingLimit := by
  unfold BlockEncoder.maxPadding BlockDirection.paddingLimit
  rw [h]
  cases hssl : c.version.isSsl with
  | false =>
    split
    · exact Nat.le_refl _
    · decide
  | true =>
    have hextra : usesExtraPadding c.params = false := by
      unfold usesExtraPadding
      rw [show c.params.version.isSsl = true from hssl]
      simp
    rw [hextra]
    exact Nat.le_refl _

theorem AeadProtection.of_new {a : AeadAlgorithm} {p : AeadProtection} (h : new c a = .ok p) :
    AeadDirection.of c c.role a c.params.peerId = .ok p.encoder ∧
      AeadDirection.of c c.role.peer a c.params.localId = .ok p.decoder := by
  unfold new at h
  unfold AeadDirection.of
  cases hv : c.version.isTls13 with
  | true =>
    simp only [hv, if_true, bind_eq_ok, pure_eq_ok] at h ⊢
    obtain ⟨e, he, d, hd, rfl⟩ := h
    exact ⟨he, hd⟩
  | false =>
    simp only [hv, Bool.false_eq_true, if_false, bind_eq_ok, pure_eq_ok] at h ⊢
    obtain ⟨keys, hkeys, e, he, d, hd, rfl⟩ := h
    exact ⟨⟨keys, hkeys, e, he, rfl⟩, ⟨keys, hkeys, d, hd, rfl⟩⟩

theorem NullProtection.of_new {a : MacAlgorithm} {p : NullProtection} (h : new c a = .ok p) :
    NullDirection.of c c.role a c.params.peerId = .ok p.encoder ∧
      NullDirection.of c c.role.peer a c.params.localId = .ok p.decoder := by
  unfold new at h
  unfold NullDirection.of
  split at h
  · cases h
  · simp only [bind_eq_ok, pure_eq_ok] at h ⊢
    obtain ⟨keys, hkeys, e, he, d, hd, rfl⟩ := h
    exact ⟨⟨keys, hkeys, e, he, rfl⟩, ⟨keys, hkeys, d, hd, rfl⟩⟩

theorem IntegrityProtection.of_new {hash : Hash} {p : IntegrityProtection}
    (h : new c hash = .ok p) : IntegrityDirection.derive c c.role hash = .ok p.encoder ∧
      IntegrityDirection.derive c c.role.peer hash = .ok p.decoder := by
  unfold new at h
  split at h
  · cases h
  · simp only [bind_eq_ok, pure_eq_ok] at h
    obtain ⟨e, he, d, hd, rfl⟩ := h
    exact ⟨he, hd⟩

theorem BlockProtection.of_new {v : Aes.Variant} {a : MacAlgorithm} {p : BlockProtection}
    (h : new c v a = (.ok p, c')) :
    BlockDirection.of c c.role v a c.params.peerId = .ok p.encoder.toBlockDirection ∧
      BlockDirection.of c c.role.peer v a c.params.localId = .ok p.decoder.toBlockDirection ∧
      p.encoder.extraPadding = usesExtraPadding c.params ∧
      p.decoder.longPadding = (!c.version.isSsl) ∧
      p.decoder.scratch.length = Padding.maxSize := by
  unfold new at h
  split at h
  · cases (Prod.mk.inj h).1
  · split at h
    · cases (Prod.mk.inj h).1
    · rename_i scratch r hdraw
      have hok := (Prod.mk.inj h).1
      simp only [ofKeyBlock, bind_eq_ok, pure_eq_ok] at hok
      obtain ⟨keys, hkeys, wm, hwm, rm, hrm, enc, henc, dec, hdec, rfl⟩ := hok
      simp only [BlockDirection.of, bind_eq_ok, pure_eq_ok]
      exact ⟨⟨keys, hkeys, wm, hwm, enc, henc, rfl⟩, ⟨keys, hkeys, rm, hrm, dec, hdec, rfl⟩,
        trivial, trivial, Randomness.length_of_draw hdraw⟩

namespace Family

variable {f : Family} {p : Protection}

theorem keyedFrom_of_build (h : f.build c = (.ok p, c')) : p.KeyedFrom f c := by
  cases f with
  | aead a =>
    obtain ⟨p', hp, rfl⟩ := map_eq_ok.mp (Prod.mk.inj h).1
    obtain ⟨he, hd⟩ := AeadProtection.of_new hp
    exact ⟨⟨AeadDirection.ready_of he, AeadDirection.ready_of hd⟩,
      congrArg (Direction.aead <$> ·) he, congrArg (Direction.aead <$> ·) hd⟩
  | block v a =>
    obtain ⟨p', hp, rfl⟩ := map_eq_ok.mp (Prod.mk.inj h).1
    obtain ⟨he, hd, hextra, hlong, hscratch⟩ := BlockProtection.of_new (Prod.ext hp rfl)
    obtain ⟨hme, hve⟩ := BlockDirection.ready_of he
    obtain ⟨hmd, hvd⟩ := BlockDirection.ready_of hd
    have hle : p'.encoder.maxPadding ≤ p'.encoder.paddingLimit := by
      have hmax := BlockProtection.maxPadding_le hve
      rw [← hextra] at hmax
      exact hmax
    exact ⟨⟨⟨hme, hle⟩, hmd, hscratch, by rw [hvd, hlong]⟩,
      congrArg (Direction.block <$> ·) he, congrArg (Direction.block <$> ·) hd⟩
  | null a =>
    obtain ⟨p', hp, rfl⟩ := map_eq_ok.mp (Prod.mk.inj h).1
    obtain ⟨he, hd⟩ := NullProtection.of_new hp
    exact ⟨⟨NullDirection.ready_of he, NullDirection.ready_of hd⟩,
      congrArg (Direction.null <$> ·) he, congrArg (Direction.null <$> ·) hd⟩
  | passthrough =>
    obtain rfl := Except.ok.inj (Prod.mk.inj h).1
    have hready : NullDirection.passthrough.Ready := ⟨by rintro m ⟨⟩, fun _ => rfl⟩
    exact ⟨⟨hready, hready⟩, rfl, rfl⟩
  | integrity hash =>
    obtain ⟨p', hp, rfl⟩ := map_eq_ok.mp (Prod.mk.inj h).1
    obtain ⟨he, hd⟩ := IntegrityProtection.of_new hp
    exact ⟨⟨IntegrityDirection.ready_derive he, IntegrityDirection.ready_derive hd⟩,
      congrArg (Direction.integrity <$> ·) he, congrArg (Direction.integrity <$> ·) hd⟩

theorem reading_eq_writing {q : Protection} (h : c.Opposite d) (hp : f.build c = (.ok p, c'))
    (hq : f.build d = (.ok q, d')) : q.reading = p.writing := by
  have hw := (keyedFrom_of_build hp).writing
  have hr := (keyedFrom_of_build hq).reading
  rw [direction_congr h, h.role, Role.peer_peer, h.id, hw] at hr
  exact (Except.ok.inj hr).symm

theorem id_of_direction {x : Direction} (h : f.direction c owner id = .ok x) :
    x.id = id ∨ x.id = [] := by
  cases f with
  | aead a =>
    obtain ⟨x, hx, rfl⟩ := map_eq_ok.mp h
    exact Or.inl (AeadDirection.fields_of hx).1
  | block v a =>
    simp only [direction, BlockDirection.of, map_eq_ok, bind_eq_ok, pure_eq_ok] at h
    obtain ⟨x, ⟨keys, -, mac, -, cbc, -, rfl⟩, rfl⟩ := h
    exact Or.inl rfl
  | null a =>
    simp only [direction, NullDirection.of, map_eq_ok, bind_eq_ok, pure_eq_ok] at h
    obtain ⟨x, ⟨keys, -, mac, -, rfl⟩, rfl⟩ := h
    exact Or.inl rfl
  | passthrough =>
    obtain rfl := Except.ok.inj h
    exact Or.inr rfl
  | integrity hash =>
    obtain ⟨x, -, rfl⟩ := map_eq_ok.mp h
    exact Or.inr rfl

theorem hidesTypes_of_build (h : f.build c = (.ok p, c')) (hi : p.writing.inner = true) :
    c.HidesTypes := by
  have hw := (keyedFrom_of_build h).writing
  have hid (x : Bytes) (hx : x = c.params.peerId ∨ x = []) (hne : (!x.isEmpty) = true) :
      c.HidesTypes := by
    rcases hx with rfl | rfl
    · exact Or.inr (by rintro h; rw [h] at hne; cases hne)
    · cases hne
  cases f with
  | aead a =>
    obtain ⟨x, hx, hxw⟩ := map_eq_ok.mp hw
    obtain ⟨hxid, hx13⟩ := AeadDirection.fields_of hx
    rw [← hxw] at hi
    rcases Bool.or_eq_true_iff.mp hi with h13 | hne
    · exact Or.inl (hx13 ▸ h13)
    · exact hid x.id (Or.inl hxid) hne
  | block v a =>
    obtain ⟨x, hx, hxw⟩ := map_eq_ok.mp hw
    have hx := id_of_direction hw
    rw [← hxw] at hi hx
    exact hid _ hx hi
  | null a =>
    obtain ⟨x, hx, hxw⟩ := map_eq_ok.mp hw
    have hx := id_of_direction hw
    rw [← hxw] at hi hx
    exact hid _ hx hi
  | passthrough =>
    obtain rfl := Except.ok.inj (Prod.mk.inj h).1
    cases hi
  | integrity hash =>
    obtain ⟨p', hp, -⟩ := map_eq_ok.mp (Prod.mk.inj h).1
    unfold IntegrityProtection.new at hp
    split at hp
    · cases hp
    · rename_i hv
      exact Or.inl (by simpa using hv)

def ofSuite (v : Version) (s : CipherSuite) : Family :=
  match s.bulk, Protection.macOf v s.mac with
  | .null, .null => passthrough
  | .null, a => null a
  | .block k, a => block k a
  | .aead a, _ => aead a
  | .integrity h, _ => integrity h

end Family

theorem Protection.ofSuite_eq_build {s : CipherSuite} (h13 : s.isTls13 = c.version.isTls13) :
    ofSuite c s = (Family.ofSuite c.version s).build c := by
  unfold ofSuite Family.ofSuite
  rw [if_neg (fun hne => hne h13)]
  cases s.bulk with
  | null => cases macOf c.version s.mac <;> rfl
  | block k | aead a | integrity hash => rfl

theorem Protection.isTls13_of_suite {suite : CipherSuite} {p : Protection} {c' : Context}
    (h : ofSuite c suite = (.ok p, c')) : suite.isTls13 = c.version.isTls13 := by
  unfold ofSuite at h
  split at h
  · cases (Prod.mk.inj h).1
  · rename_i hsame
    exact Decidable.not_not.mp hsame

theorem Family.build_ofSuite {p : Protection} {s : CipherSuite}
    (h : Protection.ofSuite c s = (.ok p, c')) : (ofSuite c.version s).build c = (.ok p, c') :=
  (Protection.ofSuite_eq_build (Protection.isTls13_of_suite h)).symm.trans h

/-- How a protection is built: by the suite, or directly. -/
inductive Plan
  | suite (s : CipherSuite)
  | family (f : Family)

namespace Plan

def build (c : Context) : Plan → Except RecordError Protection × Context
  | suite s => Protection.ofSuite c s
  | family f => f.build c

def resolve (v : Version) : Plan → Family
  | suite s => .ofSuite v s
  | family f => f

theorem build_resolve {plan : Plan} {p : Protection} (h : plan.build c = (.ok p, c')) :
    (plan.resolve c.version).build c = (.ok p, c') := by
  cases plan with
  | suite s => exact Family.build_ofSuite h
  | family f => exact h

theorem build_block {v : Aes.Variant} {a : MacAlgorithm} {p : BlockProtection}
    (h : BlockProtection.new c v a = (.ok p, c')) :
    build c (.family (.block v a)) = (.ok (.block p), c') := by
  rw [build, Family.build, h]
  rfl

theorem exists_integrity {h : Hash} {n : Nat} (hs : c.HasTrafficSecrets n)
    (hsup : Hkdf.supports h = true) (hn : h.size ≤ n) (hv : c.version.isTls13 = true) :
    ∃ p : IntegrityProtection, build c (.family (.integrity h)) = (.ok (.integrity p), c) ∧
      p.encoder.Ready := by
  obtain ⟨p, hp⟩ := IntegrityProtection.exists_new hs hsup hn hv
  have hbuild : build c (.family (.integrity h)) = (.ok (.integrity p), c) :=
    Prod.ext (map_eq_ok.mpr ⟨p, hp, rfl⟩) rfl
  exact ⟨p, hbuild, (Family.keyedFrom_of_build (build_resolve hbuild)).ready.1⟩

end Plan

namespace Protection

variable {p q : Protection}

/-- What `p` writes over the context `c` is what `q` reads. -/
structure Matched (c : Context) (p q : Protection) : Prop where
  ready : p.Ready
  ready_peer : q.Ready
  sameKeys : p.writing.SameKeys q.reading
  id : p.writing.id = c.params.peerId ∨ p.writing.id = []
  hidesTypes : p.writing.inner = true → c.HidesTypes

/-- Two ends that are built alike match, whatever they are used for. -/
theorem matched_of_build {plan : Plan} (hcd : c.Opposite d) (hp : plan.build c = (.ok p, c'))
    (hq : plan.build d = (.ok q, d')) (calls calls' : List Call) :
    Matched c (p.afterAll calls) (q.afterAll calls') := by
  have hversion : d.version = c.version := hcd.version
  have hp' := Plan.build_resolve hp
  have hq' := Plan.build_resolve hq
  rw [hversion] at hq'
  have hw := Family.keyedFrom_of_build hp'
  have hr := Family.keyedFrom_of_build hq'
  obtain ⟨hrp, hkp, -⟩ := hw.ready.afterAll calls
  obtain ⟨hrq, -, hkq⟩ := hr.ready.afterAll calls'
  refine ⟨hrp, hrq, ?_, ?_, ?_⟩
  · rw [Family.reading_eq_writing hcd hp' hq'] at hkq
    exact hkp.symm.trans hkq
  · rw [hkp.id_eq]
    exact Family.id_of_direction hw.writing
  · intro hi
    rw [hkp.inner_eq] at hi
    exact Family.hidesTypes_of_build hp' hi

theorem Matched.holds (h : Matched c p q) (hid : AdditionalData.Holds c.params.peerId) :
    AdditionalData.Holds p.writing.id := by
  rcases h.id with hw | hw
  · exact hw ▸ hid
  · rw [hw]
    decide

end Protection

end RecordLayer
