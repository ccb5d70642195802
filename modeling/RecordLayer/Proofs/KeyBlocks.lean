import RecordLayer.Proofs.Rekeying

/-! # Who holds which keys

Before traffic secrets came into use, one key block is cut into parts for both ends: each part
belongs to the end that writes with it. Under traffic secrets each end has a secret of its own.
-/

namespace RecordLayer

open Aes (Block)

variable {c c' : Context} {owner r : Role} {v : Version} {h : Hash} {f : Family} {p : Protection}
  {id secret data clientRandom serverRandom : Bytes}

structure KeySizes where
  mac : Nat
  key : Nat
  iv : Nat

namespace KeyBlock

def bytes (b : KeyBlock) : Bytes :=
  b.clientMac ++ b.serverMac ++ b.clientKey ++ b.serverKey ++ b.clientIv ++ b.serverIv

theorem bytes_of_split {macSize keySize ivSize : Nat} {b : KeyBlock}
    (h : split? macSize keySize ivSize data = some b)
    (hlen : data.length = size macSize keySize ivSize) : b.bytes = data := by
  unfold size at hlen
  have hshort : ¬ data.length < size macSize keySize ivSize := by unfold size; omega
  simp only [split?, if_neg hshort, List.splitAt_eq, Option.some.injEq] at h
  subst h
  have hlast : (((((data.drop macSize).drop macSize).drop keySize).drop keySize).drop ivSize).take
      ivSize = ((((data.drop macSize).drop macSize).drop keySize).drop keySize).drop ivSize := by
    apply List.take_of_length_le
    simp only [List.length_drop]
    omega
  simp only [bytes, hlast, List.append_assoc, List.take_append_drop]

end KeyBlock

namespace Family

def keySizes (v : Version) : Family → KeySizes
  | aead a => ⟨0, a.keySize, (AeadProtection.modeOf false a).fixedIvSize⟩
  | block k a => ⟨a.size, k.keySize, if v.hasExplicitIv then 0 else Block.size⟩
  | null a => ⟨a.size, 0, 0⟩
  | passthrough | integrity _ => ⟨0, 0, 0⟩

theorem keyBlock_size_le (f : Family) (v : Version) :
    KeyBlock.size (f.keySizes v).mac (f.keySizes v).key (f.keySizes v).iv ≤ Prf.ssl3Limit := by
  unfold KeyBlock.size Prf.ssl3Limit
  cases f with
  | aead a =>
    have hkey := a.keySize_le
    have hiv := (AeadProtection.modeOf false a).fixedIvSize_le
    simp only [keySizes]
    omega
  | block k a =>
    have hkey : k.keySize ≤ 32 := by cases k <;> decide
    have hsize := a.size_le
    simp only [keySizes, Block.size]
    split <;> omega
  | null a =>
    have hsize := a.size_le
    simp only [keySizes]
    omega
  | passthrough | integrity _ =>
    simp only [keySizes]
    omega

end Family

/-- The direction works with the keys. With a random block ahead of each record its chain starts at
zero. -/
inductive Direction.Holds (v : Version) (keys : DirectionKeys) : Family → Direction → Prop
  | aead {a : AeadAlgorithm} {aead : Aead} {id : Bytes}
    (haead : Aead.keyed a keys.key = .ok aead) :
    Holds v keys (.aead a) (.aead ⟨false, AeadProtection.modeOf false a, aead, keys.iv, id⟩)
  | block {k : Aes.Variant} {a : MacAlgorithm} {mac : Mac} {chain : Block} {truncated : Bool}
    {id : Bytes} {encryptThenMac : Bool} (hmac : Mac.keyed a keys.mac = .ok mac)
    (hchain : chain.bytes = if v.hasExplicitIv then Bytes.zeros Block.size else keys.iv) :
    Holds v keys (.block k a) (.block ⟨⟨k, Aes.Key.expand k keys.key, chain⟩,
      RecordMac.new v truncated mac, id, encryptThenMac, v.hasExplicitIv⟩)
  | null {a : MacAlgorithm} {mac : Mac} {truncated : Bool} {id : Bytes}
    (hmac : Mac.keyed a keys.mac = .ok mac) :
    Holds v keys (.null a) (.null ⟨some (RecordMac.new v truncated mac), id⟩)

theorem Cbc.keyed_eq_ok {k : Aes.Variant} {key iv : Bytes} {s : Cbc} (h : keyed k key iv = .ok s) :
    ∃ chain, chain.bytes = iv ∧ s = ⟨k, Aes.Key.expand k key, chain⟩ := by
  unfold keyed at h
  split at h
  · cases h
  · split at h
    · cases h
    · rename_i hiv
      exact ⟨Block.ofBytes iv, Block.bytes_ofBytes (Decidable.not_not.mp hiv),
        (Except.ok.inj h).symm⟩

theorem Family.holds_of_direction {x : Direction} {b : KeyBlock}
    (hk : ∀ missing, c.keyBlock missing (f.keySizes c.version).mac (f.keySizes c.version).key
      (f.keySizes c.version).iv = .ok b) (h12 : c.version.isTls13 = false)
    (hf : f ≠ .passthrough) (hi : ∀ hash, f ≠ .integrity hash)
    (hx : f.direction c owner id = .ok x) : x.Holds c.version (b.keysOf owner) f := by
  cases f with
  | aead a =>
    simp only [direction, AeadDirection.of, h12, Bool.false_eq_true, if_false, map_eq_ok,
      bind_eq_ok, pure_eq_ok, forRecord_eq_ok] at hx
    obtain ⟨_, ⟨keys, hkeys, aead, haead, rfl⟩, rfl⟩ := hx
    obtain rfl := Except.ok.inj (hkeys.symm.trans (hk _))
    exact .aead haead
  | block k a =>
    simp only [direction, BlockDirection.of, map_eq_ok, bind_eq_ok, pure_eq_ok,
      forRecord_eq_ok] at hx
    obtain ⟨_, ⟨keys, hkeys, mac, hmac, cbc, hcbc, rfl⟩, rfl⟩ := hx
    obtain rfl := Except.ok.inj (hkeys.symm.trans (hk _))
    obtain ⟨chain, hchain, rfl⟩ := Cbc.keyed_eq_ok hcbc
    exact .block hmac hchain
  | null a =>
    simp only [direction, NullDirection.of, map_eq_ok, bind_eq_ok, pure_eq_ok,
      forRecord_eq_ok] at hx
    obtain ⟨_, ⟨keys, hkeys, mac, hmac, rfl⟩, rfl⟩ := hx
    obtain rfl := Except.ok.inj (hkeys.symm.trans (hk _))
    exact .null hmac
  | passthrough => exact absurd rfl hf
  | integrity hash => exact absurd rfl (hi hash)

/-- The context of the end `r`, with what both ends know. -/
structure Context.Negotiated (c : Context) (r : Role) (v : Version) (h : Hash)
    (clientRandom serverRandom : Bytes) : Prop where
  role : c.role = r
  version : c.params.version = v
  prfHash : c.params.prfHash = h
  clientRandom : c.params.clientRandom = clientRandom
  serverRandom : c.params.serverRandom = serverRandom

theorem Context.Negotiated.keyBlock_eq_ok
    (hc : c.Negotiated r v h clientRandom serverRandom) (hm : c.master = some (.new secret))
    {macSize keySize ivSize : Nat} {b : KeyBlock}
    (hdata : (Prf.ofVersion v h).keyBlock secret clientRandom serverRandom
      (KeyBlock.size macSize keySize ivSize) = .ok data)
    (hb : KeyBlock.split? macSize keySize ivSize data = some b) (missing : String) :
    c.keyBlock missing macSize keySize ivSize = .ok b := by
  obtain ⟨-, rfl, rfl, rfl, rfl⟩ := hc
  simp only [keyBlock, hm, bind_eq_ok, forRecord_eq_ok, Secret.keyBlock, Secret.read, Secret.new]
  exact ⟨data, ⟨secret, rfl, hdata⟩, by rw [hb]; rfl⟩

theorem Family.ne_integrity_of_build (hp : f.build c = (.ok p, c'))
    (h12 : c.version.isTls13 = false) (hash : Hash) : f ≠ .integrity hash := by
  rintro rfl
  have h13 := isTls13_of_cipher? hp rfl
  rw [h12] at h13
  cases h13

theorem Context.Negotiated.holds (hc : c.Negotiated r v h clientRandom serverRandom)
    {b : KeyBlock} (hk : ∀ missing, c.keyBlock missing (f.keySizes v).mac (f.keySizes v).key
      (f.keySizes v).iv = .ok b) (h12 : v.isTls13 = false) (hf : f ≠ .passthrough)
    (hp : f.build c = (.ok p, c')) :
    p.writing.Holds v (b.keysOf r) f ∧ p.reading.Holds v (b.keysOf r.peer) f := by
  obtain ⟨rfl, rfl, -, -, -⟩ := hc
  have hi := Family.ne_integrity_of_build hp h12
  obtain ⟨-, hw, hr⟩ := Family.keyedFrom_of_build hp
  exact ⟨Family.holds_of_direction hk h12 hf hi hw, Family.holds_of_direction hk h12 hf hi hr⟩

theorem Context.Negotiated.derived (hc : c.Negotiated r v h clientRandom serverRandom)
    {bulk : BulkCipher} (hp : f.build c = (.ok p, c')) (hbulk : f.cipher? v = some bulk)
    (secret : Bytes) : (c.trafficSecret r = some (.new secret) →
      p.writing.DerivedFrom v h secret c.params.peerId bulk) ∧
    (c.trafficSecret r.peer = some (.new secret) →
      p.reading.DerivedFrom v h secret c.params.localId bulk) := by
  obtain ⟨rfl, rfl, rfl, -, -⟩ := hc
  have hd := Protection.derive_of_build hp ((Family.cipher?_of_build hp).trans hbulk)
  exact ⟨fun hs => BulkCipher.derivedFrom_of_derive hs (hd .write),
    fun hs => BulkCipher.derivedFrom_of_derive hs (hd .read)⟩

theorem Family.exists_cipher? (hp : f.build c = (.ok p, c')) (h13 : c.version.isTls13 = true)
    (hf : f ≠ .passthrough) : ∃ bulk, f.cipher? c.version = some bulk := by
  cases f with
  | aead a => exact ⟨.aead a, if_pos h13⟩
  | integrity hash => exact ⟨.integrity hash, rfl⟩
  | passthrough => exact absurd rfl hf
  | block k a =>
    simp only [build, BlockProtection.new, if_pos h13] at hp
    cases (Prod.mk.inj hp).1
  | null a =>
    obtain ⟨q, hq, -⟩ := map_eq_ok.mp (Prod.mk.inj hp).1
    simp only [NullProtection.new, if_pos h13] at hq
    cases hq

variable {plan : Plan} {contexts : Role → Context} {ends : Role → Protection}

/-- Each end writes with keys of its own, with which its peer reads. They are parts of one key block
that do not overlap, or come from the traffic secret of the end that writes. -/
theorem key_separation (hc : ∀ r, (contexts r).Negotiated r v h clientRandom serverRandom)
    (hends : ∀ r, ∃ c', plan.build (contexts r) = (.ok (ends r), c'))
    (hplan : plan.resolve v ≠ .passthrough) :
    let f := plan.resolve v
    let sizes := f.keySizes v
    (v.isTls13 = false → ∀ secret, (∀ r, (contexts r).master = some (.new secret)) →
      ∃ data clientMac serverMac clientKey serverKey clientIv serverIv : Bytes,
        (Prf.ofVersion v h).keyBlock secret clientRandom serverRandom
          (2 * sizes.mac + 2 * sizes.key + 2 * sizes.iv) = .ok data ∧
        data = clientMac ++ serverMac ++ clientKey ++ serverKey ++ clientIv ++ serverIv ∧
        clientMac.length = sizes.mac ∧ serverMac.length = sizes.mac ∧
        clientKey.length = sizes.key ∧ serverKey.length = sizes.key ∧
        clientIv.length = sizes.iv ∧ serverIv.length = sizes.iv ∧
        (ends .client).writing.Holds v ⟨clientMac, clientKey, clientIv⟩ f ∧
        (ends .server).reading.Holds v ⟨clientMac, clientKey, clientIv⟩ f ∧
        (ends .server).writing.Holds v ⟨serverMac, serverKey, serverIv⟩ f ∧
        (ends .client).reading.Holds v ⟨serverMac, serverKey, serverIv⟩ f) ∧
    (v.isTls13 = true → ∃ bulk, f.cipher? v = some bulk ∧
      (∀ secret, (∀ r, (contexts r).clientTraffic = some (.new secret)) →
        (ends .client).writing.DerivedFrom v h secret (contexts .client).params.peerId bulk ∧
        (ends .server).reading.DerivedFrom v h secret (contexts .server).params.localId bulk) ∧
      ∀ secret, (∀ r, (contexts r).serverTraffic = some (.new secret)) →
        (ends .server).writing.DerivedFrom v h secret (contexts .server).params.peerId bulk ∧
        (ends .client).reading.DerivedFrom v h secret (contexts .client).params.localId bulk) := by
  intro f sizes
  have hv (r : Role) : (contexts r).version = v := (hc r).version
  have hbuild (r : Role) : ∃ c', f.build (contexts r) = (.ok (ends r), c') := by
    obtain ⟨c', hb⟩ := hends r
    exact ⟨c', by rw [← Plan.build_resolve hb, hv r]⟩
  constructor
  · intro h12 secret hm
    obtain ⟨data, hdata, hlen⟩ := Prf.exists_keyBlock (Version.prf_ne_tls13 h12 h) secret
      clientRandom serverRandom (f.keyBlock_size_le v)
    obtain ⟨b, hb, hlengths⟩ := KeyBlock.exists_split hlen
    obtain ⟨hclientMac, hclientKey, hclientIv⟩ := hlengths .client
    obtain ⟨hserverMac, hserverKey, hserverIv⟩ := hlengths .server
    have hholds (r : Role) : (ends r).writing.Holds v (b.keysOf r) f ∧
        (ends r).reading.Holds v (b.keysOf r.peer) f := by
      obtain ⟨_, hp⟩ := hbuild r
      exact (hc r).holds ((hc r).keyBlock_eq_ok (hm r) hdata hb) h12 hplan hp
    exact ⟨data, b.clientMac, b.serverMac, b.clientKey, b.serverKey, b.clientIv, b.serverIv, hdata,
      (KeyBlock.bytes_of_split hb hlen).symm, hclientMac, hserverMac, hclientKey, hserverKey,
      hclientIv, hserverIv, (hholds .client).1, (hholds .server).2, (hholds .server).1,
      (hholds .client).2⟩
  · intro h13
    obtain ⟨_, hp⟩ := hbuild .client
    obtain ⟨bulk, hbulk⟩ := Family.exists_cipher? hp ((hv .client).symm ▸ h13) hplan
    rw [hv] at hbulk
    have hderived (owner : Role) (secret : Bytes)
        (hsecret : ∀ r, (contexts r).trafficSecret owner = some (.new secret)) :
        (ends owner).writing.DerivedFrom v h secret (contexts owner).params.peerId bulk ∧
          (ends owner.peer).reading.DerivedFrom v h secret (contexts owner.peer).params.localId
            bulk := by
      obtain ⟨_, hw⟩ := hbuild owner
      obtain ⟨_, hr⟩ := hbuild owner.peer
      obtain ⟨hwriting, -⟩ := (hc owner).derived hw hbulk secret
      obtain ⟨-, hreading⟩ := (hc owner.peer).derived hr hbulk secret
      rw [Role.peer_peer] at hreading
      exact ⟨hwriting (hsecret owner), hreading (hsecret owner.peer)⟩
    exact ⟨bulk, hbulk, hderived .client, hderived .server⟩

theorem key_separation_tls10 :
    let f : Family := .block .aes128 (.hmac .sha1)
    let contexts (r : Role) : Context :=
      ⟨r, { version := .tls10 }, some (.new (Bytes.zeros 48)), none, none, .ofSeed 0⟩
    ∃ (ends : Role → Protection)
        (clientMac serverMac clientKey serverKey clientIv serverIv : Bytes),
      (∀ r, ∃ c', f.build (contexts r) = (.ok (ends r), c')) ∧
      (Prf.ofVersion .tls10 .sha256).keyBlock (Bytes.zeros 48) (Bytes.zeros 32) (Bytes.zeros 32)
        104 = .ok (clientMac ++ serverMac ++ clientKey ++ serverKey ++ clientIv ++ serverIv) ∧
      clientMac.length = 20 ∧ clientKey.length = 16 ∧ clientIv.length = 16 ∧
      (ends .client).writing.Holds .tls10 ⟨clientMac, clientKey, clientIv⟩ f ∧
      (ends .server).reading.Holds .tls10 ⟨clientMac, clientKey, clientIv⟩ f ∧
      (ends .server).writing.Holds .tls10 ⟨serverMac, serverKey, serverIv⟩ f ∧
      (ends .client).reading.Holds .tls10 ⟨serverMac, serverKey, serverIv⟩ f := by
  intro f contexts
  have hc (r : Role) :
      (contexts r).Negotiated r .tls10 .sha256 (Bytes.zeros 32) (Bytes.zeros 32) :=
    ⟨rfl, rfl, rfl, rfl, rfl⟩
  have hends (r : Role) : ∃ p c', Plan.build (contexts r) (.family f) = (.ok p, c') := by
    have hmaster : (contexts r).master = some (.new (Bytes.zeros 48)) := rfl
    obtain ⟨p, hp⟩ := BlockProtection.exists_new hmaster ⟨_, rfl, Bytes.length_zeros 48⟩ rfl rfl
      .aes128 .sha1
    exact ⟨_, _, Plan.build_block hp⟩
  obtain ⟨ends, hends⟩ := Classical.skolem.mp hends
  obtain ⟨data, clientMac, serverMac, clientKey, serverKey, clientIv, serverIv, hdata, rfl, hmac, -,
    hkey, -, hiv, -, hholds⟩ := (key_separation hc hends nofun).1 rfl (Bytes.zeros 48) fun _ => rfl
  exact ⟨ends, clientMac, serverMac, clientKey, serverKey, clientIv, serverIv, hends, hdata, hmac,
    hkey, hiv, hholds⟩

end RecordLayer
