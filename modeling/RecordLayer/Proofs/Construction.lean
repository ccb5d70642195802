import RecordLayer.Protection
import RecordLayer.Proofs.KeyDerivation

/-! # Construction

Secrets that are alive and long enough give the keys of every suite, so that protection can be
built from them.
-/

namespace RecordLayer

variable {h : Hash} {secret : Secret} {c : Context} {len n : Nat}

theorem Version.length_labelTag (v : Version) : v.labelTag.length = 6 := by
  rw [labelTag, Bytes.length_ofText]
  split <;> decide

theorem Version.length_labelTag_le (v : Version) : v.labelTag.length ≤ 6 :=
  Nat.le_of_eq v.length_labelTag

theorem Hash.size_le (h : Hash) : h.size ≤ 64 := by cases h <;> decide

theorem AeadAlgorithm.keySize_le (a : AeadAlgorithm) : a.keySize ≤ 64 := by cases a <;> decide

theorem NonceMode.fixedIvSize_le (m : NonceMode) : m.fixedIvSize ≤ 12 := by cases m <;> decide

namespace Prf

variable {f : Prf} {mac : Mac} {seed a data : Bytes}

theorem length_flatten_expandBlocks (hm : mac.Fresh) (seed a : Bytes) (n : Nat) :
    (expandBlocks seed n mac a).flatten.length = n * mac.template.hash.size := by
  induction n generalizing mac a with
  | zero => simp [expandBlocks]
  | succ n ih =>
    have hblock : (((mac.update a).update seed).finish.1).length = mac.template.hash.size := by
      have hcur : mac.current = mac.template := hm
      refine (NestedDigest.length_finish _).trans ?_
      change mac.current.hash.size = _
      rw [hcur]
    rw [expandBlocks, List.flatten_cons, List.length_append, hblock, Nat.succ_mul, Nat.add_comm]
    exact congrArg (· + mac.template.hash.size) (ih (Mac.fresh_reset _) _)

theorem length_expand (h : Hash) (secret seed : Bytes) (len : Nat) :
    (expand h secret seed len).length = len := by
  have hpos : 0 < h.size := by cases h <;> decide
  rw [expand, List.length_take, Mac.finish, length_flatten_expandBlocks (Mac.fresh_reset _)]
  exact Nat.min_eq_left (le_pieceCount_mul hpos)

theorem exists_keyBlock (hf : ∀ h, f ≠ .tls13 h) (secret clientRandom serverRandom : Bytes)
    (hlen : len ≤ ssl3Limit) :
    ∃ data, f.keyBlock secret clientRandom serverRandom len = .ok data ∧ data.length = len := by
  cases f with
  | ssl3 =>
    refine ⟨_, if_neg (Nat.not_lt.mpr hlen), ?_⟩
    have hround (x : Bytes) : (Hash.md5.digest x).length = 16 := Hash.length_digest _ _
    have hle : len ≤ pieceCount 16 len * 16 := le_pieceCount_mul (by decide)
    simp only [List.length_take, List.length_flatMap, hround, List.map_const', List.length_range,
      List.sum_replicate_nat]
    exact Nat.min_eq_left hle
  | tls10 =>
    refine ⟨_, rfl, ?_⟩
    rw [Bytes.length_xor, length_expand, length_expand, Nat.min_self]
  | tls12 h => exact ⟨_, rfl, length_expand ..⟩
  | tls13 h => exact absurd rfl (hf h)

end Prf

theorem Version.prf_ne_tls13 {v : Version} (hv : v.isTls13 = false) (h h' : Hash) :
    Prf.ofVersion v h ≠ .tls13 h' := by
  unfold Prf.ofVersion
  rw [hv]
  split
  · rintro ⟨⟩
  · split
    · rename_i hn
      cases hn
    · split <;> rintro ⟨⟩

theorem KeyBlock.lengths_of_split {macSize keySize ivSize : Nat} {data : Bytes} {b : KeyBlock}
    (h : split? macSize keySize ivSize data = some b) (r : Role) :
    (b.keysOf r).mac.length = macSize ∧ (b.keysOf r).key.length = keySize ∧
      (b.keysOf r).iv.length = ivSize := by
  simp only [split?, List.splitAt_eq] at h
  split at h
  · cases h
  · rename_i hlen
    obtain rfl := Option.some.inj h
    unfold size at hlen
    cases r with
    | client =>
      simp only [keysOf, List.length_take, List.length_drop]
      omega
    | server =>
      simp only [keysOf, List.length_take, List.length_drop]
      omega

theorem KeyBlock.exists_split {macSize keySize ivSize : Nat} {data : Bytes}
    (hlen : data.length = size macSize keySize ivSize) :
    ∃ b, split? macSize keySize ivSize data = some b ∧ ∀ r, (b.keysOf r).mac.length = macSize ∧
      (b.keysOf r).key.length = keySize ∧ (b.keysOf r).iv.length = ivSize := by
  have hsplit : ∃ b, split? macSize keySize ivSize data = some b :=
    ⟨_, if_neg (Nat.not_lt.mpr (Nat.le_of_eq hlen.symm))⟩
  obtain ⟨b, hb⟩ := hsplit
  exact ⟨b, hb, lengths_of_split hb⟩

theorem Context.lengths_of_keyBlock {macSize keySize ivSize : Nat} {missing : String}
    {b : KeyBlock} (h : c.keyBlock missing macSize keySize ivSize = .ok b) (r : Role) :
    (b.keysOf r).mac.length = macSize ∧ (b.keysOf r).key.length = keySize ∧
      (b.keysOf r).iv.length = ivSize := by
  unfold keyBlock at h
  split at h
  · cases h
  · obtain ⟨data, -, hsplit⟩ := bind_eq_ok.mp h
    split at hsplit
    · rename_i b' hb
      obtain rfl := pure_eq_ok.mp hsplit
      exact KeyBlock.lengths_of_split hb r
    · cases hsplit

theorem Context.exists_keyBlock {macSize keySize ivSize : Nat} (hm : c.master = some secret)
    (hs : secret.HasSize n) (hv : c.version.isTls13 = false)
    (hlen : KeyBlock.size macSize keySize ivSize ≤ Prf.ssl3Limit) (missing : String) :
    ∃ b, c.keyBlock missing macSize keySize ivSize = .ok b ∧ ∀ r,
      (b.keysOf r).mac.length = macSize ∧ (b.keysOf r).key.length = keySize ∧
        (b.keysOf r).iv.length = ivSize := by
  obtain ⟨material, hmaterial, -⟩ := hs
  obtain ⟨data, hdata, hsize⟩ := Prf.exists_keyBlock
    (Version.prf_ne_tls13 hv c.params.prfHash) material c.params.clientRandom
    c.params.serverRandom hlen
  obtain ⟨b, hb, hlengths⟩ := KeyBlock.exists_split hsize
  refine ⟨b, ?_, hlengths⟩
  simp only [keyBlock, hm, bind_eq_ok, forRecord_eq_ok, Secret.keyBlock, Secret.read, hmaterial]
  exact ⟨data, ⟨material, rfl, hdata⟩, by rw [hb]; rfl⟩

def Context.HasMaster (c : Context) : Prop := ∃ data, c.master = some (.new data)

theorem Context.hasMaster (hm : c.master = some secret) (hs : secret.HasSize n) : c.HasMaster := by
  obtain ⟨material⟩ := secret
  obtain ⟨data, rfl, -⟩ := hs
  exact ⟨data, hm⟩

/-- A key block takes a live master secret and nothing more. -/
theorem Context.exists_keyBlock_iff {macSize keySize ivSize : Nat}
    (hv : c.version.isTls13 = false)
    (hlen : KeyBlock.size macSize keySize ivSize ≤ Prf.ssl3Limit) (missing : String) :
    (∃ b, c.keyBlock missing macSize keySize ivSize = .ok b) ↔ c.HasMaster := by
  constructor
  · rintro ⟨b, hb⟩
    unfold keyBlock at hb
    split at hb
    · cases hb
    · rename_i secret hm
      obtain ⟨_ | data⟩ := secret
      · cases hb
      · exact ⟨data, hm⟩
  · rintro ⟨data, hm⟩
    obtain ⟨b, hb, -⟩ := exists_keyBlock hm ⟨data, rfl, rfl⟩ hv hlen missing
    exact ⟨b, hb⟩

def MacAlgorithm.Keyable : MacAlgorithm → Prop
  | hmac _ | ssl3 .md5 | ssl3 .sha1 => True
  | null | ssl3 _ => False

theorem MacAlgorithm.size_le (a : MacAlgorithm) : a.size ≤ 64 := by
  cases a with
  | null => decide
  | hmac h | ssl3 h => exact h.size_le

theorem Mac.exists_keyed_iff {a : MacAlgorithm} {key : Bytes} :
    (∃ m, keyed a key = .ok m) ↔ a.Keyable := by
  cases a with
  | null => exact iff_of_false (by rintro ⟨_, ⟨⟩⟩) id
  | hmac h => exact iff_of_true ⟨_, rfl⟩ trivial
  | ssl3 h =>
    cases h with
    | md5 | sha1 => exact iff_of_true ⟨_, rfl⟩ trivial
    | sha256 | sha384 | sha512 => exact iff_of_false (by rintro ⟨_, ⟨⟩⟩) id

theorem Cbc.exists_keyed {v : Aes.Variant} {key iv : Bytes} (hk : key.length = v.keySize)
    (hi : iv.length = Aes.Block.size) : ∃ cbc, keyed v key iv = .ok cbc := by
  refine ⟨_, (if_neg (fun hne => hne hk)).trans (if_neg (fun hne => hne hi))⟩

theorem BlockProtection.exists_ofKeyBlock_iff (hv : c.version.isTls13 = false) (v : Aes.Variant)
    (a : MacAlgorithm) (scratch : Bytes) :
    (∃ p, ofKeyBlock c v a scratch = .ok p) ↔ c.HasMaster ∧ a.Keyable := by
  let ivSize := if c.version.hasExplicitIv then 0 else BlockDirection.blockSize
  have hlen : KeyBlock.size a.size v.keySize ivSize ≤ Prf.ssl3Limit := by
    have hkey : v.keySize ≤ 32 := by cases v <;> decide
    have hiv : ivSize ≤ 16 := by
      unfold ivSize
      split <;> decide
    have hsize := a.size_le
    unfold KeyBlock.size Prf.ssl3Limit
    omega
  have hblock := Context.exists_keyBlock_iff hv hlen "CBC cipher requires a master secret"
  simp only [ofKeyBlock, bind_eq_ok, pure_eq_ok, forRecord_eq_ok]
  constructor
  · rintro ⟨_, b, hb, mac, hmac, -⟩
    exact ⟨hblock.mp ⟨b, hb⟩, Mac.exists_keyed_iff.mp ⟨mac, hmac⟩⟩
  · rintro ⟨hmaster, ha⟩
    obtain ⟨b, hb⟩ := hblock.mpr hmaster
    have hcbc (owner : Role) : ∃ cbc, Cbc.keyed v (b.keysOf owner).key
        (if c.version.hasExplicitIv then Bytes.zeros BlockDirection.blockSize
          else (b.keysOf owner).iv) = .ok cbc := by
      obtain ⟨-, hkey, hiv⟩ := Context.lengths_of_keyBlock hb owner
      refine Cbc.exists_keyed hkey ?_
      split
      · exact Bytes.length_zeros _
      · rename_i hx
        exact hiv.trans (if_neg hx)
    obtain ⟨enc, henc⟩ := hcbc c.role
    obtain ⟨dec, hdec⟩ := hcbc c.role.peer
    obtain ⟨write, hwrite⟩ := Mac.exists_keyed_iff.mpr ha
    obtain ⟨read, hread⟩ := Mac.exists_keyed_iff.mpr ha
    exact ⟨_, b, hb, write, hwrite, read, hread, enc, henc, dec, hdec, rfl⟩

theorem BlockProtection.exists_new (hm : c.master = some secret) (hs : secret.HasSize n)
    (hv : c.version.isTls13 = false) {scratch : Bytes} {r : Randomness}
    (hr : c.randomness.draw Padding.maxSize = .ok (scratch, r)) (v : Aes.Variant) (h : Hash) :
    ∃ p, new c v (.hmac h) = (.ok p, { c with randomness := r }) := by
  obtain ⟨p, hp⟩ := (exists_ofKeyBlock_iff hv v (.hmac h) scratch).mpr
    ⟨Context.hasMaster hm hs, trivial⟩
  refine ⟨p, ?_⟩
  simp only [new, hv, hr, hp, Bool.false_eq_true, if_false]

theorem NullProtection.exists_new_iff (c : Context) (a : MacAlgorithm) :
    (∃ p, new c a = .ok p) ↔ c.version.isTls13 = false ∧ c.HasMaster ∧ a.Keyable := by
  cases hv : c.version.isTls13 with
  | true =>
    simp only [new, hv, if_true]
    exact iff_of_false (by rintro ⟨_, ⟨⟩⟩) (by rintro ⟨⟨⟩, -⟩)
  | false =>
    have hlen : KeyBlock.size a.size 0 0 ≤ Prf.ssl3Limit := by
      have hsize := a.size_le
      unfold KeyBlock.size Prf.ssl3Limit
      omega
    have hblock := Context.exists_keyBlock_iff hv hlen "NULL cipher requires a master secret"
    simp only [new, hv, Bool.false_eq_true, if_false, bind_eq_ok, pure_eq_ok, forRecord_eq_ok]
    constructor
    · rintro ⟨_, b, hb, mac, hmac, -⟩
      exact ⟨trivial, hblock.mp ⟨b, hb⟩, Mac.exists_keyed_iff.mp ⟨mac, hmac⟩⟩
    · rintro ⟨-, hmaster, ha⟩
      obtain ⟨b, hb⟩ := hblock.mpr hmaster
      obtain ⟨write, hwrite⟩ := Mac.exists_keyed_iff.mpr ha
      obtain ⟨read, hread⟩ := Mac.exists_keyed_iff.mpr ha
      exact ⟨_, b, hb, write, hwrite, read, hread, rfl⟩

theorem NullProtection.exists_new (hm : c.master = some secret) (hs : secret.HasSize n)
    (hv : c.version.isTls13 = false) (h : Hash) : ∃ p, new c (.hmac h) = .ok p :=
  (exists_new_iff c _).mpr ⟨hv, Context.hasMaster hm hs, trivial⟩

theorem AeadProtection.exists_new_iff_hasMaster (hv : c.version.isTls13 = false)
    (a : AeadAlgorithm) : (∃ p, new c a = .ok p) ↔ c.HasMaster := by
  have hlen : KeyBlock.size 0 a.keySize (modeOf false a).fixedIvSize ≤ Prf.ssl3Limit := by
    have hkey := a.keySize_le
    have hiv := (modeOf false a).fixedIvSize_le
    unfold KeyBlock.size Prf.ssl3Limit
    omega
  have hblock := Context.exists_keyBlock_iff hv hlen "AEAD cipher requires a master secret"
  simp only [new, hv, Bool.false_eq_true, if_false, bind_eq_ok, pure_eq_ok, forRecord_eq_ok]
  constructor
  · rintro ⟨_, b, hb, -⟩
    exact hblock.mp ⟨b, hb⟩
  · intro hmaster
    obtain ⟨b, hb⟩ := hblock.mpr hmaster
    have hkeyed (owner : Role) : ∃ aead, Aead.keyed a (b.keysOf owner).key = .ok aead :=
      ⟨_, if_neg (fun hne => hne (Context.lengths_of_keyBlock hb owner).2.1)⟩
    obtain ⟨enc, henc⟩ := hkeyed c.role
    obtain ⟨dec, hdec⟩ := hkeyed c.role.peer
    exact ⟨_, b, hb, enc, henc, dec, hdec, rfl⟩

theorem Secret.exists_aead (hs : secret.HasSize h.size) (hsup : Hkdf.supports h = true)
    (v : Version) (a : AeadAlgorithm) : ∃ keys aead,
      secret.trafficKeys h v.labelTag a.keySize Aead.nonceSize = .ok keys ∧
        Aead.keyed a keys.key = .ok aead := by
  have hnonce : Aead.nonceSize ≤ 64 := by decide
  obtain ⟨keys, hkeys⟩ := exists_trafficKeys hs hsup (Nat.le_refl _) v.length_labelTag_le
    a.keySize_le hnonce
  exact ⟨keys, _, hkeys, if_neg (fun hne => hne (length_of_trafficKeys hkeys).1)⟩

def Context.HasTrafficSecrets (c : Context) (n : Nat) : Prop :=
  ∀ owner, ∃ secret, c.trafficSecret owner = some secret ∧ secret.HasSize n

theorem Context.hasTrafficSecrets {client server : Secret} (hc : c.clientTraffic = some client)
    (hs : c.serverTraffic = some server) (hclient : client.HasSize n) (hserver : server.HasSize n) :
    c.HasTrafficSecrets n := by
  rintro (_ | _)
  · exact ⟨client, hc, hclient⟩
  · exact ⟨server, hs, hserver⟩

theorem AeadProtection.exists_new (hs : c.HasTrafficSecrets c.params.prfHash.size)
    (hsup : Hkdf.supports c.params.prfHash = true) (hv : c.version.isTls13 = true)
    (a : AeadAlgorithm) : ∃ p, new c a = .ok p := by
  have hderive (owner : Role) (id : Bytes) : ∃ d, AeadDirection.derive c owner a id = .ok d := by
    obtain ⟨secret, hsecret, hsize⟩ := hs owner
    obtain ⟨keys, aead, hkeys, haead⟩ := Secret.exists_aead hsize hsup c.version a
    simp only [AeadDirection.derive, Context.trafficKeys, hsecret, bind_eq_ok, pure_eq_ok,
      forRecord_eq_ok]
    exact ⟨_, keys, hkeys, aead, haead, rfl⟩
  obtain ⟨e, he⟩ := hderive c.role c.params.peerId
  obtain ⟨d, hd⟩ := hderive c.role.peer c.params.localId
  simp only [new, hv, if_true, bind_eq_ok, pure_eq_ok]
  exact ⟨_, e, he, d, hd, rfl⟩

theorem IntegrityProtection.exists_new (hs : c.HasTrafficSecrets n)
    (hsup : Hkdf.supports h = true) (hn : h.size ≤ n) (hv : c.version.isTls13 = true) :
    ∃ p, new c h = .ok p := by
  have hderive (owner : Role) : ∃ d, IntegrityDirection.derive c owner h = .ok d := by
    obtain ⟨secret, hsecret, hsize⟩ := hs owner
    obtain ⟨keys, hkeys⟩ := Secret.exists_trafficKeys hsize hsup hn c.version.length_labelTag_le
      h.size_le h.size_le
    simp only [IntegrityDirection.derive, Context.trafficKeys, hsecret, bind_eq_ok, pure_eq_ok,
      forRecord_eq_ok]
    exact ⟨_, keys, hkeys, rfl⟩
  obtain ⟨e, he⟩ := hderive c.role
  obtain ⟨d, hd⟩ := hderive c.role.peer
  simp only [new, hv, Bool.not_true, Bool.false_eq_true, if_false, bind_eq_ok, pure_eq_ok]
  exact ⟨_, e, he, d, hd, rfl⟩

end RecordLayer
