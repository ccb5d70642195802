import RecordLayer.Proofs.Histories

/-! # Key updates

A traffic secret that follows another one is as long as a digest of the hash in the context.
Authenticated encryption is keyed by that hash, so the next keys are always at hand. Tags alone are
keyed by the hash of the suite, and nothing ties the two together.
-/

namespace RecordLayer

variable {c c' c₀ : Context} {owner : Role} {owners : List Role} {h : Hash}
  {secret : Secret} {n keySize ivSize : Nat} {b : BulkCipher} {p q : Protection} {s : CipherSuite}

namespace Secret

theorem hasSize_unique {m : Nat} (hn : secret.HasSize n) (hm : secret.HasSize m) : n = m := by
  obtain ⟨data, hdata, rfl⟩ := hn
  obtain ⟨data', hdata', rfl⟩ := hm
  rw [hdata] at hdata'
  obtain rfl := Option.some.inj hdata'
  rfl

theorem exists_trafficKeys_iff (v : Version) (hkey : keySize ≤ 64) (hiv : ivSize ≤ 64) :
    (∃ keys, secret.trafficKeys h v.labelTag keySize ivSize = .ok keys) ↔
      ∃ n, secret.HasSize n ∧ Hkdf.supports h = true ∧ h.size ≤ n := by
  constructor
  · rintro ⟨keys, hkeys⟩
    cases hm : secret.material with
    | none => simp [trafficKeys, expandLabel, read, hm, bind, Except.bind] at hkeys
    | some data =>
      have hsize : secret.HasSize data.length := ⟨data, hm, rfl⟩
      exact ⟨data.length, hsize, supports_of_trafficKeys hsize hkeys⟩
  · rintro ⟨n, hsize, hsup, hn⟩
    exact exists_trafficKeys hsize hsup hn v.length_labelTag_le hkey hiv

theorem trafficKeys_of_short (hs : secret.HasSize n) (hsup : Hkdf.supports h = true)
    (hn : n < h.size) (v : Version) (hkey : keySize ≤ 64) :
    secret.trafficKeys h v.labelTag keySize ivSize = .error (.invalidKeyLength h.size n) := by
  obtain ⟨data, hm, rfl⟩ := hs
  have hfit : keySize ≤ 65535 ∧ (v.labelTag ++ Bytes.ofText "key").length ≤ 255 ∧
      ([] : Bytes).length ≤ 255 := by
    have htag := v.length_labelTag_le
    have htext : (Bytes.ofText "key").length = 3 := Bytes.length_ofText "key"
    refine ⟨by omega, ?_, Nat.zero_le _⟩
    rw [List.length_append]
    omega
  have hexpand : secret.expandLabel h v.labelTag (Bytes.ofText "key") [] keySize =
      .error (.invalidKeyLength h.size data.length) := by
    simp only [expandLabel, read, hm, ok_bind, Hkdf.expandLabel, Hkdf.labelInfo?, if_pos hfit,
      if_pos hsup, Hkdf.expand, if_pos hn]
    rfl
  rw [trafficKeys, hexpand]
  rfl

end Secret

namespace BulkCipher

/-- A secret of `n` bytes under the hash `h` of a context keys the cipher. -/
def Fits (h : Hash) (n : Nat) : BulkCipher → Prop
  | aead _ => Hkdf.supports h = true ∧ h.size ≤ n
  | integrity hash => Hkdf.supports hash = true ∧ hash.size ≤ n
  | null | block _ => False

theorem fits_size_iff (hsup : Hkdf.supports h = true) : b.Fits h h.size ↔ b.keyedBy h = true := by
  cases b with
  | aead a => exact iff_of_true ⟨hsup, Nat.le_refl _⟩ rfl
  | integrity hash => simp [Fits, keyedBy]
  | null | block _ => exact iff_of_false id (by rintro ⟨⟩)

end BulkCipher

namespace Context

def Keys (c : Context) (owner : Role) (b : BulkCipher) : Prop :=
  ∃ secret n, c.trafficSecret owner = some secret ∧ secret.HasSize n ∧ b.Fits c.params.prfHash n

theorem exists_trafficKeys_iff (missing : String) (hkey : keySize ≤ 64) (hiv : ivSize ≤ 64) :
    (∃ keys, c.trafficKeys missing owner h keySize ivSize = .ok keys) ↔
      ∃ secret n, c.trafficSecret owner = some secret ∧ secret.HasSize n ∧
        Hkdf.supports h = true ∧ h.size ≤ n := by
  unfold trafficKeys
  cases hs : c.trafficSecret owner with
  | none => exact iff_of_false (by rintro ⟨_, ⟨⟩⟩) (by rintro ⟨_, _, ⟨⟩, -⟩)
  | some secret => simp [forRecord_eq_ok, Secret.exists_trafficKeys_iff c.version hkey hiv]

theorem length_of_trafficKeys {missing : String} {keys : TrafficKeys}
    (hkeys : c.trafficKeys missing owner h keySize ivSize = .ok keys) :
    keys.key.length = keySize := by
  unfold trafficKeys at hkeys
  split at hkeys
  · cases hkeys
  · exact (Secret.length_of_trafficKeys (forRecord_eq_ok.mp hkeys)).1

theorem exists_derive_iff (id : Bytes) :
    (∃ d, b.derive c owner id = .ok d) ↔ c.Keys owner b := by
  cases b with
  | aead a =>
    have hnonce : Aead.nonceSize ≤ 64 := by decide
    refine Iff.trans ?_ (exists_trafficKeys_iff "TLS 1.3 cipher requires a traffic secret"
      a.keySize_le hnonce)
    simp only [BulkCipher.derive, AeadDirection.derive, map_eq_ok, bind_eq_ok, pure_eq_ok,
      forRecord_eq_ok]
    constructor
    · rintro ⟨_, _, ⟨keys, hkeys, -⟩, -⟩
      exact ⟨keys, hkeys⟩
    · rintro ⟨keys, hkeys⟩
      have hlen : ¬ keys.key.length ≠ a.keySize := fun hne => hne (length_of_trafficKeys hkeys)
      exact ⟨_, _, ⟨keys, hkeys, _, if_neg hlen, rfl⟩, rfl⟩
  | integrity hash =>
    refine Iff.trans ?_ (exists_trafficKeys_iff
      "integrity-only cipher requires a traffic secret" hash.size_le hash.size_le)
    simp only [BulkCipher.derive, IntegrityDirection.derive, map_eq_ok, bind_eq_ok, pure_eq_ok]
    constructor
    · rintro ⟨_, _, ⟨keys, hkeys, -⟩, -⟩
      exact ⟨keys, hkeys⟩
    · rintro ⟨keys, hkeys⟩
      exact ⟨_, _, ⟨keys, hkeys, rfl⟩, rfl⟩
  | null | block _ => exact iff_of_false (by rintro ⟨_, ⟨⟩⟩) (by rintro ⟨_, _, -, -, ⟨⟩⟩)

def updateAll (c : Context) (owners : List Role) : Except CryptoError Context :=
  owners.foldlM updateTrafficSecret c

theorem updateTrafficSecret_eq_ok (hc : c.updateTrafficSecret owner = .ok c') :
    c'.role = c.role ∧ c'.params = c.params ∧ Hkdf.supports c.params.prfHash = true ∧
      (∃ secret, c'.trafficSecret owner = some secret ∧
        secret.HasSize c.params.prfHash.size) ∧
      c'.trafficSecret owner.peer = c.trafficSecret owner.peer := by
  obtain ⟨secret, hnext, rfl⟩ := map_eq_ok.mp hc
  unfold nextTrafficSecret at hnext
  split at hnext
  · cases hnext
  · exact ⟨c.role_setTrafficSecret .., c.params_setTrafficSecret .., Secret.supports_of_ok hnext,
      ⟨secret, c.trafficSecret_setTrafficSecret .., Secret.hasSize_of_expandLabel hnext⟩,
      c.trafficSecret_setTrafficSecret_peer ..⟩

theorem exists_updateTrafficSecret (hs : c.trafficSecret owner = some secret)
    (hsize : secret.HasSize n) (hsup : Hkdf.supports c.params.prfHash = true)
    (hn : c.params.prfHash.size ≤ n) : ∃ c', c.updateTrafficSecret owner = .ok c' := by
  obtain ⟨next, hnext, -⟩ := Secret.exists_expandLabel hsize hsup hn
    c.version.length_labelTag_le "traffic upd" (by decide) c.params.prfHash.size_le
  refine ⟨_, map_eq_ok.mpr ⟨next, ?_, rfl⟩⟩
  rw [nextTrafficSecret, hs]
  exact hnext

theorem updateAll_eq_ok (hc : c.updateAll owners = .ok c') :
    c'.role = c.role ∧ c'.params = c.params ∧ ∀ owner,
      (owner ∉ owners ∧ c'.trafficSecret owner = c.trafficSecret owner) ∨
        (owner ∈ owners ∧ Hkdf.supports c.params.prfHash = true ∧
          ∃ secret, c'.trafficSecret owner = some secret ∧
            secret.HasSize c.params.prfHash.size) := by
  induction owners generalizing c with
  | nil =>
    obtain rfl := Except.ok.inj hc
    exact ⟨rfl, rfl, fun owner => Or.inl ⟨List.not_mem_nil, rfl⟩⟩
  | cons first owners ih =>
    obtain ⟨d, hd, hrest⟩ := bind_eq_ok.mp (List.foldlM_cons.symm.trans hc)
    obtain ⟨hrole, hparams, hsup, hsecret, hpeer⟩ := updateTrafficSecret_eq_ok hd
    obtain ⟨hrole', hparams', hsecrets⟩ := ih hrest
    refine ⟨hrole'.trans hrole, hparams'.trans hparams, ?_⟩
    intro owner
    rw [hparams] at hsecrets
    rcases hsecrets owner with ⟨hnot, hsame⟩ | ⟨hmem, hlast⟩
    · by_cases ho : owner = first
      · subst ho
        exact Or.inr ⟨List.mem_cons_self, hsup, hsame ▸ hsecret⟩
      · obtain rfl := (Role.eq_or_eq_peer owner first).resolve_left ho
        exact Or.inl ⟨fun hmem => (List.mem_cons.mp hmem).elim ho hnot, hsame.trans hpeer⟩
    · exact Or.inr ⟨List.mem_cons_of_mem _ hmem, hlast⟩

theorem Keys.updateAll_iff (hk : c.Keys owner b) (hc : c.updateAll owners = .ok c') :
    c'.Keys owner b ↔ (owner ∈ owners → b.keyedBy c.params.prfHash = true) := by
  obtain ⟨-, hparams, hsecrets⟩ := updateAll_eq_ok hc
  rcases hsecrets owner with ⟨hnot, hsame⟩ | ⟨hmem, hsup, secret, hs, hsize⟩
  · refine iff_of_true ?_ (fun hmem => absurd hmem hnot)
    rw [Keys, hparams, hsame]
    exact hk
  · rw [← BulkCipher.fits_size_iff hsup, Keys, hparams]
    constructor
    · rintro ⟨secret', n, hs', hn, hfits⟩ -
      obtain rfl := Option.some.inj (hs'.symm.trans hs)
      obtain rfl := Secret.hasSize_unique hn hsize
      exact hfits
    · intro hfits
      exact ⟨secret, _, hs, hsize, hfits hmem⟩

end Context

namespace Protection

theorem exists_rekey_iff (h : p.cipher? = some b) (side : Side) :
    (∃ q, p.rekey c side = .ok q) ↔ c.Keys (side.owner c.role) b := by
  refine Iff.trans ?_ (Context.exists_derive_iff (p.direction side).id)
  rcases p.rekey_cases c side with ⟨hnone, -⟩ | ⟨b', hb, hres⟩
  · cases hnone.symm.trans h
  · obtain rfl := Option.some.inj (hb.symm.trans h)
    rcases hres with ⟨err, hd, herr⟩ | ⟨q, hd, hq, -⟩
    · simp [hd, herr]
    · exact iff_of_true ⟨q, hq⟩ ⟨_, hd⟩

theorem cipher?_of_suite (h13 : c.version.isTls13 = true) (h : ofSuite c s = (.ok p, c₀)) :
    (s.bulk = .null ∧ p.cipher? = none) ∨
      (s.bulk ≠ .null ∧ p.cipher? = some s.bulk ∧ ∀ owner, c.Keys owner s.bulk) := by
  have hkeys (hcipher : p.cipher? = some s.bulk) (owner : Role) : c.Keys owner s.bulk := by
    obtain ⟨side, rfl⟩ := Side.exists_owner c.role owner
    exact (Context.exists_derive_iff _).mp
      ⟨_, derive_of_build (Family.build_ofSuite h) hcipher side⟩
  have hbuild := Family.build_ofSuite h
  unfold Family.ofSuite at hbuild
  cases hb : s.bulk with
  | null =>
    refine Or.inl ⟨rfl, ?_⟩
    cases hm : macOf c.version s.mac with
    | null =>
      simp only [hb, hm] at hbuild
      obtain rfl := Except.ok.inj (Prod.mk.inj hbuild).1
      rfl
    | hmac _ | ssl3 _ =>
      simp only [hb, hm] at hbuild
      obtain ⟨p, -, rfl⟩ := map_eq_ok.mp (Prod.mk.inj hbuild).1
      rfl
  | block k =>
    simp only [hb, Family.build, BlockProtection.new, if_pos h13] at hbuild
    cases (Prod.mk.inj hbuild).1
  | aead a =>
    simp only [hb] at hbuild
    obtain ⟨p, hp, rfl⟩ := map_eq_ok.mp (Prod.mk.inj hbuild).1
    simp only [AeadProtection.new, h13, if_true, bind_eq_ok, pure_eq_ok] at hp
    obtain ⟨e, -, d, -, rfl⟩ := hp
    exact Or.inr ⟨by rintro ⟨⟩, rfl, hb ▸ hkeys (congrArg some hb.symm)⟩
  | integrity hash =>
    simp only [hb] at hbuild
    obtain ⟨p, hp, rfl⟩ := map_eq_ok.mp (Prod.mk.inj hbuild).1
    have hcipher : (Protection.integrity p).cipher? = some (.integrity hash) :=
      congrArg (fun x => some (BulkCipher.integrity x)) (IntegrityProtection.hash_of_new hp)
    exact Or.inr ⟨by rintro ⟨⟩, hcipher, hb ▸ hkeys (hcipher.trans (congrArg some hb.symm))⟩

/-- After any updates of the traffic secrets, new keys can be had for a direction unless its secret
was updated and tags alone, under a hash with longer digests than that of the context, protect
the records. -/
theorem rekey_iff (h13 : c.version.isTls13 = true) (h : ofSuite c s = (.ok p, c₀))
    (hq : p.Becomes q) (hu : c₀.updateAll owners = .ok c') :
    ((∃ q', q.rekeyEncoder c' = .ok q') ↔
        s.bulk ≠ .null ∧ (c.role ∈ owners → s.bulk.keyedBy c.params.prfHash = true)) ∧
      ((∃ q', q.rekeyDecoder c' = .ok q') ↔
        s.bulk ≠ .null ∧ (c.role.peer ∈ owners → s.bulk.keyedBy c.params.prfHash = true)) := by
  obtain ⟨randomness, rfl⟩ := Family.context_of_build (Family.build_ofSuite h)
  obtain ⟨hrole, -, -⟩ := Context.updateAll_eq_ok hu
  have hrole : c'.role = c.role := hrole
  have hcipher := hq.cipher?_eq
  suffices hside : ∀ side, (∃ q', q.rekey c' side = .ok q') ↔
      s.bulk ≠ .null ∧ (side.owner c.role ∈ owners → s.bulk.keyedBy c.params.prfHash = true) from
    ⟨hside .write, hside .read⟩
  intro side
  rcases cipher?_of_suite h13 h with ⟨hnull, hp⟩ | ⟨hne, hp, hkeys⟩
  · rw [hp] at hcipher
    rcases q.rekey_cases c' side with ⟨-, err, herr⟩ | ⟨b, hb, -⟩
    · exact iff_of_false (by rintro ⟨q', hok⟩; cases hok.symm.trans herr) fun hc => hc.1 hnull
    · cases hb.symm.trans hcipher
  · rw [hp] at hcipher
    obtain ⟨secret, n, hs, hfits⟩ := hkeys (side.owner c.role)
    have hstart : ({ c with randomness } : Context).Keys (side.owner c.role) s.bulk := by
      refine ⟨secret, n, ?_, hfits⟩
      rw [← hs]
      cases side.owner c.role <;> rfl
    rw [exists_rekey_iff hcipher, hrole, hstart.updateAll_iff hu, and_iff_right hne]

/-- Under a hash with longer digests than that of the context, the first update of the secret of
the encoder leaves no keys for it. -/
theorem rekeyEncoder_of_short {hash : Hash} (hp : p.cipher? = some (.integrity hash))
    (hsup : Hkdf.supports hash = true) (hlen : c.params.prfHash.size < hash.size)
    (hu : c.updateTrafficSecret c.role = .ok c') : p.rekeyEncoder c' =
      .error (CryptoError.invalidKeyLength hash.size c.params.prfHash.size).toRecordError := by
  obtain ⟨hrole, -, -, ⟨secret, hs, hsize⟩, -⟩ := Context.updateTrafficSecret_eq_ok hu
  have hkeys : secret.trafficKeys hash c'.version.labelTag hash.size hash.size =
      .error (.invalidKeyLength hash.size c.params.prfHash.size) :=
    Secret.trafficKeys_of_short hsize hsup hlen c'.version hash.size_le
  have hderive : (BulkCipher.integrity hash).derive c' c'.role p.writing.id =
      .error (CryptoError.invalidKeyLength hash.size c.params.prfHash.size).toRecordError := by
    simp only [BulkCipher.derive, IntegrityDirection.derive, Context.trafficKeys, hrole, hs, hkeys]
    rfl
  rcases p.rekey_cases c' .write with ⟨hnone, -⟩ | ⟨b, hb, hres⟩
  · cases hnone.symm.trans hp
  · obtain rfl := Option.some.inj (hb.symm.trans hp)
    rcases hres with ⟨err, herr, hres⟩ | ⟨q, hok, -⟩
    · obtain rfl := Except.error.inj (herr.symm.trans hderive)
      exact hres
    · cases hderive.symm.trans hok

end Protection

def CipherSuite.sha384Sha384 : CipherSuite :=
  ⟨0xC0B5, "TLS_SHA384_SHA384", .integrity .sha384, .null, .sha384⟩

/-- A client with secrets that are longer than the digests of the hash in its context. -/
def Context.longSecrets : Context where
  role := .client
  params := { version := .tls13 }
  clientTraffic := some (.new (Bytes.zeros 48))
  serverTraffic := some (.new (Bytes.zeros 48))
  randomness := .ofScript []

theorem Context.hasTrafficSecrets_longSecrets : longSecrets.HasTrafficSecrets 48 :=
  hasTrafficSecrets rfl rfl ⟨_, rfl, Bytes.length_zeros 48⟩ ⟨_, rfl, Bytes.length_zeros 48⟩

theorem Context.exists_updateAll_longSecrets (owner : Role) :
    ∃ c', longSecrets.updateTrafficSecret owner = .ok c' ∧
      longSecrets.updateAll [owner] = .ok c' := by
  obtain ⟨secret, hs, hsize⟩ := hasTrafficSecrets_longSecrets owner
  obtain ⟨c', hc⟩ := exists_updateTrafficSecret hs hsize rfl (by decide)
  refine ⟨c', hc, ?_⟩
  rw [updateAll, List.foldlM_cons, hc]
  rfl

theorem Protection.exists_longSecrets : ∃ p : Protection,
    ofSuite .longSecrets .sha384Sha384 = (.ok p, .longSecrets) ∧
      p.cipher? = some (.integrity .sha384) := by
  obtain ⟨p, hp⟩ := IntegrityProtection.exists_new (h := .sha384)
    Context.hasTrafficSecrets_longSecrets rfl (by decide) rfl
  refine ⟨.integrity p, ?_, ?_⟩
  · exact Prod.ext (map_eq_ok.mpr ⟨p, hp, rfl⟩) rfl
  · exact congrArg (fun x => some (BulkCipher.integrity x)) (IntegrityProtection.hash_of_new hp)

theorem Protection.rekey_iff_longSecrets : ∃ p c', ofSuite .longSecrets .sha384Sha384 =
    (.ok p, .longSecrets) ∧ Context.longSecrets.updateAll [.server] = .ok c' ∧
      (∃ q, p.rekeyEncoder c' = .ok q) ∧ ¬ ∃ q, p.rekeyDecoder c' = .ok q := by
  obtain ⟨p, hp, -⟩ := exists_longSecrets
  obtain ⟨c', -, hu⟩ := Context.exists_updateAll_longSecrets .server
  have hne : CipherSuite.sha384Sha384.bulk ≠ .null := by decide
  have hclient : Context.longSecrets.role ∉ [Role.server] := by decide
  have hserver : Context.longSecrets.role.peer ∈ [Role.server] := by decide
  have hshort : ¬ CipherSuite.sha384Sha384.bulk.keyedBy .sha256 = true := by decide
  obtain ⟨hencoder, hdecoder⟩ := rekey_iff rfl hp .start hu
  refine ⟨p, c', hp, hu, hencoder.mpr ⟨hne, fun hmem => absurd hmem hclient⟩, ?_⟩
  intro hq
  exact hshort ((hdecoder.mp hq).2 hserver)

/-- A suite that can protect records and cannot after the first update. -/
theorem Protection.rekey_fails_after_update : CipherSuite.sha384Sha384 ∈ CipherSuite.all ∧
    Context.longSecrets.version.isTls13 = true ∧ ∃ p c',
      ofSuite .longSecrets .sha384Sha384 = (.ok p, .longSecrets) ∧
        Context.longSecrets.updateAll [.client] = .ok c' ∧
          p.rekeyEncoder c' = .error (CryptoError.invalidKeyLength 48 32).toRecordError := by
  obtain ⟨p, hp, hcipher⟩ := exists_longSecrets
  obtain ⟨c', hu, hall⟩ := Context.exists_updateAll_longSecrets .client
  have hlong : Hash.sha384.size = 48 := rfl
  have hshort : Context.longSecrets.params.prfHash.size = 32 := rfl
  have hfails := rekeyEncoder_of_short hcipher rfl (by decide) hu
  rw [hlong, hshort] at hfails
  exact ⟨by decide, rfl, p, c', hp, hall, hfails⟩

end RecordLayer
