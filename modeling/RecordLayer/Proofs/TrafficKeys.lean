import RecordLayer.Proofs.Histories

/-! # Keys from traffic secrets

Under traffic secrets, key and initial vector of a direction are expanded from the bytes of one
secret. What the direction holds is a function of these bytes and of what was negotiated.
-/

namespace RecordLayer

variable {c c' : Context} {owner : Role} {id data : Bytes} {b : BulkCipher} {v : Version} {h : Hash}

/-- The direction holds the key and the initial vector that `data` expands to, for records with
the connection ID `id`. -/
inductive Direction.DerivedFrom (v : Version) (h : Hash) (data id : Bytes) :
    BulkCipher → Direction → Prop
  | aead {a : AeadAlgorithm} {key iv : Bytes} {aead : Aead}
    (hkey : Hkdf.expandLabel h data v.labelTag (Bytes.ofText "key") [] a.keySize = .ok key)
    (hiv : Hkdf.expandLabel h data v.labelTag (Bytes.ofText "iv") [] Aead.nonceSize = .ok iv)
    (haead : Aead.keyed a key = .ok aead) :
    DerivedFrom v h data id (.aead a) (.aead ⟨true, .implicit, aead, iv, id⟩)
  | integrity {hash : Hash} {key iv : Bytes}
    (hkey : Hkdf.expandLabel hash data v.labelTag (Bytes.ofText "key") [] hash.size = .ok key)
    (hiv : Hkdf.expandLabel hash data v.labelTag (Bytes.ofText "iv") [] hash.size = .ok iv) :
    DerivedFrom v h data id (.integrity hash) (.integrity ⟨hash, Mac.hmac hash key, iv⟩)

theorem Direction.DerivedFrom.unique {d d' : Direction} (hd : d.DerivedFrom v h data id b)
    (hd' : d'.DerivedFrom v h data id b) : d = d' := by
  cases hd with
  | aead hkey hiv haead =>
    cases hd' with
    | aead hkey' hiv' haead' =>
      obtain rfl := Except.ok.inj (hkey.symm.trans hkey')
      obtain rfl := Except.ok.inj (hiv.symm.trans hiv')
      obtain rfl := Except.ok.inj (haead.symm.trans haead')
      rfl
  | integrity hkey hiv =>
    cases hd' with
    | integrity hkey' hiv' =>
      obtain rfl := Except.ok.inj (hkey.symm.trans hkey')
      obtain rfl := Except.ok.inj (hiv.symm.trans hiv')
      rfl

namespace Secret

variable {s : Secret} {tag label context : Bytes} {len keySize ivSize : Nat}

theorem expandLabel_eq_ok {s' : Secret} : s.expandLabel h tag label context len = .ok s' ↔
    ∃ old next, s = .new old ∧ Hkdf.expandLabel h old tag label context len = .ok next ∧
      s' = .new next := by
  obtain ⟨material⟩ := s
  cases material with
  | none => exact iff_of_false (by rintro ⟨⟩) (by rintro ⟨_, _, ⟨⟩, -⟩)
  | some old =>
    simp only [expandLabel, read, ok_bind, map_eq_ok]
    constructor
    · rintro ⟨next, hnext, rfl⟩
      exact ⟨old, next, rfl, hnext, rfl⟩
    · rintro ⟨_, next, ⟨⟩, hnext, rfl⟩
      exact ⟨next, hnext, rfl⟩

theorem trafficKeys_eq_ok {keys : TrafficKeys} : s.trafficKeys h tag keySize ivSize = .ok keys ↔
    ∃ data, s = .new data ∧
      Hkdf.expandLabel h data tag (Bytes.ofText "key") [] keySize = .ok keys.key ∧
      Hkdf.expandLabel h data tag (Bytes.ofText "iv") [] ivSize = .ok keys.iv := by
  simp only [trafficKeys, bind_eq_ok, pure_eq_ok, expandLabel_eq_ok]
  constructor
  · rintro ⟨_, ⟨data, key, rfl, hkey, rfl⟩, _, ⟨⟩, _, ⟨_, iv, ⟨⟩, hiv, rfl⟩, _, ⟨⟩, rfl⟩
    exact ⟨data, rfl, hkey, hiv⟩
  · rintro ⟨data, rfl, hkey, hiv⟩
    exact ⟨_, ⟨data, _, rfl, hkey, rfl⟩, _, rfl, _, ⟨data, _, rfl, hiv, rfl⟩, _, rfl, rfl⟩

end Secret

theorem Context.trafficKeys_eq_ok {missing : String} {keySize ivSize : Nat} {keys : TrafficKeys} :
    c.trafficKeys missing owner h keySize ivSize = .ok keys ↔
      ∃ data, c.trafficSecret owner = some (.new data) ∧
        Hkdf.expandLabel h data c.version.labelTag (Bytes.ofText "key") [] keySize =
          .ok keys.key ∧
        Hkdf.expandLabel h data c.version.labelTag (Bytes.ofText "iv") [] ivSize =
          .ok keys.iv := by
  unfold trafficKeys
  cases c.trafficSecret owner with
  | none => exact iff_of_false (by rintro ⟨⟩) (by rintro ⟨_, ⟨⟩, -⟩)
  | some s => simp only [forRecord_eq_ok, Secret.trafficKeys_eq_ok, Option.some.injEq]

theorem BulkCipher.derive_eq_ok {d : Direction} : b.derive c owner id = .ok d ↔
    ∃ data, c.trafficSecret owner = some (.new data) ∧
      d.DerivedFrom c.version c.params.prfHash data id b := by
  cases b with
  | aead a =>
    simp only [derive, AeadDirection.derive, map_eq_ok, bind_eq_ok, pure_eq_ok, forRecord_eq_ok,
      Context.trafficKeys_eq_ok]
    constructor
    · rintro ⟨_, ⟨keys, ⟨data, hs, hkey, hiv⟩, aead, haead, rfl⟩, rfl⟩
      exact ⟨data, hs, .aead hkey hiv haead⟩
    · rintro ⟨data, hs, hd⟩
      cases hd with
      | @aead a key iv aead hkey hiv haead =>
        exact ⟨_, ⟨⟨key, iv⟩, ⟨data, hs, hkey, hiv⟩, aead, haead, rfl⟩, rfl⟩
  | integrity hash =>
    simp only [derive, IntegrityDirection.derive, map_eq_ok, bind_eq_ok, pure_eq_ok,
      Context.trafficKeys_eq_ok]
    constructor
    · rintro ⟨_, ⟨keys, ⟨data, hs, hkey, hiv⟩, rfl⟩, rfl⟩
      exact ⟨data, hs, .integrity hkey hiv⟩
    · rintro ⟨data, hs, hd⟩
      cases hd with
      | @integrity hash key iv hkey hiv =>
        exact ⟨_, ⟨⟨key, iv⟩, ⟨data, hs, hkey, hiv⟩, rfl⟩, rfl⟩
  | null | block _ =>
    refine iff_of_false (by rintro ⟨⟩) ?_
    rintro ⟨data, hs, hd⟩
    cases hd

theorem BulkCipher.derivedFrom_of_derive {d : Direction}
    (hs : c.trafficSecret owner = some (.new data)) (hd : b.derive c owner id = .ok d) :
    d.DerivedFrom c.version c.params.prfHash data id b := by
  obtain ⟨data', hs', hd⟩ := derive_eq_ok.mp hd
  obtain rfl : data = data' := by simpa [Secret.new] using hs.symm.trans hs'
  exact hd

theorem Context.updateTrafficSecret_iff : c.updateTrafficSecret owner = .ok c' ↔
    ∃ old next, c.trafficSecret owner = some (.new old) ∧
      Hkdf.expandLabel c.params.prfHash old c.version.labelTag (Bytes.ofText "traffic upd") []
        c.params.prfHash.size = .ok next ∧
      c' = c.setTrafficSecret owner (.new next) := by
  unfold updateTrafficSecret nextTrafficSecret
  cases c.trafficSecret owner with
  | none => exact iff_of_false (by rintro ⟨⟩) (by rintro ⟨_, _, ⟨⟩, -⟩)
  | some s =>
    simp only [map_eq_ok, Secret.expandLabel_eq_ok, Option.some.injEq]
    constructor
    · rintro ⟨_, ⟨old, next, hs, hnext, rfl⟩, rfl⟩
      exact ⟨old, next, hs, hnext, rfl⟩
    · rintro ⟨old, next, hs, hnext, rfl⟩
      exact ⟨_, ⟨old, next, hs, hnext, rfl⟩, rfl⟩

end RecordLayer
