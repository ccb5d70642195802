import RecordLayer.Proofs.ConnectionIds
import RecordLayer.Proofs.ExpansionLabels
import RecordLayer.Proofs.KeyUpdates

/-! # What suites require

A suite is built into a protection if and only if it fits the version and the context supplies the
secrets and the randomness that its family of protection takes. Whatever is missing is an error of
this end, since no bytes of a peer are involved. Only a source of randomness can make it seem
otherwise, by the cause that it gives for a failure.
-/

namespace RecordLayer

variable {α β : Type} {c : Context} {s : CipherSuite} {f : Family} {owner : Role} {h : Hash}

/-! ## Errors of this end -/

def Unforged (x : Except CryptoError α) : Prop := x ≠ .error .authenticationFailed

/-- The computation succeeds, or this end is at fault. -/
def Internal (x : Except RecordError α) : Prop :=
  ∀ e, x = .error e → ∃ reason, e = .internalError reason

theorem Unforged.bind {x : Except CryptoError α} {g : α → Except CryptoError β} (hx : Unforged x)
    (hg : ∀ a, Unforged (g a)) : Unforged (x >>= g) := by
  cases x with
  | ok a => exact hg a
  | error e =>
    intro herr
    exact hx (congrArg Except.error (Except.error.inj herr))

theorem CryptoError.toRecordError_eq {e : CryptoError} (he : e ≠ .authenticationFailed) :
    e.toRecordError = .internalError e.message := by
  cases e with
  | authenticationFailed => exact absurd rfl he
  | deadSecret | invalidKeyLength _ _ | invalidOutputLength _ _ | unsupportedAlgorithm _
  | randomness | engine _ => rfl

namespace Internal

theorem ok (a : α) : Internal (.ok a) := by rintro e ⟨⟩

theorem error (reason : String) : Internal (.error (.internalError reason) : Except _ α) := by
  rintro e ⟨⟩
  exact ⟨reason, rfl⟩

theorem bind {x : Except RecordError α} {g : α → Except RecordError β} (hx : Internal x)
    (hg : ∀ a, Internal (g a)) : Internal (x >>= g) := by
  cases x with
  | ok a => exact hg a
  | error e =>
    rintro e' ⟨⟩
    exact hx e rfl

theorem map {x : Except RecordError α} (hx : Internal x) (g : α → β) : Internal (g <$> x) := by
  cases x with
  | ok a => exact ok (g a)
  | error e =>
    rintro e' ⟨⟩
    exact hx e rfl

theorem forRecord {x : Except CryptoError α} (hx : Unforged x) : Internal (forRecord x) := by
  cases x with
  | ok a => exact ok a
  | error e =>
    rintro e' ⟨⟩
    exact ⟨e.message, CryptoError.toRecordError_eq fun he => hx (congrArg Except.error he)⟩

end Internal

theorem Mac.unforged_keyed (a : MacAlgorithm) (key : Bytes) : Unforged (keyed a key) := by
  cases a with
  | null | hmac _ => rintro ⟨⟩
  | ssl3 h => cases h <;> rintro ⟨⟩

theorem Cbc.unforged_keyed (v : Aes.Variant) (key iv : Bytes) : Unforged (keyed v key iv) := by
  unfold keyed
  split
  · rintro ⟨⟩
  · split <;> rintro ⟨⟩

theorem Aead.unforged_keyed (a : AeadAlgorithm) (key : Bytes) : Unforged (keyed a key) := by
  unfold keyed
  split <;> rintro ⟨⟩

theorem Prf.unforged_keyBlock (g : Prf) (secret clientRandom serverRandom : Bytes) (len : Nat) :
    Unforged (g.keyBlock secret clientRandom serverRandom len) := by
  cases g with
  | ssl3 =>
    simp only [keyBlock, ssl3KeyBlock]
    split <;> rintro ⟨⟩
  | tls10 | tls12 _ | tls13 _ => rintro ⟨⟩

theorem Hkdf.unforged_expandLabel (h : Hash) (key tag label context : Bytes) (len : Nat) :
    Unforged (expandLabel h key tag label context len) := by
  refine Unforged.bind ?_ fun info => ?_
  · unfold labelInfo?
    split <;> rintro ⟨⟩
  · unfold expand
    split
    · split
      · rintro ⟨⟩
      · split <;> rintro ⟨⟩
    · rintro ⟨⟩

namespace Secret

theorem unforged_read (secret : Secret) : Unforged secret.read := by
  obtain ⟨_ | data⟩ := secret <;> rintro ⟨⟩

theorem unforged_keyBlock (secret : Secret) (g : Prf) (clientRandom serverRandom : Bytes)
    (len : Nat) : Unforged (secret.keyBlock g clientRandom serverRandom len) :=
  secret.unforged_read.bind fun _ => g.unforged_keyBlock _ _ _ _

theorem unforged_expandLabel (secret : Secret) (h : Hash) (tag label context : Bytes)
    (len : Nat) : Unforged (secret.expandLabel h tag label context len) := by
  refine secret.unforged_read.bind fun data => ?_
  have hexpand := Hkdf.unforged_expandLabel h data tag label context len
  cases hres : Hkdf.expandLabel h data tag label context len with
  | ok out => rintro ⟨⟩
  | error e =>
    rw [hres] at hexpand
    intro herr
    exact hexpand (congrArg Except.error (Except.error.inj herr))

theorem unforged_trafficKeys (secret : Secret) (h : Hash) (tag : Bytes) (keySize ivSize : Nat) :
    Unforged (secret.trafficKeys h tag keySize ivSize) := by
  refine (secret.unforged_expandLabel h tag _ [] keySize).bind fun key => ?_
  refine key.unforged_read.bind fun _ => ?_
  refine (secret.unforged_expandLabel h tag _ [] ivSize).bind fun iv => ?_
  refine iv.unforged_read.bind fun _ => ?_
  rintro ⟨⟩

end Secret

namespace Context

theorem internal_keyBlock (c : Context) (missing : String) (macSize keySize ivSize : Nat) :
    Internal (c.keyBlock missing macSize keySize ivSize) := by
  unfold keyBlock
  split
  · exact .error _
  · refine (Internal.forRecord (Secret.unforged_keyBlock _ _ _ _ _)).bind fun data => ?_
    split
    · exact .ok _
    · exact .error _

theorem internal_trafficKeys (c : Context) (missing : String) (owner : Role) (h : Hash)
    (keySize ivSize : Nat) : Internal (c.trafficKeys missing owner h keySize ivSize) := by
  unfold trafficKeys
  split
  · exact .error _
  · exact .forRecord (Secret.unforged_trafficKeys _ _ _ _ _)

end Context

theorem AeadDirection.internal_derive (c : Context) (owner : Role) (a : AeadAlgorithm)
    (id : Bytes) : Internal (derive c owner a id) :=
  (c.internal_trafficKeys _ _ _ _ _).bind fun _ =>
    (Internal.forRecord (Aead.unforged_keyed _ _)).bind fun _ => .ok _

theorem AeadProtection.internal_new (c : Context) (a : AeadAlgorithm) : Internal (new c a) := by
  unfold new
  dsimp only
  split
  · exact (AeadDirection.internal_derive _ _ _ _).bind fun _ =>
      (AeadDirection.internal_derive _ _ _ _).bind fun _ => .ok _
  · exact (c.internal_keyBlock _ _ _ _).bind fun _ =>
      (Internal.forRecord (Aead.unforged_keyed _ _)).bind fun _ =>
        (Internal.forRecord (Aead.unforged_keyed _ _)).bind fun _ => .ok _

theorem IntegrityProtection.internal_new (c : Context) (h : Hash) : Internal (new c h) := by
  have hderive (owner : Role) : Internal (IntegrityDirection.derive c owner h) :=
    (c.internal_trafficKeys _ _ _ _ _).bind fun _ => .ok _
  unfold new
  split
  · exact .error _
  · exact (hderive _).bind fun _ => (hderive _).bind fun _ => .ok _

theorem NullProtection.internal_new (c : Context) (a : MacAlgorithm) : Internal (new c a) := by
  unfold new
  split
  · exact .error _
  · exact (c.internal_keyBlock _ _ _ _).bind fun _ =>
      (Internal.forRecord (Mac.unforged_keyed _ _)).bind fun _ =>
        (Internal.forRecord (Mac.unforged_keyed _ _)).bind fun _ => .ok _

theorem BlockProtection.new_of_refused {v : Aes.Variant} {a : MacAlgorithm} {e : CryptoError}
    (h12 : c.version.isTls13 = false) (hdraw : c.randomness.draw Padding.maxSize = .error e) :
    (new c v a).1 = .error e.toRecordError := by
  simp only [new, h12, Bool.false_eq_true, if_false, hdraw]

theorem BlockProtection.internal_new_tls13 (h13 : c.version.isTls13 = true) (v : Aes.Variant)
    (a : MacAlgorithm) : Internal (new c v a).1 := by
  simp only [new, h13, if_true]
  exact .error _

theorem BlockProtection.internal_new (hdraw : Unforged (c.randomness.draw Padding.maxSize))
    (v : Aes.Variant) (a : MacAlgorithm) : Internal (new c v a).1 := by
  cases h12 : c.version.isTls13 with
  | true => exact internal_new_tls13 h12 v a
  | false =>
    cases hscratch : c.randomness.draw Padding.maxSize with
    | error e =>
      rw [new_of_refused h12 hscratch,
        CryptoError.toRecordError_eq fun he => hdraw (hscratch.trans (congrArg Except.error he))]
      exact .error _
    | ok scratch =>
      simp only [new, h12, Bool.false_eq_true, if_false, hscratch]
      exact (c.internal_keyBlock _ _ _ _).bind fun _ =>
        (Internal.forRecord (Mac.unforged_keyed _ _)).bind fun _ =>
          (Internal.forRecord (Mac.unforged_keyed _ _)).bind fun _ =>
            (Internal.forRecord (Cbc.unforged_keyed _ _ _)).bind fun _ =>
              (Internal.forRecord (Cbc.unforged_keyed _ _ _)).bind fun _ => .ok _

/-- The source of randomness gives out that a tag was wrong, where the scratch of the padding check
is drawn. -/
def Family.Forged (c : Context) : Family → Prop
  | block _ _ => c.version.isTls13 = false ∧
    c.randomness.draw Padding.maxSize = .error .authenticationFailed
  | _ => False

theorem Family.build_cases (f : Family) (c : Context) :
    f.Forged c ∧ (f.build c).1 = .error .badRecordMac ∨ ¬ f.Forged c ∧ Internal (f.build c).1 := by
  cases f with
  | aead a => exact Or.inr ⟨id, (AeadProtection.internal_new c a).map _⟩
  | null a => exact Or.inr ⟨id, (NullProtection.internal_new c a).map _⟩
  | passthrough => exact Or.inr ⟨id, .ok _⟩
  | integrity h => exact Or.inr ⟨id, (IntegrityProtection.internal_new c h).map _⟩
  | block v a =>
    by_cases hf : (block v a).Forged c
    · exact Or.inl ⟨hf, congrArg (Except.map _) (BlockProtection.new_of_refused hf.1 hf.2)⟩
    · have hnew : Internal (BlockProtection.new c v a).1 := by
        cases h12 : c.version.isTls13 with
        | true => exact BlockProtection.internal_new_tls13 h12 v a
        | false => exact BlockProtection.internal_new (fun hdraw => hf ⟨h12, hdraw⟩) v a
      exact Or.inr ⟨hf, hnew.map _⟩

/-! ## What the families are keyed from -/

theorem Role.forall_iff {P : Role → Prop} (r : Role) : (∀ owner, P owner) ↔ P r ∧ P r.peer := by
  constructor
  · intro hall
    exact ⟨hall r, hall r.peer⟩
  · rintro ⟨hr, hpeer⟩ owner
    rcases Role.eq_or_eq_peer owner r with rfl | rfl
    · exact hr
    · exact hpeer

theorem AeadProtection.exists_new_iff (c : Context) (a : AeadAlgorithm) :
    (∃ p, new c a = .ok p) ↔
      if c.version.isTls13 then ∀ owner, c.Keys owner (.aead a) else c.HasMaster := by
  cases h13 : c.version.isTls13 with
  | false => exact exists_new_iff_hasMaster h13 a
  | true =>
    have hderive (owner : Role) (id : Bytes) :
        (∃ d, AeadDirection.derive c owner a id = .ok d) ↔ c.Keys owner (.aead a) := by
      rw [← Context.exists_derive_iff id]
      simp [BulkCipher.derive]
    simp only [if_true, Role.forall_iff c.role, ← hderive c.role c.params.peerId,
      ← hderive c.role.peer c.params.localId, new, h13, bind_eq_ok, pure_eq_ok]
    constructor
    · rintro ⟨_, e, he, d, hd, -⟩
      exact ⟨⟨e, he⟩, ⟨d, hd⟩⟩
    · rintro ⟨⟨e, he⟩, ⟨d, hd⟩⟩
      exact ⟨_, e, he, d, hd, rfl⟩

theorem IntegrityProtection.exists_new_iff (c : Context) (h : Hash) : (∃ p, new c h = .ok p) ↔
    c.version.isTls13 = true ∧ ∀ owner, c.Keys owner (.integrity h) := by
  cases h13 : c.version.isTls13 with
  | false =>
    simp only [new, h13, Bool.not_false, if_true]
    exact iff_of_false (by rintro ⟨_, ⟨⟩⟩) (by rintro ⟨⟨⟩, -⟩)
  | true =>
    have hderive (owner : Role) :
        (∃ d, IntegrityDirection.derive c owner h = .ok d) ↔ c.Keys owner (.integrity h) := by
      rw [← Context.exists_derive_iff []]
      simp [BulkCipher.derive]
    simp only [true_and, Role.forall_iff c.role, ← hderive, new, h13, Bool.not_true,
      Bool.false_eq_true, if_false, bind_eq_ok, pure_eq_ok]
    constructor
    · rintro ⟨_, e, he, d, hd, -⟩
      exact ⟨⟨e, he⟩, ⟨d, hd⟩⟩
    · rintro ⟨⟨e, he⟩, ⟨d, hd⟩⟩
      exact ⟨_, e, he, d, hd, rfl⟩

theorem BlockProtection.exists_new_iff (c : Context) (v : Aes.Variant) (a : MacAlgorithm) :
    (∃ p, (new c v a).1 = .ok p) ↔ c.version.isTls13 = false ∧ c.HasMaster ∧ a.Keyable ∧
      ∃ drawn, c.randomness.draw Padding.maxSize = .ok drawn := by
  cases h13 : c.version.isTls13 with
  | true =>
    simp only [new, h13, if_true]
    exact iff_of_false (by rintro ⟨_, ⟨⟩⟩) (by rintro ⟨⟨⟩, -⟩)
  | false =>
    simp only [new, h13, Bool.false_eq_true, if_false]
    cases hdraw : c.randomness.draw Padding.maxSize with
    | error e => exact iff_of_false (by rintro ⟨_, ⟨⟩⟩) (by rintro ⟨-, -, -, _, ⟨⟩⟩)
    | ok drawn =>
      refine (exists_ofKeyBlock_iff h13 v a drawn.1).trans ?_
      constructor
      · rintro ⟨hmaster, ha⟩
        exact ⟨trivial, hmaster, ha, drawn, rfl⟩
      · rintro ⟨-, hmaster, ha, -⟩
        exact ⟨hmaster, ha⟩

/-- The family protects records of the version, and the context has what it is keyed from. -/
def Family.SuppliedBy (c : Context) : Family → Prop
  | aead a => if c.version.isTls13 then ∀ owner, c.Keys owner (.aead a) else c.HasMaster
  | block _ a => c.version.isTls13 = false ∧ c.HasMaster ∧ a.Keyable ∧
    ∃ drawn, c.randomness.draw Padding.maxSize = .ok drawn
  | null a => c.version.isTls13 = false ∧ c.HasMaster ∧ a.Keyable
  | passthrough => True
  | integrity h => c.version.isTls13 = true ∧ ∀ owner, c.Keys owner (.integrity h)

theorem Family.exists_build_iff (f : Family) (c : Context) :
    (∃ p, (f.build c).1 = .ok p) ↔ f.SuppliedBy c := by
  have hmap {γ : Type} (g : γ → Protection) (x : Except RecordError γ) :
      (∃ p, g <$> x = .ok p) ↔ ∃ q, x = .ok q := by simp
  cases f with
  | aead a => exact (hmap _ _).trans (AeadProtection.exists_new_iff c a)
  | block v a => exact (hmap _ _).trans (BlockProtection.exists_new_iff c v a)
  | null a => exact (hmap _ _).trans (NullProtection.exists_new_iff c a)
  | passthrough => exact iff_of_true ⟨_, rfl⟩ trivial
  | integrity h => exact (hmap _ _).trans (IntegrityProtection.exists_new_iff c h)

/-! ## What the suites require -/

def BulkCipher.tagsApart : BulkCipher → Bool
  | null | block _ => true
  | aead _ | integrity _ => false

theorem CipherSuite.mac_of_mem (hs : s ∈ all) (hn : s ≠ nullWithNullNull)
    (hb : s.bulk.tagsApart = true) :
    s.isTls13 = false ∧ s.mac ∈ [MacAlgorithm.hmac .sha1, .hmac .sha256, .hmac .sha384] := by
  have hall : ∀ x ∈ all, x ≠ nullWithNullNull → x.bulk.tagsApart = true →
      x.isTls13 = false ∧ x.mac ∈ [MacAlgorithm.hmac .sha1, .hmac .sha256, .hmac .sha384] := by
    decide
  exact hall s hs hn hb

theorem Protection.macOf_keyable_iff {v : Version} {a : MacAlgorithm}
    (ha : a ∈ [MacAlgorithm.hmac .sha1, .hmac .sha256, .hmac .sha384]) :
    (macOf v a).Keyable ↔ (v.isSsl = true → a = .hmac .sha1) := by
  simp only [List.mem_cons, List.not_mem_nil, or_false] at ha
  cases hv : v.isSsl with
  | false => rcases ha with rfl | rfl | rfl <;> simp [macOf, hv, MacAlgorithm.Keyable]
  | true => rcases ha with rfl | rfl | rfl <;> simp [macOf, hv, MacAlgorithm.Keyable]

namespace Context

def HoldsTrafficSecrets (c : Context) (n : Nat) : Prop :=
  ∀ owner, ∃ data, c.trafficSecret owner = some (.new data) ∧ n ≤ data.length

theorem keys_iff {b : BulkCipher} : c.Keys owner b ↔
    ∃ data, c.trafficSecret owner = some (.new data) ∧ b.Fits c.params.prfHash data.length := by
  constructor
  · rintro ⟨⟨_⟩, _, hs, ⟨data, rfl, rfl⟩, hfits⟩
    exact ⟨data, hs, hfits⟩
  · rintro ⟨data, hs, hfits⟩
    exact ⟨_, _, hs, ⟨data, rfl, rfl⟩, hfits⟩

theorem forall_keys_aead_iff {a : AeadAlgorithm} : (∀ owner, c.Keys owner (.aead a)) ↔
    Hkdf.supports c.params.prfHash = true ∧ c.HoldsTrafficSecrets c.params.prfHash.size := by
  simp only [keys_iff, BulkCipher.Fits, HoldsTrafficSecrets]
  constructor
  · intro hkeys
    obtain ⟨-, -, hsup, -⟩ := hkeys c.role
    refine ⟨hsup, fun owner => ?_⟩
    obtain ⟨data, hs, -, hlen⟩ := hkeys owner
    exact ⟨data, hs, hlen⟩
  · rintro ⟨hsup, hsecrets⟩ owner
    obtain ⟨data, hs, hlen⟩ := hsecrets owner
    exact ⟨data, hs, hsup, hlen⟩

theorem forall_keys_integrity_iff (hsup : Hkdf.supports h = true) :
    (∀ owner, c.Keys owner (.integrity h)) ↔ c.HoldsTrafficSecrets h.size := by
  simp only [keys_iff, BulkCipher.Fits, hsup, true_and, HoldsTrafficSecrets]

/-- The context has what the suite takes. -/
def Supplies (c : Context) (s : CipherSuite) : Prop :=
  s = .nullWithNullNull ∨
    match s.bulk with
    | .null => c.HasMaster ∧ (c.version.isSsl = true → s.mac = .hmac .sha1)
    | .block _ => c.HasMaster ∧ (c.version.isSsl = true → s.mac = .hmac .sha1) ∧
      ∃ drawn, c.randomness.draw 256 = .ok drawn
    | .aead _ =>
      if s.isTls13 then c.params.prfHash ∈ [Hash.sha256, .sha384, .sha512] ∧
        c.HoldsTrafficSecrets c.params.prfHash.size
      else c.HasMaster
    | .integrity h => c.HoldsTrafficSecrets h.size

end Context

/-- Among the suites of a version, a family is supplied by what the suite takes. -/
theorem Family.suppliedBy_ofSuite_iff (hs : s ∈ CipherSuite.all)
    (h13 : s.isTls13 = c.version.isTls13) :
    (ofSuite c.version s).SuppliedBy c ↔ c.Supplies s := by
  by_cases hn : s = .nullWithNullNull
  · subst hn
    exact iff_of_true trivial (Or.inl rfl)
  have hf := ofSuite_ne_passthrough hs hn c.version
  rw [Context.Supplies, or_iff_right hn]
  cases hb : s.bulk with
  | null =>
    obtain ⟨h12, hmac⟩ := CipherSuite.mac_of_mem hs hn (by rw [hb]; rfl)
    have hfamily : ofSuite c.version s = .null (Protection.macOf c.version s.mac) := by
      unfold ofSuite at hf ⊢
      rw [hb] at hf ⊢
      cases hm : Protection.macOf c.version s.mac with
      | null => exact absurd (by rw [hm]) hf
      | hmac _ | ssl3 _ => rfl
    rw [hfamily, SuppliedBy, Protection.macOf_keyable_iff hmac, ← h13, and_iff_right h12]
  | block v =>
    obtain ⟨h12, hmac⟩ := CipherSuite.mac_of_mem hs hn (by rw [hb]; rfl)
    have hfamily : ofSuite c.version s = .block v (Protection.macOf c.version s.mac) := by
      simp only [ofSuite, hb]
    rw [hfamily, SuppliedBy, Protection.macOf_keyable_iff hmac, ← h13, and_iff_right h12]
    rfl
  | aead a =>
    have hfamily : ofSuite c.version s = .aead a := by simp only [ofSuite, hb]
    rw [hfamily, SuppliedBy, Context.forall_keys_aead_iff, Hkdf.supports_iff, h13]
  | integrity h =>
    have hfamily : ofSuite c.version s = .integrity h := by simp only [ofSuite, hb]
    have h13' : s.isTls13 = true := by simp [CipherSuite.isTls13, hb]
    obtain ⟨-, hkeyed⟩ := CipherSuite.keyedBy_of_mem hs h13'
    rw [hb, BulkCipher.keyedBy, Bool.and_eq_true_iff] at hkeyed
    rw [hfamily, SuppliedBy, ← h13, and_iff_right h13',
      Context.forall_keys_integrity_iff hkeyed.1]

theorem Family.forged_ofSuite_iff (hs : s ∈ CipherSuite.all)
    (h13 : s.isTls13 = c.version.isTls13) : (ofSuite c.version s).Forged c ↔
      (∃ v, s.bulk = .block v) ∧ c.randomness.draw 256 = .error .authenticationFailed := by
  cases hb : s.bulk with
  | block v =>
    have hn : s ≠ .nullWithNullNull := by
      rintro rfl
      cases hb
    obtain ⟨h12, -⟩ := CipherSuite.mac_of_mem hs hn (by rw [hb]; rfl)
    have hfamily : ofSuite c.version s = .block v (Protection.macOf c.version s.mac) := by
      simp only [ofSuite, hb]
    rw [hfamily, Forged, ← h13, and_iff_right h12]
    exact (and_iff_right ⟨v, rfl⟩).symm
  | null =>
    refine iff_of_false (fun hf => ?_) (by rintro ⟨⟨_, ⟨⟩⟩, -⟩)
    unfold ofSuite at hf
    rw [hb] at hf
    cases hm : Protection.macOf c.version s.mac <;> rw [hm] at hf <;> exact hf
  | aead a | integrity h =>
    refine iff_of_false (fun hf => ?_) (by rintro ⟨⟨_, ⟨⟩⟩, -⟩)
    unfold ofSuite at hf
    rw [hb] at hf
    exact hf

namespace Protection

/-- A suite is built if and only if it fits the version and the context has what it takes. Every
failure is an error of this end, unless a source of randomness gives out that a tag was wrong. The
secrets stay as they are in any case. -/
theorem ofSuite_outcome (hs : s ∈ CipherSuite.all) :
    ((∃ p, (ofSuite c s).1 = .ok p) ↔ s.isTls13 = c.version.isTls13 ∧ c.Supplies s) ∧
      (∀ e, (ofSuite c s).1 = .error e → (∃ reason, e = .internalError reason) ∨
        e = .badRecordMac) ∧
      ((ofSuite c s).1 = .error .badRecordMac ↔ s.isTls13 = c.version.isTls13 ∧
        (∃ v, s.bulk = .block v) ∧ c.randomness.draw 256 = .error .authenticationFailed) ∧
      (ofSuite c s).2.master = c.master ∧
      ∀ owner, (ofSuite c s).2.trafficSecret owner = c.trafficSecret owner := by
  by_cases h13 : s.isTls13 = c.version.isTls13
  · obtain ⟨randomness, hcontext⟩ := (Family.ofSuite c.version s).exists_randomness c
    rw [ofSuite_eq_build h13, hcontext, Family.exists_build_iff,
      Family.suppliedBy_ofSuite_iff hs h13, and_iff_right h13, and_iff_right h13,
      ← Family.forged_ofSuite_iff hs h13]
    refine ⟨Iff.rfl, ?_, ?_, rfl, fun owner => by cases owner <;> rfl⟩
    · intro e he
      rcases (Family.ofSuite c.version s).build_cases c with ⟨-, herr⟩ | ⟨-, hinternal⟩
      · exact Or.inr (Except.error.inj (he.symm.trans herr))
      · exact Or.inl (hinternal e he)
    · rcases (Family.ofSuite c.version s).build_cases c with ⟨hf, herr⟩ | ⟨hf, hinternal⟩
      · exact iff_of_true herr hf
      · refine iff_of_false (fun herr => ?_) hf
        obtain ⟨_, hreason⟩ := hinternal _ herr
        cases hreason
  · have hrefused : ofSuite c s = (.error (.internalError
        (s.text ++ " cannot protect " ++ c.version.name ++ " records")), c) := if_pos h13
    rw [hrefused]
    exact ⟨iff_of_false (by rintro ⟨_, ⟨⟩⟩) fun hsupplied => h13 hsupplied.1,
      fun e he => Or.inl (Internal.error _ e he),
      iff_of_false (by rintro ⟨⟩) fun hforged => h13 hforged.1, rfl, fun _ => rfl⟩

end Protection

def CipherSuite.aes128Sha : CipherSuite :=
  ⟨0x002F, "TLS_RSA_WITH_AES_128_CBC_SHA", .block .aes128, .hmac .sha1, .sha256⟩

/-- A client of the oldest version with `n` random bytes, and what it is told for more. -/
def Context.ssl30Client (n : Nat) (failure : CryptoError) : Context where
  role := .client
  params := { version := .ssl30 }
  master := some (.new (Bytes.zeros 48))
  randomness := .ofBytes (Bytes.zeros n) failure [] 0

theorem Context.draw_ssl30Client (n : Nat) (failure : CryptoError) :
    (256 ≤ n → ∃ drawn, (ssl30Client n failure).randomness.draw 256 = .ok drawn) ∧
      (n < 256 → (ssl30Client n failure).randomness.draw 256 = .error failure) := by
  rw [ssl30Client, Randomness.draw_ofBytes, Bytes.length_zeros, Nat.zero_add]
  exact ⟨fun h => ⟨_, if_pos h⟩, fun h => if_neg (Nat.not_le.mpr h)⟩

/-- Under the oldest version, the last byte of randomness decides whether a chained stream is
built, and the source how the failure is called. -/
theorem Protection.ofSuite_outcome_ssl30 : CipherSuite.aes128Sha ∈ CipherSuite.all ∧
    (∃ p, (ofSuite (.ssl30Client 256 .randomness) .aes128Sha).1 = .ok p) ∧
      (¬ ∃ p, (ofSuite (.ssl30Client 255 .randomness) .aes128Sha).1 = .ok p) ∧
      (ofSuite (.ssl30Client 255 .authenticationFailed) .aes128Sha).1 = .error .badRecordMac := by
  have hs : CipherSuite.aes128Sha ∈ CipherSuite.all := by decide
  have hdraw (failure : CryptoError) := (Context.draw_ssl30Client 255 failure).2 (by decide)
  refine ⟨hs, (ofSuite_outcome hs).1.mpr ⟨rfl, Or.inr ?_⟩, fun hp => ?_, ?_⟩
  · exact ⟨⟨_, rfl⟩, fun _ => rfl, (Context.draw_ssl30Client 256 _).1 (Nat.le_refl _)⟩
  · obtain ⟨-, hnull | ⟨-, -, _, hdrawn⟩⟩ := (ofSuite_outcome hs).1.mp hp
    · cases hnull
    · cases (hdraw _).symm.trans hdrawn
  · exact (ofSuite_outcome hs).2.2.1.mpr ⟨rfl, ⟨_, rfl⟩, hdraw _⟩

/-- Not every failure to build a suite is an error of this end. -/
theorem Protection.ofSuite_not_internal : ¬ ∀ (c : Context) (s : CipherSuite),
    s ∈ CipherSuite.all → ∀ e, (ofSuite c s).1 = .error e →
      ∃ reason, e = .internalError reason := by
  intro hall
  have hs : CipherSuite.aes128Sha ∈ CipherSuite.all := by decide
  let c := Context.ssl30Client 255 .authenticationFailed
  have hforged : (ofSuite c .aes128Sha).1 = .error .badRecordMac := by
    have hdraw := (Context.draw_ssl30Client 255 .authenticationFailed).2 (by decide)
    rw [ofSuite_eq_build rfl]
    rcases (Family.ofSuite c.version .aes128Sha).build_cases c with ⟨-, herr⟩ | ⟨hf, -⟩
    · exact herr
    · exact absurd ⟨rfl, hdraw⟩ hf
  obtain ⟨_, hreason⟩ := hall _ _ hs _ hforged
  cases hreason

end RecordLayer
