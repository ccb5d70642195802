import RecordLayer.Proofs.Endpoints
import RecordLayer.Proofs.KeyUpdates
import RecordLayer.Proofs.Operations
import RecordLayer.Proofs.TrafficKeys

/-! # Key updates happen as a whole

A key update replaces a secret before it asks for the keys that follow. It never stops in between:
a secret that follows another one is long enough for the keys of every suite.
-/

namespace RecordLayer

open Connection (Settings)

variable {s : Settings} {conn : Connection} {r owner : Role} {e f : Endpoint} {c : Context}

/-- The secret of `l` was replaced by the next one, from which key and initial vector of `l'` are
derived. The numbers start again in the next epoch. -/
def Link.Advances (s : Settings) (l l' : Link) : Prop :=
  ∃ old next, l.secret = some (.new old) ∧
    Hkdf.expandLabel s.suite.prfHash old s.version.labelTag (Bytes.ofText "traffic upd") []
      s.suite.prfHash.size = .ok next ∧
    l'.secret = some (.new next) ∧
    l'.direction.DerivedFrom s.version s.suite.prfHash next l.direction.id s.suite.bulk ∧
    l'.epoch.toNat = (l.epoch.toNat + 1) % 2 ^ 16 ∧ l'.seq = 0

def Link.Renewable (s : Settings) (l : Link) : Prop :=
  ∃ old, l.secret = some (.new old) ∧ s.suite.prfHash.size ≤ old.length

namespace Endpoint

/-- Operations take one endpoint to another, while its traffic secrets are replaced, handed out or
destroyed from outside. -/
inductive Evolves (e : Endpoint) : Endpoint → Prop
  | start : Evolves e e
  | run {f g : Endpoint} {W R : List Item} (h : Evolves e f) (hg : f.Run W R g) : Evolves e g
  | setSecret {f : Endpoint} (h : Evolves e f) (owner : Role) (secret : Secret) :
    Evolves e { f with context := f.context.setTrafficSecret owner secret }

/-- What no operation changes: what was negotiated, and that the protection is the one of `e`. -/
structure Continues (e f : Endpoint) : Prop where
  params : f.context.params = e.context.params
  protection : e.protection.Becomes f.protection

namespace Continues

theorem send (h : e.Continues f) (t : ContentType) (plaintext : Bytes) :
    e.Continues (f.send t plaintext).2 := by
  have hused := h.protection.used (.encode f.context.randomness (f.packed f.writeEpoch f.writeSeq)
    t f.headerVersion f.headerRoom plaintext)
  cases hres : (f.send t plaintext).1 with
  | ok wire =>
    obtain ⟨record, -, -, -, hsend⟩ := send_eq_ok hres
    rw [hsend]
    exact ⟨h.params, hused⟩
  | error failure =>
    rw [send_eq_error hres]
    exact ⟨h.params, hused⟩

theorem receive (h : e.Continues f) (wire : Bytes) : e.Continues (f.receive wire).2 := by
  rcases f.receive_cases wire with ⟨failure, hres⟩ | ⟨seq, t, fragment, -, hres⟩
  · rw [hres]
    exact h
  · have hused := h.protection.used (.decode seq t f.headerVersion fragment)
    rcases hres with ⟨failure, hres⟩ | ⟨received, -, -, hres⟩
    · rw [hres]
      exact ⟨h.params, hused⟩
    · rw [hres]
      exact ⟨h.params, hused⟩

theorem updateKeys (h : e.Continues f) (side : Side) : e.Continues (f.updateKeys side).2 := by
  rcases f.updateKeys_cases side with ⟨err, hres⟩ | ⟨c, hc, hres⟩
  · rw [hres]
    exact h
  · obtain ⟨-, hparams, -⟩ := Context.updateTrafficSecret_eq_ok hc
    rcases hres with ⟨err, hres⟩ | ⟨p, hp, hres⟩
    · rw [hres]
      exact ⟨hparams.trans h.params, h.protection⟩
    · have hnext := h.protection.rekeyed side hp
      rw [hres]
      cases side
      · exact ⟨hparams.trans h.params, hnext⟩
      · exact ⟨hparams.trans h.params, hnext⟩

end Continues

theorem Run.continues {W R : List Item} (h : e.Run W R f) : e.Continues f := by
  induction h with
  | start => exact ⟨rfl, .start⟩
  | send _ t plaintext ih => exact ih.send t plaintext
  | receive _ wire ih => exact ih.receive wire
  | updateWriteKeys _ ih => exact ih.updateKeys .write
  | updateReadKeys _ ih => exact ih.updateKeys .read

/-- The endpoint is an end of a connection under traffic secrets, whatever became of these. -/
structure Keyable (e : Endpoint) (s : Settings) : Prop where
  version : e.context.version = s.version
  prfHash : e.context.params.prfHash = s.suite.prfHash
  cipher : e.protection.cipher? = some s.suite.bulk
  keyedBy : s.suite.bulk.keyedBy s.suite.prfHash = true
  supports : Hkdf.supports s.suite.prfHash = true

theorem Keyable.evolves (h : e.Keyable s) (hf : e.Evolves f) : f.Keyable s := by
  induction hf with
  | start => exact h
  | run _ hg ih =>
    obtain ⟨hparams, hp⟩ := hg.continues
    exact ⟨(congrArg Parameters.version hparams).trans ih.version,
      (congrArg Parameters.prfHash hparams).trans ih.prfHash, hp.cipher?_eq.trans ih.cipher,
      ih.keyedBy, ih.supports⟩
  | @setSecret g hg owner secret ih =>
    have hparams := g.context.params_setTrafficSecret owner secret
    exact ⟨(congrArg Parameters.version hparams).trans ih.version,
      (congrArg Parameters.prfHash hparams).trans ih.prfHash, ih.cipher, ih.keyedBy, ih.supports⟩

namespace Keyable

variable {l l' : Link}

theorem keys_of_update (h : e.Keyable s) (hc : e.context.updateTrafficSecret owner = .ok c) :
    c.Keys owner s.suite.bulk := by
  obtain ⟨-, hparams, hsup, ⟨secret, hs, hsize⟩, -⟩ := Context.updateTrafficSecret_eq_ok hc
  rw [h.prfHash] at hsup hsize
  refine ⟨secret, _, hs, hsize, ?_⟩
  rw [hparams, h.prfHash]
  exact (BulkCipher.fits_size_iff hsup).mpr h.keyedBy

theorem update_cases (h : e.Keyable s) (hl : l.secret = e.context.trafficSecret owner) :
    (¬ l.Renewable s ∧ ∃ err, e.context.updateTrafficSecret owner = .error err) ∨
      l.Renewable s ∧ ∃ c, e.context.updateTrafficSecret owner = .ok c := by
  cases hc : e.context.updateTrafficSecret owner with
  | error err =>
    refine Or.inl ⟨?_, err, rfl⟩
    rintro ⟨old, hold, hle⟩
    have hsup := h.supports
    rw [← h.prfHash] at hsup hle
    obtain ⟨c, hok⟩ :=
      Context.exists_updateTrafficSecret (hl.symm.trans hold) ⟨old, rfl, rfl⟩ hsup hle
    cases hok.symm.trans hc
  | ok c =>
    obtain ⟨old, next, hold, hnext, -⟩ := Context.updateTrafficSecret_iff.mp hc
    obtain ⟨-, -, hle, -⟩ := Hkdf.exists_expandLabel_iff.mp ⟨next, hnext⟩
    rw [h.prfHash] at hle
    exact Or.inr ⟨⟨old, hl.trans hold, hle⟩, c, rfl⟩

theorem advances (h : e.Keyable s) (hc : e.context.updateTrafficSecret owner = .ok c)
    (hl : l.secret = e.context.trafficSecret owner) (hl' : l'.secret = c.trafficSecret owner)
    (hd : s.suite.bulk.derive c owner l.direction.id = .ok l'.direction)
    (hepoch : l'.epoch = l.epoch + 1) (hseq : l'.seq = 0) : l.Advances s l' := by
  obtain ⟨-, hparams, -⟩ := Context.updateTrafficSecret_eq_ok hc
  obtain ⟨old, next, hold, hnext, hset⟩ := Context.updateTrafficSecret_iff.mp hc
  have hsecret : c.trafficSecret owner = some (.new next) :=
    hset ▸ e.context.trafficSecret_setTrafficSecret owner (.new next)
  have hderived := BulkCipher.derivedFrom_of_derive hsecret hd
  rw [Context.version, hparams, h.prfHash, ← Context.version, h.version] at hderived
  rw [h.prfHash, h.version] at hnext
  refine ⟨old, next, hl.trans hold, hnext, hl'.trans hsecret, hderived, ?_, hseq⟩
  rw [hepoch, UInt16.toNat_add]
  rfl

theorem updateKeys (h : e.Keyable s) (side : Side) :
    (¬ (e.link side).Renewable s ∧ ∃ err, e.updateKeys side = (.error err, e)) ∨
      (e.link side).Renewable s ∧ (e.updateKeys side).1 = .ok () ∧
        (e.link side).Advances s ((e.updateKeys side).2.link side) ∧
        (e.updateKeys side).2.link side.other = e.link side.other := by
  rcases h.update_cases (e.secret_link side) with ⟨hren, err, hc⟩ | ⟨hren, c, hc⟩
  · refine Or.inl ⟨hren, err.toRecordError, ?_⟩
    simp only [Endpoint.updateKeys, hc, forRecord]
  · have hkeys := h.keys_of_update hc
    obtain ⟨hrole, -, -, -, hother⟩ := Context.updateTrafficSecret_eq_ok hc
    change c.role = e.role at hrole
    rw [← hrole] at hkeys
    obtain ⟨p, hp⟩ := (Protection.exists_rekey_iff h.cipher side).mpr hkeys
    obtain ⟨b, hb, hd, hold, -⟩ := Protection.rekey_eq_ok hp
    obtain rfl := Option.some.inj (hb.symm.trans h.cipher)
    have hafter : e.updateKeys side =
        (.ok (), nextEpoch { e with context := c, protection := p } side) := by
      simp only [Endpoint.updateKeys, hc, forRecord, hp]
    rw [hafter]
    refine Or.inr ⟨hren, rfl, ?_, ?_⟩
    · rw [hrole, ← direction_link] at hd
      rw [link_nextEpoch, link_withKeys e c p side, hrole]
      exact h.advances hc (e.secret_link side) rfl hd rfl rfl
    · rw [link_nextEpoch_other, link_withKeys e c p, hold, hrole, Side.owner_other, hother,
        ← Side.owner_other, ← direction_link, ← secret_link]

end Keyable

end Endpoint

namespace Connection

theorem keyable_of_establish (hsuite : s.suite ∈ CipherSuite.all)
    (h13 : s.version.isTls13 = true) (h : establish s = .ok conn) (r : Role) :
    (conn.endpoint r).Keyable s := by
  obtain ⟨k, hk⟩ := endpoint_of_establish h
  obtain ⟨c, p, randomness, hc, hp, he⟩ := Settings.endpoint_eq_ok (hk r)
  obtain ⟨-, hversion, hprf, -, -⟩ := Settings.fields_of_context hc
  have hc13 : c.version.isTls13 = true := (congrArg Version.isTls13 hversion).trans h13
  have hs13 := (Protection.isTls13_of_suite hp).trans hc13
  obtain ⟨hsup, hkeyed⟩ := CipherSuite.keyedBy_of_mem hsuite hs13
  rw [he]
  refine ⟨hversion, hprf, ?_, hkeyed, hsup⟩
  rcases Protection.cipher?_of_suite hc13 hp with ⟨hnull, -⟩ | ⟨-, hcipher, -⟩
  · rw [hnull] at hkeyed
    cases hkeyed
  · exact hcipher

/-- Whatever its traffic secrets have become, an end of a connection updates its keys as a whole if
the secret is alive and long enough, and otherwise refuses and changes nothing. -/
theorem update_all_or_nothing (hsuite : s.suite ∈ CipherSuite.all)
    (h13 : s.version.isTls13 = true) (h : establish s = .ok conn)
    (hf : (conn.endpoint r).Evolves f) :
    ((¬ f.writeLink.Renewable s ∧ ∃ err, f.updateWriteKeys = (.error err, f)) ∨
      f.writeLink.Renewable s ∧ f.updateWriteKeys.1 = .ok () ∧
        f.writeLink.Advances s f.updateWriteKeys.2.writeLink ∧
        f.updateWriteKeys.2.readLink = f.readLink) ∧
    ((¬ f.readLink.Renewable s ∧ ∃ err, f.updateReadKeys = (.error err, f)) ∨
      f.readLink.Renewable s ∧ f.updateReadKeys.1 = .ok () ∧
        f.readLink.Advances s f.updateReadKeys.2.readLink ∧
        f.updateReadKeys.2.writeLink = f.writeLink) := by
  have hkeyable := (keyable_of_establish hsuite h13 h r).evolves hf
  exact ⟨hkeyable.updateKeys .write, hkeyable.updateKeys .read⟩

theorem update_all_or_nothing_replaced :
    ∃ conn, establish (.authenticated .tls13) = .ok conn ∧
      let holding (secret : Secret) : Endpoint := { conn.endpoint .server with
        context := (conn.endpoint .server).context.setTrafficSecret .server secret }
      (∃ err, (holding ⟨none⟩).updateWriteKeys = (.error err, holding ⟨none⟩)) ∧
        (holding (.new (Bytes.zeros 48))).updateWriteKeys.1 = .ok () := by
  obtain ⟨hsuite, -⟩ := Settings.suite_authenticated .tls13
  obtain ⟨conn, hc, hends⟩ := exists_authenticated (v := .tls13) rfl
  obtain ⟨hserves, -⟩ := hends .server
  refine ⟨conn, hc, ?_⟩
  intro holding
  have hsecret (secret : Secret) : (holding secret).writeLink.secret = some secret := by
    have hrole : (holding secret).role = .server :=
      ((conn.endpoint .server).context.role_setTrafficSecret ..).trans hserves.role
    change ((conn.endpoint .server).context.setTrafficSecret .server secret).trafficSecret _ = _
    rw [hrole, Context.trafficSecret_setTrafficSecret]
  have hevolves (secret : Secret) : (conn.endpoint .server).Evolves (holding secret) :=
    .setSecret .start .server secret
  constructor
  · rcases (update_all_or_nothing hsuite rfl hc (hevolves ⟨none⟩)).1 with ⟨-, herr⟩ | ⟨hren, -⟩
    · exact herr
    · obtain ⟨old, hold, -⟩ := hren
      cases (hsecret _).symm.trans hold
  · rcases (update_all_or_nothing hsuite rfl hc (hevolves (.new (Bytes.zeros 48)))).1 with
      ⟨hren, -⟩ | ⟨-, hok, -⟩
    · exact absurd ⟨_, hsecret _, by rw [Bytes.length_zeros]; decide⟩ hren
    · exact hok

end Connection

end RecordLayer
