import RecordLayer.Endpoint
import RecordLayer.Proofs.Construction
import RecordLayer.Proofs.Pairing

/-! # Links

A link is what one end writes with and the other reads with: the keys of the direction, the secret
behind them, the epoch and the number of the next record. Records and key updates take both ends
from one link to the next.
-/

namespace RecordLayer

/-- One direction of a connection, as either end sees it. -/
structure Link where
  direction : Direction
  secret : Option Secret
  epoch : UInt16
  seq : UInt64

variable {v : Version} {h : Hash} {secret : Secret} {c : Context} {p : Protection}
  {d : Direction}

def Direction.rekey (v : Version) (h : Hash) (secret : Secret) :
    Direction → Except RecordError Direction
  | aead d => do
    let keys ← forRecord (secret.trafficKeys h v.labelTag d.aead.algorithm.keySize Aead.nonceSize)
    let aead ← forRecord (Aead.keyed d.aead.algorithm keys.key)
    pure (.aead ⟨true, .implicit, aead, keys.iv, d.id⟩)
  | integrity d => do
    let keys ← forRecord (secret.trafficKeys d.hash v.labelTag d.hash.size d.hash.size)
    pure (.integrity ⟨d.hash, Mac.hmac d.hash keys.key, keys.iv⟩)
  | block _ | null _ => .error Protection.rekeyUnsupported

def Direction.KeyedBy (h : Hash) : Direction → Prop
  | aead _ => True
  | integrity d => Hkdf.supports d.hash = true ∧ d.hash.size ≤ h.size
  | block _ | null _ => False

theorem Direction.id_of_rekey {d' : Direction} (hd : d.rekey v h secret = .ok d') :
    d'.id = d.id := by
  cases d with
  | aead d =>
    simp only [rekey, bind_eq_ok, pure_eq_ok] at hd
    obtain ⟨keys, -, aead, -, rfl⟩ := hd
    rfl
  | integrity d =>
    simp only [rekey, bind_eq_ok, pure_eq_ok] at hd
    obtain ⟨keys, -, rfl⟩ := hd
    rfl
  | block d | null d => cases hd

namespace Link

variable {l l' : Link}

def nextSecret (v : Version) (h : Hash) (l : Link) : Except CryptoError Secret :=
  match l.secret with
  | none => .error .deadSecret
  | some s => s.expandLabel h v.labelTag (Bytes.ofText "traffic upd") [] h.size

def update (v : Version) (h : Hash) (l : Link) : Except RecordError Link := do
  let secret ← forRecord (l.nextSecret v h)
  let direction ← l.direction.rekey v h secret
  pure ⟨direction, some secret, l.epoch + 1, 0⟩

def record (fragment : Bytes) (l : Link) : Link :=
  { l with direction := l.direction.advance fragment, seq := l.seq + 1 }

/-- The keys come from a secret that can be followed by others. -/
structure Updatable (h : Hash) (l : Link) : Prop where
  supports : Hkdf.supports h = true
  secret : ∃ s, l.secret = some s ∧ s.HasSize h.size
  direction : l.direction.KeyedBy h

theorem Updatable.record (hl : l.Updatable h) (fragment : Bytes) :
    (l.record fragment).Updatable h := by
  refine ⟨hl.supports, hl.secret, ?_⟩
  have hd := hl.direction
  obtain ⟨d | d | d | d, secret, epoch, seq⟩ := l <;> exact hd

theorem exists_rekey_aead (hs : secret.HasSize h.size) (hsup : Hkdf.supports h = true)
    (v : Version) (d : AeadDirection) :
    ∃ d', (Direction.aead d).rekey v h secret = .ok (.aead d') := by
  obtain ⟨keys, aead, hkeys, haead⟩ := Secret.exists_aead hs hsup v d.aead.algorithm
  simp only [Direction.rekey, bind_eq_ok, pure_eq_ok, forRecord_eq_ok]
  exact ⟨_, keys, hkeys, aead, haead, rfl⟩

theorem Updatable.exists_update (hl : l.Updatable h) (v : Version) :
    ∃ l', l.update v h = .ok l' ∧ l'.Updatable h := by
  obtain ⟨s, hs, hsize⟩ := hl.secret
  obtain ⟨s', hs', hsize'⟩ := Secret.exists_expandLabel hsize hl.supports (Nat.le_refl _)
    v.length_labelTag_le "traffic upd" (by decide) h.size_le
  have hnext : l.nextSecret v h = .ok s' := by
    rw [nextSecret, hs]
    exact hs'
  have hd := hl.direction
  simp only [update, bind_eq_ok, pure_eq_ok, forRecord_eq_ok, hnext]
  cases hdir : l.direction with
  | aead d =>
    obtain ⟨d', hd'⟩ := exists_rekey_aead hsize' hl.supports v d
    exact ⟨_, ⟨s', rfl, _, hd', rfl⟩, hl.supports, ⟨s', rfl, hsize'⟩, trivial⟩
  | integrity d =>
    rw [hdir] at hd
    obtain ⟨keys, hkeys⟩ := Secret.exists_trafficKeys hsize' hd.1 hd.2 v.length_labelTag_le
      d.hash.size_le d.hash.size_le
    have hd' : (Direction.integrity d).rekey v h s' =
        .ok (.integrity ⟨d.hash, Mac.hmac d.hash keys.key, keys.iv⟩) := by
      simp only [Direction.rekey, bind_eq_ok, pure_eq_ok, forRecord_eq_ok]
      exact ⟨keys, hkeys, rfl⟩
    exact ⟨_, ⟨s', rfl, _, hd', rfl⟩, hl.supports, ⟨s', rfl, hsize'⟩, hd⟩
  | block d => rw [hdir] at hd; exact hd.elim
  | null d => rw [hdir] at hd; exact hd.elim

end Link

namespace Protection

def Rekeyable : Protection → Prop
  | aead p => p.isTls13 = true ∧ p.encoder.aead.algorithm = p.algorithm ∧
      p.decoder.aead.algorithm = p.algorithm
  | integrity p => p.encoder.hash = p.hash ∧ p.decoder.hash = p.hash
  | block _ | null _ => False

theorem Rekeyable.encode (hp : p.Rekeyable) (hr : p.Ready) (r : Randomness) (s : UInt64)
    (t : ContentType) (v : Version) (room : Nat) (plaintext : Bytes) :
    (p.encode r s t v room plaintext).2.1.Rekeyable := by
  cases p with
  | aead p => exact hp
  | integrity p =>
    have hsnd := hr.1.encode_snd s t v room plaintext
    exact ⟨(congrArg (·.hash) hsnd).trans hp.1, hp.2⟩
  | block p => exact hp.elim
  | null p => exact hp.elim

theorem Rekeyable.decode (hp : p.Rekeyable) (hr : p.Ready) (s : UInt64) (t : ContentType)
    (v : Version) (fragment : Bytes) : (p.decode s t v fragment).2.Rekeyable := by
  cases p with
  | aead p => exact hp
  | integrity p =>
    have hsnd := hr.2.decode_snd s t v fragment
    exact ⟨hp.1, (congrArg (·.hash) hsnd).trans hp.2⟩
  | block p => exact hp.elim
  | null p => exact hp.elim

theorem rekey_aead_eq {owner : Role} (hs : c.trafficSecret owner = some secret)
    (d : AeadDirection) : (Direction.aead d).rekey c.version c.params.prfHash secret =
      .aead <$> AeadDirection.derive c owner d.aead.algorithm d.id := by
  simp only [Direction.rekey, AeadDirection.derive, Context.trafficKeys, hs, map_bind, map_pure]

theorem rekey_integrity_eq {owner : Role} (hs : c.trafficSecret owner = some secret)
    (d : IntegrityDirection) : (Direction.integrity d).rekey c.version c.params.prfHash secret =
      .integrity <$> IntegrityDirection.derive c owner d.hash := by
  simp only [Direction.rekey, IntegrityDirection.derive, Context.trafficKeys, hs, map_bind,
    map_pure]

theorem algorithm_of_derive {owner : Role} {a : AeadAlgorithm} {id : Bytes} {d : AeadDirection}
    (hd : AeadDirection.derive c owner a id = .ok d) : d.aead.algorithm = a := by
  simp only [AeadDirection.derive, bind_eq_ok, pure_eq_ok, forRecord_eq_ok] at hd
  obtain ⟨keys, -, aead, haead, rfl⟩ := hd
  unfold Aead.keyed at haead
  split at haead
  · cases haead
  · obtain rfl := Except.ok.inj haead
    rfl

theorem hash_of_derive {owner : Role} {hash : Hash} {d : IntegrityDirection}
    (hd : IntegrityDirection.derive c owner hash = .ok d) : d.hash = hash := by
  simp only [IntegrityDirection.derive, bind_eq_ok, pure_eq_ok] at hd
  obtain ⟨keys, -, rfl⟩ := hd
  rfl

theorem Rekeyable.rekey (hp : p.Rekeyable) (hr : p.Ready) {side : Side}
    (hs : c.trafficSecret (side.owner c.role) = some secret)
    (hd : (p.direction side).rekey c.version c.params.prfHash secret = .ok d) :
    ∃ p', p.rekey c side = .ok p' ∧ p'.direction side = d ∧
      p'.direction side.other = p.direction side.other ∧ p'.Rekeyable ∧ p'.Ready := by
  cases p with
  | aead p =>
    obtain ⟨h13, he, hd'⟩ := hp
    have halgorithm : (p.direction side).aead.algorithm = p.algorithm := by
      cases side <;> assumption
    rw [direction_aead, rekey_aead_eq hs, halgorithm] at hd
    obtain ⟨x, hderive, rfl⟩ := map_eq_ok.mp hd
    have hx := algorithm_of_derive hderive
    have hready := AeadDirection.ready_derive hderive
    refine ⟨.aead (p.withDirection x side), ?_, by simp, by simp, ?_, ?_⟩
    · simp only [Protection.rekey, AeadProtection.rekey, if_pos h13, hderive]
      rfl
    · cases side
      · exact ⟨h13, hx, hd'⟩
      · exact ⟨h13, he, hx⟩
    · cases side
      · exact ⟨hready, hr.2⟩
      · exact ⟨hr.1, hready⟩
  | integrity p =>
    obtain ⟨he, hd'⟩ := hp
    have hhash : (p.direction side).hash = p.hash := by cases side <;> assumption
    rw [direction_integrity, rekey_integrity_eq hs, hhash] at hd
    obtain ⟨x, hderive, rfl⟩ := map_eq_ok.mp hd
    have hx := hash_of_derive hderive
    have hready := IntegrityDirection.ready_derive hderive
    refine ⟨.integrity (p.withDirection x side), ?_, by simp, by simp, ?_, ?_⟩
    · simp only [Protection.rekey, IntegrityProtection.rekey, hderive]
      rfl
    · cases side
      · exact ⟨hx, hd'⟩
      · exact ⟨he, hx⟩
    · cases side
      · exact ⟨hready, hr.2⟩
      · exact ⟨hr.1, hready⟩
  | block p => exact hp.elim
  | null p => exact hp.elim

end Protection

end RecordLayer
