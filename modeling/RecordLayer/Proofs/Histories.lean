import RecordLayer.Proofs.Established

/-! # Histories

A protection is built, used and keyed again, in any order and with or without success. It stays
ready all the while, and new keys are always for the same cipher.
-/

namespace RecordLayer

variable {c : Context} {owner : Role} {id : Bytes} {b : BulkCipher} {p q : Protection}

def BulkCipher.derive (c : Context) (owner : Role) (id : Bytes) :
    BulkCipher → Except RecordError Direction
  | aead a => .aead <$> AeadDirection.derive c owner a id
  | integrity h => .integrity <$> IntegrityDirection.derive c owner h
  | null | block _ => .error Protection.rekeyUnsupported

def Parameters.idOf (p : Parameters) : Side → Bytes
  | .write => p.peerId
  | .read => p.localId

namespace Protection

/-- What uses and new keys make of `p`. The secrets behind new keys may be any. -/
inductive Becomes (p : Protection) : Protection → Prop
  | start : Becomes p p
  | used {q : Protection} (h : Becomes p q) (call : Call) : Becomes p (q.after call)
  | rekeyed {q q' : Protection} {c : Context} (h : Becomes p q) (side : Side)
    (hq : q.rekey c side = .ok q') : Becomes p q'

def cipher? : Protection → Option BulkCipher
  | aead p => if p.isTls13 then some (.aead p.algorithm) else none
  | integrity p => some (.integrity p.hash)
  | block _ | null _ => none

theorem cipher?_after (p : Protection) (call : Call) : (p.after call).cipher? = p.cipher? := by
  cases call <;> cases p <;> rfl

theorem derive_of_build {f : Family} {c' : Context} (h : f.build c = (.ok p, c'))
    (hb : p.cipher? = some b) (side : Side) :
    b.derive c (side.owner c.role) (c.params.idOf side) = .ok (p.direction side) := by
  suffices hboth : b.derive c c.role c.params.peerId = .ok p.writing ∧
      b.derive c c.role.peer c.params.localId = .ok p.reading by
    cases side
    · exact hboth.1
    · exact hboth.2
  cases f with
  | aead a =>
    obtain ⟨p, hp, rfl⟩ := map_eq_ok.mp (Prod.mk.inj h).1
    unfold AeadProtection.new at hp
    cases hv : c.version.isTls13 with
    | true =>
      simp only [hv, if_true, bind_eq_ok, pure_eq_ok] at hp
      obtain ⟨e, he, d, hd, rfl⟩ := hp
      obtain rfl := Option.some.inj hb
      exact ⟨congrArg (Direction.aead <$> ·) he, congrArg (Direction.aead <$> ·) hd⟩
    | false =>
      simp only [hv, Bool.false_eq_true, if_false, bind_eq_ok, pure_eq_ok] at hp
      obtain ⟨keys, -, e, -, d, -, rfl⟩ := hp
      cases hb
  | integrity hash =>
    obtain ⟨p, hp, rfl⟩ := map_eq_ok.mp (Prod.mk.inj h).1
    obtain ⟨he, hd⟩ := IntegrityProtection.of_new hp
    have hhash := IntegrityProtection.hash_of_new hp
    obtain rfl := Option.some.inj hb
    rw [hhash]
    exact ⟨congrArg (Direction.integrity <$> ·) he, congrArg (Direction.integrity <$> ·) hd⟩
  | block k a | null a =>
    obtain ⟨p, -, rfl⟩ := map_eq_ok.mp (Prod.mk.inj h).1
    cases hb
  | passthrough =>
    obtain rfl := Except.ok.inj (Prod.mk.inj h).1
    cases hb

theorem rekey_cases (p : Protection) (c : Context) (side : Side) :
    (p.cipher? = none ∧ ∃ err, p.rekey c side = .error err) ∨
      ∃ b, p.cipher? = some b ∧
        ((∃ err, b.derive c (side.owner c.role) (p.direction side).id = .error err ∧
            p.rekey c side = .error err) ∨
          ∃ q, b.derive c (side.owner c.role) (p.direction side).id = .ok (q.direction side) ∧
            p.rekey c side = .ok q ∧ q.direction side.other = p.direction side.other ∧
            q.cipher? = some b ∧ (p.Ready → q.Ready)) := by
  cases p with
  | aead p =>
    unfold rekey AeadProtection.rekey cipher?
    by_cases h13 : p.isTls13 = true
    · simp only [if_pos h13, direction_aead]
      refine Or.inr ⟨_, rfl, ?_⟩
      cases hd : AeadDirection.derive c (side.owner c.role) p.algorithm (p.direction side).id with
      | error err => exact Or.inl ⟨err, congrArg (Direction.aead <$> ·) hd, rfl⟩
      | ok d =>
        refine Or.inr ⟨.aead (p.withDirection d side), ?_, rfl, ?_, ?_, ?_⟩
        · rw [direction_aead, AeadProtection.direction_withDirection]
          exact congrArg (Direction.aead <$> ·) hd
        · rw [direction_aead, AeadProtection.direction_withDirection_other]
        · cases side <;> exact if_pos h13
        · have hready := AeadDirection.ready_derive hd
          cases side
          · exact fun h => ⟨hready, h.2⟩
          · exact fun h => ⟨h.1, hready⟩
    · simp only [if_neg h13]
      exact Or.inl ⟨trivial, _, rfl⟩
  | integrity p =>
    unfold rekey IntegrityProtection.rekey
    simp only [direction_integrity]
    refine Or.inr ⟨_, rfl, ?_⟩
    cases hd : IntegrityDirection.derive c (side.owner c.role) p.hash with
    | error err => exact Or.inl ⟨err, congrArg (Direction.integrity <$> ·) hd, rfl⟩
    | ok d =>
      refine Or.inr ⟨.integrity (p.withDirection d side), ?_, rfl, ?_, ?_, ?_⟩
      · rw [direction_integrity, IntegrityProtection.direction_withDirection]
        exact congrArg (Direction.integrity <$> ·) hd
      · rw [direction_integrity, IntegrityProtection.direction_withDirection_other]
      · cases side <;> rfl
      · have hready := IntegrityDirection.ready_derive hd
        cases side
        · exact fun h => ⟨hready, h.2⟩
        · exact fun h => ⟨h.1, hready⟩
  | block p | null p => exact Or.inl ⟨rfl, _, rfl⟩

theorem rekey_eq_ok {side : Side} (h : p.rekey c side = .ok q) :
    ∃ b, p.cipher? = some b ∧
      b.derive c (side.owner c.role) (p.direction side).id = .ok (q.direction side) ∧
      q.direction side.other = p.direction side.other ∧ q.cipher? = some b ∧
      (p.Ready → q.Ready) := by
  rcases p.rekey_cases c side with ⟨-, err, herr⟩ | ⟨b, hb, ⟨err, -, herr⟩ | ⟨q', hd, hq, h'⟩⟩
  · cases herr.symm.trans h
  · cases herr.symm.trans h
  · obtain rfl := Except.ok.inj (hq.symm.trans h)
    exact ⟨b, hb, hd, h'⟩

theorem Becomes.cipher?_eq (h : p.Becomes q) : q.cipher? = p.cipher? := by
  induction h with
  | start => rfl
  | used h call ih => exact (cipher?_after _ call).trans ih
  | rekeyed h side hq ih =>
    obtain ⟨b, hb, -, -, hb', -⟩ := rekey_eq_ok hq
    exact (hb'.trans hb.symm).trans ih

theorem Becomes.ready (h : p.Becomes q) (hp : p.Ready) : q.Ready := by
  induction h with
  | start => exact hp
  | used h call ih => exact (ih.after call).1
  | rekeyed h side hq ih =>
    obtain ⟨-, -, -, -, -, hready⟩ := rekey_eq_ok hq
    exact hready ih

end Protection

end RecordLayer
