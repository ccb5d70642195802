import RecordLayer.Failure

/-! # Results

A computation in several steps succeeds if and only if every step does, and a failure seen as
another one is still a failure.
-/

namespace RecordLayer

variable {ε α β : Type} {a a' : α} {b : β}

@[simp] theorem bind_eq_ok {x : Except ε α} {f : α → Except ε β} :
    x >>= f = .ok b ↔ ∃ a, x = .ok a ∧ f a = .ok b := by
  cases x with
  | error e =>
    constructor
    · intro h
      cases h
    · rintro ⟨a, h, -⟩
      cases h
  | ok a =>
    constructor
    · intro h
      exact ⟨a, rfl, h⟩
    · rintro ⟨a', ha, h⟩
      obtain rfl := Except.ok.inj ha
      exact h

@[simp] theorem map_eq_ok {x : Except ε α} {f : α → β} :
    f <$> x = .ok b ↔ ∃ a, x = .ok a ∧ f a = b := by
  cases x with
  | error e =>
    constructor
    · intro h
      cases h
    · rintro ⟨a, h, -⟩
      cases h
  | ok a =>
    constructor
    · intro h
      exact ⟨a, rfl, Except.ok.inj h⟩
    · rintro ⟨a', ha, rfl⟩
      obtain rfl := Except.ok.inj ha
      rfl

@[simp] theorem pure_eq_ok : (pure a : Except ε α) = .ok a' ↔ a = a' := by
  constructor
  · exact Except.ok.inj
  · rintro rfl
    rfl

@[simp] theorem forRecord_eq_ok {x : Except CryptoError α} : forRecord x = .ok a ↔ x = .ok a := by
  cases x <;> simp [forRecord]

theorem mapError_eq_ok {ε' : Type} {x : Except ε α} {f : ε → ε'} :
    x.mapError f = .ok a ↔ x = .ok a := by
  cases x with
  | error e => exact iff_of_false (by rintro ⟨⟩) (by rintro ⟨⟩)
  | ok a => exact ⟨fun h => congrArg Except.ok (Except.ok.inj h),
      fun h => congrArg Except.ok (Except.ok.inj h)⟩

@[simp] theorem liftRefusal_eq_ok {x : Except RecordError α} :
    (liftM x : Except Failure α) = .ok a ↔ x = .ok a := mapError_eq_ok

@[simp] theorem liftFault_eq_ok {x : Except Fault α} :
    (liftM x : Except Failure α) = .ok a ↔ x = .ok a := mapError_eq_ok

theorem liftFault_ok (a : α) : (liftM (Except.ok a : Except Fault α) : Except Failure α) = .ok a :=
  rfl

theorem ok_bind (a : α) (f : α → Except ε β) : Except.ok a >>= f = f a := rfl

end RecordLayer
