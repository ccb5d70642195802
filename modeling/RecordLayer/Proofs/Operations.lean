import RecordLayer.Proofs.Flow

/-! # Operations and their traces

What an operation leaves of an endpoint, also when it fails: failures change neither the numbers of
the next records nor the epochs. A run of operations in any order leaves a trace of what succeeded
in each direction.
-/

namespace RecordLayer.Endpoint

variable {e : Endpoint} {t : ContentType} {plaintext : Bytes} {failure : Failure}

theorem send_eq_error (herr : (e.send t plaintext).1 = .error failure) :
    let x := e.protection.encode e.context.randomness (e.packed e.writeEpoch e.writeSeq) t
      e.headerVersion e.headerRoom plaintext
    (e.send t plaintext).2 =
      { e with protection := x.2.1, context := { e.context with randomness := x.2.2 } } := by
  intro x
  unfold Endpoint.send at herr ⊢
  dsimp only at herr ⊢
  split
  · rfl
  · split
    · rfl
    · split
      · rfl
      · rename_i hrecord _ _ hframe _ _ hnext
        simp only [hrecord, hframe, hnext] at herr
        cases herr

theorem receive_cases (e : Endpoint) (wire : Bytes) :
    (∃ failure, e.receive wire = (.error failure, e)) ∨
      ∃ seq t fragment, e.accept wire = .ok (seq, t, fragment) ∧
        let x := e.protection.decode seq t e.headerVersion fragment
        ((∃ failure, e.receive wire = (.error failure, { e with protection := x.2 })) ∨
          ∃ received, x.1 = .ok received ∧ e.readSeq.toNat + 1 < Size.bound ∧
            e.receive wire = (.ok received,
              { e with protection := x.2, readSeq := e.readSeq + 1 })) := by
  unfold Endpoint.receive
  cases haccept : e.accept wire with
  | error failure => exact Or.inl ⟨failure, rfl⟩
  | ok a =>
    obtain ⟨seq, t, fragment⟩ := a
    refine Or.inr ⟨seq, t, fragment, rfl, ?_⟩
    dsimp only
    cases hdec : (e.protection.decode seq t e.headerVersion fragment).1 with
    | error failure => exact Or.inl ⟨failure, rfl⟩
    | ok received =>
      dsimp only
      cases hnext : next e.readSeq with
      | error fault => exact Or.inl ⟨.fault fault, rfl⟩
      | ok readSeq =>
        obtain ⟨rfl, hlt⟩ := next_eq_ok hnext
        exact Or.inr ⟨received, rfl, hlt, rfl⟩

/-- A failed key update leaves at most another traffic secret, which no key comes from. -/
theorem updateKeys_cases (e : Endpoint) (side : Side) :
    (∃ err, e.updateKeys side = (.error err, e)) ∨
      ∃ c, e.context.updateTrafficSecret (side.owner e.role) = .ok c ∧
        ((∃ err, e.updateKeys side = (.error err, { e with context := c })) ∨
          ∃ p, e.protection.rekey c side = .ok p ∧ e.updateKeys side =
            (.ok (), nextEpoch { e with context := c, protection := p } side)) := by
  unfold Endpoint.updateKeys
  cases hc : e.context.updateTrafficSecret (side.owner e.role) with
  | error err => exact Or.inl ⟨_, rfl⟩
  | ok c =>
    refine Or.inr ⟨c, rfl, ?_⟩
    dsimp only [forRecord]
    cases hp : e.protection.rekey c side with
    | error err => exact Or.inl ⟨err, rfl⟩
    | ok p => exact Or.inr ⟨p, rfl, rfl⟩

def logged {ε α : Type} (i : Item) : Except ε α → List Item
  | .ok _ => [i]
  | .error _ => []

/-- Some operations take one endpoint to another. The lists say which records and key updates were
made while writing and while reading, oldest first. -/
inductive Run (e : Endpoint) : List Item → List Item → Endpoint → Prop
  | start : Run e [] [] e
  | send {W R : List Item} {f : Endpoint} (h : Run e W R f) (t : ContentType)
    (plaintext : Bytes) :
    Run e (W ++ logged .record (f.send t plaintext).1) R (f.send t plaintext).2
  | receive {W R : List Item} {f : Endpoint} (h : Run e W R f) (wire : Bytes) :
    Run e W (R ++ logged .record (f.receive wire).1) (f.receive wire).2
  | updateWriteKeys {W R : List Item} {f : Endpoint} (h : Run e W R f) :
    Run e (W ++ logged .update f.updateWriteKeys.1) R f.updateWriteKeys.2
  | updateReadKeys {W R : List Item} {f : Endpoint} (h : Run e W R f) :
    Run e W (R ++ logged .update f.updateReadKeys.1) f.updateReadKeys.2

theorem Run.trans {f g : Endpoint} {W W' R R' : List Item} (h : e.Run W R f)
    (h' : f.Run W' R' g) : e.Run (W ++ W') (R ++ R') g := by
  induction h' with
  | start => rwa [List.append_nil, List.append_nil]
  | send _ t plaintext ih =>
    rw [← List.append_assoc]
    exact ih.send t plaintext
  | receive _ wire ih =>
    rw [← List.append_assoc]
    exact ih.receive wire
  | updateWriteKeys _ ih =>
    rw [← List.append_assoc]
    exact ih.updateWriteKeys
  | updateReadKeys _ ih =>
    rw [← List.append_assoc]
    exact ih.updateReadKeys

def receiveAll (e : Endpoint) : List Bytes → List (Except Failure Recovered) × Endpoint
  | [] => ([], e)
  | wire :: wires =>
    let (result, e) := e.receive wire
    let (results, e) := e.receiveAll wires
    (result :: results, e)

def sendAll (e : Endpoint) : List Recovered → List (Bytes × Recovered) × Endpoint
  | [] => ([], e)
  | content :: contents =>
    let (result, e) := e.send content.contentType content.plaintext
    let (records, e) := e.sendAll contents
    match result with
    | .ok wire => ((wire, content) :: records, e)
    | .error _ => (records, e)

theorem sendAll_cons_ok {wire : Bytes} (hok : (e.send t plaintext).1 = .ok wire)
    (rest : List Recovered) : e.sendAll (⟨plaintext, t⟩ :: rest) =
      ((wire, ⟨plaintext, t⟩) :: ((e.send t plaintext).2.sendAll rest).1,
        ((e.send t plaintext).2.sendAll rest).2) := by
  simp only [sendAll, hok]

theorem sendAll_cons_error (herr : (e.send t plaintext).1 = .error failure)
    (rest : List Recovered) :
    e.sendAll (⟨plaintext, t⟩ :: rest) = (e.send t plaintext).2.sendAll rest := by
  simp only [sendAll, herr]

end RecordLayer.Endpoint
