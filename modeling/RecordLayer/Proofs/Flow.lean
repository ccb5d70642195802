import RecordLayer.Proofs.Endpoints

/-! # Flow in one direction

Between what one end has written and what has arrived at the other there are records on their way
and key updates that only one end has made. Following these takes one link to the other.
-/

namespace RecordLayer

open Connection (Settings)

inductive Item
  | record
  | update
  deriving DecidableEq

variable {s : Settings} {r : Role} {l l' writer reader : Link} {items W R : List Item} {i j : Item}
  {wire fragment : Bytes} {received : Recovered} {wires : List (Bytes × Recovered)}

/-- The number of the next record, if it was `n` before. -/
def recordsFrom (n : Nat) (items : List Item) : Nat :=
  items.foldl (fun n i => match i with | .record => n + 1 | .update => 0) n

@[simp] theorem recordsFrom_record (n : Nat) (items : List Item) :
    recordsFrom n (items ++ [.record]) = recordsFrom n items + 1 := by
  rw [recordsFrom, List.foldl_append]
  rfl

@[simp] theorem recordsFrom_update (n : Nat) (items : List Item) :
    recordsFrom n (items ++ [.update]) = 0 := by
  rw [recordsFrom, List.foldl_append]
  rfl

theorem toNat_succ {n : UInt64} (h : n.toNat + 1 < Size.bound) : (n + 1).toNat = n.toNat + 1 := by
  rw [UInt64.toNat_add]
  exact Nat.mod_eq_of_lt h

/-- One end is ahead of the other, and they have moved alike so far. -/
def InStep (W R : List Item) : Prop := W <+: R ∨ R <+: W

theorem InStep.symm (h : InStep W R) : InStep R W := h.elim .inr .inl

theorem InStep.of_append {W' R' : List Item} (h : InStep (W ++ W') (R ++ R')) : InStep W R := by
  rcases h with h | h
  · exact List.prefix_or_prefix_of_prefix ((List.prefix_append W W').trans h)
      (List.prefix_append R R')
  · exact List.prefix_or_prefix_of_prefix (List.prefix_append W W')
      ((List.prefix_append R R').trans h)

theorem InStep.eq_next (h : InStep (W ++ [i]) (W ++ j :: items)) : i = j := by
  rcases h with h | h
  · obtain ⟨hij, -⟩ := List.cons_prefix_cons.mp ((List.prefix_append_right_inj W).mp h)
    exact hij
  · obtain ⟨hij, -⟩ := List.cons_prefix_cons.mp ((List.prefix_append_right_inj W).mp h)
    exact hij.symm

namespace Link

theorem toNat_seq_record (h : l.Bears s r wire received fragment) :
    (l.record fragment).seq.toNat = l.seq.toNat + 1 := toNat_succ h.seq_lt

theorem seq_update {v : Version} {h : Hash} (hl : l.update v h = .ok l') : l'.seq = 0 := by
  simp only [update, bind_eq_ok, pure_eq_ok] at hl
  obtain ⟨secret, -, direction, -, rfl⟩ := hl
  rfl

inductive Path (s : Settings) (r : Role) :
    Link → List Item → List (Bytes × Recovered) → Link → Prop
  | nil (l : Link) : Path s r l [] [] l
  | record {l l' : Link} {items wires wire received fragment}
    (hb : l.Bears s r wire received fragment) (h : Path s r (l.record fragment) items wires l') :
    Path s r l (.record :: items) ((wire, received) :: wires) l'
  | update {l l₁ l' : Link} {items wires} (hu : l.update s.version s.suite.prfHash = .ok l₁)
    (h : Path s r l₁ items wires l') : Path s r l (.update :: items) wires l'

theorem Path.append_record (h : Path s r l items wires l')
    (hb : l'.Bears s r wire received fragment) :
    Path s r l (items ++ [.record]) (wires ++ [(wire, received)]) (l'.record fragment) := by
  induction h with
  | nil l => exact .record hb (.nil _)
  | record hb' _ ih => exact .record hb' (ih hb)
  | update hu _ ih => exact .update hu (ih hb)

theorem Path.append_update {l₁ : Link} (h : Path s r l items wires l')
    (hu : l'.update s.version s.suite.prfHash = .ok l₁) :
    Path s r l (items ++ [.update]) wires l₁ := by
  induction h with
  | nil l => exact .update hu (.nil _)
  | record hb _ ih => exact .record hb (ih hu)
  | update hu' _ ih => exact .update hu' (ih hu)

/-- How the two ends of a direction stand to each other, after one has written `W` and `R` has
arrived at the other. -/
inductive Gap (s : Settings) (r : Role) (writer reader : Link)
    (wires : List (Bytes × Recovered)) (W R : List Item) : Prop
  | ahead (items : List Item) (hp : Path s r reader items wires writer) (hW : W = R ++ items)
    (hu : s.version.isTls13 = true → writer.Updatable s.suite.prfHash)
  | behind (items : List Item) (hp : Path s r writer items [] reader) (hR : R = W ++ items)
    (hwires : wires = []) (hu : s.version.isTls13 = true → reader.Updatable s.suite.prfHash)

theorem Gap.write (h : Gap s r writer reader wires W R)
    (hb : writer.Bears s r wire received fragment) (hs : InStep (W ++ [.record]) R) :
    Gap s r (writer.record fragment) reader (wires ++ [(wire, received)]) (W ++ [.record]) R := by
  cases h with
  | ahead items hp hW hu =>
    exact .ahead _ (hp.append_record hb) (by rw [hW, List.append_assoc])
      (fun h13 => (hu h13).record fragment)
  | behind items hp hR hwires hu =>
    subst hR hwires
    cases hp with
    | nil =>
      rw [List.append_nil]
      exact .ahead [.record] (.record hb (.nil _)) rfl (fun h13 => (hu h13).record fragment)
    | update => cases hs.eq_next

theorem Gap.arrive (h : Gap s r writer reader ((wire, received) :: wires) W R)
    (hs : InStep W (R ++ [.record])) : ∃ fragment, reader.Bears s r wire received fragment ∧
      Gap s r writer (reader.record fragment) wires W (R ++ [.record]) := by
  cases h with
  | ahead items hp hW hu =>
    subst hW
    cases hp with
    | record hb hp => exact ⟨_, hb, .ahead _ hp (by rw [List.append_assoc]; rfl) hu⟩
    | update => cases hs.symm.eq_next
  | behind items hp hR hwires hu => cases hwires

theorem Gap.updateWrite (h : Gap s r writer reader wires W R)
    (h13 : s.version.isTls13 = true) : ∃ l, writer.update s.version s.suite.prfHash = .ok l ∧
      Gap s r l reader wires (W ++ [.update]) R := by
  cases h with
  | ahead items hp hW hu =>
    obtain ⟨l, hl, hl'⟩ := (hu h13).exists_update s.version
    exact ⟨l, hl, .ahead _ (hp.append_update hl) (by rw [hW, List.append_assoc]) (fun _ => hl')⟩
  | behind items hp hR hwires hu =>
    subst hR hwires
    cases hp with
    | nil =>
      obtain ⟨l, hl, hl'⟩ := (hu h13).exists_update s.version
      rw [List.append_nil]
      exact ⟨l, hl, .ahead [.update] (.update hl (.nil _)) rfl (fun _ => hl')⟩
    | update hl hp => exact ⟨_, hl, .behind _ hp (by rw [List.append_assoc]; rfl) rfl hu⟩

theorem Gap.updateRead (h : Gap s r writer reader wires W R) (h13 : s.version.isTls13 = true)
    (hs : InStep W (R ++ [.update])) : ∃ l, reader.update s.version s.suite.prfHash = .ok l ∧
      Gap s r writer l wires W (R ++ [.update]) := by
  cases h with
  | ahead items hp hW hu =>
    subst hW
    cases hp with
    | nil =>
      obtain ⟨l, hl, hl'⟩ := (hu h13).exists_update s.version
      rw [List.append_nil]
      exact ⟨l, hl, .behind [.update] (.update hl (.nil _)) rfl rfl (fun _ => hl')⟩
    | record => cases hs.symm.eq_next
    | update hl hp => exact ⟨_, hl, .ahead _ hp (by rw [List.append_assoc]; rfl) hu⟩
  | behind items hp hR hwires hu =>
    obtain ⟨l, hl, hl'⟩ := (hu h13).exists_update s.version
    exact ⟨l, hl, .behind _ (hp.append_update hl) (by rw [hR, List.append_assoc]) hwires
      (fun _ => hl')⟩

structure Flow (s : Settings) (r : Role) (writer reader : Link)
    (wires : List (Bytes × Recovered)) (W R : List Item) : Prop where
  gap : Gap s r writer reader wires W R
  writeSeq : writer.seq.toNat = recordsFrom 0 W
  readSeq : reader.seq.toNat = recordsFrom 0 R

theorem Flow.write (h : Flow s r writer reader wires W R)
    (hb : writer.Bears s r wire received fragment) (hs : InStep (W ++ [.record]) R) :
    Flow s r (writer.record fragment) reader (wires ++ [(wire, received)]) (W ++ [.record]) R := by
  refine ⟨h.gap.write hb hs, ?_, h.readSeq⟩
  rw [toNat_seq_record hb, h.writeSeq, recordsFrom_record]

theorem Flow.arrive (h : Flow s r writer reader ((wire, received) :: wires) W R)
    (hs : InStep W (R ++ [.record])) : ∃ fragment, reader.Bears s r wire received fragment ∧
      Flow s r writer (reader.record fragment) wires W (R ++ [.record]) := by
  obtain ⟨fragment, hb, hgap⟩ := h.gap.arrive hs
  refine ⟨fragment, hb, hgap, h.writeSeq, ?_⟩
  rw [toNat_seq_record hb, h.readSeq, recordsFrom_record]

theorem Flow.updateWrite (h : Flow s r writer reader wires W R)
    (h13 : s.version.isTls13 = true) : ∃ l, writer.update s.version s.suite.prfHash = .ok l ∧
      Flow s r l reader wires (W ++ [.update]) R := by
  obtain ⟨l, hl, hgap⟩ := h.gap.updateWrite h13
  refine ⟨l, hl, hgap, ?_, h.readSeq⟩
  rw [seq_update hl, recordsFrom_update]
  rfl

theorem Flow.updateRead (h : Flow s r writer reader wires W R) (h13 : s.version.isTls13 = true)
    (hs : InStep W (R ++ [.update])) : ∃ l, reader.update s.version s.suite.prfHash = .ok l ∧
      Flow s r writer l wires W (R ++ [.update]) := by
  obtain ⟨l, hl, hgap⟩ := h.gap.updateRead h13 hs
  refine ⟨l, hl, hgap, h.writeSeq, ?_⟩
  rw [seq_update hl, recordsFrom_update]
  rfl

theorem Flow.start (hseq : l.seq = 0)
    (hu : s.version.isTls13 = true → l.Updatable s.suite.prfHash) : Flow s r l l [] [] [] :=
  ⟨.ahead [] (.nil l) rfl hu, by rw [hseq]; rfl, by rw [hseq]; rfl⟩

end Link

end RecordLayer
