import RecordLayer.Proofs.Robustness

/-! # Reading and writing headers

A header that is read is written back to the bytes it was read from, and one that is written is
read back. What is refused is empty, too short for the header that its first byte calls for, or of
an unknown version. A connection ID whose length leaves the range of sizes with that of the header
is a fault (`parse_overflow`).
-/

namespace RecordLayer.Header

variable {x rest : Bytes} {datagram : Bool} {idSize idSize' : Nat} {code : UInt8} {h : Header}

theorem parse_congr (hsize : ∀ code, x.head? = some code →
      sizeFor datagram ⟨code⟩ idSize = sizeFor datagram ⟨code⟩ idSize') :
    parse x datagram idSize = parse x datagram idSize' := by
  unfold parse
  cases hcode : x.head? with
  | none => rfl
  | some code => simp only [hsize code hcode]

theorem exists_idSize (hn : expectedSize datagram ⟨code⟩ idSize < Size.bound)
    (hcode : x.head? = some code) : ∃ idSize', datagramSize + idSize' < Size.bound ∧
      parse x datagram idSize = parse x datagram idSize' := by
  by_cases hid : datagramSize + idSize < Size.bound
  · exact ⟨idSize, hid, rfl⟩
  · refine ⟨0, by decide, parse_congr ?_⟩
    intro code' hcode'
    obtain rfl := Option.some.inj (hcode.symm.trans hcode')
    unfold expectedSize at hn
    unfold sizeFor
    cases datagram with
    | false => rfl
    | true =>
      simp only [Bool.not_true, Bool.false_eq_true, if_false, if_true] at hn ⊢
      split
      · rename_i ht
        rw [if_pos ht] at hn
        exact absurd hn hid
      · rfl

theorem write_of_parse (hp : parse x datagram idSize = .ok h) :
    h.size ≤ x.length ∧ h.write h.size = .ok (x.take h.size) := by
  cases hcode : x.head? with
  | none =>
    simp only [parse, hcode] at hp
    cases hp
  | some code =>
    have hn : expectedSize datagram ⟨code⟩ idSize < Size.bound := by
      have houtcome : Outcome x (expectedSize datagram ⟨code⟩ idSize) (.ok h) :=
        hp ▸ parse_outcome hcode
      cases houtcome with
      | read hn => exact hn
    obtain ⟨idSize', hid, heq⟩ := exists_idSize hn hcode
    rw [heq] at hp
    obtain ⟨hf, hx⟩ := parse_eq_ok hid hp
    have htake : x.take h.size = h.bytes := by
      rw [hx, ← length_bytes, List.take_left]
    refine ⟨?_, ?_⟩
    · have hlen := congrArg List.length htake
      rw [List.length_take, length_bytes] at hlen
      omega
    · rw [htake, write_eq_ok hf.length_le]

/-- The header has the fields of its kind, in lengths that can be held. -/
structure WellFormed (h : Header) (datagram : Bool) (idSize : Nat) : Prop where
  length_le : h.length ≤ 65535
  sequence : h.sequence.isSome = datagram
  id : ¬ (datagram = true ∧ h.contentType = .connectionId) → h.connectionId = []
  length_id : datagram = true ∧ h.contentType = .connectionId → h.connectionId.length = idSize
  id_le : h.connectionId.length ≤ Size.capacity

theorem WellFormed.fits (hw : h.WellFormed datagram idSize) :
    h.Fits datagram h.connectionId.length := by
  refine ⟨hw.length_le, hw.sequence, ?_, ?_⟩
  · split
    · rfl
    · rename_i ht
      rw [hw.id ht]
      rfl
  · have hle := hw.id_le
    unfold Size.capacity at hle
    unfold datagramSize Size.bound
    omega

theorem parse_of_write (hw : h.WellFormed datagram idSize) (rest : Bytes) :
    h.write h.size = .ok h.bytes ∧ parse (h.bytes ++ rest) datagram idSize = .ok h := by
  refine ⟨write_eq_ok hw.length_le, ?_⟩
  rw [← parse_bytes hw.fits rest]
  apply parse_congr
  rintro code hcode
  obtain rfl : h.contentType.code = code := Option.some.inj hcode
  by_cases ht : datagram = true ∧ h.contentType = .connectionId
  · rw [hw.length_id ht]
  · unfold sizeFor
    cases datagram with
    | false => rfl
    | true =>
      have htype : (⟨h.contentType.code⟩ : ContentType) ≠ .connectionId := fun hc => ht ⟨rfl, hc⟩
      simp only [Bool.not_true, Bool.false_eq_true, if_false, if_neg htype]

namespace Outcome

variable {n : Nat} {result : Except Failure Header}

theorem refused_iff (h : Outcome x n result) :
    (∃ reason, result = .error (.refused (.decodeError reason))) ↔
      n < Size.bound ∧ (x.length < n ∨ UnknownVersion x) := by
  cases h with
  | overflow hn => exact iff_of_false (by rintro ⟨_, ⟨⟩⟩) fun h => Nat.not_lt.mpr hn h.1
  | short hn hlen => exact iff_of_true ⟨_, rfl⟩ ⟨hn, Or.inl hlen⟩
  | unknown hn _ hversion => exact iff_of_true ⟨_, rfl⟩ ⟨hn, Or.inr hversion⟩
  | read _ hlen hversion =>
    refine iff_of_false (by rintro ⟨_, ⟨⟩⟩) ?_
    rintro ⟨-, hshort | hunknown⟩
    · exact Nat.not_lt.mpr hlen hshort
    · exact hversion hunknown

theorem fault_iff {f : Fault} (h : Outcome x n result) :
    result = .error (.fault f) ↔ f = .sizeOverflow ∧ Size.bound ≤ n := by
  cases h with
  | overflow hn =>
    constructor
    · rintro ⟨⟩
      exact ⟨rfl, hn⟩
    · rintro ⟨rfl, -⟩
      rfl
  | short hn | unknown hn | read hn =>
    exact iff_of_false (by rintro ⟨⟩) fun h => Nat.not_lt.mpr h.2 hn

theorem total (h : Outcome x n result) : (∃ h, result = .ok h) ∨
    (∃ reason, result = .error (.refused (.decodeError reason))) ∨
      ∃ f, result = .error (.fault f) := by
  cases h with
  | overflow => exact Or.inr (Or.inr ⟨_, rfl⟩)
  | short | unknown => exact Or.inr (Or.inl ⟨_, rfl⟩)
  | read _ _ _ h => exact Or.inl ⟨h, rfl⟩

end Outcome

theorem parse_refused_iff : (∃ reason, parse x datagram idSize =
      .error (.refused (.decodeError reason))) ↔
    x = [] ∨ ∃ code, x.head? = some code ∧
      expectedSize datagram ⟨code⟩ idSize < Size.bound ∧
      (x.length < expectedSize datagram ⟨code⟩ idSize ∨ UnknownVersion x) := by
  cases x with
  | nil => exact iff_of_true ⟨_, rfl⟩ (Or.inl rfl)
  | cons code rest =>
    refine (parse_outcome rfl).refused_iff.trans ?_
    simp

theorem parse_fault_iff {f : Fault} : parse x datagram idSize = .error (.fault f) ↔
    f = .sizeOverflow ∧ ∃ code, x.head? = some code ∧
      Size.bound ≤ expectedSize datagram ⟨code⟩ idSize := by
  cases x with
  | nil => exact iff_of_false (by rintro ⟨⟩) (by rintro ⟨-, _, ⟨⟩, -⟩)
  | cons code rest =>
    refine (parse_outcome rfl).fault_iff.trans ?_
    simp

theorem parse_total (x : Bytes) (datagram : Bool) (idSize : Nat) :
    (∃ h, parse x datagram idSize = .ok h) ∨
      (∃ reason, parse x datagram idSize = .error (.refused (.decodeError reason))) ∨
      ∃ f, parse x datagram idSize = .error (.fault f) := by
  cases x with
  | nil => exact Or.inr (Or.inl ⟨_, rfl⟩)
  | cons code rest => exact (parse_outcome rfl).total

/-- Reading and writing are inverse to each other, and what is not read is refused for its length or
its version, unless the size of its header is out of range. -/
theorem parse_write_inverse (x : Bytes) (datagram : Bool) (idSize : Nat) :
    (∀ h, parse x datagram idSize = .ok h →
      h.size ≤ x.length ∧ h.write h.size = .ok (x.take h.size)) ∧
    (∀ (h : Header) (rest : Bytes), h.WellFormed datagram idSize →
      ∃ y, h.write h.size = .ok y ∧ parse (y ++ rest) datagram idSize = .ok h) ∧
    ((∃ reason, parse x datagram idSize = .error (.refused (.decodeError reason))) ↔
      x = [] ∨ ∃ code, x.head? = some code ∧
        expectedSize datagram ⟨code⟩ idSize < Size.bound ∧
        (x.length < expectedSize datagram ⟨code⟩ idSize ∨ UnknownVersion x)) ∧
    (∀ f, parse x datagram idSize = .error (.fault f) ↔
      f = .sizeOverflow ∧ ∃ code, x.head? = some code ∧
        Size.bound ≤ expectedSize datagram ⟨code⟩ idSize) ∧
    ((∃ h, parse x datagram idSize = .ok h) ∨
      (∃ reason, parse x datagram idSize = .error (.refused (.decodeError reason))) ∨
      ∃ f, parse x datagram idSize = .error (.fault f)) := by
  refine ⟨fun h => write_of_parse, ?_, parse_refused_iff, fun f => parse_fault_iff,
    parse_total x datagram idSize⟩
  intro h rest hw
  exact ⟨h.bytes, parse_of_write hw rest⟩

theorem parse_write_inverse_connectionId :
    let h : Header := ⟨.connectionId, .dtls12, some 0x0001000000000005, [0xaa, 0xbb], 40⟩
    let x : Bytes := [0x19, 0xfe, 0xfd, 0, 1, 0, 0, 0, 0, 0, 5, 0xaa, 0xbb, 0, 40, 1, 2, 3]
    parse x true 2 = .ok h ∧ h.write 15 = .ok (x.take 15) := by
  intro h x
  have hw : h.WellFormed true 2 :=
    ⟨by decide, rfl, fun hn => absurd ⟨rfl, rfl⟩ hn, fun _ => rfl, by decide⟩
  have hx : h.bytes ++ [1, 2, 3] = x := by decide
  have hsize : h.size = 15 := rfl
  obtain ⟨hread, hwritten, -⟩ := parse_write_inverse x true 2
  obtain ⟨y, hwrite, hparse⟩ := hwritten h [1, 2, 3] hw
  obtain rfl := Except.ok.inj ((write_eq_ok hw.length_le).symm.trans hwrite)
  rw [hx] at hparse
  exact ⟨hparse, hsize ▸ (hread h hparse).2⟩

/-- A record is too short for the header that it calls for, and yet it is not refused where a
connection ID of the greatest length is expected. -/
theorem parse_overflow :
    let idSize := 18446744073709551615
    let x : Bytes := [0x19, 0xfe, 0xfd, 0, 1, 0, 0, 0, 0, 0, 5, 0, 1, 0x61]
    x.length < expectedSize true .connectionId idSize ∧
      (¬ ∃ reason, parse x true idSize = .error (.refused (.decodeError reason))) ∧
      parse x true idSize = .error (.fault .sizeOverflow) := by
  intro idSize x
  have hfault : parse x true idSize = .error (.fault .sizeOverflow) :=
    parse_fault_iff.mpr ⟨rfl, 0x19, rfl, by decide⟩
  refine ⟨by decide, ?_, hfault⟩
  rw [hfault]
  rintro ⟨_, ⟨⟩⟩

end RecordLayer.Header
