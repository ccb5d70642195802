import RecordLayer.Bytes
import RecordLayer.ContentType
import RecordLayer.Failure

/-! # Protected records

What protection makes of a plaintext and gives back from a fragment. The fragment stands behind
room that the caller asked for, to write a header into.
-/

namespace RecordLayer

structure Protected where
  buffer : Bytes
  offset : Nat
  size : Nat
  recordType : ContentType
  deriving DecidableEq

structure Recovered where
  plaintext : Bytes
  contentType : ContentType
  deriving DecidableEq

namespace Protected

def fragment (p : Protected) : Bytes := (p.buffer.drop p.offset).take p.size

/-- The refusal of a length other than the predicted one. -/
def expectSize (predicted actual : Nat) (reason : String) : Except RecordError Unit :=
  if actual = predicted then .ok () else .error (.internalError reason)

/-- A fragment of a length stated beforehand, behind `room` zero bytes. -/
def ofSize (room size : Nat) (t : ContentType) (fragment : Bytes) : Protected :=
  ⟨Bytes.zeros room ++ fragment, room, size, t⟩

/-- Put a fragment behind `room` zero bytes. -/
def assemble (room : Nat) (t : ContentType) (fragment : Bytes) : Protected :=
  ofSize room fragment.length t fragment

@[simp] theorem fragment_assemble (room : Nat) (t : ContentType) (fragment : Bytes) :
    (assemble room t fragment).fragment = fragment := by
  simp [Protected.fragment, assemble, ofSize]

theorem expectSize_eq_ok {predicted actual : Nat} {reason : String} :
    expectSize predicted actual reason = .ok () ↔ actual = predicted := by
  simp [expectSize]

theorem ofSize_eq_assemble {room size : Nat} {t : ContentType} {fragment : Bytes}
    (h : fragment.length = size) : ofSize room size t fragment = assemble room t fragment := by
  rw [assemble, h]

end Protected

def splitTag (tagSize : Nat) (fragment : Bytes) : Except Fault (Bytes × Bytes) := do
  let n ← Size.sub fragment.length tagSize
  let body ← fragment.slice 0 n
  let tag ← fragment.slice n fragment.length
  pure (body, tag)

theorem splitTag_eq_ok {tagSize : Nat} {fragment : Bytes} (h : tagSize ≤ fragment.length) :
    splitTag tagSize fragment = .ok (fragment.take (fragment.length - tagSize),
      fragment.drop (fragment.length - tagSize)) := by
  have hn : fragment.length - tagSize ≤ fragment.length := Nat.sub_le ..
  have ht : (fragment.drop (fragment.length - tagSize)).take
      (fragment.length - (fragment.length - tagSize)) =
        fragment.drop (fragment.length - tagSize) :=
    List.take_of_length_le (Nat.le_of_eq List.length_drop)
  simp [splitTag, Size.sub_eq_ok h, Bytes.slice_eq_ok (Nat.zero_le _) hn,
    Bytes.slice_eq_ok hn (Nat.le_refl _), ht, bind, Except.bind, pure, Except.pure]

end RecordLayer
