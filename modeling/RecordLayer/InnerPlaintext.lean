import RecordLayer.ContentType
import RecordLayer.Failure

/-! # Inner plaintexts

A record that hides its type appends the type to the plaintext. Zeros may follow, so the type is
the last byte that is not zero.
-/

namespace RecordLayer.InnerPlaintext

/-- What a decoder allows on top of the plaintext: the type and 255 zeros. -/
def allowance (inUse : Bool) : Nat := if inUse then 256 else 0

def overhead (inUse : Bool) : Nat := if inUse then 1 else 0

def wrap (inUse : Bool) (t : ContentType) (plaintext : Bytes) : Bytes :=
  if inUse then plaintext ++ [t.code] else plaintext

/-- The plaintext and the type, from the end of the string. -/
def stripReversed : Bytes → Option (Bytes × ContentType)
  | [] => none
  | b :: rest => if b = 0 then stripReversed rest else some (rest.reverse, ⟨b⟩)

def strip (inner : Bytes) : Except RecordError (Bytes × ContentType) :=
  match stripReversed inner.reverse with
  | some r => .ok r
  | none => .error (.unexpectedMessage "inner plaintext has no content type")

/-- The plaintext and its type, which is `outer` if the record does not hide it. -/
def unwrap (inUse : Bool) (outer : ContentType) (inner : Bytes) :
    Except RecordError (Bytes × ContentType) :=
  if inUse then strip inner else .ok (inner, outer)

theorem length_wrap (inUse : Bool) (t : ContentType) (plaintext : Bytes) :
    (wrap inUse t plaintext).length = plaintext.length + overhead inUse := by
  cases inUse <;> simp [wrap, overhead]

theorem strip_append {t : ContentType} (h : t.code ≠ 0) (plaintext : Bytes) :
    strip (plaintext ++ [t.code]) = .ok (plaintext, t) := by
  simp [strip, stripReversed, h]

end RecordLayer.InnerPlaintext
