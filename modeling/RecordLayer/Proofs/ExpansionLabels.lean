import RecordLayer.Proofs.Construction
import RecordLayer.Proofs.Encodings

/-! # Labels of expansions

A labelled expansion is accepted under five limits, and the string that it is expanded under gives
back its length, its label behind the tag and its context. So expansions for different uses are
never made under the same string.
-/

namespace RecordLayer

namespace Hkdf

variable {h h' : Hash} {key key' tag tag' label label' context context' data data' : Bytes}
  {len len' : Nat}

structure Fits (tag label context : Bytes) (len : Nat) : Prop where
  len_le : len ≤ 65535
  label_le : tag.length + label.length ≤ 255
  context_le : context.length ≤ 255

theorem supports_iff : supports h = true ↔ h ∈ [Hash.sha256, .sha384, .sha512] := by
  cases h <;> decide

theorem limit_le (h : Hash) : limit h ≤ 65535 := by cases h <;> decide

theorem expandLabel_accepted_iff : (∃ data, expandLabel h key tag label context len = .ok data) ↔
    supports h = true ∧ h.size ≤ key.length ∧ len ≤ limit h ∧
      tag.length + label.length ≤ 255 ∧ context.length ≤ 255 := by
  rw [exists_expandLabel_iff, List.length_append]
  constructor
  · rintro ⟨⟨-, hlabel, hcontext⟩, hsup, hkey, hlen⟩
    exact ⟨hsup, hkey, hlen, hlabel, hcontext⟩
  · rintro ⟨hsup, hkey, hlen, hlabel, hcontext⟩
    exact ⟨⟨Nat.le_trans hlen (limit_le h), hlabel, hcontext⟩, hsup, hkey, hlen⟩

theorem fits_of_expandLabel (hok : expandLabel h key tag label context len = .ok data) :
    Fits tag label context len := by
  obtain ⟨-, -, hlen, hlabel, hcontext⟩ := expandLabel_accepted_iff.mp ⟨data, hok⟩
  exact ⟨Nat.le_trans hlen (limit_le h), hlabel, hcontext⟩

theorem labelInfo?_of_fits (hf : Fits tag label context len) :
    labelInfo? tag label context len = .ok (labelInfo tag label context len) :=
  if_pos ⟨hf.len_le, by rw [List.length_append]; exact hf.label_le, hf.context_le⟩

/-- Behind the length come the label, with its own length ahead of it, and the context. -/
theorem fields_of_labelInfo_eq
    (heq : labelInfo tag label context len = labelInfo tag' label' context' len') :
    Bytes.be 2 len = Bytes.be 2 len' ∧
      UInt8.ofNat (tag ++ label).length = UInt8.ofNat (tag' ++ label').length ∧
      (tag ++ label) ++ UInt8.ofNat context.length :: context =
        (tag' ++ label') ++ UInt8.ofNat context'.length :: context' := by
  unfold labelInfo at heq
  rw [List.append_assoc, List.append_assoc] at heq
  obtain ⟨hlen, hrest⟩ := List.append_inj heq (by rw [Bytes.length_be, Bytes.length_be])
  obtain ⟨hbyte, hfields⟩ := List.cons.inj hrest
  exact ⟨hlen, hbyte, hfields⟩

theorem labelInfo_ne (htag : tag.length = tag'.length) (hl : tag.length + label.length ≤ 255)
    (hl' : tag'.length + label'.length ≤ 255) (hne : label.length ≠ label'.length) :
    labelInfo tag label context len ≠ labelInfo tag' label' context' len' := by
  intro heq
  obtain ⟨-, hbyte, -⟩ := fields_of_labelInfo_eq heq
  rw [List.length_append, List.length_append] at hbyte
  have hsize := Bytes.eq_of_ofNat_eq hl hl' hbyte
  omega

theorem labelInfo_inj (hf : Fits tag label context len) (hf' : Fits tag' label' context' len')
    (heq : labelInfo tag label context len = labelInfo tag' label' context' len') :
    len = len' ∧ tag ++ label = tag' ++ label' ∧ context = context' := by
  obtain ⟨hnumber, hbyte, hfields⟩ := fields_of_labelInfo_eq heq
  have hlen := congrArg Bytes.ofBe hnumber
  rw [Bytes.ofBe_be2 hf.len_le, Bytes.ofBe_be2 hf'.len_le] at hlen
  rw [List.length_append, List.length_append] at hbyte
  -- The byte ahead of the label says where the label ends.
  have hsize := Bytes.eq_of_ofNat_eq hf.label_le hf'.label_le hbyte
  obtain ⟨hlabel, htail⟩ := List.append_inj hfields (by rw [List.length_append, hsize,
    List.length_append])
  exact ⟨hlen, hlabel, (List.cons.inj htail).2⟩

/-- What traffic secrets are expanded for: the keys of a direction and the next secret. -/
def purposes : List String := ["key", "iv", "traffic upd"]

theorem labelInfo_purpose_ne {p q : String} (hp : p ∈ purposes) (hq : q ∈ purposes) (hne : p ≠ q)
    (htag : tag.length = 6) (htag' : tag'.length = 6) :
    labelInfo tag (Bytes.ofText p) context len ≠
      labelInfo tag' (Bytes.ofText q) context' len' := by
  have hsize : ∀ x ∈ purposes, x.utf8ByteSize ≤ 11 := by decide
  have hsizes : ∀ x ∈ purposes, ∀ y ∈ purposes, x ≠ y → x.utf8ByteSize ≠ y.utf8ByteSize := by
    decide
  apply labelInfo_ne (htag.trans htag'.symm)
  · have hle := hsize p hp
    rw [Bytes.length_ofText]
    omega
  · have hle := hsize q hq
    rw [Bytes.length_ofText]
    omega
  · rw [Bytes.length_ofText, Bytes.length_ofText]
    exact hsizes p hp q hq hne

/-- An expansion is accepted exactly under its limits and then gives as many bytes as were asked
for. Two that are accepted share an info string only if they agree in length, label and context,
and expansions of traffic secrets for different purposes never share one. -/
theorem expandLabel_separates (h h' : Hash)
    (key key' tag tag' label label' context context' : Bytes) (len len' : Nat) :
    ((∃ data, expandLabel h key tag label context len = .ok data) ↔
      h ∈ [Hash.sha256, .sha384, .sha512] ∧ h.size ≤ key.length ∧ len ≤ 255 * h.size ∧
        tag.length + label.length ≤ 255 ∧ context.length ≤ 255) ∧
    (∀ data, expandLabel h key tag label context len = .ok data →
      data.length = len ∧ expand h key (labelInfo tag label context len) len = .ok data) ∧
    (∀ data data', expandLabel h key tag label context len = .ok data →
      expandLabel h' key' tag' label' context' len' = .ok data' →
      labelInfo tag label context len = labelInfo tag' label' context' len' →
        len = len' ∧ tag ++ label = tag' ++ label' ∧ context = context') ∧
    (∀ v : Version, v.labelTag.length = 6) ∧
    ∀ p ∈ purposes, ∀ q ∈ purposes, p ≠ q → tag.length = 6 → tag'.length = 6 →
      labelInfo tag (Bytes.ofText p) context len ≠
        labelInfo tag' (Bytes.ofText q) context' len' := by
  refine ⟨?_, ?_, ?_, Version.length_labelTag, ?_⟩
  · rw [← supports_iff]
    exact expandLabel_accepted_iff
  · intro data hok
    refine ⟨length_of_expandLabel hok, ?_⟩
    obtain ⟨hsup, -⟩ := expandLabel_accepted_iff.mp ⟨data, hok⟩
    rwa [expandLabel, labelInfo?_of_fits (fits_of_expandLabel hok), ok_bind, if_pos hsup] at hok
  · intro data data' hok hok'
    exact labelInfo_inj (fits_of_expandLabel hok) (fits_of_expandLabel hok')
  · intro p hp q hq
    exact labelInfo_purpose_ne hp hq

theorem expandLabel_separates_tls13 :
    (∃ data, expandLabel .sha256 (Bytes.zeros 32) (Version.labelTag .tls13) (Bytes.ofText "key") []
      16 = .ok data) ∧
    labelInfo (Version.labelTag .tls13) (Bytes.ofText "key") [] 16 ≠
      labelInfo (Version.labelTag .dtls13) (Bytes.ofText "iv") [] 12 := by
  obtain ⟨haccepted, -, -, htag, hpurposes⟩ := expandLabel_separates .sha256 .sha256
    (Bytes.zeros 32) (Bytes.zeros 32) (Version.labelTag .tls13) (Version.labelTag .dtls13)
    (Bytes.ofText "key") (Bytes.ofText "iv") [] [] 16 12
  have htext : (Bytes.ofText "key").length = 3 := Bytes.length_ofText "key"
  refine ⟨haccepted.mpr ⟨by decide, by decide, by decide, ?_, by decide⟩,
    hpurposes "key" (by decide) "iv" (by decide) (by decide) (htag _) (htag _)⟩
  rw [htag, htext]
  decide

end Hkdf

end RecordLayer
