import RecordLayer.KeySchedule.Secret
import RecordLayer.Proofs.Results

/-! # Derived keys

Labelled expansion gives as many bytes as were asked for, and whether it succeeds depends on
lengths only.
-/

namespace RecordLayer

variable {h : Hash} {key tag label context info data : Bytes} {len keySize ivSize : Nat}

theorem Bytes.length_toList_loop (b : ByteArray) (i : Nat) (r : List UInt8) :
    (ByteArray.toList.loop b i r).length = r.length + (b.size - i) := by
  fun_induction ByteArray.toList.loop b i r with
  | case1 i r hlt ih =>
    rw [ih, List.length_cons]
    omega
  | case2 i r hge =>
    rw [List.length_reverse]
    omega

theorem Bytes.length_ofText (s : String) : (ofText s).length = s.utf8ByteSize := by
  rw [ofText, ByteArray.toList, length_toList_loop, List.length_nil, Nat.sub_zero, Nat.zero_add]
  rfl

theorem Prf.le_pieceCount_mul {n : Nat} (hn : 0 < n) : len ≤ pieceCount n len * n := by
  have hdiv := Nat.div_add_mod (len + n - 1) n
  have hmod := Nat.mod_lt (len + n - 1) hn
  rw [pieceCount, Nat.mul_comm]
  omega

namespace Hkdf

theorem length_flatten_expandBlocks (h : Hash) (key info : Bytes) (n i : Nat) (last : Bytes) :
    (expandBlocks h key info n i last).flatten.length = n * h.size := by
  induction n generalizing i last with
  | zero => simp [expandBlocks]
  | succ n ih =>
    rw [expandBlocks, List.flatten_cons, List.length_append, ih, Hash.length_hmac, Nat.succ_mul,
      Nat.add_comm]

theorem length_of_expand (hok : expand h key info len = .ok data) : data.length = len := by
  unfold expand at hok
  split at hok
  · cases hok
  · split at hok
    · cases hok
    · obtain rfl := Except.ok.inj hok
      have hpos : 0 < h.size := by cases h <;> decide
      rw [List.length_take, length_flatten_expandBlocks]
      exact Nat.min_eq_left (Prf.le_pieceCount_mul hpos)

theorem length_of_expandLabel (hok : expandLabel h key tag label context len = .ok data) :
    data.length = len := by
  simp only [expandLabel, bind_eq_ok] at hok
  obtain ⟨info, -, hok⟩ := hok
  split at hok
  · exact length_of_expand hok
  · cases hok

theorem exists_expandLabel_iff : (∃ data, expandLabel h key tag label context len = .ok data) ↔
    (len ≤ 65535 ∧ (tag ++ label).length ≤ 255 ∧ context.length ≤ 255) ∧
      supports h = true ∧ h.size ≤ key.length ∧ len ≤ limit h := by
  unfold expandLabel labelInfo?
  by_cases hfit : len ≤ 65535 ∧ (tag ++ label).length ≤ 255 ∧ context.length ≤ 255
  · by_cases hs : supports h = true
    · simp only [if_pos hfit, if_pos hs, expand, bind, Except.bind]
      by_cases hk : h.size ≤ key.length
      · rw [if_neg (Nat.not_lt.mpr hk)]
        by_cases hl : len ≤ limit h
        · rw [if_neg (Nat.not_lt.mpr hl)]
          exact iff_of_true ⟨_, rfl⟩ ⟨hfit, hs, hk, hl⟩
        · rw [if_pos (Nat.lt_of_not_le hl)]
          exact iff_of_false (by rintro ⟨_, ⟨⟩⟩) (fun hc => hl hc.2.2.2)
      · rw [if_pos (Nat.lt_of_not_le hk)]
        exact iff_of_false (by rintro ⟨_, ⟨⟩⟩) (fun hc => hk hc.2.2.1)
    · simp only [if_pos hfit, if_neg hs, bind, Except.bind]
      exact iff_of_false (by rintro ⟨_, ⟨⟩⟩) (fun hc => hs hc.2.1)
  · simp only [if_neg hfit, bind, Except.bind]
    exact iff_of_false (by rintro ⟨_, ⟨⟩⟩) (fun hc => hfit hc.1)

end Hkdf

namespace Secret

variable {s s' : Secret} {keys : TrafficKeys} {n : Nat}

def HasSize (s : Secret) (n : Nat) : Prop := ∃ data, s.material = some data ∧ data.length = n

theorem supports_of_expandLabel (hs : s.HasSize n)
    (hok : s.expandLabel h tag label context len = .ok s') :
    Hkdf.supports h = true ∧ h.size ≤ n := by
  obtain ⟨data, hm, rfl⟩ := hs
  simp only [expandLabel, read, hm, bind_eq_ok, map_eq_ok] at hok
  obtain ⟨key, hkey, data', hdata, -⟩ := hok
  obtain rfl := Except.ok.inj hkey
  obtain ⟨-, hsup, hle, -⟩ := Hkdf.exists_expandLabel_iff.mp ⟨data', hdata⟩
  exact ⟨hsup, hle⟩

theorem exists_expandLabel (hs : s.HasSize n) (hsup : Hkdf.supports h = true) (hn : h.size ≤ n)
    (htag : tag.length ≤ 6) (text : String) (htext : text.utf8ByteSize ≤ 16) (hlen : len ≤ 64) :
    ∃ s', s.expandLabel h tag (Bytes.ofText text) [] len = .ok s' ∧ s'.HasSize len := by
  obtain ⟨data, hm, rfl⟩ := hs
  have hlimit : len ≤ Hkdf.limit h := by
    have hpos : 1 ≤ h.size := by cases h <;> decide
    unfold Hkdf.limit
    omega
  have hfit : (tag ++ Bytes.ofText text).length ≤ 255 := by
    rw [List.length_append, Bytes.length_ofText]
    omega
  have hex : ∃ out, Hkdf.expandLabel h data tag (Bytes.ofText text) [] len = .ok out :=
    Hkdf.exists_expandLabel_iff.mpr
      ⟨⟨Nat.le_trans hlen (by decide), hfit, Nat.zero_le _⟩, hsup, hn, hlimit⟩
  obtain ⟨out, hout⟩ := hex
  refine ⟨new out, ?_, out, rfl, Hkdf.length_of_expandLabel hout⟩
  simp only [expandLabel, read, hm, bind_eq_ok, map_eq_ok]
  exact ⟨data, rfl, out, hout, rfl⟩

theorem hasSize_of_expandLabel (hok : s.expandLabel h tag label context len = .ok s') :
    s'.HasSize len := by
  simp only [expandLabel, bind_eq_ok, map_eq_ok] at hok
  obtain ⟨key, -, data, hdata, rfl⟩ := hok
  exact ⟨data, rfl, Hkdf.length_of_expandLabel hdata⟩

theorem length_of_trafficKeys (hok : s.trafficKeys h tag keySize ivSize = .ok keys) :
    keys.key.length = keySize ∧ keys.iv.length = ivSize := by
  simp only [trafficKeys, bind_eq_ok, pure_eq_ok, extract] at hok
  obtain ⟨s₁, h₁, key, hkey, s₂, h₂, iv, hiv, rfl⟩ := hok
  obtain ⟨data₁, hm₁, hl₁⟩ := hasSize_of_expandLabel h₁
  obtain ⟨data₂, hm₂, hl₂⟩ := hasSize_of_expandLabel h₂
  simp only [read, hm₁] at hkey
  simp only [read, hm₂] at hiv
  obtain rfl := Except.ok.inj hkey
  obtain rfl := Except.ok.inj hiv
  exact ⟨hl₁, hl₂⟩

theorem supports_of_trafficKeys (hs : s.HasSize n)
    (hok : s.trafficKeys h tag keySize ivSize = .ok keys) :
    Hkdf.supports h = true ∧ h.size ≤ n := by
  simp only [trafficKeys, bind_eq_ok] at hok
  obtain ⟨s₁, h₁, -⟩ := hok
  exact supports_of_expandLabel hs h₁

theorem exists_trafficKeys (hs : s.HasSize n) (hsup : Hkdf.supports h = true) (hn : h.size ≤ n)
    (htag : tag.length ≤ 6) (hkey : keySize ≤ 64) (hiv : ivSize ≤ 64) :
    ∃ keys, s.trafficKeys h tag keySize ivSize = .ok keys := by
  obtain ⟨s₁, h₁, key, hm₁, -⟩ := exists_expandLabel hs hsup hn htag "key" (by decide) hkey
  obtain ⟨s₂, h₂, iv, hm₂, -⟩ := exists_expandLabel hs hsup hn htag "iv" (by decide) hiv
  refine ⟨⟨key, iv⟩, ?_⟩
  simp only [trafficKeys, bind_eq_ok, pure_eq_ok, extract, read]
  exact ⟨s₁, h₁, key, by rw [hm₁], s₂, h₂, iv, by rw [hm₂], rfl⟩

end Secret

end RecordLayer
