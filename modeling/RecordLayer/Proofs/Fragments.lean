import RecordLayer.Protection
import RecordLayer.Proofs.BlockRecords
import RecordLayer.Proofs.Results

/-! # What fragments carry

A fragment carries a payload if it passes the check of its direction. Encoders write fragments that
carry the wrapped plaintext, and decoders accept what carries a payload that can be unwrapped, and
nothing else.
-/

namespace RecordLayer

open Aes (Block)

variable {s : UInt64} {t : ContentType} {v : Version} {room : Nat}
  {plaintext payload fragment : Bytes} {record : Protected} {received : Recovered}

theorem Bytes.slice_slice_iff {x a b : Bytes} {n : Nat} :
    x.slice 0 n = .ok a ∧ x.slice n x.length = .ok b ↔ x = a ++ b ∧ a.length = n := by
  constructor
  · rintro ⟨ha, hb⟩
    unfold slice at ha hb
    split at ha
    · rename_i hn
      rw [if_pos ⟨hn.2, Nat.le_refl _⟩] at hb
      obtain rfl := Except.ok.inj ha
      obtain rfl := Except.ok.inj hb
      have hrest : (x.drop n).take (x.length - n) = x.drop n :=
        List.take_of_length_le (Nat.le_of_eq List.length_drop)
      rw [hrest, List.drop_zero, Nat.sub_zero, List.take_append_drop, List.length_take]
      exact ⟨rfl, Nat.min_eq_left hn.2⟩
    · cases ha
  · rintro ⟨rfl, rfl⟩
    have hle : a.length ≤ (a ++ b).length := by rw [List.length_append]; omega
    rw [slice_eq_ok (Nat.zero_le _) hle, slice_eq_ok hle (Nat.le_refl _)]
    simp

namespace NullDirection

variable {d : NullDirection}

structure Ready (d : NullDirection) : Prop where
  mac : ∀ m ∈ d.mac, m.Ready
  id_eq : d.mac = none → d.id = []

def Carries (d : NullDirection) (s : UInt64) (t : ContentType) (fragment payload : Bytes) :
    Prop :=
  match d.mac with
  | none => fragment = payload
  | some m => fragment = payload ++ m.tagOf (m.covered s t d.id payload)

theorem Ready.encode_snd (h : d.Ready) (s : UInt64) (t : ContentType) (room : Nat)
    (plaintext : Bytes) : (d.encode s t room plaintext).2 = d := by
  obtain ⟨_ | m, id⟩ := d
  · unfold encode
    dsimp only
    split <;> rfl
  · have hm := h.mac m rfl
    unfold encode
    dsimp only
    split
    · rfl
    · rw [hm.tag_eq]

theorem Ready.encode_ok (h : d.Ready) (hok : (d.encode s t room plaintext).1 = .ok record) :
    ∃ fragment, record = .assemble room (ContentType.outer false d.id t) fragment ∧
      fragment.length ≤ Size.capacity ∧
      d.Carries s (ContentType.outer false d.id t) fragment
        (InnerPlaintext.wrap d.inner t plaintext) := by
  obtain ⟨_ | m, id⟩ := d
  · obtain rfl : id = [] := h.id_eq rfl
    unfold encode at hok
    dsimp only at hok
    split at hok
    · cases hok
    · rename_i hroom
      have hcap := Size.reserve_eq_ok.mp hroom
      exact ⟨_, (Except.ok.inj hok).symm, Nat.le_trans (Nat.le_add_left ..) hcap, rfl⟩
  · have hm := h.mac m rfl
    unfold encode at hok
    dsimp only at hok
    split at hok
    · cases hok
    · rename_i hroom
      have hcap := Size.reserve_eq_ok.mp hroom
      rw [hm.tag_eq] at hok
      have hlen := hm.length_append_tagOf (m.covered s (ContentType.outer false id t) id
        (InnerPlaintext.wrap (inner ⟨some m, id⟩) t plaintext))
        (InnerPlaintext.wrap (inner ⟨some m, id⟩) t plaintext)
      refine ⟨_, (Except.ok.inj hok).symm.trans (Protected.ofSize_eq_assemble hlen), ?_, rfl⟩
      rw [hlen]
      exact Nat.le_trans (Nat.le_add_left ..) hcap

theorem Ready.macSize_le (h : d.Ready) : d.macSize ≤ 64 := by
  obtain ⟨_ | m, id⟩ := d
  · exact Nat.zero_le _
  · exact Nat.le_trans (h.mac m rfl).size_le (by cases m.mac.template.hash <;> decide)

theorem Ready.exists_carries (h : d.Ready) (s : UInt64) (t : ContentType) (payload : Bytes) :
    ∃ fragment, d.Carries s t fragment payload ∧
      fragment.length = payload.length + d.macSize := by
  obtain ⟨_ | m, id⟩ := d
  · exact ⟨payload, rfl, rfl⟩
  · refine ⟨_, rfl, ?_⟩
    rw [List.length_append, (h.mac m rfl).length_tagOf]
    rfl

theorem Ready.encode_of_carries (h : d.Ready)
    (hc : d.Carries s (ContentType.outer false d.id t) fragment
      (InnerPlaintext.wrap d.inner t plaintext))
    (hroom : room + fragment.length ≤ Size.capacity) :
    (d.encode s t room plaintext).1 =
      .ok (.assemble room (ContentType.outer false d.id t) fragment) := by
  obtain ⟨_ | m, id⟩ := d
  · obtain rfl : id = [] := h.id_eq rfl
    obtain rfl : fragment = plaintext := hc
    have hwrap : InnerPlaintext.wrap (inner ⟨none, []⟩) t fragment = fragment := rfl
    have hreserve : Size.reserve room (fragment.length + macSize ⟨none, []⟩) = .ok () :=
      Size.reserve_eq_ok.mpr hroom
    unfold encode
    simp only [hwrap, hreserve]
    rfl
  · have hm := h.mac m rfl
    obtain rfl : fragment = _ := hc
    have hlen := hm.length_append_tagOf (m.covered s (ContentType.outer false id t) id
      (InnerPlaintext.wrap (inner ⟨some m, id⟩) t plaintext))
      (InnerPlaintext.wrap (inner ⟨some m, id⟩) t plaintext)
    rw [hlen] at hroom
    have hreserve := Size.reserve_eq_ok.mpr hroom
    unfold encode
    simp only [macSize, Option.elim_some, hreserve, hm.tag_eq, Protected.ofSize_eq_assemble hlen]

theorem Ready.exists_encode (h : d.Ready) (s : UInt64) (t : ContentType) (room : Nat)
    (plaintext : Bytes)
    (hroom : room + (plaintext.length + 1 + d.macSize) ≤ Size.capacity) :
    ∃ outer fragment, (d.encode s t room plaintext).1 = .ok (.assemble room outer fragment) ∧
      fragment.length ≤ plaintext.length + 1 + d.macSize := by
  have hwrap : (InnerPlaintext.wrap d.inner t plaintext).length ≤ plaintext.length + 1 := by
    rw [InnerPlaintext.length_wrap, InnerPlaintext.overhead]
    split <;> omega
  obtain ⟨fragment, hc, hlen⟩ := h.exists_carries s (ContentType.outer false d.id t)
    (InnerPlaintext.wrap d.inner t plaintext)
  exact ⟨_, fragment, h.encode_of_carries hc (by omega), by omega⟩

theorem Ready.decode_snd (h : d.Ready) (s : UInt64) (t : ContentType) (fragment : Bytes) :
    (d.decode s t fragment).2 = d := by
  obtain ⟨_ | m, id⟩ := d
  · rfl
  · have hm := h.mac m rfl
    unfold decode
    simp only [hm.tag_eq]
    repeat' split
    all_goals rfl

theorem decode_tagged {m : RecordMac} {id : Bytes} (hm : m.Ready)
    (hlen : m.size ≤ fragment.length) :
    let d : NullDirection := ⟨some m, id⟩
    let payload := fragment.take (fragment.length - m.size)
    (d.decode s t fragment).1 =
      if m.tagOf (m.covered s t id payload) = fragment.drop (fragment.length - m.size) then
        InnerPlaintext.recover d.inner t payload
      else .error (.refused .badRecordMac) := by
  intro d payload
  unfold decode
  simp only [d, if_neg (Nat.not_lt.mpr hlen), splitTag_eq_ok hlen, hm.tag_eq, ite_not]
  split
  · unfold InnerPlaintext.recover
    cases InnerPlaintext.unwrap d.inner t payload <;> rfl
  · rfl

theorem Ready.decode_of_carries (h : d.Ready) (hc : d.Carries s t fragment payload) :
    (d.decode s t fragment).1 = InnerPlaintext.recover d.inner t payload := by
  obtain ⟨_ | m, id⟩ := d
  · obtain rfl : id = [] := h.id_eq rfl
    obtain rfl : fragment = payload := hc
    rfl
  · have hm := h.mac m rfl
    have htag := hm.length_tagOf (m.covered s t id payload)
    have hlen : m.size ≤ fragment.length := by
      obtain rfl : fragment = payload ++ m.tagOf _ := hc
      rw [List.length_append, htag]
      exact Nat.le_add_left _ _
    obtain ⟨hpayload, htag⟩ :=
      (eq_append_tag_iff (fun x => m.tagOf (m.covered s t id x)) htag).mp hc
    rw [decode_tagged hm hlen, ← hpayload, if_pos htag]

theorem Ready.decode_ok_iff (h : d.Ready) : (d.decode s t fragment).1 = .ok received ↔
    ∃ payload, d.Carries s t fragment payload ∧
      InnerPlaintext.recover d.inner t payload = .ok received := by
  constructor
  · intro hok
    obtain ⟨_ | m, id⟩ := d
    · obtain rfl : id = [] := h.id_eq rfl
      exact ⟨fragment, rfl, hok⟩
    · have hm := h.mac m rfl
      by_cases hlen : m.size ≤ fragment.length
      · rw [decode_tagged hm hlen] at hok
        split at hok
        · rename_i htag
          exact ⟨_, (eq_append_tag_iff (fun x => m.tagOf (m.covered s t id x))
            (hm.length_tagOf _)).mpr ⟨rfl, htag⟩, hok⟩
        · cases hok
      · unfold decode at hok
        dsimp only at hok
        rw [if_pos (Nat.lt_of_not_le hlen)] at hok
        cases hok
  · rintro ⟨payload, hc, hr⟩
    rw [h.decode_of_carries hc]
    exact hr

end NullDirection

namespace IntegrityDirection

variable {d : IntegrityDirection}

structure Ready (d : IntegrityDirection) : Prop where
  fresh : d.mac.Fresh
  hash_eq : d.mac.template.hash = d.hash
  length_iv : 8 ≤ d.iv.length

def covered (d : IntegrityDirection) (s : UInt64) (t : ContentType) (v : Version)
    (payload : Bytes) : Bytes :=
  Nonce.implicit d.iv s ++ AdditionalData.tls13 t v (payload.length + d.hash.size) ++ payload

def tagOf (d : IntegrityDirection) (string : Bytes) : Bytes :=
  (d.mac.template.update string).finish

def Carries (d : IntegrityDirection) (s : UInt64) (t : ContentType) (v : Version)
    (fragment payload : Bytes) : Prop :=
  fragment = payload ++ d.tagOf (d.covered s t v payload)

theorem Ready.length_tagOf (h : d.Ready) (string : Bytes) :
    (d.tagOf string).length = d.hash.size := by
  rw [← h.hash_eq]
  exact NestedDigest.length_finish _

theorem Ready.length_append_tagOf (h : d.Ready) (string payload : Bytes) :
    (payload ++ d.tagOf string).length = payload.length + d.hash.size := by
  rw [List.length_append, h.length_tagOf]

theorem Ready.tag_eq (h : d.Ready) (s : UInt64) (t : ContentType) (v : Version)
    (payload : Bytes) : d.tag s t v payload = (d.tagOf (d.covered s t v payload), d) := by
  have hcur : d.mac.current = d.mac.template := h.fresh
  have hreset : (⟨d.mac.algorithm, d.mac.template, d.mac.template⟩ : Mac) = d.mac := h.fresh.reset
  simp only [tag, Mac.finish, Mac.update, Mac.reset, tagOf, covered, NestedDigest.update_append,
    hcur, hreset]

theorem Ready.encode_snd (h : d.Ready) (s : UInt64) (t : ContentType) (v : Version) (room : Nat)
    (plaintext : Bytes) : (d.encode s t v room plaintext).2 = d := by
  unfold encode
  dsimp only
  split
  · rfl
  · rw [h.tag_eq]

theorem Ready.encode_ok (h : d.Ready) (hok : (d.encode s t v room plaintext).1 = .ok record) :
    ∃ fragment, record = .assemble room .applicationData fragment ∧
      fragment.length ≤ Size.capacity ∧
      d.Carries s .applicationData v fragment (InnerPlaintext.wrap true t plaintext) := by
  unfold encode at hok
  dsimp only at hok
  split at hok
  · cases hok
  · rename_i hroom
    have hcap := Size.reserve_eq_ok.mp hroom
    rw [h.tag_eq] at hok
    have hlen := h.length_append_tagOf (d.covered s .applicationData v
      (InnerPlaintext.wrap true t plaintext)) (InnerPlaintext.wrap true t plaintext)
    refine ⟨_, (Except.ok.inj hok).symm.trans (Protected.ofSize_eq_assemble hlen), ?_, rfl⟩
    rw [hlen]
    exact Nat.le_trans (Nat.le_add_left ..) hcap

theorem Ready.encode_of_carries (h : d.Ready)
    (hc : d.Carries s .applicationData v fragment (InnerPlaintext.wrap true t plaintext))
    (hroom : room + fragment.length ≤ Size.capacity) :
    (d.encode s t v room plaintext).1 = .ok (.assemble room .applicationData fragment) := by
  obtain rfl : fragment = _ := hc
  have hlen := h.length_append_tagOf (d.covered s .applicationData v
    (InnerPlaintext.wrap true t plaintext)) (InnerPlaintext.wrap true t plaintext)
  rw [hlen] at hroom
  have hreserve := Size.reserve_eq_ok.mpr hroom
  unfold encode
  simp only [hreserve, h.tag_eq, Protected.ofSize_eq_assemble hlen]

theorem Ready.exists_encode (h : d.Ready) (s : UInt64) (t : ContentType) (v : Version)
    (room : Nat) (plaintext : Bytes)
    (hroom : room + (plaintext.length + 1 + d.hash.size) ≤ Size.capacity) :
    ∃ fragment, (d.encode s t v room plaintext).1 = .ok (.assemble room .applicationData fragment) ∧
      fragment.length = plaintext.length + 1 + d.hash.size := by
  have hwrap : (InnerPlaintext.wrap true t plaintext).length = plaintext.length + 1 :=
    InnerPlaintext.length_wrap ..
  have hlen : (InnerPlaintext.wrap true t plaintext ++ d.tagOf (d.covered s .applicationData v
      (InnerPlaintext.wrap true t plaintext))).length = plaintext.length + 1 + d.hash.size := by
    rw [List.length_append, h.length_tagOf, hwrap]
  exact ⟨_, h.encode_of_carries rfl (hlen ▸ hroom), hlen⟩

theorem Ready.decode_snd (h : d.Ready) (s : UInt64) (t : ContentType) (v : Version)
    (fragment : Bytes) : (d.decode s t v fragment).2 = d := by
  unfold decode
  simp only [h.tag_eq]
  repeat' split
  all_goals rfl

theorem Ready.decode_eq (h : d.Ready) (hlen : d.overhead ≤ fragment.length) :
    let payload := fragment.take (fragment.length - d.hash.size)
    (d.decode s t v fragment).1 =
      if d.tagOf (d.covered s t v payload) = fragment.drop (fragment.length - d.hash.size) then
        InnerPlaintext.recover true t payload
      else .error (.refused .badRecordMac) := by
  intro payload
  have hsize : d.hash.size ≤ fragment.length := by
    unfold overhead at hlen
    omega
  unfold decode
  simp only [if_neg (Nat.not_lt.mpr hlen), splitTag_eq_ok hsize, h.tag_eq, ite_not]
  split
  · unfold InnerPlaintext.recover
    cases InnerPlaintext.unwrap true t payload <;> rfl
  · rfl

theorem Ready.decode_of_carries (h : d.Ready) (hne : payload ≠ [])
    (hc : d.Carries s t v fragment payload) :
    (d.decode s t v fragment).1 = InnerPlaintext.recover true t payload := by
  have htag := h.length_tagOf (d.covered s t v payload)
  have hlen : d.overhead ≤ fragment.length := by
    have hpos := List.length_pos_iff.mpr hne
    obtain rfl : fragment = payload ++ d.tagOf _ := hc
    rw [List.length_append, htag, overhead]
    omega
  obtain ⟨hpayload, htag⟩ :=
    (eq_append_tag_iff (fun x => d.tagOf (d.covered s t v x)) htag).mp hc
  rw [h.decode_eq hlen, ← hpayload, if_pos htag]

theorem Ready.decode_ok_iff (h : d.Ready) : (d.decode s t v fragment).1 = .ok received ↔
    ∃ payload, d.Carries s t v fragment payload ∧
      InnerPlaintext.recover true t payload = .ok received := by
  constructor
  · intro hok
    by_cases hlen : d.overhead ≤ fragment.length
    · rw [h.decode_eq hlen] at hok
      split at hok
      · rename_i htag
        exact ⟨_, (eq_append_tag_iff (fun x => d.tagOf (d.covered s t v x))
          (h.length_tagOf _)).mpr ⟨rfl, htag⟩, hok⟩
      · cases hok
    · unfold decode at hok
      rw [if_pos (Nat.lt_of_not_le hlen)] at hok
      cases hok
  · rintro ⟨payload, hc, hr⟩
    have hne : payload ≠ [] := by
      rintro rfl
      cases hr
    rw [h.decode_of_carries hne hc]
    exact hr

end IntegrityDirection

theorem Aead.length_of_openBuffer {e : Aead} {nonce aad buffer message : Bytes}
    (h : e.openBuffer nonce aad buffer = .ok message) :
    e.outputSize false buffer.length = .ok message.length := by
  simp only [openBuffer, bind_eq_ok] at h
  obtain ⟨⟨⟩, -, h⟩ := h
  split at h
  · obtain rfl := pure_eq_ok.mp h
    rw [length_crypt, List.length_take, Nat.min_eq_left (Nat.sub_le ..)]
    rfl
  · cases h

namespace AeadDirection

variable {d : AeadDirection}

structure Ready (d : AeadDirection) : Prop where
  mode : d.isTls13 = true → d.mode = .implicit
  length_iv : d.isTls13 = true → 8 ≤ d.iv.length

def Carries (d : AeadDirection) (s : UInt64) (t : ContentType) (v : Version)
    (fragment payload : Bytes) : Prop :=
  ∃ carried ciphertext, fragment = carried ++ ciphertext ∧ carried.length = d.recordIvSize ∧
    d.aead.openBuffer (d.nonce s carried) (d.additionalData s t v ciphertext.length) ciphertext =
      .ok payload

theorem length_recordIv (d : AeadDirection) (s : UInt64) :
    (d.recordIv s).length = d.recordIvSize := by
  unfold recordIv recordIvSize
  cases d.mode with
  | explicit => exact Bytes.length_be ..
  | implicit => rfl

theorem length_of_sealMessage {e : Aead} {nonce aad message ciphertext : Bytes}
    (h : e.sealMessage nonce aad message = .ok ciphertext) :
    ciphertext.length = message.length + e.tagSize := by
  unfold Aead.sealMessage at h
  split at h
  · cases h
  · split at h
    · cases h
    · obtain rfl := Except.ok.inj h
      rw [List.length_append, Aead.length_crypt, Aead.length_tag]

theorem le_length_of_openBuffer {e : Aead} {nonce aad buffer message : Bytes}
    (h : e.openBuffer nonce aad buffer = .ok message) : e.tagSize ≤ buffer.length := by
  simp only [Aead.openBuffer, bind_eq_ok] at h
  obtain ⟨⟨⟩, hcheck, -⟩ := h
  unfold Aead.check at hcheck
  split at hcheck
  · cases hcheck
  · split at hcheck
    · cases hcheck
    · rename_i hlen
      exact Nat.le_of_not_lt hlen

theorem sealed_of_encode (hok : d.encode s t v room plaintext = .ok record) :
    let outer := ContentType.outer d.isTls13 d.id t
    ∃ ciphertext, d.aead.sealMessage (d.encryptNonce s)
        (d.additionalData s outer v ciphertext.length)
        (InnerPlaintext.wrap d.inner t plaintext) = .ok ciphertext ∧
      record = .assemble room outer (d.recordIv s ++ ciphertext) ∧
      (d.recordIv s ++ ciphertext).length ≤ Size.capacity := by
  simp only [encode, bind_eq_ok, liftFault_eq_ok, liftRefusal_eq_ok, forRecord_eq_ok,
    pure_eq_ok] at hok
  obtain ⟨n, -, _, hpredicted, _, hroom, ciphertext, hseal, rfl⟩ := hok
  obtain rfl : n = ciphertext.length :=
    (Protected.expectSize_eq_ok.mp hpredicted).trans (length_of_sealMessage hseal).symm
  have hcap := Size.reserve_eq_ok.mp hroom
  have hlen : (d.recordIv s ++ ciphertext).length = d.recordIvSize + ciphertext.length := by
    rw [List.length_append, length_recordIv]
  exact ⟨ciphertext, hseal, Protected.ofSize_eq_assemble hlen, by omega⟩

theorem encode_ok (hok : d.encode s t v room plaintext = .ok record) :
    ∃ fragment, record = .assemble room (ContentType.outer d.isTls13 d.id t) fragment ∧
      fragment.length ≤ Size.capacity ∧ d.Carries s (ContentType.outer d.isTls13 d.id t) v fragment
        (InnerPlaintext.wrap d.inner t plaintext) := by
  obtain ⟨ciphertext, hseal, rfl, hcap⟩ := sealed_of_encode hok
  exact ⟨_, rfl, hcap, d.recordIv s, ciphertext, rfl, d.length_recordIv s,
    d.aead.openBuffer_of_sealMessage hseal⟩

theorem finish_eq_recover {e : Aead} {inUse : Bool} {n : Nat}
    (h : e.outputSize false n = .ok payload.length) :
    (do
      let n ← e.outputSize false n
      let payload ← (forRecord (.ok payload) : Except RecordError Bytes)
      Protected.expectSize n payload.length "AEAD plaintext length mispredicted"
      let (plaintext, t) ← InnerPlaintext.unwrap inUse t payload
      pure ⟨plaintext, t⟩ : Except Failure Recovered) = InnerPlaintext.recover inUse t payload := by
  have hopened : (liftM (forRecord (Except.ok payload)) : Except Failure Bytes) = .ok payload := rfl
  have hchecked : (liftM (Protected.expectSize payload.length payload.length
      "AEAD plaintext length mispredicted") : Except Failure Unit) = .ok () := by
    rw [Protected.expectSize_eq_ok.mpr rfl]
    rfl
  simp only [h, liftFault_ok, ok_bind, hopened, hchecked, InnerPlaintext.recover]
  cases InnerPlaintext.unwrap inUse t payload <;> rfl

theorem decode_of_carries (hc : d.Carries s t v fragment payload) :
    d.decode s t v fragment = InnerPlaintext.recover d.inner t payload := by
  obtain ⟨carried, ciphertext, hf, hn, hopen⟩ := hc
  obtain ⟨hcarried, hciphertext⟩ := Bytes.slice_slice_iff.mpr ⟨hf, hn⟩
  have hlen : ¬ fragment.length < d.overhead := by
    have hle := le_length_of_openBuffer hopen
    rw [hf, List.length_append, overhead]
    omega
  unfold decode
  rw [if_neg hlen, hcarried, hciphertext]
  simp only [liftFault_ok, ok_bind, hopen]
  exact finish_eq_recover (Aead.length_of_openBuffer hopen)

theorem decode_ok_iff : d.decode s t v fragment = .ok received ↔
    ∃ payload, d.Carries s t v fragment payload ∧
      InnerPlaintext.recover d.inner t payload = .ok received := by
  constructor
  · intro hok
    unfold decode at hok
    split at hok
    · cases hok
    · simp only [bind_eq_ok, liftFault_eq_ok, liftRefusal_eq_ok, forRecord_eq_ok,
        pure_eq_ok] at hok
      obtain ⟨carried, hc, ciphertext, hb, _, -, payload, hopen, _, -, hu⟩ := hok
      obtain ⟨hf, hn⟩ := Bytes.slice_slice_iff.mp ⟨hc, hb⟩
      exact ⟨payload, ⟨carried, ciphertext, hf, hn, hopen⟩, InnerPlaintext.recover_eq_ok.mpr hu⟩
  · rintro ⟨payload, hc, hr⟩
    rw [decode_of_carries hc]
    exact hr

end AeadDirection

namespace BlockDirection

variable {d : BlockDirection}

def Carries (d : BlockDirection) (s : UInt64) (t : ContentType) (fragment payload : Bytes) :
    Prop :=
  ¬ d.Malformed fragment ∧ d.trailer s t (d.blocksOf fragment) = d.trailerOf fragment ∧
    d.Holds s t (d.bodyOf fragment) payload

theorem bodyOf_withChain (chain : Block) (fragment : Bytes)
    (h : d.explicitIv = false → chain = d.cbc.chain) :
    (d.withChain chain).bodyOf fragment = d.bodyOf fragment := by
  cases hx : d.explicitIv with
  | false =>
    obtain rfl := h hx
    rfl
  | true =>
    have hiv : d.ivSize = Block.size := by
      unfold ivSize
      rw [hx]
      rfl
    have hdrop := d.cbc.drop_decryption chain (d.blocksOf fragment)
    rw [← hiv] at hdrop
    exact hdrop

theorem carries_withChain_iff {chain : Block} (h : d.explicitIv = false → chain = d.cbc.chain) :
    (d.withChain chain).Carries s t fragment payload ↔ d.Carries s t fragment payload := by
  unfold Carries
  rw [bodyOf_withChain chain fragment h]
  rfl

end BlockDirection

namespace BlockEncoder

variable {e : BlockEncoder} {r : Randomness} {iv : Bytes} {padding : Nat}

structure Ready (e : BlockEncoder) : Prop where
  mac : e.mac.Ready
  maxPadding_le : e.maxPadding ≤ e.paddingLimit

theorem Ready.carries_of_writes (h : e.Ready) (hw : e.Writes s t plaintext iv padding fragment) :
    e.Carries s (ContentType.outer false e.id t) fragment
      (InnerPlaintext.wrap e.inner t plaintext) ∧
      e.blocksOf fragment = e.cbc.encryption (e.plainOf s t iv padding plaintext) := by
  obtain ⟨hiv, hpos, hle, ha, rfl⟩ := hw
  have hplain := BlockEncoder.length_plainOf h.mac s t iv padding plaintext
  have hblocks := Cbc.length_encryption (s := e.cbc) ha
  have htrailer := BlockDirection.length_trailer h.mac s (ContentType.outer false e.id t)
    (e.cbc.encryption (e.plainOf s t iv padding plaintext))
  have hof := BlockDirection.blocksOf_append
    (e.cbc.encryption (e.plainOf s t iv padding plaintext)) htrailer
  refine ⟨⟨?_, ?_, ?_⟩, hof⟩
  · refine BlockDirection.not_malformed_append htrailer (hblocks ▸ ha) ?_
    omega
  · rw [hof, BlockDirection.trailerOf_append htrailer]
  · rw [BlockDirection.bodyOf, hof, Cbc.decryption_encryption ha]
    refine ⟨padding, hpos, Nat.le_trans hle h.maxPadding_le, ?_⟩
    exact List.drop_left' hiv

theorem Ready.encode_ok (h : e.Ready) (hok : (e.encode r s t room plaintext).1 = .ok record) :
    ∃ fragment, record = .assemble room (ContentType.outer false e.id t) fragment ∧
      fragment.length ≤ Size.capacity ∧
      e.Carries s (ContentType.outer false e.id t) fragment
        (InnerPlaintext.wrap e.inner t plaintext) ∧
      (e.encode r s t room plaintext).2.1 =
        e.withChain (e.cbc.lastBlock (e.blocksOf fragment)) := by
  rcases BlockEncoder.encode_cases h.mac r s t room plaintext with
    ⟨f, r', henc⟩ | ⟨iv, padding, fragment, r', -, hw, hlen, henc⟩
  · rw [henc] at hok
    cases hok
  · rw [henc] at hok ⊢
    obtain ⟨hc, hblocks⟩ := h.carries_of_writes hw
    refine ⟨fragment, (Except.ok.inj hok).symm, by omega, hc, ?_⟩
    rw [hblocks]

theorem Ready.encode_encoder (h : e.Ready) (r : Randomness) (s : UInt64) (t : ContentType)
    (room : Nat) (plaintext : Bytes) :
    ∃ chain, (e.encode r s t room plaintext).2.1 = e.withChain chain := by
  rcases BlockEncoder.encode_cases h.mac r s t room plaintext with
    ⟨f, r', henc⟩ | ⟨iv, padding, fragment, r', -, -, -, henc⟩
  · rw [henc]
    exact ⟨e.cbc.chain, rfl⟩
  · rw [henc]
    exact ⟨_, rfl⟩

end BlockEncoder

namespace BlockDecoder

variable {d : BlockDecoder}

theorem Ready.decode_of_carries (h : d.Ready) (hlen : fragment.length ≤ Size.capacity)
    (hid : AdditionalData.Holds d.id) (hc : d.Carries s t fragment payload) :
    (d.decode s t fragment).result = InnerPlaintext.recover d.inner t payload := by
  obtain ⟨hm, hf, hholds⟩ := hc
  exact (h.decode_authentic hm hf hlen hid).1 payload hholds

theorem Ready.decode_ok_iff (h : d.Ready) (hlen : fragment.length ≤ Size.capacity)
    (hid : AdditionalData.Holds d.id) : (d.decode s t fragment).result = .ok received ↔
      ∃ payload, d.Carries s t fragment payload ∧
        InnerPlaintext.recover d.inner t payload = .ok received := by
  constructor
  · intro hok
    by_cases hm : d.Malformed fragment
    · obtain ⟨reason, hdec⟩ := decode_malformed (s := s) (t := t) hm
      rw [hdec] at hok
      cases hok
    by_cases hf : d.trailer s t (d.blocksOf fragment) = d.trailerOf fragment
    · by_cases hc : ∃ content, d.Holds s t (d.bodyOf fragment) content
      · obtain ⟨content, hc⟩ := hc
        have hcarries : d.Carries s t fragment content := ⟨hm, hf, hc⟩
        rw [h.decode_of_carries hlen hid hcarries] at hok
        exact ⟨content, hcarries, hok⟩
      · rw [(h.decode_authentic hm hf hlen hid).2 (not_exists.mp hc)] at hok
        cases hok
    · rw [h.decode_forged hm hf] at hok
      cases hok
  · rintro ⟨payload, hc, hr⟩
    rw [h.decode_of_carries hlen hid hc]
    exact hr

theorem Ready.chain_of_carries (h : d.Ready) (hc : d.Carries s t fragment payload) :
    (d.decode s t fragment).decoder.cbc.chain = d.cbc.lastBlock (d.blocksOf fragment) := by
  obtain ⟨scratch, hv, -⟩ := (h.withChain (d.cbc.lastBlock (d.blocksOf fragment))).verify_snd s t
    (d.bodyOf fragment)
  rw [h.decode_eq hc.1 hc.2.1, hv]
  rfl

end BlockDecoder

end RecordLayer
