import RecordLayer.Proofs.Pairing

/-! # Refusals of decoders

A decoder with well-formed keys refuses a fragment only for what is wrong with the fragment. Its own
checks see to it that every cut stays inside the fragment and that every nonce has the right length,
so neither an internal error nor a fault comes of it.
-/

namespace RecordLayer

variable {α : Type} {s : UInt64} {t : ContentType} {v : Version} {fragment : Bytes}
  {p : Protection} {c : Context} {owner : Role} {id : Bytes}

/-- The bytes of the peer explain the failure. -/
def Failure.FromPeer : Failure → Prop
  | refused (.decodeError _) | refused .badRecordMac | refused (.unexpectedMessage _) => True
  | refused (.internalError _) | fault _ => False

def Tolerant (x : Except Failure α) : Prop := ∀ failure, x = .error failure → failure.FromPeer

namespace Tolerant

theorem ok (a : α) : Tolerant (.ok a) := by rintro failure ⟨⟩

theorem error {failure : Failure} (h : failure.FromPeer) :
    Tolerant (.error failure : Except Failure α) := by
  rintro failure ⟨⟩
  exact h

end Tolerant

theorem InnerPlaintext.tolerant_unwrap (inUse : Bool) (t : ContentType) (payload : Bytes) :
    Tolerant (liftM (unwrap inUse t payload) : Except Failure _) := by
  unfold unwrap strip
  split
  · split
    · exact .ok _
    · exact .error trivial
  · exact .ok _

theorem InnerPlaintext.tolerant_recover (inUse : Bool) (t : ContentType) (payload : Bytes) :
    Tolerant (recover inUse t payload) := by
  have h := tolerant_unwrap inUse t payload
  unfold recover
  split
  · exact .ok _
  · rename_i err herr
    rw [herr] at h
    exact .error (h (.refused err) rfl)

/-- What becomes of a fragment that has to have `least` bytes, if its check leaves `payload?`. -/
def conclude (least : Nat) (reason : String) (fragment : Bytes) (payload? : Option Bytes)
    (inUse : Bool) (outer : ContentType) : Except Failure Recovered :=
  if fragment.length < least then .error (.refused (.decodeError reason))
  else
    match payload? with
    | none => .error (.refused .badRecordMac)
    | some payload => InnerPlaintext.recover inUse outer payload

section Conclude

variable {least : Nat} (reason : String) (payload : Bytes) (payload? : Option Bytes) (inUse : Bool)
  (outer : ContentType)

theorem conclude_of_lt (h : fragment.length < least) :
    conclude least reason fragment payload? inUse outer =
      .error (.refused (.decodeError reason)) := if_pos h

theorem conclude_none (h : least ≤ fragment.length) :
    conclude least reason fragment none inUse outer = .error (.refused .badRecordMac) :=
  if_neg (Nat.not_lt.mpr h)

theorem conclude_some (h : least ≤ fragment.length) :
    conclude least reason fragment (some payload) inUse outer =
      InnerPlaintext.recover inUse outer payload := if_neg (Nat.not_lt.mpr h)

theorem tolerant_conclude (least : Nat) (fragment : Bytes) :
    Tolerant (conclude least reason fragment payload? inUse outer) := by
  rcases Nat.lt_or_ge fragment.length least with hlt | hle
  · rw [conclude_of_lt reason payload? inUse outer hlt]
    exact .error trivial
  cases payload? with
  | none =>
    rw [conclude_none reason inUse outer hle]
    exact .error trivial
  | some payload =>
    rw [conclude_some reason payload inUse outer hle]
    exact InnerPlaintext.tolerant_recover inUse outer payload

end Conclude

def Bytes.checked? (tag : Bytes → Bytes) (n : Nat) (x : Bytes) : Option Bytes :=
  if tag (x.take (x.length - n)) = x.drop (x.length - n) then some (x.take (x.length - n))
  else none

theorem Aead.error_of_openBuffer {e : Aead} {nonce aad buffer : Bytes} {err : CryptoError}
    (hn : nonce.length = nonceSize) (hb : e.tagSize ≤ buffer.length)
    (h : e.openBuffer nonce aad buffer = .error err) : err = .authenticationFailed := by
  have hcheck : e.check nonce buffer = .ok () := by
    unfold check
    rw [if_neg (fun hne => hne hn), if_neg (Nat.not_lt.mpr hb)]
  unfold openBuffer at h
  rw [hcheck, ok_bind] at h
  dsimp only at h
  split at h
  · cases h
  · exact (Except.error.inj h).symm

namespace AeadDirection

variable {d : AeadDirection}

def Sized (d : AeadDirection) : Prop := d.iv.length = d.mode.fixedIvSize

theorem Sized.length_nonce (h : d.Sized) (s : UInt64) {carried : Bytes}
    (hc : carried.length = d.recordIvSize) : (d.nonce s carried).length = Aead.nonceSize := by
  unfold Sized at h
  unfold recordIvSize at hc
  unfold nonce
  cases hm : d.mode with
  | explicit =>
    rw [hm] at h hc
    rw [Nonce.explicit, List.length_append, List.length_take, h, hc]
    rfl
  | implicit =>
    rw [hm] at h
    rw [Nonce.length_implicit, h]
    rfl

def opened? (d : AeadDirection) (s : UInt64) (t : ContentType) (v : Version) (fragment : Bytes) :
    Option Bytes :=
  let ciphertext := fragment.drop d.recordIvSize
  (d.aead.openBuffer (d.nonce s (fragment.take d.recordIvSize))
    (d.additionalData s t v ciphertext.length) ciphertext).toOption

theorem Sized.decode_eq_conclude (h : d.Sized) (s : UInt64) (t : ContentType) (v : Version)
    (fragment : Bytes) : d.decode s t v fragment =
      conclude d.overhead "record shorter than nonce and tag" fragment (d.opened? s t v fragment)
        d.inner t := by
  unfold decode conclude opened?
  by_cases hshort : fragment.length < d.overhead
  · rw [if_pos hshort, if_pos hshort]
    rfl
  have hlen := Nat.le_of_not_lt hshort
  unfold overhead at hlen
  have hcut : fragment.slice 0 d.recordIvSize = .ok (fragment.take d.recordIvSize) :=
    Bytes.slice_eq_ok (Nat.zero_le _) (by omega)
  have hrest : fragment.slice d.recordIvSize fragment.length =
      .ok (fragment.drop d.recordIvSize) := by
    rw [Bytes.slice_eq_ok (by omega) (Nat.le_refl _), List.take_of_length_le]
    exact Nat.le_of_eq List.length_drop
  rw [if_neg hshort, if_neg hshort, hcut, hrest]
  simp only [liftFault_ok, ok_bind]
  cases hopen : d.aead.openBuffer (d.nonce s (fragment.take d.recordIvSize))
      (d.additionalData s t v (fragment.drop d.recordIvSize).length)
      (fragment.drop d.recordIvSize) with
  | ok payload =>
    exact finish_eq_recover (Aead.length_of_openBuffer hopen)
  | error err =>
    have hcarried : (fragment.take d.recordIvSize).length = d.recordIvSize := by
      rw [List.length_take]
      omega
    have hbuffer : d.aead.tagSize ≤ (fragment.drop d.recordIvSize).length := by
      rw [List.length_drop]
      omega
    obtain rfl := Aead.error_of_openBuffer (h.length_nonce s hcarried) hbuffer hopen
    rfl

end AeadDirection

def NullDirection.checked? (d : NullDirection) (s : UInt64) (t : ContentType) (fragment : Bytes) :
    Option Bytes :=
  match d.mac with
  | none => some fragment
  | some m => Bytes.checked? (fun payload => (m.tag s t d.id payload).1) m.size fragment

theorem NullDirection.Ready.decode_eq_conclude {d : NullDirection} (h : d.Ready) (s : UInt64)
    (t : ContentType) (fragment : Bytes) : (d.decode s t fragment).1 =
      conclude d.macSize "record shorter than MAC" fragment (d.checked? s t fragment)
        d.inner t := by
  obtain ⟨_ | m, id⟩ := d
  · obtain rfl : id = [] := h.id_eq rfl
    rfl
  · have hm := h.mac m rfl
    by_cases hlen : m.size ≤ fragment.length
    · rw [decode_tagged hm hlen]
      simp only [conclude, macSize, checked?, Bytes.checked?, hm.tag_eq, Option.elim_some,
        if_neg (Nat.not_lt.mpr hlen)]
      split <;> rfl
    · have hshort := Nat.lt_of_not_le hlen
      unfold decode
      dsimp only
      rw [if_pos hshort]
      exact (if_pos hshort).symm

def IntegrityDirection.checked? (d : IntegrityDirection) (s : UInt64) (t : ContentType)
    (v : Version) (fragment : Bytes) : Option Bytes :=
  Bytes.checked? (fun payload => (d.tag s t v payload).1) d.hash.size fragment

theorem IntegrityDirection.Ready.decode_eq_conclude {d : IntegrityDirection} (h : d.Ready)
    (s : UInt64) (t : ContentType) (v : Version) (fragment : Bytes) :
    (d.decode s t v fragment).1 = conclude d.overhead "record shorter than tag and content type"
      fragment (d.checked? s t v fragment) true t := by
  by_cases hlen : d.overhead ≤ fragment.length
  · rw [h.decode_eq hlen]
    simp only [conclude, checked?, Bytes.checked?, h.tag_eq, if_neg (Nat.not_lt.mpr hlen)]
    split <;> rfl
  · have hshort := Nat.lt_of_not_le hlen
    unfold decode
    rw [if_pos hshort]
    exact (if_pos hshort).symm

theorem BlockDecoder.Ready.tolerant_decode {d : BlockDecoder} (h : d.Ready) (s : UInt64)
    (t : ContentType) (hlen : fragment.length ≤ Size.capacity) (hid : AdditionalData.Holds d.id) :
    Tolerant (d.decode s t fragment).result := by
  by_cases hm : d.Malformed fragment
  · obtain ⟨reason, hdec⟩ := decode_malformed (s := s) (t := t) hm
    rw [hdec]
    exact .error trivial
  by_cases hf : d.trailer s t (d.blocksOf fragment) = d.trailerOf fragment
  · obtain ⟨hgood, hbad⟩ := h.decode_authentic hm hf hlen hid
    by_cases hc : ∃ content, d.Holds s t (d.bodyOf fragment) content
    · obtain ⟨content, hc⟩ := hc
      rw [hgood content hc]
      exact InnerPlaintext.tolerant_recover _ _ _
    · rw [hbad (not_exists.mp hc)]
      exact .error trivial
  · rw [h.decode_forged hm hf]
    exact .error trivial

namespace Direction

variable {d d' : Direction}

def Sized : Direction → Prop
  | aead d => d.Sized
  | block _ | null _ => True
  | integrity d => 8 ≤ d.iv.length

/-- Every length is there that decoding a fragment cuts off or subtracts on the strength of an
earlier check, and what is opened is as long as predicted. -/
def InRange (fragment : Bytes) : Direction → Prop
  | aead d => d.iv.length = d.mode.fixedIvSize ∧ (d.overhead ≤ fragment.length →
      d.recordIvSize ≤ fragment.length ∧
        d.aead.tagSize ≤ (fragment.drop d.recordIvSize).length ∧
        ∀ nonce aad message,
          d.aead.openBuffer nonce aad (fragment.drop d.recordIvSize) = .ok message →
            d.aead.outputSize false (fragment.drop d.recordIvSize).length = .ok message.length)
  | block d => ¬ d.Malformed fragment → d.ivSize ≤ (d.blocksOf fragment).length ∧
      0 < (d.bodyOf fragment).length ∧ d.innerMacSize ≤ (d.bodyOf fragment).length
  | null _ => True
  | integrity d => 8 ≤ d.iv.length

theorem SameKeys.sized (h : d.SameKeys d') (hs : d.Sized) : d'.Sized := by
  obtain ⟨chain, rfl⟩ := h
  cases d <;> exact hs

end Direction

theorem AeadDirection.sized_derive {a : AeadAlgorithm} {d : AeadDirection}
    (h : derive c owner a id = .ok d) : d.Sized ∧ d.id = id := by
  simp only [derive, Context.trafficKeys, bind_eq_ok, pure_eq_ok] at h
  obtain ⟨keys, hkeys, aead, -, rfl⟩ := h
  split at hkeys
  · cases hkeys
  · exact ⟨(Secret.length_of_trafficKeys (forRecord_eq_ok.mp hkeys)).2, rfl⟩

theorem AeadDirection.sized_of {a : AeadAlgorithm} {d : AeadDirection}
    (h : AeadDirection.of c owner a id = .ok d) : d.Sized := by
  unfold AeadDirection.of at h
  split at h
  · exact (sized_derive h).1
  · simp only [bind_eq_ok, pure_eq_ok] at h
    obtain ⟨keys, hkeys, aead, -, rfl⟩ := h
    exact (Context.lengths_of_keyBlock hkeys owner).2.2

theorem Family.sized_of_direction {f : Family} {d : Direction}
    (h : f.direction c owner id = .ok d) : d.Sized := by
  cases f with
  | aead a =>
    obtain ⟨d, hd, rfl⟩ := map_eq_ok.mp h
    exact AeadDirection.sized_of hd
  | block v a | null a =>
    obtain ⟨d, -, rfl⟩ := map_eq_ok.mp h
    trivial
  | passthrough =>
    obtain rfl := Except.ok.inj h
    trivial
  | integrity hash =>
    obtain ⟨d, hd, rfl⟩ := map_eq_ok.mp h
    exact (IntegrityDirection.ready_derive hd).length_iv

namespace Protection

theorem Ready.tolerant_decode (h : p.Ready) (hs : p.reading.Sized)
    (hid : AdditionalData.Holds p.reading.id) (hlen : fragment.length ≤ Size.capacity)
    (s : UInt64) (t : ContentType) (v : Version) : Tolerant (p.decode s t v fragment).1 := by
  cases p with
  | aead p =>
    change Tolerant (p.decoder.decode s t v fragment)
    rw [AeadDirection.Sized.decode_eq_conclude hs]
    exact tolerant_conclude _ _ _ _ _ _
  | block p => exact h.2.tolerant_decode s t hlen hid
  | null p =>
    change Tolerant (p.decoder.decode s t fragment).1
    rw [h.2.decode_eq_conclude]
    exact tolerant_conclude _ _ _ _ _ _
  | integrity p =>
    change Tolerant (p.decoder.decode s t v fragment).1
    rw [h.2.decode_eq_conclude]
    exact tolerant_conclude _ _ _ _ _ _

theorem inRange_of_sized (hs : p.reading.Sized) (fragment : Bytes) :
    p.reading.InRange fragment := by
  cases p with
  | aead p =>
    refine ⟨hs, fun hlen => ?_⟩
    unfold AeadDirection.overhead at hlen
    refine ⟨by omega, by rw [List.length_drop]; omega, ?_⟩
    intro nonce aad message hopen
    exact Aead.length_of_openBuffer hopen
  | block p =>
    intro hm
    obtain ⟨-, hiv, hmac, -, -⟩ := BlockDirection.length_bodyOf hm
    exact ⟨hiv, Nat.lt_of_le_of_lt (Nat.zero_le _) hmac, Nat.le_of_lt hmac⟩
  | null p => trivial
  | integrity p => exact hs

end Protection

end RecordLayer
