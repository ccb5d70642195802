import RecordLayer.Proofs.Fragments

/-! # Directions

Each end writes in one direction and reads in the other. Whatever is written or comes in, and
whether or not it is accepted, both directions stay as they are, apart from the chain of a block
cipher.
-/

namespace RecordLayer

open Aes (Block)

/-- What one end of a connection writes and the other reads. -/
inductive Direction
  | aead (d : AeadDirection)
  | block (d : BlockDirection)
  | null (d : NullDirection)
  | integrity (d : IntegrityDirection)

variable {s : UInt64} {t : ContentType} {v : Version} {room : Nat}
  {plaintext payload fragment : Bytes} {record : Protected} {received : Recovered}

namespace Direction

variable {d d' d'' : Direction}

def id : Direction → Bytes
  | aead d => d.id
  | block d => d.id
  | null d => d.id
  | integrity _ => []

def inner : Direction → Bool
  | aead d => d.inner
  | block d => d.inner
  | null d => d.inner
  | integrity _ => true

def outer (d : Direction) (t : ContentType) : ContentType :=
  match d with
  | aead d => ContentType.outer d.isTls13 d.id t
  | block d => ContentType.outer false d.id t
  | null d => ContentType.outer false d.id t
  | integrity _ => .applicationData

/-- A fragment passes the check of the direction and carries a payload. -/
def Carries (d : Direction) (s : UInt64) (t : ContentType) (v : Version)
    (fragment payload : Bytes) : Prop :=
  match d with
  | aead d => d.Carries s t v fragment payload
  | block d => d.Carries s t fragment payload
  | null d => d.Carries s t fragment payload
  | integrity d => d.Carries s t v fragment payload

def withChain (chain : Block) : Direction → Direction
  | block d => block (d.withChain chain)
  | d => d

/-- The chaining value that the next record depends on. -/
def chain? : Direction → Option Block
  | block d => if d.explicitIv then none else some d.cbc.chain
  | _ => none

def advance (fragment : Bytes) : Direction → Direction
  | block d => block (d.withChain (d.cbc.lastBlock (d.blocksOf fragment)))
  | d => d

def SameKeys (d d' : Direction) : Prop := ∃ chain, d' = d.withChain chain

theorem outer_eq (h : d.inner = false) (t : ContentType) : d.outer t = t := by
  cases d with
  | aead d =>
    simp only [inner, AeadDirection.inner, Bool.or_eq_false_iff, Bool.not_eq_false'] at h
    simp [outer, ContentType.outer, h]
  | block d =>
    simp only [inner, BlockDirection.inner, Bool.not_eq_false'] at h
    simp [outer, ContentType.outer, h]
  | null d =>
    simp only [inner, NullDirection.inner, Bool.not_eq_false'] at h
    simp [outer, ContentType.outer, h]
  | integrity d => cases h

theorem SameKeys.refl (d : Direction) : d.SameKeys d := by
  cases d with
  | block d => exact ⟨d.cbc.chain, rfl⟩
  | aead d | null d | integrity d => exact ⟨.ofBytes [], rfl⟩

theorem SameKeys.trans (h : d.SameKeys d') (h' : d'.SameKeys d'') : d.SameKeys d'' := by
  obtain ⟨chain, rfl⟩ := h
  obtain ⟨chain', rfl⟩ := h'
  refine ⟨chain', ?_⟩
  cases d <;> rfl

theorem SameKeys.symm (h : d.SameKeys d') : d'.SameKeys d := by
  obtain ⟨chain, rfl⟩ := h
  cases d with
  | block d => exact ⟨d.cbc.chain, rfl⟩
  | aead d | null d | integrity d => exact ⟨chain, rfl⟩

theorem SameKeys.id_eq (h : d.SameKeys d') : d'.id = d.id := by
  obtain ⟨chain, rfl⟩ := h
  cases d <;> rfl

theorem SameKeys.inner_eq (h : d.SameKeys d') : d'.inner = d.inner := by
  obtain ⟨chain, rfl⟩ := h
  cases d <;> rfl

theorem SameKeys.carries_iff (h : d.SameKeys d') (hc : d.chain? = d'.chain?) :
    d'.Carries s t v fragment payload ↔ d.Carries s t v fragment payload := by
  obtain ⟨chain, rfl⟩ := h
  cases d with
  | block d =>
    refine BlockDirection.carries_withChain_iff fun hx => ?_
    simp only [chain?, withChain, BlockDirection.withChain, hx] at hc
    exact (Option.some.inj hc).symm
  | aead d | null d | integrity d => exact Iff.rfl

theorem SameKeys.chain_advance (h : d.SameKeys d') (hc : d.chain? = d'.chain?)
    (fragment : Bytes) : (d.advance fragment).chain? = (d'.advance fragment).chain? := by
  obtain ⟨chain, rfl⟩ := h
  cases d with
  | block d =>
    cases hx : d.explicitIv with
    | true => simp [advance, chain?, withChain, BlockDirection.withChain, hx]
    | false =>
      simp only [chain?, withChain, BlockDirection.withChain, hx] at hc
      obtain rfl := Option.some.inj hc
      rfl
  | aead d | null d | integrity d => rfl

end Direction

namespace Protection

variable {p : Protection} {r : Randomness}

def writing : Protection → Direction
  | aead p => .aead p.encoder
  | block p => .block p.encoder.toBlockDirection
  | null p => .null p.encoder
  | integrity p => .integrity p.encoder

def reading : Protection → Direction
  | aead p => .aead p.decoder
  | block p => .block p.decoder.toBlockDirection
  | null p => .null p.decoder
  | integrity p => .integrity p.decoder

def direction (p : Protection) : Side → Direction
  | .write => p.writing
  | .read => p.reading

@[simp] theorem direction_aead (p : AeadProtection) (side : Side) :
    (aead p).direction side = .aead (p.direction side) := by cases side <;> rfl

@[simp] theorem direction_integrity (p : IntegrityProtection) (side : Side) :
    (integrity p).direction side = .integrity (p.direction side) := by cases side <;> rfl

/-- What holds of a protection between records. -/
def Ready : Protection → Prop
  | aead p => p.encoder.Ready ∧ p.decoder.Ready
  | block p => p.encoder.Ready ∧ p.decoder.Ready
  | null p => p.encoder.Ready ∧ p.decoder.Ready
  | integrity p => p.encoder.Ready ∧ p.decoder.Ready

theorem Ready.encode_ok (h : p.Ready) (hok : (p.encode r s t v room plaintext).1 = .ok record) :
    ∃ fragment, record = .assemble room (p.writing.outer t) fragment ∧
      fragment.length ≤ Size.capacity ∧
      p.writing.Carries s (p.writing.outer t) v fragment
        (InnerPlaintext.wrap p.writing.inner t plaintext) ∧
      (p.encode r s t v room plaintext).2.1.writing = p.writing.advance fragment := by
  cases p with
  | aead p =>
    obtain ⟨fragment, hrec, hlen, hc⟩ := AeadDirection.encode_ok hok
    exact ⟨fragment, hrec, hlen, hc, rfl⟩
  | block p =>
    obtain ⟨fragment, hrec, hlen, hc, hafter⟩ := h.1.encode_ok hok
    exact ⟨fragment, hrec, hlen, hc, congrArg (fun e : BlockEncoder => Direction.block e.1) hafter⟩
  | null p =>
    obtain ⟨fragment, hrec, hlen, hc⟩ := h.1.encode_ok hok
    exact ⟨fragment, hrec, hlen, hc, congrArg Direction.null (h.1.encode_snd ..)⟩
  | integrity p =>
    obtain ⟨fragment, hrec, hlen, hc⟩ := h.1.encode_ok hok
    exact ⟨fragment, hrec, hlen, hc, congrArg Direction.integrity (h.1.encode_snd ..)⟩

theorem Ready.decode_of_carries (h : p.Ready) (hlen : fragment.length ≤ Size.capacity)
    (hid : AdditionalData.Holds p.reading.id) (hne : p.reading.inner = true → payload ≠ [])
    (hc : p.reading.Carries s t v fragment payload) :
    (p.decode s t v fragment).1 = InnerPlaintext.recover p.reading.inner t payload := by
  cases p with
  | aead p => exact AeadDirection.decode_of_carries hc
  | block p => exact h.2.decode_of_carries hlen hid hc
  | null p => exact h.2.decode_of_carries hc
  | integrity p => exact h.2.decode_of_carries (hne rfl) hc

/-- A decoder accepts what carries a payload that can be unwrapped, and nothing else. -/
theorem Ready.decode_ok_iff (h : p.Ready) (hlen : fragment.length ≤ Size.capacity)
    (hid : AdditionalData.Holds p.reading.id) : (p.decode s t v fragment).1 = .ok received ↔
      ∃ payload, p.reading.Carries s t v fragment payload ∧
        InnerPlaintext.recover p.reading.inner t payload = .ok received := by
  cases p with
  | aead p => exact AeadDirection.decode_ok_iff
  | block p => exact h.2.decode_ok_iff hlen hid
  | null p => exact h.2.decode_ok_iff
  | integrity p => exact h.2.decode_ok_iff

theorem Ready.decode_reading (h : p.Ready) (hc : p.reading.Carries s t v fragment payload) :
    (p.decode s t v fragment).2.reading = p.reading.advance fragment := by
  cases p with
  | aead p => rfl
  | block p =>
    obtain ⟨chain, scratch, hdec, -⟩ := h.2.decode_decoder s t fragment
    have hchain := h.2.chain_of_carries hc
    rw [hdec] at hchain
    obtain rfl : chain = _ := hchain
    exact congrArg (fun d : BlockDecoder => Direction.block d.1) hdec
  | null p => exact congrArg Direction.null (h.2.decode_snd ..)
  | integrity p => exact congrArg Direction.integrity (h.2.decode_snd ..)

theorem Ready.encode_frame (h : p.Ready) (r : Randomness) (s : UInt64) (t : ContentType)
    (v : Version) (room : Nat) (plaintext : Bytes) :
    (p.encode r s t v room plaintext).2.1.Ready ∧
      p.writing.SameKeys (p.encode r s t v room plaintext).2.1.writing ∧
      (p.encode r s t v room plaintext).2.1.reading = p.reading := by
  cases p with
  | aead p => exact ⟨h, .refl _, rfl⟩
  | block p =>
    obtain ⟨chain, henc⟩ := h.1.encode_encoder r s t room plaintext
    have hkeys : (p.encoder.encode r s t room plaintext).2.1.Ready := by
      rw [henc]
      exact ⟨h.1.mac, h.1.maxPadding_le⟩
    exact ⟨⟨hkeys, h.2⟩, ⟨chain, congrArg (fun e : BlockEncoder => Direction.block e.1) henc⟩, rfl⟩
  | null p =>
    have henc := h.1.encode_snd s t room plaintext
    have hkeys : (p.encoder.encode s t room plaintext).2.Ready := henc.symm ▸ h.1
    exact ⟨⟨hkeys, h.2⟩, ⟨.ofBytes [], congrArg Direction.null henc⟩, rfl⟩
  | integrity p =>
    have henc := h.1.encode_snd s t v room plaintext
    have hkeys : (p.encoder.encode s t v room plaintext).2.Ready := henc.symm ▸ h.1
    exact ⟨⟨hkeys, h.2⟩, ⟨.ofBytes [], congrArg Direction.integrity henc⟩, rfl⟩

theorem Ready.decode_frame (h : p.Ready) (s : UInt64) (t : ContentType) (v : Version)
    (fragment : Bytes) : (p.decode s t v fragment).2.Ready ∧
      (p.decode s t v fragment).2.writing = p.writing ∧
      p.reading.SameKeys (p.decode s t v fragment).2.reading := by
  cases p with
  | aead p => exact ⟨h, rfl, .refl _⟩
  | block p =>
    obtain ⟨chain, scratch, hdec, hs⟩ := h.2.decode_decoder s t fragment
    have hkeys : (p.decoder.decode s t fragment).decoder.Ready := by
      rw [hdec]
      exact ⟨h.2.mac, hs, h.2.longPadding⟩
    exact ⟨⟨h.1, hkeys⟩, rfl, ⟨chain, congrArg (fun d : BlockDecoder => Direction.block d.1) hdec⟩⟩
  | null p =>
    have hdec := h.2.decode_snd s t fragment
    have hkeys : (p.decoder.decode s t fragment).2.Ready := hdec.symm ▸ h.2
    exact ⟨⟨h.1, hkeys⟩, rfl, ⟨.ofBytes [], congrArg Direction.null hdec⟩⟩
  | integrity p =>
    have hdec := h.2.decode_snd s t v fragment
    have hkeys : (p.decoder.decode s t v fragment).2.Ready := hdec.symm ▸ h.2
    exact ⟨⟨h.1, hkeys⟩, rfl, ⟨.ofBytes [], congrArg Direction.integrity hdec⟩⟩

inductive Call
  | encode (r : Randomness) (s : UInt64) (t : ContentType) (v : Version) (room : Nat)
    (plaintext : Bytes)
  | decode (s : UInt64) (t : ContentType) (v : Version) (fragment : Bytes)

def after (p : Protection) : Call → Protection
  | .encode r s t v room plaintext => (p.encode r s t v room plaintext).2.1
  | .decode s t v fragment => (p.decode s t v fragment).2

def afterAll (p : Protection) (calls : List Call) : Protection := calls.foldl after p

/-- No use changes the keys of either direction, whatever it is and whether or not it succeeds. -/
theorem Ready.after (h : p.Ready) (call : Call) :
    (p.after call).Ready ∧ p.writing.SameKeys (p.after call).writing ∧
      p.reading.SameKeys (p.after call).reading := by
  cases call with
  | encode r s t v room plaintext =>
    obtain ⟨hr, hw, hk⟩ := h.encode_frame r s t v room plaintext
    exact ⟨hr, hw, hk ▸ .refl _⟩
  | decode s t v fragment =>
    obtain ⟨hr, hk, hw⟩ := h.decode_frame s t v fragment
    exact ⟨hr, hk ▸ .refl _, hw⟩

theorem Ready.sameKeys_after (h : p.Ready) (call : Call) (side : Side) :
    (p.direction side).SameKeys ((p.after call).direction side) := by
  obtain ⟨-, hw, hr⟩ := h.after call
  cases side
  · exact hw
  · exact hr

theorem Ready.afterAll (h : p.Ready) (calls : List Call) :
    (p.afterAll calls).Ready ∧ p.writing.SameKeys (p.afterAll calls).writing ∧
      p.reading.SameKeys (p.afterAll calls).reading := by
  induction calls generalizing p with
  | nil => exact ⟨h, .refl _, .refl _⟩
  | cons call calls ih =>
    obtain ⟨hr, hw, hk⟩ := h.after call
    obtain ⟨hr', hw', hk'⟩ := ih hr
    exact ⟨hr', hw.trans hw', hk.trans hk'⟩

end Protection

end RecordLayer
