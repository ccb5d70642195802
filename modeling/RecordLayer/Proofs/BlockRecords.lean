import RecordLayer.Protection.Block
import RecordLayer.Proofs.Chaining
import RecordLayer.Proofs.PaddingCheck
import RecordLayer.Proofs.RecordTags
import RecordLayer.Proofs.Results

/-! # Records of block ciphers

What the encoder writes and what the decoder makes of a fragment, as functions of the keys and of
the chain. Apart from the chain, and the scratch of the padding check, no state passes from one
record to the next.
-/

namespace RecordLayer

open Aes (Block)

namespace Randomness

variable {r r' : Randomness} {n i count : Nat} {data : Bytes}

theorem length_streamWords (seed : UInt64) (i count : Nat) :
    (streamWords seed i count).length = 4 * count := by
  simp only [streamWords, List.length_take, List.length_drop, List.length_flatMap,
    ChaCha20.length_block, List.map_const', List.length_range, List.sum_replicate_nat]
  omega

theorem length_of_draw (h : r.draw n = .ok (data, r')) : data.length = n := by
  cases r with
  | seeded seed i =>
    obtain ⟨rfl, -⟩ := Prod.mk.inj (Except.ok.inj h)
    rw [List.length_take, length_streamWords]
    omega
  | script s used =>
    obtain ⟨bytes, -, hbytes⟩ := map_eq_ok.mp h
    obtain ⟨rfl, -⟩ := Prod.mk.inj hbytes
    exact bytes.2

end Randomness

theorem eq_append_tag_iff (tag : Bytes → Bytes) {n : Nat} {x y : Bytes}
    (htag : (tag y).length = n) :
    x = y ++ tag y ↔ y = x.take (x.length - n) ∧ tag y = x.drop (x.length - n) := by
  constructor
  · intro hx
    have hcut : x.length - n = y.length := by rw [hx, List.length_append]; omega
    rw [hcut, hx, List.take_left' rfl, List.drop_left' rfl]
    exact ⟨rfl, rfl⟩
  · rintro ⟨hy, ht⟩
    rw [ht, hy, List.take_append_drop]

namespace InnerPlaintext

variable {inUse : Bool} {t outer : ContentType}

def recover (inUse : Bool) (outer : ContentType) (payload : Bytes) : Except Failure Recovered :=
  match unwrap inUse outer payload with
  | .ok (plaintext, t) => .ok ⟨plaintext, t⟩
  | .error e => .error (.refused e)

theorem recover_eq_ok {payload : Bytes} {received : Recovered} :
    recover inUse outer payload = .ok received ↔
      ∃ a, unwrap inUse outer payload = .ok a ∧ ⟨a.1, a.2⟩ = received := by
  unfold recover
  cases unwrap inUse outer payload <;> simp

theorem recover_wrap (ht : inUse = true → t.code ≠ 0) (ho : inUse = false → outer = t)
    (plaintext : Bytes) : recover inUse outer (wrap inUse t plaintext) = .ok ⟨plaintext, t⟩ := by
  cases inUse with
  | false =>
    obtain rfl := ho rfl
    rfl
  | true =>
    have hstrip := strip_append (ht rfl) plaintext
    simp only [recover, unwrap, wrap, if_true, hstrip]

end InnerPlaintext

theorem RecordMac.headerSize_le (m : RecordMac) {id : Bytes} (h : AdditionalData.Holds id) :
    m.headerSize id ≤ Size.capacity := by
  unfold AdditionalData.Holds at h
  unfold headerSize
  split
  · exact h
  · split <;> decide

namespace BlockDirection

variable (d : BlockDirection) {s : UInt64} {t : ContentType}
  {body content content' fragment : Bytes}

def withChain (chain : Block) : BlockDirection := { d with cbc := d.cbc.withChain chain }

def innerTag (s : UInt64) (t : ContentType) (content : Bytes) : Bytes :=
  if d.encryptThenMac then [] else (d.mac.tag s t d.id content).1

def trailer (s : UInt64) (t : ContentType) (blocks : Bytes) : Bytes :=
  if d.encryptThenMac then (d.mac.tag s t d.id blocks).1 else []

def blocksOf (fragment : Bytes) : Bytes := fragment.take (fragment.length - d.outerMacSize)

def trailerOf (fragment : Bytes) : Bytes := fragment.drop (fragment.length - d.outerMacSize)

/-- What the encrypted part of a fragment hides, without the random block. -/
def bodyOf (fragment : Bytes) : Bytes := (d.cbc.decryption (d.blocksOf fragment)).drop d.ivSize

/-- The length of the fragment, or that of its encrypted part, is not one of a record. -/
def Malformed (fragment : Bytes) : Prop :=
  fragment.length < d.minSize ∨ (d.blocksOf fragment).length % blockSize ≠ 0

def paddingLimit : Nat := if d.mac.version.isSsl then blockSize else Padding.maxSize

/-- A body is a content with its tag and an acceptable padding. -/
def Holds (s : UInt64) (t : ContentType) (body content : Bytes) : Prop :=
  ∃ k, 1 ≤ k ∧ k ≤ d.paddingLimit ∧ body = content ++ d.innerTag s t content ++ Padding.bytes k

variable {d}

theorem paddingLimit_le (d : BlockDirection) : d.paddingLimit ≤ Padding.maxSize := by
  unfold paddingLimit
  split
  · decide
  · exact Nat.le_refl _

theorem length_innerTag (h : d.mac.Ready) (s : UInt64) (t : ContentType) (content : Bytes) :
    (d.innerTag s t content).length = d.innerMacSize := by
  unfold innerTag innerMacSize
  split
  · rfl
  · exact h.length_tag ..

theorem outerTag_eq (h : d.mac.Ready) (s : UInt64) (t : ContentType) (blocks : Bytes) :
    d.outerTag s t blocks = (d.trailer s t blocks, d) := by
  unfold outerTag trailer
  split
  · simp only [h.tag_eq]
  · rfl

theorem length_trailer (h : d.mac.Ready) (s : UInt64) (t : ContentType) (blocks : Bytes) :
    (d.trailer s t blocks).length = d.outerMacSize := by
  unfold trailer outerMacSize
  split
  · exact h.length_tag ..
  · rfl

theorem blocksOf_append (blocks : Bytes) {trailer : Bytes} (h : trailer.length = d.outerMacSize) :
    d.blocksOf (blocks ++ trailer) = blocks := by
  rw [blocksOf, List.length_append, h, Nat.add_sub_cancel, List.take_left' rfl]

theorem trailerOf_append {blocks trailer : Bytes} (h : trailer.length = d.outerMacSize) :
    d.trailerOf (blocks ++ trailer) = trailer := by
  rw [trailerOf, List.length_append, h, Nat.add_sub_cancel, List.drop_left' rfl]

theorem not_malformed_append {blocks trailer : Bytes} (h : trailer.length = d.outerMacSize)
    (ha : blocks.length % Block.size = 0) (hsize : d.ivSize + d.innerMacSize < blocks.length) :
    ¬ d.Malformed (blocks ++ trailer) := by
  have hiv : d.ivSize % Block.size = 0 := by
    unfold ivSize
    split <;> rfl
  rintro (hmin | hmod)
  · rw [List.length_append, h] at hmin
    unfold minSize at hmin
    unfold outerMacSize at hmin
    unfold innerMacSize at hsize
    simp only [blockSize, Block.size] at *
    by_cases hmode : d.encryptThenMac = true
    · rw [if_pos hmode] at hmin hsize
      rw [if_pos hmode] at hmin
      omega
    · rw [if_neg hmode] at hmin hsize
      rw [if_neg hmode] at hmin
      omega
  · rw [blocksOf_append blocks h] at hmod
    exact hmod ha

theorem outerMacSize_le (h : d.minSize ≤ fragment.length) : d.outerMacSize ≤ fragment.length := by
  unfold minSize at h
  unfold outerMacSize
  split at h <;> split <;> omega

theorem length_bodyOf (hm : ¬ d.Malformed fragment) :
    (d.blocksOf fragment).length % blockSize = 0 ∧ d.ivSize ≤ (d.blocksOf fragment).length ∧
      d.innerMacSize < (d.bodyOf fragment).length ∧ (d.bodyOf fragment).length % blockSize = 0 ∧
      d.ivSize + (d.bodyOf fragment).length + d.outerMacSize = fragment.length := by
  simp only [Malformed, not_or, Nat.not_lt, ne_eq, Decidable.not_not] at hm
  obtain ⟨hmin, hmod⟩ := hm
  have houter := outerMacSize_le hmin
  have hblocks : (d.blocksOf fragment).length = fragment.length - d.outerMacSize := by
    rw [blocksOf, List.length_take]
    omega
  have hbody : (d.bodyOf fragment).length = (d.blocksOf fragment).length - d.ivSize := by
    rw [bodyOf, List.length_drop, Cbc.length_decryption hmod]
  have hiv : d.ivSize % blockSize = 0 := by
    unfold ivSize
    split <;> rfl
  have hsize : d.ivSize + d.innerMacSize < (d.blocksOf fragment).length := by
    unfold minSize at hmin
    unfold outerMacSize at hblocks
    unfold innerMacSize
    simp only [blockSize, Block.size] at *
    split at hmin <;> simp_all <;> omega
  refine ⟨hmod, by omega, by omega, ?_, by omega⟩
  simp only [blockSize, Block.size] at *
  omega

theorem Holds.unique (hr : d.mac.Ready) (h : d.Holds s t body content)
    (h' : d.Holds s t body content') : content = content' := by
  obtain ⟨k, hk, hkl, hbody⟩ := h
  obtain ⟨l, hl, hll, hbody'⟩ := h'
  have hmax := d.paddingLimit_le
  obtain rfl : k = l := Padding.suffix_unique (x := body) hk (by omega) hl (by omega)
    ⟨_, hbody.symm⟩ ⟨_, hbody'.symm⟩
  have hfront := (List.append_inj' (hbody.symm.trans hbody') rfl).1
  exact (List.append_inj' hfront (by rw [length_innerTag hr, length_innerTag hr])).1

theorem Holds.of_encryptThenMac (h : d.Holds s t body content) (hmode : d.encryptThenMac = true)
    (s' : UInt64) (t' : ContentType) : d.Holds s' t' body content := by
  unfold Holds innerTag at *
  rw [if_pos hmode] at h ⊢
  exact h

theorem holds_append_iff {front : Bytes} {k : Nat} (hk : 1 ≤ k) (hkl : k ≤ d.paddingLimit) :
    d.Holds s t (front ++ Padding.bytes k) content ↔ front = content ++ d.innerTag s t content := by
  have hmax := d.paddingLimit_le
  constructor
  · rintro ⟨l, hl, hll, hbody⟩
    obtain rfl : k = l := Padding.suffix_unique (x := front ++ Padding.bytes k) hk (by omega) hl
      (by omega) (List.suffix_append ..) ⟨_, hbody.symm⟩
    exact (List.append_inj' hbody rfl).1
  · rintro rfl
    exact ⟨k, hk, hkl, rfl⟩

end BlockDirection

namespace BlockEncoder

variable {e e' : BlockEncoder} {s : UInt64} {t outer : ContentType} {room padding : Nat}
  {iv plaintext fragment : Bytes} {record : Protected} {r r' : Randomness}

def withChain (e : BlockEncoder) (chain : Block) : BlockEncoder :=
  { e with toBlockDirection := e.toBlockDirection.withChain chain }

def plainOf (e : BlockEncoder) (s : UInt64) (t : ContentType) (iv : Bytes) (padding : Nat)
    (plaintext : Bytes) : Bytes :=
  let content := InnerPlaintext.wrap e.inner t plaintext
  iv ++ (content ++ e.innerTag s (ContentType.outer false e.id t) content ++
    Padding.bytes padding)

/-- The fragment is one that the encoder may write for a plaintext. -/
structure Writes (e : BlockEncoder) (s : UInt64) (t : ContentType) (plaintext iv : Bytes)
    (padding : Nat) (fragment : Bytes) : Prop where
  length_iv : iv.length = e.ivSize
  padding_pos : 1 ≤ padding
  padding_le : padding ≤ e.maxPadding
  aligned : (e.plainOf s t iv padding plaintext).length % Block.size = 0
  fragment_eq : fragment = e.cbc.encryption (e.plainOf s t iv padding plaintext) ++
    e.trailer s (ContentType.outer false e.id t)
      (e.cbc.encryption (e.plainOf s t iv padding plaintext))

theorem payload_eq (h : e.mac.Ready) : e.payload s (ContentType.outer false e.id t) t iv padding
    plaintext = (e.plainOf s t iv padding plaintext, e) := by
  unfold payload plainOf BlockDirection.innerTag
  split
  · simp
  · simp [h.tag_eq]

theorem fragment_eq (h : e.mac.Ready)
    (ha : (e.plainOf s t iv padding plaintext).length % Block.size = 0) :
    let blocks := e.cbc.encryption (e.plainOf s t iv padding plaintext)
    e.fragment s (ContentType.outer false e.id t) t iv padding plaintext =
      (.ok (blocks ++ e.trailer s (ContentType.outer false e.id t) blocks),
        e.withChain (e.cbc.lastBlock blocks)) := by
  intro blocks
  have hd : (e.toBlockDirection.withChain (e.cbc.lastBlock blocks)).mac.Ready := h
  have htag := BlockDirection.outerTag_eq hd s (ContentType.outer false e.id t) blocks
  simp only [fragment, payload_eq h, Cbc.encrypt_of_aligned ha]
  exact congrArg (fun p : Bytes × BlockDirection =>
    (Except.ok (blocks ++ p.1), { e with toBlockDirection := p.2 })) htag

theorem length_plainOf (h : e.mac.Ready) (s : UInt64) (t : ContentType) (iv : Bytes)
    (padding : Nat) (plaintext : Bytes) : (e.plainOf s t iv padding plaintext).length =
      iv.length + (plaintext.length + InnerPlaintext.overhead e.inner + e.innerMacSize +
        padding) := by
  simp only [plainOf, List.length_append, InnerPlaintext.length_wrap,
    BlockDirection.length_innerTag h, Padding.length_bytes]

theorem maxPadding_le (e : BlockEncoder) : e.maxPadding ≤ Padding.maxSize := by
  unfold maxPadding
  split <;> decide

theorem drawPadding_ok {n : Nat} (h : e.drawPadding r n = .ok (padding, r')) :
    1 ≤ padding ∧ padding ≤ e.maxPadding ∧ (n + padding) % Block.size = 0 := by
  obtain ⟨hpos, hle, hmod⟩ := Padding.least_bounds (show 0 < Block.size by decide) n
  unfold drawPadding maxPadding at *
  cases hx : e.extraPadding with
  | false =>
    simp only [hx, Bool.false_eq_true, if_false, Except.ok.injEq, Prod.mk.injEq, pure,
      Except.pure] at h ⊢
    obtain ⟨rfl, -⟩ := h
    exact ⟨hpos, hle, hmod⟩
  | true =>
    simp only [hx, if_true, bind, Except.bind] at h ⊢
    split at h
    · cases h
    · obtain ⟨rfl, -⟩ := Prod.mk.inj (Except.ok.inj h)
      have hmax : Block.size ≤ Padding.maxSize := by decide
      obtain ⟨hlo, hhi, hsum⟩ := Padding.extend_bounds (Nat.le_trans hle hmax) hmod _
      exact ⟨Nat.le_trans hpos hlo, hhi, hsum⟩

theorem drawIv_ok (h : e.drawIv r = .ok (iv, r')) : iv.length = e.ivSize := by
  unfold drawIv at h
  unfold BlockDirection.ivSize
  split at h
  · rename_i hx
    rw [hx]
    exact Randomness.length_of_draw h
  · rename_i hx
    rw [if_neg hx]
    obtain ⟨rfl, -⟩ := Prod.mk.inj (Except.ok.inj h)
    rfl

def unpaddedSize (e : BlockEncoder) (plaintext : Bytes) : Nat :=
  plaintext.length + InnerPlaintext.overhead e.inner + e.innerMacSize

/-- The padding after `n` bytes and the random block that a record is to have. -/
def Draws (e : BlockEncoder) (r : Randomness) (n padding : Nat) (iv : Bytes) (r' : Randomness) :
    Prop :=
  ∃ r₁, e.drawPadding r n = .ok (padding, r₁) ∧ e.drawIv r₁ = .ok (iv, r')

theorem Writes.length_fragment (h : e.mac.Ready) (hw : e.Writes s t plaintext iv padding fragment) :
    fragment.length = e.ivSize + e.unpaddedSize plaintext + padding + e.outerMacSize := by
  obtain ⟨hiv, -, -, ha, rfl⟩ := hw
  have hlen := length_plainOf h s t iv padding plaintext
  rw [List.length_append, Cbc.length_encryption ha, BlockDirection.length_trailer h, hlen, hiv,
    unpaddedSize]
  omega

/-- Once padding and random block are drawn, an encoding succeeds if there is memory for it. It
leaves the last ciphertext block in the chain. -/
theorem encode_of_draws (h : e.mac.Ready) (hd : e.Draws r (e.unpaddedSize plaintext) padding iv r')
    (hroom : room + (e.ivSize + e.unpaddedSize plaintext + padding + e.outerMacSize) ≤
      Size.capacity) : ∃ fragment, e.Writes s t plaintext iv padding fragment ∧
        e.encode r s t room plaintext =
          (.ok (.assemble room (ContentType.outer false e.id t) fragment), e.withChain
            (e.cbc.lastBlock (e.cbc.encryption (e.plainOf s t iv padding plaintext))), r') := by
  obtain ⟨r₁, hpad, hiv⟩ := hd
  obtain ⟨hpos, hle, hmod⟩ := drawPadding_ok hpad
  have hlen := length_plainOf h s t iv padding plaintext
  have hivlen := drawIv_ok hiv
  have hivmod : e.ivSize % Block.size = 0 := by
    unfold BlockDirection.ivSize
    split <;> rfl
  have ha : (e.plainOf s t iv padding plaintext).length % Block.size = 0 := by
    rw [hlen, hivlen]
    simp only [unpaddedSize, Block.size] at *
    omega
  have hw : e.Writes s t plaintext iv padding _ := ⟨hivlen, hpos, hle, ha, rfl⟩
  have hsize := hw.length_fragment h
  refine ⟨_, hw, ?_⟩
  unfold unpaddedSize at hpad hroom hsize
  simp only [encode, hpad, Size.reserve_eq_ok.mpr hroom, hiv, fragment_eq h ha,
    Protected.expectSize_eq_ok.mpr hsize, Protected.ofSize_eq_assemble hsize]

theorem encode_cases (h : e.mac.Ready) (r : Randomness) (s : UInt64) (t : ContentType)
    (room : Nat) (plaintext : Bytes) :
    (∃ f r', e.encode r s t room plaintext = (.error f, e, r')) ∨
      ∃ iv padding fragment r', e.Draws r (e.unpaddedSize plaintext) padding iv r' ∧
        e.Writes s t plaintext iv padding fragment ∧
        room + fragment.length ≤ Size.capacity ∧
        e.encode r s t room plaintext =
          (.ok (.assemble room (ContentType.outer false e.id t) fragment), e.withChain
            (e.cbc.lastBlock (e.cbc.encryption (e.plainOf s t iv padding plaintext))), r') := by
  by_cases hd : ∃ iv padding r', e.Draws r (e.unpaddedSize plaintext) padding iv r' ∧
      room + (e.ivSize + e.unpaddedSize plaintext + padding + e.outerMacSize) ≤ Size.capacity
  · obtain ⟨iv, padding, r', hd, hroom⟩ := hd
    obtain ⟨fragment, hw, henc⟩ := encode_of_draws (s := s) (t := t) h hd hroom
    exact Or.inr ⟨iv, padding, fragment, r', hd, hw, hw.length_fragment h ▸ hroom, henc⟩
  · unfold encode
    dsimp only
    split
    · exact Or.inl ⟨_, _, rfl⟩
    rename_i hpad
    split
    · exact Or.inl ⟨_, _, rfl⟩
    rename_i hroom
    split
    · exact Or.inl ⟨_, _, rfl⟩
    rename_i hiv
    exact absurd ⟨_, _, _, ⟨_, hpad, hiv⟩, Size.reserve_eq_ok.mp hroom⟩ hd

end BlockEncoder

namespace BlockDecoder

variable {d : BlockDecoder} {s : UInt64} {t : ContentType} {body fragment content : Bytes}

structure Ready (d : BlockDecoder) : Prop where
  mac : d.mac.Ready
  length_scratch : d.scratch.length = Padding.maxSize
  longPadding : d.longPadding = !d.mac.version.isSsl

def withChain (d : BlockDecoder) (chain : Block) : BlockDecoder :=
  { d with toBlockDirection := d.toBlockDirection.withChain chain }

/-- What the check of a body makes of the record. -/
def verdict (inUse : Bool) (outer : ContentType) :
    Except Fault (Bytes × Bool) → Except Failure Recovered
  | .error f => .error (.fault f)
  | .ok (content, good) =>
    if good then InnerPlaintext.recover inUse outer content else .error (.refused .badRecordMac)

theorem Ready.withChain (h : d.Ready) (chain : Block) : (d.withChain chain).Ready :=
  ⟨h.mac, h.length_scratch, h.longPadding⟩

theorem Ready.limit_eq (h : d.Ready) (n : Nat) :
    Padding.limit d.longPadding BlockDirection.blockSize d.innerMacSize n =
      min d.paddingLimit (n - d.innerMacSize) := by
  rw [Padding.limit, h.longPadding, BlockDirection.paddingLimit]
  cases d.mac.version.isSsl <;> rfl

theorem Ready.padding_of_holds (h : d.Ready) {b : UInt8} (hb : body.getLast? = some b)
    (hc : d.Holds s t body content) :
    b.toNat + 1 ≤ min d.paddingLimit (body.length - d.innerMacSize) ∧
      Padding.bytes (b.toNat + 1) <:+ body := by
  obtain ⟨k, hk, hkl, hbody⟩ := hc
  have hmax := d.paddingLimit_le
  have hsuffix : Padding.bytes k <:+ body := ⟨_, hbody.symm⟩
  obtain rfl := Padding.eq_of_suffix hk (by omega) hsuffix hb
  refine ⟨Nat.le_min.mpr ⟨hkl, ?_⟩, hsuffix⟩
  rw [hbody, List.length_append, List.length_append, BlockDirection.length_innerTag h.mac,
    Padding.length_bytes]
  omega

theorem splitTag_append (x y : Bytes) : splitTag y.length (x ++ y) = .ok (x, y) := by
  have hlen : (x ++ y).length - y.length = x.length := by rw [List.length_append]; omega
  rw [splitTag_eq_ok (by rw [List.length_append]; omega), hlen, List.take_left' rfl,
    List.drop_left' rfl]

theorem Ready.uniformTag_eq (h : d.Ready) (s : UInt64) (t : ContentType) (rest scratch : Bytes)
    (fullSize : Nat) (hmode : ¬ d.encryptThenMac = true) (hr : d.mac.size ≤ rest.length)
    (hf : rest.length ≤ fullSize + d.mac.size)
    (hh : d.mac.headerSize d.id + fullSize + 16 < Size.bound) :
    ∃ content received, splitTag d.mac.size rest = .ok (content, received) ∧
      d.mac.uniformTag s t d.id content fullSize scratch = (.ok (d.innerTag s t content), d.mac) ∧
      ∀ c, rest = c ++ d.innerTag s t c ↔ d.innerTag s t content = received ∧ c = content := by
  have hin : d.innerMacSize = d.mac.size := if_neg hmode
  have htag (c : Bytes) : d.innerTag s t c = (d.mac.tag s t d.id c).1 := if_neg hmode
  have hlen (c : Bytes) : (d.innerTag s t c).length = d.mac.size := by
    rw [BlockDirection.length_innerTag h.mac, hin]
  refine ⟨_, _, splitTag_eq_ok hr, ?_, ?_⟩
  · rw [htag]
    exact h.mac.uniformTag_eq s t d.id _ scratch (by rw [List.length_take]; omega) hh
  · intro c
    rw [eq_append_tag_iff (d.innerTag s t) (hlen c), and_comm]
    exact and_congr_left (fun hc => by rw [hc])

/-- The check of a decrypted body decides whether it holds a content, and finds the content. -/
theorem Ready.verify_eq (h : d.Ready) (s : UInt64) (t : ContentType)
    (hb : d.innerMacSize < body.length)
    (hh : d.mac.headerSize d.id + body.length + 16 < Size.bound) :
    ∃ scratch content good, d.verify s t body = (.ok (content, good), { d with scratch }) ∧
      scratch.length = Padding.maxSize ∧
      ∀ c, d.Holds s t body c ↔ good = true ∧ c = content := by
  obtain ⟨b, hlast⟩ : ∃ b, body.getLast? = some b :=
    ⟨_, List.getLast?_eq_some_getLast (List.ne_nil_of_length_pos (by omega))⟩
  obtain ⟨mixed, hcheck⟩ := Padding.check_eq d.longPadding BlockDirection.blockSize d.innerMacSize
    hlast h.length_scratch
  rw [h.limit_eq] at hcheck
  have hscratch : (d.scratch.modify 0 (· ^^^ mixed)).length = Padding.maxSize := by
    rw [List.length_modify, h.length_scratch]
  unfold verify
  by_cases hpad : b.toNat + 1 ≤ min d.paddingLimit (body.length - d.innerMacSize) ∧
      Padding.bytes (b.toNat + 1) <:+ body
  · obtain ⟨hlim, front, rfl⟩ := hpad
    rw [if_pos ⟨hlim, List.suffix_append ..⟩] at hcheck
    have hsplit := splitTag_append front (Padding.bytes (b.toNat + 1))
    have hholds (c : Bytes) : d.Holds s t (front ++ Padding.bytes (b.toNat + 1)) c ↔
        front = c ++ d.innerTag s t c :=
      BlockDirection.holds_append_iff (Nat.le_add_left ..) (Nat.le_trans hlim (Nat.min_le_left ..))
    rw [List.length_append, Padding.length_bytes] at hlim hh
    rw [Padding.length_bytes] at hsplit
    simp only [hcheck, hsplit]
    by_cases hmode : d.encryptThenMac = true
    · refine ⟨_, _, _, if_pos hmode, hscratch, ?_⟩
      intro c
      rw [hholds, BlockDirection.innerTag, if_pos hmode, List.append_nil, eq_comm]
      simp
    · have hin : d.innerMacSize = d.mac.size := if_neg hmode
      obtain ⟨content, received, hs, ht, hiff⟩ := h.uniformTag_eq s t front
        (d.scratch.modify 0 (· ^^^ mixed)) (front.length + (b.toNat + 1) - d.mac.size) hmode
        (by omega) (by omega) (by omega)
      simp only [if_neg hmode, hs, List.length_append, Padding.length_bytes, ht]
      refine ⟨_, _, _, rfl, hscratch, ?_⟩
      intro c
      rw [hholds, hiff]
      simp
  · rw [if_neg hpad] at hcheck
    have hnone (c : Bytes) : ¬ d.Holds s t body c := fun hc => hpad (h.padding_of_holds hlast hc)
    have hsplit := splitTag_append body []
    rw [List.append_nil, List.length_nil] at hsplit
    simp only [hcheck, hsplit]
    by_cases hmode : d.encryptThenMac = true
    · refine ⟨_, _, _, if_pos hmode, hscratch, ?_⟩
      intro c
      simp [hnone c]
    · have hin : d.innerMacSize = d.mac.size := if_neg hmode
      obtain ⟨content, received, hs, ht, -⟩ := h.uniformTag_eq s t body
        (d.scratch.modify 0 (· ^^^ mixed)) (body.length - d.mac.size) hmode (by omega) (by omega)
        (by omega)
      simp only [if_neg hmode, hs, ht]
      refine ⟨_, _, _, rfl, hscratch, ?_⟩
      intro c
      simp [hnone c]

theorem Ready.verify_snd (h : d.Ready) (s : UInt64) (t : ContentType) (body : Bytes) :
    ∃ scratch, (d.verify s t body).2 = { d with scratch } ∧ scratch.length = Padding.maxSize := by
  have hkeep : d = { d with scratch := d.scratch } := rfl
  unfold verify
  split
  · exact ⟨_, hkeep, h.length_scratch⟩
  · rename_i check hcheck
    have hlen : check.scratch.length = Padding.maxSize := by
      cases hb : body.getLast? with
      | none => simp [Padding.check, hb, throw, throwThe, MonadExceptOf.throw] at hcheck
      | some b =>
        obtain ⟨mixed, hc⟩ := Padding.check_eq d.longPadding BlockDirection.blockSize
          d.innerMacSize hb h.length_scratch
        rw [hc] at hcheck
        obtain rfl := Except.ok.inj hcheck
        rw [List.length_modify, h.length_scratch]
    refine ⟨check.scratch, ?_, hlen⟩
    dsimp only
    split
    · rfl
    · split
      · rfl
      · split
        · rfl
        · simp only [h.mac.uniformTag_snd]

theorem split_eq (hm : ¬ d.Malformed fragment) : d.split fragment =
    .ok (d.blocksOf fragment, d.trailerOf fragment) := by
  simp only [BlockDirection.Malformed, not_or, Nat.not_lt, ne_eq, Decidable.not_not] at hm
  have hmod : (fragment.take (fragment.length - d.outerMacSize)).length %
      BlockDirection.blockSize = 0 := hm.2
  unfold BlockDirection.split
  rw [if_neg (by omega), splitTag_eq_ok (BlockDirection.outerMacSize_le hm.1)]
  simp only [liftFault_ok, ok_bind, hmod, not_true_eq_false, ne_eq, if_false]
  rfl

theorem split_malformed (hm : d.Malformed fragment) :
    ∃ reason, d.split fragment = .error (.refused (.decodeError reason)) := by
  unfold BlockDirection.split
  by_cases hlen : fragment.length < d.minSize
  · rw [if_pos hlen]
    exact ⟨_, rfl⟩
  · have hmod := hm.resolve_left hlen
    rw [BlockDirection.blocksOf] at hmod
    rw [if_neg hlen, splitTag_eq_ok (BlockDirection.outerMacSize_le (Nat.le_of_not_lt hlen))]
    simp only [liftFault_ok, ok_bind, if_pos hmod]
    exact ⟨_, rfl⟩

theorem decode_malformed (hm : d.Malformed fragment) : ∃ reason, d.decode s t fragment =
    ⟨.error (.refused (.decodeError reason)), d, fragment⟩ := by
  obtain ⟨reason, hsplit⟩ := split_malformed hm
  refine ⟨reason, ?_⟩
  unfold decode
  rw [hsplit]

theorem Ready.decode_forged (h : d.Ready) (hm : ¬ d.Malformed fragment)
    (hf : d.trailer s t (d.blocksOf fragment) ≠ d.trailerOf fragment) :
    d.decode s t fragment = ⟨.error (.refused .badRecordMac), d, fragment⟩ := by
  unfold decode
  simp only [split_eq hm, BlockDirection.outerTag_eq h.mac, ne_eq, hf, not_false_eq_true, if_true]

theorem Ready.decode_eq (h : d.Ready) (hm : ¬ d.Malformed fragment)
    (hf : d.trailer s t (d.blocksOf fragment) = d.trailerOf fragment) :
    let d' := d.withChain (d.cbc.lastBlock (d.blocksOf fragment))
    d.decode s t fragment = ⟨verdict d.inner t (d'.verify s t (d.bodyOf fragment)).1,
      (d'.verify s t (d.bodyOf fragment)).2,
      d.cbc.decryption (d.blocksOf fragment) ++ d.trailerOf fragment⟩ := by
  intro d'
  obtain ⟨ha, hiv, -, -, -⟩ := BlockDirection.length_bodyOf hm
  let dir : BlockDirection := ⟨d.cbc.withChain (d.cbc.lastBlock (d.blocksOf fragment)), d.mac, d.id,
    d.encryptThenMac, d.explicitIv⟩
  have hslice : (d.cbc.decryption (d.blocksOf fragment)).slice dir.ivSize
      (d.cbc.decryption (d.blocksOf fragment)).length = .ok (d.bodyOf fragment) := by
    have hlen : dir.ivSize ≤ (d.cbc.decryption (d.blocksOf fragment)).length := by
      rw [Cbc.length_decryption ha]
      exact hiv
    rw [Bytes.slice_eq_ok hlen (Nat.le_refl _)]
    exact congrArg Except.ok (List.take_of_length_le (Nat.le_of_eq List.length_drop))
  obtain ⟨scratch, hv, -⟩ := (h.withChain (d.cbc.lastBlock (d.blocksOf fragment))).verify_snd s t
    (d.bodyOf fragment)
  have hkeep : (d'.verify s t (d.bodyOf fragment)).2.inner = d.inner := congrArg (·.inner) hv
  generalize hd' : d'.verify s t (d.bodyOf fragment) = v at hkeep ⊢
  have hverify : (⟨dir, d.longPadding, d.scratch⟩ : BlockDecoder).verify s t (d.bodyOf fragment) =
      v := hd'
  unfold decode
  simp only [split_eq hm, BlockDirection.outerTag_eq h.mac, hf, ne_eq, not_true_eq_false, if_false,
    Cbc.decrypt_of_aligned ha, hslice, hverify, dir]
  obtain ⟨f | ⟨content, good⟩, d''⟩ := v
  · rfl
  · cases good with
    | false => rfl
    | true =>
      dsimp only at hkeep ⊢
      rw [hkeep, if_neg (by decide), verdict, if_pos rfl, InnerPlaintext.recover]
      cases InnerPlaintext.unwrap d.inner t content <;> rfl

theorem Ready.decode_decoder (h : d.Ready) (s : UInt64) (t : ContentType) (fragment : Bytes) :
    ∃ chain scratch, (d.decode s t fragment).decoder = { d.withChain chain with scratch } ∧
      scratch.length = Padding.maxSize := by
  by_cases hm : d.Malformed fragment
  · obtain ⟨reason, hdec⟩ := decode_malformed (s := s) (t := t) hm
    rw [hdec]
    exact ⟨d.cbc.chain, d.scratch, rfl, h.length_scratch⟩
  · by_cases hf : d.trailer s t (d.blocksOf fragment) = d.trailerOf fragment
    · rw [h.decode_eq hm hf]
      obtain ⟨scratch, hv, hs⟩ := (h.withChain (d.cbc.lastBlock (d.blocksOf fragment))).verify_snd
        s t (d.bodyOf fragment)
      exact ⟨_, scratch, hv, hs⟩
    · rw [h.decode_forged hm hf]
      exact ⟨d.cbc.chain, d.scratch, rfl, h.length_scratch⟩

/-- The decrypted body of a fragment decides what becomes of it. -/
theorem Ready.decode_authentic (h : d.Ready) (hm : ¬ d.Malformed fragment)
    (hf : d.trailer s t (d.blocksOf fragment) = d.trailerOf fragment)
    (hlen : fragment.length ≤ Size.capacity) (hid : AdditionalData.Holds d.id) :
    (∀ content, d.Holds s t (d.bodyOf fragment) content →
        (d.decode s t fragment).result = InnerPlaintext.recover d.inner t content) ∧
      ((∀ content, ¬ d.Holds s t (d.bodyOf fragment) content) →
        (d.decode s t fragment).result = .error (.refused .badRecordMac)) := by
  obtain ⟨-, -, hbody, hmod, hle⟩ := BlockDirection.length_bodyOf hm
  have hhead : d.mac.headerSize d.id + (d.bodyOf fragment).length + 16 < Size.bound := by
    have hsize := d.mac.headerSize_le hid
    simp only [Size.capacity, Size.bound, BlockDirection.blockSize, Block.size] at *
    omega
  obtain ⟨scratch, content, good, hv, -, hiff⟩ :=
    (h.withChain (d.cbc.lastBlock (d.blocksOf fragment))).verify_eq s t hbody hhead
  rw [h.decode_eq hm hf, hv]
  constructor
  · intro c hc
    obtain ⟨rfl, rfl⟩ := (hiff c).mp hc
    rfl
  · intro hnone
    cases good with
    | false => rfl
    | true => exact absurd ((hiff content).mpr ⟨rfl, rfl⟩) (hnone content)

end BlockDecoder

end RecordLayer
