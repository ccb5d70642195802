import RecordLayer.Proofs.Lengths

/-! # The grammar of block cipher records

What a decoder accepts, spelled out over the bytes of the fragment: how long it is, where padding
and tag stand, and what the tag covers. Everything else is refused, for one of two causes.
-/

namespace RecordLayer

namespace InnerPlaintext

variable {inUse : Bool} {outer : ContentType} {content : Bytes} {result : Except Failure Recovered}

/-- What a content means for the record. -/
inductive Means (inUse : Bool) (outer : ContentType) : Bytes → Except Failure Recovered → Prop
  | plain (content : Bytes) (h : inUse = false) : Means inUse outer content (.ok ⟨content, outer⟩)
  | typed (plaintext : Bytes) (t : ContentType) (n : Nat) (h : inUse = true) (ht : t.code ≠ 0) :
    Means inUse outer (plaintext ++ t.code :: Bytes.zeros n) (.ok ⟨plaintext, t⟩)
  | untyped (n : Nat) (h : inUse = true) : Means inUse outer (Bytes.zeros n)
    (.error (.refused (.unexpectedMessage "inner plaintext has no content type")))

theorem stripReversed_zeros_append (n : Nat) (x : Bytes) :
    stripReversed (Bytes.zeros n ++ x) = stripReversed x := by
  induction n with
  | zero => rfl
  | succ n ih => exact ih

theorem zeros_or_typed (x : Bytes) : (∃ n, x = Bytes.zeros n) ∨
    ∃ n b y, b ≠ 0 ∧ x = Bytes.zeros n ++ b :: y := by
  induction x with
  | nil => exact Or.inl ⟨0, rfl⟩
  | cons a x ih =>
    by_cases ha : a = 0
    · subst ha
      rcases ih with ⟨n, rfl⟩ | ⟨n, b, y, hb, rfl⟩
      · exact Or.inl ⟨n + 1, rfl⟩
      · exact Or.inr ⟨n + 1, b, y, hb, rfl⟩
    · exact Or.inr ⟨0, a, x, ha, rfl⟩

theorem reverse_zeros (n : Nat) : (Bytes.zeros n).reverse = Bytes.zeros n := List.reverse_replicate

theorem recover_typed (outer : ContentType) {t : ContentType} (ht : t.code ≠ 0) (plaintext : Bytes)
    (n : Nat) : recover true outer (plaintext ++ t.code :: Bytes.zeros n) = .ok ⟨plaintext, t⟩ := by
  have hrev : (plaintext ++ t.code :: Bytes.zeros n).reverse =
      Bytes.zeros n ++ t.code :: plaintext.reverse := by
    rw [List.reverse_append, List.reverse_cons, reverse_zeros, List.append_assoc]
    rfl
  simp only [recover, unwrap, strip, if_true, hrev, stripReversed_zeros_append, stripReversed,
    if_neg ht, List.reverse_reverse]

theorem recover_zeros (outer : ContentType) (n : Nat) : recover true outer (Bytes.zeros n) =
    .error (.refused (.unexpectedMessage "inner plaintext has no content type")) := by
  have hstrip : stripReversed (Bytes.zeros n) = none := by
    have hz := stripReversed_zeros_append n []
    rwa [List.append_nil] at hz
  simp only [recover, unwrap, strip, if_true, reverse_zeros, hstrip]

theorem means_recover (inUse : Bool) (outer : ContentType) (content : Bytes) :
    Means inUse outer content (recover inUse outer content) := by
  cases inUse with
  | false => exact .plain content rfl
  | true =>
    rcases zeros_or_typed content.reverse with ⟨n, hx⟩ | ⟨n, b, y, hb, hx⟩
    · have hcontent : content = Bytes.zeros n := by
        rw [← List.reverse_reverse content, hx, reverse_zeros]
      rw [hcontent, recover_zeros]
      exact .untyped n rfl
    · have hcontent : content = y.reverse ++ b :: Bytes.zeros n := by
        rw [← List.reverse_reverse content, hx, List.reverse_append, reverse_zeros,
          List.reverse_cons, List.append_assoc]
        rfl
      rw [hcontent, recover_typed outer (t := ⟨b⟩) hb]
      exact .typed y.reverse ⟨b⟩ n rfl hb

theorem Means.eq_recover (h : Means inUse outer content result) :
    result = recover inUse outer content := by
  cases h with
  | plain _ hi =>
    subst hi
    rfl
  | typed plaintext t n hi ht =>
    subst hi
    exact (recover_typed outer ht plaintext n).symm
  | untyped n hi =>
    subst hi
    exact (recover_zeros outer n).symm

theorem exists_zeros {received : Recovered} (h : recover inUse outer content = .ok received) :
    ∃ n, content = wrap inUse received.contentType received.plaintext ++ Bytes.zeros n ∧
      (inUse = true → received.contentType.code ≠ 0) ∧ (inUse = false → n = 0) := by
  have hmeans := means_recover inUse outer content
  rw [h] at hmeans
  cases hmeans with
  | plain _ hi =>
    subst hi
    exact ⟨0, (List.append_nil _).symm, by rintro ⟨⟩, fun _ => rfl⟩
  | typed plaintext type n hi ht =>
    subst hi
    exact ⟨n, (List.append_assoc plaintext [type.code] _).symm, fun _ => ht, by rintro ⟨⟩⟩

end InnerPlaintext

namespace BlockDecoder

variable {d : BlockDecoder} {s : UInt64} {t : ContentType} {fragment content : Bytes} {k : Nat}

def Reachable (d : BlockDecoder) : Prop :=
  ∃ (c c' : Context) (v : Aes.Variant) (a : MacAlgorithm) (p p' : BlockProtection)
    (calls : List Protection.Call), BlockProtection.new c v a = (.ok p, c') ∧
      (Protection.block p).afterAll calls = .block p' ∧ p'.decoder = d

theorem Reachable.ready (h : d.Reachable) : d.Ready := by
  obtain ⟨c, c', v, a, p, p', calls, hnew, hafter, rfl⟩ := h
  have hbuild : (Family.block v a).build c = (.ok (.block p), c') := by
    simp only [Family.build, hnew]
    rfl
  have hready := ((Family.keyedFrom_of_build hbuild).ready.afterAll calls).1
  rw [hafter] at hready
  exact hready.2

def contentAt (d : BlockDecoder) (fragment : Bytes) (k : Nat) : Bytes :=
  (d.bodyOf fragment).take ((d.bodyOf fragment).length - k - d.innerMacSize)

/-- The fragment ends with a padding of `k` bytes within the limit, and its tag is right. -/
structure Authentic (d : BlockDecoder) (s : UInt64) (t : ContentType) (fragment : Bytes)
    (k : Nat) : Prop where
  pos : 1 ≤ k
  le_limit : k ≤ if d.mac.version.isSsl then 16 else 256
  le_length : k ≤ (d.bodyOf fragment).length - d.innerMacSize
  padding : (d.bodyOf fragment).drop ((d.bodyOf fragment).length - k) =
    List.replicate k (UInt8.ofNat (k - 1))
  tag : if d.encryptThenMac then
      (d.mac.tag s t d.id (d.blocksOf fragment)).1 = fragment.drop (d.blocksOf fragment).length
    else
      (d.mac.tag s t d.id (d.contentAt fragment k)).1 = ((d.bodyOf fragment).drop
        ((d.bodyOf fragment).length - k - d.mac.size)).take d.mac.size

theorem trailerOf_eq (hm : ¬ d.Malformed fragment) :
    d.trailerOf fragment = fragment.drop (d.blocksOf fragment).length := by
  have hle := BlockDirection.outerMacSize_le (Nat.le_of_not_lt (not_or.mp hm).1)
  rw [BlockDirection.trailerOf, BlockDirection.blocksOf, List.length_take]
  congr 1
  omega

theorem take_take_drop (x : Bytes) {n k : Nat} (h : n + k ≤ x.length) :
    x.take (x.length - k - n) ++ (x.drop (x.length - k - n)).take n ++ x.drop (x.length - k) =
      x := by
  have hcut : x.length - k = x.length - k - n + n := by omega
  have hdrop : x.drop (x.length - k) = (x.drop (x.length - k - n)).drop n := by
    rw [List.drop_drop, ← hcut]
  rw [hdrop, List.append_assoc, List.take_append_drop, List.take_append_drop]

theorem Authentic.holds (h : d.Authentic s t fragment k) (hm : ¬ d.Malformed fragment) :
    d.trailer s t (d.blocksOf fragment) = d.trailerOf fragment ∧
      d.Holds s t (d.bodyOf fragment) (d.contentAt fragment k) := by
  obtain ⟨-, -, hlt, -, -⟩ := BlockDirection.length_bodyOf hm
  have hlen := h.le_length
  have hparts := take_take_drop (d.bodyOf fragment) (show d.innerMacSize + k ≤ _ by omega)
  have htag := h.tag
  unfold BlockDirection.trailer
  by_cases hmode : d.encryptThenMac = true
  · have hinner : d.innerMacSize = 0 := if_pos hmode
    rw [if_pos hmode] at htag ⊢
    refine ⟨htag.trans (trailerOf_eq hm).symm, k, h.pos, h.le_limit, ?_⟩
    rw [BlockDirection.innerTag, if_pos hmode, Padding.bytes, ← h.padding, contentAt]
    rw [hinner, List.take_zero] at hparts
    rw [hinner, hparts]
  · have hinner : d.innerMacSize = d.mac.size := if_neg hmode
    have houter : d.outerMacSize = 0 := if_neg hmode
    rw [if_neg hmode] at htag ⊢
    refine ⟨?_, k, h.pos, h.le_limit, ?_⟩
    · rw [BlockDirection.trailerOf, houter, Nat.sub_zero, List.drop_length]
    · rw [BlockDirection.innerTag, if_neg hmode, Padding.bytes, ← h.padding, htag, contentAt]
      rw [hinner] at hparts ⊢
      rw [hparts]

theorem authentic_of_holds (hr : d.Ready) (hm : ¬ d.Malformed fragment)
    (hf : d.trailer s t (d.blocksOf fragment) = d.trailerOf fragment)
    (hh : d.Holds s t (d.bodyOf fragment) content) : ∃ k, d.Authentic s t fragment k := by
  obtain ⟨k, hk, hkl, hbody⟩ := hh
  have htag := BlockDirection.length_innerTag hr.mac s t content
  have hlen : (d.bodyOf fragment).length = content.length + d.innerMacSize + k := by
    rw [hbody, List.length_append, List.length_append, htag, Padding.length_bytes]
  have hfront : (content ++ d.innerTag s t content).length = (d.bodyOf fragment).length - k := by
    rw [List.length_append, htag, hlen]
    omega
  have hcontent : (d.bodyOf fragment).length - k - d.innerMacSize = content.length := by omega
  have hat : d.contentAt fragment k = content := by
    rw [contentAt, hcontent, hbody, List.append_assoc, List.take_left' rfl]
  refine ⟨k, hk, hkl, by omega, ?_, ?_⟩
  · rw [← hfront, hbody]
    exact List.drop_left' rfl
  · split
    · rename_i hmode
      rw [← trailerOf_eq hm, ← hf, BlockDirection.trailer, if_pos hmode]
    · rename_i hmode
      have hinner : d.innerMacSize = d.mac.size := if_neg hmode
      have hit : d.innerTag s t content = (d.mac.tag s t d.id content).1 := if_neg hmode
      rw [hinner] at hcontent htag
      rw [hat, hcontent, hbody, List.append_assoc, List.drop_left' rfl, List.take_left' htag, hit]

/-- What becomes of a fragment, for every decoder in use. -/
theorem Reachable.decode_grammar (h : d.Reachable) (s : UInt64) (t : ContentType)
    (fragment : Bytes) (hlen : fragment.length ≤ Size.capacity)
    (hid : AdditionalData.Holds d.id) :
    let result := (d.decode s t fragment).result
    let malformed := fragment.length < (if d.encryptThenMac then 16 + d.mac.size
        else max 16 (d.mac.size + 1)) + (if d.explicitIv then 16 else 0) ∨
      (d.blocksOf fragment).length % 16 ≠ 0
    ((∃ reason, result = .error (.refused (.decodeError reason))) ↔ malformed) ∧
      (¬ malformed →
        (∀ k, d.Authentic s t fragment k →
          InnerPlaintext.Means d.inner t (d.contentAt fragment k) result) ∧
        ((∀ k, ¬ d.Authentic s t fragment k) → result = .error (.refused .badRecordMac))) := by
  intro result malformed
  have hr := h.ready
  have hmalformed : malformed ↔ d.Malformed fragment := Iff.rfl
  rw [hmalformed]
  by_cases hm : d.Malformed fragment
  · obtain ⟨reason, hdec⟩ := decode_malformed (s := s) (t := t) hm
    exact ⟨iff_of_true ⟨reason, congrArg (·.result) hdec⟩ hm, fun hn => absurd hm hn⟩
  have hgood (k : Nat) (hk : d.Authentic s t fragment k) :
      InnerPlaintext.Means d.inner t (d.contentAt fragment k) result := by
    obtain ⟨hf, hh⟩ := hk.holds hm
    have hres : result = _ := (hr.decode_authentic hm hf hlen hid).1 _ hh
    rw [hres]
    exact InnerPlaintext.means_recover ..
  have hbad (hn : ∀ k, ¬ d.Authentic s t fragment k) :
      result = .error (.refused .badRecordMac) := by
    by_cases hf : d.trailer s t (d.blocksOf fragment) = d.trailerOf fragment
    · apply (hr.decode_authentic hm hf hlen hid).2
      intro content hh
      obtain ⟨k, hk⟩ := authentic_of_holds hr hm hf hh
      exact hn k hk
    · exact congrArg (·.result) (hr.decode_forged hm hf)
  refine ⟨iff_of_false ?_ hm, fun _ => ⟨hgood, hbad⟩⟩
  rintro ⟨reason, hres⟩
  by_cases hn : ∃ k, d.Authentic s t fragment k
  · obtain ⟨k, hk⟩ := hn
    have hmeans := hgood k hk
    rw [hres] at hmeans
    generalize d.contentAt fragment k = content at hmeans
    cases hmeans
  · rw [hbad (not_exists.mp hn)] at hres
    cases hres

theorem malformed_congr {fragment' : Bytes} (h : fragment'.length = fragment.length) :
    d.Malformed fragment' ↔ d.Malformed fragment := by
  unfold BlockDirection.Malformed BlockDirection.blocksOf
  rw [List.length_take, List.length_take, h]

theorem bodyOf_modify (hm : ¬ d.Malformed fragment) (hmode : d.encryptThenMac = false)
    (hiv : d.explicitIv = true) {i : Nat} (hi : i < 16) (b : UInt8) :
    d.bodyOf (fragment.modify i (· ^^^ b)) = (d.bodyOf fragment).modify i (· ^^^ b) := by
  have houter : d.outerMacSize = 0 := by rw [BlockDirection.outerMacSize, hmode]; rfl
  have hsize : d.ivSize = Aes.Block.size := if_pos hiv
  have hblocks (x : Bytes) : d.blocksOf x = x := by
    rw [BlockDirection.blocksOf, houter, Nat.sub_zero, List.take_length]
  have ha := (BlockDirection.length_bodyOf hm).1
  rw [hblocks] at ha
  rw [BlockDirection.bodyOf, BlockDirection.bodyOf, hblocks, hblocks, hsize]
  exact d.cbc.drop_decryption_modify b hi ha

/-- A wrong tag between content and padding is not made right by any other reading. -/
theorem not_authentic_of_tag (hr : d.Ready) (hm : ¬ d.Malformed fragment) {tag : Bytes}
    (hlen : tag.length = d.innerMacSize) (hne : tag ≠ d.innerTag s t content) (hk : 1 ≤ k)
    (hkl : k ≤ d.paddingLimit) (hbody : d.bodyOf fragment = content ++ tag ++ Padding.bytes k)
    (l : Nat) : ¬ d.Authentic s t fragment l := by
  intro hl
  obtain ⟨-, hholds⟩ := hl.holds hm
  rw [hbody, BlockDirection.holds_append_iff hk hkl] at hholds
  have htag := BlockDirection.length_innerTag hr.mac s t (d.contentAt fragment l)
  obtain ⟨hcontent, heq⟩ := List.append_inj' hholds (hlen.trans htag.symm)
  exact hne (hcontent ▸ heq)

theorem fields_of_direction {c : Context} {owner : Role} {k : Aes.Variant} {a : MacAlgorithm}
    {id : Bytes} {x : BlockDirection} (h : BlockDirection.of c owner k a id = .ok x) :
    x.id = id ∧ x.mac.size = a.wireSize c ∧ x.encryptThenMac = c.params.encryptThenMac ∧
      x.explicitIv = c.version.hasExplicitIv := by
  have hformat := Family.format_of_direction (f := .block k a)
    (congrArg (Direction.block <$> ·) h)
  obtain ⟨hsize, hmode, hiv⟩ := Format.blocks.inj hformat
  refine ⟨?_, hsize, hmode, hiv⟩
  simp only [BlockDirection.of, bind_eq_ok, pure_eq_ok] at h
  obtain ⟨_, -, _, -, _, -, rfl⟩ := h
  rfl

/-- One end of a datagram connection. The connection ID of the server hides the types of what the
client sends. -/
def datagramEnd : Role → Context
  | .client => ⟨.client, { version := .dtls12, peerId := [9] }, some (.new (Bytes.zeros 48)), none,
    none, .zeros 276 [] 0⟩
  | .server => ⟨.server, { version := .dtls12, localId := [9] }, some (.new (Bytes.zeros 48)), none,
    none, .zeros 276 [] 0⟩

theorem exists_carries_dtls12 : ∃ (p q : BlockProtection) (fragment : Bytes),
    q.decoder.Reachable ∧ (p.encoder.encode (.zeros 276 [256] 256) 7 .applicationData 0
        [1, 2, 3]).1 = .ok (.assemble 0 .connectionId fragment) ∧
      fragment.length ≤ Size.capacity ∧ q.decoder.Carries 7 .connectionId fragment [1, 2, 3, 23] ∧
      q.decoder.id = [9] ∧ q.decoder.mac.size = 20 ∧ q.decoder.encryptThenMac = false ∧
      q.decoder.explicitIv = true := by
  have hopposite : (datagramEnd .client).Opposite (datagramEnd .server) :=
    ⟨rfl, rfl, rfl, rfl, rfl, rfl, rfl, rfl, rfl, rfl, rfl, rfl⟩
  have hsize : (Secret.new (Bytes.zeros 48)).HasSize 48 := ⟨_, rfl, Bytes.length_zeros 48⟩
  have hdraw := Randomness.draw_zeros [] (show 0 + Padding.maxSize ≤ 276 by decide)
  obtain ⟨p, hp⟩ := BlockProtection.exists_new (c := datagramEnd .client) rfl hsize rfl hdraw
    .aes128 .sha1
  obtain ⟨q, hq⟩ := BlockProtection.exists_new (c := datagramEnd .server) rfl hsize rfl hdraw
    .aes128 .sha1
  obtain ⟨hpid, -, -, hpiv⟩ := fields_of_direction (BlockProtection.of_new hp).1
  obtain ⟨hid, hmac, hmode, hiv⟩ := fields_of_direction (BlockProtection.of_new hq).2.1
  have hmatched : Protection.Matched _ (.block p) (.block q) := Protection.matched_of_build
    hopposite (Plan.build_block hp) (Plan.build_block hq) [] []
  have houter : (Protection.block p).writing.outer .applicationData = .connectionId := by
    change ContentType.outer false p.encoder.id _ = _
    rw [hpid]
    rfl
  have hinner : (Protection.block p).writing.inner = true := by
    change (!p.encoder.id.isEmpty) = true
    rw [hpid]
    rfl
  have hchain : (Protection.block p).writing.chain? = (Protection.block q).reading.chain? :=
    (if_pos hpiv).trans (if_pos hiv).symm
  obtain ⟨record, hok⟩ := p.encoder.exists_encode_zeros hmatched.ready.1.mac 7 .applicationData 0
    [1, 2, 3] [256] (show 256 + 20 ≤ 276 by decide) (by decide)
  obtain ⟨fragment, rfl, hcap, hc, -⟩ := hmatched.ready.encode_ok (v := .dtls12) hok
  rw [← hmatched.sameKeys.carries_iff hchain, houter, hinner] at hc
  rw [houter] at hok
  exact ⟨p, q, fragment, ⟨_, _, _, _, q, q, [], hq, rfl, rfl⟩, hok, hcap, hc, hid, hmac, hmode, hiv⟩

/-- A record with a hidden type, and the same record with a bit of its random block flipped. It is
a bit of the first byte of the tag that this changes. -/
theorem decode_grammar_dtls12 : ∃ (p q : BlockProtection) (fragment : Bytes),
    q.decoder.Reachable ∧ (p.encoder.encode (.zeros 276 [256] 256) 7 .applicationData 0
        [1, 2, 3]).1 = .ok (.assemble 0 .connectionId fragment) ∧
      (q.decoder.decode 7 .connectionId fragment).result = .ok ⟨[1, 2, 3], .applicationData⟩ ∧
      (q.decoder.decode 7 .connectionId (fragment.modify 4 (· ^^^ 1))).result =
        .error (.refused .badRecordMac) ∧
      ∃ reason, (q.decoder.decode 7 .connectionId []).result =
        .error (.refused (.decodeError reason)) := by
  obtain ⟨p, q, fragment, hd, hok, hcap, ⟨hm, hf, hholds⟩, hid, hmac, hmode, hiv⟩ :=
    exists_carries_dtls12
  have hholdsId : AdditionalData.Holds q.decoder.id := by
    rw [hid]
    decide
  have hinner : q.decoder.inner = true := by
    rw [BlockDirection.inner, hid]
    rfl
  have hinnerSize : q.decoder.innerMacSize = 20 := by
    rw [BlockDirection.innerMacSize, hmode]
    exact hmac
  have htampered : (fragment.modify 4 (· ^^^ 1)).length = fragment.length :=
    List.length_modify _ _ _
  refine ⟨p, q, fragment, hd, hok, ?_, ?_, ?_⟩
  · obtain ⟨k, hk⟩ := authentic_of_holds hd.ready hm hf hholds
    have hcontent : q.decoder.contentAt fragment k = [1, 2, 3, 23] :=
      (hk.holds hm).2.unique hd.ready.mac hholds
    have hmeans := ((hd.decode_grammar 7 .connectionId fragment hcap hholdsId).2 hm).1 k hk
    rw [hmeans.eq_recover, hinner, hcontent]
    exact InnerPlaintext.recover_typed _ (by decide) [1, 2, 3] 0
  · have hm' : ¬ q.decoder.Malformed (fragment.modify 4 (· ^^^ 1)) :=
      fun h => hm ((malformed_congr htampered).mp h)
    obtain ⟨k, hk, hkl, hbody⟩ := hholds
    have hlen := BlockDirection.length_innerTag hd.ready.mac 7 .connectionId [1, 2, 3, 23]
    refine ((hd.decode_grammar 7 .connectionId _ (htampered ▸ hcap) hholdsId).2 hm').2 ?_
    cases htag : q.decoder.innerTag 7 .connectionId [1, 2, 3, 23] with
    | nil =>
      rw [htag, hinnerSize] at hlen
      cases hlen
    | cons x tag =>
      rw [htag] at hlen hbody
      have hflipped : q.decoder.bodyOf (fragment.modify 4 (· ^^^ 1)) =
          [1, 2, 3, 23] ++ (x ^^^ 1) :: tag ++ Padding.bytes k := by
        rw [bodyOf_modify hm hmode hiv (by decide), hbody]
        rfl
      have hne : (x ^^^ 1) :: tag ≠ q.decoder.innerTag 7 .connectionId [1, 2, 3, 23] := by
        rw [htag]
        intro h
        have hbyte : x ^^^ 1 = x ^^^ 0 := (List.cons.inj h).1.trans UInt8.xor_zero.symm
        exact absurd ((UInt8.xor_right_inj x).mp hbyte) (by decide)
      have hsize : ((x ^^^ 1) :: tag).length = q.decoder.innerMacSize := hlen
      exact not_authentic_of_tag hd.ready hm' hsize hne hk hkl hflipped
  · refine (hd.decode_grammar 7 .connectionId [] (Nat.zero_le _) hholdsId).1.mpr (Or.inl ?_)
    rw [List.length_nil]
    split <;> omega

end BlockDecoder

end RecordLayer
