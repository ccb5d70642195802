import RecordLayer.Proofs.Established

/-! # What depends on the chain

Under one key, the chain after a string and the chain before it determine each other. So a fragment
that depends on the chain carries its payload under one chain only.
-/

namespace RecordLayer

open Aes (Block)

variable {s : UInt64} {t : ContentType} {v : Version} {room : Nat}
  {plaintext payload fragment : Bytes}

theorem Aes.Block.xor_right_cancel {x y z : Block} (h : x.xor z = y.xor z) : x = y := by
  rw [← Block.xor_xor x z, h, Block.xor_xor]

theorem Aes.Block.xor_left_cancel {x y z : Block} (h : x.xor y = x.xor z) : y = z := by
  rw [Block.xor_comm x y, Block.xor_comm x z] at h
  exact Block.xor_right_cancel h

theorem Aes.eq_of_encrypt_eq {k : Key} {x y : Block} (h : encrypt k x = encrypt k y) : x = y := by
  rw [← decrypt_encrypt k x, h, decrypt_encrypt]

namespace Cbc

variable {k : Aes.Key} {chain chain' : Block} {xs : List Block} {x y z data : Bytes} {c : Cbc}

/-- A difference in the chain is still there after any blocks. -/
theorem chain_eq_of_last_eq (h : (encryptBlocks k chain xs).getLastD chain =
    (encryptBlocks k chain' xs).getLastD chain') : chain = chain' := by
  induction xs generalizing chain chain' with
  | nil => exact h
  | cons x xs ih =>
    rw [encryptBlocks, encryptBlocks, List.getLastD_cons, List.getLastD_cons] at h
    exact Block.xor_left_cancel (Aes.eq_of_encrypt_eq (ih h))

theorem eq_of_lastBlock_eq (hx : x.length = Block.size) (hy : y.length = Block.size)
    (h : c.lastBlock (c.encryption (x ++ z)) = c.lastBlock (c.encryption (y ++ z))) : x = y := by
  unfold lastBlock encryption at h
  rw [Block.list_flatMap_bytes, Block.list_flatMap_bytes, Block.list_append hx,
    Block.list_append hy, encryptBlocks, encryptBlocks, List.getLastD_cons,
    List.getLastD_cons] at h
  have hblock := Block.xor_right_cancel (Aes.eq_of_encrypt_eq (chain_eq_of_last_eq h))
  rw [← Block.bytes_ofBytes hx, hblock, Block.bytes_ofBytes hy]

theorem chain_eq_of_decryption_eq (hlen : Block.size ≤ data.length)
    (h : (c.withChain chain).decryption data = (c.withChain chain').decryption data) :
    chain = chain' := by
  have hlist := congrArg Block.list h
  unfold decryption at hlist
  rw [Block.list_flatMap_bytes, Block.list_flatMap_bytes] at hlist
  cases hblocks : Block.list data with
  | nil =>
    have hcount := Block.length_list data
    rw [hblocks] at hcount
    have hpos := Nat.div_pos hlen (show 0 < Block.size by decide)
    rw [← hcount] at hpos
    cases hpos
  | cons y ys =>
    rw [hblocks] at hlist
    exact Block.xor_left_cancel (List.cons.inj hlist).1

end Cbc

theorem BlockDirection.chain_eq_of_carries {d : BlockDirection} {chain chain' : Block}
    (hx : d.explicitIv = false) (h : (d.withChain chain).Carries s t fragment payload)
    (h' : (d.withChain chain').Carries s t fragment payload) : chain = chain' := by
  have haligned : (d.blocksOf fragment).length % Block.size = 0 :=
    Decidable.not_not.mp fun hne => h.1 (Or.inr hne)
  have hbody (c : Block) : (d.withChain c).bodyOf fragment =
      (d.cbc.withChain c).decryption (d.blocksOf fragment) := by
    change ((d.cbc.withChain c).decryption (d.blocksOf fragment)).drop d.ivSize = _
    rw [ivSize, if_neg (by simp [hx]), List.drop_zero]
  have hlength (c : Block) : ((d.cbc.withChain c).decryption (d.blocksOf fragment)).length =
      (d.blocksOf fragment).length := Cbc.length_decryption haligned
  obtain ⟨k, hk, -, hplain⟩ := h.2.2
  obtain ⟨k', -, -, hplain'⟩ := h'.2.2
  rw [hbody] at hplain hplain'
  -- Payload and tag are the same under both chains, so the lengths leave one padding.
  have hsum (c : Block) (k : Nat) :
      (payload ++ (d.withChain c).innerTag s t payload ++ Padding.bytes k).length =
        payload.length + (d.innerTag s t payload).length + k := by
    rw [List.length_append, List.length_append, Padding.length_bytes]
    rfl
  have hsize := (hlength chain).symm.trans ((congrArg List.length hplain).trans (hsum chain k))
  have hsize' :=
    (hlength chain').symm.trans ((congrArg List.length hplain').trans (hsum chain' k'))
  obtain rfl : k = k' := by omega
  refine Cbc.chain_eq_of_decryption_eq ?_ (hplain.trans hplain'.symm)
  simp only [Block.size] at *
  omega

namespace Direction

variable {d d' : Direction}

theorem SameKeys.chain?_eq_of_carries (hk : d.SameKeys d')
    (h : d.Carries s t v fragment payload) (h' : d'.Carries s t v fragment payload) :
    d.chain? = d'.chain? := by
  obtain ⟨chain, rfl⟩ := hk
  cases d with
  | block d =>
    cases hx : d.explicitIv with
    | true => simp [chain?, withChain, BlockDirection.withChain, hx]
    | false =>
      have hchain : d.cbc.chain = chain := BlockDirection.chain_eq_of_carries hx h h'
      simp [chain?, withChain, BlockDirection.withChain, Cbc.withChain, hx, hchain]
  | aead d | null d | integrity d => rfl

theorem SameKeys.chain?_eq_none (h : d.SameKeys d') (hc : d.chain? = none) : d'.chain? = none := by
  obtain ⟨chain, rfl⟩ := h
  cases d with
  | block d =>
    cases hx : d.explicitIv with
    | true => exact if_pos hx
    | false =>
      simp only [chain?, hx, Bool.false_eq_true, if_false] at hc
      cases hc
  | aead d | null d | integrity d => rfl

theorem chain?_of_rekey {hash : Hash} {secret : Secret} (h : d.rekey v hash secret = .ok d') :
    d'.chain? = none := by
  cases d with
  | aead d =>
    simp only [rekey, bind_eq_ok, pure_eq_ok] at h
    obtain ⟨keys, -, aead, -, rfl⟩ := h
    rfl
  | integrity d =>
    simp only [rekey, bind_eq_ok, pure_eq_ok] at h
    obtain ⟨keys, -, rfl⟩ := h
    rfl
  | block d | null d => cases h

end Direction

theorem Protection.Ready.writing_of_encode_error {p : Protection} {r : Randomness}
    {failure : Failure} (h : p.Ready)
    (herr : (p.encode r s t v room plaintext).1 = .error failure) :
    (p.encode r s t v room plaintext).2.1.writing = p.writing := by
  cases p with
  | aead p => rfl
  | block p =>
    rcases BlockEncoder.encode_cases h.1.mac r s t room plaintext with
      ⟨f, r', henc⟩ | ⟨iv, padding, fragment, r', -, -, -, henc⟩
    · exact congrArg (fun x => Direction.block x.2.1.toBlockDirection) henc
    · have herr : (p.encoder.encode r s t room plaintext).1 = .error failure := herr
      rw [henc] at herr
      cases herr
  | null p => exact congrArg Direction.null (h.1.encode_snd ..)
  | integrity p => exact congrArg Direction.integrity (h.1.encode_snd ..)

namespace BlockEncoder

variable {e : BlockEncoder}

/-- Nothing in a fragment is left to chance: it has no random block and the shortest padding. -/
structure Determined (e : BlockEncoder) : Prop where
  explicitIv : e.explicitIv = false
  extraPadding : e.extraPadding = false

theorem Determined.encode_eq (h : e.Determined) (hm : e.mac.Ready) (r : Randomness) (s : UInt64)
    (t : ContentType)
    (hroom : room + (e.unpaddedSize plaintext + Block.size + e.outerMacSize) ≤ Size.capacity) :
    let padding := Padding.least Block.size (e.unpaddedSize plaintext)
    ∃ fragment, e.encode r s t room plaintext =
        (.ok (.assemble room (ContentType.outer false e.id t) fragment),
          e.withChain (e.cbc.lastBlock (e.cbc.encryption (e.plainOf s t [] padding plaintext))),
          r) ∧
      fragment.length = e.unpaddedSize plaintext + padding + e.outerMacSize := by
  intro padding
  have hle := (Padding.least_bounds (show 0 < Block.size by decide) (e.unpaddedSize plaintext)).2.1
  have hpad : e.drawPadding r (e.unpaddedSize plaintext) = .ok (padding, r) := by
    simp only [drawPadding, h.extraPadding]
    rfl
  have hiv : e.drawIv r = .ok ([], r) := by simp [drawIv, h.explicitIv]
  have hsize : e.ivSize = 0 := by simp [BlockDirection.ivSize, h.explicitIv]
  have hspace : room + (e.ivSize + e.unpaddedSize plaintext + padding + e.outerMacSize) ≤
      Size.capacity := by omega
  obtain ⟨fragment, hw, henc⟩ := encode_of_draws (s := s) (t := t) hm ⟨r, hpad, hiv⟩ hspace
  refine ⟨fragment, henc, ?_⟩
  rw [hw.length_fragment hm, hsize, Nat.zero_add]

theorem plainOf_eq (e : BlockEncoder) (hi : e.inner = false) (htag : e.encryptThenMac = true)
    (padding : Nat) : e.plainOf s t [] padding plaintext = plaintext ++ Padding.bytes padding := by
  simp [plainOf, InnerPlaintext.wrap, BlockDirection.innerTag, hi, htag]

end BlockEncoder

theorem BlockDirection.modes_of {c : Context} {owner : Role} {id : Bytes} {k : Aes.Variant}
    {a : MacAlgorithm} {d : BlockDirection} (h : BlockDirection.of c owner k a id = .ok d) :
    d.explicitIv = c.version.hasExplicitIv ∧ d.encryptThenMac = c.params.encryptThenMac ∧
      d.id = id := by
  simp only [BlockDirection.of, bind_eq_ok, pure_eq_ok] at h
  obtain ⟨keys, -, mac, -, cbc, -, rfl⟩ := h
  exact ⟨rfl, rfl, rfl⟩

theorem Family.chain?_of_direction {c : Context} {owner : Role} {id : Bytes} {g : Family}
    {d : Direction} (h : g.direction c owner id = .ok d)
    (hx : ∀ k a, g = .block k a → c.version.hasExplicitIv = true) : d.chain? = none := by
  cases g with
  | block k a =>
    obtain ⟨b, hb, rfl⟩ := map_eq_ok.mp h
    exact if_pos ((BlockDirection.modes_of hb).1.trans (hx k a rfl))
  | aead a | null a | integrity hash =>
    obtain ⟨d, -, rfl⟩ := map_eq_ok.mp h
    rfl
  | passthrough =>
    obtain rfl := Except.ok.inj h
    rfl

theorem Family.bulk_of_ofSuite {suite : CipherSuite} {k : Aes.Variant} {a : MacAlgorithm}
    (h : ofSuite v suite = .block k a) : suite.bulk = .block k := by
  unfold ofSuite at h
  split at h <;> cases h
  assumption

namespace Connection

variable {s : Settings} {conn : Connection}

/-- Every record starts from the last block of the one before it. -/
def Settings.Chained (s : Settings) : Prop :=
  s.version.hasExplicitIv = false ∧ ∃ k, s.suite.bulk = .block k

theorem chain?_of_establish (h : establish s = .ok conn) (hx : ¬ s.Chained) (r : Role) :
    (conn.endpoint r).writeLink.direction.chain? = none := by
  obtain ⟨n, hn⟩ := endpoint_of_establish h
  obtain ⟨c, p, randomness, hc, hp, he⟩ := Settings.endpoint_eq_ok (hn r)
  obtain ⟨-, hversion, -, -, -⟩ := Settings.fields_of_context hc
  have hkeyed := Family.keyedFrom_of_build (Family.build_ofSuite hp)
  rw [he]
  refine Family.chain?_of_direction hkeyed.writing fun k a hfamily => ?_
  refine eq_true_of_ne_false fun hiv => hx ⟨?_, k, Family.bulk_of_ofSuite hfamily⟩
  exact (congrArg Version.hasExplicitIv hversion).symm.trans hiv

theorem block_of_establish {k : Aes.Variant} (hb : s.suite.bulk = .block k)
    (hest : establish s = .ok conn) (r : Role) :
    ∃ p, (conn.endpoint r).protection = .block p ∧
      p.encoder.explicitIv = s.version.hasExplicitIv ∧
      p.encoder.encryptThenMac = s.encryptThenMac ∧ p.encoder.id = s.idOf r.peer ∧
      (s.extendedPadding = false → p.encoder.extraPadding = false) := by
  obtain ⟨n, hn⟩ := endpoint_of_establish hest
  obtain ⟨c, p, randomness, hc, hp, he⟩ := Settings.endpoint_eq_ok (hn r)
  obtain ⟨-, hversion, -, -, hid⟩ := Settings.fields_of_context hc
  obtain ⟨hmode, hextended⟩ := Settings.modes_of_context hc
  unfold Protection.ofSuite at hp
  split at hp
  · cases (Prod.mk.inj hp).1
  · simp only [hb] at hp
    obtain ⟨p, hnew, rfl⟩ := map_eq_ok.mp (Prod.mk.inj hp).1
    obtain ⟨hdir, -, hextra, -, -⟩ := BlockProtection.of_new (Prod.ext hnew rfl)
    obtain ⟨hx, htag, hpeer⟩ := BlockDirection.modes_of hdir
    refine ⟨p, by rw [he]; rfl, hx.trans (congrArg Version.hasExplicitIv hversion),
      htag.trans hmode, hpeer.trans hid, fun hext => ?_⟩
    rw [hextra, BlockProtection.usesExtraPadding, hextended, hext]
    rfl

end Connection

end RecordLayer
