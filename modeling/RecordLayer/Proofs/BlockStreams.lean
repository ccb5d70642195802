import RecordLayer.Proofs.Chaining

/-! # Block streams

A stream may be cut between any two blocks, and the ends need not cut it alike. The chain joins the
pieces: what comes out is what one call would give, and both ends have the same chain after it.
-/

namespace RecordLayer

open Aes (Block)

namespace Aes.Block

variable {x front rest : Bytes} {b b' : Block} {i : Nat}

theorem list_append_of_aligned (hx : x.length % size = 0) (y : Bytes) :
    list (x ++ y) = list x ++ list y := by
  obtain ⟨xs, -, rfl⟩ := exists_blocks (x.length / size)
    (Nat.mul_div_cancel' (Nat.dvd_of_mod_eq_zero hx)).symm
  rw [list_flatMap_bytes]
  induction xs with
  | nil => rfl
  | cons b xs ih =>
    have hxs : (xs.flatMap bytes).length % size = 0 := by
      rw [length_flatMap_bytes]
      exact Nat.mul_mod_right _ _
    rw [List.flatMap_cons, List.append_assoc, list_append (length_bytes b), ih hxs, ofBytes_bytes]
    rfl

theorem exists_list_eq_cons (hx : x.length % size = 0) (hne : x ≠ []) :
    ∃ y ys, list x = y :: ys := by
  refine List.exists_cons_of_ne_nil fun hnil => hne ?_
  rw [← flatMap_bytes_list hx, hnil, List.flatMap_nil]

def readAt (buffer : Bytes) (i : Nat) : Block := ofBytes (buffer.drop (size * i))

def writeAt (buffer : Bytes) (i : Nat) (b : Block) : Bytes :=
  buffer.take (size * i) ++ (b.bytes ++ buffer.drop (size * i + size))

theorem readAt_append (hf : front.length = size * i) :
    readAt (front ++ (b.bytes ++ rest)) i = b := by
  rw [readAt, List.drop_left' hf, ofBytes_bytes_append]

theorem writeAt_append (hf : front.length = size * i) :
    writeAt (front ++ (b.bytes ++ rest)) i b' = front ++ (b'.bytes ++ rest) := by
  rw [writeAt, List.take_left' hf, ← List.drop_drop, List.drop_left' hf,
    List.drop_left' (length_bytes b)]

end Aes.Block

namespace Cbc

variable {s t : Cbc} {data : Bytes} {pieces : List Bytes}

/-! ## One block after the other -/

/-- What the chain and a block are turned into: the block that comes out, and the next chain. -/
abbrev Turn := Block → Block → Block × Block

def encryptTurn (k : Aes.Key) : Turn := fun chain x =>
  let y := Aes.encrypt k (x.xor chain)
  (y, y)

def decryptTurn (k : Aes.Key) : Turn := fun chain y => ((Aes.decrypt k y).xor chain, y)

def through (turn : Turn) (chain : Block) : List Block → List Block × Block
  | [] => ([], chain)
  | x :: xs =>
    let (y, chain) := turn chain x
    let (ys, chain) := through turn chain xs
    (y :: ys, chain)

theorem through_append (turn : Turn) (chain : Block) (xs ys : List Block) :
    through turn chain (xs ++ ys) =
      ((through turn chain xs).1 ++ (through turn (through turn chain xs).2 ys).1,
        (through turn (through turn chain xs).2 ys).2) := by
  induction xs generalizing chain with
  | nil => rfl
  | cons x xs ih => simp only [List.cons_append, through, ih]

theorem length_through (turn : Turn) (chain : Block) (xs : List Block) :
    (through turn chain xs).1.length = xs.length := by
  induction xs generalizing chain with
  | nil => rfl
  | cons x xs ih => exact congrArg (· + 1) (ih _)

theorem through_encryptTurn (k : Aes.Key) (chain : Block) (xs : List Block) :
    through (encryptTurn k) chain xs =
      (encryptBlocks k chain xs, (encryptBlocks k chain xs).getLastD chain) := by
  induction xs generalizing chain with
  | nil => rfl
  | cons x xs ih => simp only [through, encryptTurn, ih, encryptBlocks, List.getLastD_cons]

theorem through_decryptTurn (k : Aes.Key) (chain : Block) (ys : List Block) :
    through (decryptTurn k) chain ys = (decryptBlocks k chain ys, ys.getLastD chain) := by
  induction ys generalizing chain with
  | nil => rfl
  | cons y ys ih => simp only [through, decryptTurn, ih, decryptBlocks, List.getLastD_cons]

/-! ## Call by call -/

def work (turn : Aes.Key → Turn) (s : Cbc) (data : Bytes) : Except CryptoError Bytes × Cbc :=
  if data.length % Block.size ≠ 0 then (.error misaligned, s)
  else
    let (ys, chain) := through (turn s.key) s.chain (Block.list data)
    (.ok (ys.flatMap Block.bytes), s.withChain chain)

theorem encrypt_eq_work : encrypt = work encryptTurn := by
  funext s data
  unfold encrypt work
  rw [through_encryptTurn]
  rfl

theorem decrypt_eq_work : decrypt = work decryptTurn := by
  funext s data
  unfold decrypt work
  rw [through_decryptTurn]
  rfl

section Work

variable {turn : Aes.Key → Turn} {x y out out' : Bytes} {t' : Cbc}

theorem work_of_misaligned (h : data.length % Block.size ≠ 0) :
    work turn s data = (.error misaligned, s) := if_pos h

theorem work_of_aligned (h : data.length % Block.size = 0) : work turn s data =
    (.ok ((through (turn s.key) s.chain (Block.list data)).1.flatMap Block.bytes),
      s.withChain (through (turn s.key) s.chain (Block.list data)).2) :=
  if_neg (not_not_intro h)

theorem aligned_of_work (h : work turn s data = (.ok out, t)) : data.length % Block.size = 0 := by
  by_cases ha : data.length % Block.size = 0
  · exact ha
  · rw [work_of_misaligned ha] at h
    cases (Prod.mk.inj h).1

theorem length_work (h : work turn s data = (.ok out, t)) : out.length = data.length := by
  have ha := aligned_of_work h
  rw [work_of_aligned ha] at h
  obtain rfl := Except.ok.inj (Prod.mk.inj h).1
  rw [Block.length_flatMap_bytes, length_through, Block.length_list]
  exact Nat.mul_div_cancel' (Nat.dvd_of_mod_eq_zero ha)

theorem work_append (hx : work turn s x = (.ok out, t)) (hy : work turn t y = (.ok out', t')) :
    work turn s (x ++ y) = (.ok (out ++ out'), t') := by
  have hax := aligned_of_work hx
  have hay := aligned_of_work hy
  have haxy : (x ++ y).length % Block.size = 0 := by
    rw [List.length_append, Nat.add_mod, hax, hay]
    rfl
  rw [work_of_aligned hax] at hx
  obtain ⟨hout, rfl⟩ := Prod.mk.inj hx
  obtain rfl := Except.ok.inj hout
  rw [work_of_aligned hay] at hy
  obtain ⟨hout', rfl⟩ := Prod.mk.inj hy
  obtain rfl := Except.ok.inj hout'
  rw [work_of_aligned haxy, Block.list_append_of_aligned hax, through_append, List.flatMap_append]
  rfl

end Work

def each (op : Cbc → Bytes → Except CryptoError Bytes × Cbc) (s : Cbc) :
    List Bytes → List (Except CryptoError Bytes) × Cbc
  | [] => ([], s)
  | piece :: pieces =>
    let (result, s) := op s piece
    let (results, s) := each op s pieces
    (result :: results, s)

theorem each_work (turn : Aes.Key → Turn) (s : Cbc)
    (ha : ∀ piece ∈ pieces, piece.length % Block.size = 0) :
    ∃ (outs : List Bytes) (t : Cbc), each (work turn) s pieces = (outs.map .ok, t) ∧
      work turn s pieces.flatten = (.ok outs.flatten, t) ∧
      outs.map List.length = pieces.map List.length := by
  induction pieces generalizing s with
  | nil => exact ⟨[], s, rfl, rfl, rfl⟩
  | cons piece pieces ih =>
    obtain ⟨hpiece, hpieces⟩ := List.forall_mem_cons.mp ha
    obtain ⟨out, t, hwork⟩ : ∃ out t, work turn s piece = (.ok out, t) :=
      ⟨_, _, work_of_aligned hpiece⟩
    obtain ⟨outs, t', heach, hone, hlen⟩ := ih t hpieces
    refine ⟨out :: outs, t', ?_, work_append hwork hone, ?_⟩
    · simp only [each, hwork, heach, List.map_cons]
    · rw [List.map_cons, List.map_cons, hlen, length_work hwork]

theorem each_filter (turn : Aes.Key → Turn) (s : Cbc) (calls : List Bytes) :
    each (work turn) s (calls.filter fun data => data.length % Block.size = 0) =
      ((each (work turn) s calls).1.filter Except.isOk, (each (work turn) s calls).2) := by
  induction calls generalizing s with
  | nil => rfl
  | cons data calls ih =>
    by_cases ha : data.length % Block.size = 0
    · rw [List.filter_cons, if_pos (decide_eq_true ha)]
      simp only [each, work_of_aligned ha, ih]
      rfl
    · rw [List.filter_cons, if_neg (by simpa using ha), ih]
      simp only [each, work_of_misaligned ha]
      rfl

/-! ## In place -/

def encryptAt (k : Aes.Key) (i : Nat) : Bytes × Block → Bytes × Block := fun (buffer, chain) =>
  let buffer := Block.writeAt buffer i ((Block.readAt buffer i).xor chain)
  let buffer := Block.writeAt buffer i (Aes.encrypt k (Block.readAt buffer i))
  (buffer, Block.readAt buffer i)

def decryptAt (k : Aes.Key) (i : Nat) : Bytes × Block → Bytes × Block := fun (buffer, chain) =>
  let next := Block.readAt buffer i
  let buffer := Block.writeAt buffer i (Aes.decrypt k (Block.readAt buffer i))
  let buffer := Block.writeAt buffer i ((Block.readAt buffer i).xor chain)
  (buffer, next)

/-- A call on a buffer: whether it succeeds, and the buffer and the stream after it. -/
def inPlace (step : Aes.Key → Nat → Bytes × Block → Bytes × Block) (s : Cbc) (buffer : Bytes) :
    Except CryptoError Unit × Bytes × Cbc :=
  if buffer.length % Block.size ≠ 0 then (.error misaligned, buffer, s)
  else
    let (buffer, chain) := (List.range (buffer.length / Block.size)).foldl
      (fun x i => step s.key i x) (buffer, s.chain)
    (.ok (), buffer, s.withChain chain)

def encryptInPlace : Cbc → Bytes → Except CryptoError Unit × Bytes × Cbc := inPlace encryptAt

def decryptInPlace : Cbc → Bytes → Except CryptoError Unit × Bytes × Cbc := inPlace decryptAt

def intoBuffer (buffer : Bytes) :
    Except CryptoError Bytes × Cbc → Except CryptoError Unit × Bytes × Cbc
  | (.ok out, s) => (.ok (), out, s)
  | (.error e, s) => (.error e, buffer, s)

/-- A step in a buffer does what `turn` does, and only to its block. -/
def Performs (step : Nat → Bytes × Block → Bytes × Block) (turn : Turn) : Prop :=
  ∀ (front rest : Bytes) (b chain : Block) (i : Nat), front.length = Block.size * i →
    step i (front ++ (b.bytes ++ rest), chain) =
      (front ++ ((turn chain b).1.bytes ++ rest), (turn chain b).2)

theorem performs_encryptAt (k : Aes.Key) : Performs (encryptAt k) (encryptTurn k) := by
  intro front rest b chain i hf
  simp only [encryptAt, encryptTurn, Block.readAt_append hf, Block.writeAt_append hf]

theorem performs_decryptAt (k : Aes.Key) : Performs (decryptAt k) (decryptTurn k) := by
  intro front rest b chain i hf
  simp only [decryptAt, decryptTurn, Block.readAt_append hf, Block.writeAt_append hf]

/-- What precedes the place `i` is done, and the blocks from there on are as they were. -/
theorem Performs.foldl {step : Nat → Bytes × Block → Bytes × Block} {turn : Turn}
    (h : Performs step turn) (xs : List Block) {front : Bytes} {i : Nat}
    (hf : front.length = Block.size * i) (chain : Block) :
    (List.range' i xs.length).foldl (fun x i => step i x)
        (front ++ xs.flatMap Block.bytes, chain) =
      (front ++ (through turn chain xs).1.flatMap Block.bytes, (through turn chain xs).2) := by
  induction xs generalizing front i chain with
  | nil => rfl
  | cons b xs ih =>
    have hf' : (front ++ (turn chain b).1.bytes).length = Block.size * (i + 1) := by
      rw [List.length_append, hf, Block.length_bytes, Nat.mul_succ]
    rw [List.length_cons, List.range'_succ, List.foldl_cons, List.flatMap_cons,
      h front _ b chain i hf, ← List.append_assoc, ih hf']
    simp only [through, List.flatMap_cons, List.append_assoc]

theorem inPlace_eq {step : Aes.Key → Nat → Bytes × Block → Bytes × Block}
    {turn : Aes.Key → Turn} (h : ∀ k, Performs (step k) (turn k)) (s : Cbc) (buffer : Bytes) :
    inPlace step s buffer = intoBuffer buffer (work turn s buffer) := by
  by_cases ha : buffer.length % Block.size = 0
  · obtain ⟨xs, hlen, rfl⟩ := Block.exists_blocks (buffer.length / Block.size)
      (Nat.mul_div_cancel' (Nat.dvd_of_mod_eq_zero ha)).symm
    have hfront : ([] : Bytes).length = Block.size * 0 := rfl
    have hfold := (h s.key).foldl xs hfront s.chain
    rw [List.nil_append, List.nil_append, ← List.range_eq_range'] at hfold
    rw [work_of_aligned ha, Block.list_flatMap_bytes, inPlace, if_neg (not_not_intro ha), ← hlen,
      hfold]
    rfl
  · rw [work_of_misaligned ha, inPlace, if_pos ha]
    rfl

/-! ## Both ends -/

theorem lastBlock_withChain (ha : data.length % Block.size = 0) (hne : data ≠ []) (s : Cbc)
    (chain : Block) : (s.withChain chain).lastBlock data = s.lastBlock data := by
  obtain ⟨y, ys, hlist⟩ := Block.exists_list_eq_cons ha hne
  rw [lastBlock, lastBlock, hlist, List.getLastD_cons, List.getLastD_cons]

/-- Under another chain, the first block is off by the difference of the chains. -/
theorem ofBytes_decryption (ha : data.length % Block.size = 0) (hne : data ≠ []) (s : Cbc)
    (chain : Block) : Block.ofBytes ((s.withChain chain).decryption data) =
      ((Block.ofBytes (s.decryption data)).xor s.chain).xor chain := by
  obtain ⟨y, ys, hlist⟩ := Block.exists_list_eq_cons ha hne
  simp only [decryption, withChain, hlist, decryptBlocks, List.flatMap_cons,
    Block.ofBytes_bytes_append, Block.xor_xor]

theorem each_encrypt (s : Cbc) (ha : ∀ piece ∈ pieces, piece.length % Block.size = 0) :
    ∃ outs : List Bytes,
      each encrypt s pieces = (outs.map .ok, s.withChain (s.lastBlock outs.flatten)) ∧
      outs.map List.length = pieces.map List.length ∧
      outs.flatten = s.encryption pieces.flatten ∧ pieces.flatten.length % Block.size = 0 := by
  obtain ⟨outs, t, heach, hone, hlen⟩ := each_work encryptTurn s ha
  have hflat := aligned_of_work hone
  rw [← encrypt_eq_work] at heach hone
  rw [encrypt_of_aligned hflat] at hone
  obtain ⟨hout, rfl⟩ := Prod.mk.inj hone
  have hout := Except.ok.inj hout
  exact ⟨outs, hout ▸ heach, hlen, hout.symm, hflat⟩

theorem each_decrypt (s : Cbc) (ha : ∀ piece ∈ pieces, piece.length % Block.size = 0) :
    ∃ plains : List Bytes,
      each decrypt s pieces = (plains.map .ok, s.withChain (s.lastBlock pieces.flatten)) ∧
      plains.map List.length = pieces.map List.length ∧
      plains.flatten = s.decryption pieces.flatten := by
  obtain ⟨plains, t, heach, hone, hlen⟩ := each_work decryptTurn s ha
  have hflat := aligned_of_work hone
  rw [← decrypt_eq_work] at heach hone
  rw [decrypt_of_aligned hflat] at hone
  obtain ⟨hplains, rfl⟩ := Prod.mk.inj hone
  exact ⟨plains, heach, hlen, (Except.ok.inj hplains).symm⟩

theorem inPlace_encrypt (s : Cbc) (buffer : Bytes) :
    s.encryptInPlace buffer = intoBuffer buffer (s.encrypt buffer) := by
  rw [encrypt_eq_work]
  exact inPlace_eq performs_encryptAt s buffer

theorem inPlace_decrypt (s : Cbc) (buffer : Bytes) :
    s.decryptInPlace buffer = intoBuffer buffer (s.decrypt buffer) := by
  rw [decrypt_eq_work]
  exact inPlace_eq performs_decryptAt s buffer

theorem each_aligned {op : Cbc → Bytes → Except CryptoError Bytes × Cbc}
    (h : op = encrypt ∨ op = decrypt) (s : Cbc) (calls : List Bytes) :
    each op s (calls.filter fun data => data.length % Block.size = 0) =
      ((each op s calls).1.filter Except.isOk, (each op s calls).2) := by
  rcases h with rfl | rfl
  · rw [encrypt_eq_work]
    exact each_filter encryptTurn s calls
  · rw [decrypt_eq_work]
    exact each_filter decryptTurn s calls

/-- A stream comes out the same however it is cut, and a decryptor gives it back however the
ciphertext is cut, with the same chain in the end. From another chain, it gives back all but the
first block. Misaligned calls leave the buffer and the stream as they are. -/
theorem cut_anywhere (s : Cbc) (pieces : List Bytes)
    (ha : ∀ piece ∈ pieces, piece.length % Block.size = 0) :
    ∃ (outs : List Bytes) (t : Cbc),
      (each encrypt s pieces = (outs.map .ok, t) ∧
        s.encrypt pieces.flatten = (.ok outs.flatten, t) ∧
        outs.map List.length = pieces.map List.length) ∧
      (∀ cut : List Bytes, (∀ piece ∈ cut, piece.length % Block.size = 0) →
        cut.flatten = outs.flatten →
        (∃ plains : List Bytes, each decrypt s cut = (plains.map .ok, t) ∧
          plains.map List.length = cut.map List.length ∧ plains.flatten = pieces.flatten) ∧
        ∀ chain, ∃ (plains : List Bytes) (t' : Cbc),
          each decrypt (s.withChain chain) cut = (plains.map .ok, t') ∧
          plains.map List.length = cut.map List.length ∧
          plains.flatten.drop Block.size = pieces.flatten.drop Block.size ∧
          (pieces.flatten ≠ [] → t' = t ∧ Block.ofBytes plains.flatten =
            ((Block.ofBytes pieces.flatten).xor s.chain).xor chain)) ∧
      (∀ buffer : Bytes, buffer.length % Block.size ≠ 0 →
        s.encryptInPlace buffer = (.error misaligned, buffer, s) ∧
        s.decryptInPlace buffer = (.error misaligned, buffer, s)) ∧
      (∀ buffer, s.encryptInPlace buffer = intoBuffer buffer (s.encrypt buffer) ∧
        s.decryptInPlace buffer = intoBuffer buffer (s.decrypt buffer)) ∧
      ∀ op, op = encrypt ∨ op = decrypt → ∀ calls : List Bytes,
        each op s (calls.filter fun data => data.length % Block.size = 0) =
          ((each op s calls).1.filter Except.isOk, (each op s calls).2) := by
  obtain ⟨outs, heach, hlen, hout, hflat⟩ := each_encrypt s ha
  have haout : outs.flatten.length % Block.size = 0 := by
    rw [hout, length_encryption hflat, hflat]
  have hplain : s.decryption outs.flatten = pieces.flatten := hout ▸ decryption_encryption hflat
  refine ⟨outs, _, ⟨heach, ?_, hlen⟩, fun cut hcut hsame => ⟨?_, fun chain => ?_⟩,
    fun buffer hb => ⟨if_pos hb, if_pos hb⟩,
    fun buffer => ⟨inPlace_encrypt s buffer, inPlace_decrypt s buffer⟩,
    fun op hop calls => each_aligned hop s calls⟩
  · rw [encrypt_of_aligned hflat, hout]
  · obtain ⟨plains, hcuts, hlens, hplains⟩ := each_decrypt s hcut
    rw [hsame] at hcuts hplains
    exact ⟨plains, hcuts, hlens, hplains.trans hplain⟩
  · obtain ⟨plains, hcuts, hlens, hplains⟩ := each_decrypt (s.withChain chain) hcut
    rw [hsame] at hcuts hplains
    refine ⟨plains, _, hcuts, hlens, ?_, fun hne => ?_⟩
    · rw [hplains, drop_decryption, hplain]
    · have hneout : outs.flatten ≠ [] := fun hnil => hne (by rw [← hplain, hnil]; rfl)
      rw [hplains, ofBytes_decryption haout hneout, hplain, lastBlock_withChain haout hneout]
      exact ⟨rfl, rfl⟩

theorem cut_anywhere_twice : ∃ (s t : Cbc) (outs plains : List Bytes),
    keyed .aes128 (Bytes.zeros 16) (Bytes.zeros 16) = .ok s ∧
      each encrypt s [Bytes.zeros 32, Bytes.zeros 16] = (outs.map .ok, t) ∧
      each decrypt s [outs.flatten.take 16, outs.flatten.drop 16] = (plains.map .ok, t) ∧
      plains.flatten = Bytes.zeros 48 := by
  have hkeyed : ∃ s, keyed .aes128 (Bytes.zeros 16) (Bytes.zeros 16) = .ok s := ⟨_, rfl⟩
  obtain ⟨s, hs⟩ := hkeyed
  obtain ⟨outs, t, ⟨heach, -, hlen⟩, hcut, -⟩ :=
    cut_anywhere s [Bytes.zeros 32, Bytes.zeros 16] (by decide)
  have hsum : outs.flatten.length = 48 := by
    rw [List.length_flatten, hlen]
    rfl
  obtain ⟨⟨plains, hplains, -, hflat⟩, -⟩ :=
    hcut [outs.flatten.take 16, outs.flatten.drop 16] (by simp [hsum]; decide) (by simp)
  exact ⟨s, t, outs, plains, hs, heach, hplains, hflat⟩

end Cbc

end RecordLayer
