import RecordLayer.Cipher.Cbc

/-! # Chained blocks

Strings of whole blocks correspond to lists of blocks. Decryption under the same key returns what
was encrypted, apart from the first block if the chains differed, and leaves the same chain.
-/

namespace RecordLayer

open Aes (Block)

namespace Bytes

theorem modify_append {i : Nat} {x : Bytes} (hi : i < x.length) (y : Bytes) (f : UInt8 → UInt8) :
    (x ++ y).modify i f = x.modify i f ++ y := by
  induction x generalizing i with
  | nil => exact absurd hi (Nat.not_lt_zero i)
  | cons a x ih =>
    cases i with
    | zero => rfl
    | succ i => exact congrArg (a :: ·) (ih (Nat.lt_of_succ_lt_succ hi))

theorem xor_modify (x y : Bytes) (i : Nat) (b : UInt8) :
    xor x (y.modify i (· ^^^ b)) = (xor x y).modify i (· ^^^ b) := by
  induction x generalizing y i with
  | nil => simp [xor]
  | cons a x ih =>
    cases y with
    | nil => simp [xor]
    | cons c y =>
      cases i with
      | zero => simp [xor, UInt8.xor_assoc]
      | succ i => exact congrArg ((a ^^^ c) :: ·) (ih y i)

end Bytes

namespace Aes.Block

variable {x y : Bytes} {xs : List Block}

@[simp] theorem length_flatMap_bytes (xs : List Block) :
    (xs.flatMap bytes).length = size * xs.length := by
  induction xs with
  | nil => rfl
  | cons b xs ih =>
    rw [List.flatMap_cons, List.length_append, ih, length_bytes, List.length_cons, Nat.mul_succ,
      Nat.add_comm]

theorem list_append (hx : x.length = size) (y : Bytes) :
    list (x ++ y) = ofBytes x :: list y := by
  have hdiv : (x ++ y).length / size = y.length / size + 1 := by
    rw [List.length_append, hx, Nat.add_comm, Nat.add_div_right _ (by decide)]
  rw [list, hdiv, Bytes.pieces, List.map_cons, List.take_left' hx, List.drop_left' hx, list]

@[simp] theorem list_flatMap_bytes (xs : List Block) : list (xs.flatMap bytes) = xs := by
  induction xs with
  | nil => rfl
  | cons b xs ih => rw [List.flatMap_cons, list_append (length_bytes b), ih, ofBytes_bytes]

theorem exists_blocks (k : Nat) : ∀ {x : Bytes}, x.length = size * k →
    ∃ xs : List Block, xs.length = k ∧ x = xs.flatMap bytes := by
  induction k with
  | zero =>
    intro x hx
    exact ⟨[], rfl, List.length_eq_zero_iff.mp hx⟩
  | succ k ih =>
    intro x hx
    rw [Nat.mul_succ] at hx
    obtain ⟨xs, hlen, hxs⟩ := ih (x := x.drop size) (by rw [List.length_drop]; omega)
    have htake : (x.take size).length = size := by rw [List.length_take]; omega
    refine ⟨ofBytes (x.take size) :: xs, by rw [List.length_cons, hlen], ?_⟩
    rw [List.flatMap_cons, bytes_ofBytes htake, ← hxs, List.take_append_drop]

theorem flatMap_bytes_list (hx : x.length % size = 0) : (list x).flatMap bytes = x := by
  obtain ⟨xs, -, rfl⟩ := exists_blocks (x.length / size)
    (Nat.mul_div_cancel' (Nat.dvd_of_mod_eq_zero hx)).symm
  rw [list_flatMap_bytes]

theorem length_list (x : Bytes) : (list x).length = x.length / size := by
  have hp (n : Nat) : ∀ (count : Nat) (x : Bytes), (x.pieces n count).length = count := by
    intro count
    induction count with
    | zero => exact fun _ => rfl
    | succ count ih => exact fun x => congrArg (· + 1) (ih (x.drop n))
  rw [list, List.length_map, hp]

theorem bytes_xor (x y : Block) : (x.xor y).bytes = Bytes.xor x.bytes y.bytes := rfl

end Aes.Block

namespace Cbc

variable {s s' : Cbc} {data : Bytes} {k : Aes.Key} {chain chain' : Block} {xs ys : List Block}

def encryption (s : Cbc) (data : Bytes) : Bytes :=
  (encryptBlocks s.key s.chain (Block.list data)).flatMap Block.bytes

def decryption (s : Cbc) (data : Bytes) : Bytes :=
  (decryptBlocks s.key s.chain (Block.list data)).flatMap Block.bytes

def withChain (s : Cbc) (chain : Block) : Cbc := { s with chain }

def lastBlock (s : Cbc) (data : Bytes) : Block := (Block.list data).getLastD s.chain

theorem encrypt_of_aligned (h : data.length % Block.size = 0) : s.encrypt data =
    (.ok (s.encryption data), s.withChain (s.lastBlock (s.encryption data))) := by
  simp only [encrypt, h, ne_eq, not_true_eq_false, if_false, encryption, withChain, lastBlock,
    Block.list_flatMap_bytes]

theorem decrypt_of_aligned (h : data.length % Block.size = 0) :
    s.decrypt data = (.ok (s.decryption data), s.withChain (s.lastBlock data)) := by
  simp only [decrypt, h, ne_eq, not_true_eq_false, if_false, decryption, withChain, lastBlock]

theorem length_encryption (h : data.length % Block.size = 0) :
    (s.encryption data).length = data.length := by
  rw [encryption, Block.length_flatMap_bytes, length_encryptBlocks, Block.length_list]
  exact Nat.mul_div_cancel' (Nat.dvd_of_mod_eq_zero h)

theorem length_decryption (h : data.length % Block.size = 0) :
    (s.decryption data).length = data.length := by
  rw [decryption, Block.length_flatMap_bytes, length_decryptBlocks, Block.length_list]
  exact Nat.mul_div_cancel' (Nat.dvd_of_mod_eq_zero h)

theorem decryption_encryption (h : data.length % Block.size = 0) :
    s.decryption (s.encryption data) = data := by
  rw [decryption, encryption, Block.list_flatMap_bytes, decryptBlocks_encryptBlocks,
    Block.flatMap_bytes_list h]

theorem bytes_lastBlock (s : Cbc) (ha : data.length % Block.size = 0) (hpos : 0 < data.length) :
    (s.lastBlock data).bytes = data.drop (data.length - Block.size) := by
  obtain ⟨blocks, hlen, rfl⟩ := Block.exists_blocks (data.length / Block.size)
    (Nat.mul_div_cancel' (Nat.dvd_of_mod_eq_zero ha)).symm
  rw [lastBlock, Block.list_flatMap_bytes]
  rcases List.eq_nil_or_concat blocks with rfl | ⟨front, y, rfl⟩
  · exact absurd hpos (Nat.lt_irrefl 0)
  · rw [List.concat_eq_append, List.getLastD_concat, List.flatMap_append, List.flatMap_singleton,
      List.length_append, Block.length_bytes, Nat.add_sub_cancel, List.drop_left' rfl]

theorem drop_decryption (s : Cbc) (chain : Block) (data : Bytes) :
    ((s.withChain chain).decryption data).drop Block.size =
      (s.decryption data).drop Block.size := by
  rw [decryption, decryption]
  cases Block.list data with
  | nil => rfl
  | cons y ys =>
    simp only [withChain, decryptBlocks, List.flatMap_cons]
    rw [List.drop_left' (Block.length_bytes _), List.drop_left' (Block.length_bytes _)]

/-- A bit that is flipped in the first block is flipped in what the second one hides. -/
theorem drop_decryption_modify (s : Cbc) (b : UInt8) {i : Nat} (hi : i < Block.size)
    (ha : data.length % Block.size = 0) :
    (s.decryption (data.modify i (· ^^^ b))).drop Block.size =
      ((s.decryption data).drop Block.size).modify i (· ^^^ b) := by
  obtain ⟨blocks, -, rfl⟩ := Block.exists_blocks (data.length / Block.size)
    (Nat.mul_div_cancel' (Nat.dvd_of_mod_eq_zero ha)).symm
  cases blocks with
  | nil =>
    rw [List.flatMap_nil, List.modify_nil]
    exact (List.modify_nil _ _).symm
  | cons y blocks =>
    have hy : (y.bytes.modify i (· ^^^ b)).length = Block.size := by
      rw [List.length_modify, Block.length_bytes]
    have hflip : (Block.ofBytes (y.bytes.modify i (· ^^^ b))).bytes = y.bytes.modify i (· ^^^ b) :=
      Block.bytes_ofBytes hy
    rw [List.flatMap_cons, Bytes.modify_append hi, decryption, decryption, Block.list_append hy,
      Block.list_append (Block.length_bytes y), Block.ofBytes_bytes, Block.list_flatMap_bytes]
    simp only [decryptBlocks, List.flatMap_cons]
    rw [List.drop_left' (Block.length_bytes _), List.drop_left' (Block.length_bytes _)]
    cases blocks with
    | nil => exact (List.modify_nil _ _).symm
    | cons z blocks =>
      simp only [decryptBlocks, List.flatMap_cons]
      rw [Bytes.modify_append hi, Block.bytes_xor, hflip, Bytes.xor_modify, Block.bytes_xor]
end Cbc

end RecordLayer
