import RecordLayer.Hash.Basic

/-! # Running digests

A digest that takes its message piece by piece. How the message is cut makes no difference, and
the result is the digest of the whole (`finish_update_new`).
-/

namespace RecordLayer

structure Digest (h : Hash) where
  chain : h.Chain
  /-- The bytes of the block that is not complete, the newest first. -/
  pending : Bytes
  count : Nat

namespace Digest
variable {h : Hash}

def new (h : Hash) : Digest h := ⟨h.initial, [], 0⟩

/-- Take in one byte, and compress the block that it completes. -/
def absorb (d : Digest h) (b : UInt8) : Digest h :=
  if (d.count + 1) % h.blockSize = 0 then
    ⟨h.compress d.chain (b :: d.pending).reverse, [], d.count + 1⟩
  else ⟨d.chain, b :: d.pending, d.count + 1⟩

def update (d : Digest h) (data : Bytes) : Digest h := data.foldl absorb d

def finish (d : Digest h) : Bytes := h.output (d.update (h.padding d.count)).chain

@[simp] theorem update_nil (d : Digest h) : d.update [] = d := rfl

theorem update_append (d : Digest h) (x y : Bytes) :
    d.update (x ++ y) = (d.update x).update y := List.foldl_append

@[simp] theorem count_update (d : Digest h) (data : Bytes) :
    (d.update data).count = d.count + data.length := by
  induction data generalizing d with
  | nil => rfl
  | cons b data ih =>
    have hb : (d.absorb b).count = d.count + 1 := by unfold absorb; split <;> rfl
    rw [update, List.foldl_cons, ← update, ih, hb, List.length_cons]
    omega

@[simp] theorem length_finish (d : Digest h) : d.finish.length = h.size := Hash.length_output ..

theorem update_of_lt (d : Digest h) (data : Bytes)
    (hd : d.count % h.blockSize + data.length < h.blockSize) :
    d.update data = ⟨d.chain, data.reverse ++ d.pending, d.count + data.length⟩ := by
  induction data generalizing d with
  | nil => rfl
  | cons b data ih =>
    rw [List.length_cons] at hd
    have hlt : d.count % h.blockSize + 1 < h.blockSize := by omega
    have hmod : (d.count + 1) % h.blockSize = d.count % h.blockSize + 1 := by
      rw [← Nat.mod_add_mod]
      exact Nat.mod_eq_of_lt hlt
    have hb : d.absorb b = ⟨d.chain, b :: d.pending, d.count + 1⟩ := by
      rw [absorb, if_neg (by omega)]
    rw [update, List.foldl_cons, ← update, hb, ih _ (by simp only [hmod]; omega)]
    simp only [List.reverse_cons, List.append_assoc, List.singleton_append, List.length_cons,
      mk.injEq, true_and]
    omega

theorem update_block (d : Digest h) (block : Bytes) (hp : d.pending = [])
    (hc : d.count % h.blockSize = 0) (hb : block.length = h.blockSize) :
    d.update block = ⟨h.compress d.chain block, [], d.count + h.blockSize⟩ := by
  have hpos := h.blockSize_pos
  obtain ⟨front, b, rfl⟩ : ∃ front b, block = front ++ [b] :=
    ⟨_, _, (List.dropLast_concat_getLast (List.ne_nil_of_length_pos (by omega))).symm⟩
  rw [List.length_append, List.length_singleton] at hb
  rw [update_append, update_of_lt d front (by omega), hp, update, List.foldl_cons, List.foldl_nil,
    absorb, if_pos]
  · simp only [List.append_nil, List.reverse_cons, List.reverse_reverse, mk.injEq, true_and]
    omega
  · show (d.count + front.length + 1) % h.blockSize = 0
    rw [Nat.add_assoc, hb, Nat.add_mod_right, hc]

theorem chain_update_blocks (k : Nat) : ∀ (d : Digest h) (data : Bytes), d.pending = [] →
    d.count % h.blockSize = 0 → data.length = k * h.blockSize →
    (d.update data).chain = (data.pieces h.blockSize k).foldl h.compress d.chain := by
  induction k with
  | zero =>
    intro d data _ _ hlen
    obtain rfl := List.length_eq_zero_iff.mp (by simpa using hlen)
    rfl
  | succ k ih =>
    intro d data hp hc hlen
    rw [Nat.succ_mul] at hlen
    have ht : (data.take h.blockSize).length = h.blockSize := by rw [List.length_take]; omega
    have hblock := update_block d _ hp hc ht
    conv => lhs; rw [← List.take_append_drop h.blockSize data, update_append, hblock]
    rw [ih _ _ rfl (by simp [hc]) (by rw [List.length_drop]; omega)]
    rfl

/-- A running digest ends with the digest of its whole message. -/
theorem finish_update_new (data : Bytes) : ((new h).update data).finish = h.digest data := by
  have hlen := h.length_padding data.length
  have hdiv : (data ++ h.padding data.length).length =
      (data ++ h.padding data.length).length / h.blockSize * h.blockSize := by
    rw [List.length_append]
    exact (Nat.div_mul_cancel (Nat.dvd_of_mod_eq_zero hlen)).symm
  have hcount : ((new h).update data).count = data.length := by simp [new]
  rw [finish, hcount, ← update_append,
    chain_update_blocks _ (new h) (data ++ h.padding data.length) rfl (by simp [new]) hdiv]
  rfl

end Digest

end RecordLayer
