import Mathlib.Algebra.Order.Floor.Div
import Mathlib.Data.Nat.ModEq
import RecordLayer.Proofs.RecordTags

/-! # Hashing work

The work for a tag is the number of blocks that are compressed. A tag in uniform time adds dummy
blocks, which make up for the blocks that a longer message would fill. They are counted from the
header on, so they make up for exactly these if the key string ends at a block boundary. Every key
string but one does: that of SSL 3.0 under SHA-1 is four bytes short (`work_uniform_iff`).
-/

namespace RecordLayer

namespace Hash

variable (h : Hash)

/-- The number of blocks that a message of `n` bytes fills along with its padding. -/
def blocks (n : Nat) : Nat := (n + 1 + h.lengthSize) ⌈/⌉ h.blockSize

theorem blocks_eq (n : Nat) : h.blocks n = (n + h.lengthSize) / h.blockSize + 1 := by
  have hsum : n + 1 + h.lengthSize + h.blockSize - 1 = n + h.lengthSize + h.blockSize := by omega
  rw [blocks, Nat.ceilDiv_eq_add_pred_div, hsum, Nat.add_div_right _ h.blockSize_pos]

theorem length_padded (n : Nat) : n + (h.padding n).length = h.blocks n * h.blockSize := by
  rw [blocks_eq]
  cases h <;> simp [padding, blockSize, lengthSize] <;> omega

/-- Blocks that are counted without the first `p` bytes make up for what a message falls short of
another one if and only if these bytes complete a block with the rest of both or of neither. -/
theorem blocks_add_eq_iff (p : Nat) {x y : Nat} (hxy : x ≤ y) :
    h.blocks (p + x) + ((y + h.lengthSize) / h.blockSize - (x + h.lengthSize) / h.blockSize) =
        h.blocks (p + y) ↔
      (h.blockSize ≤ p % h.blockSize + (x + h.lengthSize) % h.blockSize ↔
        h.blockSize ≤ p % h.blockSize + (y + h.lengthSize) % h.blockSize) := by
  have hle : (x + h.lengthSize) / h.blockSize ≤ (y + h.lengthSize) / h.blockSize :=
    Nat.div_le_div_right (Nat.add_le_add_right hxy _)
  rw [blocks_eq, blocks_eq, Nat.add_assoc p, Nat.add_assoc p, Nat.add_div h.blockSize_pos,
    Nat.add_div (a := p) h.blockSize_pos]
  split <;> split <;> omega

end Hash

namespace Digest

variable {h : Hash}

/-- The number of blocks that are compressed while data are taken in. -/
def compressed (d : Digest h) : Bytes → Nat
  | [] => 0
  | b :: data => (if (d.absorb b).pending = [] then 1 else 0) + (d.absorb b).compressed data

theorem pending_absorb (d : Digest h) (b : UInt8) :
    (d.absorb b).pending = [] ↔ (d.count + 1) % h.blockSize = 0 := by
  unfold absorb
  split
  · rename_i hfull
    exact iff_of_true rfl hfull
  · rename_i hopen
    exact iff_of_false (List.cons_ne_nil _ _) hopen

theorem compressed_add (d : Digest h) (data : Bytes) :
    d.count / h.blockSize + d.compressed data = (d.count + data.length) / h.blockSize := by
  induction data generalizing d with
  | nil => rfl
  | cons b data ih =>
    have hcount : (d.absorb b).count = d.count + 1 := count_update d [b]
    have hrest := ih (d.absorb b)
    rw [hcount, Nat.succ_div] at hrest
    simp only [compressed, pending_absorb, ← Nat.dvd_iff_mod_eq_zero, List.length_cons]
    rw [← Nat.add_assoc, hrest, Nat.add_right_comm, Nat.add_assoc]

theorem compressed_new (message : Bytes) :
    (new h).compressed (message ++ h.padding message.length) = h.blocks message.length := by
  have hall := compressed_add (new h) (message ++ h.padding message.length)
  have hstart : (new h).count = 0 := rfl
  rwa [hstart, Nat.zero_div, Nat.zero_add, Nat.zero_add, List.length_append, h.length_padded,
    Nat.mul_div_cancel _ h.blockSize_pos] at hall

theorem compressed_replicate (d : Digest h) {block rest : Bytes}
    (hblock : block.length = h.blockSize)
    (hrest : d.count % h.blockSize + rest.length < h.blockSize) (n : Nat) :
    d.compressed ((List.replicate n block).flatten ++ rest) = n := by
  have hshort : rest.length < h.blockSize := by omega
  have hsame : (d.count + rest.length) / h.blockSize = d.count / h.blockSize := by
    rw [Nat.add_div h.blockSize_pos, Nat.div_eq_of_lt hshort, Nat.mod_eq_of_lt hshort,
      if_neg (by omega), Nat.add_zero]
  have hlength : d.count + ((List.replicate n block).flatten ++ rest).length =
      d.count + rest.length + n * h.blockSize := by
    rw [List.length_append, List.length_flatten, List.map_replicate, List.sum_replicate_nat,
      hblock]
    omega
  have hall := d.compressed_add ((List.replicate n block).flatten ++ rest)
  rw [hlength, Nat.add_mul_div_right _ _ h.blockSize_pos, hsame] at hall
  exact Nat.add_left_cancel hall

end Digest

namespace KeyStrings

variable {a : MacAlgorithm} {key : Bytes} {k : KeyStrings}

def work (k : KeyStrings) (string : Bytes) : Nat :=
  (Digest.new k.hash).compressed
    (k.inner ++ string ++ k.hash.padding (k.inner ++ string).length)

theorem work_eq (k : KeyStrings) (string : Bytes) :
    k.work string = k.hash.blocks (k.inner.length + string.length) := by
  rw [work, Digest.compressed_new, List.length_append]

theorem length_inner_hmac (h : Hash) (key : Bytes) : (hmac h key).inner.length = h.blockSize := by
  have hsize : h.size ≤ h.blockSize := by cases h <;> decide
  simp only [hmac, List.length_map, List.length_append, Bytes.length_zeros]
  split
  · rw [Hash.length_digest]
    omega
  · omega

theorem length_inner_ssl3 (h : Hash) (key : Bytes) :
    (ssl3 h key).inner.length = key.length + ssl3PadSize h := by
  simp only [ssl3, List.length_append, List.length_replicate]

theorem length_inner_of (hk : of a key = .ok k) (hkey : ∀ h, a = .ssl3 h → key.length = h.size) :
    (∃ h, a = .hmac h ∧ k.hash = h ∧ k.inner.length = h.blockSize) ∨
      (a = .ssl3 .md5 ∧ k.hash = .md5 ∧ k.inner.length = 64) ∨
      (a = .ssl3 .sha1 ∧ k.hash = .sha1 ∧ k.inner.length = 60) := by
  cases a with
  | null => cases hk
  | hmac h =>
    obtain rfl := Except.ok.inj hk
    exact Or.inl ⟨h, rfl, rfl, length_inner_hmac h key⟩
  | ssl3 h =>
    cases h with
    | md5 =>
      obtain rfl := Except.ok.inj hk
      exact Or.inr (Or.inl ⟨rfl, rfl, by rw [length_inner_ssl3, hkey _ rfl]; rfl⟩)
    | sha1 =>
      obtain rfl := Except.ok.inj hk
      exact Or.inr (Or.inr ⟨rfl, rfl, by rw [length_inner_ssl3, hkey _ rfl]; rfl⟩)
    | sha256 | sha384 | sha512 => cases hk

theorem length_inner_mod (hk : of a key = .ok k)
    (hkey : ∀ h, a = .ssl3 h → key.length = h.size) :
    (a = .ssl3 .sha1 ∧ k.hash = .sha1 ∧ k.inner.length % k.hash.blockSize = 60) ∨
      (a ≠ .ssl3 .sha1 ∧ k.inner.length % k.hash.blockSize = 0) := by
  rcases length_inner_of hk hkey with ⟨h, rfl, hh, hlen⟩ | ⟨rfl, hh, hlen⟩ | ⟨rfl, hh, hlen⟩
  · exact Or.inr ⟨by rintro ⟨⟩, by rw [hlen, hh, Nat.mod_self]⟩
  · exact Or.inr ⟨by rintro ⟨⟩, by rw [hlen, hh]; rfl⟩
  · exact Or.inl ⟨rfl, hh, by rw [hlen, hh]; rfl⟩

theorem blocks_eq_iff (hk : of a key = .ok k) (hkey : ∀ h, a = .ssl3 h → key.length = h.size)
    {x y : Nat} (hxy : x ≤ y) :
    k.hash.blocks (k.inner.length + x) + ((y + k.hash.lengthSize) / k.hash.blockSize -
          (x + k.hash.lengthSize) / k.hash.blockSize) =
        k.hash.blocks (k.inner.length + y) ↔
      (a = .ssl3 .sha1 → ((x + 8) % 64 < 4 ↔ (y + 8) % 64 < 4)) := by
  rw [Hash.blocks_add_eq_iff _ _ hxy]
  rcases length_inner_mod hk hkey with ⟨ha, hh, hmod⟩ | ⟨ha, hmod⟩
  · have hblock : Hash.sha1.blockSize = 64 := rfl
    have hlength : Hash.sha1.lengthSize = 8 := rfl
    rw [hmod, hh, hblock, hlength]
    simp only [ha, forall_const]
    omega
  · have hnone (z : Nat) : ¬ k.hash.blockSize ≤ 0 + z % k.hash.blockSize := by
      have hlt := Nat.mod_lt z k.hash.blockSize_pos
      omega
    rw [hmod]
    exact iff_of_true (iff_of_false (hnone _) (hnone _)) fun h => absurd h ha

end KeyStrings

theorem Mac.count_ofStrings (a : MacAlgorithm) (k : KeyStrings) :
    (ofStrings a k).template.inner.count = k.inner.length := by
  simp [ofStrings, NestedDigest.new, Digest.new]

namespace RecordMac

variable {a : MacAlgorithm} {key : Bytes} {k : KeyStrings} {size fullSize : Nat}

theorem feed_eq (data : Bytes) (n : Nat) (mac : Mac) :
    feed data n mac = mac.update (List.replicate n data).flatten := by
  induction n generalizing mac with
  | zero => rfl
  | succ n ih =>
    rw [feed, ih, List.replicate_succ, List.flatten_cons, Mac.update, Mac.update, Mac.update,
      NestedDigest.update_append]

/-- Dummy data compress a block each time, wherever the key string ends, and a byte more of them
compresses none. -/
theorem compressed_feed (hk : KeyStrings.of a key = .ok k)
    (hkey : ∀ h, a = .ssl3 h → key.length = h.size) {dummy : Bytes}
    (hdummy : k.hash.blockSize ≤ dummy.length) (n : Nat) :
    let mac := Mac.ofStrings a k
    let block := dummy.take mac.blockSize
    let fed := (List.replicate n block).flatten ++ dummy.take 1
    (feed block n mac).update (dummy.take 1) = mac.update fed ∧
      mac.current.inner.compressed fed = n := by
  intro mac block fed
  constructor
  · rw [feed_eq, Mac.update, Mac.update, Mac.update, ← NestedDigest.update_append]
  · have hblock : block.length = k.hash.blockSize := by
      rw [List.length_take]
      exact Nat.min_eq_left hdummy
    have hlast : (dummy.take 1).length ≤ 1 := List.length_take_le ..
    have hopen : mac.current.inner.count % k.hash.blockSize + 1 < k.hash.blockSize := by
      have hcount : mac.current.inner.count = k.inner.length := Mac.count_ofStrings a k
      rcases KeyStrings.length_inner_mod hk hkey with ⟨-, hh, hmod⟩ | ⟨-, hmod⟩
      · rw [hcount, hmod, hh]
        decide
      · rw [hcount, hmod]
        cases k.hash <;> decide
    exact Digest.compressed_replicate mac.current.inner hblock
      (Nat.lt_of_le_of_lt (Nat.add_le_add_left hlast _) hopen) n

/-- A tag in uniform time takes the work of the size that is worked for, whatever the size of the
message, except for SSL 3.0 under SHA-1. There it does if and only if the two sizes are both, or
neither of them, within four bytes behind the end of a block. -/
theorem work_uniform_iff (hk : KeyStrings.of a key = .ok k)
    (hkey : ∀ h, a = .ssl3 h → key.length = h.size) (v : Version) (truncated : Bool) (id : Bytes)
    (hle : size ≤ fullSize)
    (hf : (new v truncated (.ofStrings a k)).headerSize id + fullSize + k.hash.lengthSize <
      Size.bound) :
    let m := new v truncated (.ofStrings a k)
    let absorbed := m.mac.template.inner.count
    let head := m.headerSize id
    (∀ h, a = .hmac h → absorbed = h.blockSize) ∧
      (a = .ssl3 .md5 → absorbed = 64) ∧ (a = .ssl3 .sha1 → absorbed = 60) ∧
      (∀ string, k.work string = k.hash.blocks (absorbed + string.length)) ∧
      ∃ n, m.dummyBlocks head size fullSize = .ok n ∧
        (∀ dummy : Bytes, k.hash.blockSize ≤ dummy.length →
          let block := dummy.take m.mac.blockSize
          let fed := (List.replicate n block).flatten ++ dummy.take 1
          (feed block n m.mac).update (dummy.take 1) = m.mac.update fed ∧
            m.mac.current.inner.compressed fed = n) ∧
        (k.hash.blocks (absorbed + (head + size)) + n =
            k.hash.blocks (absorbed + (head + fullSize)) ↔
          (a = .ssl3 .sha1 → ((head + size + 8) % 64 < 4 ↔ (head + fullSize + 8) % 64 < 4))) := by
  intro m absorbed head
  have habs : absorbed = k.inner.length := Mac.count_ofStrings a k
  have hreach : head + max size fullSize + m.mac.lengthSize < Size.bound := by
    rwa [Nat.max_eq_right hle]
  have hvalues : (∀ h, a = .hmac h → k.inner.length = h.blockSize) ∧
      (a = .ssl3 .md5 → k.inner.length = 64) ∧ (a = .ssl3 .sha1 → k.inner.length = 60) := by
    rcases KeyStrings.length_inner_of hk hkey with
      ⟨h, rfl, -, hlen⟩ | ⟨rfl, -, hlen⟩ | ⟨rfl, -, hlen⟩
    · exact ⟨by rintro _ ⟨⟩; exact hlen, by rintro ⟨⟩, by rintro ⟨⟩⟩
    · exact ⟨by rintro _ ⟨⟩, fun _ => hlen, by rintro ⟨⟩⟩
    · exact ⟨by rintro _ ⟨⟩, by rintro ⟨⟩, fun _ => hlen⟩
  rw [habs]
  obtain ⟨hhmac, hmd5, hsha1⟩ := hvalues
  exact ⟨hhmac, hmd5, hsha1, k.work_eq, _,
    (m.dummyBlocks_eq head size fullSize).trans (if_pos hreach),
    fun _ hdummy => compressed_feed hk hkey hdummy _,
    KeyStrings.blocks_eq_iff hk hkey (Nat.add_le_add_left hle head)⟩

theorem work_uniform_ssl30 :
    let k := KeyStrings.ssl3 .sha1 (Bytes.zeros 20)
    ∃ n, KeyStrings.of (.ssl3 .sha1) (Bytes.zeros 20) = .ok k ∧
      (new .ssl30 false (.ofStrings (.ssl3 .sha1) k)).dummyBlocks 11 44 60 = .ok n ∧
        Hash.sha1.blocks (60 + (11 + 44)) + n = Hash.sha1.blocks (60 + (11 + 60)) := by
  intro k
  have hk : KeyStrings.of (.ssl3 .sha1) (Bytes.zeros 20) = .ok k := rfl
  obtain ⟨-, -, habs, -, n, hn, -, hiff⟩ :=
    work_uniform_iff hk (by rintro h ⟨⟩; rfl) .ssl30 false [] (by decide : 44 ≤ 60) (by decide)
  rw [habs rfl] at hiff
  exact ⟨n, hk, hn, hiff.mpr fun _ => by decide⟩

/-- The tag of 47 bytes in the same record takes a block less: no dummy block makes up for the one
that 60 bytes complete. -/
theorem work_not_uniform :
    let k := KeyStrings.ssl3 .sha1 (Bytes.zeros 20)
    let m := new .ssl30 false (.ofStrings (.ssl3 .sha1) k)
    KeyStrings.of (.ssl3 .sha1) (Bytes.zeros 20) = .ok k ∧ m.mac.template.inner.count = 60 ∧
      m.headerSize [] = 11 ∧ m.dummyBlocks 11 47 60 = .ok 0 ∧
        (∀ string : Bytes, string.length = 11 + 47 → k.work string + 0 = 2) ∧
        ∀ string : Bytes, string.length = 11 + 60 → k.work string = 3 := by
  intro k m
  have hlen : k.inner.length = 60 := KeyStrings.length_inner_ssl3 .sha1 (Bytes.zeros 20)
  have hwork (n : Nat) (string : Bytes) (hs : string.length = n) :
      k.work string = Hash.sha1.blocks (60 + n) := by
    rw [KeyStrings.work_eq, hlen, hs]
    rfl
  have hlength : m.mac.lengthSize = 8 := show Hash.sha1.lengthSize = 8 from rfl
  have hblock : m.mac.blockSize = 64 := show Hash.sha1.blockSize = 64 from rfl
  refine ⟨rfl, (Mac.count_ofStrings _ k).trans hlen, rfl, ?_, ?_, ?_⟩
  · rw [dummyBlocks_eq, hlength, hblock]
    rfl
  · intro string hs
    rw [hwork _ string hs, Hash.blocks_eq]
    rfl
  · intro string hs
    rw [hwork _ string hs, Hash.blocks_eq]
    rfl

end RecordMac

end RecordLayer
