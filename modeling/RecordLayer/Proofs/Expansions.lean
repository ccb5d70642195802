import RecordLayer.KeySchedule.SecretStore
import RecordLayer.Proofs.Construction

/-! # Expansions

What a master secret expands to is the start of a sequence of blocks that does not depend on the
number of bytes asked for. A request for fewer bytes gives the start of what a request for more
bytes gives.
-/

namespace RecordLayer

variable {block : Nat → Bytes} {data data' : Bytes} {k len n : Nat}

/-- The string is the first `len` bytes of the blocks, put one after the other. -/
structure Bytes.StartOf (block : Nat → Bytes) (len : Nat) (data : Bytes) : Prop where
  length : data.length = len
  start : ∃ n, data <+: (List.range n).flatMap block

namespace Bytes

theorem flatMap_range_start (block : Nat → Bytes) (h : k ≤ n) :
    (List.range k).flatMap block <+: (List.range n).flatMap block := by
  induction h with
  | refl => exact List.prefix_rfl
  | @step n _ ih =>
    refine ih.trans ⟨block n, ?_⟩
    rw [List.range_succ, List.flatMap_append, List.flatMap_singleton]

namespace StartOf

theorem take (h : StartOf block len data) (hk : k ≤ len) : StartOf block k (data.take k) := by
  obtain ⟨rfl, n, hn⟩ := h
  have htake : data.take k <+: data := List.take_prefix k data
  exact ⟨by rw [List.length_take, Nat.min_eq_left hk], n, htake.trans hn⟩

theorem unique (h : StartOf block len data) (h' : StartOf block len data') : data = data' := by
  obtain ⟨hlen, n, hn⟩ := h
  obtain ⟨hlen', m, hm⟩ := h'
  have hn := hn.trans (flatMap_range_start block (Nat.le_max_left n m))
  have hm := hm.trans (flatMap_range_start block (Nat.le_max_right n m))
  have hle := List.prefix_of_prefix_length_le hn hm (by omega)
  exact hle.eq_of_length (by omega)

end StartOf

end Bytes

namespace Prf

variable {h : Hash} {f : Prf} {secret label seed clientRandom serverRandom random : Bytes}

/-- What block `i` of an expansion starts from: the seed, authenticated `i` times. -/
def chainValue (h : Hash) (secret seed : Bytes) : Nat → Bytes
  | 0 => seed
  | i + 1 => h.hmac secret (chainValue h secret seed i)

def expansionBlock (h : Hash) (secret seed : Bytes) (i : Nat) : Bytes :=
  h.hmac secret (chainValue h secret seed (i + 1) ++ seed)

theorem finish_update_hmac (h : Hash) (secret message : Bytes) :
    ((Mac.hmac h secret).update message).finish =
      (h.hmac secret message, Mac.hmac h secret) :=
  Prod.ext (h.finish_update_hmac secret message) (Mac.fresh_ofStrings _ _).reset

theorem expandBlocks_eq (h : Hash) (secret seed : Bytes) (n i : Nat) :
    expandBlocks seed n (Mac.hmac h secret) (chainValue h secret seed (i + 1)) =
      (List.range n).map fun j => expansionBlock h secret seed (i + j) := by
  induction n generalizing i with
  | zero => rfl
  | succ n ih =>
    have hblock : (((Mac.hmac h secret).update (chainValue h secret seed (i + 1))).update
        seed).finish = (expansionBlock h secret seed i, Mac.hmac h secret) := by
      rw [expansionBlock, ← finish_update_hmac]
      simp only [Mac.update, NestedDigest.update_append]
    have hnext : ((Mac.hmac h secret).update (chainValue h secret seed (i + 1))).finish =
        (chainValue h secret seed (i + 2), Mac.hmac h secret) := finish_update_hmac ..
    simp only [expandBlocks, hblock, hnext, ih (i + 1), List.range_succ_eq_map, List.map_cons,
      List.map_map, Nat.add_zero]
    refine congrArg (expansionBlock h secret seed i :: ·) (List.map_congr_left fun j _ => ?_)
    exact congrArg (expansionBlock h secret seed) (by simp only [Nat.succ_eq_add_one]; omega)

theorem startOf_expand (h : Hash) (secret seed : Bytes) (len : Nat) :
    Bytes.StartOf (expansionBlock h secret seed) len (expand h secret seed len) := by
  refine ⟨length_expand h secret seed len, pieceCount h.size len, ?_⟩
  have hfirst : ((Mac.hmac h secret).update seed).finish =
      (chainValue h secret seed 1, Mac.hmac h secret) := finish_update_hmac ..
  simp only [expand, hfirst, expandBlocks_eq, Nat.zero_add, ← List.flatMap_def]
  exact List.take_prefix _ _

theorem eq_expand_iff : data = expand h secret seed len ↔
    Bytes.StartOf (expansionBlock h secret seed) len data := by
  constructor
  · rintro rfl
    exact startOf_expand h secret seed len
  · intro hdata
    exact hdata.unique (startOf_expand h secret seed len)

/-- The parts of a secret that are as long as half of it and begin and end it. They share a byte if
the length is odd. -/
structure Halves (secret first last : Bytes) : Prop where
  begins : first <+: secret
  ends : last <:+ secret
  length_first : first.length = (secret.length + 1) / 2
  length_last : last.length = (secret.length + 1) / 2

theorem halves_iff {first last : Bytes} : Halves secret first last ↔
    first = secret.take ((secret.length + 1) / 2) ∧
      last = secret.drop (secret.length - (secret.length + 1) / 2) := by
  constructor
  · rintro ⟨hfirst, hlast, hlen, hlen'⟩
    rw [← hlen]
    refine ⟨List.prefix_iff_eq_take.mp hfirst, ?_⟩
    rw [hlen, ← hlen']
    exact List.suffix_iff_eq_drop.mp hlast
  · rintro ⟨rfl, rfl⟩
    refine ⟨?_, List.drop_suffix _ _, ?_, ?_⟩
    · exact List.take_prefix _ _
    · rw [List.length_take]
      omega
    · rw [List.length_drop]
      omega

/-- What the labelled functions give, in terms of the blocks of their expansions. -/
inductive Expands (secret seed : Bytes) (len : Nat) : Prf → Bytes → Prop
  | tls10 {first last x y : Bytes} (hhalves : Halves secret first last)
    (hx : Bytes.StartOf (expansionBlock .md5 first seed) len x)
    (hy : Bytes.StartOf (expansionBlock .sha1 last seed) len y) :
    Expands secret seed len .tls10 (Bytes.xor x y)
  | tls12 {h : Hash} {data : Bytes}
    (hdata : Bytes.StartOf (expansionBlock h secret seed) len data) :
    Expands secret seed len (.tls12 h) data

theorem apply_eq_ok :
    f.apply secret label seed len = .ok data ↔ Expands secret (label ++ seed) len f data := by
  cases f with
  | ssl3 | tls13 h => exact iff_of_false (by rintro ⟨⟩) (by rintro ⟨⟩)
  | tls12 h =>
    rw [apply, Except.ok.injEq, eq_comm, eq_expand_iff]
    constructor
    · exact .tls12
    · rintro ⟨⟩
      assumption
  | tls10 =>
    constructor
    · intro happly
      obtain rfl := Except.ok.inj happly
      exact .tls10 (halves_iff.mpr ⟨rfl, rfl⟩) (startOf_expand ..) (startOf_expand ..)
    · intro hdata
      cases hdata with
      | tls10 hhalves hx hy =>
        obtain ⟨rfl, rfl⟩ := halves_iff.mp hhalves
        rw [← eq_expand_iff] at hx hy
        rw [hx, hy]
        rfl

theorem Expands.length (h : Expands secret seed len f data) : data.length = len := by
  cases h with
  | tls10 hhalves hx hy => rw [Bytes.length_xor, hx.length, hy.length, Nat.min_self]
  | tls12 hdata => exact hdata.length

theorem Expands.take (h : Expands secret seed len f data) (hk : k ≤ len) :
    Expands secret seed k f (data.take k) := by
  cases h with
  | tls10 hhalves hx hy =>
    rw [Bytes.xor, List.take_zipWith]
    exact .tls10 hhalves (hx.take hk) (hy.take hk)
  | tls12 hdata => exact .tls12 (hdata.take hk)

def ssl3Salt (r : Nat) : Bytes := List.replicate (r + 1) (UInt8.ofNat (65 + r))

def ssl3Block (secret random : Bytes) (r : Nat) : Bytes :=
  Hash.md5.digest (secret ++ Hash.sha1.digest (ssl3Salt r ++ secret ++ random))

theorem length_flatMap_ssl3Block (secret random : Bytes) (n : Nat) :
    ((List.range n).flatMap (ssl3Block secret random)).length = 16 * n := by
  induction n with
  | zero => rfl
  | succ n ih =>
    have hblock : (ssl3Block secret random n).length = 16 := Hash.length_digest ..
    rw [List.range_succ, List.flatMap_append, List.flatMap_singleton, List.length_append, ih,
      hblock, Nat.mul_succ]

/-- The rounds as far as the output is too short, with a letter and a number of one byte each. -/
def ssl3Rounds (secret random : Bytes) (len : Nat) (round : UInt8) (out : Bytes) :
    Except Fault Bytes :=
  if out.length < len then
    if 65 + round.toNat < 256 ∧ round.toNat + 1 < 256 then
      let salt := List.replicate (round.toNat + 1) (65 + round)
      ssl3Rounds secret random len (round + 1)
        (out ++ Hash.md5.digest (secret ++ Hash.sha1.digest (salt ++ secret ++ random)))
    else .error .sizeOverflow
  else .ok (out.take len)
termination_by len - out.length
decreasing_by
  rw [List.length_append, Hash.length_digest]
  simp only [Hash.size]
  omega

theorem ssl3Rounds_eq (hlen : len ≤ ssl3Limit) {r : Nat} (hr : r + k = 26) :
    ssl3Rounds secret random len (UInt8.ofNat r)
        ((List.range r).flatMap (ssl3Block secret random)) =
      .ok (((List.range 26).flatMap (ssl3Block secret random)).take len) := by
  unfold ssl3Limit at hlen
  -- The induction is over the rounds that are left: after the last one no output is too short.
  induction k generalizing r with
  | zero =>
    obtain rfl : r = 26 := hr
    have hsize := length_flatMap_ssl3Block secret random 26
    rw [ssl3Rounds, if_neg (by omega)]
  | succ k ih =>
    have hsize := length_flatMap_ssl3Block secret random r
    rw [ssl3Rounds]
    split
    · have hround : (UInt8.ofNat r).toNat = r := UInt8.toNat_ofNat_of_lt' (by
        unfold UInt8.size
        omega)
      have hletter : 65 + UInt8.ofNat r = UInt8.ofNat (65 + r) := (UInt8.ofNat_add 65 r).symm
      have hnext : UInt8.ofNat r + 1 = UInt8.ofNat (r + 1) := (UInt8.ofNat_add r 1).symm
      have hout : (List.range r).flatMap (ssl3Block secret random) ++ ssl3Block secret random r =
          (List.range (r + 1)).flatMap (ssl3Block secret random) := by
        rw [List.range_succ, List.flatMap_append, List.flatMap_singleton]
      rw [hround, if_pos (by omega), hletter, hnext]
      exact (congrArg _ hout).trans (ih (by omega))
    · rename_i hlong
      have hle : r ≤ 26 := by omega
      obtain ⟨rest, hrest⟩ := Bytes.flatMap_range_start (ssl3Block secret random) hle
      rw [← hrest, List.take_append_of_le_length (by omega)]

theorem ssl3KeyBlock_eq_ok : ssl3KeyBlock secret random len = .ok data ↔
    len ≤ ssl3Limit ∧ data = ((List.range 26).flatMap (ssl3Block secret random)).take len := by
  unfold ssl3KeyBlock
  split
  · rename_i hlong
    exact iff_of_false (by rintro ⟨⟩) fun h => Nat.not_le.mpr hlong h.1
  · rename_i hlen
    have hlen := Nat.not_lt.mp hlen
    have hpieces : pieceCount 16 len ≤ 26 := by
      unfold ssl3Limit at hlen
      unfold pieceCount
      omega
    have hcover : len ≤ pieceCount 16 len * 16 := le_pieceCount_mul (by decide)
    have htake : ((List.range (pieceCount 16 len)).flatMap (ssl3Block secret random)).take len =
        ((List.range 26).flatMap (ssl3Block secret random)).take len := by
      obtain ⟨rest, hrest⟩ := Bytes.flatMap_range_start (ssl3Block secret random) hpieces
      rw [← hrest, List.take_append_of_le_length]
      rw [length_flatMap_ssl3Block]
      omega
    refine Iff.trans ?_ (and_iff_right hlen).symm
    rw [← htake, Except.ok.injEq]
    exact eq_comm

theorem ssl3KeyBlock_eq_ok_iff_rounds : ssl3KeyBlock secret random len = .ok data ↔
    len ≤ ssl3Limit ∧ ssl3Rounds secret random len 0 [] = .ok data := by
  rw [ssl3KeyBlock_eq_ok]
  refine and_congr_right fun hlen => ?_
  have hrounds : ssl3Rounds secret random len 0 [] =
      .ok (((List.range 26).flatMap (ssl3Block secret random)).take len) :=
    ssl3Rounds_eq hlen (Nat.zero_add 26)
  rw [hrounds, Except.ok.injEq]
  exact eq_comm

theorem keyBlock_of_ne (hf : f ≠ .ssl3) : f.keyBlock secret clientRandom serverRandom len =
    f.apply secret (Bytes.ofText "key expansion") (serverRandom ++ clientRandom) len := by
  cases f with
  | ssl3 => exact absurd rfl hf
  | tls10 | tls12 h | tls13 h => rfl

theorem keyBlock_eq_ok : f.keyBlock secret clientRandom serverRandom len = .ok data ↔
    (f = .ssl3 ∧ ssl3KeyBlock secret (serverRandom ++ clientRandom) len = .ok data) ∨
      Expands secret (Bytes.ofText "key expansion" ++ (serverRandom ++ clientRandom)) len
        f data := by
  by_cases hf : f = .ssl3
  · subst hf
    exact (or_iff_left_of_imp (by rintro ⟨⟩)).symm.trans (or_congr_left (and_iff_right rfl).symm)
  · rw [keyBlock_of_ne hf, apply_eq_ok]
    exact (or_iff_right fun hssl => hf hssl.1).symm

theorem evaluate_eq_ok_iff {result : Except CryptoError Bytes} :
    f.evaluate secret label seed len = .ok result ↔
      label.length + seed.length ≤ Size.capacity ∧ len ≤ Size.capacity ∧
        f.apply secret label seed len = result := by
  simp only [evaluate, bind_eq_ok, pure_eq_ok]
  constructor
  · rintro ⟨⟨⟩, hseed, ⟨⟩, hlen, happly⟩
    exact ⟨Size.reserve_eq_ok.mp hseed, Size.reserve_eq_ok.mp hlen, happly⟩
  · rintro ⟨hseed, hlen, happly⟩
    exact ⟨(), Size.reserve_eq_ok.mpr hseed, (), Size.reserve_eq_ok.mpr hlen, happly⟩

theorem take_keyBlock (h : f.keyBlock secret clientRandom serverRandom len = .ok data)
    (hk : k ≤ len) : f.keyBlock secret clientRandom serverRandom k = .ok (data.take k) := by
  rw [keyBlock_eq_ok] at h ⊢
  rcases h with ⟨hf, hdata⟩ | hdata
  · obtain ⟨hlen, rfl⟩ := ssl3KeyBlock_eq_ok.mp hdata
    refine Or.inl ⟨hf, ssl3KeyBlock_eq_ok.mpr ⟨Nat.le_trans hk hlen, ?_⟩⟩
    rw [List.take_take, Nat.min_eq_left hk]
  · exact Or.inr (hdata.take hk)

theorem length_of_keyBlock (h : f.keyBlock secret clientRandom serverRandom len = .ok data) :
    data.length = len := by
  rcases keyBlock_eq_ok.mp h with ⟨-, hdata⟩ | hdata
  · obtain ⟨hlen, rfl⟩ := ssl3KeyBlock_eq_ok.mp hdata
    rw [List.length_take, length_flatMap_ssl3Block]
    exact Nat.min_eq_left hlen
  · exact hdata.length

end Prf

theorem Secret.keyBlock_eq_ok {s : Secret} {f : Prf} {clientRandom serverRandom : Bytes} :
    s.keyBlock f clientRandom serverRandom len = .ok data ↔
      ∃ secret, s = .new secret ∧ f.keyBlock secret clientRandom serverRandom len = .ok data := by
  obtain ⟨material⟩ := s
  cases material with
  | none => exact iff_of_false (by rintro ⟨⟩) (by rintro ⟨_, ⟨⟩, -⟩)
  | some secret =>
    simp only [keyBlock, read, ok_bind]
    constructor
    · intro hdata
      exact ⟨secret, rfl, hdata⟩
    · rintro ⟨_, ⟨⟩, hdata⟩
      exact hdata

theorem SecretStore.step_keyBlock (store : SecretStore) (slot : Nat) (f : Prf)
    (clientRandom serverRandom : Bytes) (len : Nat) :
    (store.step (.use slot (.keyBlock f clientRandom serverRandom len))).2 = store := by
  simp only [step]
  cases store[slot]? <;> rfl

/-- Whatever a secret expands to is given by blocks, under each function by its own. A key block has
the length that was asked for and begins with every shorter one, and the secret can be used
again. -/
theorem Prf.expansion_reference (h : Hash) (secret label seed clientRandom serverRandom : Bytes)
    (len : Nat) (data : Bytes) :
    (data = expand h secret seed len ↔
      Bytes.StartOf (expansionBlock h secret seed) len data) ∧
    (∀ f : Prf, f.apply secret label seed len = .ok data ↔
      Expands secret (label ++ seed) len f data) ∧
    (∀ f : Prf, f.evaluate secret label seed len = .ok (.ok data) ↔
      label.length + seed.length ≤ Size.capacity ∧ len ≤ Size.capacity ∧
        Expands secret (label ++ seed) len f data) ∧
    (ssl3KeyBlock secret seed len = .ok data ↔
      len ≤ 416 ∧ data = ((List.range 26).flatMap (ssl3Block secret seed)).take len) ∧
    (ssl3KeyBlock secret seed len = .ok data ↔
      len ≤ 416 ∧ ssl3Rounds secret seed len 0 [] = .ok data) ∧
    (∀ (f : Prf) (s : Secret), s.keyBlock f clientRandom serverRandom len = .ok data →
      data.length = len ∧ s.isAlive = true ∧
        ∀ k ≤ len, s.keyBlock f clientRandom serverRandom k = .ok (data.take k)) ∧
    ∀ (f : Prf) (store : SecretStore) (slot : Nat),
      (store.step (.use slot (.keyBlock f clientRandom serverRandom len))).2 = store := by
  refine ⟨eq_expand_iff, fun f => apply_eq_ok, fun f => ?_, ssl3KeyBlock_eq_ok,
    ssl3KeyBlock_eq_ok_iff_rounds, ?_,
    fun f store slot => store.step_keyBlock slot f clientRandom serverRandom len⟩
  · rw [evaluate_eq_ok_iff, apply_eq_ok]
  · intro f s hs
    obtain ⟨material, rfl, hdata⟩ := Secret.keyBlock_eq_ok.mp hs
    refine ⟨length_of_keyBlock hdata, rfl, ?_⟩
    intro k hk
    exact Secret.keyBlock_eq_ok.mpr ⟨material, rfl, take_keyBlock hdata hk⟩

theorem Prf.expansion_reference_tls10 : ∃ data,
    (Secret.new (Bytes.zeros 48)).keyBlock .tls10 (Bytes.zeros 32) (Bytes.zeros 32) 104 =
        .ok data ∧ data.length = 104 ∧
      (Secret.new (Bytes.zeros 48)).keyBlock .tls10 (Bytes.zeros 32) (Bytes.zeros 32) 40 =
        .ok (data.take 40) := by
  have hlimit : 104 ≤ ssl3Limit := by decide
  have hf (h : Hash) : tls10 ≠ .tls13 h := by rintro ⟨⟩
  obtain ⟨data, hdata, -⟩ := exists_keyBlock hf (Bytes.zeros 48) (Bytes.zeros 32) (Bytes.zeros 32)
    hlimit
  have hsecret := Secret.keyBlock_eq_ok.mpr ⟨_, rfl, hdata⟩
  obtain ⟨hlen, -, hshorter⟩ := (expansion_reference .sha1 [] [] [] (Bytes.zeros 32)
    (Bytes.zeros 32) 104 data).2.2.2.2.2.1 .tls10 _ hsecret
  exact ⟨data, hsecret, hlen, hshorter 40 (by decide)⟩

end RecordLayer
