import RecordLayer.Cipher.ChaCha20
import RecordLayer.Failure

/-! # Randomness

Where random bytes come from: a ChaCha20 key stream that a seed determines, or a script of answers.
A draw from the key stream takes whole words and discards the rest of the last one. A script can
refuse a draw for any cause, and answer the next one.
-/

namespace RecordLayer

/-- What a source answers. It can depend on all requests so far, refused ones included, with the
last one first, and on the number of bytes drawn. -/
structure Script where
  answer : List Nat → Nat → (n : Nat) → Except CryptoError { b : Bytes // b.length = n }
  requests : List Nat

namespace Script

def note (s : Script) (n : Nat) : Script := { s with requests := n :: s.requests }

/-- Bytes to be handed out in order. A request for more than are left is refused. -/
def ofBytes (data : Bytes) (failure : CryptoError) : Script where
  answer _ used n :=
    if h : used + n ≤ data.length then
      .ok ⟨(data.drop used).take n, by rw [List.length_take, List.length_drop]; omega⟩
    else .error failure
  requests := []

end Script

inductive Randomness
  /-- The key stream of a seed, from a position counted in words. -/
  | seeded (seed : UInt64) (position : Nat)
  /-- A script, with the number of bytes already taken. -/
  | script (s : Script) (used : Nat)

namespace Randomness

def nextState (s : UInt64) : UInt64 := s * 6364136223846793005 + 11634580027462260723

def stateWord (s : UInt64) : UInt32 :=
  Words.rotateRight32 (s >>> 59).toUInt32 (((s >>> 18) ^^^ s) >>> 27).toUInt32

def spread : Nat → UInt64 → Bytes
  | 0, _ => []
  | n + 1, s => Bytes.le 4 (stateWord (nextState s)).toNat ++ spread n (nextState s)

def streamWords (seed : UInt64) (i count : Nat) : Bytes :=
  let key := spread 8 seed
  let block (j : Nat) := ChaCha20.block key (.ofBytes (Bytes.le 8 j ++ Bytes.zeros 8))
  let first := i / 16
  let blocks := (List.range ((i % 16 + count + 15) / 16)).flatMap fun j => block (first + j)
  (blocks.drop (4 * (i % 16))).take (4 * count)

def ofSeed (seed : UInt64) : Randomness := seeded seed 0

/-- Bytes to be handed out in order, after some requests. -/
def ofBytes (data : Bytes) (failure : CryptoError) (requests : List Nat) (used : Nat) :
    Randomness := script { Script.ofBytes data failure with requests } used

def ofScript (data : Bytes) : Randomness := ofBytes data .randomness [] 0

def draw (r : Randomness) (n : Nat) : Except CryptoError (Bytes × Randomness) :=
  match r with
  | seeded seed i =>
    let words := (n + 3) / 4
    .ok ((streamWords seed i words).take n, seeded seed (i + words))
  | script s used => (fun bytes => (bytes.1, script (s.note n) (used + n))) <$>
    s.answer s.requests used n

def refused (r : Randomness) (n : Nat) : Randomness :=
  match r with
  | seeded seed i => seeded seed i
  | script s used => script (s.note n) used

def drawWord (r : Randomness) : Except CryptoError (UInt32 × Randomness) := do
  let (bytes, r) ← r.draw 4
  pure (UInt32.ofNat bytes.ofLe, r)

theorem draw_ofBytes (data : Bytes) (failure : CryptoError) (requests : List Nat) (used n : Nat) :
    (ofBytes data failure requests used).draw n =
      if used + n ≤ data.length then
        .ok ((data.drop used).take n, ofBytes data failure (n :: requests) (used + n))
      else .error failure := by
  simp only [draw, ofBytes, Script.ofBytes]
  split <;> rfl

/-- The number of bytes taken from a script. -/
def used? : Randomness → Option Nat
  | seeded _ _ => none
  | script _ used => some used

end Randomness

end RecordLayer
