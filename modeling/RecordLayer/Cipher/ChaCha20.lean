import RecordLayer.Hash.Words

/-! # ChaCha20

The block function of ChaCha20. The state is a square of four rows, and a quarter round on
columns, done in all four columns at once, mixes the rows.
-/

namespace RecordLayer.ChaCha20
open Words

structure Row where
  (a b c d : UInt32)

namespace Row

def add (x y : Row) : Row := ⟨x.a + y.a, x.b + y.b, x.c + y.c, x.d + y.d⟩

def xorRotate (n : UInt32) (x y : Row) : Row :=
  let f (u v : UInt32) := rotateLeft32 n (u ^^^ v)
  ⟨f x.a y.a, f x.b y.b, f x.c y.c, f x.d y.d⟩

def turn (x : Row) : Row := ⟨x.b, x.c, x.d, x.a⟩

def bytes (x : Row) : Bytes := [x.a, x.b, x.c, x.d].flatMap fun w => Bytes.le 4 w.toNat

def ofBytes (x : Bytes) : Row :=
  let w := (le32 (x.take 16)).toArray
  ⟨w.getD 0 0, w.getD 1 0, w.getD 2 0, w.getD 3 0⟩

end Row

structure State where
  (p q r s : Row)

namespace State

def columnRound (x : State) : State :=
  let p := x.p.add x.q
  let s := x.s.xorRotate 16 p
  let r := x.r.add s
  let q := x.q.xorRotate 12 r
  let p := p.add q
  let s := s.xorRotate 8 p
  let r := r.add s
  let q := q.xorRotate 7 r
  ⟨p, q, r, s⟩

def doubleRound (x : State) : State :=
  let y := columnRound x
  let z := columnRound ⟨y.p, y.q.turn, y.r.turn.turn, y.s.turn.turn.turn⟩
  ⟨z.p, z.q.turn.turn.turn, z.r.turn.turn, z.s.turn⟩

/-- The state after twenty rounds, added to the state before them. -/
def scramble (x : State) : State :=
  let y := (List.range 10).foldl (fun y _ => doubleRound y) x
  ⟨x.p.add y.p, x.q.add y.q, x.r.add y.r, x.s.add y.s⟩

def bytes (x : State) : Bytes := x.p.bytes ++ x.q.bytes ++ x.r.bytes ++ x.s.bytes

end State

def constants : Row := ⟨0x61707865, 0x3320646e, 0x79622d32, 0x6b206574⟩

def block (key : Bytes) (last : Row) : Bytes :=
  (State.scramble ⟨constants, .ofBytes key, .ofBytes (key.drop 16), last⟩).bytes

/-- `count` blocks of key stream from block number `start`, for a nonce of 12 bytes. -/
def keystream (key nonce : Bytes) (start count : Nat) : Bytes :=
  (List.range count).flatMap fun i => block key (.ofBytes (Bytes.le 4 (start + i) ++ nonce))

@[simp] theorem length_block (key : Bytes) (last : Row) : (block key last).length = 64 := by
  simp [block, State.bytes, Row.bytes]

end RecordLayer.ChaCha20
