/-! # Roles

The two ends of a connection, and the two directions of either end.
-/

namespace RecordLayer

inductive Role
  | client
  | server
  deriving DecidableEq, Repr

namespace Role

def peer : Role → Role
  | client => server
  | server => client

def isServer : Role → Bool
  | client => false
  | server => true

@[simp] theorem peer_peer (r : Role) : r.peer.peer = r := by cases r <;> rfl

theorem peer_ne (r : Role) : r.peer ≠ r := by cases r <;> simp [peer]

theorem eq_or_eq_peer (q r : Role) : q = r ∨ q = r.peer := by
  cases q <;> cases r <;> decide

end Role

/-- A direction as one end sees it. -/
inductive Side
  | write
  | read

namespace Side

def other : Side → Side
  | write => read
  | read => write

/-- The end that writes what `r` writes or reads there. -/
def owner (r : Role) : Side → Role
  | write => r
  | read => r.peer

theorem eq_or_eq_other (side side' : Side) : side = side' ∨ side = side'.other := by
  cases side <;> cases side' <;> first | exact Or.inl rfl | exact Or.inr rfl

theorem exists_owner (r owner : Role) : ∃ side, Side.owner r side = owner := by
  rcases owner.eq_or_eq_peer r with rfl | rfl
  · exact ⟨write, rfl⟩
  · exact ⟨read, rfl⟩

theorem owner_other (r : Role) (side : Side) : side.other.owner r = (side.owner r).peer := by
  cases side
  · rfl
  · exact r.peer_peer.symm

end Side

end RecordLayer
