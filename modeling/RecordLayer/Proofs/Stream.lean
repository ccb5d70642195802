import RecordLayer.Proofs.Established

/-! # Full-duplex streams

Both ends of a connection send, receive and update their keys in any order, and records arrive in
the order in which they were sent. As long as a key update finds both ends at the same record,
every record arrives as it was sent.
-/

namespace RecordLayer

open Connection (Settings)

@[simp] theorem Connection.endpoint_setEndpoint (c : Connection) (r : Role) (e : Endpoint) :
    (c.setEndpoint r e).endpoint r = e := by cases r <;> rfl

@[simp] theorem Connection.endpoint_setEndpoint_peer (c : Connection) (r : Role) (e : Endpoint) :
    (c.setEndpoint r e).endpoint r.peer = c.endpoint r.peer := by cases r <;> rfl

/-- A connection with the records on their way. -/
structure Duplex where
  connection : Connection
  /-- What `r` has sent and its peer has not received, oldest first, with what was sent. -/
  wires : Role → List (Bytes × Recovered)

/-- A step of one end. The direction is that of what `r` writes, also when its peer reads it. -/
inductive Action
  | send (r : Role) (t : ContentType) (plaintext : Bytes)
  | deliver (r : Role)
  | updateWrite (r : Role)
  | updateRead (r : Role)

namespace Action

def direction : Action → Role
  | send r _ _ | deliver r | updateWrite r | updateRead r => r

def written (r : Role) (a : Action) : List Item :=
  match a with
  | send q _ _ => if q = r then [.record] else []
  | updateWrite q => if q = r then [.update] else []
  | deliver _ | updateRead _ => []

def arrived (r : Role) (a : Action) : List Item :=
  match a with
  | deliver q => if q = r then [.record] else []
  | updateRead q => if q = r then [.update] else []
  | send _ _ _ | updateWrite _ => []

@[simp] theorem written_send (r : Role) (t : ContentType) (plaintext : Bytes) :
    (send r t plaintext).written r = [.record] := if_pos rfl

@[simp] theorem arrived_deliver (r : Role) : (deliver r).arrived r = [.record] := if_pos rfl

@[simp] theorem written_updateWrite (r : Role) : (updateWrite r).written r = [.update] :=
  if_pos rfl

@[simp] theorem arrived_updateRead (r : Role) : (updateRead r).arrived r = [.update] :=
  if_pos rfl

theorem written_peer {r : Role} (a : Action) (h : a.direction = r) : a.written r.peer = [] := by
  subst h
  cases a with
  | send r t plaintext | updateWrite r => exact if_neg r.peer_ne.symm
  | deliver r | updateRead r => rfl

theorem arrived_peer {r : Role} (a : Action) (h : a.direction = r) : a.arrived r.peer = [] := by
  subst h
  cases a with
  | send r t plaintext | updateWrite r => rfl
  | deliver r | updateRead r => exact if_neg r.peer_ne.symm

end Action

namespace Duplex

def start (c : Connection) : Duplex := ⟨c, fun _ => []⟩

def setWires (x : Duplex) (r : Role) (wires : List (Bytes × Recovered)) (q : Role) :
    List (Bytes × Recovered) := if q = r then wires else x.wires q

def step (x : Duplex) : Action → Duplex
  | .send r t plaintext =>
    match x.connection.send r t plaintext with
    | (.ok wire, c) => ⟨c, x.setWires r (x.wires r ++ [(wire, ⟨plaintext, t⟩)])⟩
    | (.error _, c) => ⟨c, x.wires⟩
  | .deliver r =>
    match x.wires r with
    | (wire, _) :: rest => ⟨(x.connection.receive r.peer wire).2, x.setWires r rest⟩
    | [] => x
  | .updateWrite r => ⟨(x.connection.updateWriteKeys r).2, x.wires⟩
  | .updateRead r => ⟨(x.connection.updateReadKeys r.peer).2, x.wires⟩

def run (x : Duplex) (actions : List Action) : Duplex := actions.foldl step x

/-- A send succeeds with a type that can be recovered, and a delivery has a record to deliver. Keys
are updated under traffic secrets only. -/
def Permits (x : Duplex) (s : Settings) : Action → Prop
  | .send r t plaintext => (∃ wire, (x.connection.send r t plaintext).1 = .ok wire) ∧
      ((x.connection.endpoint r).protection.writing.inner = true → t.code ≠ 0)
  | .deliver r => x.wires r ≠ []
  | .updateWrite _ | .updateRead _ => s.version.isTls13 = true

def Succeeds (x : Duplex) : Action → Prop
  | .send r t plaintext => ∃ wire, (x.connection.send r t plaintext).1 = .ok wire
  | .deliver r => ∃ wire sent rest, x.wires r = (wire, sent) :: rest ∧
      (x.connection.receive r.peer wire).1 = .ok sent
  | .updateWrite r => (x.connection.updateWriteKeys r).1 = .ok ()
  | .updateRead r => (x.connection.updateReadKeys r.peer).1 = .ok ()

variable {x y : Duplex} {s : Settings} {r : Role} {a : Action} {past actions : List Action}
  {t : ContentType} {plaintext : Bytes} {e : Endpoint} {wires : Role → List (Bytes × Recovered)}

@[simp] theorem setWires_self (x : Duplex) (r : Role) (wires : List (Bytes × Recovered)) :
    x.setWires r wires r = wires := if_pos rfl

@[simp] theorem setWires_peer (x : Duplex) (r : Role) (wires : List (Bytes × Recovered)) :
    x.setWires r wires r.peer = x.wires r.peer := if_neg r.peer_ne

def written (r : Role) (actions : List Action) : List Item := actions.flatMap (·.written r)

def arrived (r : Role) (actions : List Action) : List Item := actions.flatMap (·.arrived r)

theorem written_append (r : Role) (actions more : List Action) :
    written r (actions ++ more) = written r actions ++ written r more := List.flatMap_append

theorem arrived_append (r : Role) (actions more : List Action) :
    arrived r (actions ++ more) = arrived r actions ++ arrived r more := List.flatMap_append

theorem written_concat (r : Role) (actions : List Action) (a : Action) :
    written r (actions ++ [a]) = written r actions ++ a.written r := by simp [written]

theorem arrived_concat (r : Role) (actions : List Action) (a : Action) :
    arrived r (actions ++ [a]) = arrived r actions ++ a.arrived r := by simp [arrived]

/-- What holds between two steps: both ends serve the connection, and the records of both
directions are in order. -/
structure Invariant (x : Duplex) (s : Settings) (actions : List Action) : Prop where
  serves (r : Role) : (x.connection.endpoint r).Serves s r
  flow (r : Role) : Link.Flow s r (x.connection.endpoint r).writeLink
    (x.connection.endpoint r.peer).readLink (x.wires r) (written r actions) (arrived r actions)

theorem Invariant.serves_setEndpoint (h : x.Invariant s actions) (he : e.Serves s r)
    (q : Role) : ((x.connection.setEndpoint r e).endpoint q).Serves s q := by
  rcases q.eq_or_eq_peer r with rfl | rfl
  · rw [Connection.endpoint_setEndpoint]
    exact he
  · rw [Connection.endpoint_setEndpoint_peer]
    exact h.serves r.peer

theorem Invariant.writes (h : x.Invariant s actions) (ha : a.direction = r) (he : e.Serves s r)
    (hread : e.readLink = (x.connection.endpoint r).readLink)
    (hwires : wires r.peer = x.wires r.peer)
    (hflow : Link.Flow s r e.writeLink (x.connection.endpoint r.peer).readLink (wires r)
      (written r (actions ++ [a])) (arrived r (actions ++ [a]))) :
    Invariant ⟨x.connection.setEndpoint r e, wires⟩ s (actions ++ [a]) := by
  refine ⟨h.serves_setEndpoint he, ?_⟩
  intro q
  rcases q.eq_or_eq_peer r with rfl | rfl
  · rw [Connection.endpoint_setEndpoint, Connection.endpoint_setEndpoint_peer]
    exact hflow
  · have hpeer := h.flow r.peer
    rw [Role.peer_peer, ← hread, ← hwires] at hpeer
    rw [Role.peer_peer, Connection.endpoint_setEndpoint, Connection.endpoint_setEndpoint_peer,
      written_concat, arrived_concat, a.written_peer ha, a.arrived_peer ha, List.append_nil,
      List.append_nil]
    exact hpeer

theorem Invariant.reads (h : x.Invariant s actions) (ha : a.direction = r)
    (he : e.Serves s r.peer) (hwrite : e.writeLink = (x.connection.endpoint r.peer).writeLink)
    (hwires : wires r.peer = x.wires r.peer)
    (hflow : Link.Flow s r (x.connection.endpoint r).writeLink e.readLink (wires r)
      (written r (actions ++ [a])) (arrived r (actions ++ [a]))) :
    Invariant ⟨x.connection.setEndpoint r.peer e, wires⟩ s (actions ++ [a]) := by
  have hother : (x.connection.setEndpoint r.peer e).endpoint r = x.connection.endpoint r := by
    have hframe := x.connection.endpoint_setEndpoint_peer r.peer e
    rwa [Role.peer_peer] at hframe
  refine ⟨h.serves_setEndpoint he, ?_⟩
  intro q
  rcases q.eq_or_eq_peer r with rfl | rfl
  · rw [Connection.endpoint_setEndpoint, hother]
    exact hflow
  · have hpeer := h.flow r.peer
    rw [Role.peer_peer, ← hwrite, ← hwires] at hpeer
    rw [Role.peer_peer, Connection.endpoint_setEndpoint, hother, written_concat, arrived_concat,
      a.written_peer ha, a.arrived_peer ha, List.append_nil, List.append_nil]
    exact hpeer

theorem step_send {wire : Bytes} (hok : (x.connection.send r t plaintext).1 = .ok wire) :
    x.step (.send r t plaintext) =
      ⟨x.connection.setEndpoint r ((x.connection.endpoint r).send t plaintext).2,
        x.setWires r (x.wires r ++ [(wire, ⟨plaintext, t⟩)])⟩ := by
  have hsend : x.connection.send r t plaintext =
      (.ok wire, x.connection.setEndpoint r ((x.connection.endpoint r).send t plaintext).2) :=
    Prod.ext hok rfl
  rw [step, hsend]

theorem Invariant.send (h : x.Invariant s actions) (hid : AdditionalData.Holds (s.idOf r.peer))
    (hp : x.Permits s (.send r t plaintext))
    (hs : InStep (written r (actions ++ [.send r t plaintext]))
      (arrived r (actions ++ [.send r t plaintext]))) :
    (x.step (.send r t plaintext)).Invariant s (actions ++ [.send r t plaintext]) := by
  obtain ⟨⟨wire, hok⟩, ht⟩ := hp
  obtain ⟨hserves, hread, fragment, hb, hwrite⟩ := (h.serves r).send hid ht hok
  rw [written_concat, arrived_concat, Action.written_send, Action.arrived, List.append_nil] at hs
  rw [step_send hok]
  refine h.writes rfl hserves hread (x.setWires_peer ..) ?_
  rw [hwrite, setWires_self, written_concat, arrived_concat, Action.written_send, Action.arrived,
    List.append_nil]
  exact (h.flow r).write hb hs

theorem Invariant.deliver (h : x.Invariant s actions) (hp : x.Permits s (.deliver r))
    (hs : InStep (written r (actions ++ [.deliver r])) (arrived r (actions ++ [.deliver r]))) :
    x.Succeeds (.deliver r) ∧ (x.step (.deliver r)).Invariant s (actions ++ [.deliver r]) := by
  obtain ⟨⟨wire, sent⟩, rest, hwires⟩ := List.exists_cons_of_ne_nil hp
  rw [written_concat, arrived_concat, Action.arrived_deliver, Action.written, List.append_nil] at hs
  have hflow := h.flow r
  rw [hwires] at hflow
  obtain ⟨fragment, hb, hflow⟩ := hflow.arrive hs
  obtain ⟨hok, hserves, hwrite, hread⟩ := (h.serves r.peer).receive hb
  have hstep : x.step (.deliver r) =
      ⟨x.connection.setEndpoint r.peer ((x.connection.endpoint r.peer).receive wire).2,
        x.setWires r rest⟩ := by
    rw [step, hwires]
    rfl
  refine ⟨⟨wire, sent, rest, hwires, hok⟩, ?_⟩
  rw [hstep]
  refine h.reads rfl hserves hwrite (x.setWires_peer ..) ?_
  rw [hread, setWires_self, written_concat, arrived_concat, Action.arrived_deliver, Action.written,
    List.append_nil]
  exact hflow

theorem Invariant.updateWrite (h : x.Invariant s actions) (hp : x.Permits s (.updateWrite r)) :
    x.Succeeds (.updateWrite r) ∧
      (x.step (.updateWrite r)).Invariant s (actions ++ [.updateWrite r]) := by
  obtain ⟨l, hl, hflow⟩ := (h.flow r).updateWrite hp
  obtain ⟨hok, hserves, hread, rfl⟩ := (h.serves r).updateKeys hp .write hl
  refine ⟨hok, h.writes rfl hserves hread rfl ?_⟩
  rw [written_concat, arrived_concat, Action.written_updateWrite, Action.arrived, List.append_nil]
  exact hflow

theorem Invariant.updateRead (h : x.Invariant s actions) (hp : x.Permits s (.updateRead r))
    (hs : InStep (written r (actions ++ [.updateRead r]))
      (arrived r (actions ++ [.updateRead r]))) :
    x.Succeeds (.updateRead r) ∧
      (x.step (.updateRead r)).Invariant s (actions ++ [.updateRead r]) := by
  rw [written_concat, arrived_concat, Action.arrived_updateRead, Action.written,
    List.append_nil] at hs
  obtain ⟨l, hl, hflow⟩ := (h.flow r).updateRead hp hs
  obtain ⟨hok, hserves, hwrite, rfl⟩ := (h.serves r.peer).updateKeys hp .read hl
  refine ⟨hok, h.reads rfl hserves hwrite rfl ?_⟩
  rw [written_concat, arrived_concat, Action.arrived_updateRead, Action.written, List.append_nil]
  exact hflow

/-- One step, as long as no key update is overtaken. -/
theorem Invariant.step (h : x.Invariant s actions) (hid : ∀ r, AdditionalData.Holds (s.idOf r))
    (hp : x.Permits s a)
    (hs : ∀ r, InStep (written r (actions ++ [a])) (arrived r (actions ++ [a]))) :
    x.Succeeds a ∧ (x.step a).Invariant s (actions ++ [a]) := by
  cases a with
  | send r t plaintext => exact ⟨hp.1, h.send (hid r.peer) hp (hs r)⟩
  | deliver r => exact h.deliver hp (hs r)
  | updateWrite r => exact h.updateWrite hp
  | updateRead r => exact h.updateRead hp (hs r)

theorem Invariant.run {past : List Action} (hid : ∀ r, AdditionalData.Holds (s.idOf r))
    (h : x.Invariant s past)
    (hp : ∀ front a back, actions = front ++ a :: back → (x.run front).Permits s a)
    (hs : ∀ r, InStep (written r (past ++ actions)) (arrived r (past ++ actions))) :
    (x.run actions).Invariant s (past ++ actions) := by
  induction actions generalizing x past with
  | nil =>
    rw [List.append_nil]
    exact h
  | cons a actions ih =>
    have hsplit : past ++ a :: actions = past ++ [a] ++ actions := by rw [List.append_assoc]; rfl
    have hnow (r : Role) : InStep (written r (past ++ [a])) (arrived r (past ++ [a])) := by
      have hr := hs r
      rw [hsplit, written_append, arrived_append] at hr
      exact hr.of_append
    obtain ⟨-, hstep⟩ := h.step hid (hp [] a actions rfl) hnow
    rw [hsplit] at hs ⊢
    exact ih hstep (fun front b back hf => hp (a :: front) b back (by rw [hf]; rfl)) hs

theorem invariant_start {c : Connection} (hsuite : s.suite ∈ CipherSuite.all)
    (hid : ∀ r, AdditionalData.Holds (s.idOf r)) (h : Connection.establish s = .ok c) :
    (start c).Invariant s [] := by
  constructor
  · intro r
    exact (Connection.serves_of_establish hsuite hid h r).1
  · intro r
    obtain ⟨-, hlink, hseq, hu⟩ := Connection.serves_of_establish hsuite hid h r
    change Link.Flow s r (c.endpoint r).writeLink (c.endpoint r.peer).readLink [] [] []
    rw [hlink]
    exact .start hseq hu

/-- Every interleaving of both ends delivers what was sent, and both ends count the records since
the last key update. -/
theorem stream_integrity {c : Connection} (hsuite : s.suite ∈ CipherSuite.all)
    (hest : Connection.establish s = .ok c) (hid : ∀ r, AdditionalData.Holds (s.idOf r))
    (hp : ∀ front a back, actions = front ++ a :: back → ((start c).run front).Permits s a)
    (hs : ∀ r, InStep (written r actions) (arrived r actions)) :
    (∀ front a back, actions = front ++ a :: back → ((start c).run front).Succeeds a) ∧
      ∀ front back, actions = front ++ back → ∀ r,
        (((start c).run front).connection.endpoint r).writeSeq.toNat =
            recordsFrom 0 (written r front) ∧
          (((start c).run front).connection.endpoint r.peer).readSeq.toNat =
            recordsFrom 0 (arrived r front) := by
  have hfront (front back : List Action) (hsplit : actions = front ++ back) :
      ((start c).run front).Invariant s front := by
    apply (invariant_start hsuite hid hest).run hid
    · intro done a rest hd
      exact hp done a (rest ++ back) (by rw [hsplit, hd, List.append_assoc]; rfl)
    · intro r
      have hr := hs r
      rw [hsplit, written_append, arrived_append] at hr
      exact hr.of_append
  constructor
  · intro front a back hsplit
    have h := hfront front (a :: back) hsplit
    refine (h.step hid (hp front a back hsplit) ?_).1
    intro r
    have hr := hs r
    rw [hsplit, List.append_cons, written_append, arrived_append] at hr
    exact hr.of_append
  · intro front back hsplit r
    have h := (hfront front back hsplit).flow r
    exact ⟨h.writeSeq, h.readSeq⟩

theorem permits_cons (h : x.Permits s a)
    (ht : ∀ front b back, actions = front ++ b :: back → ((x.step a).run front).Permits s b) :
    ∀ front b back, a :: actions = front ++ b :: back → (x.run front).Permits s b := by
  rintro (_ | ⟨a', front⟩) b back hsplit
  · obtain ⟨rfl, -⟩ := List.cons.inj hsplit
    exact h
  · obtain ⟨rfl, hrest⟩ := List.cons.inj hsplit
    exact ht front b back hrest

/-- A key update of the client while a record is on its way. -/
theorem stream_integrity_of_update :
    let s : Settings :=
      { suite := ⟨0xC0B4, "TLS_SHA256_SHA256", .integrity .sha256, .null, .sha256⟩
        version := .tls13 }
    let actions := [.send .client .applicationData [1, 2, 3], .updateWrite .client,
      .deliver .client, .updateRead .client]
    ∃ c, Connection.establish s = .ok c ∧
      (∀ front a back, actions = front ++ a :: back → ((start c).run front).Succeeds a) ∧
        ∀ front back, actions = front ++ back → ∀ r,
          (((start c).run front).connection.endpoint r).writeSeq.toNat =
              recordsFrom 0 (written r front) ∧
            (((start c).run front).connection.endpoint r.peer).readSeq.toNat =
              recordsFrom 0 (arrived r front) := by
  intro s actions
  have hsuite : s.suite ∈ CipherSuite.all := by decide
  have hid (r : Role) : AdditionalData.Holds (s.idOf r) := by cases r <;> decide
  obtain ⟨c, hc⟩ := Connection.exists_establish hsuite (by decide) (by decide)
  obtain ⟨hserves, -, hseq, -⟩ := Connection.serves_of_establish hsuite hid hc .client
  obtain ⟨p, hp⟩ := Connection.integrity_of_establish rfl hc .client
  have hlt : (c.endpoint .client).writeSeq.toNat + 1 < Size.bound := by
    rw [hseq]
    decide
  have hlen : ([1, 2, 3] : Bytes).length ≤ 65470 := by decide
  have hsend : ∃ wire, ((start c).connection.send .client .applicationData [1, 2, 3]).1 =
      .ok wire := hserves.exists_send (by decide) hp hlt .applicationData hlen
  obtain ⟨wire, hsend⟩ := hsend
  refine ⟨c, hc, stream_integrity hsuite hc hid ?_ ?_⟩
  · refine permits_cons ⟨⟨wire, hsend⟩, fun _ => by decide⟩ (permits_cons rfl (permits_cons ?_
      (permits_cons rfl ?_)))
    · change ((start c).step (.send .client .applicationData [1, 2, 3])).wires .client ≠ []
      rw [step_send hsend]
      rintro ⟨⟩
    · rintro (_ | _) b back ⟨⟩
  · rintro (_ | _)
    · exact Or.inl (List.prefix_refl _)
    · exact Or.inl (List.prefix_refl _)

end Duplex

end RecordLayer
