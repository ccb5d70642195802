import RecordLayer.Proofs.Chains
import RecordLayer.Proofs.Generations

/-! # Datagrams

A datagram carries its number, and no datagram depends on another one. So what was sent is received
in any order and any number of times, whatever else comes in between.
-/

namespace RecordLayer

open Connection (Settings)

variable {s : Settings} {r : Role} {e f : Endpoint} {l l' : Link} {wire fragment : Bytes}
  {sent : Recovered} {n : Nat}

theorem Connection.Settings.not_chained_of_isDatagram (h : s.version.isDatagram = true) :
    ¬ s.Chained := by
  have hiv (v : Version) (hv : v.isDatagram = true) : v.hasExplicitIv = true := by
    cases v <;> first | rfl | cases hv
  rintro ⟨hx, -⟩
  rw [hiv s.version h] at hx
  cases hx

theorem Link.Leads.chain?_eq_none (h : l.Leads s n l') (hc : l.direction.chain? = none) :
    l'.direction.chain? = none := by
  obtain ⟨g, hg, hk⟩ := h
  refine hk.direction.chain?_eq_none ?_
  cases n with
  | zero =>
    obtain rfl := Except.ok.inj hg
    exact hc
  | succ n =>
    obtain ⟨g', -, hu⟩ := bind_eq_ok.mp hg
    simp only [Link.update, bind_eq_ok, pure_eq_ok] at hu
    obtain ⟨secret, -, d, hd, rfl⟩ := hu
    exact Direction.chain?_of_rekey hd

namespace Endpoint

theorem readSeq_receive_le (f : Endpoint) (wire : Bytes) :
    (f.receive wire).2.readSeq.toNat ≤ f.readSeq.toNat + 1 := by
  rcases f.receive_cases wire with ⟨failure, hres⟩ | ⟨seq, t, fragment, -, hres⟩
  · rw [hres]
    exact Nat.le_succ _
  · rcases hres with ⟨failure, hres⟩ | ⟨received, -, hlt, hres⟩
    · rw [hres]
      exact Nat.le_succ _
    · rw [hres]
      exact Nat.le_of_eq (toNat_succ hlt)

theorem readSeq_receiveAll_le (f : Endpoint) (wires : List Bytes) :
    (f.receiveAll wires).2.readSeq.toNat ≤ f.readSeq.toNat + wires.length := by
  induction wires generalizing f with
  | nil => exact Nat.le_refl _
  | cons wire wires ih =>
    have hfirst := f.readSeq_receive_le wire
    have hrest := ih (f.receive wire).2
    rw [List.length_cons]
    exact Nat.le_trans hrest (by omega)

theorem Serves.receive_datagram (h : f.Serves s r.peer) (hd : s.version.isDatagram = true)
    (hb : l.Bears s r wire sent fragment) (hk : l.SameKeys f.readLink)
    (hc : l.direction.chain? = none) (hseq : f.readSeq.toNat + 1 < Size.bound) :
    (f.receive wire).1 = .ok sent := by
  have hchain : l.direction.chain? = f.protection.reading.chain? :=
    hc.trans (hk.direction.chain?_eq_none hc).symm
  have hstream (h : s.version.isDatagram = false) : l.seq = f.readSeq := by
    rw [hd] at h
    cases h
  exact (h.receive_of_bears hb hk.direction hchain (fun _ => hk.epoch.symm) hstream hseq).1

end Endpoint

namespace Connection

open Endpoint (logged)

variable {conn : Connection} {W R : List Item} {wires : List Bytes}

/-- The end `r` can have sent the record with the keys of its `n`-th generation. -/
def Sends (conn : Connection) (r : Role) (n : Nat) (wire : Bytes) (sent : Recovered) : Prop :=
  ∃ W R e, (conn.endpoint r).Run W R e ∧ generation W = n ∧
    (e.protection.writing.inner = true → sent.contentType.code ≠ 0) ∧
    (e.send sent.contentType sent.plaintext).1 = .ok wire

theorem receive_of_sends (hsuite : s.suite ∈ CipherSuite.all) (hest : establish s = .ok conn)
    (hid : ∀ r, AdditionalData.Holds (s.idOf r)) (hd : s.version.isDatagram = true)
    (hf : (conn.endpoint r.peer).Run W R f) (hsent : conn.Sends r (generation R) wire sent)
    (hseq : f.readSeq.toNat + 1 < Size.bound) : (f.receive wire).1 = .ok sent := by
  obtain ⟨W', R', e, he, hgen, ht, hok⟩ := hsent
  have hwriter := follows_of_run hsuite hid hest he
  have hreader := follows_of_run hsuite hid hest hf
  obtain ⟨-, hlink, -, -⟩ := serves_of_establish hsuite hid hest r
  have hkeys : e.writeLink.SameKeys f.readLink := by
    have hread := hreader.read.leads
    rw [hlink] at hread
    exact (hgen ▸ hwriter.write.leads).unique hread
  have hchain := hwriter.write.leads.chain?_eq_none
    (chain?_of_establish hest (Settings.not_chained_of_isDatagram hd) r)
  obtain ⟨-, -, fragment, hb, -⟩ := hwriter.serves.send (hid r.peer) ht hok
  exact hreader.serves.receive_datagram hd hb hkeys hchain hseq

/-- Among any records that come in, those that were sent with the keys in use are received as they
were sent: in any order, any number of times, and whatever else comes in, while the reader has
numbers left. -/
theorem datagrams_received (hsuite : s.suite ∈ CipherSuite.all) (hest : establish s = .ok conn)
    (hid : ∀ r, AdditionalData.Holds (s.idOf r)) (hd : s.version.isDatagram = true)
    (hf : (conn.endpoint r.peer).Run W R f) {i : Nat} (hi : wires[i]? = some wire)
    (hsent : conn.Sends r (generation R) wire sent)
    (hseq : (f.receiveAll (wires.take i)).2.readSeq.toNat + 1 < Size.bound) :
    (f.receiveAll wires).1[i]? = some (.ok sent) := by
  induction wires generalizing f R i with
  | nil => cases hi
  | cons first wires ih =>
    cases i with
    | zero =>
      obtain rfl := Option.some.inj hi
      exact congrArg some (receive_of_sends hsuite hest hid hd hf hsent hseq)
    | succ i =>
      have hgen : generation (R ++ logged .record (f.receive first).1) = generation R := by
        cases (f.receive first).1 <;> simp [logged]
      exact ih (hf.receive first) hi (hgen.symm ▸ hsent) hseq

/-- A duplicate that comes in after two bytes that are no record. -/
theorem datagrams_received_twice :
    ∃ conn wire, establish (.authenticated .dtls13) = .ok conn ∧
      ((conn.endpoint .client).send .applicationData [1, 2, 3]).1 = .ok wire ∧
        ((conn.endpoint .server).receiveAll [wire, [0, 0], wire]).1[2]? =
          some (.ok ⟨[1, 2, 3], .applicationData⟩) := by
  obtain ⟨conn, hc, hends⟩ := exists_authenticated (v := .dtls13) rfl
  obtain ⟨hserves, hseq, -, p, hp⟩ := hends .client
  obtain ⟨-, -, hread, -⟩ := hends .server
  have hlen : ([1, 2, 3] : Bytes).length ≤ 65470 := by decide
  obtain ⟨wire, hsend⟩ := hserves.exists_send (by decide) hp (by rw [hseq]; decide)
    .applicationData hlen
  refine ⟨conn, wire, hc, hsend, ?_⟩
  have hsent : conn.Sends .client 0 wire ⟨[1, 2, 3], .applicationData⟩ :=
    ⟨[], [], conn.endpoint .client, .start, rfl, fun _ => by decide, hsend⟩
  have hbefore := (conn.endpoint .server).readSeq_receiveAll_le [wire, [0, 0]]
  rw [hread] at hbefore
  have hbound : 0 + 2 + 1 < Size.bound := by decide
  exact datagrams_received (Settings.suite_authenticated _).1 hc (Settings.holds_authenticated _)
    rfl .start rfl hsent (Nat.lt_of_le_of_lt (Nat.succ_le_succ hbefore) hbound)

end Connection

end RecordLayer
