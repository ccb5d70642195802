import RecordLayer.Proofs.Histories
import RecordLayer.Proofs.Operations
import RecordLayer.Proofs.Refusals

/-! # Robustness against the peer

However a protection or an endpoint was built and used, and whatever the peer sends, it answers
with a plaintext or with a refusal that the bytes of the peer explain.
-/

namespace RecordLayer

open Connection (Settings)

variable {c c' : Context} {p q : Protection} {owner : Role} {x : Bytes}

theorem BulkCipher.sized_of_derive {b : BulkCipher} {id : Bytes} {d : Direction}
    (h : b.derive c owner id = .ok d) : d.Sized ∧ (d.id = id ∨ d.id = []) := by
  cases b with
  | aead a =>
    obtain ⟨d, hd, rfl⟩ := map_eq_ok.mp h
    obtain ⟨hsized, hid⟩ := AeadDirection.sized_derive hd
    exact ⟨hsized, Or.inl hid⟩
  | integrity hash =>
    obtain ⟨d, hd, rfl⟩ := map_eq_ok.mp h
    exact ⟨(IntegrityDirection.ready_derive hd).length_iv, Or.inr rfl⟩
  | null | block _ => cases h

namespace Protection

/-- What keeps a decoder from failing for reasons of its own. -/
structure Guarded (p : Protection) : Prop where
  ready : p.Ready
  sized : p.reading.Sized
  holds : AdditionalData.Holds p.reading.id

theorem Guarded.of_build {plan : Plan} (hid : AdditionalData.Holds c.params.localId)
    (h : plan.build c = (.ok p, c')) : p.Guarded := by
  have hkeyed := Family.keyedFrom_of_build (Plan.build_resolve h)
  refine ⟨hkeyed.ready, Family.sized_of_direction hkeyed.reading, ?_⟩
  rcases Family.id_of_direction hkeyed.reading with hx | hx
  · exact hx ▸ hid
  · rw [hx]
    decide

theorem Guarded.after (h : p.Guarded) (call : Call) : (p.after call).Guarded := by
  obtain ⟨hready, -, hkeys⟩ := h.ready.after call
  exact ⟨hready, hkeys.sized h.sized, hkeys.id_eq ▸ h.holds⟩

theorem sized_of_rekey {side : Side} (hq : p.rekey c side = .ok q) (hp : p.reading.Sized) :
    q.reading.Sized ∧ (q.reading.id = p.reading.id ∨ q.reading.id = []) := by
  obtain ⟨b, -, hd, hother, -⟩ := rekey_eq_ok hq
  cases side with
  | write =>
    have hreading : q.reading = p.reading := hother
    rw [hreading]
    exact ⟨hp, Or.inl rfl⟩
  | read => exact BulkCipher.sized_of_derive hd

theorem Becomes.sized (h : p.Becomes q) (hready : p.Ready) (hp : p.reading.Sized) :
    q.reading.Sized := by
  induction h with
  | start => exact hp
  | used h call ih => exact ((h.ready hready).after call).2.2.sized ih
  | rekeyed h side hq ih => exact (sized_of_rekey hq ih).1

theorem Guarded.rekey (h : p.Guarded) {side : Side} (hq : p.rekey c side = .ok q) :
    q.Guarded := by
  obtain ⟨-, -, -, -, -, hready⟩ := rekey_eq_ok hq
  obtain ⟨hsized, hid | hid⟩ := sized_of_rekey hq h.sized
  · exact ⟨hready h.ready, hsized, hid ▸ h.holds⟩
  · refine ⟨hready h.ready, hsized, ?_⟩
    rw [hid]
    decide

theorem Guarded.tolerant_decode {fragment : Bytes} (h : p.Guarded)
    (hlen : fragment.length ≤ Size.capacity) (s : UInt64) (t : ContentType) (v : Version) :
    Tolerant (p.decode s t v fragment).1 := h.ready.tolerant_decode h.sized h.holds hlen s t v

/-- A protection that was built in any way and then used and keyed again in any order. The secrets
behind new keys may have changed meanwhile. -/
inductive Reachable : Protection → Prop
  | built {p : Protection} {plan : Plan} {c c' : Context}
    (hid : AdditionalData.Holds c.params.localId) (h : plan.build c = (.ok p, c')) : Reachable p
  | used {p : Protection} (h : Reachable p) (call : Call) : Reachable (p.after call)
  | rekeyed {p q : Protection} {c : Context} (h : Reachable p) (side : Side)
    (hq : p.rekey c side = .ok q) : Reachable q

theorem Reachable.guarded (h : p.Reachable) : p.Guarded := by
  induction h with
  | built hid h => exact .of_build hid h
  | used h call ih => exact ih.after call
  | rekeyed h side hq ih => exact ih.rekey hq

end Protection

namespace Header

variable {datagram : Bool} {idSize : Nat} {type : ContentType}

theorem expectedSize_lt (hid : datagramSize + idSize < Size.bound) :
    expectedSize datagram type idSize < Size.bound := by
  unfold Size.bound datagramSize at hid
  unfold expectedSize Size.bound datagramSize streamSize
  split
  · split <;> omega
  · decide

theorem parse_cases (hid : datagramSize + idSize < Size.bound) :
    (∃ reason, parse x datagram idSize = .error (.refused (.decodeError reason))) ∨
      ∃ h, parse x datagram idSize = .ok h := by
  cases hcode : x.head? with
  | none =>
    simp only [parse, hcode]
    exact Or.inl ⟨_, rfl⟩
  | some code =>
    have houtcome : Outcome x (expectedSize datagram ⟨code⟩ idSize) (parse x datagram idSize) :=
      parse_outcome hcode
    generalize parse x datagram idSize = result at houtcome ⊢
    cases houtcome with
    | overflow hn => exact absurd (expectedSize_lt hid) (Nat.not_lt.mpr hn)
    | short | unknown => exact Or.inl ⟨_, rfl⟩
    | read _ _ _ h => exact Or.inr ⟨h, rfl⟩

theorem Fits.size_le {h : Header} {datagram : Bool} {idSize : Nat} (hf : h.Fits datagram idSize) :
    h.size ≤ datagramSize + idSize := by
  have hid := hf.length_id
  unfold size
  split
  · split at hid <;> omega
  · exact Nat.le_add_right_of_le (by decide)

end Header

theorem Link.Bears.length_le {l : Link} {s : Settings} {r : Role} {received : Recovered}
    {wire fragment : Bytes} (hb : l.Bears s r wire received fragment) :
    wire.length ≤ Header.datagramSize + (s.idOf r.peer).length + 65535 := by
  obtain ⟨-, header, rfl, hf, -, hlen, -⟩ := hb
  rw [List.length_append, header.length_bytes, ← hlen]
  exact Nat.add_le_add hf.size_le hf.length_le

namespace Endpoint

variable {e : Endpoint} {wire : Bytes}

theorem tolerant_numberOf (e : Endpoint) (h : Header) (n : Nat) : Tolerant (e.numberOf h n) := by
  unfold numberOf
  split
  · exact .error trivial
  split
  · exact .error trivial
  split
  · exact .ok _
  · split
    · exact .error trivial
    · exact .ok _

theorem accept_cases (hid : AdditionalData.Holds e.context.params.localId) (wire : Bytes) :
    (∃ failure, e.accept wire = .error failure ∧ failure.FromPeer) ∨
      ∃ seq t fragment, e.accept wire = .ok (seq, t, fragment) ∧
        fragment.length ≤ wire.length := by
  rcases Header.parse_cases hid.datagramSize_lt with ⟨reason, herr⟩ | ⟨h, hok⟩
  · unfold accept
    rw [herr]
    exact Or.inl ⟨_, rfl, trivial⟩
  · obtain ⟨hf, hwire⟩ := Header.parse_eq_ok hid.datagramSize_lt hok
    rw [hwire, accept_bytes hf]
    cases hn : e.numberOf h (wire.drop h.size).length with
    | error failure => exact Or.inl ⟨failure, rfl, e.tolerant_numberOf h _ failure hn⟩
    | ok seq => exact Or.inr ⟨seq, _, _, rfl, by simp⟩

/-- What keeps an endpoint from failing for reasons of its own. -/
structure Guarded (e : Endpoint) : Prop where
  protection : e.protection.Reachable
  holds : AdditionalData.Holds e.context.params.localId

theorem Guarded.of_establish {s : Settings} {conn : Connection} (r : Role)
    (hid : AdditionalData.Holds (s.idOf r)) (h : Connection.establish s = .ok conn) :
    (conn.endpoint r).Guarded := by
  obtain ⟨k, hk⟩ := Connection.endpoint_of_establish h
  obtain ⟨c, p, randomness, hc, hp, he⟩ := Connection.Settings.endpoint_eq_ok (hk r)
  obtain ⟨-, -, -, hlocal, -⟩ := Connection.Settings.fields_of_context hc
  have hholds : AdditionalData.Holds c.params.localId := hlocal ▸ hid
  have hbuild : (Plan.suite s.suite).build c = (.ok p, { c with randomness }) := hp
  rw [he]
  exact ⟨.built hholds hbuild, hholds⟩

theorem Guarded.send (h : e.Guarded) (t : ContentType) (plaintext : Bytes) :
    (e.send t plaintext).2.Guarded := by
  have hafter := h.protection.used (.encode e.context.randomness
    (e.packed e.writeEpoch e.writeSeq) t e.headerVersion e.headerRoom plaintext)
  cases hres : (e.send t plaintext).1 with
  | ok wire =>
    obtain ⟨record, -, -, -, hsend⟩ := send_eq_ok hres
    rw [hsend]
    exact ⟨hafter, h.holds⟩
  | error failure =>
    rw [send_eq_error hres]
    exact ⟨hafter, h.holds⟩

theorem Guarded.receive (h : e.Guarded) (wire : Bytes) : (e.receive wire).2.Guarded := by
  rcases e.receive_cases wire with ⟨failure, hres⟩ | ⟨seq, t, fragment, -, hres⟩
  · rw [hres]
    exact h
  · have hafter := h.protection.used (.decode seq t e.headerVersion fragment)
    rcases hres with ⟨failure, hres⟩ | ⟨received, -, -, hres⟩
    · rw [hres]
      exact ⟨hafter, h.holds⟩
    · rw [hres]
      exact ⟨hafter, h.holds⟩

theorem params_of_updateTrafficSecret {c c' : Context} (h : c.updateTrafficSecret owner = .ok c') :
    c'.params = c.params := by
  obtain ⟨secret, -, rfl⟩ := map_eq_ok.mp h
  exact c.params_setTrafficSecret owner secret

theorem Guarded.updateKeys (h : e.Guarded) (side : Side) : (e.updateKeys side).2.Guarded := by
  rcases e.updateKeys_cases side with ⟨err, hres⟩ | ⟨c, hc, hres⟩
  · rw [hres]
    exact h
  · have hholds : AdditionalData.Holds c.params.localId :=
      params_of_updateTrafficSecret hc ▸ h.holds
    rcases hres with ⟨err, hres⟩ | ⟨p, hp, hres⟩
    · rw [hres]
      exact ⟨h.protection, hholds⟩
    · have hnext := h.protection.rekeyed side hp
      rw [hres]
      cases side
      · exact ⟨hnext, hholds⟩
      · exact ⟨hnext, hholds⟩

theorem Guarded.run {f : Endpoint} {W R : List Item} (h : e.Guarded) (hf : e.Run W R f) :
    f.Guarded := by
  induction hf with
  | start => exact h
  | send _ t plaintext ih => exact ih.send t plaintext
  | receive _ wire ih => exact ih.receive wire
  | updateWriteKeys _ ih => exact ih.updateKeys .write
  | updateReadKeys _ ih => exact ih.updateKeys .read

/-- An end of a connection that was established, used and keyed again in any order. Its secrets and
its randomness may have changed meanwhile. -/
inductive Reachable : Endpoint → Prop
  | established {s : Settings} {conn : Connection} (r : Role)
    (hid : AdditionalData.Holds (s.idOf r)) (h : Connection.establish s = .ok conn) :
    Reachable (conn.endpoint r)
  | run {e f : Endpoint} {W R : List Item} (h : Reachable e) (hf : e.Run W R f) : Reachable f
  | withContext {e : Endpoint} {c : Context} (h : Reachable e) (hrole : c.role = e.context.role)
    (hparams : c.params = e.context.params) : Reachable { e with context := c }

theorem Reachable.guarded (h : e.Reachable) : e.Guarded := by
  induction h with
  | established r hid h => exact .of_establish r hid h
  | run h hf ih => exact ih.run hf
  | withContext h hrole hparams ih => exact ⟨ih.protection, hparams ▸ ih.holds⟩

theorem Guarded.tolerant_receive (h : e.Guarded) (hseq : e.readSeq.toNat + 1 < Size.bound)
    (hlen : wire.length ≤ Size.capacity) : Tolerant (e.receive wire).1 := by
  unfold Endpoint.receive
  rcases accept_cases h.holds wire with ⟨failure, herr, hpeer⟩ | ⟨seq, t, fragment, hok, hle⟩
  · rw [herr]
    exact .error hpeer
  · have hdec := h.protection.guarded.tolerant_decode (Nat.le_trans hle hlen) seq t e.headerVersion
    have hnext : next e.readSeq = .ok (e.readSeq + 1) := if_pos hseq
    simp only [hok, hnext]
    split
    · rename_i failure herr
      exact .error (hdec failure herr)
    · exact .ok _

/-- Nothing that the peer sends is answered with an internal error or ends in a fault. -/
theorem peer_bytes_tolerated :
    (∀ p : Protection, p.Reachable → ∀ (s : UInt64) (t : ContentType) (v : Version)
      (fragment : Bytes), fragment.length ≤ Size.capacity →
        Tolerant (p.decode s t v fragment).1 ∧ p.reading.InRange fragment) ∧
      ∀ e : Endpoint, e.Reachable → e.readSeq.toNat + 1 < Size.bound →
        ∀ wire : Bytes, wire.length ≤ Size.capacity →
          Tolerant (e.receive wire).1 ∧ ∀ fragment, e.protection.reading.InRange fragment := by
  constructor
  · intro p hp s t v fragment hlen
    have h := hp.guarded
    exact ⟨h.tolerant_decode hlen s t v, Protection.inRange_of_sized h.sized fragment⟩
  · intro e he hseq wire hlen
    have h := he.guarded
    exact ⟨h.tolerant_receive hseq hlen,
      Protection.inRange_of_sized h.protection.guarded.sized⟩

/-- The first record of a client, on the wire and without its header, with one bit of it turned. -/
theorem peer_bytes_tolerated_tampered :
    ∃ conn wire, Connection.establish (.authenticated .tls13) = .ok conn ∧
      ((conn.endpoint .client).send .applicationData [1, 2, 3]).1 = .ok wire ∧
        ∀ i, Tolerant ((conn.endpoint .server).receive (wire.modify i (· ^^^ 1))).1 ∧
          Tolerant ((conn.endpoint .server).protection.decode 0 .applicationData .tls12
            ((wire.drop Header.streamSize).modify i (· ^^^ 1))).1 := by
  obtain ⟨conn, hc, hends⟩ := Connection.exists_authenticated (v := .tls13) rfl
  obtain ⟨hserves, hwrite, -, p, hp⟩ := hends .client
  obtain ⟨-, -, hread, -⟩ := hends .server
  have hid := Settings.holds_authenticated .tls13
  have hreach := Reachable.established .server (hid .server) hc
  have hshort : ([1, 2, 3] : Bytes).length ≤ 65470 := by decide
  obtain ⟨wire, hsend⟩ := hserves.exists_send (by decide) hp (by rw [hwrite]; decide)
    .applicationData hshort
  obtain ⟨-, -, fragment, hb, -⟩ := hserves.send (hid .server) (fun _ => by decide) hsend
  have hlen : wire.length ≤ Size.capacity := Nat.le_trans hb.length_le (by decide)
  obtain ⟨hdecode, hreceive⟩ := peer_bytes_tolerated
  refine ⟨conn, wire, hc, hsend, fun i => ⟨?_, ?_⟩⟩
  · exact (hreceive _ hreach (by rw [hread]; decide) _ (by rwa [List.length_modify])).1
  · refine (hdecode _ hreach.guarded.protection 0 .applicationData .tls12 _ ?_).1
    rw [List.length_modify, List.length_drop]
    omega

end Endpoint

end RecordLayer
