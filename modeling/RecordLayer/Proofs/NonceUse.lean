import RecordLayer.Proofs.Generations
import RecordLayer.Proofs.Refusals

/-! # Use of nonces

Under one key no number is used twice as long as the numbers last. A datagram number has 48 bits
below its epoch, so a datagram shares its nonce with those that come 2^48 records before and after
it under the same key.
-/

namespace RecordLayer

open Connection (Settings)

variable {s : Settings} {r : Role} {e f : Endpoint} {l l' : Link} {d d' : Direction}
  {t : ContentType} {plaintext wire x : Bytes} {m n : UInt64}

namespace Direction

/-- The nonce of the record with this number, where records are protected under nonces. -/
def nonce? (number : UInt64) : Direction → Option Bytes
  | aead d => some (d.encryptNonce number)
  | integrity d => some (Nonce.implicit d.iv number)
  | block _ | null _ => none

theorem SameKeys.nonce?_eq (h : d.SameKeys d') (number : UInt64) :
    d'.nonce? number = d.nonce? number := by
  obtain ⟨chain, rfl⟩ := h
  cases d <;> rfl

theorem sized_of_rekey {v : Version} {hash : Hash} {secret : Secret}
    (h : d.rekey v hash secret = .ok d') : d'.Sized := by
  cases d with
  | aead d =>
    simp only [rekey, bind_eq_ok, pure_eq_ok, forRecord_eq_ok] at h
    obtain ⟨keys, hkeys, aead, -, rfl⟩ := h
    exact (Secret.length_of_trafficKeys hkeys).2
  | integrity d =>
    simp only [rekey, bind_eq_ok, pure_eq_ok, forRecord_eq_ok] at h
    obtain ⟨keys, hkeys, rfl⟩ := h
    refine Nat.le_trans ?_ (Nat.le_of_eq (Secret.length_of_trafficKeys hkeys).2.symm)
    cases d.hash <;> decide
  | block d | null d => cases h

theorem Sized.eq_of_nonce? (h : d.Sized) (hm : d.nonce? m = some x) (hn : d.nonce? n = some x) :
    m = n := by
  cases d with
  | aead d =>
    have heq : d.encryptNonce m = d.encryptNonce n :=
      Option.some.inj (hm.trans hn.symm)
    have hsize : d.iv.length = d.mode.fixedIvSize := h
    unfold AeadDirection.encryptNonce AeadDirection.nonce AeadDirection.recordIv at heq
    cases hmode : d.mode with
    | explicit =>
      rw [hmode] at heq
      exact Bytes.eq_of_be8_eq (List.append_cancel_left heq)
    | implicit =>
      rw [hmode] at heq hsize
      exact Nonce.eq_of_implicit_eq (hsize ▸ by decide) heq
  | integrity d =>
    exact Nonce.eq_of_implicit_eq h (Option.some.inj (hm.trans hn.symm))
  | block d | null d => cases hm

/-- The fragment is the payload under the nonce: sealed, or with a tag that begins with it. -/
def ProtectsUnder (nonce payload fragment : Bytes) : Direction → Prop
  | aead d => ∃ front aad ciphertext, fragment = front ++ ciphertext ∧
      d.aead.sealMessage nonce aad payload = .ok ciphertext
  | integrity d => ∃ header, fragment = payload ++ d.tagOf (nonce ++ header ++ payload)
  | block _ | null _ => False

end Direction

theorem Protection.Ready.protectsUnder {p : Protection} {random : Randomness} {v : Version}
    {room : Nat} {record : Protected} (h : p.Ready) (hx : p.writing.nonce? n = some x)
    (hok : (p.encode random n t v room plaintext).1 = .ok record) :
    p.writing.ProtectsUnder x (InnerPlaintext.wrap p.writing.inner t plaintext)
      record.fragment := by
  cases p with
  | aead p =>
    obtain rfl := Option.some.inj hx
    obtain ⟨ciphertext, hseal, rfl, -⟩ := AeadDirection.sealed_of_encode hok
    exact ⟨_, _, ciphertext, Protected.fragment_assemble .., hseal⟩
  | integrity p =>
    obtain rfl := Option.some.inj hx
    obtain ⟨fragment, rfl, -, hcarries⟩ := h.1.encode_ok hok
    exact ⟨_, (Protected.fragment_assemble ..).trans hcarries⟩
  | block p | null p => cases hx

theorem Link.Leads.sized {k : Nat} (h : l.Leads s k l') (hs : l.direction.Sized) :
    l'.direction.Sized := by
  obtain ⟨g, hg, hk⟩ := h
  refine hk.direction.sized ?_
  cases k with
  | zero =>
    obtain rfl := Except.ok.inj hg
    exact hs
  | succ k =>
    obtain ⟨g', -, hu⟩ := bind_eq_ok.mp hg
    simp only [Link.update, bind_eq_ok, pure_eq_ok] at hu
    obtain ⟨secret, -, d, hd, rfl⟩ := hu
    exact Direction.sized_of_rekey hd

theorem Connection.sized_of_establish {conn : Connection} (h : establish s = .ok conn)
    (r : Role) : (conn.endpoint r).writeLink.direction.Sized := by
  obtain ⟨k, hk⟩ := endpoint_of_establish h
  obtain ⟨c, p, randomness, -, hp, he⟩ := Settings.endpoint_eq_ok (hk r)
  rw [he]
  exact Family.sized_of_direction
    (Family.keyedFrom_of_build (Family.build_ofSuite hp)).writing

theorem recordsFrom_of_generation {items : List Item} (h : generation items = 0) (k : Nat) :
    recordsFrom k items = k + items.length := by
  induction items generalizing k with
  | nil => rfl
  | cons i items ih =>
    cases i with
    | record =>
      have hrest : generation items = 0 := by simpa [generation] using h
      have hnext : recordsFrom k (.record :: items) = recordsFrom (k + 1) items := rfl
      rw [hnext, ih hrest, List.length_cons]
      omega
    | update => simp [generation] at h

namespace Endpoint

/-- The nonce under which the next record is protected, where records are protected under nonces. -/
def nonce? (e : Endpoint) : Option Bytes :=
  e.protection.writing.nonce? (e.packed e.writeEpoch e.writeSeq)

theorem exists_nonce {p : IntegrityProtection} (hp : e.protection = .integrity p) :
    ∃ x, e.nonce? = some x := by
  unfold nonce?
  rw [hp]
  exact ⟨_, rfl⟩

def Protects (e : Endpoint) (nonce : Bytes) (t : ContentType) (plaintext wire : Bytes) : Prop :=
  ∃ front fragment, wire = front ++ fragment ∧ e.protection.writing.ProtectsUnder nonce
    (InnerPlaintext.wrap e.protection.writing.inner t plaintext) fragment

theorem Serves.protects (h : e.Serves s r) (hx : e.nonce? = some x)
    (hok : (e.send t plaintext).1 = .ok wire) : e.Protects x t plaintext wire := by
  obtain ⟨record, hrecord, hframe, -, -⟩ := send_eq_ok hok
  have hunder := h.ready.protectsUnder hx hrecord
  obtain ⟨fragment, rfl, -, -, -⟩ := h.ready.encode_ok hrecord
  obtain ⟨-, hwire⟩ := frame_eq_ok hframe
  rw [Protected.fragment_assemble] at hunder
  exact ⟨_, fragment, hwire, hunder⟩

theorem packed_eq_iff (e : Endpoint) (epoch : UInt16) (m n : UInt64) :
    e.packed epoch m = e.packed epoch n ↔
      if e.isDatagram then m.toNat % 2 ^ 48 = n.toNat % 2 ^ 48 else m = n := by
  unfold packed
  cases e.isDatagram with
  | true =>
    simp only [if_true]
    rw [← UInt64.toNat_inj, toNat_number, toNat_number]
    omega
  | false => rfl

/-- As long as the write keys stay, nonces come again after 2^48 datagrams and never in a stream. -/
theorem Follows.nonce?_eq_iff {W R : List Item} (h : e.Follows f s r W R) (hs : e.Serves s r)
    (hgen : generation W = 0) (hsized : e.protection.writing.Sized) (hx : e.nonce? = some x) :
    f.nonce? = some x ↔ if s.version.isDatagram then 2 ^ 48 ∣ W.length else W.length = 0 := by
  have hkeys : e.writeLink.SameKeys f.writeLink := by
    have hlead := h.write.leads
    rw [hgen] at hlead
    exact (Link.Leads.refl s _).unique hlead
  have hpacked : f.packed f.writeEpoch f.writeSeq = e.packed e.writeEpoch f.writeSeq := by
    have hd : f.isDatagram = e.isDatagram := h.serves.isDatagram.trans hs.isDatagram.symm
    have hepoch : f.writeEpoch = e.writeEpoch := hkeys.epoch
    unfold packed
    rw [hd, hepoch]
  have hnonce : f.nonce? = e.protection.writing.nonce? (e.packed e.writeEpoch f.writeSeq) := by
    rw [← hpacked]
    exact hkeys.direction.nonce?_eq _
  have hnumber : f.nonce? = some x ↔
      e.packed e.writeEpoch e.writeSeq = e.packed e.writeEpoch f.writeSeq := by
    rw [hnonce]
    constructor
    · exact hsized.eq_of_nonce? hx
    · intro heq
      rw [← heq]
      exact hx
  have hcount : f.writeSeq.toNat = e.writeSeq.toNat + W.length :=
    h.write.seq.trans (recordsFrom_of_generation hgen _)
  rw [hnumber, packed_eq_iff, hs.isDatagram]
  cases s.version.isDatagram with
  | true =>
    simp only [if_true]
    rw [hcount]
    omega
  | false =>
    simp only [Bool.false_eq_true, if_false]
    rw [← UInt64.toNat_inj, hcount]
    omega

/-- Two records that are sent with no change of the write keys in between are protected under the
same nonce if and only if they are datagrams and a multiple of 2^48 records apart. -/
theorem nonce_eq_iff {conn : Connection} {W R V R' : List Item} {t' : ContentType}
    {plaintext' wire' x' : Bytes} (hsuite : s.suite ∈ CipherSuite.all)
    (hest : Connection.establish s = .ok conn) (hid : ∀ r, AdditionalData.Holds (s.idOf r))
    (he : (conn.endpoint r).Run W R e) (hok : (e.send t plaintext).1 = .ok wire)
    (hf : (e.send t plaintext).2.Run V R' f) (hgen : generation V = 0)
    (hok' : (f.send t' plaintext').1 = .ok wire') (hx : e.nonce? = some x)
    (hx' : f.nonce? = some x') :
    e.Protects x t plaintext wire ∧ f.Protects x' t' plaintext' wire' ∧
      (x = x' ↔ s.version.isDatagram = true ∧ 2 ^ 48 ∣ V.length + 1) := by
  have hfirst := Connection.follows_of_run hsuite hid hest he
  have hrun : e.Run (.record :: V) R' f := by
    have hsent : e.Run [.record] [] (e.send t plaintext).2 := by
      have hstep := (Run.start (e := e)).send t plaintext
      rwa [hok] at hstep
    exact hsent.trans hf
  have hsecond := hrun.follows hfirst.serves hfirst.write.live hfirst.read.live
  have hsized : e.protection.writing.Sized :=
    hfirst.write.leads.sized (Connection.sized_of_establish hest r)
  have hgen' : generation (.record :: V) = 0 := by simpa [generation] using hgen
  refine ⟨hfirst.serves.protects hx hok, hsecond.serves.protects hx' hok', ?_⟩
  have hagain := hsecond.nonce?_eq_iff hfirst.serves hgen' hsized hx
  rw [hx', Option.some.injEq, List.length_cons] at hagain
  rw [eq_comm, hagain]
  cases s.version.isDatagram <;> simp

theorem nonce_differs_next :
    ∃ conn x wire x' wire', Connection.establish (.authenticated .tls13) = .ok conn ∧
      let first := conn.endpoint .client
      let second := (first.send .applicationData [1, 2, 3]).2
      (first.send .applicationData [1, 2, 3]).1 = .ok wire ∧
        (second.send .applicationData [1, 2, 3]).1 = .ok wire' ∧
        first.Protects x .applicationData [1, 2, 3] wire ∧
        second.Protects x' .applicationData [1, 2, 3] wire' ∧ x ≠ x' := by
  obtain ⟨conn, hc, hends⟩ := Connection.exists_authenticated (v := .tls13) rfl
  obtain ⟨hserves, hseq, -, p, hp⟩ := hends .client
  obtain ⟨x, hx⟩ := exists_nonce hp
  have hlen : ([1, 2, 3] : Bytes).length ≤ 65470 := by decide
  obtain ⟨wire, hsend⟩ := hserves.exists_send (by decide) hp (by rw [hseq]; decide)
    .applicationData hlen
  obtain ⟨hserves', -, -⟩ := hserves.send_frame .applicationData [1, 2, 3]
  obtain ⟨q, hq⟩ := integrity_of_send hp .applicationData [1, 2, 3]
  obtain ⟨x', hx'⟩ := exists_nonce hq
  obtain ⟨record, -, -, -, hafter⟩ := send_eq_ok hsend
  have hnext : ((conn.endpoint .client).send .applicationData [1, 2, 3]).2.writeSeq = 0 + 1 := by
    rw [hafter, hseq]
  obtain ⟨wire', hsend'⟩ := hserves'.exists_send (by decide) hq (by rw [hnext]; decide)
    .applicationData hlen
  obtain ⟨hfirst, hsecond, hiff⟩ := nonce_eq_iff (Settings.suite_authenticated _).1 hc
    (Settings.holds_authenticated _) .start hsend .start rfl hsend' hx hx'
  refine ⟨conn, x, wire, x', wire', hc, hsend, hsend', hfirst, hsecond, fun heq => ?_⟩
  cases (hiff.mp heq).1

theorem Serves.sendAll_replicate {p : IntegrityProtection} (h : e.Serves s r)
    (hid : (s.idOf r.peer).length ≤ 255) (hp : e.protection = .integrity p) (t : ContentType)
    (hlen : plaintext.length ≤ 65470) (k : Nat) (hk : e.writeSeq.toNat + k < Size.bound) :
    let x := e.sendAll (List.replicate k ⟨plaintext, t⟩)
    x.1.length = k ∧ e.Run (List.replicate k .record) [] x.2 ∧ x.2.Serves s r ∧
      (∃ q, x.2.protection = .integrity q) ∧ x.2.writeSeq.toNat = e.writeSeq.toNat + k := by
  induction k generalizing e p with
  | zero => exact ⟨rfl, .start, h, ⟨p, hp⟩, rfl⟩
  | succ k ih =>
    obtain ⟨wire, hok⟩ := h.exists_send hid hp (by omega) t hlen
    obtain ⟨record, -, -, hlt, hafter⟩ := send_eq_ok hok
    obtain ⟨q, hq⟩ := integrity_of_send hp t plaintext
    obtain ⟨hserves, -, -⟩ := h.send_frame t plaintext
    have hseq : (e.send t plaintext).2.writeSeq.toNat = e.writeSeq.toNat + 1 := by
      rw [hafter]
      exact toNat_succ hlt
    have hfirst : e.Run [.record] [] (e.send t plaintext).2 := by
      have hstep := (Run.start (e := e)).send t plaintext
      rwa [hok] at hstep
    obtain ⟨hcount, hrun, hlast, hkeep, hnumber⟩ := ih hserves hq (by omega)
    rw [hseq, Nat.add_assoc, Nat.add_comm 1 k] at hnumber
    rw [List.replicate_succ, List.replicate_succ, sendAll_cons_ok hok]
    exact ⟨congrArg (· + 1) hcount, hfirst.trans hrun, hlast, hkeep, hnumber⟩

theorem exists_repeat {k : Nat} (hk : 2 ^ 48 ∣ k) (hlt : k + 1 < Size.bound) :
    ∃ conn x, Connection.establish (.authenticated .dtls13) = .ok conn ∧
      (conn.endpoint .client).nonce? = some x ∧
      let later := (conn.endpoint .client).sendAll (List.replicate k ⟨[], .applicationData⟩)
      later.1.length = k ∧ later.2.nonce? = some x ∧
        ∃ wire, (later.2.send .applicationData []).1 = .ok wire := by
  obtain ⟨hsuite, -⟩ := Settings.suite_authenticated .dtls13
  have hid := Settings.holds_authenticated .dtls13
  obtain ⟨conn, hc, hends⟩ := Connection.exists_authenticated (v := .dtls13) rfl
  obtain ⟨hserves, hseq, -, p, hp⟩ := hends .client
  obtain ⟨hwrite, hread⟩ := Connection.live_of_establish hsuite hid hc .client
  obtain ⟨x, hx⟩ := exists_nonce hp
  have hzero : (conn.endpoint .client).writeSeq.toNat = 0 := by rw [hseq]; rfl
  have hempty : ([] : Bytes).length ≤ 65470 := by decide
  obtain ⟨hcount, hrun, hlast, ⟨q, hq⟩, hnumber⟩ :=
    hserves.sendAll_replicate (by decide) hp .applicationData hempty k (by omega)
  have hfollows := hrun.follows hserves hwrite hread
  have hgen : generation (List.replicate k Item.record) = 0 := by
    simp [generation, List.count_replicate]
  have hagain := hfollows.nonce?_eq_iff hserves hgen (Connection.sized_of_establish hc .client) hx
  refine ⟨conn, x, hc, hx, hcount, ?_, ?_⟩
  · refine hagain.mpr ?_
    rw [List.length_replicate]
    exact hk
  · exact hlast.exists_send (by decide) hq (by omega) .applicationData hempty

/-- A client under traffic secrets sends 2^48 empty datagrams. The nonce of the first one then comes
again. -/
theorem nonce_repeats :
    ∃ conn x, Connection.establish (.authenticated .dtls13) = .ok conn ∧
      (conn.endpoint .client).nonce? = some x ∧
      let later := (conn.endpoint .client).sendAll
        (List.replicate (2 ^ 48) ⟨[], .applicationData⟩)
      later.1.length = 2 ^ 48 ∧ later.2.nonce? = some x ∧
        ∃ wire, (later.2.send .applicationData []).1 = .ok wire :=
  exists_repeat (Nat.dvd_refl _) (by decide)

end Endpoint

end RecordLayer
