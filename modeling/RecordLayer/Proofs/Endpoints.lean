import RecordLayer.Connection
import RecordLayer.Proofs.Headers
import RecordLayer.Proofs.Links

/-! # Endpoints and links

Sending, receiving and key updates move an endpoint along one of its two links and leave the other
one alone. What a link bears is received by any endpoint that reads with it.
-/

namespace RecordLayer

open Connection (Settings)

variable {s : Settings} {r : Role} {e : Endpoint} {l l' : Link} {t : ContentType}
  {plaintext wire fragment : Bytes} {received : Recovered}

@[simp] theorem Context.role_setTrafficSecret (c : Context) (owner : Role) (secret : Secret) :
    (c.setTrafficSecret owner secret).role = c.role := by cases owner <;> rfl

@[simp] theorem Context.params_setTrafficSecret (c : Context) (owner : Role) (secret : Secret) :
    (c.setTrafficSecret owner secret).params = c.params := by cases owner <;> rfl

theorem AdditionalData.Holds.datagramSize_lt {id : Bytes} (h : Holds id) :
    Header.datagramSize + id.length < Size.bound := by
  have hcap : Size.capacity < Size.bound := by decide
  unfold Holds connectionIdBaseSize at h
  unfold Header.datagramSize
  omega

namespace Link

def number (datagram : Bool) (l : Link) : UInt64 :=
  if datagram then (l.epoch.toUInt64 <<< 48) ||| (l.seq &&& 0xFFFFFFFFFFFF) else l.seq

/-- The record is one that `r` may write next, with a header that its peer can read. -/
structure Bears (l : Link) (s : Settings) (r : Role) (wire : Bytes) (received : Recovered)
    (fragment : Bytes) : Prop where
  seq_lt : l.seq.toNat + 1 < Size.bound
  framed : ∃ header : Header, wire = header.bytes ++ fragment ∧
    header.Fits s.version.isDatagram (s.idOf r.peer).length ∧
    header.version = s.version.headerVersion ∧ header.length = fragment.length ∧
    header.sequence =
      (if s.version.isDatagram then some (l.number s.version.isDatagram) else none) ∧
    ∃ payload, l.direction.Carries (l.number s.version.isDatagram) header.contentType
        s.version.headerVersion fragment payload ∧
      InnerPlaintext.recover l.direction.inner header.contentType payload = .ok received

end Link

namespace Endpoint

def writeLink (e : Endpoint) : Link :=
  ⟨e.protection.writing, e.context.trafficSecret e.role, e.writeEpoch, e.writeSeq⟩

def readLink (e : Endpoint) : Link :=
  ⟨e.protection.reading, e.context.trafficSecret e.role.peer, e.readEpoch, e.readSeq⟩

def link (e : Endpoint) : Side → Link
  | .write => e.writeLink
  | .read => e.readLink

theorem direction_link (e : Endpoint) (side : Side) :
    (e.link side).direction = e.protection.direction side := by cases side <;> rfl

theorem secret_link (e : Endpoint) (side : Side) :
    (e.link side).secret = e.context.trafficSecret (side.owner e.role) := by cases side <;> rfl

theorem link_withKeys (e : Endpoint) (c : Context) (p : Protection) (side : Side) :
    ({ e with context := c, protection := p } : Endpoint).link side = { e.link side with
      direction := p.direction side, secret := c.trafficSecret (side.owner c.role) } := by
  cases side <;> rfl

theorem link_nextEpoch (e : Endpoint) (side : Side) : (e.nextEpoch side).link side =
    { e.link side with epoch := (e.link side).epoch + 1, seq := 0 } := by cases side <;> rfl

theorem link_nextEpoch_other (e : Endpoint) (side : Side) :
    (e.nextEpoch side).link side.other = e.link side.other := by cases side <;> rfl

/-- The endpoint is the end `r` of a connection, between any two of its operations. -/
structure Serves (e : Endpoint) (s : Settings) (r : Role) : Prop where
  role : e.role = r
  version : e.context.version = s.version
  prfHash : e.context.params.prfHash = s.suite.prfHash
  localId : e.context.params.localId = s.idOf r
  peerId : e.context.params.peerId = s.idOf r.peer
  headerVersion : e.headerVersion = s.version.headerVersion
  ready : e.protection.Ready
  rekeyable : s.version.isTls13 = true → e.protection.Rekeyable
  holds : AdditionalData.Holds e.protection.reading.id

theorem next_eq_ok {seq seq' : UInt64} (h : next seq = .ok seq') :
    seq' = seq + 1 ∧ seq.toNat + 1 < Size.bound := by
  unfold next at h
  split at h
  · rename_i hlt
    exact ⟨(Except.ok.inj h).symm, hlt⟩
  · cases h

theorem frame_eq_ok {seq : UInt64} {room : Nat} {outer : ContentType}
    (h : e.frame seq (.assemble room outer fragment) = .ok wire) :
    fragment.length ≤ 65535 ∧
      wire = (e.header seq (.assemble room outer fragment)).bytes ++ fragment := by
  simp only [frame, bind_eq_ok, pure_eq_ok, liftFault_eq_ok, liftRefusal_eq_ok] at h
  obtain ⟨start, -, x, -, bytes, hbytes, rfl⟩ := h
  unfold Header.write at hbytes
  split at hbytes
  · cases hbytes
  · rename_i hle
    split at hbytes
    · cases hbytes
    · obtain rfl := Except.ok.inj hbytes
      refine ⟨Nat.le_of_not_lt hle, ?_⟩
      congr 1
      exact List.drop_left' (Bytes.length_zeros room)

theorem send_eq_ok (hok : (e.send t plaintext).1 = .ok wire) :
    let seq := e.packed e.writeEpoch e.writeSeq
    let x := e.protection.encode e.context.randomness seq t e.headerVersion e.headerRoom plaintext
    ∃ record, x.1 = .ok record ∧ e.frame seq record = .ok wire ∧
      e.writeSeq.toNat + 1 < Size.bound ∧
      (e.send t plaintext).2 = { e with
        protection := x.2.1, context := { e.context with randomness := x.2.2 },
        writeSeq := e.writeSeq + 1 } := by
  intro seq x
  unfold Endpoint.send at hok ⊢
  dsimp only at hok ⊢
  split at hok
  · cases hok
  · rename_i record hrecord
    split at hok
    · cases hok
    · rename_i wire' hframe
      split at hok
      · cases hok
      · rename_i seq' hnext
        obtain rfl := Except.ok.inj hok
        obtain ⟨rfl, hlt⟩ := next_eq_ok hnext
        refine ⟨record, hrecord, hframe, hlt, ?_⟩
        rfl

theorem exists_frame (e : Endpoint) (seq : UInt64) (outer : ContentType)
    (hlen : fragment.length ≤ 65535) :
    ∃ wire, e.frame seq (.assemble e.headerRoom outer fragment) = .ok wire := by
  let h := e.header seq (.assemble e.headerRoom outer fragment)
  have hsize : h.size ≤ e.headerRoom := by
    unfold h header Header.size headerRoom
    cases e.isDatagram with
    | true =>
      simp only [if_true, true_and]
      split <;> simp
    | false => exact Nat.le_refl _
  have hsub : Size.sub e.headerRoom h.size = .ok (e.headerRoom - h.size) := Size.sub_eq_ok hsize
  have hroom := Bytes.slice_eq_ok (x := Bytes.zeros e.headerRoom ++ fragment)
    (Nat.sub_le e.headerRoom h.size) (by simp)
  have hlength : (((Bytes.zeros e.headerRoom ++ fragment).drop (e.headerRoom - h.size)).take
      (e.headerRoom - (e.headerRoom - h.size))).length = h.size := by
    simp only [List.length_take, List.length_drop, List.length_append, Bytes.length_zeros]
    omega
  have hwrite := h.write_eq_ok hlen
  rw [← hlength] at hwrite
  simp only [frame, bind_eq_ok, pure_eq_ok, liftFault_eq_ok, liftRefusal_eq_ok]
  exact ⟨_, _, hsub, _, hroom, _, hwrite, rfl⟩

theorem exists_send (hseq : e.writeSeq.toNat + 1 < Size.bound) (hlen : fragment.length ≤ 65535)
    {outer : ContentType}
    (henc : (e.protection.encode e.context.randomness (e.packed e.writeEpoch e.writeSeq) t
      e.headerVersion e.headerRoom plaintext).1 = .ok (.assemble e.headerRoom outer fragment)) :
    ∃ wire, (e.send t plaintext).1 = .ok wire := by
  obtain ⟨wire, hframe⟩ := e.exists_frame (e.packed e.writeEpoch e.writeSeq) outer hlen
  have hnext : next e.writeSeq = .ok (e.writeSeq + 1) := if_pos hseq
  refine ⟨wire, ?_⟩
  unfold Endpoint.send
  dsimp only
  split
  · rename_i f herror
    cases herror.symm.trans henc
  · rename_i record hrecord
    obtain rfl := Except.ok.inj (hrecord.symm.trans henc)
    split
    · rename_i f herror
      cases herror.symm.trans hframe
    · rename_i wire' hwire
      obtain rfl := Except.ok.inj (hwire.symm.trans hframe)
      rw [hnext]

def numberOf (e : Endpoint) (h : Header) (n : Nat) : Except Failure UInt64 :=
  if h.version ≠ e.headerVersion then
    .error (.refused (.decodeError "unexpected record version"))
  else if n ≠ h.length then
    .error (.refused (.decodeError "record length does not match header"))
  else
    match h.sequence with
    | none => .ok e.readSeq
    | some seq =>
      if (seq >>> 48).toUInt16 ≠ e.readEpoch then
        .error (.refused (.unexpectedMessage "record from another epoch"))
      else .ok seq

theorem numberOf_eq_ok {h : Header} {seq : UInt64} {n : Nat} (hn : e.numberOf h n = .ok seq) :
    h.version = e.headerVersion ∧ n = h.length ∧ (h.sequence = none → seq = e.readSeq) ∧
      ∀ seq', h.sequence = some seq' → seq = seq' ∧ (seq >>> 48).toUInt16 = e.readEpoch := by
  unfold numberOf at hn
  split at hn
  · cases hn
  rename_i hversion
  split at hn
  · cases hn
  rename_i hlength
  refine ⟨Decidable.not_not.mp hversion, Decidable.not_not.mp hlength, ?_⟩
  cases hs : h.sequence with
  | none =>
    rw [hs] at hn
    exact ⟨fun _ => (Except.ok.inj hn).symm, by rintro seq' ⟨⟩⟩
  | some seq' =>
    simp only [hs] at hn
    split at hn
    · cases hn
    rename_i hepoch
    obtain rfl := Except.ok.inj hn
    refine ⟨by rintro ⟨⟩, ?_⟩
    rintro _ ⟨⟩
    exact ⟨rfl, Decidable.not_not.mp hepoch⟩

theorem accept_bytes {h : Header} (hf : h.Fits e.isDatagram e.context.params.localId.length) :
    e.accept (h.bytes ++ fragment) =
      (fun seq => (seq, h.contentType, fragment)) <$> e.numberOf h fragment.length := by
  have hsub : Size.sub (h.bytes ++ fragment).length h.size = .ok fragment.length := by
    rw [List.length_append, Header.length_bytes, Size.sub_eq_ok (Nat.le_add_right ..),
      Nat.add_sub_cancel_left]
  have hslice : (h.bytes ++ fragment).slice h.size (h.bytes ++ fragment).length =
      .ok fragment := by
    have hcut := Header.slice_append (x := h.bytes) (y := fragment) (z := []) h.length_bytes rfl
    rwa [List.append_nil, ← h.length_bytes, ← List.length_append, h.length_bytes] at hcut
  unfold accept numberOf
  simp only [Header.parse_bytes hf, hsub, hslice, liftFault_ok, ok_bind]
  split
  · rfl
  split
  · rfl
  cases h.sequence with
  | none => rfl
  | some seq =>
    dsimp only
    split <;> rfl

/-- A record is accepted if and only if it consists of a header that is right and of the fragment
that comes out. -/
theorem accept_iff {seq : UInt64}
    (hid : Header.datagramSize + e.context.params.localId.length < Size.bound) :
    e.accept wire = .ok (seq, t, fragment) ↔
      ∃ h : Header, wire = h.bytes ++ fragment ∧
        h.Fits e.isDatagram e.context.params.localId.length ∧ h.contentType = t ∧
        e.numberOf h fragment.length = .ok seq := by
  constructor
  · intro ha
    have hparse := ha
    unfold accept at hparse
    obtain ⟨h, hh, -⟩ := bind_eq_ok.mp hparse
    obtain ⟨hf, hwire⟩ := Header.parse_eq_ok hid hh
    rw [hwire, accept_bytes hf, map_eq_ok] at ha
    obtain ⟨n, hn, heq⟩ := ha
    obtain ⟨rfl, rfl, rfl⟩ : n = seq ∧ h.contentType = t ∧ wire.drop h.size = fragment := by
      simpa using heq
    exact ⟨h, hwire, hf, rfl, hn⟩
  · rintro ⟨h, rfl, hf, rfl, hn⟩
    rw [accept_bytes hf, hn]
    rfl

theorem accept_eq {h : Header} {seq : UInt64}
    (hf : h.Fits e.isDatagram e.context.params.localId.length)
    (hv : h.version = e.headerVersion) (hlen : h.length = fragment.length)
    (hs : h.sequence = if e.isDatagram then some seq else none)
    (hepoch : e.isDatagram = true → (seq >>> 48).toUInt16 = e.readEpoch)
    (hnext : e.isDatagram = false → seq = e.readSeq) :
    e.accept (h.bytes ++ fragment) = .ok (seq, h.contentType, fragment) := by
  have hn : e.numberOf h fragment.length = .ok seq := by
    unfold numberOf
    rw [if_neg (fun hne => hne hv), if_neg (fun hne => hne hlen.symm), hs]
    cases hd : e.isDatagram with
    | false => exact congrArg Except.ok (hnext hd).symm
    | true => exact if_neg (fun hne => hne (hepoch hd))
  rw [accept_bytes hf, hn]
  rfl

theorem receive_of_accept {seq : UInt64} (ha : e.accept wire = .ok (seq, t, fragment))
    (hd : (e.protection.decode seq t e.headerVersion fragment).1 = .ok received)
    (hlt : e.readSeq.toNat + 1 < Size.bound) :
    e.receive wire = (.ok received, { e with
      protection := (e.protection.decode seq t e.headerVersion fragment).2,
      readSeq := e.readSeq + 1 }) := by
  have hnext : next e.readSeq = .ok (e.readSeq + 1) := if_pos hlt
  unfold Endpoint.receive
  simp only [ha, hd, hnext]

theorem Serves.isDatagram (h : e.Serves s r) : e.isDatagram = s.version.isDatagram :=
  congrArg Version.isDatagram h.version

theorem Serves.number_write (h : e.Serves s r) :
    e.packed e.writeEpoch e.writeSeq = e.writeLink.number s.version.isDatagram := by
  rw [← h.isDatagram]
  rfl

theorem Serves.fits (h : e.Serves s r) (hid : AdditionalData.Holds (s.idOf r.peer)) (seq : UInt64)
    (room : Nat) (outer : ContentType) (hlen : fragment.length ≤ 65535) :
    (e.header seq (.assemble room outer fragment)).Fits s.version.isDatagram
      (s.idOf r.peer).length := by
  have hd := h.isDatagram
  refine ⟨hlen, ?_, ?_, ?_⟩
  · rw [← hd]
    unfold header
    cases e.isDatagram <;> rfl
  · rw [← hd, ← h.peerId]
    exact apply_ite List.length _ _ _
  · exact hid.datagramSize_lt

theorem Serves.send (h : e.Serves s r) (hid : AdditionalData.Holds (s.idOf r.peer))
    (ht : e.protection.writing.inner = true → t.code ≠ 0)
    (hok : (e.send t plaintext).1 = .ok wire) :
    (e.send t plaintext).2.Serves s r ∧ (e.send t plaintext).2.readLink = e.readLink ∧
      ∃ fragment, e.writeLink.Bears s r wire ⟨plaintext, t⟩ fragment ∧
        (e.send t plaintext).2.writeLink = e.writeLink.record fragment := by
  obtain ⟨record, hrec, hframe, hlt, hafter⟩ := send_eq_ok hok
  obtain ⟨fragment, rfl, hlen, hc, hw⟩ := h.ready.encode_ok hrec
  obtain ⟨hle, hwire⟩ := frame_eq_ok hframe
  obtain ⟨hready, -, hreading⟩ := h.ready.encode_frame e.context.randomness
    (e.packed e.writeEpoch e.writeSeq) t e.headerVersion e.headerRoom plaintext
  have hserves : (e.send t plaintext).2.Serves s r := by
    rw [hafter]
    refine { h with ready := hready, rekeyable := ?_, holds := ?_ }
    · intro h13
      exact (h.rekeyable h13).encode h.ready ..
    · rw [hreading]
      exact h.holds
  refine ⟨hserves, ?_, fragment, ⟨hlt, _, hwire, h.fits hid _ _ _ hle, h.headerVersion, rfl, ?_,
    InnerPlaintext.wrap e.protection.writing.inner t plaintext, ?_, ?_⟩, ?_⟩
  · rw [hafter]
    exact congrArg (Link.mk · _ _ _) hreading
  · rw [← h.number_write, ← h.isDatagram]
    rfl
  · rw [← h.number_write, ← h.headerVersion]
    exact hc
  · exact InnerPlaintext.recover_wrap ht (fun hi => Direction.outer_eq hi t) plaintext
  · rw [hafter]
    exact congrArg (Link.mk · _ _ _) hw

theorem Serves.headerRoom_le (h : e.Serves s r) (hid : (s.idOf r.peer).length ≤ 255) :
    e.headerRoom ≤ 268 := by
  unfold headerRoom Header.datagramSize Header.streamSize
  rw [h.peerId]
  split <;> omega

theorem Serves.exists_encode (h : e.Serves s r) (hid : (s.idOf r.peer).length ≤ 255)
    {p : IntegrityProtection} (hp : e.protection = .integrity p) (t : ContentType)
    (hlen : plaintext.length ≤ 2 ^ 32) :
    ∃ fragment, (e.protection.encode e.context.randomness (e.packed e.writeEpoch e.writeSeq) t
        e.headerVersion e.headerRoom plaintext).1 =
          .ok (.assemble e.headerRoom .applicationData fragment) ∧
      plaintext.length < fragment.length ∧ fragment.length ≤ plaintext.length + 65 := by
  have hready := h.ready
  rw [hp] at hready
  have hsize := p.encoder.hash.size_le
  have hroom := h.headerRoom_le hid
  have hcap : 2 ^ 32 + 333 ≤ Size.capacity := by decide
  obtain ⟨fragment, henc, hfragment⟩ := hready.1.exists_encode
    (e.packed e.writeEpoch e.writeSeq) t e.headerVersion e.headerRoom plaintext (by omega)
  rw [hp]
  exact ⟨fragment, henc, by omega, by omega⟩

theorem Serves.exists_send (h : e.Serves s r) (hid : (s.idOf r.peer).length ≤ 255)
    {p : IntegrityProtection} (hp : e.protection = .integrity p)
    (hseq : e.writeSeq.toNat + 1 < Size.bound) (t : ContentType)
    (hlen : plaintext.length ≤ 65470) : ∃ wire, (e.send t plaintext).1 = .ok wire := by
  have hmemory : plaintext.length ≤ 2 ^ 32 := by omega
  obtain ⟨fragment, henc, -, hfragment⟩ := h.exists_encode hid hp t hmemory
  exact Endpoint.exists_send hseq (by omega) henc

theorem Serves.accept_of_bears (h : e.Serves s r.peer) (hb : l.Bears s r wire received fragment)
    (hepoch : s.version.isDatagram = true → l.epoch = e.readEpoch)
    (hseq : s.version.isDatagram = false → l.seq = e.readSeq) :
    ∃ t payload, e.accept wire = .ok (l.number s.version.isDatagram, t, fragment) ∧
      fragment.length ≤ Size.capacity ∧
      l.direction.Carries (l.number s.version.isDatagram) t e.headerVersion fragment payload ∧
      InnerPlaintext.recover l.direction.inner t payload = .ok received := by
  obtain ⟨-, header, rfl, hf, hversion, hlen, hs, payload, hc, hrecover⟩ := hb
  have hd := h.isDatagram
  have hcap : fragment.length ≤ Size.capacity := by
    have hle := hf.length_le
    have hbig : 65535 ≤ Size.capacity := by decide
    omega
  rw [← h.headerVersion] at hc
  refine ⟨header.contentType, payload, ?_, hcap, hc, hrecover⟩
  refine accept_eq ?_ (hversion.trans h.headerVersion.symm) hlen ?_ ?_ ?_
  · rw [hd, h.localId]
    exact hf
  · rw [hd]
    exact hs
  · intro hdatagram
    rw [hd] at hdatagram
    rw [Link.number, hdatagram, ← hepoch hdatagram]
    exact epoch_of_number l.epoch l.seq
  · intro hstream
    rw [hd] at hstream
    rw [Link.number, hstream, ← hseq hstream]
    rfl

/-- What a link bears is received by an end that reads with the same keys and the same chain. -/
theorem Serves.receive_of_bears (h : e.Serves s r.peer) (hb : l.Bears s r wire received fragment)
    (hk : l.direction.SameKeys e.protection.reading)
    (hchain : l.direction.chain? = e.protection.reading.chain?)
    (hepoch : s.version.isDatagram = true → l.epoch = e.readEpoch)
    (hseq : s.version.isDatagram = false → l.seq = e.readSeq)
    (hlt : e.readSeq.toNat + 1 < Size.bound) :
    (e.receive wire).1 = .ok received ∧ (e.receive wire).2.Serves s r.peer ∧
      (e.receive wire).2.writeLink = e.writeLink ∧
      (e.receive wire).2.readLink = e.readLink.record fragment := by
  obtain ⟨t, payload, haccept, hcap, hc, hrecover⟩ := h.accept_of_bears hb hepoch hseq
  have hcarries := (hk.carries_iff hchain).mpr hc
  rw [← hk.inner_eq] at hrecover
  have hdec := (h.ready.decode_ok_iff hcap h.holds).mpr ⟨payload, hcarries, hrecover⟩
  obtain ⟨hready, hwriting, hkeys⟩ := h.ready.decode_frame (l.number s.version.isDatagram) t
    e.headerVersion fragment
  rw [receive_of_accept haccept hdec hlt]
  refine ⟨rfl, ?_, congrArg (Link.mk · _ _ _) hwriting,
    congrArg (Link.mk · _ _ _) (h.ready.decode_reading hcarries)⟩
  refine { h with ready := hready, rekeyable := ?_, holds := ?_ }
  · intro h13
    exact (h.rekeyable h13).decode h.ready ..
  · rw [hkeys.id_eq]
    exact h.holds

theorem Serves.receive (h : e.Serves s r.peer)
    (hb : e.readLink.Bears s r wire received fragment) :
    (e.receive wire).1 = .ok received ∧ (e.receive wire).2.Serves s r.peer ∧
      (e.receive wire).2.writeLink = e.writeLink ∧
      (e.receive wire).2.readLink = e.readLink.record fragment :=
  h.receive_of_bears hb (.refl _) rfl (fun _ => rfl) (fun _ => rfl) hb.seq_lt

theorem Serves.update_eq_ok (h : e.Serves s r) {owner : Role}
    (hs : l.secret = e.context.trafficSecret owner)
    (hl : l.update s.version s.suite.prfHash = .ok l') :
    ∃ secret d, e.context.updateTrafficSecret owner =
        .ok (e.context.setTrafficSecret owner secret) ∧
      l.direction.rekey e.context.version e.context.params.prfHash secret = .ok d ∧
      l' = ⟨d, some secret, l.epoch + 1, 0⟩ := by
  rw [← h.version, ← h.prfHash] at hl
  simp only [Link.update, bind_eq_ok, pure_eq_ok, forRecord_eq_ok] at hl
  obtain ⟨secret, hsecret, d, hd, rfl⟩ := hl
  rw [Link.nextSecret, hs] at hsecret
  exact ⟨secret, d, map_eq_ok.mpr ⟨secret, hsecret, rfl⟩, hd, rfl⟩

theorem Serves.withKeys (h : e.Serves s r) {owner : Role}
    {secret : Secret} {p : Protection} (hready : p.Ready) (hkeys : p.Rekeyable)
    (hid : p.reading.id = e.protection.reading.id) (w w' : UInt16) (n n' : UInt64) :
    (⟨e.context.setTrafficSecret owner secret, p, e.headerVersion, w, w', n, n'⟩ :
      Endpoint).Serves s r where
  role := (Context.role_setTrafficSecret ..).trans h.role
  version := (congrArg Parameters.version (Context.params_setTrafficSecret ..)).trans h.version
  prfHash := (congrArg Parameters.prfHash (Context.params_setTrafficSecret ..)).trans h.prfHash
  localId := (congrArg Parameters.localId (Context.params_setTrafficSecret ..)).trans h.localId
  peerId := (congrArg Parameters.peerId (Context.params_setTrafficSecret ..)).trans h.peerId
  headerVersion := h.headerVersion
  ready := hready
  rekeyable := fun _ => hkeys
  holds := hid ▸ h.holds

theorem Serves.updateKeys (h : e.Serves s r) (h13 : s.version.isTls13 = true) (side : Side)
    (hl : (e.link side).update s.version s.suite.prfHash = .ok l) :
    (e.updateKeys side).1 = .ok () ∧ (e.updateKeys side).2.Serves s r ∧
      (e.updateKeys side).2.link side.other = e.link side.other ∧
      (e.updateKeys side).2.link side = l := by
  obtain ⟨secret, d, hupdate, hd, rfl⟩ := h.update_eq_ok (e.secret_link side) hl
  rw [direction_link] at hd
  generalize hc : e.context.setTrafficSecret (side.owner e.role) secret = c at hupdate
  have hparams : c.params = e.context.params := hc ▸ e.context.params_setTrafficSecret ..
  have hrole : c.role = e.role := hc ▸ e.context.role_setTrafficSecret ..
  have hsecret : c.trafficSecret (side.owner c.role) = some secret := by
    rw [hrole, ← hc, Context.trafficSecret_setTrafficSecret]
  have hother : c.trafficSecret (side.other.owner c.role) =
      e.context.trafficSecret (side.other.owner e.role) := by
    rw [hrole, ← hc, Side.owner_other, Context.trafficSecret_setTrafficSecret_peer]
  have hid := Direction.id_of_rekey hd
  rw [Context.version, ← hparams] at hd
  obtain ⟨p, hp, hnew, hold, hkeys, hready⟩ := (h.rekeyable h13).rekey h.ready hsecret hd
  have hreading : p.reading.id = e.protection.reading.id := by
    cases side
    · exact congrArg Direction.id hold
    · exact (congrArg Direction.id hnew).trans hid
  have hafter : e.updateKeys side =
      (.ok (), nextEpoch { e with context := c, protection := p } side) := by
    simp only [Endpoint.updateKeys, forRecord_eq_ok.mpr hupdate, hp]
  rw [hafter]
  refine ⟨rfl, ?_, ?_, ?_⟩
  · cases side <;> exact hc ▸ h.withKeys hready hkeys hreading ..
  · rw [link_nextEpoch_other, link_withKeys, hold, hother, ← direction_link, ← secret_link]
  · rw [link_nextEpoch, link_withKeys, hnew, hsecret]

end Endpoint

end RecordLayer
