import RecordLayer.Proofs.Generations

/-! # Connection IDs in headers

Before traffic secrets came into use, an end that has a connection ID authenticates its own ID, in
a layout that has no place for the type in the header, and takes the true type from the plaintext.
Nothing compares the header with either of them. So a record that is received is received just as
well if its header carries another type, another connection ID or none.
-/

namespace RecordLayer

open Connection (Settings)

variable {s : UInt64} {t u : ContentType} {v : Version} {id fragment : Bytes}

namespace RecordMac

variable {m : RecordMac}

theorem header_of_id (hid : id ≠ []) (n : Nat) : m.header s t id n = m.header s u id n := by
  rw [header_of_ne_nil hid, header_of_ne_nil hid]

theorem tag_of_id (hid : id ≠ []) (message : Bytes) :
    m.tag s t id message = m.tag s u id message := by
  unfold tag
  rw [header_of_id hid]

theorem uniformTag_of_id (hid : id ≠ []) (message : Bytes) (fullSize : Nat) (dummy : Bytes) :
    m.uniformTag s t id message fullSize dummy = m.uniformTag s u id message fullSize dummy := by
  unfold uniformTag
  rw [tag_of_id hid]

end RecordMac

namespace Direction

variable {d d' : Direction}

/-- What is authenticated says the connection ID of the reader, and not the type in the header. -/
def Marked : Direction → Prop
  | aead d => d.isTls13 = false ∧ d.id ≠ []
  | block d => d.id ≠ []
  | null d => d.mac.isSome ∧ d.id ≠ []
  | integrity _ => False

theorem SameKeys.marked (h : d.SameKeys d') (hm : d.Marked) : d'.Marked := by
  obtain ⟨chain, rfl⟩ := h
  cases d <;> exact hm

end Direction

theorem AeadDirection.decode_of_id {d : AeadDirection} (h13 : d.isTls13 = false)
    (hid : d.id ≠ []) : d.decode s t v fragment = d.decode s u v fragment := by
  have hne : d.id.isEmpty = false := by simpa using hid
  have hinner : d.inner = true := by simp [inner, hne]
  have hdata (n : Nat) : d.additionalData s t v n = d.additionalData s u v n := by
    simp only [additionalData, AdditionalData.ofAead, h13, hne, Bool.false_eq_true, if_false]
  unfold decode
  simp only [hdata, hinner, InnerPlaintext.unwrap, if_true]

theorem NullDirection.decode_of_id {d : NullDirection} (hmac : d.mac.isSome) (hid : d.id ≠ []) :
    d.decode s t fragment = d.decode s u fragment := by
  obtain ⟨_ | m, id⟩ := d
  · cases hmac
  · have hinner (m : RecordMac) : (⟨some m, id⟩ : NullDirection).inner = true := by
      simpa [inner] using hid
    unfold decode
    simp only [RecordMac.tag_of_id hid (t := t) (u := u), hinner, InnerPlaintext.unwrap, if_true]

namespace BlockDecoder

variable {d : BlockDecoder}

theorem verify_of_id (hid : d.id ≠ []) (body : Bytes) :
    d.verify s t body = d.verify s u body := by
  unfold verify
  simp only [RecordMac.uniformTag_of_id hid (t := t) (u := u)]

theorem Ready.decode_of_id (h : d.Ready) (hid : d.id ≠ []) :
    d.decode s t fragment = d.decode s u fragment := by
  have htrailer : d.trailer s t (d.blocksOf fragment) = d.trailer s u (d.blocksOf fragment) := by
    unfold BlockDirection.trailer
    rw [RecordMac.tag_of_id hid]
  by_cases hm : d.Malformed fragment
  · obtain ⟨reason, hsplit⟩ := split_malformed hm
    unfold decode
    rw [hsplit]
  by_cases hf : d.trailer s t (d.blocksOf fragment) = d.trailerOf fragment
  · have hinner : d.inner = true := by simpa [BlockDirection.inner] using hid
    have hverify := verify_of_id (s := s) (t := t) (u := u)
      (d := d.withChain (d.cbc.lastBlock (d.blocksOf fragment))) hid (d.bodyOf fragment)
    rw [h.decode_eq hm hf, h.decode_eq hm (htrailer.symm.trans hf), hverify, hinner]
    rfl
  · rw [h.decode_forged hm hf, h.decode_forged hm (htrailer ▸ hf)]

end BlockDecoder

/-- Behind a connection ID, the type in the header makes no difference, neither to what a fragment
is decoded to nor to the state that is left. -/
theorem Protection.Ready.decode_of_marked {p : Protection} (h : p.Ready) (hm : p.reading.Marked)
    (s : UInt64) (t u : ContentType) (v : Version) (fragment : Bytes) :
    p.decode s t v fragment = p.decode s u v fragment := by
  cases p with
  | aead p => exact congrArg (·, Protection.aead p) (AeadDirection.decode_of_id hm.1 hm.2)
  | block p =>
    unfold decode
    simp only [h.2.decode_of_id hm (t := t) (u := u)]
  | null p =>
    unfold decode
    simp only [NullDirection.decode_of_id hm.1 hm.2 (t := t) (u := u)]
  | integrity p => exact hm.elim

namespace Family

variable {c c' : Context} {f : Family} {p : Protection}

theorem marked_of_build (h : f.build c = (.ok p, c')) (hv : c.version.isTls13 = false)
    (hid : c.params.localId ≠ []) (hf : f ≠ .passthrough) : p.reading.Marked := by
  have hreading := (keyedFrom_of_build h).reading
  cases f with
  | aead a =>
    obtain ⟨d, hd, hread⟩ := map_eq_ok.mp hreading
    obtain ⟨hdid, hd13⟩ := AeadDirection.fields_of hd
    rw [← hread]
    exact ⟨hd13.trans hv, hdid ▸ hid⟩
  | block k a =>
    simp only [direction, BlockDirection.of, map_eq_ok, bind_eq_ok, pure_eq_ok] at hreading
    obtain ⟨d, ⟨keys, -, mac, -, cbc, -, rfl⟩, hread⟩ := hreading
    rw [← hread]
    exact hid
  | null a =>
    simp only [direction, NullDirection.of, map_eq_ok, bind_eq_ok, pure_eq_ok] at hreading
    obtain ⟨d, ⟨keys, -, mac, -, rfl⟩, hread⟩ := hreading
    rw [← hread]
    exact ⟨rfl, hid⟩
  | passthrough => exact absurd rfl hf
  | integrity hash =>
    obtain ⟨p', hp, -⟩ := map_eq_ok.mp (Prod.mk.inj h).1
    unfold IntegrityProtection.new at hp
    rw [hv] at hp
    cases hp

theorem ofSuite_ne_passthrough {suite : CipherSuite} (hsuite : suite ∈ CipherSuite.all)
    (hnull : suite ≠ .nullWithNullNull) (v : Version) : ofSuite v suite ≠ .passthrough := by
  have hprotected : suite.bulk ≠ .null ∨ suite.mac ≠ .null := by
    revert suite
    decide
  unfold ofSuite
  split
  · rename_i hbulk hmac
    rcases hprotected with hne | hne
    · exact absurd hbulk hne
    · cases hm : suite.mac with
      | null => exact absurd hm hne
      | hmac hash =>
        rw [hm, Protection.macOf] at hmac
        split at hmac <;> cases hmac
      | ssl3 hash =>
        rw [hm] at hmac
        cases hmac
  all_goals rintro ⟨⟩

end Family

def Header.readdress (h : Header) (t : ContentType) (id : Bytes) : Header :=
  { h with contentType := t, connectionId := id }

namespace Endpoint

variable {e : Endpoint} {h : Header}

theorem accept_readdress (hf : h.Fits e.isDatagram e.context.params.localId.length)
    (hf' : (h.readdress t id).Fits e.isDatagram e.context.params.localId.length) :
    e.accept ((h.readdress t id).bytes ++ fragment) =
      (fun a => (a.1, t, a.2.2)) <$> e.accept (h.bytes ++ fragment) := by
  have hsame : e.numberOf (h.readdress t id) fragment.length = e.numberOf h fragment.length := rfl
  rw [accept_bytes hf, accept_bytes hf', hsame]
  cases e.numberOf h fragment.length <;> rfl

theorem receive_readdress (hready : e.protection.Ready) (hm : e.protection.reading.Marked)
    (hf : h.Fits e.isDatagram e.context.params.localId.length)
    (hf' : (h.readdress t id).Fits e.isDatagram e.context.params.localId.length)
    (fragment : Bytes) :
    e.receive ((h.readdress t id).bytes ++ fragment) = e.receive (h.bytes ++ fragment) := by
  unfold receive
  rw [accept_readdress hf hf']
  cases e.accept (h.bytes ++ fragment) with
  | error failure => rfl
  | ok a =>
    obtain ⟨seq, u, x⟩ := a
    dsimp only [Functor.map, Except.map]
    rw [hready.decode_of_marked hm seq t u]

end Endpoint

namespace Connection

variable {s : Settings} {r : Role} {conn : Connection} {e : Endpoint} {W R : List Item}
  {wire : Bytes} {received : Recovered}

theorem marked_of_establish (hsuite : s.suite ∈ CipherSuite.all)
    (hnull : s.suite ≠ .nullWithNullNull) (h12 : s.version.isTls13 = false) (hid : s.idOf r ≠ [])
    (h : establish s = .ok conn) : (conn.endpoint r).protection.reading.Marked := by
  obtain ⟨k, hk⟩ := endpoint_of_establish h
  obtain ⟨c, p, randomness, hc, hp, he⟩ := Settings.endpoint_eq_ok (hk r)
  obtain ⟨-, hversion, -, hlocal, -⟩ := Settings.fields_of_context hc
  rw [he]
  exact Family.marked_of_build (Family.build_ofSuite hp)
    ((congrArg Version.isTls13 hversion).trans h12) (hlocal ▸ hid)
    (Family.ofSuite_ne_passthrough hsuite hnull _)

/-- A datagram endpoint that expects a connection ID checks version, epoch and length in the header
of a record that it receives, but neither the type nor the connection ID. It makes the same of the
record under the right header and under every other type and connection ID. -/
theorem receive_readdressed (hsuite : s.suite ∈ CipherSuite.all)
    (hnull : s.suite ≠ .nullWithNullNull) (hv : s.version = .dtls10 ∨ s.version = .dtls12)
    (hholds : ∀ r, AdditionalData.Holds (s.idOf r)) (hid : s.idOf r ≠ [])
    (h : establish s = .ok conn) (hrun : (conn.endpoint r).Run W R e)
    (hok : (e.receive wire).1 = .ok received) :
    ∃ (header : Header) (fragment : Bytes) (seq : UInt64), wire = header.bytes ++ fragment ∧
      header.Fits true (s.idOf r).length ∧ header.version = s.version ∧
      header.length = fragment.length ∧ header.sequence = some seq ∧
      (seq >>> 48).toUInt16 = e.readEpoch ∧
      (header.readdress .connectionId (s.idOf r)).Fits true (s.idOf r).length ∧
      ∀ t id, (header.readdress t id).Fits true (s.idOf r).length →
        e.receive ((header.readdress t id).bytes ++ fragment) = e.receive wire := by
  obtain ⟨hd, h12, hheader⟩ : s.version.isDatagram = true ∧ s.version.isTls13 = false ∧
      s.version.headerVersion = s.version := by
    rcases hv with hv | hv <;> rw [hv] <;> exact ⟨rfl, rfl, rfl⟩
  obtain ⟨hserves, -, hread⟩ := follows_of_run hsuite hholds h hrun
  have hlocal := hserves.localId
  obtain ⟨-, hlive⟩ := live_of_establish hsuite hholds h r
  have hkeys := (hread.leads.sameKeys_of_secretless (hlive.secretless h12)).direction
  have hmarked : e.protection.reading.Marked :=
    hkeys.marked (marked_of_establish hsuite hnull h12 hid h)
  rcases e.receive_cases wire with ⟨failure, hres⟩ | ⟨seq, t, fragment, haccept, -⟩
  · rw [hres] at hok
    cases hok
  rw [Endpoint.accept_iff (hlocal ▸ (hholds r).datagramSize_lt), hserves.isDatagram, hd,
    hlocal] at haccept
  obtain ⟨header, rfl, hf, -, hnumber⟩ := haccept
  obtain ⟨hversion, hlength, -, hseq⟩ := Endpoint.numberOf_eq_ok hnumber
  obtain ⟨seq', hs⟩ := Option.isSome_iff_exists.mp hf.sequence
  obtain ⟨rfl, hepoch⟩ := hseq seq' hs
  rw [hserves.headerVersion, hheader] at hversion
  have hright : (header.readdress .connectionId (s.idOf r)).Fits true (s.idOf r).length :=
    ⟨hf.length_le, hf.sequence, rfl, hf.idSize_le⟩
  refine ⟨header, fragment, seq, rfl, hf, hversion, hlength.symm, hs, hepoch, hright, ?_⟩
  intro t' id hf'
  rw [← hd, ← hserves.isDatagram, ← hlocal] at hf hf'
  exact Endpoint.receive_readdress hserves.ready hmarked hf hf' fragment

/-- A connection whose server expects a connection ID. -/
def Settings.addressed : Settings where
  suite := ⟨0x0002, "TLS_RSA_WITH_NULL_SHA", .null, .hmac .sha1, .sha256⟩
  version := .dtls12
  serverId := [1, 2, 3, 4]

theorem Settings.suite_addressed : addressed.suite ∈ CipherSuite.all := by decide

theorem Settings.holds_addressed (r : Role) : AdditionalData.Holds (addressed.idOf r) := by
  cases r <;> decide

theorem exists_addressed : ∃ (conn : Connection) (header : Header) (fragment : Bytes),
    establish .addressed = .ok conn ∧ header.Fits true 4 ∧
      ((conn.endpoint .server).receive (header.bytes ++ fragment)).1 =
        .ok ⟨[1, 2, 3], .applicationData⟩ := by
  obtain ⟨conn, hc⟩ := exists_establish_null (s := .addressed) rfl rfl rfl rfl rfl
  have hholds := Settings.holds_addressed
  obtain ⟨hclient, hlink, hseq, -⟩ := serves_of_establish Settings.suite_addressed hholds hc .client
  obtain ⟨hserver, -, -, -⟩ := serves_of_establish Settings.suite_addressed hholds hc .server
  obtain ⟨p, hp⟩ := null_of_establish rfl hc .client
  have hready := hclient.ready
  rw [hp] at hready
  have hmac := hready.1.macSize_le
  have hroom := hclient.headerRoom_le (by decide)
  have hcap : 1000 ≤ Size.capacity := by decide
  generalize conn.endpoint .client = e at *
  have hplain : ([1, 2, 3] : Bytes).length = 3 := rfl
  obtain ⟨outer, fragment, henc, hlen⟩ := hready.1.exists_encode
    (e.packed e.writeEpoch e.writeSeq) .applicationData e.headerRoom [1, 2, 3] (by omega)
  have hencode : (e.protection.encode e.context.randomness (e.packed e.writeEpoch e.writeSeq)
      .applicationData e.headerVersion e.headerRoom [1, 2, 3]).1 =
        .ok (.assemble e.headerRoom outer fragment) := by
    rw [hp]
    exact henc
  obtain ⟨wire, hsend⟩ := Endpoint.exists_send (by rw [hseq]; decide) (by omega) hencode
  obtain ⟨-, -, fragment', hbears, -⟩ := hclient.send (hholds _) (fun _ => by decide) hsend
  rw [← hlink] at hbears
  obtain ⟨hreceived, -⟩ := hserver.receive hbears
  obtain ⟨-, header, rfl, hf, -⟩ := hbears
  exact ⟨conn, header, fragment', hc, hf, hreceived⟩

/-- A record of the client, without its connection ID and with it. -/
theorem receive_readdressed_stripped :
    ∃ (conn : Connection) (header : Header) (fragment : Bytes),
      establish .addressed = .ok conn ∧
      (conn.endpoint .server).receive ((header.readdress .applicationData []).bytes ++ fragment) =
        (conn.endpoint .server).receive
          ((header.readdress .connectionId [1, 2, 3, 4]).bytes ++ fragment) ∧
      ((conn.endpoint .server).receive
          ((header.readdress .connectionId [1, 2, 3, 4]).bytes ++ fragment)).1 =
        .ok ⟨[1, 2, 3], .applicationData⟩ := by
  obtain ⟨conn, header, fragment, hc, -, hreceived⟩ := exists_addressed
  obtain ⟨header, fragment, -, -, hf, -, -, -, -, hright, heq⟩ :=
    receive_readdressed (r := .server) Settings.suite_addressed (by decide) (Or.inr rfl)
      Settings.holds_addressed (by decide) hc .start hreceived
  have hstripped : (header.readdress .applicationData []).Fits true 4 :=
    ⟨hf.length_le, hf.sequence, rfl, hf.idSize_le⟩
  refine ⟨conn, header, fragment, hc, ?_, ?_⟩
  · exact (heq _ _ hstripped).trans (heq _ _ hright).symm
  · exact (congrArg Prod.fst (heq _ _ hright)).trans hreceived

/-- The server receives a record that says another type and no connection ID, and one that says
another connection ID than that of the server. -/
theorem received_without_id :
    ∃ (conn : Connection) (wire wire' : Bytes) (header header' : Header),
      establish .addressed = .ok conn ∧
      Header.parse wire true 4 = .ok header ∧ header.contentType = .applicationData ∧
      ((conn.endpoint .server).receive wire).1 = .ok ⟨[1, 2, 3], .applicationData⟩ ∧
      Header.parse wire' true 4 = .ok header' ∧ header'.contentType = .connectionId ∧
      header'.connectionId = [5, 6, 7, 8] ∧
      ((conn.endpoint .server).receive wire').1 = .ok ⟨[1, 2, 3], .applicationData⟩ := by
  obtain ⟨conn, header, fragment, hc, hf, hreceived⟩ := exists_addressed
  obtain ⟨hserver, -, -, -⟩ :=
    serves_of_establish Settings.suite_addressed Settings.holds_addressed hc .server
  have hmarked := marked_of_establish (r := .server) Settings.suite_addressed (by decide) rfl
    (by decide) hc
  have hstripped : (header.readdress .applicationData []).Fits true 4 :=
    ⟨hf.length_le, hf.sequence, rfl, hf.idSize_le⟩
  have haltered : (header.readdress .connectionId [5, 6, 7, 8]).Fits true 4 :=
    ⟨hf.length_le, hf.sequence, rfl, hf.idSize_le⟩
  have hsame {t : ContentType} {id : Bytes} (hf' : (header.readdress t id).Fits true 4) :
      ((conn.endpoint .server).receive ((header.readdress t id).bytes ++ fragment)).1 =
        .ok ⟨[1, 2, 3], .applicationData⟩ := by
    rw [← hreceived]
    refine congrArg Prod.fst (Endpoint.receive_readdress hserver.ready hmarked ?_ ?_ fragment)
    · rw [hserver.isDatagram, hserver.localId]
      exact hf
    · rw [hserver.isDatagram, hserver.localId]
      exact hf'
  exact ⟨conn, _, _, _, _, hc, Header.parse_bytes hstripped fragment, rfl, hsame hstripped,
    Header.parse_bytes haltered fragment, rfl, rfl, hsame haltered⟩

end Connection

end RecordLayer
