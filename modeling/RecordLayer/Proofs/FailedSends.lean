import RecordLayer.Proofs.Chains
import RecordLayer.Proofs.Generations

/-! # Failed sends

A send that fails sends nothing, so the peer should not notice. In the versions that chain records
together it does, if the protection made a fragment that is too long for its header: the chain has
moved on to a record that the peer never sees.
-/

namespace RecordLayer

open Connection (Settings)

variable {s : Settings} {r : Role} {e f : Endpoint} {t : ContentType} {plaintext wire : Bytes}
  {failure : Failure} {contents : List Recovered}

namespace Endpoint

/-- If the plaintext makes a fragment, the length of the fragment fits its header. -/
def Fits (e : Endpoint) (content : Recovered) : Prop :=
  ∀ record, (e.protection.encode e.context.randomness (e.packed e.writeEpoch e.writeSeq)
    content.contentType e.headerVersion e.headerRoom content.plaintext).1 = .ok record →
      record.size ≤ 65535

def AllFit (e : Endpoint) : List Recovered → Prop
  | [] => True
  | content :: contents =>
    e.Fits content ∧ (e.send content.contentType content.plaintext).2.AllFit contents

/-- The end `r` and its peer work with the same keys, and the peer waits for the record that comes
next. -/
structure Paired (e f : Endpoint) (s : Settings) (r : Role) : Prop where
  writer : e.Serves s r
  reader : f.Serves s r.peer
  keys : e.writeLink.SameKeys f.readLink
  seq : f.readSeq = e.writeSeq

theorem exists_error_of_long {outer : ContentType} {fragment : Bytes}
    (henc : (e.protection.encode e.context.randomness (e.packed e.writeEpoch e.writeSeq) t
      e.headerVersion e.headerRoom plaintext).1 = .ok (.assemble e.headerRoom outer fragment))
    (hlen : 65535 < fragment.length) : ∃ failure, (e.send t plaintext).1 = .error failure := by
  cases hres : (e.send t plaintext).1 with
  | error failure => exact ⟨failure, rfl⟩
  | ok wire =>
    obtain ⟨record, hrecord, hframe, -⟩ := send_eq_ok hres
    obtain rfl := Except.ok.inj (hrecord.symm.trans henc)
    exact absurd (frame_eq_ok hframe).1 (Nat.not_le.mpr hlen)

theorem sendAll_exhausted (hseq : Size.bound ≤ e.writeSeq.toNat + 1) (contents : List Recovered) :
    (e.sendAll contents).1 = [] := by
  induction contents generalizing e with
  | nil => rfl
  | cons content contents ih =>
    obtain ⟨plaintext, t⟩ := content
    cases hres : (e.send t plaintext).1 with
    | ok wire =>
      obtain ⟨record, -, -, hlt, -⟩ := send_eq_ok hres
      omega
    | error failure =>
      rw [sendAll_cons_error hres]
      refine ih ?_
      rw [send_eq_error hres]
      exact hseq

theorem Serves.chain?_of_fits (h : e.Serves s r) (hseq : e.writeSeq.toNat + 1 < Size.bound)
    (hfit : e.Fits ⟨plaintext, t⟩) (herr : (e.send t plaintext).1 = .error failure) :
    (e.send t plaintext).2.writeLink.direction.chain? = e.writeLink.direction.chain? := by
  rw [send_eq_error herr]
  cases henc : (e.protection.encode e.context.randomness (e.packed e.writeEpoch e.writeSeq) t
      e.headerVersion e.headerRoom plaintext).1 with
  | error f => exact congrArg Direction.chain? (h.ready.writing_of_encode_error henc)
  | ok record =>
    have hlen := hfit record henc
    obtain ⟨fragment, rfl, -⟩ := h.ready.encode_ok henc
    obtain ⟨wire, hok⟩ := Endpoint.exists_send hseq hlen henc
    rw [hok] at herr
    cases herr

theorem Paired.send_error (h : e.Paired f s r) (herr : (e.send t plaintext).1 = .error failure) :
    (e.send t plaintext).2.Paired f s r := by
  obtain ⟨hserves, -, hkeys⟩ := h.writer.send_frame t plaintext
  refine ⟨hserves, h.reader, hkeys.symm.trans h.keys, ?_⟩
  rw [send_eq_error herr]
  exact h.seq

theorem Paired.receive (h : e.Paired f s r) (hid : AdditionalData.Holds (s.idOf r.peer))
    (hchain : e.writeLink.direction.chain? = f.readLink.direction.chain?)
    (ht : e.protection.writing.inner = true → t.code ≠ 0)
    (hok : (e.send t plaintext).1 = .ok wire) :
    (f.receive wire).1 = .ok ⟨plaintext, t⟩ ∧
      (e.send t plaintext).2.Paired (f.receive wire).2 s r ∧
      (e.send t plaintext).2.writeLink.direction.chain? =
        (f.receive wire).2.readLink.direction.chain? := by
  obtain ⟨hwriter, -, fragment, hb, hwrite⟩ := h.writer.send hid ht hok
  have hlt : f.readSeq.toNat + 1 < Size.bound := h.seq ▸ hb.seq_lt
  obtain ⟨hrec, hreader, -, hread⟩ := h.reader.receive_of_bears hb h.keys.direction hchain
    (fun _ => h.keys.epoch.symm) (fun _ => h.seq.symm) hlt
  obtain ⟨-, -, hwkeys⟩ := h.writer.send_frame t plaintext
  obtain ⟨-, -, hrkeys⟩ := h.reader.receive_frame wire
  refine ⟨hrec, ⟨hwriter, hreader, hwkeys.symm.trans (h.keys.trans hrkeys), ?_⟩, ?_⟩
  · have hw : (e.send t plaintext).2.writeSeq = e.writeSeq + 1 := congrArg Link.seq hwrite
    have hr : (f.receive wire).2.readSeq = f.readSeq + 1 := congrArg Link.seq hread
    rw [hw, hr, h.seq]
  · rw [hwrite, hread]
    exact h.keys.direction.chain_advance hchain fragment

/-- What is sent in turn is received as it was sent, whichever sends fail, unless records chain and
a fragment was too long. -/
theorem Paired.receiveAll (h : e.Paired f s r) (hid : AdditionalData.Holds (s.idOf r.peer))
    (hchain : e.writeLink.direction.chain? = f.readLink.direction.chain?)
    (hfree : e.writeLink.direction.chain? = none ∨ e.AllFit contents)
    (ht : e.protection.writing.inner = true →
      ∀ x ∈ (e.sendAll contents).1, x.2.contentType.code ≠ 0) :
    (f.receiveAll ((e.sendAll contents).1.map Prod.fst)).1 =
      (e.sendAll contents).1.map fun x => .ok x.2 := by
  induction contents generalizing e f with
  | nil => rfl
  | cons content contents ih =>
    obtain ⟨plaintext, t⟩ := content
    obtain ⟨-, -, hkeys⟩ := h.writer.send_frame t plaintext
    have hinner : (e.send t plaintext).2.protection.writing.inner = e.protection.writing.inner :=
      hkeys.direction.inner_eq
    have hfree' : (e.send t plaintext).2.writeLink.direction.chain? = none ∨
        (e.send t plaintext).2.AllFit contents :=
      hfree.imp hkeys.direction.chain?_eq_none And.right
    cases hres : (e.send t plaintext).1 with
    | error failure =>
      by_cases hseq : e.writeSeq.toNat + 1 < Size.bound
      · have hkeep : (e.send t plaintext).2.writeLink.direction.chain? =
            e.writeLink.direction.chain? := by
          rcases hfree with hnone | hfit
          · exact (hkeys.direction.chain?_eq_none hnone).trans hnone.symm
          · exact h.writer.chain?_of_fits hseq hfit.1 hres
        rw [sendAll_cons_error hres] at ht ⊢
        exact ih (h.send_error hres) (hkeep.trans hchain) hfree' (hinner ▸ ht)
      · rw [sendAll_exhausted (Nat.le_of_not_lt hseq)]
        rfl
    | ok wire =>
      rw [sendAll_cons_ok hres] at ht ⊢
      obtain ⟨hrec, hpair, hchain'⟩ := h.receive hid hchain
        (fun hi => ht hi _ (List.mem_cons_self ..)) hres
      have hrest := ih hpair hchain' hfree' fun hi x hx =>
        ht (hinner ▸ hi) x (List.mem_cons_of_mem _ hx)
      simp only [List.map_cons, Endpoint.receiveAll, hrec, hrest]

/-- What is sent is received as it was sent if and only if the chains agree. -/
theorem Paired.receive_iff (h : e.Paired f s r) (hid : AdditionalData.Holds (s.idOf r.peer))
    (hi : e.protection.writing.inner = false) (hok : (e.send t plaintext).1 = .ok wire) :
    (f.receive wire).1 = .ok ⟨plaintext, t⟩ ↔
      e.writeLink.direction.chain? = f.readLink.direction.chain? := by
  have ht (h : e.protection.writing.inner = true) : t.code ≠ 0 := by
    rw [hi] at h
    cases h
  have hreading : f.protection.reading.inner = false := h.keys.direction.inner_eq.trans hi
  constructor
  · intro hrec
    obtain ⟨-, -, fragment, hb, -⟩ := h.writer.send hid ht hok
    obtain ⟨outer, payload, haccept, hcap, hc, hrecover⟩ := h.reader.accept_of_bears hb
      (fun _ => h.keys.epoch.symm) (fun _ => h.seq.symm)
    rcases f.receive_cases wire with ⟨failure, hres⟩ | ⟨seq, outer', fragment', haccept', hres⟩
    · rw [hres] at hrec
      cases hrec
    · obtain ⟨rfl, rfl, rfl⟩ : e.writeLink.number s.version.isDatagram = seq ∧ outer = outer' ∧
          fragment = fragment' := by simpa using haccept.symm.trans haccept'
      rcases hres with ⟨failure, hres⟩ | ⟨received, hdec, -, hres⟩
      · rw [hres] at hrec
        cases hrec
      · rw [hres] at hrec
        obtain rfl := Except.ok.inj hrec
        obtain ⟨payload', hc', hrecover'⟩ := (h.reader.ready.decode_ok_iff hcap
          h.reader.holds).mp hdec
        rw [hreading] at hrecover'
        rw [show e.writeLink.direction.inner = false from hi] at hrecover
        have hpayload : payload = payload' :=
          congrArg Recovered.plaintext (Except.ok.inj (hrecover.trans hrecover'.symm))
        exact h.keys.direction.chain?_eq_of_carries hc (hpayload ▸ hc')
  · intro hchain
    exact (h.receive hid hchain ht hok).1

theorem Serves.exists_error (h : e.Serves s r) (hid : (s.idOf r.peer).length ≤ 255)
    {p : IntegrityProtection} (hp : e.protection = .integrity p) (t : ContentType)
    (hlong : 65535 ≤ plaintext.length) (hlen : plaintext.length ≤ 2 ^ 32) :
    ∃ failure, (e.send t plaintext).1 = .error failure := by
  obtain ⟨fragment, henc, hfragment, -⟩ := h.exists_encode hid hp t hlen
  exact exists_error_of_long henc (by omega)

theorem Serves.encode_determined (h : e.Serves s r) (hid : (s.idOf r.peer).length ≤ 255)
    {p : BlockProtection} (hp : e.protection = .block p) (hd : p.encoder.Determined)
    (t : ContentType) (hlen : plaintext.length ≤ 2 ^ 32) :
    let seq := e.packed e.writeEpoch e.writeSeq
    let n := p.encoder.unpaddedSize plaintext
    let plain := p.encoder.plainOf seq t [] (Padding.least Aes.Block.size n) plaintext
    let encoder := p.encoder.withChain (p.encoder.cbc.lastBlock (p.encoder.cbc.encryption plain))
    ∃ outer fragment, e.protection.encode e.context.randomness seq t e.headerVersion e.headerRoom
        plaintext = (.ok (.assemble e.headerRoom outer fragment), .block { p with encoder },
          e.context.randomness) ∧
      plaintext.length < fragment.length ∧ fragment.length ≤ plaintext.length + 145 := by
  intro seq n plain encoder
  have hready := h.ready
  rw [hp] at hready
  have hm := hready.1.mac
  have hroom := h.headerRoom_le hid
  have hmac : p.encoder.mac.size ≤ 64 := Nat.le_trans hm.size_le (Hash.size_le _)
  have hinner : InnerPlaintext.overhead p.encoder.inner ≤ 1 := by
    unfold InnerPlaintext.overhead
    split <;> decide
  have htags : p.encoder.innerMacSize + p.encoder.outerMacSize = p.encoder.mac.size := by
    unfold BlockDirection.innerMacSize BlockDirection.outerMacSize
    split <;> omega
  have hcap : 2 ^ 32 + 500 ≤ Size.capacity := by decide
  have hn : n = plaintext.length + InnerPlaintext.overhead p.encoder.inner +
    p.encoder.innerMacSize := rfl
  obtain ⟨hpos, hle, -⟩ := Padding.least_bounds (show 0 < Aes.Block.size by decide) n
  have hblock : Aes.Block.size = 16 := rfl
  have hspace : e.headerRoom + (n + Aes.Block.size + p.encoder.outerMacSize) ≤
      Size.capacity := by omega
  obtain ⟨fragment, henc, hsize⟩ := hd.encode_eq hm e.context.randomness seq t hspace
  change fragment.length = n + Padding.least Aes.Block.size n + p.encoder.outerMacSize at hsize
  refine ⟨ContentType.outer false p.encoder.id t, fragment, ?_, by omega, by omega⟩
  rw [hp]
  simp only [Protection.encode, henc]
  rfl

theorem Paired.chain?_of_received (h : e.Paired f s r) (hid : s.idOf r.peer = [])
    {p : BlockProtection} (hp : e.protection = .block p) (hd : p.encoder.Determined)
    (hi : p.encoder.inner = false) (hseq : e.writeSeq.toNat + 1 < Size.bound)
    (hlong : 65535 ≤ plaintext.length) (hlen : plaintext.length ≤ 2 ^ 32)
    (hrec : let sent := (e.sendAll [⟨plaintext, t⟩, ⟨[], t⟩]).1
      (f.receiveAll (sent.map Prod.fst)).1 = sent.map fun x => .ok x.2) :
    let n := p.encoder.unpaddedSize plaintext
    let plain := p.encoder.plainOf (e.packed e.writeEpoch e.writeSeq) t []
      (Padding.least Aes.Block.size n) plaintext
    f.readLink.direction.chain? =
      some (p.encoder.cbc.lastBlock (p.encoder.cbc.encryption plain)) := by
  intro n plain
  have hroom : (s.idOf r.peer).length ≤ 255 := by rw [hid]; decide
  have hholds : AdditionalData.Holds (s.idOf r.peer) := by rw [hid]; decide
  obtain ⟨outer, fragment, henc, hover, -⟩ := h.writer.encode_determined hroom hp hd t hlen
  obtain ⟨failure, herr⟩ := exists_error_of_long (congrArg Prod.fst henc) (by omega)
  have hpair := h.send_error herr
  have hafter := send_eq_error herr
  simp only [henc] at hafter
  have hprotection := congrArg Endpoint.protection hafter
  have hkept : (e.send t plaintext).2.writeSeq = e.writeSeq := by rw [hafter]
  have hempty : ([] : Bytes).length ≤ 2 ^ 32 := Nat.zero_le _
  obtain ⟨outer', fragment', henc', -, hshort⟩ := hpair.writer.encode_determined hroom hprotection
    ⟨hd.explicitIv, hd.extraPadding⟩ t hempty
  obtain ⟨wire, hok⟩ := Endpoint.exists_send (hkept ▸ hseq)
    (Nat.le_trans hshort (by decide)) (congrArg Prod.fst henc')
  rw [sendAll_cons_error herr, sendAll_cons_ok hok] at hrec
  have hreceived : (f.receive wire).1 = .ok ⟨[], t⟩ := (List.cons.inj hrec).1
  have hinner : (e.send t plaintext).2.protection.writing.inner = false := by
    rw [hprotection]
    exact hi
  rw [← (hpair.receive_iff hholds hinner hok).mp hreceived]
  change (e.send t plaintext).2.protection.writing.chain? = _
  rw [hprotection]
  exact if_neg (by simp [BlockEncoder.withChain, BlockDirection.withChain, hd.explicitIv])

end Endpoint

namespace Connection

variable {conn : Connection}

theorem paired_of_establish (hsuite : s.suite ∈ CipherSuite.all)
    (hid : ∀ r, AdditionalData.Holds (s.idOf r)) (hest : establish s = .ok conn) (r : Role) :
    (conn.endpoint r).Paired (conn.endpoint r.peer) s r := by
  obtain ⟨hwriter, hlink, -, -⟩ := serves_of_establish hsuite hid hest r
  obtain ⟨hreader, -, -, -⟩ := serves_of_establish hsuite hid hest r.peer
  exact ⟨hwriter, hreader, hlink ▸ .refl _, congrArg Link.seq hlink⟩

/-- The records of the sends that succeed are received as they were sent, whichever sends fail in
between, unless records chain and a fragment was too long for its header. -/
theorem received_despite_failures (hsuite : s.suite ∈ CipherSuite.all)
    (hest : establish s = .ok conn) (hid : ∀ r, AdditionalData.Holds (s.idOf r))
    (hfit : s.Chained → (conn.endpoint r).AllFit contents)
    (ht : (conn.endpoint r).protection.writing.inner = true →
      ∀ x ∈ ((conn.endpoint r).sendAll contents).1, x.2.contentType.code ≠ 0) :
    let sent := ((conn.endpoint r).sendAll contents).1
    ((conn.endpoint r.peer).receiveAll (sent.map Prod.fst)).1 = sent.map fun x => .ok x.2 := by
  have hpair := paired_of_establish hsuite hid hest r
  obtain ⟨-, hlink, -, -⟩ := serves_of_establish hsuite hid hest r
  have hfree : (conn.endpoint r).writeLink.direction.chain? = none ∨
      (conn.endpoint r).AllFit contents := by
    by_cases hx : s.Chained
    · exact Or.inr (hfit hx)
    · exact Or.inl (chain?_of_establish hest hx r)
  exact hpair.receiveAll (hid r.peer) (congrArg (·.direction.chain?) hlink.symm) hfree ht

theorem received_after_long_plaintext :
    ∃ conn wire, establish (.authenticated .tls13) = .ok conn ∧
      let contents : List Recovered := [⟨List.replicate 65536 0, .applicationData⟩,
        ⟨[1, 2, 3], .applicationData⟩]
      ((conn.endpoint .client).sendAll contents).1 =
          [(wire, ⟨[1, 2, 3], .applicationData⟩)] ∧
        ((conn.endpoint .server).receiveAll [wire]).1 =
          [.ok ⟨[1, 2, 3], .applicationData⟩] := by
  obtain ⟨conn, hc, hends⟩ := exists_authenticated (v := .tls13) rfl
  obtain ⟨hserves, hseq, -, p, hp⟩ := hends .client
  generalize hlong : List.replicate 65536 (0 : UInt8) = long
  have hlength : long.length = 65536 := hlong ▸ List.length_replicate
  obtain ⟨failure, herr⟩ := hserves.exists_error (by decide) hp .applicationData
    (show 65535 ≤ long.length by omega) (by omega)
  obtain ⟨hserves', -, -⟩ := hserves.send_frame .applicationData long
  obtain ⟨q, hq⟩ := Endpoint.integrity_of_send hp .applicationData long
  have hlen : ([1, 2, 3] : Bytes).length ≤ 65470 := by decide
  obtain ⟨wire, hsend⟩ := hserves'.exists_send (by decide) hq
    (by rw [Endpoint.send_eq_error herr, hseq]; decide) .applicationData hlen
  have hsent := Endpoint.sendAll_cons_error herr [⟨[1, 2, 3], .applicationData⟩]
  rw [Endpoint.sendAll_cons_ok hsend] at hsent
  have htypes (_ : (conn.endpoint .client).protection.writing.inner = true) :
      ∀ x ∈ ((conn.endpoint .client).sendAll [⟨long, .applicationData⟩,
        ⟨[1, 2, 3], .applicationData⟩]).1, x.2.contentType.code ≠ 0 := by
    rw [hsent]
    rintro x hx
    obtain rfl := List.mem_singleton.mp hx
    exact (by decide : ContentType.applicationData.code ≠ 0)
  have hrec := received_despite_failures (Settings.suite_authenticated .tls13).1 hc
    (Settings.holds_authenticated _) (by rintro ⟨-, k, ⟨⟩⟩) htypes
  rw [hsent] at hrec
  exact ⟨conn, wire, hc, congrArg Prod.fst hsent, hrec⟩

/-- Where records chain, some run of sends is not received as it was sent. Two plaintexts that are
too long and differ in their first block cannot both leave the chain as it was. -/
theorem exists_disturbed (hsuite : s.suite ∈ CipherSuite.all) (hest : establish s = .ok conn)
    (hid : ∀ r, s.idOf r = []) (hx : s.Chained) (htag : s.encryptThenMac = true)
    (hpad : s.extendedPadding = false) (r : Role) :
    ∃ contents, let sent := ((conn.endpoint r).sendAll contents).1
      ((conn.endpoint r.peer).receiveAll (sent.map Prod.fst)).1 ≠ sent.map fun x => .ok x.2 := by
  obtain ⟨hiv, k, hb⟩ := hx
  have hholds (r : Role) : AdditionalData.Holds (s.idOf r) := by rw [hid]; decide
  obtain ⟨p, hp, hexplicit, hmode, hpeer, hextra⟩ := block_of_establish hb hest r
  obtain ⟨-, -, hseq, -⟩ := serves_of_establish hsuite hholds hest r
  have hpair := paired_of_establish hsuite hholds hest r
  have hd : p.encoder.Determined := ⟨hexplicit.trans hiv, hextra hpad⟩
  have hinner : p.encoder.inner = false := by
    rw [BlockDirection.inner, hpeer, hid]
    rfl
  refine Classical.byContradiction fun hnone => ?_
  simp only [not_exists, ne_eq, Classical.not_not] at hnone
  let rest : Bytes := List.replicate 65536 0
  have hrest : rest.length = 65536 := List.length_replicate
  let n := 16 + rest.length + InnerPlaintext.overhead p.encoder.inner + p.encoder.innerMacSize
  let padding := Padding.bytes (Padding.least Aes.Block.size n)
  have hlast (x : Bytes) (hlen : x.length = 16) :
      (conn.endpoint r.peer).readLink.direction.chain? =
        some (p.encoder.cbc.lastBlock (p.encoder.cbc.encryption (x ++ (rest ++ padding)))) := by
    have hlength : (x ++ rest).length = 16 + rest.length := by rw [List.length_append, hlen]
    have hlong : 65535 ≤ (x ++ rest).length := by omega
    have hchain := hpair.chain?_of_received (hid _) hp hd hinner (by rw [hseq]; decide) hlong
      (by omega) (hnone [⟨x ++ rest, .applicationData⟩, ⟨[], .applicationData⟩])
    dsimp only [BlockEncoder.unpaddedSize] at hchain
    rw [hlength, p.encoder.plainOf_eq hinner (hmode.trans htag), List.append_assoc] at hchain
    exact hchain
  have hzero := hlast (List.replicate 16 0) rfl
  have hone := hlast (1 :: List.replicate 15 0) rfl
  have hfirst : List.replicate 16 0 = 1 :: List.replicate 15 (0 : UInt8) :=
    Cbc.eq_of_lastBlock_eq rfl rfl (Option.some.inj (hzero.symm.trans hone))
  exact absurd hfirst (by decide)

/-- TLS 1.0 chains records. A client that fails to send a plaintext of more than 65535 bytes goes on
with records that the server does not receive. -/
theorem chained_stream_disturbed :
    let s : Settings :=
      { suite := ⟨0x002F, "TLS_RSA_WITH_AES_128_CBC_SHA", .block .aes128, .hmac .sha1, .sha256⟩
        version := .tls10
        encryptThenMac := true }
    ∃ conn contents, establish s = .ok conn ∧
      (conn.endpoint .client).protection.writing.inner = false ∧
      let sent := ((conn.endpoint .client).sendAll contents).1
      ((conn.endpoint .server).receiveAll (sent.map Prod.fst)).1 ≠
        sent.map fun x => .ok x.2 := by
  intro s
  obtain ⟨conn, hest⟩ := exists_establish_block (s := s) (by decide) rfl rfl rfl rfl
  have hid (r : Role) : s.idOf r = [] := by cases r <;> rfl
  obtain ⟨contents, hne⟩ := exists_disturbed (by decide) hest hid ⟨rfl, _, rfl⟩ rfl rfl .client
  obtain ⟨p, hp, -, -, hpeer, -⟩ := block_of_establish (k := .aes128) rfl hest .client
  refine ⟨conn, contents, hest, ?_, hne⟩
  rw [hp]
  change (!p.encoder.id.isEmpty) = false
  rw [hpeer]
  rfl

end Connection

end RecordLayer
