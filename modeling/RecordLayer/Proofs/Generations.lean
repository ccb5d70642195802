import RecordLayer.Proofs.Established
import RecordLayer.Proofs.Operations

/-! # Generations of keys

The keys of a direction depend on how often they were replaced, and on nothing else that happens at
either end. So two ends that replaced them equally often work with the same keys.
-/

namespace RecordLayer

open Connection (Settings)

variable {s : Settings} {r : Role} {e f : Endpoint} {l l' l'' : Link} {d d' : Direction}
  {W R : List Item} {n : Nat}

/-- How often the keys were replaced. -/
def generation (items : List Item) : Nat := items.count .update

@[simp] theorem generation_record (items : List Item) :
    generation (items ++ [.record]) = generation items := by simp [generation]

@[simp] theorem generation_update (items : List Item) :
    generation (items ++ [.update]) = generation items + 1 := by simp [generation]

theorem Direction.SameKeys.rekey_eq (h : d.SameKeys d') (v : Version) (hash : Hash)
    (secret : Secret) : d'.rekey v hash secret = d.rekey v hash secret := by
  obtain ⟨chain, rfl⟩ := h
  cases d <;> rfl

theorem Direction.SameKeys.keyedBy (h : d.SameKeys d') {hash : Hash} (hd : d.KeyedBy hash) :
    d'.KeyedBy hash := by
  obtain ⟨chain, rfl⟩ := h
  cases d <;> exact hd

namespace Link

/-- The same keys in the same epoch, with the same secret behind them. -/
structure SameKeys (l l' : Link) : Prop where
  direction : l.direction.SameKeys l'.direction
  secret : l'.secret = l.secret
  epoch : l'.epoch = l.epoch

theorem SameKeys.refl (l : Link) : l.SameKeys l := ⟨.refl _, rfl, rfl⟩

theorem SameKeys.trans (h : l.SameKeys l') (h' : l'.SameKeys l'') : l.SameKeys l'' :=
  ⟨h.direction.trans h'.direction, h'.secret.trans h.secret, h'.epoch.trans h.epoch⟩

theorem SameKeys.symm (h : l.SameKeys l') : l'.SameKeys l :=
  ⟨h.direction.symm, h.secret.symm, h.epoch.symm⟩

theorem SameKeys.update_eq (h : l.SameKeys l') (v : Version) (hash : Hash) :
    l'.update v hash = l.update v hash := by
  unfold update nextSecret
  simp only [h.secret, h.epoch, h.direction.rekey_eq]

def after (s : Settings) (l : Link) : Nat → Except RecordError Link
  | 0 => .ok l
  | n + 1 => do (← l.after s n).update s.version s.suite.prfHash

/-- Some records and `n` key updates take one link to the other. -/
def Leads (s : Settings) (n : Nat) (l l' : Link) : Prop :=
  ∃ g, l.after s n = .ok g ∧ g.SameKeys l'

theorem Leads.refl (s : Settings) (l : Link) : l.Leads s 0 l := ⟨l, rfl, .refl l⟩

theorem Leads.sameKeys (h : l.Leads s n l') (hk : l'.SameKeys l'') : l.Leads s n l'' := by
  obtain ⟨g, hg, hgk⟩ := h
  exact ⟨g, hg, hgk.trans hk⟩

theorem Leads.update (h : l.Leads s n l')
    (hu : l'.update s.version s.suite.prfHash = .ok l'') : l.Leads s (n + 1) l'' := by
  obtain ⟨g, hg, hgk⟩ := h
  rw [hgk.update_eq] at hu
  exact ⟨l'', bind_eq_ok.mpr ⟨g, hg, hu⟩, .refl l''⟩

/-- Where as many key updates lead is one and the same link, up to its records. -/
theorem Leads.unique (h : l.Leads s n l') (h' : l.Leads s n l'') : l'.SameKeys l'' := by
  obtain ⟨g, hg, hgk⟩ := h
  obtain ⟨g', hg', hgk'⟩ := h'
  obtain rfl := Except.ok.inj (hg.symm.trans hg')
  exact hgk.symm.trans hgk'

theorem Leads.sameKeys_of_secretless (h : l.Leads s n l') (hl : l.secret = none) :
    l.SameKeys l' := by
  have hafter (m : Nat) {g : Link} (hg : l.after s m = .ok g) : g = l := by
    induction m generalizing g with
    | zero => exact (Except.ok.inj hg).symm
    | succ m ih =>
      obtain ⟨g', hg', hu⟩ := bind_eq_ok.mp hg
      obtain rfl := ih hg'
      simp only [Link.update, nextSecret, hl] at hu
      cases hu
  obtain ⟨g, hg, hk⟩ := h
  obtain rfl := hafter n hg
  exact hk

/-- Traffic secrets can be replaced, and where there are none nothing can. -/
structure Live (s : Settings) (l : Link) : Prop where
  updatable : s.version.isTls13 = true → l.Updatable s.suite.prfHash
  secretless : s.version.isTls13 = false → l.secret = none

theorem Live.sameKeys (h : l.Live s) (hk : l.SameKeys l') : l'.Live s where
  updatable h13 :=
    let hu := h.updatable h13
    ⟨hu.supports, hk.secret ▸ hu.secret, hk.direction.keyedBy hu.direction⟩
  secretless h12 := hk.secret.trans (h.secretless h12)

/-- The records and key updates of a trace take one link to the other, up to a chain. -/
structure Tracks (s : Settings) (items : List Item) (l l' : Link) : Prop where
  leads : l.Leads s (generation items) l'
  live : l'.Live s
  seq : l'.seq.toNat = recordsFrom l.seq.toNat items

theorem Tracks.refl (hl : l.Live s) : l.Tracks s [] l := ⟨.refl s l, hl, rfl⟩

theorem Tracks.sameKeys {items : List Item} (h : l.Tracks s items l') (hk : l'.SameKeys l'')
    (hseq : l''.seq = l'.seq) : l.Tracks s items l'' :=
  ⟨h.leads.sameKeys hk, h.live.sameKeys hk, hseq ▸ h.seq⟩

theorem Tracks.record {items : List Item} (h : l.Tracks s items l') (hk : l'.SameKeys l'')
    (hlt : l'.seq.toNat + 1 < Size.bound) (hseq : l''.seq = l'.seq + 1) :
    l.Tracks s (items ++ [.record]) l'' := by
  refine ⟨?_, h.live.sameKeys hk, ?_⟩
  · rw [generation_record]
    exact h.leads.sameKeys hk
  · rw [recordsFrom_record, hseq, toNat_succ hlt, h.seq]

theorem Tracks.update {items : List Item} (h : l.Tracks s items l')
    (hu : l'.update s.version s.suite.prfHash = .ok l'') (hl : l''.Live s) :
    l.Tracks s (items ++ [.update]) l'' := by
  refine ⟨?_, hl, ?_⟩
  · rw [generation_update]
    exact h.leads.update hu
  · rw [recordsFrom_update, seq_update hu]
    rfl

end Link

namespace Endpoint

variable {t : ContentType} {plaintext wire : Bytes}

theorem Serves.used (h : e.Serves s r) (call : Protection.Call) (randomness : Randomness)
    (n n' : UInt64) : (⟨{ e.context with randomness }, e.protection.after call, e.headerVersion,
      e.writeEpoch, e.readEpoch, n, n'⟩ : Endpoint).Serves s r := by
  obtain ⟨hready, -, hreading⟩ := h.ready.after call
  refine { h with ready := hready, rekeyable := ?_, holds := ?_ }
  · intro h13
    cases call with
    | encode r s t v room plaintext => exact (h.rekeyable h13).encode h.ready r s t v room plaintext
    | decode s t v fragment => exact (h.rekeyable h13).decode h.ready s t v fragment
  · exact (congrArg AdditionalData.Holds hreading.id_eq).mpr h.holds

theorem Serves.send_frame (h : e.Serves s r) (t : ContentType) (plaintext : Bytes) :
    (e.send t plaintext).2.Serves s r ∧ (e.send t plaintext).2.readLink = e.readLink ∧
      e.writeLink.SameKeys (e.send t plaintext).2.writeLink := by
  have hused := h.used (.encode e.context.randomness (e.packed e.writeEpoch e.writeSeq) t
    e.headerVersion e.headerRoom plaintext)
  obtain ⟨-, hwriting, hreading⟩ := h.ready.encode_frame e.context.randomness
    (e.packed e.writeEpoch e.writeSeq) t e.headerVersion e.headerRoom plaintext
  have hread := congrArg (Link.mk · (e.context.trafficSecret e.role.peer) e.readEpoch e.readSeq)
    hreading
  cases hres : (e.send t plaintext).1 with
  | ok wire =>
    obtain ⟨record, -, -, -, hafter⟩ := send_eq_ok hres
    rw [hafter]
    exact ⟨hused _ _ _, hread, hwriting, rfl, rfl⟩
  | error failure =>
    rw [send_eq_error hres]
    exact ⟨hused _ _ _, hread, hwriting, rfl, rfl⟩

theorem integrity_of_send {p : IntegrityProtection} (hp : e.protection = .integrity p)
    (t : ContentType) (plaintext : Bytes) :
    ∃ q, (e.send t plaintext).2.protection = .integrity q := by
  cases hres : (e.send t plaintext).1 with
  | ok wire =>
    obtain ⟨record, -, -, -, hafter⟩ := send_eq_ok hres
    rw [hafter, hp]
    exact ⟨_, rfl⟩
  | error failure =>
    rw [send_eq_error hres, hp]
    exact ⟨_, rfl⟩

theorem Serves.receive_frame (h : e.Serves s r) (wire : Bytes) :
    (e.receive wire).2.Serves s r ∧ (e.receive wire).2.writeLink = e.writeLink ∧
      e.readLink.SameKeys (e.receive wire).2.readLink := by
  rcases e.receive_cases wire with ⟨failure, hres⟩ | ⟨seq, t, fragment, -, hres⟩
  · rw [hres]
    exact ⟨h, rfl, .refl _⟩
  · have hused := h.used (.decode seq t e.headerVersion fragment) e.context.randomness
    obtain ⟨-, hwriting, hreading⟩ := h.ready.decode_frame seq t e.headerVersion fragment
    have hwrite := congrArg (Link.mk · (e.context.trafficSecret e.role) e.writeEpoch e.writeSeq)
      hwriting
    rcases hres with ⟨failure, hres⟩ | ⟨received, -, -, hres⟩
    · rw [hres]
      exact ⟨hused _ _, hwrite, hreading, rfl, rfl⟩
    · rw [hres]
      exact ⟨hused _ _, hwrite, hreading, rfl, rfl⟩

theorem Serves.updateKeys_cases (h : e.Serves s r) (side : Side) (hl : (e.link side).Live s) :
    (∃ err, e.updateKeys side = (.error err, e)) ∨
      ∃ l, (e.link side).update s.version s.suite.prfHash = .ok l ∧ l.Live s ∧
        (e.updateKeys side).1 = .ok () ∧ (e.updateKeys side).2.Serves s r ∧
        (e.updateKeys side).2.link side.other = e.link side.other ∧
        (e.updateKeys side).2.link side = l := by
  cases h13 : s.version.isTls13 with
  | true =>
    obtain ⟨l, hu, hl'⟩ := (hl.updatable h13).exists_update s.version
    refine Or.inr ⟨l, hu, ⟨fun _ => hl', ?_⟩, h.updateKeys h13 side hu⟩
    intro h12
    rw [h13] at h12
    cases h12
  | false =>
    have hnone : e.context.trafficSecret (side.owner e.role) = none :=
      (e.secret_link side).symm.trans (hl.secretless h13)
    refine Or.inl ⟨CryptoError.deadSecret.toRecordError, ?_⟩
    simp only [Endpoint.updateKeys, Context.updateTrafficSecret, Context.nextTrafficSecret, hnone]
    rfl

/-- The end `r` was `e` before the records and key updates of the trace, and now is `f`. -/
structure Follows (e f : Endpoint) (s : Settings) (r : Role) (W R : List Item) : Prop where
  serves : f.Serves s r
  write : e.writeLink.Tracks s W f.writeLink
  read : e.readLink.Tracks s R f.readLink

theorem Follows.send (h : e.Follows f s r W R) (t : ContentType) (plaintext : Bytes) :
    e.Follows (f.send t plaintext).2 s r (W ++ logged .record (f.send t plaintext).1) R := by
  obtain ⟨hserves, hread, hkeys⟩ := h.serves.send_frame t plaintext
  refine ⟨hserves, ?_, hread ▸ h.read⟩
  cases hres : (f.send t plaintext).1 with
  | ok wire =>
    obtain ⟨record, -, -, hlt, hafter⟩ := send_eq_ok hres
    refine h.write.record hkeys hlt ?_
    rw [hafter]
    rfl
  | error failure =>
    rw [logged, List.append_nil]
    refine h.write.sameKeys hkeys ?_
    rw [send_eq_error hres]
    rfl

theorem Follows.receive (h : e.Follows f s r W R) (wire : Bytes) :
    e.Follows (f.receive wire).2 s r W (R ++ logged .record (f.receive wire).1) := by
  obtain ⟨hserves, hwrite, hkeys⟩ := h.serves.receive_frame wire
  refine ⟨hserves, hwrite ▸ h.write, ?_⟩
  have hfailed {failure : Failure} (herr : (f.receive wire).1 = .error failure)
      (hseq : (f.receive wire).2.readLink.seq = f.readLink.seq) :
      e.readLink.Tracks s (R ++ logged .record (f.receive wire).1) (f.receive wire).2.readLink := by
    rw [herr, logged, List.append_nil]
    exact h.read.sameKeys hkeys hseq
  rcases f.receive_cases wire with ⟨failure, hres⟩ | ⟨seq, t, fragment, -, hres⟩
  · exact hfailed (congrArg Prod.fst hres) (by rw [hres])
  · rcases hres with ⟨failure, hres⟩ | ⟨received, -, hlt, hres⟩
    · exact hfailed (congrArg Prod.fst hres) (by rw [hres]; rfl)
    · rw [congrArg Prod.fst hres]
      refine h.read.record hkeys hlt ?_
      rw [hres]
      rfl

theorem Serves.tracks_updateKeys {l : Link} {items : List Item} (h : f.Serves s r) (side : Side)
    (ht : l.Tracks s items (f.link side)) : (f.updateKeys side).2.Serves s r ∧
      (f.updateKeys side).2.link side.other = f.link side.other ∧
      l.Tracks s (items ++ logged .update (f.updateKeys side).1)
        ((f.updateKeys side).2.link side) := by
  rcases h.updateKeys_cases side ht.live with
    ⟨err, hres⟩ | ⟨_, hu, hlive, hok, hserves, hother, rfl⟩
  · rw [hres, logged, List.append_nil]
    exact ⟨h, rfl, ht⟩
  · rw [hok]
    exact ⟨hserves, hother, ht.update hu hlive⟩

theorem Follows.updateWriteKeys (h : e.Follows f s r W R) :
    e.Follows f.updateWriteKeys.2 s r (W ++ logged .update f.updateWriteKeys.1) R := by
  obtain ⟨hserves, hother, hwrite⟩ := h.serves.tracks_updateKeys .write h.write
  have hread : f.updateWriteKeys.2.readLink = f.readLink := hother
  exact ⟨hserves, hwrite, hread ▸ h.read⟩

theorem Follows.updateReadKeys (h : e.Follows f s r W R) :
    e.Follows f.updateReadKeys.2 s r W (R ++ logged .update f.updateReadKeys.1) := by
  obtain ⟨hserves, hother, hread⟩ := h.serves.tracks_updateKeys .read h.read
  have hwrite : f.updateReadKeys.2.writeLink = f.writeLink := hother
  exact ⟨hserves, hwrite ▸ h.write, hread⟩

/-- Every run keeps to the generations that its trace tells. -/
theorem Run.follows (h : e.Run W R f) (hs : e.Serves s r) (hw : e.writeLink.Live s)
    (hr : e.readLink.Live s) : e.Follows f s r W R := by
  induction h with
  | start => exact ⟨hs, .refl hw, .refl hr⟩
  | send _ t plaintext ih => exact ih.send t plaintext
  | receive _ wire ih => exact ih.receive wire
  | updateWriteKeys _ ih => exact ih.updateWriteKeys
  | updateReadKeys _ ih => exact ih.updateReadKeys

end Endpoint

namespace Connection

variable {conn : Connection}

theorem live_of_establish (hsuite : s.suite ∈ CipherSuite.all)
    (hid : ∀ r, AdditionalData.Holds (s.idOf r)) (h : establish s = .ok conn) (r : Role) :
    (conn.endpoint r).writeLink.Live s ∧ (conn.endpoint r).readLink.Live s := by
  have hlive (r : Role) : (conn.endpoint r).writeLink.Live s := by
    obtain ⟨-, -, -, hu⟩ := serves_of_establish hsuite hid h r
    refine ⟨hu, fun h12 => ?_⟩
    obtain ⟨k, hk⟩ := endpoint_of_establish h
    obtain ⟨c, p, randomness, hc, -, he⟩ := Settings.endpoint_eq_ok (hk r)
    have hnone (owner : Role) : c.trafficSecret owner = none := by
      unfold Settings.context at hc
      rw [h12] at hc
      obtain rfl := Except.ok.inj hc
      cases owner <;> rfl
    rw [he]
    have hsame : ({ c with randomness } : Context).trafficSecret c.role = none := by
      rw [← hnone c.role]
      cases c.role <;> rfl
    exact hsame
  refine ⟨hlive r, ?_⟩
  obtain ⟨-, hread, -, -⟩ := serves_of_establish hsuite hid h r.peer
  rw [Role.peer_peer] at hread
  rw [hread]
  exact hlive r.peer

theorem follows_of_run {f : Endpoint} (hsuite : s.suite ∈ CipherSuite.all)
    (hid : ∀ r, AdditionalData.Holds (s.idOf r)) (h : establish s = .ok conn)
    (hf : (conn.endpoint r).Run W R f) : (conn.endpoint r).Follows f s r W R := by
  obtain ⟨hserves, -, -, -⟩ := serves_of_establish hsuite hid h r
  obtain ⟨hwrite, hread⟩ := live_of_establish hsuite hid h r
  exact hf.follows hserves hwrite hread

end Connection

end RecordLayer
