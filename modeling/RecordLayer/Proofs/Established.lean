import RecordLayer.Proofs.Flow

/-! # Established connections

The two ends of a connection start with the same link in each direction, and under traffic secrets
with one whose keys can be updated.
-/

namespace RecordLayer

open Connection (Settings SharedKeys)

variable {s : Settings} {k : SharedKeys} {r : Role} {c c' d : Context} {p q : Protection}

def BulkCipher.keyedBy (h : Hash) : BulkCipher → Bool
  | aead _ => true
  | integrity hash => Hkdf.supports hash && decide (hash.size ≤ h.size)
  | null | block _ => false

theorem CipherSuite.keyedBy_of_mem {suite : CipherSuite} (h : suite ∈ all)
    (h13 : suite.isTls13 = true) :
    Hkdf.supports suite.prfHash = true ∧ suite.bulk.keyedBy suite.prfHash = true := by
  have hall : ∀ x ∈ all, x.isTls13 = true →
      Hkdf.supports x.prfHash = true ∧ x.bulk.keyedBy x.prfHash = true := by decide
  exact hall suite h h13

theorem Family.exists_randomness (f : Family) (c : Context) :
    ∃ randomness, (f.build c).2 = { c with randomness } := by
  cases f with
  | block v a =>
    change ∃ randomness, (BlockProtection.new c v a).2 = { c with randomness }
    unfold BlockProtection.new
    split
    · exact ⟨_, rfl⟩
    · split
      · exact ⟨_, rfl⟩
      · exact ⟨_, rfl⟩
  | aead a | null a | passthrough | integrity hash => exact ⟨_, rfl⟩

theorem Family.context_of_build {f : Family} (h : f.build c = (.ok p, c')) :
    ∃ randomness, c' = { c with randomness } := by
  obtain ⟨randomness, hc⟩ := f.exists_randomness c
  rw [h] at hc
  exact ⟨randomness, hc⟩

theorem Secret.supports_of_ok {secret secret' : Secret} {h : Hash} {tag label context : Bytes}
    {len : Nat} (hok : secret.expandLabel h tag label context len = .ok secret') :
    Hkdf.supports h = true := by
  simp only [expandLabel, bind_eq_ok, map_eq_ok] at hok
  obtain ⟨key, -, data, hdata, -⟩ := hok
  exact (Hkdf.exists_expandLabel_iff.mp ⟨data, hdata⟩).2.1

namespace Connection.Settings

theorem fields_of_context (h : s.context k r = .ok c) : c.role = r ∧
    c.params.version = s.version ∧ c.params.prfHash = s.suite.prfHash ∧
    c.params.localId = s.idOf r ∧ c.params.peerId = s.idOf r.peer := by
  unfold context at h
  split at h
  · simp only [bind_eq_ok, pure_eq_ok] at h
    obtain ⟨secrets, -, rfl⟩ := h
    exact ⟨rfl, rfl, rfl, rfl, rfl⟩
  · obtain rfl := Except.ok.inj h
    exact ⟨rfl, rfl, rfl, rfl, rfl⟩

theorem modes_of_context (h : s.context k r = .ok c) :
    c.params.encryptThenMac = s.encryptThenMac ∧ c.params.extendedPadding = s.extendedPadding := by
  unfold context at h
  split at h
  · simp only [bind_eq_ok, pure_eq_ok] at h
    obtain ⟨secrets, -, rfl⟩ := h
    exact ⟨rfl, rfl⟩
  · obtain rfl := Except.ok.inj h
    exact ⟨rfl, rfl⟩

theorem opposite_of_context (hc : s.context k r = .ok c) (hd : s.context k r.peer = .ok d) :
    c.Opposite d := by
  unfold context at hc hd
  cases h13 : s.version.isTls13 with
  | true =>
    simp only [h13, if_true, bind_eq_ok, pure_eq_ok] at hc hd
    obtain ⟨secrets, hsecrets, rfl⟩ := hc
    obtain ⟨secrets', hsecrets', rfl⟩ := hd
    obtain rfl := Except.ok.inj (hsecrets.symm.trans hsecrets')
    exact ⟨rfl, rfl, rfl, rfl, rfl, rfl, rfl, rfl, rfl, rfl, rfl, rfl⟩
  | false =>
    simp only [h13, Bool.false_eq_true, if_false, pure_eq_ok] at hc hd
    obtain rfl := hc
    obtain rfl := hd
    exact ⟨rfl, rfl, rfl, rfl, rfl, rfl, rfl, rfl, rfl, rfl, rfl, rfl⟩

theorem secrets_of_context (h13 : s.version.isTls13 = true) (h : s.context k r = .ok c) :
    Hkdf.supports s.suite.prfHash = true ∧ c.HasTrafficSecrets s.suite.prfHash.size := by
  simp only [context, h13, if_true, bind_eq_ok, pure_eq_ok, SharedKeys.trafficSecrets] at h
  obtain ⟨-, ⟨main, -, client, hclient, server, hserver, rfl⟩, rfl⟩ := h
  exact ⟨Secret.supports_of_ok hclient, Context.hasTrafficSecrets rfl rfl
    (Secret.hasSize_of_expandLabel hclient) (Secret.hasSize_of_expandLabel hserver)⟩

end Connection.Settings

theorem AeadProtection.rekeyable_of_new {a : AeadAlgorithm} {p : AeadProtection}
    (h13 : c.version.isTls13 = true) (h : new c a = .ok p) : (Protection.aead p).Rekeyable := by
  simp only [new, h13, if_true, bind_eq_ok, pure_eq_ok] at h
  obtain ⟨e, he, d, hd, rfl⟩ := h
  exact ⟨rfl, Protection.algorithm_of_derive he, Protection.algorithm_of_derive hd⟩

theorem IntegrityDirection.supports_of_derive {owner : Role} {hash : Hash}
    {x : IntegrityDirection} {secret : Secret} {n : Nat} (hs : c.trafficSecret owner = some secret)
    (hsize : secret.HasSize n) (h : derive c owner hash = .ok x) :
    Hkdf.supports hash = true ∧ hash.size ≤ n := by
  simp only [derive, Context.trafficKeys, hs, bind_eq_ok, forRecord_eq_ok] at h
  obtain ⟨keys, hkeys, -⟩ := h
  exact Secret.supports_of_trafficKeys hsize hkeys

theorem IntegrityProtection.hash_of_new {hash : Hash} {p : IntegrityProtection}
    (h : new c hash = .ok p) : p.hash = hash := by
  unfold new at h
  split at h
  · cases h
  · simp only [bind_eq_ok, pure_eq_ok] at h
    obtain ⟨e, -, d, -, rfl⟩ := h
    rfl

theorem Protection.rekeyable_of_suite {suite : CipherSuite}
    (hsuite : suite ∈ CipherSuite.all) (h13 : c.version.isTls13 = true)
    (hsecret : c.HasTrafficSecrets c.params.prfHash.size)
    (h : ofSuite c suite = (.ok p, c')) :
    p.Rekeyable ∧ p.writing.KeyedBy c.params.prfHash := by
  unfold ofSuite at h
  split at h
  · cases (Prod.mk.inj h).1
  · rename_i hv
    obtain ⟨-, hbulk⟩ := CipherSuite.keyedBy_of_mem hsuite ((Decidable.not_not.mp hv).trans h13)
    cases hb : suite.bulk with
    | null | block _ =>
      rw [hb] at hbulk
      cases hbulk
    | aead a =>
      simp only [hb] at h
      obtain ⟨p, hp, rfl⟩ := map_eq_ok.mp (Prod.mk.inj h).1
      exact ⟨AeadProtection.rekeyable_of_new h13 hp, trivial⟩
    | integrity hash =>
      simp only [hb] at h
      obtain ⟨p, hp, rfl⟩ := map_eq_ok.mp (Prod.mk.inj h).1
      obtain ⟨he, hd⟩ := IntegrityProtection.of_new hp
      obtain ⟨secret, hs, hsize⟩ := hsecret c.role
      have hhash := (IntegrityProtection.hash_of_new hp).symm
      refine ⟨⟨(hash_of_derive he).trans hhash, (hash_of_derive hd).trans hhash⟩, ?_⟩
      rw [writing, Direction.KeyedBy, hash_of_derive he]
      exact IntegrityDirection.supports_of_derive hs hsize he

theorem Protection.exists_ofSuite {suite : CipherSuite} (hsuite : suite ∈ CipherSuite.all)
    (h13 : suite.isTls13 = true) (hv : c.version.isTls13 = true)
    (hhash : c.params.prfHash = suite.prfHash)
    (hsecret : c.HasTrafficSecrets suite.prfHash.size) : ∃ p, ofSuite c suite = (.ok p, c) := by
  obtain ⟨hsup, hbulk⟩ := CipherSuite.keyedBy_of_mem hsuite h13
  unfold ofSuite
  rw [if_neg (fun hne => hne (h13.trans hv.symm))]
  cases hb : suite.bulk with
  | null | block _ =>
    rw [hb] at hbulk
    cases hbulk
  | aead a =>
    rw [← hhash] at hsup hsecret
    obtain ⟨p, hp⟩ := AeadProtection.exists_new hsecret hsup hv a
    refine ⟨.aead p, ?_⟩
    dsimp only
    rw [hp]
    rfl
  | integrity hash =>
    rw [hb, BulkCipher.keyedBy, Bool.and_eq_true, decide_eq_true_eq] at hbulk
    obtain ⟨p, hp⟩ := IntegrityProtection.exists_new hsecret hbulk.1 hbulk.2 hv
    refine ⟨.integrity p, ?_⟩
    dsimp only
    rw [hp]
    rfl

namespace Connection

theorem SharedKeys.exists_trafficSecrets (k : SharedKeys) {h : Hash}
    (hsup : Hkdf.supports h = true) (v : Version) : ∃ client server,
      k.trafficSecrets h v.labelTag = .ok (client, server) ∧ client.HasSize h.size ∧
        server.HasSize h.size := by
  have hmain : (Secret.new (Bytes.zeros h.size)).hkdfExtract h k.keyMaterial =
      .ok (.new (h.hmac (Bytes.zeros h.size) k.keyMaterial)) := by
    simp only [Secret.hkdfExtract, Secret.read, Secret.new, Hkdf.extract, if_pos hsup]
    rfl
  have hsize : (Secret.new (h.hmac (Bytes.zeros h.size) k.keyMaterial)).HasSize h.size :=
    ⟨_, rfl, Hash.length_hmac ..⟩
  obtain ⟨client, hclient, hc⟩ := Secret.exists_expandLabel hsize hsup (Nat.le_refl _)
    v.length_labelTag_le "c ap traffic" (by decide) h.size_le
  obtain ⟨server, hserver, hs⟩ := Secret.exists_expandLabel hsize hsup (Nat.le_refl _)
    v.length_labelTag_le "s ap traffic" (by decide) h.size_le
  simp only [trafficSecrets, bind_eq_ok, pure_eq_ok]
  exact ⟨client, server, ⟨_, hmain, client, hclient, server, hserver, rfl⟩, hc, hs⟩

theorem exists_establish_of_endpoint (hend : ∀ k r, ∃ e, s.endpoint k r = .ok e) :
    ∃ conn, establish s = .ok conn := by
  have hkeys : ∃ k, SharedKeys.ofSeed s.seed s.suite.prfHash = .ok k := ⟨_, rfl⟩
  obtain ⟨k, hk⟩ := hkeys
  obtain ⟨client, hclient⟩ := hend k .client
  obtain ⟨server, hserver⟩ := hend k .server
  simp only [establish, bind_eq_ok, pure_eq_ok, forRecord_eq_ok]
  exact ⟨_, k, hk, client, hclient, server, hserver, rfl⟩

/-- Every connection under traffic secrets can be established. -/
theorem exists_establish (hsuite : s.suite ∈ CipherSuite.all) (h13 : s.suite.isTls13 = true)
    (hv : s.version.isTls13 = true) : ∃ conn, establish s = .ok conn := by
  obtain ⟨hsup, -⟩ := CipherSuite.keyedBy_of_mem hsuite h13
  refine exists_establish_of_endpoint fun k r => ?_
  obtain ⟨client, server, hsecrets, hc, hs⟩ := k.exists_trafficSecrets hsup s.version
  let c : Context := ⟨r, s.params r, none, some client, some server, .ofSeed (s.seedOf r)⟩
  have hctx : s.context k r = .ok c := by
    unfold Settings.context
    rw [if_pos hv]
    exact bind_eq_ok.mpr ⟨(client, server), hsecrets, rfl⟩
  have hsecret : c.HasTrafficSecrets s.suite.prfHash.size :=
    Context.hasTrafficSecrets rfl rfl hc hs
  have hversion : c.version.isTls13 = true := hv
  obtain ⟨p, hp⟩ := Protection.exists_ofSuite hsuite h13 hversion rfl hsecret
  simp only [Settings.endpoint, bind_eq_ok, map_eq_ok, forRecord_eq_ok]
  exact ⟨_, _, hctx, p, congrArg Prod.fst hp, rfl⟩

theorem exists_establish_of_master (hv : s.version.isTls13 = false)
    (hbuild : ∀ (c : Context) (master : Bytes) (seed : UInt64), c.version = s.version →
      c.master = some (.new master) → c.randomness = .ofSeed seed →
        ∃ p, (Protection.ofSuite c s.suite).1 = .ok p) : ∃ conn, establish s = .ok conn := by
  refine exists_establish_of_endpoint fun k r => ?_
  let p : Parameters :=
    { s.params r with clientRandom := k.clientRandom, serverRandom := k.serverRandom }
  let c : Context := ⟨r, p, some (.new k.master), none, none, .ofSeed (s.seedOf r)⟩
  have hctx : s.context k r = .ok c := by
    unfold Settings.context
    rw [if_neg (by simp [hv])]
    rfl
  obtain ⟨q, hq⟩ := hbuild c k.master (s.seedOf r) rfl rfl rfl
  simp only [Settings.endpoint, bind_eq_ok, map_eq_ok, forRecord_eq_ok]
  exact ⟨_, c, hctx, q, hq, rfl⟩

theorem exists_establish_block {k : Aes.Variant} {h : Hash} (hs : s.suite.isTls13 = false)
    (hv : s.version.isTls13 = false) (hssl : s.version.isSsl = false)
    (hb : s.suite.bulk = .block k) (hm : s.suite.mac = .hmac h) :
    ∃ conn, establish s = .ok conn := by
  refine exists_establish_of_master hv fun c master seed hversion hmaster hseed => ?_
  have hc : c.version.isTls13 = false := (congrArg Version.isTls13 hversion).trans hv
  have hdraw : ∃ x, c.randomness.draw Padding.maxSize = .ok x := by
    rw [hseed]
    exact ⟨_, rfl⟩
  obtain ⟨⟨scratch, r⟩, hdraw⟩ := hdraw
  obtain ⟨q, hq⟩ := BlockProtection.exists_new hmaster ⟨master, rfl, rfl⟩ hc hdraw k h
  refine ⟨.block q, ?_⟩
  unfold Protection.ofSuite
  rw [if_neg (by simp [hs, hc])]
  simp only [hb, hm, Protection.macOf, hversion, hssl, Bool.false_eq_true, if_false, hq]
  rfl

theorem exists_establish_null {h : Hash} (hs : s.suite.isTls13 = false)
    (hv : s.version.isTls13 = false) (hssl : s.version.isSsl = false)
    (hb : s.suite.bulk = .null) (hm : s.suite.mac = .hmac h) :
    ∃ conn, establish s = .ok conn := by
  refine exists_establish_of_master hv fun c master seed hversion hmaster _ => ?_
  have hc : c.version.isTls13 = false := (congrArg Version.isTls13 hversion).trans hv
  obtain ⟨q, hq⟩ := NullProtection.exists_new hmaster ⟨master, rfl, rfl⟩ hc h
  refine ⟨.null q, ?_⟩
  unfold Protection.ofSuite
  rw [if_neg (by simp [hs, hc])]
  simp only [hb, hm, Protection.macOf, hversion, hssl, Bool.false_eq_true, if_false, hq]
  rfl

theorem endpoint_of_establish {conn : Connection} (h : establish s = .ok conn) :
    ∃ k, ∀ r, s.endpoint k r = .ok (conn.endpoint r) := by
  simp only [establish, bind_eq_ok, pure_eq_ok] at h
  obtain ⟨k, -, client, hc, server, hs, rfl⟩ := h
  refine ⟨k, ?_⟩
  intro r
  cases r with
  | client => exact hc
  | server => exact hs

theorem Settings.endpoint_eq_ok {e : Endpoint} (h : s.endpoint k r = .ok e) :
    ∃ c p randomness, s.context k r = .ok c ∧
      Protection.ofSuite c s.suite = (.ok p, { c with randomness }) ∧
      e = Endpoint.new { c with randomness } p := by
  simp only [Settings.endpoint, bind_eq_ok, map_eq_ok, forRecord_eq_ok] at h
  obtain ⟨c, hc, p, hp, rfl⟩ := h
  have hbuild : Protection.ofSuite c s.suite = (.ok p, (Protection.ofSuite c s.suite).2) :=
    Prod.ext hp rfl
  obtain ⟨randomness, hc'⟩ := Family.context_of_build (Family.build_ofSuite hbuild)
  rw [hc'] at hbuild
  exact ⟨c, p, randomness, hc, hbuild, by rw [hc']⟩

theorem integrity_of_establish {conn : Connection} {hash : Hash}
    (hb : s.suite.bulk = .integrity hash) (h : establish s = .ok conn) (r : Role) :
    ∃ p, (conn.endpoint r).protection = .integrity p := by
  obtain ⟨k, hk⟩ := endpoint_of_establish h
  obtain ⟨c, p, randomness, -, hp, he⟩ := Settings.endpoint_eq_ok (hk r)
  unfold Protection.ofSuite at hp
  split at hp
  · cases (Prod.mk.inj hp).1
  · simp only [hb] at hp
    obtain ⟨p, -, rfl⟩ := map_eq_ok.mp (Prod.mk.inj hp).1
    exact ⟨p, by rw [he]; rfl⟩

theorem null_of_establish {conn : Connection} (hb : s.suite.bulk = .null)
    (h : establish s = .ok conn) (r : Role) : ∃ p, (conn.endpoint r).protection = .null p := by
  obtain ⟨k, hk⟩ := endpoint_of_establish h
  obtain ⟨c, p, randomness, -, hp, he⟩ := Settings.endpoint_eq_ok (hk r)
  unfold Protection.ofSuite at hp
  split at hp
  · cases (Prod.mk.inj hp).1
  · simp only [hb] at hp
    split at hp
    · obtain rfl := Except.ok.inj (Prod.mk.inj hp).1
      exact ⟨.passthrough, by rw [he]; rfl⟩
    · obtain ⟨p, -, rfl⟩ := map_eq_ok.mp (Prod.mk.inj hp).1
      exact ⟨p, by rw [he]; rfl⟩
    all_goals
      rename_i hne
      cases hne

/-- Both ends of a connection that was established serve it, and what one writes with is what the
other reads with. -/
theorem serves_of_establish {conn : Connection} (hsuite : s.suite ∈ CipherSuite.all)
    (hid : ∀ r, AdditionalData.Holds (s.idOf r)) (h : establish s = .ok conn) (r : Role) :
    (conn.endpoint r).Serves s r ∧
      (conn.endpoint r.peer).readLink = (conn.endpoint r).writeLink ∧
      (conn.endpoint r).writeSeq = 0 ∧
      (s.version.isTls13 = true → (conn.endpoint r).writeLink.Updatable s.suite.prfHash) := by
  obtain ⟨k, hk⟩ := endpoint_of_establish h
  obtain ⟨c, p, randomness, hc, hp, he⟩ := Settings.endpoint_eq_ok (hk r)
  obtain ⟨d, q, randomness', hd, hq, he'⟩ := Settings.endpoint_eq_ok (hk r.peer)
  obtain ⟨hrole, hversion, hhash, hlocal, hpeer⟩ := Settings.fields_of_context hc
  have hopp := Settings.opposite_of_context hc hd
  have hdversion : d.version = c.version := hopp.version
  have hpf := Family.build_ofSuite hp
  have hqf := Family.build_ofSuite hq
  rw [hdversion] at hqf
  have hkeyed := Family.keyedFrom_of_build hpf
  have hlink := Family.reading_eq_writing hopp hpf hqf
  have hholds : AdditionalData.Holds p.reading.id := by
    rcases Family.id_of_direction hkeyed.reading with hx | hx
    · rw [hx, hlocal]
      exact hid r
    · rw [hx]
      decide
  have hrekeyable (h13 : s.version.isTls13 = true) :
      p.Rekeyable ∧ p.writing.KeyedBy s.suite.prfHash := by
    obtain ⟨-, hsecret⟩ := Settings.secrets_of_context h13 hc
    rw [← hhash] at hsecret ⊢
    exact Protection.rekeyable_of_suite hsuite
      ((congrArg Version.isTls13 hversion).trans h13) hsecret hp
  rw [he, he']
  refine ⟨⟨hrole, hversion, hhash, hlocal, hpeer, congrArg Version.headerVersion hversion,
    hkeyed.ready, fun h13 => (hrekeyable h13).1, hholds⟩, ?_, rfl, fun h13 => ?_⟩
  · have hsecret : d.trafficSecret d.role.peer = c.trafficSecret c.role := by
      rw [hopp.role, Role.peer_peer]
      cases c.role with
      | client => exact hopp.clientTraffic
      | server => exact hopp.serverTraffic
    have hsame (c : Context) (randomness : Randomness) (owner : Role) :
        ({ c with randomness } : Context).trafficSecret owner = c.trafficSecret owner := by
      cases owner <;> rfl
    change (⟨q.reading, _, 0, 0⟩ : Link) = ⟨p.writing, _, 0, 0⟩
    rw [hlink, hsame, hsame]
    exact congrArg (Link.mk _ · 0 0) hsecret
  · obtain ⟨hsup, hsecret⟩ := Settings.secrets_of_context h13 hc
    exact ⟨hsup, hsecret c.role, (hrekeyable h13).2⟩

/-- A connection whose records are authenticated and not encrypted. -/
def Settings.authenticated (v : Version) : Settings where
  suite := ⟨0xC0B4, "TLS_SHA256_SHA256", .integrity .sha256, .null, .sha256⟩
  version := v

theorem Settings.suite_authenticated (v : Version) :
    (authenticated v).suite ∈ CipherSuite.all ∧ (authenticated v).suite.isTls13 = true := by
  have hsuite : (authenticated .tls13).suite ∈ CipherSuite.all ∧
      (authenticated .tls13).suite.isTls13 = true := by decide
  exact hsuite

theorem Settings.holds_authenticated (v : Version) (r : Role) :
    AdditionalData.Holds ((authenticated v).idOf r) := by
  have hempty : AdditionalData.Holds [] := by decide
  cases r <;> exact hempty

theorem exists_authenticated {v : Version} (hv : v.isTls13 = true) :
    ∃ conn, establish (.authenticated v) = .ok conn ∧ ∀ r,
      (conn.endpoint r).Serves (.authenticated v) r ∧ (conn.endpoint r).writeSeq = 0 ∧
        (conn.endpoint r).readSeq = 0 ∧ ∃ p, (conn.endpoint r).protection = .integrity p := by
  obtain ⟨hsuite, h13⟩ := Settings.suite_authenticated v
  have hid := Settings.holds_authenticated v
  obtain ⟨conn, hc⟩ := exists_establish hsuite h13 hv
  refine ⟨conn, hc, fun r => ?_⟩
  obtain ⟨hserves, -, hwrite, -⟩ := serves_of_establish hsuite hid hc r
  obtain ⟨-, hread, hpeer, -⟩ := serves_of_establish hsuite hid hc r.peer
  rw [Role.peer_peer] at hread
  exact ⟨hserves, hwrite, (congrArg Link.seq hread).trans hpeer,
    integrity_of_establish rfl hc r⟩

end Connection

end RecordLayer
