import RecordLayer.Proofs.Chains
import RecordLayer.Proofs.Histories

/-! # Independence of the past

Between two records nothing is left over but the chain: a tag in progress is reset on every path,
and what the padding check makes of its scratch reaches no result. What is written and what is read
never meet.
-/

namespace RecordLayer

open Aes (Block)

variable {s : UInt64} {t : ContentType} {v : Version} {room : Nat}
  {plaintext body fragment scratch : Bytes} {chain : Block} {r : Randomness}

theorem RecordMac.uniformTag_fst (m : RecordMac) (s : UInt64) (t : ContentType)
    (id message : Bytes) (fullSize : Nat) (dummy dummy' : Bytes) :
    (m.uniformTag s t id message fullSize dummy).1 =
      (m.uniformTag s t id message fullSize dummy').1 := by
  unfold uniformTag
  dsimp only
  split <;> rfl

def BlockDirection.judge (d : BlockDirection) (s : UInt64) (t : ContentType) (body : Bytes)
    (size : Nat) : Except Fault (Bytes × Bool) := do
  let (rest, _) ← splitTag size body
  if d.encryptThenMac then pure (rest, decide (size ≠ 0))
  else
    let (content, received) ← splitTag d.mac.size rest
    let tag ← (d.mac.uniformTag s t d.id content (body.length - d.mac.size) []).1
    pure (content, decide (tag = received) && decide (size ≠ 0))

namespace BlockDecoder

variable {d : BlockDecoder}

theorem verify_fst {check : Padding.Check}
    (hcheck : Padding.check d.longPadding BlockDirection.blockSize d.innerMacSize body d.scratch =
      .ok check) : (d.verify s t body).1 = d.judge s t body check.size := by
  unfold verify BlockDirection.judge
  rw [hcheck]
  dsimp only
  cases splitTag check.size body with
  | error f => rfl
  | ok parts =>
    simp only [ok_bind]
    split
    · rfl
    · cases splitTag d.mac.size parts.1 with
      | error f => rfl
      | ok parts =>
        simp only [ok_bind]
        rw [d.mac.uniformTag_fst s t d.id parts.1 _ check.scratch []]
        cases (d.mac.uniformTag s t d.id parts.1 (body.length - d.mac.size) []).1 <;> rfl

theorem Ready.verify_congr (h : d.Ready) (hs : scratch.length = Padding.maxSize) (chain : Block)
    (s : UInt64) (t : ContentType) (body : Bytes) :
    (({ d.withChain chain with scratch } : BlockDecoder).verify s t body).1 =
      (d.verify s t body).1 := by
  cases hb : body.getLast? with
  | none =>
    have hempty (d : BlockDecoder) : (d.verify s t body).1 = .error .outOfRange := by
      simp only [verify, Padding.check, hb]
      rfl
    rw [hempty, hempty]
  | some b =>
    obtain ⟨mixed, hcheck⟩ := Padding.check_eq d.longPadding BlockDirection.blockSize
      d.innerMacSize hb h.length_scratch
    obtain ⟨mixed', hcheck'⟩ := Padding.check_eq d.longPadding BlockDirection.blockSize
      d.innerMacSize hb hs
    have hfst := verify_fst (d := { d.withChain chain with scratch }) (s := s) (t := t) hcheck'
    rw [verify_fst hcheck]
    exact hfst

theorem Ready.decode_congr (h : d.Ready) (hs : scratch.length = Padding.maxSize)
    (hchain : d.explicitIv = false → chain = d.cbc.chain) (s : UInt64) (t : ContentType)
    (fragment : Bytes) :
    (({ d.withChain chain with scratch } : BlockDecoder).decode s t fragment).result =
      (d.decode s t fragment).result := by
  let d' : BlockDecoder := { d.withChain chain with scratch }
  have h' : d'.Ready := ⟨h.mac, hs, h.longPadding⟩
  change (d'.decode s t fragment).result = (d.decode s t fragment).result
  by_cases hm : d.Malformed fragment
  · obtain ⟨reason, hsplit⟩ := split_malformed hm
    have hsplit' : d'.split fragment = .error (.refused (.decodeError reason)) := hsplit
    unfold decode
    rw [hsplit, hsplit']
  · have hm' : ¬ d'.Malformed fragment := hm
    by_cases hf : d.trailer s t (d.blocksOf fragment) = d.trailerOf fragment
    · have hf' : d'.trailer s t (d'.blocksOf fragment) = d'.trailerOf fragment := hf
      have hbody : d'.bodyOf fragment = d.bodyOf fragment :=
        BlockDirection.bodyOf_withChain chain fragment hchain
      rw [h.decode_eq hm hf, h'.decode_eq hm' hf', hbody]
      refine congrArg (verdict d.inner t) ?_
      exact (h.withChain (d.cbc.lastBlock (d.blocksOf fragment))).verify_congr hs
        (d'.cbc.lastBlock (d'.blocksOf fragment)) s t (d.bodyOf fragment)
    · have hf' : ¬ d'.trailer s t (d'.blocksOf fragment) = d'.trailerOf fragment := hf
      rw [h.decode_forged hm hf, h'.decode_forged hm' hf']

end BlockDecoder

namespace Protection

variable {p p₀ q : Protection}

theorem Ready.decode_congr (hp : p.Ready) (hq : q.Ready) (hk : p.reading.SameKeys q.reading)
    (hc : p.reading.chain? = q.reading.chain?) (s : UInt64) (t : ContentType) (v : Version)
    (fragment : Bytes) : (q.decode s t v fragment).1 = (p.decode s t v fragment).1 := by
  obtain ⟨chain, hq'⟩ := hk
  cases p with
  | aead p =>
    cases q with
    | aead q =>
      have hdecoder : q.decoder = p.decoder := Direction.aead.inj hq'
      exact congrArg (fun d : AeadDirection => d.decode s t v fragment) hdecoder
    | block q | null q | integrity q => cases hq'
  | block p =>
    cases q with
    | block q =>
      have hdir : q.decoder.toBlockDirection = p.decoder.toBlockDirection.withChain chain :=
        Direction.block.inj hq'
      have hlong : q.decoder.longPadding = p.decoder.longPadding := by
        rw [hq.2.longPadding, hp.2.longPadding, hdir]
        rfl
      have hdecoder : q.decoder =
          { p.decoder.withChain chain with scratch := q.decoder.scratch } := by
        unfold BlockDecoder.withChain
        rw [← hdir, ← hlong]
      have hchain (hx : p.decoder.explicitIv = false) : chain = p.decoder.cbc.chain := by
        simp only [reading, Direction.chain?, hdir, BlockDirection.withChain, hx] at hc
        exact (Option.some.inj hc).symm
      have hres := hp.2.decode_congr hq.2.length_scratch hchain s t fragment
      rw [← hdecoder] at hres
      exact hres
    | aead q | null q | integrity q => cases hq'
  | null p =>
    cases q with
    | null q =>
      have hdecoder : q.decoder = p.decoder := Direction.null.inj hq'
      exact congrArg (fun d : NullDirection => (d.decode s t fragment).1) hdecoder
    | aead q | block q | integrity q => cases hq'
  | integrity p =>
    cases q with
    | integrity q =>
      have hdecoder : q.decoder = p.decoder := Direction.integrity.inj hq'
      exact congrArg (fun d : IntegrityDirection => (d.decode s t v fragment).1) hdecoder
    | aead q | block q | null q => cases hq'

/-- Without a chain, no history of uses shows in what is decoded. -/
theorem Ready.decode_afterAll (h : p.Ready) (hc : p.reading.chain? = none) (calls : List Call)
    (s : UInt64) (t : ContentType) (v : Version) (fragment : Bytes) :
    ((p.afterAll calls).decode s t v fragment).1 = (p.decode s t v fragment).1 := by
  obtain ⟨hready, -, hk⟩ := h.afterAll calls
  exact h.decode_congr hready hk (hc.trans (hk.chain?_eq_none hc).symm) s t v fragment

/-- Both write alike. -/
inductive SameEncoder : Protection → Protection → Prop
  | aead {p q : AeadProtection} (h : p.encoder = q.encoder) : SameEncoder (.aead p) (.aead q)
  | block {p q : BlockProtection} (h : p.encoder = q.encoder) : SameEncoder (.block p) (.block q)
  | null {p q : NullProtection} (h : p.encoder = q.encoder) : SameEncoder (.null p) (.null q)
  | integrity {p q : IntegrityProtection} (h : p.encoder = q.encoder) :
    SameEncoder (.integrity p) (.integrity q)

inductive SameDecoder : Protection → Protection → Prop
  | aead {p q : AeadProtection} (h : p.decoder = q.decoder) : SameDecoder (.aead p) (.aead q)
  | block {p q : BlockProtection} (h : p.decoder = q.decoder) : SameDecoder (.block p) (.block q)
  | null {p q : NullProtection} (h : p.decoder = q.decoder) : SameDecoder (.null p) (.null q)
  | integrity {p q : IntegrityProtection} (h : p.decoder = q.decoder) :
    SameDecoder (.integrity p) (.integrity q)

theorem SameEncoder.encode (h : p.SameEncoder q) (r : Randomness) (s : UInt64) (t : ContentType)
    (v : Version) (room : Nat) (plaintext : Bytes) :
    (p.encode r s t v room plaintext).1 = (q.encode r s t v room plaintext).1 ∧
      (p.encode r s t v room plaintext).2.1.SameEncoder (q.encode r s t v room plaintext).2.1 ∧
      (p.encode r s t v room plaintext).2.2 = (q.encode r s t v room plaintext).2.2 := by
  cases h with
  | aead h => exact ⟨congrArg (·.encode s t v room plaintext) h, .aead h, rfl⟩
  | block h =>
    have hencode := congrArg (·.encode r s t room plaintext) h
    exact ⟨congrArg (·.1) hencode, .block (congrArg (·.2.1) hencode), congrArg (·.2.2) hencode⟩
  | null h =>
    have hencode := congrArg (·.encode s t room plaintext) h
    exact ⟨congrArg (·.1) hencode, .null (congrArg (·.2) hencode), rfl⟩
  | integrity h =>
    have hencode := congrArg (·.encode s t v room plaintext) h
    exact ⟨congrArg (·.1) hencode, .integrity (congrArg (·.2) hencode), rfl⟩

theorem SameDecoder.decode (h : p.SameDecoder q) (s : UInt64) (t : ContentType) (v : Version)
    (fragment : Bytes) : (p.decode s t v fragment).1 = (q.decode s t v fragment).1 ∧
      (p.decode s t v fragment).2.SameDecoder (q.decode s t v fragment).2 := by
  cases h with
  | aead h => exact ⟨congrArg (·.decode s t v fragment) h, .aead h⟩
  | block h =>
    have hdecode := congrArg (·.decode s t fragment) h
    exact ⟨congrArg (·.result) hdecode, .block (congrArg (·.decoder) hdecode)⟩
  | null h =>
    have hdecode := congrArg (·.decode s t fragment) h
    exact ⟨congrArg (·.1) hdecode, .null (congrArg (·.2) hdecode)⟩
  | integrity h =>
    have hdecode := congrArg (·.decode s t v fragment) h
    exact ⟨congrArg (·.1) hdecode, .integrity (congrArg (·.2) hdecode)⟩

theorem SameEncoder.decode_left (h : p.SameEncoder q) (s : UInt64) (t : ContentType) (v : Version)
    (fragment : Bytes) : (p.decode s t v fragment).2.SameEncoder q := by
  cases h with
  | aead h => exact .aead h
  | block h => exact .block h
  | null h => exact .null h
  | integrity h => exact .integrity h

theorem SameDecoder.encode_left (h : p.SameDecoder q) (r : Randomness) (s : UInt64)
    (t : ContentType) (v : Version) (room : Nat) (plaintext : Bytes) :
    (p.encode r s t v room plaintext).2.1.SameDecoder q := by
  cases h with
  | aead h => exact .aead h
  | block h => exact .block h
  | null h => exact .null h
  | integrity h => exact .integrity h

theorem SameEncoder.refl (p : Protection) : p.SameEncoder p := by cases p <;> constructor <;> rfl

theorem SameDecoder.refl (p : Protection) : p.SameDecoder p := by cases p <;> constructor <;> rfl

namespace Call

def isEncode : Call → Bool
  | encode .. => true
  | decode .. => false

def isDecode : Call → Bool
  | encode .. => false
  | decode .. => true

end Call

/-- What the encodings among some uses in turn return, with the randomness that they leave. -/
def encodings (p : Protection) : List Call → List (Except Failure Protected × Randomness)
  | [] => []
  | .encode r s t v room plaintext :: calls =>
    let x := p.encode r s t v room plaintext
    (x.1, x.2.2) :: x.2.1.encodings calls
  | .decode s t v fragment :: calls => (p.decode s t v fragment).2.encodings calls

def decodings (p : Protection) : List Call → List (Except Failure Recovered)
  | [] => []
  | .encode r s t v room plaintext :: calls =>
    (p.encode r s t v room plaintext).2.1.decodings calls
  | .decode s t v fragment :: calls =>
    let x := p.decode s t v fragment
    x.1 :: x.2.decodings calls

theorem SameEncoder.encodings (h : p.SameEncoder q) (calls : List Call) :
    p.encodings calls = q.encodings (calls.filter Call.isEncode) := by
  induction calls generalizing p q with
  | nil => rfl
  | cons call calls ih =>
    cases call with
    | encode r s t v room plaintext =>
      obtain ⟨hresult, hnext, hr⟩ := h.encode r s t v room plaintext
      rw [List.filter_cons_of_pos rfl, Protection.encodings, Protection.encodings, ih hnext,
        hresult, hr]
    | decode s t v fragment =>
      rw [List.filter_cons_of_neg (by simp [Call.isEncode]), Protection.encodings]
      exact ih (h.decode_left s t v fragment)

theorem SameDecoder.decodings (h : p.SameDecoder q) (calls : List Call) :
    p.decodings calls = q.decodings (calls.filter Call.isDecode) := by
  induction calls generalizing p q with
  | nil => rfl
  | cons call calls ih =>
    cases call with
    | encode r s t v room plaintext =>
      rw [List.filter_cons_of_neg (by simp [Call.isDecode]), Protection.decodings]
      exact ih (h.encode_left r s t v room plaintext)
    | decode s t v fragment =>
      obtain ⟨hresult, hnext⟩ := h.decode s t v fragment
      rw [List.filter_cons_of_pos rfl, Protection.decodings, Protection.decodings, ih hnext,
        hresult]

/-- Between new keys, what is decoded depends on the arguments alone unless records are chained,
and in any case not on what is written; nor does what is encoded depend on what is read. -/
theorem history_independent {plan : Plan} {c c' : Context} (hb : plan.build c = (.ok p₀, c'))
    (hp : p₀.Becomes p) :
    (p.reading.chain? = none → ∀ (calls : List Call) (s : UInt64) (t : ContentType) (v : Version)
      (fragment : Bytes),
        ((p.afterAll calls).decode s t v fragment).1 = (p.decode s t v fragment).1) ∧
    (∀ calls calls' : List Call, calls.filter Call.isDecode = calls'.filter Call.isDecode →
      p.decodings calls = p.decodings calls') ∧
    (∀ calls calls' : List Call, calls.filter Call.isEncode = calls'.filter Call.isEncode →
      p.encodings calls = p.encodings calls') := by
  have hready := hp.ready (Family.keyedFrom_of_build (Plan.build_resolve hb)).ready
  refine ⟨fun hc => hready.decode_afterAll hc, ?_, ?_⟩
  · intro calls calls' heq
    rw [(SameDecoder.refl p).decodings calls, heq, ← (SameDecoder.refl p).decodings calls']
  · intro calls calls' heq
    rw [(SameEncoder.refl p).encodings calls, heq, ← (SameEncoder.refl p).encodings calls']

theorem history_independent_block :
    let c : Context :=
      ⟨.client, { version := .tls12 }, some (.new (Bytes.zeros 48)), none, none, .ofSeed 0⟩
    ∃ p c', Plan.build c (.family (.block .aes128 (.hmac .sha1))) = (.ok p, c') ∧
      ∀ fragment, ((p.afterAll [.decode 0 .applicationData .tls12 (Bytes.zeros 64),
          .encode c'.randomness 0 .applicationData .tls12 5 [1, 2, 3]]).decode 1 .applicationData
            .tls12 fragment).1 = (p.decode 1 .applicationData .tls12 fragment).1 := by
  intro c
  have hmaster : c.master = some (.new (Bytes.zeros 48)) := rfl
  obtain ⟨p, hp⟩ := BlockProtection.exists_new hmaster ⟨_, rfl, Bytes.length_zeros 48⟩ rfl rfl
    .aes128 .sha1
  have hbuild : Plan.build c (.family (.block .aes128 (.hmac .sha1))) =
      (.ok (.block p), (BlockProtection.new c .aes128 (.hmac .sha1)).2) :=
    Prod.ext (map_eq_ok.mpr ⟨p, congrArg Prod.fst hp, rfl⟩) rfl
  have hkeyed := Family.keyedFrom_of_build (Plan.build_resolve hbuild)
  have hchain : (Protection.block p).reading.chain? = none :=
    Family.chain?_of_direction hkeyed.reading fun _ _ _ => rfl
  obtain ⟨hdecode, -⟩ := history_independent hbuild .start
  exact ⟨.block p, _, hbuild, fun fragment => hdecode hchain _ _ _ _ fragment⟩

end Protection

end RecordLayer
