import RecordLayer.KeySchedule.SecretStore
import RecordLayer.Proofs.Results

/-! # Lifetimes of secrets

A secret lives from the request that creates it to the first that extracts or destroys it. Until
then every use of it is a function of its bytes, and from then on every use is refused. Requests to
other secrets make no difference.
-/

namespace RecordLayer.SecretStore

variable {store : SecretStore} {i j : Nat} {data : Bytes} {s : Secret} {r : Request}

namespace Use

def ends : Use → Bool
  | extract | destroy => true
  | _ => false

def given (data : Bytes) : Use → Option Bytes
  | extract => some data
  | _ => none

/-- What the use makes of the bytes of a secret: an answer, or the bytes of a new secret. -/
def value (data : Bytes) : Use → Except CryptoError (Answer ⊕ Bytes)
  | isAlive => .ok (.inl (.flag true))
  | extract => .ok (.inl (.bytes data))
  | destroy => .ok (.inl .done)
  | applyPrf f label seed len => .inr <$> f.apply data label seed len
  | expandLabel h tag label context len => .inr <$> Hkdf.expandLabel h data tag label context len
  | hkdfExtract h ikm => .inr <$> Hkdf.extract h data ikm
  | keyBlock f clientRandom serverRandom len =>
    (fun block => .inl (.bytes block)) <$> f.keyBlock data clientRandom serverRandom len
  | trafficKeys h tag keySize ivSize => do
    let key ← Hkdf.expandLabel h data tag (Bytes.ofText "key") [] keySize
    let iv ← Hkdf.expandLabel h data tag (Bytes.ofText "iv") [] ivSize
    pure (.inl (.keys ⟨key, iv⟩))

def refusal : Use → Answer
  | isAlive => .flag false
  | destroy => .done
  | _ => .refused .deadSecret

def effect (store : SecretStore) (i : Nat) (u : Use) :
    Except CryptoError (Answer ⊕ Bytes) → Answer × SecretStore
  | .ok (.inl answer) => (answer, if u.ends then store.set i ⟨none⟩ else store)
  | .ok (.inr data) => (.added store.length, store ++ [Secret.new data])
  | .error e => (.refused e, store)

end Use

/-! ## One request -/

theorem step_alive (h : store[i]? = some (Secret.new data)) (u : Use) :
    store.step (.use i u) = u.effect store i (u.value data) := by
  have hadd (x : Except CryptoError Bytes) :
      store.add (Secret.new <$> x) = u.effect store i (.inr <$> x) := by
    cases x <;> rfl
  rw [step, h]
  cases u with
  | isAlive | extract | destroy => rfl
  | applyPrf f label seed len => exact hadd _
  | expandLabel hash tag label context len => exact hadd _
  | hkdfExtract hash ikm => exact hadd _
  | keyBlock f clientRandom serverRandom len =>
    simp only [useSecret, Use.value, Secret.keyBlock, Secret.read, Secret.new, ok_bind]
    cases f.keyBlock data clientRandom serverRandom len <;> rfl
  | trafficKeys hash tag keySize ivSize =>
    simp only [useSecret, Use.value, Secret.trafficKeys, Secret.expandLabel, Secret.read,
      Secret.new, ok_bind]
    cases Hkdf.expandLabel hash data tag (Bytes.ofText "key") [] keySize with
    | error e => rfl
    | ok key => cases Hkdf.expandLabel hash data tag (Bytes.ofText "iv") [] ivSize <;> rfl

theorem step_dead (h : store[i]? = some ⟨none⟩) (u : Use) :
    store.step (.use i u) = (u.refusal, store) := by
  have hset : store.set i ⟨none⟩ = store := by
    obtain ⟨hlt, hget⟩ := List.getElem?_eq_some_iff.mp h
    rw [← hget, List.set_getElem_self]
  rw [step, h]
  cases u with
  | extract | destroy => exact congrArg (Prod.mk _) hset
  | isAlive | applyPrf | expandLabel | hkdfExtract | keyBlock | trafficKeys => rfl

theorem getElem?_effect {u : Use} (hlt : i < store.length) (hu : j = i → u.ends = false)
    (value : Except CryptoError (Answer ⊕ Bytes)) : (u.effect store j value).2[i]? = store[i]? := by
  rcases value with e | answer | data
  · rfl
  · simp only [Use.effect]
    split
    · rename_i hends
      exact List.getElem?_set_ne fun hij => by simp [hu hij] at hends
    · rfl
  · exact List.getElem?_append_left hlt

theorem getElem?_step (hlt : i < store.length) (hr : ∀ u, r = .use i u → u.ends = false) :
    (store.step r).2[i]? = store[i]? := by
  cases r with
  | create bytes => exact List.getElem?_append_left hlt
  | use j u =>
    have hu (hji : j = i) : u.ends = false := hr u (by rw [hji])
    cases hj : store[j]? with
    | none => rw [step, hj]
    | some s =>
      obtain ⟨_ | data⟩ := s
      · rw [step_dead hj]
      · rw [step_alive hj]
        exact getElem?_effect hlt hu _

theorem getElem?_step_of_ends (h : store[i]? = some s) {u : Use} (hu : u.ends = true) :
    (store.step (.use i u)).2[i]? = some ⟨none⟩ := by
  have hset : (store.set i ⟨none⟩)[i]? = some ⟨none⟩ := by
    rw [List.getElem?_set_self', h]
    rfl
  rw [step, h]
  cases u with
  | extract | destroy => exact hset
  | isAlive | applyPrf | expandLabel | hkdfExtract | keyBlock | trafficKeys => cases hu

theorem ne_added_of_value {u : Use} {answer : Answer} (h : u.value data = .ok (.inl answer))
    (n : Nat) : answer ≠ .added n := by
  rintro rfl
  cases u with
  | isAlive | extract | destroy => cases h
  | applyPrf | expandLabel | hkdfExtract | keyBlock =>
    obtain ⟨_, -, ⟨⟩⟩ := map_eq_ok.mp h
  | trafficKeys =>
    simp only [Use.value, bind_eq_ok, pure_eq_ok] at h
    obtain ⟨_, -, _, -, ⟨⟩⟩ := h

/-! ## Requests in order -/

namespace Request

def ending (i : Nat) : Request → Option Use
  | create _ => none
  | use j u => if j = i ∧ u.ends then some u else none

def handed (i : Nat) : Request → Answer → Option Bytes
  | use j .extract, .bytes data => if j = i then some data else none
  | _, _ => none

/-- The request adds a secret of these bytes: they are given, or derived from a live secret. -/
def Creates (store : SecretStore) (data : Bytes) : Request → Prop
  | create bytes => bytes = data
  | use j u => ∃ source, store[j]? = some (Secret.new source) ∧ u.value source = .ok (.inr data)

theorem ending_use (i : Nat) (u : Use) : (use i u).ending i = if u.ends then some u else none := by
  simp only [ending, true_and]

theorem ends_of_ending (h : r.ending i = none) (u : Use) (hr : r = use i u) : u.ends = false := by
  subst hr
  rw [ending_use] at h
  split at h
  · cases h
  · exact eq_false_of_ne_true ‹_›

theorem eq_use_of_ending {u : Use} (h : r.ending i = some u) : r = use i u ∧ u.ends = true := by
  cases r with
  | create bytes => cases h
  | use j u' =>
    simp only [ending] at h
    split at h
    · rename_i hends
      obtain rfl := Option.some.inj h
      exact ⟨by rw [hends.1], hends.2⟩
    · cases h

theorem handed_of_ending (h : r.ending i = none) (answer : Answer) : r.handed i answer = none := by
  unfold handed
  split
  · rename_i j data
    split
    · rename_i hji
      subst hji
      cases ends_of_ending h .extract rfl
    · rfl
  · rfl

end Request

/-- What ends the secret `i` first. -/
def endedBy (i : Nat) (requests : List Request) : Option Use :=
  requests.findSome? (Request.ending i)

/-- The bytes of the secret `i` that were handed out. -/
def handedOut (i : Nat) (requests : List Request) (answers : List Answer) : List Bytes :=
  (List.zipWith (Request.handed i) requests answers).filterMap id

theorem handedOut_cons (i : Nat) (r : Request) (a : Answer) (requests : List Request)
    (answers : List Answer) : handedOut i (r :: requests) (a :: answers) =
      (r.handed i a).toList ++ handedOut i requests answers := by
  rw [handedOut, List.zipWith_cons_cons, List.filterMap_cons]
  cases r.handed i a <;> rfl

theorem run_dead (h : store[i]? = some ⟨none⟩) (later : List Request) :
    (store.run later).2[i]? = some ⟨none⟩ ∧ handedOut i later (store.run later).1 = [] := by
  induction later generalizing store with
  | nil => exact ⟨h, rfl⟩
  | cons r later ih =>
    have hlt : i < store.length := (List.getElem?_eq_some_iff.mp h).1
    have hstep : (store.step r).2[i]? = some ⟨none⟩ ∧ r.handed i (store.step r).1 = none := by
      cases hr : r.ending i with
      | none =>
        exact ⟨by rw [getElem?_step hlt (Request.ends_of_ending hr), h],
          Request.handed_of_ending hr _⟩
      | some u =>
        obtain ⟨rfl, hu⟩ := Request.eq_use_of_ending hr
        rw [step_dead h]
        refine ⟨h, ?_⟩
        cases u <;> rfl
    obtain ⟨hdead, hnone⟩ := ih hstep.1
    refine ⟨hdead, ?_⟩
    change handedOut i (r :: later) ((store.step r).1 :: ((store.step r).2.run later).1) = []
    rw [handedOut_cons, hstep.2, hnone]
    rfl

/-- A live secret lives until a request ends it, and only that request can have its bytes. -/
theorem run_alive (h : store[i]? = some (Secret.new data)) (later : List Request) :
    (store.run later).2[i]? =
        some (if (endedBy i later).isNone then Secret.new data else ⟨none⟩) ∧
      handedOut i later (store.run later).1 = ((endedBy i later).bind (Use.given data)).toList := by
  induction later generalizing store with
  | nil => exact ⟨h, rfl⟩
  | cons r later ih =>
    have hlt : i < store.length := (List.getElem?_eq_some_iff.mp h).1
    change ((store.step r).2.run later).2[i]? = _ ∧
      handedOut i (r :: later) ((store.step r).1 :: ((store.step r).2.run later).1) = _
    rw [handedOut_cons, endedBy, List.findSome?_cons]
    cases hr : r.ending i with
    | none =>
      have halive := getElem?_step hlt (Request.ends_of_ending hr)
      obtain ⟨hlater, hhanded⟩ := ih (halive.trans h)
      rw [Request.handed_of_ending hr, hhanded]
      exact ⟨hlater, rfl⟩
    | some u =>
      obtain ⟨rfl, hu⟩ := Request.eq_use_of_ending hr
      obtain ⟨hdead, hnone⟩ := run_dead (getElem?_step_of_ends h hu) later
      refine ⟨hdead, ?_⟩
      rw [hnone, List.append_nil, step_alive h]
      cases u with
      | extract => exact congrArg Option.toList (if_pos rfl)
      | destroy => rfl
      | isAlive | applyPrf | expandLabel | hkdfExtract | keyBlock | trafficKeys => cases hu

theorem creates_of_added (h : (store.step r).1 = .added i) : ∃ data, r.Creates store data ∧
    i = store.length ∧ (store.step r).2 = store ++ [Secret.new data] := by
  cases r with
  | create bytes => exact ⟨bytes, rfl, (Answer.added.inj h).symm, rfl⟩
  | use j u =>
    cases hj : store[j]? with
    | none =>
      rw [step, hj] at h
      cases h
    | some s =>
      obtain ⟨_ | source⟩ := s
      · rw [step_dead hj] at h
        cases u <;> cases h
      · rw [step_alive hj] at h ⊢
        rcases hvalue : u.value source with e | answer | data
        · rw [hvalue] at h
          cases h
        · rw [hvalue] at h
          exact absurd h (ne_added_of_value hvalue i)
        · rw [hvalue] at h
          exact ⟨data, ⟨source, hj, hvalue⟩, (Answer.added.inj h).symm, rfl⟩

/-- A secret is what it was created with until the first request that extracts or destroys it. Till
then its uses are functions of its bytes and leave it alive, apart from that request. From then on
every use of it is refused and creates nothing. Its bytes are handed out once if an extraction ended
it, and never otherwise. No request changes a secret that it does not end. -/
theorem lifetime (h : (store.step r).1 = .added i) : ∃ data, r.Creates store data ∧
    i = store.length ∧ (store.step r).2 = store ++ [Secret.new data] ∧
    ∀ later : List Request,
      let now := ((store.step r).2.run later).2
      now[i]? = some (if (endedBy i later).isNone then Secret.new data else ⟨none⟩) ∧
      handedOut i later ((store.step r).2.run later).1 =
        ((endedBy i later).bind (Use.given data)).toList ∧
      (endedBy i later = none → ∀ u : Use, now.step (.use i u) = u.effect now i (u.value data) ∧
        (u.ends = false → (now.step (.use i u)).2[i]? = some (Secret.new data))) ∧
      (endedBy i later ≠ none → ∀ u : Use, now.step (.use i u) = (u.refusal, now)) ∧
      ∀ (r' : Request) (j : Nat), j < now.length → (∀ u, r' = .use j u → u.ends = false) →
        (now.step r').2[j]? = now[j]? := by
  obtain ⟨data, hcreates, rfl, hstore⟩ := creates_of_added h
  have hborn : (store.step r).2[store.length]? = some (Secret.new data) := by
    rw [hstore, List.getElem?_concat_length]
  refine ⟨data, hcreates, rfl, hstore, fun later => ?_⟩
  intro now
  obtain ⟨hstate, hhanded⟩ := run_alive hborn later
  refine ⟨hstate, hhanded, fun halive u => ?_, fun hdead u => ?_,
    fun r' j hlt hr => getElem?_step hlt hr⟩
  · rw [halive] at hstate
    refine ⟨step_alive hstate u, fun hu => ?_⟩
    have hlt := (List.getElem?_eq_some_iff.mp hstate).1
    rw [getElem?_step hlt (by rintro u' ⟨⟩; exact hu)]
    exact hstate
  · rw [if_neg (by simpa using hdead)] at hstate
    exact step_dead hstate u

theorem lifetime_extracted :
    let later : List Request := [.use 0 .isAlive, .use 0 .extract, .use 0 .extract]
    let start := (step [] (.create [1, 2, 3])).2
    let now := (start.run later).2
    handedOut 0 later (start.run later).1 = [[1, 2, 3]] ∧ now[0]? = some ⟨none⟩ ∧
      now.step (.use 0 (.hkdfExtract .sha256 [])) = (.refused .deadSecret, now) := by
  intro later start now
  have hadded : (step [] (.create [1, 2, 3])).1 = .added 0 := rfl
  obtain ⟨data, hcreates, -, -, hlater⟩ := lifetime hadded
  obtain rfl : [1, 2, 3] = data := hcreates
  have hended : endedBy 0 later = some .extract := rfl
  obtain ⟨hstate, hhanded, -, hdead, -⟩ := hlater later
  rw [hended] at hstate hhanded hdead
  exact ⟨hhanded, hstate, hdead (Option.some_ne_none _) _⟩

end RecordLayer.SecretStore
