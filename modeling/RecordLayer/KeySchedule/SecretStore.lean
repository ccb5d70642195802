import RecordLayer.KeySchedule.Secret

/-! # Collections of secrets

Secrets are numbered in the order of their creation. A request reads or ends one of them, or
derives a new one, which is added at the end if the derivation succeeds.
-/

namespace RecordLayer

abbrev SecretStore := List Secret

namespace SecretStore

/-- What can be asked of one secret. -/
inductive Use
  | isAlive
  | extract
  | destroy
  | applyPrf (prf : Prf) (label seed : Bytes) (len : Nat)
  | expandLabel (hash : Hash) (tag label context : Bytes) (len : Nat)
  | hkdfExtract (hash : Hash) (ikm : Bytes)
  | keyBlock (prf : Prf) (clientRandom serverRandom : Bytes) (len : Nat)
  | trafficKeys (hash : Hash) (tag : Bytes) (keySize ivSize : Nat)

inductive Request
  | create (data : Bytes)
  | use (slot : Nat) (use : Use)

inductive Answer
  | added (slot : Nat)
  | flag (b : Bool)
  | bytes (data : Bytes)
  | keys (keys : TrafficKeys)
  | done
  | refused (e : CryptoError)
  | unknownSlot
  deriving DecidableEq

def add (store : SecretStore) : Except CryptoError Secret → Answer × SecretStore
  | .ok s => (.added store.length, store ++ [s])
  | .error e => (.refused e, store)

def Answer.ofResult {α : Type} (f : α → Answer) : Except CryptoError α → Answer
  | .ok a => f a
  | .error e => .refused e

def useSecret (store : SecretStore) (slot : Nat) (s : Secret) : Use → Answer × SecretStore
  | .isAlive => (.flag s.isAlive, store)
  | .extract => (.ofResult .bytes s.extract.1, store.set slot s.extract.2)
  | .destroy => (.done, store.set slot s.destroy)
  | .applyPrf f label seed len => store.add (s.applyPrf f label seed len)
  | .expandLabel h tag label context len => store.add (s.expandLabel h tag label context len)
  | .hkdfExtract h ikm => store.add (s.hkdfExtract h ikm)
  | .keyBlock f cr sr len => (.ofResult .bytes (s.keyBlock f cr sr len), store)
  | .trafficKeys h tag keySize ivSize =>
    (.ofResult .keys (s.trafficKeys h tag keySize ivSize), store)

def step (store : SecretStore) : Request → Answer × SecretStore
  | .create data => store.add (.ok (Secret.new data))
  | .use slot use =>
    match store[slot]? with
    | some s => store.useSecret slot s use
    | none => (.unknownSlot, store)

def run (store : SecretStore) : List Request → List Answer × SecretStore
  | [] => ([], store)
  | r :: rs =>
    let (answer, store) := store.step r
    let (answers, store) := run store rs
    (answer :: answers, store)

end SecretStore

end RecordLayer
