import Mathlib.Data.List.DropRight
import RecordLayer.Proofs.Construction

/-! # Running tags

Running tags can be used in any order and cloned at any time. Each takes the tag of what it took in
itself since its last tag or reset, where a clone also took in what its original had, and none
depends on what is done with the others.
-/

namespace RecordLayer.Mac

inductive Use
  | update (data : Bytes)
  | reset
  | finish

/-- Running tags are numbered in the order in which they came about. -/
inductive Request
  | use (slot : Nat) (u : Use)
  | clone (slot : Nat)

def perform (m : Mac) : Use → Option Bytes × Mac
  | .update data => (none, m.update data)
  | .reset => (none, m.reset)
  | .finish => (some m.finish.1, m.finish.2)

def step (pool : List Mac) : Request → Option Bytes × List Mac
  | .use slot u =>
    (pool[slot]?.bind fun m => (m.perform u).1, pool.modify slot fun m => (m.perform u).2)
  | .clone slot => (none, pool ++ pool[slot]?.toList)

def afterAll (pool : List Mac) (requests : List Request) : List Mac :=
  requests.foldl (fun pool r => (step pool r).2) pool

def record (histories : List (List Use)) : Request → List (List Use)
  | .use slot u => histories.modify slot (· ++ [u])
  | .clone slot => histories ++ histories[slot]?.toList

/-- What was done with each running tag, or with its original before it was cloned. -/
def histories (requests : List Request) : List (List Use) := requests.foldl record [[]]

namespace Use

def isUpdate : Use → Bool
  | update _ => true
  | reset | finish => false

def data : Use → Bytes
  | update data => data
  | reset | finish => []

end Use

/-- What was taken in since the last tag or reset. -/
def message (uses : List Use) : Bytes := (uses.rtakeWhile Use.isUpdate).flatMap Use.data

def oneShot : MacAlgorithm → Bytes → Bytes → Bytes
  | .null, _, _ => []
  | .hmac h, key, message => h.hmac key message
  | .ssl3 h, key, message =>
    let n := if h = .md5 then 48 else 40
    h.digest (key ++ List.replicate n 0x5c ++ h.digest (key ++ List.replicate n 0x36 ++ message))

variable {a : MacAlgorithm} {key : Bytes} {m : Mac} {pool : List Mac} {slot : Nat}

theorem tag_eq_oneShot {k : KeyStrings} (h : KeyStrings.of a key = .ok k) (message : Bytes) :
    k.tag message = oneShot a key message := by
  cases a with
  | null => cases h
  | hmac hash =>
    obtain rfl := Except.ok.inj h
    rfl
  | ssl3 hash =>
    cases hash with
    | md5 | sha1 =>
      obtain rfl := Except.ok.inj h
      rfl
    | sha256 | sha384 | sha512 => cases h

theorem finish_update_keyed (h : keyed a key = .ok m) (message : Bytes) :
    (m.update message).finish.1 = oneShot a key message := by
  obtain ⟨k, hk, rfl⟩ := map_eq_ok.mp h
  exact (NestedDigest.finish_update_new k message).trans (tag_eq_oneShot hk message)

theorem fresh_keyed (h : keyed a key = .ok m) : m.Fresh := by
  obtain ⟨k, -, rfl⟩ := map_eq_ok.mp h
  exact fresh_ofStrings a k

theorem message_update (uses : List Use) (data : Bytes) :
    message (uses ++ [.update data]) = message uses ++ data := by
  rw [message, List.rtakeWhile_concat_pos _ _ _ rfl, List.flatMap_append, List.flatMap_singleton]
  rfl

theorem message_cleared (uses : List Use) {u : Use} (hu : u.isUpdate = false) :
    message (uses ++ [u]) = [] := by
  rw [message, List.rtakeWhile_concat_neg _ _ _ (by simp [hu]), List.flatMap_nil]

/-- After any uses, a running tag is the fresh one with a message in progress. -/
theorem Fresh.perform (h : m.Fresh) (uses : List Use) (u : Use) :
    ((m.update (message uses)).perform u).2 = m.update (message (uses ++ [u])) := by
  cases u with
  | update data =>
    rw [message_update, Mac.update, Mac.update, Mac.perform, NestedDigest.update_append]
    rfl
  | reset | finish =>
    rw [message_cleared uses rfl]
    exact h.reset

theorem Fresh.step (h : m.Fresh) (histories : List (List Use)) (r : Request) :
    (Mac.step (histories.map fun uses => m.update (message uses)) r).2 =
      (record histories r).map fun uses => m.update (message uses) := by
  refine List.ext_getElem? fun i => ?_
  cases r with
  | use slot u =>
    rw [Mac.step, record, List.getElem?_modify, List.getElem?_map, List.getElem?_map,
      List.getElem?_modify]
    cases histories[i]? with
    | none => rfl
    | some uses =>
      by_cases hi : slot = i
      · simp only [hi, if_true, Option.map_eq_map, Option.map_some, h.perform]
      · simp only [hi, if_false, Option.map_eq_map, Option.map_some]
  | clone slot =>
    rw [Mac.step, record, List.map_append, List.getElem?_map]
    cases histories[slot]? <;> rfl

theorem Fresh.afterAll (h : m.Fresh) (requests : List Request) :
    Mac.afterAll [m] requests = (histories requests).map fun uses => m.update (message uses) := by
  induction requests using List.reverseRecOn with
  | nil => rfl
  | append_singleton requests r ih =>
    rw [Mac.afterAll, histories, List.foldl_concat, List.foldl_concat, ← Mac.afterAll, ih, h.step]
    rfl

theorem getElem?_step {r : Request} (hslot : slot < pool.length)
    (hr : ∀ u, r ≠ .use slot u) : (step pool r).2[slot]? = pool[slot]? := by
  cases r with
  | use i u =>
    have hi : i ≠ slot := fun hi => hr u (by rw [hi])
    exact List.getElem?_modify_ne _ _ hi
  | clone i =>
    exact List.getElem?_append_left hslot

theorem length_le_step (pool : List Mac) (r : Request) : pool.length ≤ (step pool r).2.length := by
  cases r with
  | use i u => exact Nat.le_of_eq (List.length_modify ..).symm
  | clone i => exact List.length_append ▸ Nat.le_add_right ..

theorem getElem?_afterAll {requests : List Request} (hslot : slot < pool.length)
    (hrequests : ∀ u, .use slot u ∉ requests) :
    (afterAll pool requests)[slot]? = pool[slot]? := by
  induction requests generalizing pool with
  | nil => rfl
  | cons r requests ih =>
    have hr (u : Use) : r ≠ .use slot u := fun hr => hrequests u (hr ▸ List.mem_cons_self)
    have hrest (u : Use) : .use slot u ∉ requests := fun hu =>
      hrequests u (List.mem_cons_of_mem r hu)
    rw [afterAll, List.foldl_cons, ← afterAll,
      ih (Nat.lt_of_lt_of_le hslot (length_le_step pool r)) hrest, getElem?_step hslot hr]

theorem afterAll_append (pool : List Mac) (requests later : List Request) :
    afterAll pool (requests ++ later) = afterAll (afterAll pool requests) later :=
  List.foldl_append

/-- Whatever is done with some running tags and their clones, each takes the tag of what it took in
since its last tag or reset, and none is affected by what is done with the others. -/
theorem running_tags (ha : a.Keyable) (key : Bytes) : ∃ m, keyed a key = .ok m ∧
    (∀ message, (m.update message).finish.1 = oneShot a key message) ∧
    ∀ requests : List Request,
      afterAll [m] requests = (histories requests).map (fun uses => m.update (message uses)) ∧
      (∀ slot uses, (histories requests)[slot]? = some uses →
        (step (afterAll [m] requests) (.use slot .finish)).1 =
          some (oneShot a key (message uses))) ∧
      ∀ (slot : Nat) (later : List Request), slot < (afterAll [m] requests).length →
        (∀ u, .use slot u ∉ later) →
        (afterAll [m] (requests ++ later))[slot]? = (afterAll [m] requests)[slot]? := by
  obtain ⟨m, hm⟩ := exists_keyed_iff.mpr ha
  refine ⟨m, hm, finish_update_keyed hm, fun requests => ?_⟩
  have hpool := (fresh_keyed hm).afterAll requests
  refine ⟨hpool, fun slot uses huses => ?_, fun slot later hslot hlater => ?_⟩
  · rw [step, hpool, List.getElem?_map, huses]
    exact congrArg some (finish_update_keyed hm (message uses))
  · rw [afterAll_append, getElem?_afterAll hslot hlater]

theorem running_tags_clone : ∃ m, keyed (.ssl3 .md5) [7] = .ok m ∧
    let requests : List Request :=
      [.use 0 (.update [1]), .clone 0, .use 1 (.update [2]), .use 0 .finish, .use 0 (.update [3])]
    (step (afterAll [m] requests) (.use 0 .finish)).1 = some (oneShot (.ssl3 .md5) [7] [3]) ∧
      (step (afterAll [m] requests) (.use 1 .finish)).1 =
        some (oneShot (.ssl3 .md5) [7] [1, 2]) := by
  obtain ⟨m, hm, -, hrun⟩ := running_tags (a := .ssl3 .md5) trivial [7]
  refine ⟨m, hm, ?_⟩
  intro requests
  obtain ⟨-, hfinish, -⟩ := hrun requests
  have hfirst : message [.update [1], .finish, .update [3]] = [3] := rfl
  have hclone : message [.update [1], .update [2]] = [1, 2] := rfl
  rw [← hfirst, ← hclone]
  exact ⟨hfinish 0 _ rfl, hfinish 1 _ rfl⟩

end RecordLayer.Mac
