import RecordLayer.RecordMac
import RecordLayer.Proofs.Encodings
import RecordLayer.Proofs.Results

/-! # Record tags between records

A tag is a function of one string: what was taken in before, the header and the message. Taking it
leaves nothing behind. So is a tag in uniform time, and it is the same one. The string determines
the record number, the message and, without a connection ID, the type.
-/

namespace RecordLayer

namespace AdditionalData

variable {s s' : UInt64} {t t' : ContentType} {v v' : Version} {id : Bytes} {n n' : Nat}

/-- A connection ID that a buffer can hold along with the layout it stands in. -/
def Holds (id : Bytes) : Prop := connectionIdBaseSize + id.length ≤ Size.capacity

instance : DecidablePred Holds := fun _ => Nat.decLe _ _

theorem tls13_inj (h : tls13 t v n = tls13 t' v' n') : t = t' ∧ v = v' := by
  have ht : t.code :: v.bytes = t'.code :: v'.bytes := (List.append_inj h rfl).1
  obtain ⟨hc, hv⟩ := List.cons.inj ht
  exact ⟨congrArg ContentType.mk hc, Version.eq_of_bytes_eq hv⟩

theorem legacy_inj (h : legacy s t v n = legacy s' t' v' n') : s = s' ∧ t = t' ∧ v = v' := by
  obtain ⟨hs, ht⟩ := List.append_inj (List.append_inj h (by simp)).1 (by simp)
  obtain ⟨hc, hv⟩ := List.cons.inj ht
  exact ⟨Bytes.eq_of_be8_eq hs, congrArg ContentType.mk hc, Version.eq_of_bytes_eq hv⟩

theorem ssl3_inj (h : ssl3 s t n = ssl3 s' t' n') : s = s' ∧ t = t' := by
  obtain ⟨hs, ht⟩ := List.append_inj h (by simp)
  exact ⟨Bytes.eq_of_be8_eq hs, congrArg ContentType.mk (List.cons.inj ht).1⟩

theorem connectionId_inj (h : connectionId s v id n = connectionId s' v' id n') :
    s = s' ∧ v = v' := by
  have hfront := (List.append_inj (List.append_inj h (by simp)).1 (by simp)).1
  obtain ⟨hmark, hs⟩ := List.append_inj hfront (by simp)
  have hv := (List.append_inj hmark (by simp)).2
  exact ⟨Bytes.eq_of_be8_eq hs, Version.eq_of_bytes_eq hv⟩

end AdditionalData

theorem Hash.lengthSize_le (h : Hash) : h.lengthSize ≤ 16 := by cases h <;> decide

namespace Mac

theorem size_of_keyed {a : MacAlgorithm} {key : Bytes} {m : Mac} (h : keyed a key = .ok m) :
    m.Fresh ∧ m.size = m.template.hash.size := by
  cases a with
  | null => cases h
  | hmac h' =>
    obtain rfl := Except.ok.inj h
    exact ⟨rfl, rfl⟩
  | ssl3 h' =>
    cases h' with
    | md5 | sha1 =>
      obtain rfl := Except.ok.inj h
      exact ⟨rfl, rfl⟩
    | sha256 | sha384 | sha512 => cases h

end Mac

namespace RecordMac

variable {m : RecordMac} {s s' : UInt64} {t t' : ContentType} {id : Bytes}
  {message message' : Bytes}

structure Ready (m : RecordMac) : Prop where
  fresh : m.mac.Fresh
  size_le : m.size ≤ m.mac.template.hash.size

/-- What is authenticated of a message: the header ahead of it and the message. -/
def covered (m : RecordMac) (s : UInt64) (t : ContentType) (id message : Bytes) : Bytes :=
  m.header s t id message.length ++ message

def tagOf (m : RecordMac) (string : Bytes) : Bytes :=
  (m.mac.template.update string).finish.take m.size

theorem header_of_ne_nil (hid : id ≠ []) (s : UInt64) (t : ContentType) (n : Nat) :
    m.header s t id n = AdditionalData.connectionId s m.version id n :=
  if_pos (by simpa using hid)

theorem ready_new {a : MacAlgorithm} {key : Bytes} {mac : Mac} (h : Mac.keyed a key = .ok mac)
    (v : Version) (truncated : Bool) : (new v truncated mac).Ready := by
  obtain ⟨hf, hs⟩ := Mac.size_of_keyed h
  refine ⟨hf, ?_⟩
  have hmin := Nat.min_le_left mac.size truncatedSize
  simp only [new]
  split <;> omega

theorem Ready.length_tagOf (h : m.Ready) (string : Bytes) : (m.tagOf string).length = m.size := by
  have hlen : (m.mac.template.update string).finish.length = m.mac.template.hash.size :=
    NestedDigest.length_finish _
  rw [tagOf, List.length_take, hlen]
  exact Nat.min_eq_left h.size_le

theorem Ready.length_append_tagOf (h : m.Ready) (string payload : Bytes) :
    (payload ++ m.tagOf string).length = payload.length + m.size := by
  rw [List.length_append, h.length_tagOf]

/-- `data` was taken in since the last tag. -/
def Pending (m : RecordMac) (data : Bytes) : Prop :=
  m.mac.current = m.mac.template.update data

def reset (m : RecordMac) : RecordMac := { m with mac := m.mac.reset }

theorem Ready.pending (h : m.Ready) : m.Pending [] := h.fresh

theorem Ready.reset (h : m.Ready) : m.reset = m := by
  rw [RecordMac.reset, h.fresh.reset]

theorem tag_eq (s : UInt64) (t : ContentType) (id message : Bytes) : m.tag s t id message =
    ((m.mac.current.update (m.covered s t id message)).finish.take m.size, m.reset) := by
  simp only [tag, Mac.finish, Mac.update, Mac.reset, covered, NestedDigest.update_append,
    RecordMac.reset]

theorem Pending.tag_eq {data : Bytes} (h : m.Pending data) (s : UInt64) (t : ContentType)
    (id message : Bytes) :
    m.tag s t id message = (m.tagOf (data ++ m.covered s t id message), m.reset) := by
  have hcur : m.mac.current = m.mac.template.update data := h
  rw [RecordMac.tag_eq, hcur, tagOf, NestedDigest.update_append]

theorem Ready.tag_eq (h : m.Ready) (s : UInt64) (t : ContentType) (id message : Bytes) :
    m.tag s t id message = (m.tagOf (m.covered s t id message), m) := by
  rw [h.pending.tag_eq, h.reset, List.nil_append]

theorem Ready.length_tag (h : m.Ready) (s : UInt64) (t : ContentType) (id message : Bytes) :
    (m.tag s t id message).1.length = m.size := by
  rw [h.tag_eq]
  exact h.length_tagOf _

theorem reset_feed (data : Bytes) (k : Nat) (mac : Mac) :
    (feed data k mac).reset = mac.reset := by
  induction k generalizing mac with
  | zero => rfl
  | succ k ih => rw [feed, ih, Mac.reset_update]

theorem dummyBlocks_eq (headerSize messageSize fullSize : Nat) :
    m.dummyBlocks headerSize messageSize fullSize =
      if headerSize + max messageSize fullSize + m.mac.lengthSize < Size.bound then
        .ok ((headerSize + fullSize + m.mac.lengthSize) / m.mac.blockSize -
          (headerSize + messageSize + m.mac.lengthSize) / m.mac.blockSize)
      else .error .sizeOverflow := by
  have hcount (k : Nat) : (Size.add headerSize k >>= m.blockCount) =
      if headerSize + k + m.mac.lengthSize < Size.bound then
        .ok ((headerSize + k + m.mac.lengthSize) / m.mac.blockSize)
      else .error .sizeOverflow := by
    by_cases hsum : headerSize + k < Size.bound
    · rw [Size.add_eq_ok hsum, ok_bind, blockCount, Size.add]
      split <;> rfl
    · rw [Size.add, if_neg hsum, if_neg (by omega)]
      rfl
  have hsplit : m.dummyBlocks headerSize messageSize fullSize =
      (Size.add headerSize fullSize >>= m.blockCount) >>= fun full =>
        (Size.add headerSize messageSize >>= m.blockCount) >>= fun actual =>
          pure (full - actual) := by
    simp only [dummyBlocks, bind_assoc]
  rw [hsplit, hcount, hcount]
  by_cases hfull : headerSize + fullSize + m.mac.lengthSize < Size.bound
  · by_cases hmessage : headerSize + messageSize + m.mac.lengthSize < Size.bound
    · rw [if_pos hfull, if_pos hmessage]
      exact (if_pos (by omega)).symm
    · rw [if_pos hfull, if_neg hmessage]
      exact (if_neg (by omega)).symm
  · rw [if_neg hfull]
    exact (if_neg (by omega)).symm

/-- A tag in uniform time is the tag in plain time, unless the counts leave the range of sizes. The
dummy blocks leave no trace in either case. -/
theorem Pending.uniformTag_eq {data : Bytes} (h : m.Pending data) (s : UInt64) (t : ContentType)
    (id message : Bytes) (fullSize : Nat) (dummy : Bytes) :
    m.uniformTag s t id message fullSize dummy =
      (if m.headerSize id + max message.length fullSize + m.mac.lengthSize < Size.bound then
        .ok (m.tagOf (data ++ m.covered s t id message)) else .error .sizeOverflow, m.reset) := by
  simp only [uniformTag, h.tag_eq, dummyBlocks_eq]
  split
  · rename_i hfault
    split at hfault
    · cases hfault
    · rename_i hrange
      rw [Except.error.inj hfault]
      exact Prod.ext (if_neg hrange).symm rfl
  · rename_i hok
    split at hok
    · rename_i hrange
      rw [Mac.reset_update, reset_feed]
      exact Prod.ext (if_pos hrange).symm rfl
    · cases hok

theorem Ready.uniformTag_eq_ite (h : m.Ready) (s : UInt64) (t : ContentType) (id message : Bytes)
    (fullSize : Nat) (dummy : Bytes) :
    m.uniformTag s t id message fullSize dummy =
      (if m.headerSize id + max message.length fullSize + m.mac.lengthSize < Size.bound then
        .ok (m.tagOf (m.covered s t id message)) else .error .sizeOverflow, m) := by
  rw [h.pending.uniformTag_eq, h.reset, List.nil_append]

theorem Ready.uniformTag_eq (h : m.Ready) (s : UInt64) (t : ContentType) (id message : Bytes)
    {fullSize : Nat} (dummy : Bytes) (hm : message.length ≤ fullSize)
    (hf : m.headerSize id + fullSize + 16 < Size.bound) :
    m.uniformTag s t id message fullSize dummy = (.ok (m.tag s t id message).1, m) := by
  have hl : m.mac.lengthSize ≤ 16 := Hash.lengthSize_le _
  rw [h.uniformTag_eq_ite, if_pos (by omega), h.tag_eq]

theorem Ready.uniformTag_snd (h : m.Ready) (s : UInt64) (t : ContentType) (id message : Bytes)
    (fullSize : Nat) (dummy : Bytes) : (m.uniformTag s t id message fullSize dummy).2 = m := by
  rw [h.uniformTag_eq_ite]

theorem covered_inj (h : m.covered s t id message = m.covered s' t' id message') :
    s = s' ∧ (id = [] → t = t') ∧ message = message' := by
  obtain ⟨hh, hm⟩ := List.append_inj h (by rw [length_header, length_header])
  unfold header at hh
  split at hh
  · rename_i hid
    refine ⟨(AdditionalData.connectionId_inj hh).1, ?_, hm⟩
    rintro rfl
    cases hid
  · split at hh
    · obtain ⟨hs, ht⟩ := AdditionalData.ssl3_inj hh
      exact ⟨hs, fun _ => ht, hm⟩
    · obtain ⟨hs, ht, _⟩ := AdditionalData.legacy_inj hh
      exact ⟨hs, fun _ => ht, hm⟩

end RecordMac

end RecordLayer
