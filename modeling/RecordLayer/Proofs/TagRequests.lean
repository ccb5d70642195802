import RecordLayer.Proofs.RecordTags

/-! # Requests for tags

What is authenticated of a message determines all that the tag is asked for, also where connection
IDs of different lengths stand between header and message (`covered_unambiguous`). Tags in plain
and in uniform time can be asked for in any order: each answer is the tag of its own string, as if
nothing had been asked before. What was taken in before the first request goes into the first tag
and into no other (`answers_eq`).
-/

namespace RecordLayer

namespace AdditionalData

variable {s s' : UInt64} {t' : ContentType} {v v' : Version} {id id' x x' y : Bytes} {n n' : Nat}

theorem connectionId_append_inj (hid : id.length ≤ 255) (hid' : id'.length ≤ 255)
    (h : connectionId s v id n ++ x = connectionId s' v' id' n' ++ x') :
    s = s' ∧ id = id' ∧ x = x' := by
  simp only [connectionId, List.append_assoc] at h
  obtain ⟨-, hmark⟩ := List.append_inj h rfl
  obtain ⟨hsizes, hversion⟩ := List.append_inj hmark rfl
  obtain ⟨-, hnumber⟩ := List.append_inj hversion rfl
  obtain ⟨hs, htail⟩ := List.append_inj hnumber (by simp)
  have hlen : id.length = id'.length := by
    have hbyte : UInt8.ofNat id.length = UInt8.ofNat id'.length := by
      simpa only [List.cons.injEq, and_true, true_and] using hsizes
    exact Bytes.eq_of_ofNat_eq hid hid' hbyte
  obtain ⟨rfl, hend⟩ := List.append_inj htail hlen
  exact ⟨Bytes.eq_of_be8_eq hs, rfl, (List.append_inj hend (by simp)).2⟩

theorem eq_of_connectionId_append_eq
    (h : connectionId s v id n ++ x = Bytes.be 8 s'.toNat ++ t'.code :: y) :
    s' = 0xffffffffffffffff ∧ t' = .connectionId ∧
      y[1]? = some ContentType.connectionId.code := by
  simp only [connectionId, List.append_assoc] at h
  obtain ⟨hs, htail⟩ := List.append_inj h (by simp)
  have hmark : Bytes.be 8 (0xffffffffffffffff : UInt64).toNat = List.replicate 8 0xff := by decide
  obtain ⟨ht, rfl⟩ := List.cons.inj htail
  exact ⟨(Bytes.eq_of_be8_eq (hmark.trans hs)).symm, congrArg ContentType.mk ht.symm, rfl⟩

end AdditionalData

theorem Version.minor_ne_connectionId (v : Version) : v.minor ≠ ContentType.connectionId.code := by
  cases v <;> decide

namespace RecordMac

variable {m : RecordMac} {s s' : UInt64} {t t' : ContentType} {id id' message message' : Bytes}

/-- Behind a connection ID, the string is that of a message without one only over SSL 3.0, where the
mark of the layout is a record number and a type. -/
theorem eq_of_covered_eq (hid : id ≠ [])
    (h : m.covered s t id message = m.covered s' t' [] message') :
    s' = 0xffffffffffffffff ∧ t' = .connectionId ∧ m.version.isSsl = true := by
  rw [covered, header_of_ne_nil hid, covered, header, if_neg (by simp)] at h
  split at h
  · rename_i hssl
    rw [AdditionalData.ssl3, List.append_assoc, List.cons_append] at h
    obtain ⟨hs, ht, -⟩ := AdditionalData.eq_of_connectionId_append_eq h
    exact ⟨hs, ht, hssl⟩
  · rw [AdditionalData.legacy, List.append_assoc, List.append_assoc, List.cons_append] at h
    obtain ⟨-, -, hminor⟩ := AdditionalData.eq_of_connectionId_append_eq h
    exact absurd (Option.some.inj hminor) m.version.minor_ne_connectionId

/-- Two strings under tags of one version are the same only if they stand for the same number,
connection ID and message, and without a connection ID for the same type. The layouts with and
without one meet only over SSL 3.0, in the last record number and the type of the mark. It is these
strings that tags are taken of. -/
theorem covered_unambiguous (hid : id.length ≤ 255) (hid' : id'.length ≤ 255)
    (h : m.covered s t id message = m.covered s' t' id' message') :
    (id = [] → id' = [] → s = s' ∧ t = t' ∧ message = message') ∧
      (id ≠ [] → id' ≠ [] → s = s' ∧ id = id' ∧ message = message') ∧
      (id ≠ [] → id' = [] →
        s' = 0xffffffffffffffff ∧ t' = .connectionId ∧ m.version.isSsl = true) ∧
      (id = [] → id' ≠ [] →
        s = 0xffffffffffffffff ∧ t = .connectionId ∧ m.version.isSsl = true) ∧
      ∀ s t id message, (m.tag s t id message).1 =
        (m.mac.current.update (m.header s t id message.length ++ message)).finish.take m.size := by
  refine ⟨?_, ?_, ?_, ?_, fun s t id message => congrArg Prod.fst (tag_eq s t id message)⟩
  · rintro rfl rfl
    obtain ⟨hs, ht, hm⟩ := covered_inj h
    exact ⟨hs, ht rfl, hm⟩
  · intro hne hne'
    rw [covered, covered, header_of_ne_nil hne, header_of_ne_nil hne'] at h
    exact AdditionalData.connectionId_append_inj hid hid' h
  · rintro hne rfl
    exact eq_of_covered_eq hne h
  · rintro rfl hne
    exact eq_of_covered_eq hne h.symm

/-- A message behind a connection ID and one without, which SSL 3.0 authenticates alike. -/
theorem covered_unambiguous_ssl30 :
    let m := new .ssl30 false (.hmac .sha1 [])
    let tail := m.version.bytes ++ Bytes.be 8 5 ++ [7] ++ Bytes.be 2 268 ++ Bytes.zeros 268
    m.covered 5 .applicationData [7] (Bytes.zeros 268) =
        m.covered 0xffffffffffffffff .connectionId [] tail ∧ m.version.isSsl = true := by
  intro m tail
  have h : m.covered 5 .applicationData [7] (Bytes.zeros 268) =
      m.covered 0xffffffffffffffff .connectionId [] tail := by decide +kernel
  obtain ⟨-, -, hmixed, -⟩ := covered_unambiguous (by decide) (by decide) h
  exact ⟨h, (hmixed (by decide) rfl).2.2⟩

end RecordMac

structure TagInput where
  seq : UInt64
  contentType : ContentType
  id : Bytes
  message : Bytes

/-- A request for a tag: in plain time, or with the work for a message of `fullSize` bytes. -/
inductive TagRequest
  | plain (input : TagInput)
  | uniform (input : TagInput) (fullSize : Nat) (dummy : Bytes)

namespace TagRequest

def input : TagRequest → TagInput
  | plain i | uniform i _ _ => i

def reach (m : RecordMac) : TagRequest → Nat
  | plain _ => 0
  | uniform i fullSize _ => m.headerSize i.id + max i.message.length fullSize + m.mac.lengthSize

end TagRequest

namespace RecordMac

variable {m : RecordMac} {a : MacAlgorithm} {key : Bytes} {mac : Mac}

def answer (m : RecordMac) : TagRequest → Except Fault Bytes × RecordMac
  | .plain i =>
    let (tag, m) := m.tag i.seq i.contentType i.id i.message
    (.ok tag, m)
  | .uniform i fullSize dummy => m.uniformTag i.seq i.contentType i.id i.message fullSize dummy

def answers (m : RecordMac) : List TagRequest → List (Except Fault Bytes) × RecordMac
  | [] => ([], m)
  | r :: requests =>
    let (tag, m) := m.answer r
    let (tags, m) := m.answers requests
    (tag :: tags, m)

/-- The answer to a request that finds `data` taken in. -/
def reply (m : RecordMac) (data : Bytes) (r : TagRequest) : Except Fault Bytes :=
  if r.reach m < Size.bound then
    .ok (m.tagOf (data ++ m.covered r.input.seq r.input.contentType r.input.id r.input.message))
  else .error .sizeOverflow

theorem Pending.answer_eq {data : Bytes} (h : m.Pending data) (r : TagRequest) :
    m.answer r = (m.reply data r, m.reset) := by
  cases r with
  | plain i =>
    have hreach : (TagRequest.plain i).reach m < Size.bound := (by decide : 0 < Size.bound)
    rw [answer, h.tag_eq, reply, if_pos hreach]
    rfl
  | uniform i fullSize dummy => exact h.uniformTag_eq ..

theorem Ready.answers_eq_map (h : m.Ready) (requests : List TagRequest) :
    m.answers requests = (requests.map (m.reply []), m) := by
  induction requests with
  | nil => rfl
  | cons r requests ih => simp only [answers, h.pending.answer_eq, h.reset, ih, List.map_cons]

/-- The first answer is the first bytes of the tag under the key of what was taken in before, the
header and the message. All others are those of the tag of their own header and message. -/
theorem answers_eq (hk : Mac.keyed a key = .ok mac) (v : Version) (truncated : Bool) (data : Bytes)
    (r : TagRequest) (requests : List TagRequest) :
    let m := new v truncated (mac.update data)
    ∃ k, KeyStrings.of a key = .ok k ∧
      let tagBehind (data : Bytes) (r : TagRequest) : Except Fault Bytes :=
        let i := r.input
        let header := m.header i.seq i.contentType i.id i.message.length
        if r.reach m < Size.bound then .ok ((k.tag (data ++ header ++ i.message)).take m.size)
        else .error .sizeOverflow
      m.answers (r :: requests) =
          (tagBehind data r :: requests.map (tagBehind []), new v truncated mac) ∧
        ∀ s t id n, (m.header s t id n).length = m.headerSize id := by
  intro m
  obtain ⟨k, hstrings, rfl⟩ := map_eq_ok.mp hk
  refine ⟨k, hstrings, ?_, m.length_header⟩
  have hready := ready_new hk v truncated
  have hpending : m.Pending data := rfl
  have hreset : m.reset = new v truncated (Mac.ofStrings a k) := rfl
  have htag (x : Bytes) : m.tagOf x = (k.tag x).take m.size :=
    congrArg (List.take m.size) (NestedDigest.finish_update_new k x)
  have hreply (data : Bytes) (r : TagRequest) : m.reply data r =
      if r.reach m < Size.bound then .ok ((k.tag (data ++ m.header r.input.seq r.input.contentType
        r.input.id r.input.message.length ++ r.input.message)).take m.size)
      else .error .sizeOverflow := by
    rw [reply, htag, covered, List.append_assoc]
  simp only [answers, hpending.answer_eq, hreset, hready.answers_eq_map]
  refine Prod.ext (List.cons_eq_cons.mpr ⟨hreply data r, ?_⟩) rfl
  exact List.map_congr_left fun r _ => hreply [] r

/-- A byte is taken in before a tag in uniform time, whose dummy data are short of a block, and one
in plain time after it. -/
theorem answers_eq_sha1 : ∃ k, KeyStrings.of (.hmac .sha1) [11] = .ok k ∧
    let m := new .dtls12 true ((Mac.hmac .sha1 [11]).update [1])
    m.answers [.uniform ⟨9, ⟨21⟩, [], [1, 2]⟩ 300 [5], .plain ⟨9, ⟨21⟩, [7], [1, 2]⟩] =
      ([.ok ((k.tag ([1] ++ m.header 9 ⟨21⟩ [] 2 ++ [1, 2])).take 10),
        .ok ((k.tag (m.header 9 ⟨21⟩ [7] 2 ++ [1, 2])).take 10)],
        new .dtls12 true (.hmac .sha1 [11])) := by
  obtain ⟨k, hk, hanswers, -⟩ := answers_eq (Mac.keyed_hmac .sha1 [11]) .dtls12 true [1]
    (.uniform ⟨9, ⟨21⟩, [], [1, 2]⟩ 300 [5]) [.plain ⟨9, ⟨21⟩, [7], [1, 2]⟩]
  refine ⟨k, hk, hanswers.trans ?_⟩
  rw [List.map_cons, List.map_nil]
  dsimp only
  rw [if_pos (by decide), if_pos (by decide)]
  rfl

/-- What was taken in before shows in the first tag. -/
theorem answer_ne_of_pending : ¬ ∀ (a : MacAlgorithm) (key data : Bytes) (mac : Mac)
    (k : KeyStrings) (v : Version) (i : TagInput), Mac.keyed a key = .ok mac →
    KeyStrings.of a key = .ok k →
      let m := new v false (mac.update data)
      (m.answer (.plain i)).1 =
        .ok ((k.tag (m.header i.seq i.contentType i.id i.message.length ++
          i.message)).take m.size) := by
  intro hall
  let m := new .tls12 false ((Mac.hmac .md5 [11]).update [1])
  let i : TagInput := ⟨0, .applicationData, [], []⟩
  have hanswer : (m.answer (.plain i)).1 = .ok (m.tag 0 .applicationData [] []).1 := by
    rw [answer]
  have htag := Except.ok.inj (hanswer.symm.trans
    (hall (.hmac .md5) [11] [1] _ (.hmac .md5 [11]) .tls12 i (Mac.keyed_hmac .md5 [11]) rfl))
  revert htag
  decide +kernel

end RecordMac

end RecordLayer
