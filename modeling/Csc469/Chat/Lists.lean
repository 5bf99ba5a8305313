import Csc469.Chat.Relay

/-! The replies that list rooms and members, as they are put together in their buffers. -/
namespace Csc469.Chat

open Execution Linked

/-- `sprintf(buf + loc, ...)` with the text `t`: it and its terminator fit the buffer. -/
def sprintfAt (buf : Bytes) (loc : Nat) (t : Bytes) : Call Bytes :=
  if loc + t.length < buf.length then
    .ok (buf.take loc ++ t ++ 0 :: buf.drop (loc + t.length + 1))
  else .error .fault

/-- One round of the two loops, on `list` and `loc`: unless the entry is the last one, a space
goes over its terminator. -/
def putEntry (last : Bool) (t : Bytes) (x : Bytes × Nat) : Call (Bytes × Nat) := do
  let list ← sprintfAt x.1 x.2 t
  if last then .ok (list, x.2)
  else
    let stop := x.2 + (cstr (list.drop x.2)).length
    .ok (list.set stop 32, stop + 1)

/-- `send_control_msg_reply`: `strcpy` puts the text behind the header of `msg_buf`. -/
def sendControlMsgReply (type id : UInt16) (data : Bytes) : Call Reply :=
  if cmhSize + (cstr data).length < maxMsgLen then .ok ⟨type, id, cstr data⟩ else .error .fault

/-- The format `"[%s (%d)]"`. -/
def roomEntry (name : Bytes) (count : Int) : Bytes :=
  text "[" ++ name ++ text (" (" ++ toString count ++ ")]")

/-- The format `"(%s)"`. -/
def memberEntry (name : Bytes) : Bytes := text "(" ++ name ++ text ")"

/-- `process_room_list_request`, with its buffer. -/
def roomListReply (s : Server) (id : UInt16) : Call Reply :=
  if s.totalNumOfRooms = 0 then
    sendControlMsgReply roomListFail id (text "No rooms available!")
  else do
    let rooms ← walk s.rooms.load Room.nextRoom s.rooms.used.length s.roomListHead
    let (list, _) ← rooms.foldlM (fun x r =>
      putEntry (some r.1 = s.roomListTail) (roomEntry r.2.name r.2.numOfMembers) x)
        (List.replicate maxMsgLen 0, 0)
    sendControlMsgReply roomListSucc id list

/-- `process_member_list_request`, with its buffer. -/
def memberListReply (s : Server) (id : UInt16) (msg : Bytes) : Call Reply :=
  match s.roomListHead with
  | none => sendControlMsgReply memberListFail id (text "No room available yet!")
  | some _ => do
    match ← findRoom s (cstr (msgdata msg)) with
    | none => sendControlMsgReply memberListFail id (text "Room not found!")
    | some r =>
      let rt ← s.rooms.read (some r)
      if rt.memberListHead = none then
        sendControlMsgReply memberListFail id (text "No member in this room!")
      else
        let members ←
          walk s.members.load Member.nextRoomMember s.members.used.length rt.memberListHead
        let (list, _) ← members.foldlM (fun x mt =>
          putEntry (mt.2.nextRoomMember = none) (memberEntry mt.2.name) x)
            (List.replicate maxMsgLen 0, 0)
        sendControlMsgReply memberListSucc id list

/-- The body is one that fits behind a control header, with its terminator. -/
def FitsMessage (body : Bytes) : Prop := body.length + 1 ≤ maxMsgLen - cmhSize

/-- The members of the list `L` that are in room `r`. -/
def population (s : Server) (L : List Nat) (r : Nat) : Nat :=
  (L.filter fun a => s.roomAt a = some r).length

/-- What the two lists of replies say of the members `L` and the rooms `R`. A room list whose
tail has been lost ends in a space. -/
structure ListsComplete (s : Server) (L R : List Nat) : Prop where
  rooms : R ≠ [] → ∀ id, ∃ body, roomListReply s id = .ok ⟨roomListSucc, id, body⟩ ∧
    processRoomListRequest s id = .ok (some ⟨roomListSucc, id, body⟩) ∧
    body = List.intercalate (text " ") (R.map fun r =>
      roomEntry ((s.roomNameAt r).getD []) (population s L r)) ++
        (if s.roomListTail = none then text " " else []) ∧
    FitsMessage body
  members : ∀ id msg r, findRoom s (cstr (msgdata msg)) = .ok (some r) → s.roomHead r ≠ none →
    ∃ zs body, Chain (roomLinks.succ s.members) (s.roomHead r) zs ∧
      (∀ a, a ∈ zs ↔ a ∈ L ∧ s.roomAt a = some r) ∧
      memberListReply s id msg = .ok ⟨memberListSucc, id, body⟩ ∧
      processMemberListRequest s id msg = .ok (some ⟨memberListSucc, id, body⟩) ∧
      body = List.intercalate (text " ") (zs.map fun a =>
        memberEntry ((s.nameAt a).getD [])) ∧
      FitsMessage body

variable {s : Server} {L R : List Nat} {M : Nat → List Nat} {a b r n : Nat} {t body : Bytes}
  {type id : UInt16} {done : Bytes}

/-! The buffer. -/

/-- The buffer holds `done` and zeros behind it. -/
def padded (done : Bytes) : Bytes := done ++ List.replicate (maxMsgLen - done.length) 0

theorem sprintfAt_padded (h : done.length + t.length < maxMsgLen) :
    sprintfAt (padded done) done.length t = .ok (padded (done ++ t)) := by
  have hlen : (padded done).length = maxMsgLen := by
    simp only [padded, List.length_append, List.length_replicate]
    omega
  obtain ⟨k, hk⟩ := Nat.exists_eq_add_of_lt h
  have hzeros : maxMsgLen - (done ++ t).length = k + 1 := by
    rw [List.length_append]
    omega
  have hdrop : (padded done).drop (done.length + t.length + 1) = List.replicate k 0 := by
    rw [padded, show done.length + t.length + 1 = done.length + (t.length + 1) by omega,
      ← List.drop_drop, List.drop_left, List.drop_replicate]
    congr 1
    omega
  rw [sprintfAt, if_pos (by omega), hdrop, padded, List.take_left, padded, hzeros]
  rfl

theorem putEntry_last (h : done.length + t.length < maxMsgLen) :
    putEntry true t (padded done, done.length) = .ok (padded (done ++ t), done.length) := by
  rw [putEntry, sprintfAt_padded h]
  rfl

theorem putEntry_spaced (h0 : 0 ∉ t) (h : done.length + t.length < maxMsgLen) :
    putEntry false t (padded done, done.length) =
      .ok (padded (done ++ t ++ text " "), (done ++ t ++ text " ").length) := by
  obtain ⟨k, hk⟩ := Nat.exists_eq_add_of_lt h
  have hzeros : maxMsgLen - (done ++ t).length = k + 1 := by
    rw [List.length_append]
    omega
  have hstr : cstr ((padded (done ++ t)).drop done.length) = t := by
    rw [padded, hzeros, List.append_assoc, List.drop_left]
    exact cstr_append_zero h0 _
  have hset : (padded (done ++ t)).set (done.length + t.length) 32 =
      padded (done ++ t ++ text " ") := by
    rw [padded, hzeros, ← List.length_append, List.set_append_right _ _ (Nat.le_refl _),
      Nat.sub_self, padded]
    rw [show maxMsgLen - (done ++ t ++ text " ").length = k by
      rw [List.length_append]
      simp only [text]
      exact Nat.sub_eq_of_eq_add (by simpa using by omega)]
    simp [text, List.replicate_succ]
  rw [putEntry, sprintfAt_padded h]
  simp only [bind, Except.bind, Bool.false_eq_true, if_false, hstr, hset]
  simp [text, Nat.add_assoc]

theorem cstr_padded (h0 : 0 ∉ body) : cstr (padded body) = body := by
  rw [padded]
  cases maxMsgLen - body.length with
  | zero =>
    rw [List.replicate_zero, List.append_nil]
    exact cstr_self h0
  | succ k => exact cstr_append_zero h0 _

section Entries
variable {α : Type} {entry : α → Bytes} {last : α → Bool} {zs : List α} {z : α}

/-- What the entries `zs` leave in the buffer when none of them is the last. -/
def spaced (entry : α → Bytes) (zs : List α) : Bytes := zs.flatMap fun z => entry z ++ text " "

theorem putEntries_spaced (done : Bytes) (h0 : ∀ z ∈ zs, 0 ∉ entry z)
    (hlast : ∀ z ∈ zs, last z = false) (hfit : done.length + (spaced entry zs).length ≤ maxMsgLen) :
    zs.foldlM (fun x z => putEntry (last z) (entry z) x) (padded done, done.length) =
      .ok (padded (done ++ spaced entry zs), (done ++ spaced entry zs).length) := by
  induction zs generalizing done with
  | nil => simp [spaced, pure, Except.pure]
  | cons z zs ih =>
    have hspaced : spaced entry (z :: zs) = entry z ++ text " " ++ spaced entry zs := rfl
    have hone : (text " ").length = 1 := rfl
    rw [hspaced, List.length_append, List.length_append, hone] at hfit
    have hput := putEntry_spaced (h0 z (by simp)) (show done.length + _ < maxMsgLen by omega)
    rw [List.foldlM_cons, hlast z (by simp), hput]
    simp only [bind, Except.bind]
    rw [ih _ (fun y hy => h0 y (by simp [hy])) (fun y hy => hlast y (by simp [hy])), hspaced]
    · simp only [List.append_assoc]
    · simp only [List.length_append, hone]
      omega

theorem intercalate_concat : List.intercalate (text " ") ((zs ++ [z]).map entry) =
    spaced entry zs ++ entry z := by
  induction zs with
  | nil => simp [spaced, List.intercalate]
  | cons y zs ih =>
    rw [List.cons_append, List.map_cons, List.intercalate_cons_of_ne_nil (by simp), ih]
    simp [spaced]

/-- The entries in the buffer: they are separated by spaces, and one more space follows where the
last one was not recognised. -/
theorem putEntries (h0 : ∀ y ∈ zs ++ [z], 0 ∉ entry y) (hlast : ∀ y ∈ zs, last y = false)
    (hfit : (spaced entry (zs ++ [z])).length < maxMsgLen) : ∃ body loc,
    (zs ++ [z]).foldlM (fun x z => putEntry (last z) (entry z) x) (List.replicate maxMsgLen 0, 0) =
      .ok (padded body, loc) ∧ 0 ∉ body ∧ body.length ≤ (spaced entry (zs ++ [z])).length ∧
      body = List.intercalate (text " ") ((zs ++ [z]).map entry) ++
        (if last z = true then [] else text " ") ∧
      body = (zs ++ [z]).flatMap fun y => entry y ++ if last y = true then [] else text " " := by
  have hwhole : spaced entry (zs ++ [z]) = spaced entry zs ++ (entry z ++ text " ") := by
    simp [spaced]
  have hone : (text " ").length = 1 := rfl
  rw [hwhole, List.length_append, List.length_append, hone] at hfit
  have hzero : ∀ y ∈ zs ++ [z], 0 ∉ entry y ++ text " " := by
    intro y hy
    simp [h0 y hy, text]
  have hspaced0 : 0 ∉ spaced entry zs := by
    intro hmem
    obtain ⟨y, hy, h⟩ := List.mem_flatMap.mp hmem
    exact hzero y (by simp [hy]) h
  have hflat : zs.flatMap (fun y => entry y ++ if last y = true then [] else text " ") =
      spaced entry zs := by
    refine List.flatMap_congr fun y hy => ?_
    rw [hlast y hy]
    rfl
  have hrun := putEntries_spaced [] (fun y hy => h0 y (by simp [hy])) hlast
    (by simp only [List.length_nil]; omega)
  rw [List.nil_append] at hrun
  have hstart : (List.replicate maxMsgLen 0, 0) = (padded [], ([] : Bytes).length) := by
    simp [padded]
  cases hz : last z with
  | true =>
    refine ⟨spaced entry zs ++ entry z, (spaced entry zs).length, ?_, ?_, ?_, ?_, ?_⟩
    · rw [List.foldlM_append, hstart, hrun]
      simp only [bind, Except.bind, List.foldlM_cons, hz]
      rw [putEntry_last (by omega)]
      rfl
    · simp [hspaced0, h0 z]
    · simp [hwhole]
    · rw [intercalate_concat]
      simp
    · simp [hflat, hz]
  | false =>
    refine ⟨spaced entry zs ++ entry z ++ text " ",
      (spaced entry zs ++ entry z ++ text " ").length, ?_, ?_, ?_, ?_, ?_⟩
    · rw [List.foldlM_append, hstart, hrun]
      simp only [bind, Except.bind, List.foldlM_cons, hz]
      rw [putEntry_spaced (h0 z (by simp)) (by omega)]
      rfl
    · simp [hspaced0, h0 z, text]
    · simp [hwhole]
    · rw [intercalate_concat]
      simp
    · simp [hflat, hz]

theorem length_spaced_le {k : Nat} (h : ∀ z ∈ zs, (entry z).length ≤ k) :
    (spaced entry zs).length ≤ zs.length * (k + 1) := by
  induction zs with
  | nil => simp [spaced]
  | cons z zs ih =>
    have hspaced : spaced entry (z :: zs) = entry z ++ text " " ++ spaced entry zs := rfl
    have hone : (text " ").length = 1 := rfl
    have hz := h z (by simp)
    have hrest := ih fun y hy => h y (by simp [hy])
    rw [hspaced, List.length_append, List.length_append, hone, List.length_cons, Nat.add_mul,
      Nat.one_mul]
    omega

end Entries

/-! The entries. -/

theorem sendControlMsgReply_ok (h0 : 0 ∉ body) (hfit : FitsMessage body) :
    sendControlMsgReply type id (padded body) = .ok ⟨type, id, body⟩ := by
  rw [sendControlMsgReply, cstr_padded h0, if_pos]
  simp only [FitsMessage, maxMsgLen, cmhSize] at *
  omega

/-- A loop over the records of a list: `flag` says whether the last one is recognised. -/
theorem putRecords {ρ : Type} (load : Nat → Option ρ) (entry : Nat × ρ → Bytes)
    (last : Nat × ρ → Bool) (flag : Bool) (k : Nat) {zs : List Nat} (hne : zs ≠ [])
    (hl : ∀ a ∈ zs, (load a).isSome)
    (hentry : ∀ y ∈ records load zs, 0 ∉ entry y ∧ (entry y).length ≤ k)
    (hsize : zs.length * (k + 1) ≤ 1240)
    (hlast : ∀ xs z v, zs = xs ++ [z] → load z = some v →
      last (z, v) = flag ∧ ∀ y ∈ records load xs, last y = false) : ∃ body loc,
    (records load zs).foldlM (fun x y => putEntry (last y) (entry y) x)
        (List.replicate maxMsgLen 0, 0) = .ok (padded body, loc) ∧
      0 ∉ body ∧ FitsMessage body ∧
      body = List.intercalate (text " ") ((records load zs).map entry) ++
        (if flag = true then [] else text " ") ∧
      body = (records load zs).flatMap fun y => entry y ++ if last y = true then [] else text " " := by
  have hspaced : (spaced entry (records load zs)).length ≤ 1240 := by
    have hlen := length_spaced_le fun y hy => (hentry y hy).2
    have hrec : (records load zs).length * (k + 1) ≤ zs.length * (k + 1) :=
      Nat.mul_le_mul_right _ length_records_le
    omega
  obtain ⟨xs, z, rfl⟩ : ∃ xs z, zs = xs ++ [z] := (List.eq_nil_or_concat' zs).resolve_left hne
  obtain ⟨v, hv⟩ := Option.isSome_iff_exists.mp (hl z (by simp))
  obtain ⟨hz, hxs⟩ := hlast xs z v rfl hv
  rw [records_append, records_singleton hv] at hentry hspaced ⊢
  obtain ⟨body, loc, hput, h0, hlen, hbody, hflat⟩ := putEntries (fun y hy => (hentry y hy).1) hxs
    (by simp only [maxMsgLen]; omega)
  rw [hz] at hbody
  refine ⟨body, loc, hput, h0, ?_, hbody, hflat⟩
  simp only [FitsMessage, maxMsgLen, cmhSize]
  omega

/-- In a list that is linked through its records only the last one has no successor. -/
theorem only_last_ends {ρ : Type} {load : Nat → Option ρ} {next : ρ → Option Nat} {head : Option Nat}
    {xs : List Nat} {z : Nat} {v : ρ}
    (hchain : Chain (fun a => (load a).bind next) head (xs ++ [z])) (hv : load z = some v) :
    next v = none ∧ ∀ y ∈ records load xs, next y.2 ≠ none := by
  constructor
  · have hnext := hchain.next_eq
    simpa [hv] using hnext
  · intro y hy
    obtain ⟨hyx, hload⟩ := mem_records.mp hy
    obtain ⟨l, q, hl⟩ := List.append_of_mem hyx
    rw [hl, List.append_assoc, List.cons_append] at hchain
    have hnext := hchain.next_eq
    rw [hload, Option.bind_some] at hnext
    rw [hnext]
    simp

theorem count_text (hn : n ≤ maxNumOfMembersPerRoom) :
    (text (" (" ++ toString (n : Int) ++ ")]")).length ≤ 6 ∧
      0 ∉ text (" (" ++ toString (n : Int) ++ ")]") := by
  have h : ∀ n < 31, (text (" (" ++ toString ((n : Nat) : Int) ++ ")]")).length ≤ 6 ∧
      0 ∉ text (" (" ++ toString ((n : Nat) : Int) ++ ")]") := by decide
  exact h n (Nat.lt_succ_of_le hn)

theorem roomEntry_fits {name : Bytes} (h0 : 0 ∉ name) (hlen : name.length ≤ 23)
    (hn : n ≤ maxNumOfMembersPerRoom) :
    0 ∉ roomEntry name n ∧ (roomEntry name n).length ≤ 30 := by
  obtain ⟨hcount, hcount0⟩ := count_text hn
  have hone : (text "[").length = 1 := rfl
  constructor
  · rw [roomEntry, List.mem_append, List.mem_append, not_or, not_or]
    exact ⟨⟨by decide, h0⟩, hcount0⟩
  · rw [roomEntry, List.length_append, List.length_append, hone]
    omega

theorem memberEntry_fits {name : Bytes} (h0 : 0 ∉ name) (hlen : name.length ≤ maxMemberNameLen) :
    0 ∉ memberEntry name ∧ (memberEntry name).length ≤ 26 := by
  have hopen : (text "(").length = 1 := rfl
  have hclose : (text ")").length = 1 := rfl
  constructor
  · rw [memberEntry, List.mem_append, List.mem_append, not_or, not_or]
    exact ⟨⟨by decide, h0⟩, by decide⟩
  · rw [memberEntry, List.length_append, List.length_append, hopen, hclose]
    simp only [maxMemberNameLen] at hlen
    omega

theorem member_name_length (mt : Member) : mt.name.length ≤ maxMemberNameLen := by
  have h := (List.takeWhile_sublist (l := mt.memberName.toList) (· ≠ 0)).length_le
  simpa [Member.name, cstr] using h

/-- The count that a room keeps is the number of the members that are in it. -/
theorem Membership.population_eq (h : Membership s L R M) (hL : L.Nodup) (hr : r ∈ R) :
    population s L r = (M r).length := by
  have hperm : (L.filter fun a => s.roomAt a = some r).Perm (M r) := by
    refine (List.perm_ext_iff_of_nodup (hL.filter _) (h.family.dlist r hr).nodup).mpr fun a => ?_
    rw [List.mem_filter, h.mem r hr a]
    simp
  exact hperm.length_eq

theorem roomListReply_ok (h : Inv s L R M) (hR : R ≠ [])
    (hnames : ∀ r ∈ R, ∀ name, s.roomNameAt r = some name → name.length ≤ 23) : ∃ body,
    roomListReply s id = .ok ⟨roomListSucc, id, body⟩ ∧
      processRoomListRequest s id = .ok (some ⟨roomListSucc, id, body⟩) ∧
      body = List.intercalate (text " ") (R.map fun r =>
        roomEntry ((s.roomNameAt r).getD []) (population s L r)) ++
          (if s.roomListTail = none then text " " else []) ∧ FitsMessage body := by
  obtain ⟨hchain, halloc, htail, hcount, hle⟩ := h.roomList
  have hnodup := h.roomList.nodup
  have hwalk := walk_ok hchain halloc (Store.length_le_used hnodup halloc)
  have hnum : ∀ r ∈ R, ∀ v, s.rooms.load r = some v → v.numOfMembers = ((M r).length : Int) := by
    intro r hr v hv
    have hcount := h.membership.count r hr
    rwa [hv, Option.map_some, Option.some.injEq] at hcount
  have hentry : ∀ y ∈ records s.rooms.load R, 0 ∉ roomEntry y.2.name y.2.numOfMembers ∧
      (roomEntry y.2.name y.2.numOfMembers).length ≤ 30 := by
    intro y hy
    obtain ⟨hyR, hload⟩ := mem_records.mp hy
    rw [hnum y.1 hyR y.2 hload]
    refine roomEntry_fits zero_notMem_cstr (hnames y.1 hyR _ ?_) (h.membership.le y.1 hyR)
    simp [Server.roomNameAt, hload]
  have hsize : R.length * (30 + 1) ≤ 1240 := by
    simp only [maxNumOfRooms] at hle
    omega
  obtain ⟨body, loc, hput, h0, hfit, hbody, hflat⟩ := putRecords s.rooms.load
    (fun r => roomEntry r.2.name r.2.numOfMembers) (fun r => decide (some r.1 = s.roomListTail))
    (decide (s.roomListTail ≠ none)) 30 hR halloc hentry hsize (by
      rintro xs z v rfl hv
      rw [List.getLast?_concat] at htail
      refine ⟨by rcases htail with htail | htail <;> simp [htail], fun y hy => ?_⟩
      have hne : y.1 ≠ z := (List.nodup_append.mp hnodup).2.2 y.1 (mem_records.mp hy).1 z (by simp)
      rcases htail with htail | htail <;> simp [htail, hne])
  have hmap : (records s.rooms.load R).map (fun r => roomEntry r.2.name r.2.numOfMembers) =
      R.map fun r => roomEntry ((s.roomNameAt r).getD []) (population s L r) := by
    refine map_records halloc fun r hr v hv => ?_
    rw [hnum r hr v hv, h.membership.population_eq h.registry.nodup hr]
    simp [Server.roomNameAt, hv]
  have hrooms : s.totalNumOfRooms ≠ 0 := by
    have := List.length_pos_iff.mpr hR
    omega
  refine ⟨body, ?_, ?_, ?_, hfit⟩
  · rw [roomListReply, if_neg hrooms]
    refine bind_eq_ok.mpr ⟨_, hwalk, bind_eq_ok.mpr ⟨(padded body, loc), hput, ?_⟩⟩
    exact sendControlMsgReply_ok h0 hfit
  · rw [processRoomListRequest, if_neg hrooms]
    refine bind_eq_ok.mpr ⟨_, hwalk, ?_⟩
    rw [hflat]
    simp [roomEntry]
  · rw [hbody, hmap]
    cases s.roomListTail <;> rfl

theorem memberListReply_ok {msg : Bytes} (h : Inv s L R M)
    (hfind : findRoom s (cstr (msgdata msg)) = .ok (some r)) (hr : s.roomHead r ≠ none) :
    ∃ zs body, Chain (roomLinks.succ s.members) (s.roomHead r) zs ∧
      (∀ a, a ∈ zs ↔ a ∈ L ∧ s.roomAt a = some r) ∧
      memberListReply s id msg = .ok ⟨memberListSucc, id, body⟩ ∧
      processMemberListRequest s id msg = .ok (some ⟨memberListSucc, id, body⟩) ∧
      body = List.intercalate (text " ") (zs.map fun a =>
        memberEntry ((s.nameAt a).getD [])) ∧ FitsMessage body := by
  have hrR := (findRoom_some h.roomList hfind).1
  obtain ⟨rt, hrt⟩ := Option.isSome_iff_exists.mp (h.roomList.alloc r hrR)
  have hread : s.rooms.read (some r) = .ok rt := by simp [Store.read, hrt]
  have hhead : s.roomHead r = rt.memberListHead := by simp [Server.roomHead, hrt]
  have hlist := h.membership.family.dlist r hrR
  have halloc : ∀ a ∈ M r, (s.members.load a).isSome :=
    fun a ha => h.registry.alloc a (h.membership.mem_left hrR ha)
  have hchain : Chain (fun a => (s.members.load a).bind Member.nextRoomMember) rt.memberListHead
      (M r) := by
    rw [← hhead]
    exact hlist.forth
  have hwalk := walk_ok hchain halloc (Store.length_le_used hlist.nodup halloc)
  have hne : M r ≠ [] := by
    intro hnil
    have hnone := hlist.forth
    rw [hnil] at hnone
    exact hr hnone
  have hentry : ∀ y ∈ records s.members.load (M r), 0 ∉ memberEntry y.2.name ∧
      (memberEntry y.2.name).length ≤ 26 :=
    fun y _ => memberEntry_fits zero_notMem_cstr (member_name_length y.2)
  have hsize : (M r).length * (26 + 1) ≤ 1240 := by
    have hle := h.membership.le r hrR
    simp only [maxNumOfMembersPerRoom] at hle
    omega
  obtain ⟨body, loc, hput, h0, hfit, hbody, hflat⟩ := putRecords s.members.load
    (fun mt => memberEntry mt.2.name) (fun mt => decide (mt.2.nextRoomMember = none)) true 26 hne
    halloc hentry hsize (by
      intro xs z v hxs hv
      obtain ⟨hlast, hothers⟩ := only_last_ends (hxs ▸ hchain) hv
      exact ⟨decide_eq_true hlast, fun y hy => decide_eq_false (hothers y hy)⟩)
  have hmap : (records s.members.load (M r)).map (fun mt => memberEntry mt.2.name) =
      (M r).map fun a => memberEntry ((s.nameAt a).getD []) := by
    refine map_records halloc fun a ha v hv => ?_
    simp [Server.nameAt, hv]
  obtain ⟨x, hx⟩ : ∃ x, s.roomListHead = some x := by
    rw [h.roomList.chain.head_eq, ← Option.isSome_iff_exists, List.isSome_head?]
    exact List.ne_nil_of_mem hrR
  have hhead' : rt.memberListHead ≠ none := hhead ▸ hr
  refine ⟨M r, body, hlist.forth, h.membership.mem r hrR, ?_, ?_, ?_, hfit⟩
  · simp only [memberListReply, hx]
    refine bind_eq_ok.mpr ⟨_, hfind, bind_eq_ok.mpr ⟨_, hread, ?_⟩⟩
    rw [if_neg hhead']
    refine bind_eq_ok.mpr ⟨_, hwalk, bind_eq_ok.mpr ⟨(padded body, loc), hput, ?_⟩⟩
    exact sendControlMsgReply_ok h0 hfit
  · simp only [processMemberListRequest, hx]
    refine bind_eq_ok.mpr ⟨_, hfind, bind_eq_ok.mpr ⟨_, hread, ?_⟩⟩
    rw [if_neg hhead']
    refine bind_eq_ok.mpr ⟨_, hwalk, ?_⟩
    rw [hflat]
    simp [memberEntry]
  · rw [hbody, hmap]
    simp

/-- In every state that the server can reach, the list of rooms and the lists of their members
are complete and fit their messages, as long as no room name has all of its 24 characters. -/
theorem list_replies_complete {c d : Session} (hc : Started c) (hr : Reaches Step c d)
    (hnames : ∀ r, d.server.HasRoom r → ∀ name, d.server.roomNameAt r = some name →
      name.length ≤ 23) :
    ∃ L R, Chain (memberLinks.succ d.server.members) d.server.memListHead L ∧
      Chain d.server.nextRoomAt d.server.roomListHead R ∧ ListsComplete d.server L R := by
  obtain ⟨L, R, M, h⟩ := inv_of_reaches hc hr
  refine ⟨L, R, h.registry.list.forth, h.roomList.chain, ?_, ?_⟩
  · intro hR id
    exact roomListReply_ok h hR fun r hr => hnames r (h.roomList.hasRoom_iff.mpr hr)
  · intro id msg r hfind hhead
    exact memberListReply_ok h hfind hhead

/-- The reply to the first member, and how its two rooms are linked and named. -/
def roomView (s : Server) : Option Reply × List (Option Nat) × List (Option Bytes) :=
  ((roomListReply s 1).toOption, [s.roomListHead, s.nextRoomAt 4096, s.nextRoomAt 8192],
    [s.roomNameAt 4096, s.roomNameAt 8192])

theorem list_replies_complete_twoMembers : ∃ d, Reaches Step twoRooms d ∧
    (roomListReply d.server 1).toOption = some ⟨roomListSucc, 1, text "[A (2)] [B (0)]"⟩ ∧
    ∃ L R, Chain (memberLinks.succ d.server.members) d.server.memListHead L ∧
      Chain d.server.nextRoomAt d.server.roomListHead R ∧ ListsComplete d.server L R := by
  obtain ⟨run, hrun, hh⟩ := ok_of_map (c := rounds twoRooms twoMembers)
    (f := fun run => roomView (lastState twoRooms run).server)
    (b := (some ⟨roomListSucc, 1, text "[A (2)] [B (0)]"⟩, [some 4096, some 8192, none],
      [some (text "A"), some (text "B")])) (by decide +kernel)
  simp only [roomView, Prod.mk.injEq, List.cons.injEq, and_true] at hh
  obtain ⟨hreply, ⟨hhead, hA, hB⟩, hnameA, hnameB⟩ := hh
  refine ⟨_, (rounds_along hrun).reaches_last, hreply, list_replies_complete twoRooms_started
    (rounds_along hrun).reaches_last ?_⟩
  rintro r ⟨R, hR, hr⟩ name hname
  have hRs : R = [4096, 8192] := Chain.unique hR ⟨hhead, hA, hB⟩
  rw [hRs] at hr
  rcases List.mem_pair.mp hr with rfl | rfl
  · rw [hnameA, Option.some.injEq] at hname
    simp [← hname, text]
  · rw [hnameB, Option.some.injEq] at hname
    simp [← hname, text]

end Csc469.Chat
