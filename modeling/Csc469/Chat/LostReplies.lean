import Csc469.Chat.Client
import Csc469.Chat.ServerSafety
import Mathlib.Data.List.Find

/-! What the client reports of its requests when replies are lost on the way. -/
namespace Csc469.Chat

open Execution Linked Retry

variable {s s₀ t u : Server} {L L' R R' : List Nat} {M M' : Nat → List Nat} {a r : Nat} {env : Env}
  {msg name : Bytes} {reply : Option Reply} {id type port : UInt16} {c : Client} {d : Delivery}

section Unchanged

/-- A member apart from the mark that every message of it resets. -/
def Member.unmarked (mt : Member) : Member := { mt with quietFlag := 0 }

/-- The lists are as they were, and so is every record that was allocated, marks apart. -/
structure Unchanged (s t : Server) : Prop where
  members : ∀ a, (s.members.load a).isSome →
    (t.members.load a).map Member.unmarked = (s.members.load a).map Member.unmarked
  rooms : ∀ r, (s.rooms.load r).isSome → t.rooms.load r = s.rooms.load r
  memListHead : t.memListHead = s.memListHead
  memListTail : t.memListTail = s.memListTail
  roomListHead : t.roomListHead = s.roomListHead
  roomListTail : t.roomListTail = s.roomListTail
  totalNumOfMembers : t.totalNumOfMembers = s.totalNumOfMembers
  totalNumOfRooms : t.totalNumOfRooms = s.totalNumOfRooms

namespace Unchanged

theorem refl (s : Server) : Unchanged s s :=
  ⟨fun _ _ => rfl, fun _ _ => rfl, rfl, rfl, rfl, rfl, rfl, rfl⟩

theorem trans (h : Unchanged s t) (h' : Unchanged t u) : Unchanged s u where
  members a ha := by
    have hm := h.members a ha
    have ht : (t.members.load a).isSome := by rwa [Store.isSome_of_map hm]
    exact (h'.members a ht).trans hm
  rooms r hr := by
    have hm := h.rooms r hr
    have ht : (t.rooms.load r).isSome := by rwa [hm]
    exact (h'.rooms r ht).trans hm
  memListHead := h'.memListHead.trans h.memListHead
  memListTail := h'.memListTail.trans h.memListTail
  roomListHead := h'.roomListHead.trans h.roomListHead
  roomListTail := h'.roomListTail.trans h.roomListTail
  totalNumOfMembers := h'.totalNumOfMembers.trans h.totalNumOfMembers
  totalNumOfRooms := h'.totalNumOfRooms.trans h.totalNumOfRooms

theorem leakMember {addr : Nat} {mt : Member} {members : Store Member}
    (hm : s.members.malloc addr mt = .ok members) : Unchanged s { s with members := members } :=
  ⟨fun _ ha => by rw [Store.malloc_kept hm ha], fun _ _ => rfl, rfl, rfl, rfl, rfl, rfl, rfl⟩

theorem leakRoom {addr : Nat} {rt : Room} {rooms : Store Room}
    (hm : s.rooms.malloc addr rt = .ok rooms) : Unchanged s { s with rooms := rooms } :=
  ⟨fun _ _ => rfl, fun _ hr => Store.malloc_kept hm hr, rfl, rfl, rfl, rfl, rfl, rfl⟩

theorem touch : Unchanged s (s.touch a) := by
  have h : Store.Agree Member.unmarked s.members
      (s.members.modify a fun mt => { mt with quietFlag := 0 }) := Store.agree_modify fun _ => rfl
  exact ⟨fun b _ => h b, fun _ _ => rfl, rfl, rfl, rfl, rfl, rfl, rfl⟩

/-- The lists have the same nodes. -/
theorem nodes (h : Unchanged s t) (hs : Inv s L R M) (ht : Inv t L' R' M') :
    L' = L ∧ R' = R := by
  constructor
  · have hchain : Chain (memberLinks.succ t.members) t.memListHead L := by
      rw [h.memListHead]
      refine hs.registry.list.forth.congr fun a ha => ?_
      exact Store.bind_of_map (h.members a (hs.registry.alloc a ha)) Member.nextMember
    exact Chain.unique ht.registry.list.forth hchain
  · have hchain : Chain t.nextRoomAt t.roomListHead R := by
      rw [h.roomListHead]
      refine hs.roomList.chain.congr fun r hr => ?_
      rw [Server.nextRoomAt, h.rooms r (hs.roomList.alloc r hr)]
      rfl
    exact Chain.unique ht.roomList.chain hchain

theorem findMemberWithId (h : Unchanged s t) (hs : Inv s L R M) (ht : Inv t L' R' M')
    (id : UInt16) : findMemberWithId t id = findMemberWithId s id := by
  rw [findMemberWithId_ok ht.registry, findMemberWithId_ok hs.registry, (h.nodes hs ht).1]
  refine congrArg _ (List.find?_congr fun a ha => ?_)
  have hm := congrArg (Option.any fun mt => mt.memberId = id)
    (h.members a (hs.registry.alloc a ha))
  rwa [Option.any_map, Option.any_map] at hm

theorem findName (h : Unchanged s t) (hs : Inv s L R M) (ht : Inv t L' R' M') (name : Bytes) :
    findName t name = findName s name := by
  rw [findName_ok ht.registry, findName_ok hs.registry, (h.nodes hs ht).1]
  refine congrArg _ (List.find?_congr fun a ha => ?_)
  have hm := congrArg (Option.any fun mt => mt.name = name)
    (h.members a (hs.registry.alloc a ha))
  rwa [Option.any_map, Option.any_map] at hm

theorem findRoom (h : Unchanged s t) (hs : Inv s L R M) (ht : Inv t L' R' M') (name : Bytes) :
    findRoom t name = findRoom s name := by
  rw [findRoom_ok ht.roomList, findRoom_ok hs.roomList, (h.nodes hs ht).2]
  refine congrArg _ (List.find?_congr fun r hr => ?_)
  rw [h.rooms r (hs.roomList.alloc r hr)]

theorem roomAt (h : Unchanged s t) (ha : (s.members.load a).isSome) : t.roomAt a = s.roomAt a :=
  Store.bind_of_map (h.members a ha) Member.currentRoom

end Unchanged
end Unchanged

/-- The lists of the server are as between two requests. -/
def Settled (s : Server) : Prop := ∃ L R M, Inv s L R M

theorem processControlMsg_settled {recv : Option Bytes} (h : Settled s)
    (hp : processControlMsg s env recv = .ok (t, reply)) : Settled t := by
  obtain ⟨L, R, M, h⟩ := h
  obtain ⟨L', R', M', ht, -⟩ := processControlMsg_handled h hp
  exact ⟨L', R', M', ht⟩

section Register

/-- The state and the request are such that the registration is accepted. -/
def AcceptsName (s : Server) (env : Env) (name : Bytes) : Prop :=
  s.totalNumOfMembers ≠ maxNumOfMembers ∧ env.peer ≠ none ∧ findName s name = .ok none

/-- A member is registered under this id, and with this name. -/
def RegisteredAs (s : Server) (id : UInt16) (name : Bytes) : Prop :=
  ∃ a, findMemberWithId s id = .ok (some a) ∧ s.nameAt a = some name

theorem processControlMsg_register (h : msgType msg = registerRequest) :
    processControlMsg s env (some msg) = processRegisterRequest s env msg := by
  rw [processControlMsg, h]
  rfl

/-- A registration is accepted, and the new member is behind the others, or changes
nothing. -/
theorem register_cases (h : Inv s L R M) (hname : (newMember msg env.peer).name = name)
    (hp : processRegisterRequest s env msg = .ok (t, reply)) :
    (AcceptsName s env name ∧ (∃ id, reply = some ⟨registerSucc, id, []⟩ ∧
        t.idAt env.addr = some id) ∧ Inv t (L ++ [env.addr]) R M ∧
        t.nameAt env.addr = some name) ∨
      (¬AcceptsName s env name ∧ Unchanged s t ∧
        ∀ x, reply = some x → x.type ≠ registerSucc) := by
  cases processRegisterRequest_registered h hp with
  | full hfull =>
    refine .inr ⟨fun ha => ha.1 hfull, .refl s, fun x hx => ?_⟩
    cases hx
    decide
  | noPeer hm hpeer =>
    exact .inr ⟨fun ha => ha.2.1 hpeer, .leakMember hm, fun x hx => (nomatch hx)⟩
  | nameUsed hm hused =>
    refine .inr ⟨fun ha => ?_, .leakMember hm, fun x hx => ?_⟩
    · obtain ⟨b, hb, he⟩ := hused
      rw [hname] at he
      exact findName_none h.registry ha.2.2 b hb he
    · cases hx
      decide
  | @registered _ id hmax hpeer hnew hadd hinv =>
    have hstatus := congrArg (Option.map Member.name) hadd.new
    rw [Option.map_map, Option.map_some] at hstatus
    refine .inl ⟨⟨hmax, hpeer, ?_⟩, ⟨id, rfl, hadd.idAt⟩, hinv, hstatus.trans (congrArg some hname)⟩
    cases hf : L.find? fun a => (s.members.load a).any fun mt => mt.name = name with
    | none => rw [findName_ok h.registry, hf]
    | some b =>
      have hb := List.find?_some hf
      rw [hname] at hnew
      exact (hnew b (List.mem_of_find?_eq_some hf) (Server.nameAt_iff.mpr hb)).elim

theorem register_acceptsOnce (hlen : c.memberName.length < maxMemberNameLen)
    (h0 : 0 ∉ c.memberName) :
    AcceptsOnce (serveRequest c.memberId registerRequest (registerData port c.memberName)
        (registerSize c.memberName)) Settled Unchanged
      (fun s d => AcceptsName s d.env (registerName port c.memberName))
      (fun x => x.type = registerSucc)
      (fun t x => RegisteredAs t x.id (registerName port c.memberName)) := by
  have hcases : ∀ {s L R M d t reply}, Inv s L R M → serveRequest c.memberId registerRequest
      (registerData port c.memberName) (registerSize c.memberName) s d = .ok (t, reply) → _ :=
    fun h hp => register_cases h (newMember_name hlen h0)
      ((processControlMsg_register (msgType_delivered_register hlen)).symm.trans hp)
  constructor
  · exact Unchanged.refl
  · exact Unchanged.trans
  · exact processControlMsg_settled
  · rintro s t d ⟨L, R, M, hs⟩ ⟨L', R', M', ht⟩ h
    rw [AcceptsName, AcceptsName, h.totalNumOfMembers, h.findName hs ht]
  · rintro s d t reply ⟨L, R, M, hs⟩ hno hp
    rcases hcases hs hp with ⟨hacc, -⟩ | ⟨-, hkept⟩
    · exact (hno hacc).elim
    · exact hkept
  · rintro s d t reply ⟨L, R, M, hs⟩ hacc hp
    rcases hcases hs hp with ⟨-, ⟨id, rfl, hid⟩, ht, hname⟩ | ⟨hno, -⟩
    · refine ⟨_, rfl, rfl, d.env.addr, ?_, hname⟩
      exact (findMemberWithId_some_iff ht.registry).mpr ⟨by simp, hid⟩
    · exact (hno hacc).elim
  · rintro s₀ s d t reply u - ⟨L, R, M, hs⟩ - h hacc hp h' hsame
    rcases hcases hs hp with ⟨-, -, ht, -⟩ | ⟨hno, -⟩
    · have hcount := ht.registry.count
      rw [List.length_append, List.length_singleton] at hcount
      have := hs.registry.count
      have := h.totalNumOfMembers
      have := h'.totalNumOfMembers
      have := hsame.totalNumOfMembers
      omega
    · exact hno hacc
  · rintro s d t reply d' ⟨L, R, M, hs⟩ hacc hp hacc'
    rcases hcases hs hp with ⟨-, -, ht, hname⟩ | ⟨hno, -⟩
    · exact findName_none ht.registry hacc'.2.2 d.env.addr (by simp) hname
    · exact hno hacc

end Register

section MemberRequests

/-- The server reads a request with the name of a room as it was sent, and turns it down or
handles it for the member. -/
theorem room_request (htype : roomListRequest ≤ type ∧ type ≤ quitRequest)
    (h : Inv s L R M) (hlen : name.length ≤ maxRoomNameLen) (h0 : 0 ∉ name)
    (hp : serveRequest id type name (cmhSize + name.length + 1) s d = .ok (t, reply)) :
    (findMemberWithId s id = .ok none ∧ t = s ∧ ∃ x, reply = some x ∧ x.type = type + 2) ∨
    ∃ msg a u, msgType msg = type ∧ cstr (msgdata msg) = name ∧
      findMemberWithId s id = .ok (some a) ∧ Unchanged s u ∧ Inv u L R M ∧ a ∈ L ∧
      u.idAt a = some id ∧ processMemberRequest u d.env a msg = .ok (t, reply) := by
  obtain ⟨rest, hmsg⟩ := delivered_room (d := d) type id hlen h0
  rw [serveRequest, hmsg] at hp
  have htype' : msgType (controlMsghdr type id (cmhSize + name.length + 1) ++
    (name ++ 0 :: rest)) = type := msgType_controlMsghdr
  have hid' : memberId (controlMsghdr type id (cmhSize + name.length + 1) ++
    (name ++ 0 :: rest)) = id := memberId_controlMsghdr
  have hrequest := processControlMsg_needsId (needsId_of_type htype' htype) h.registry hp
  rw [hid', htype'] at hrequest
  rcases hrequest with ⟨hf, rfl, rfl⟩ | ⟨a, ha, hf, hp⟩
  · exact .inl ⟨hf, rfl, _, rfl, rfl⟩
  · have hid := ((findMemberWithId_some_iff h.registry).mp hf).2
    exact .inr ⟨_, a, s.touch a, htype', cstr_append_zero h0 rest, hf, .touch, h.touch, ha,
      (idAt_touch a).trans hid, hp⟩

theorem processMemberRequest_create (hid : s.idAt a = some id)
    (htype : msgType msg = createRoomRequest) :
    processMemberRequest s env a msg = processCreateRoomRequest s env id msg := by
  obtain ⟨mt, hmt, rfl⟩ := Option.map_eq_some_iff.mp hid
  simp only [processMemberRequest, Store.read_some hmt, htype, bind, Except.bind]
  rfl

theorem processMemberRequest_switch (hid : s.idAt a = some id)
    (htype : msgType msg = switchRoomRequest) :
    processMemberRequest s env a msg = processSwitchRoomRequest s a msg := by
  obtain ⟨mt, hmt, rfl⟩ := Option.map_eq_some_iff.mp hid
  simp only [processMemberRequest, Store.read_some hmt, htype, bind, Except.bind]
  rfl

end MemberRequests

section CreateRoom

/-- The member and the room list are such that the room is created. -/
def AcceptsRoom (s : Server) (id : UInt16) (name : Bytes) : Prop :=
  (∃ a, findMemberWithId s id = .ok (some a)) ∧ s.totalNumOfRooms ≠ maxNumOfRooms ∧
    findRoom s name = .ok none

def RoomExists (s : Server) (name : Bytes) : Prop := ∃ r, findRoom s name = .ok (some r)

/-- A room is created behind the others, or nothing has changed. -/
theorem createRoom_cases (h : Inv s L R M) (hlen : name.length ≤ maxRoomNameLen) (h0 : 0 ∉ name)
    (hname : cstr (msgdata msg) = name)
    (hp : processCreateRoomRequest s env id msg = .ok (t, reply)) :
    ((s.totalNumOfRooms ≠ maxNumOfRooms ∧ findRoom s name = .ok none) ∧
        reply = some ⟨createRoomSucc, id, []⟩ ∧ RoomAdded s R name env.addr t) ∨
      (¬(s.totalNumOfRooms ≠ maxNumOfRooms ∧ findRoom s name = .ok none) ∧ Unchanged s t ∧
        ∀ x, reply = some x → x.type ≠ createRoomSucc) := by
  obtain ⟨⟨u, ret⟩, hc, hp⟩ := ok_of_bind hp
  rw [hname] at hc
  cases createRoom_created h hc with
  | tooLong hlong => omega
  | tooMany hm hmax =>
    cases hp
    refine .inr ⟨fun hacc => hacc.1 hmax, .leakRoom hm, fun x hx => ?_⟩
    cases hx
    show createRoomFail ≠ createRoomSucc
    decide
  | «exists» hm hex =>
    cases hp
    refine .inr ⟨fun hacc => ?_, .leakRoom hm, fun x hx => ?_⟩
    · obtain ⟨r, hr, he⟩ := hex
      rw [newRoom_name hlen h0] at he
      exact findRoom_none h.roomList hacc.2 r hr he
    · cases hx
      show createRoomFail ≠ createRoomSucc
      decide
  | created _ hmax hnew hadd =>
    cases hp
    refine .inl ⟨⟨hmax, ?_⟩, rfl, hadd⟩
    rw [newRoom_name hlen h0] at hnew
    cases hf : R.find? fun r => (s.rooms.load r).any fun rt => rt.name = name with
    | none => rw [findRoom_ok h.roomList, hf]
    | some r =>
      have hr := List.find?_some hf
      exact (hnew r (List.mem_of_find?_eq_some hf) (Server.roomNameAt_iff.mpr hr)).elim

theorem RoomAdded.roomExists (ha : RoomAdded s R name r t) (ht : Inv t L (R ++ [r]) M)
    (hlen : name.length ≤ maxRoomNameLen) (h0 : 0 ∉ name) : RoomExists t name := by
  have hnew : t.roomNameAt r = some name := by
    rw [Server.roomNameAt, ha.new, Option.map_some, newRoom_name hlen h0]
  cases hf : (R ++ [r]).find? fun r => (t.rooms.load r).any fun rt => rt.name = name with
  | some x => exact ⟨x, by rw [findRoom_ok ht.roomList, hf]⟩
  | none => exact (List.find?_eq_none.mp hf r (by simp) (Server.roomNameAt_iff.mp hnew)).elim

theorem createRoom_served (h : Inv s L R M) (hlen : name.length ≤ maxRoomNameLen) (h0 : 0 ∉ name)
    (hp : serveRequest id createRoomRequest name (cmhSize + name.length + 1) s d = .ok (t, reply)) :
    (AcceptsRoom s id name ∧ reply = some ⟨createRoomSucc, id, []⟩ ∧ RoomExists t name ∧
        t.totalNumOfRooms = s.totalNumOfRooms + 1) ∨
      (¬AcceptsRoom s id name ∧ Unchanged s t ∧
        ∀ x, reply = some x → x.type ≠ createRoomSucc) := by
  rcases room_request (by decide) h hlen h0 hp with
    ⟨hf, rfl, x, rfl, hx⟩ | ⟨msg, a, u, htype, hname, hf, hu, hinv, -, hid, hp⟩
  · refine .inr ⟨fun hacc => ?_, .refl t, fun y hy => ?_⟩
    · obtain ⟨⟨a, ha⟩, -⟩ := hacc
      rw [hf] at ha
      cases ha
    · cases hy
      rw [hx]
      decide
  · rw [processMemberRequest_create hid htype] at hp
    have hiff : AcceptsRoom s id name ↔
        u.totalNumOfRooms ≠ maxNumOfRooms ∧ findRoom u name = .ok none := by
      rw [hu.totalNumOfRooms, hu.findRoom h hinv]
      exact and_iff_right ⟨a, hf⟩
    rw [hiff]
    rcases createRoom_cases hinv hlen h0 hname hp with ⟨hacc, hreply, hadd⟩ | ⟨hno, hkept, hreply⟩
    · refine .inl ⟨hacc, hreply, ?_, ?_⟩
      · exact hadd.roomExists (hadd.inv hinv hacc.1) hlen h0
      · rw [hadd.totalNumOfRooms, hu.totalNumOfRooms]
    · exact .inr ⟨hno, hu.trans hkept, hreply⟩

theorem createRoom_acceptsOnce (hlen : name.length ≤ maxRoomNameLen) (h0 : 0 ∉ name) :
    AcceptsOnce (serveRequest id createRoomRequest name (cmhSize + name.length + 1)) Settled
      Unchanged (fun s _ => AcceptsRoom s id name) (fun x => x.type = createRoomSucc)
      (fun t _ => RoomExists t name) := by
  constructor
  · exact Unchanged.refl
  · exact Unchanged.trans
  · exact processControlMsg_settled
  · rintro s t d ⟨L, R, M, hs⟩ ⟨L', R', M', ht⟩ h
    rw [AcceptsRoom, AcceptsRoom, h.totalNumOfRooms, h.findRoom hs ht, h.findMemberWithId hs ht]
  · rintro s d t reply ⟨L, R, M, hs⟩ hno hp
    rcases createRoom_served hs hlen h0 hp with ⟨hacc, -⟩ | ⟨-, hkept⟩
    · exact (hno hacc).elim
    · exact hkept
  · rintro s d t reply ⟨L, R, M, hs⟩ hacc hp
    rcases createRoom_served hs hlen h0 hp with ⟨-, rfl, hex, -⟩ | ⟨hno, -⟩
    · exact ⟨_, rfl, rfl, hex⟩
    · exact (hno hacc).elim
  · rintro s₀ s d t reply u - ⟨L, R, M, hs⟩ - h hacc hp h' hsame
    rcases createRoom_served hs hlen h0 hp with ⟨-, -, -, hcount⟩ | ⟨hno, -⟩
    · have := h.totalNumOfRooms
      have := h'.totalNumOfRooms
      have := hsame.totalNumOfRooms
      omega
    · exact hno hacc
  · rintro s d t reply d' ⟨L, R, M, hs⟩ hacc hp hacc'
    rcases createRoom_served hs hlen h0 hp with ⟨-, -, ⟨r, hr⟩, -⟩ | ⟨hno, -⟩
    · rw [hacc'.2.2] at hr
      cases hr
    · exact hno hacc

end CreateRoom

section SwitchRoom

/-- The member and the room are such that the member is let in. -/
def AcceptsSwitch (s : Server) (id : UInt16) (name : Bytes) : Prop :=
  ∃ a r rt, findMemberWithId s id = .ok (some a) ∧ findRoom s name = .ok (some r) ∧
    s.rooms.load r = some rt ∧ rt.numOfMembers ≠ maxNumOfMembersPerRoom ∧ s.roomAt a ≠ some r

/-- The member with this id is in the room with this name. -/
def InRoom (s : Server) (id : UInt16) (name : Bytes) : Prop :=
  ∃ a r, findMemberWithId s id = .ok (some a) ∧ findRoom s name = .ok (some r) ∧
    s.roomAt a = some r

theorem RoomsOnly.findMemberWithId (h : RoomsOnly s t) (hs : Inv s L R M) (ht : Inv t L R M')
    (id : UInt16) : findMemberWithId t id = findMemberWithId s id := by
  rw [findMemberWithId_ok ht.registry, findMemberWithId_ok hs.registry]
  refine congrArg _ (List.find?_congr fun a _ => ?_)
  have hm := congrArg (Option.any fun mt => mt.memberId = id) (h.members a)
  rwa [Option.any_map, Option.any_map] at hm

theorem RoomsOnly.findRoom (h : RoomsOnly s t) (hs : Inv s L R M) (ht : Inv t L R M')
    (name : Bytes) : findRoom t name = findRoom s name := by
  rw [findRoom_ok ht.roomList, findRoom_ok hs.roomList]
  refine congrArg _ (List.find?_congr fun r _ => ?_)
  have hm := congrArg
    (Option.any fun x => cstr (x.1.toList ++ pointerBytes x.2) = name) (h.rooms r)
  rwa [Option.any_map, Option.any_map] at hm

theorem Unchanged.inRoom (h : Unchanged s t) (hs : Inv s L R M) (ht : Inv t L' R' M') :
    InRoom t id name ↔ InRoom s id name := by
  simp only [InRoom, h.findMemberWithId hs ht, h.findRoom hs ht]
  refine exists_congr fun a => exists_congr fun r => and_congr_right fun ha => ?_
  have hmem := (findMemberWithId_some_iff hs.registry).mp ha
  rw [h.roomAt (hs.registry.alloc a hmem.1)]

theorem Unchanged.acceptsSwitch (h : Unchanged s t) (hs : Inv s L R M) (ht : Inv t L' R' M') :
    AcceptsSwitch t id name ↔ AcceptsSwitch s id name := by
  simp only [AcceptsSwitch, h.findMemberWithId hs ht, h.findRoom hs ht]
  refine exists_congr fun a => exists_congr fun r => exists_congr fun rt => ?_
  refine and_congr_right fun ha => and_congr_right fun hr => ?_
  have hmem := (findMemberWithId_some_iff hs.registry).mp ha
  have hlist := (findRoom_some hs.roomList hr).1
  rw [h.roomAt (hs.registry.alloc a hmem.1), h.rooms r (hs.roomList.alloc r hlist)]

/-- The member is let into another room, or nothing has changed. -/
theorem Switched.cases (h : Inv s L R M) (hf : findMemberWithId s id = .ok (some a))
    (hw : Switched s L R M a id name t reply) :
    (AcceptsSwitch s id name ∧ reply = some ⟨switchRoomSucc, id, []⟩ ∧ InRoom t id name ∧
        ¬InRoom s id name) ∨
      (¬AcceptsSwitch s id name ∧ t = s ∧ ∀ x, reply = some x → x.type ≠ switchRoomSucc) := by
  -- a request that is turned down would not have been accepted
  have hrejected : ∀ data, t = s → reply = some ⟨switchRoomFail, id, data⟩ →
      ¬AcceptsSwitch s id name →
        ¬AcceptsSwitch s id name ∧ t = s ∧ ∀ x, reply = some x → x.type ≠ switchRoomSucc := by
    rintro data rfl rfl hno
    refine ⟨hno, rfl, fun x hx => ?_⟩
    cases hx
    show switchRoomFail ≠ switchRoomSucc
    decide
  cases hw with
  | noRoom hnil =>
    refine .inr (hrejected _ rfl rfl ?_)
    rintro ⟨b, r, rt, -, hr, -⟩
    have := (findRoom_some h.roomList hr).1
    rw [hnil] at this
    cases this
  | notFound hfind =>
    refine .inr (hrejected _ rfl rfl ?_)
    rintro ⟨b, r, rt, -, hr, -⟩
    rw [hfind] at hr
    cases hr
  | @full r hfind hfull =>
    refine .inr (hrejected _ rfl rfl ?_)
    rintro ⟨b, r', rt, -, hr, hrt, hcount, -⟩
    rw [hfind] at hr
    cases hr
    have hc := h.membership.count r (findRoom_some h.roomList hfind).1
    rw [hrt] at hc
    have hc := Option.some.inj hc
    omega
  | already hfind hcur =>
    refine .inr (hrejected _ rfl rfl ?_)
    rintro ⟨b, r', rt, hb, hr, -, -, hne⟩
    rw [hf] at hb
    cases hb
    rw [hfind] at hr
    cases hr
    exact hne hcur
  | @switched r _ _ hfind hfull hne honly hin hinv =>
    have hr := (findRoom_some h.roomList hfind).1
    obtain ⟨rt, hrt⟩ := Option.isSome_iff_exists.mp (h.roomList.alloc r hr)
    have hc := h.membership.count r hr
    rw [hrt] at hc
    have hc := Option.some.inj hc
    refine .inl ⟨⟨a, r, rt, hf, hfind, hrt, by omega, hne⟩, rfl, ⟨a, r, ?_, ?_, hin⟩, ?_⟩
    · rw [honly.findMemberWithId h hinv, hf]
    · rw [honly.findRoom h hinv, hfind]
    · rintro ⟨b, r', hb, hr, hbr⟩
      rw [hf] at hb
      cases hb
      rw [hfind] at hr
      cases hr
      exact hne hbr

theorem switchRoom_served (h : Inv s L R M) (hlen : name.length ≤ maxRoomNameLen) (h0 : 0 ∉ name)
    (hp : serveRequest id switchRoomRequest name (cmhSize + name.length + 1) s d = .ok (t, reply)) :
    (AcceptsSwitch s id name ∧ reply = some ⟨switchRoomSucc, id, []⟩ ∧ InRoom t id name ∧
        ¬InRoom s id name) ∨
      (¬AcceptsSwitch s id name ∧ Unchanged s t ∧
        ∀ x, reply = some x → x.type ≠ switchRoomSucc) := by
  rcases room_request (by decide) h hlen h0 hp with
    ⟨hf, rfl, x, rfl, hx⟩ | ⟨msg, a, u, htype, hname, hf, hu, hinv, ha, hid, hp⟩
  · refine .inr ⟨fun hacc => ?_, .refl t, fun y hy => ?_⟩
    · obtain ⟨a, r, rt, ha, -⟩ := hacc
      rw [hf] at ha
      cases ha
    · cases hy
      rw [hx]
      decide
  · rw [processMemberRequest_switch hid htype] at hp
    obtain ⟨t', reply', ht', hw⟩ := processSwitchRoomRequest_ok hinv ha hid
    cases ht'.symm.trans hp
    rw [hname] at hw
    rw [← hu.acceptsSwitch h hinv, ← hu.inRoom h hinv]
    have hfu : findMemberWithId u id = .ok (some a) := (hu.findMemberWithId h hinv id).trans hf
    rcases hw.cases hinv hfu with haccepted | ⟨hno, rfl, hreply⟩
    · exact .inl haccepted
    · exact .inr ⟨hno, hu, hreply⟩

theorem switchRoom_acceptsOnce (hlen : name.length ≤ maxRoomNameLen) (h0 : 0 ∉ name) :
    AcceptsOnce (serveRequest id switchRoomRequest name (cmhSize + name.length + 1)) Settled
      Unchanged (fun s _ => AcceptsSwitch s id name) (fun x => x.type = switchRoomSucc)
      (fun t _ => InRoom t id name) := by
  constructor
  · exact Unchanged.refl
  · exact Unchanged.trans
  · exact processControlMsg_settled
  · rintro s t d ⟨L, R, M, hs⟩ ⟨L', R', M', ht⟩ h
    exact h.acceptsSwitch hs ht
  · rintro s d t reply ⟨L, R, M, hs⟩ hno hp
    rcases switchRoom_served hs hlen h0 hp with ⟨hacc, -⟩ | ⟨-, hkept⟩
    · exact (hno hacc).elim
    · exact hkept
  · rintro s d t reply ⟨L, R, M, hs⟩ hacc hp
    rcases switchRoom_served hs hlen h0 hp with ⟨-, rfl, hin, -⟩ | ⟨hno, -⟩
    · exact ⟨_, rfl, rfl, hin⟩
    · exact (hno hacc).elim
  · rintro s₀ s d t reply u ⟨L₀, R₀, M₀, hs₀⟩ ⟨L, R, M, hs⟩ ⟨L', R', M', hu⟩ h hacc hp h' hsame
    rcases switchRoom_served hs hlen h0 hp with ⟨-, -, hin, hout⟩ | ⟨hno, -⟩
    · obtain ⟨L₁, R₁, M₁, ht⟩ := processControlMsg_settled ⟨L, R, M, hs⟩ hp
      have hu₀ := (hsame.inRoom hs₀ hu).mp ((h'.inRoom ht hu).mpr hin)
      exact hout ((h.inRoom hs₀ hs).mpr hu₀)
    · exact hno hacc
  · rintro s d t reply d' ⟨L, R, M, hs⟩ hacc hp ⟨a, r, rt, ha, hr, -, -, hne⟩
    rcases switchRoom_served hs hlen h0 hp with ⟨-, -, ⟨a', r', ha', hr', hin⟩, -⟩ | ⟨hno, -⟩
    · rw [ha] at ha'
      cases ha'
      rw [hr] at hr'
      cases hr'
      exact hne hin
    · exact hno hacc

end SwitchRoom

section Replies
variable {x : Reply}

theorem receiveCtrlMsg_wire (x : Reply) : ∃ rest, receiveCtrlMsg x.wire =
    controlMsghdr x.type x.id (cmhSize + (cstr x.data).length) ++ rest := by
  rw [receiveCtrlMsg, Reply.wire, List.append_assoc, List.take_append,
    List.take_of_length_le (by simp [controlMsghdr_length, cmhSize, maxMsgLen])]
  exact ⟨_, rfl⟩

theorem msgType_receiveCtrlMsg : msgType (receiveCtrlMsg x.wire) = x.type := by
  obtain ⟨rest, h⟩ := receiveCtrlMsg_wire x
  rw [h, msgType_controlMsghdr]

theorem memberId_receiveCtrlMsg : memberId (receiveCtrlMsg x.wire) = x.id := by
  obtain ⟨rest, h⟩ := receiveCtrlMsg_wire x
  rw [h, memberId_controlMsghdr]

/-- A connection that is closed without a reply reads as a message of type 0. -/
theorem msgType_receiveCtrlMsg_nil : msgType (receiveCtrlMsg []) = 0 := by
  rw [receiveCtrlMsg, List.nil_append, List.take_of_length_le (by simp)]
  rfl

theorem msgType_answer (answer : Option Reply) :
    msgType (receiveCtrlMsg ((answer.map Reply.wire).getD [])) =
      (answer.map Reply.type).getD 0 := by
  cases answer with
  | none => exact msgType_receiveCtrlMsg_nil
  | some x => exact msgType_receiveCtrlMsg

theorem attemptRequest_ok {data : Bytes} {msgLen : Nat}
    {outcomes : Vector (Attempt Delivery) tcpRetries} {res : Option Bytes}
    (h : attemptRequest c type data msgLen outcomes s = .ok (t, res)) :
    ∃ answer, attempts (serveRequest c.memberId type data msgLen) outcomes.toList s =
        .ok (t, answer) ∧
      res = answer.map fun reply => receiveCtrlMsg ((reply.map Reply.wire).getD []) := by
  obtain ⟨⟨u, answer⟩, ha, h⟩ := ok_of_bind h
  cases h
  exact ⟨answer, ha, rfl⟩

end Replies

/-- The requests that change the server. -/
inductive Request where
  | register (port : UInt16)
  | createRoom (roomName : Bytes)
  | switchRoom (roomName : Bytes)

namespace Request
variable {q : Request} {c' : Client} {ret : Int} {x : Reply}
  {outcomes : Vector (Attempt Delivery) tcpRetries} {answer : Option Reply}

def handle (c : Client) (outcomes : Vector (Attempt Delivery) tcpRetries) (s : Server) :
    Request → Call (Server × Client × Int)
  | register port => handleRegisterReq c port outcomes s
  | createRoom roomName => handleCreateRoomReq c roomName outcomes s
  | switchRoom roomName => handleSwitchRoomReq c roomName outcomes s

def serve (c : Client) : Request → Server → Delivery → Call (Server × Option Reply)
  | register port =>
    serveRequest c.memberId registerRequest (registerData port c.memberName)
      (registerSize c.memberName)
  | createRoom roomName =>
    serveRequest c.memberId createRoomRequest roomName (cmhSize + roomName.length + 1)
  | switchRoom roomName =>
    serveRequest c.memberId switchRoomRequest roomName (cmhSize + roomName.length + 1)

/-- The type of the reply that confirms the request. -/
def succ : Request → UInt16
  | register _ => registerSucc
  | createRoom _ => createRoomSucc
  | switchRoom _ => switchRoomSucc

/-- The client after a confirmed request. -/
def confirmed (c : Client) (x : Reply) : Request → Client
  | register _ => { c with memberId := x.id }
  | createRoom _ => c
  | switchRoom roomName => { c with lastChannel := roomName }

/-- The names are strings that fit where the client keeps them. -/
def Valid (c : Client) : Request → Prop
  | register _ => c.memberName.length < maxMemberNameLen ∧ 0 ∉ c.memberName
  | createRoom roomName => roomName.length ≤ maxRoomNameLen ∧ 0 ∉ roomName
  | switchRoom roomName => roomName.length ≤ maxRoomNameLen ∧ 0 ∉ roomName

/-- The server is in a state in which it accepts the request. -/
def Accepts (c : Client) (s : Server) (d : Delivery) : Request → Prop
  | register port => AcceptsName s d.env (registerName port c.memberName)
  | createRoom roomName => AcceptsRoom s c.memberId roomName
  | switchRoom roomName => AcceptsSwitch s c.memberId roomName

/-- What the client has asked for holds on the server. -/
def Effect (c : Client) (s : Server) : Request → Prop
  | register port => RegisteredAs s c.memberId (registerName port c.memberName)
  | createRoom roomName => RoomExists s roomName
  | switchRoom roomName => InRoom s c.memberId roomName

/-- The return value reports the effect: 0 that it holds, a rejection that nothing has
changed, on the server or for the client. -/
def Reported (q : Request) (c : Client) (s : Server) (c' : Client) (t : Server) (ret : Int) :
    Prop :=
  (ret = 0 → q.Effect c' t) ∧ (ret = -1 ∨ ret = -3 → Unchanged s t ∧ c' = c)

theorem acceptsOnce (h : q.Valid c) : AcceptsOnce (q.serve c) Settled Unchanged
    (fun s d => q.Accepts c s d) (fun x => x.type = q.succ)
    (fun t x => q.Effect (q.confirmed c x) t) := by
  cases q with
  | register port => exact register_acceptsOnce h.1 h.2
  | createRoom roomName => exact createRoom_acceptsOnce h.1 h.2
  | switchRoom roomName => exact switchRoom_acceptsOnce h.1 h.2

/-- What a handler makes of the answer. -/
def result (q : Request) (c : Client) : Option (Option Reply) → Client → Int → Prop
  | none, _, ret => ret = -2
  | some answer, c', ret =>
    (∃ x, answer = some x ∧ x.type = q.succ ∧ c' = q.confirmed c x ∧ ret = 0) ∨
      ((∀ x, answer = some x → x.type ≠ q.succ) ∧ c' = c ∧ (ret = -1 ∨ ret = -3))

theorem result_answer (h : (answer.map Reply.type).getD 0 ≠ q.succ)
    (hret : ret = -1 ∨ ret = -3) : q.result c (some answer) c ret := by
  refine .inr ⟨fun x hx => ?_, rfl, hret⟩
  subst hx
  exact h

theorem result_confirmed (h : (answer.map Reply.type).getD 0 = q.succ) :
    ∃ x, answer = some x ∧ x.type = q.succ := by
  cases answer with
  | none => cases q <;> exact absurd h (by simp only [succ]; decide)
  | some x => exact ⟨x, rfl, h⟩

/-- A handler that reads nothing of the answer but its type. -/
theorem result_of_type {confirmed : Client} {u : Server} (hc : ∀ x, q.confirmed c x = confirmed)
    (h : (if (answer.map Reply.type).getD 0 = q.succ then .ok (u, confirmed, 0)
      else .ok (u, c, -1) : Call (Server × Client × Int)) = .ok (t, c', ret)) :
    u = t ∧ q.result c (some answer) c' ret := by
  split at h
  · next htype =>
    obtain ⟨x, rfl, hx⟩ := result_confirmed htype
    cases h
    exact ⟨rfl, .inl ⟨x, rfl, hx, (hc x).symm, rfl⟩⟩
  · next htype =>
    cases h
    exact ⟨rfl, result_answer htype (.inl rfl)⟩

theorem handle_result (h : q.handle c outcomes s = .ok (t, c', ret)) :
    ∃ answer, attempts (q.serve c) outcomes.toList s = .ok (t, answer) ∧
      q.result c answer c' ret := by
  cases q with
  | register port =>
    obtain ⟨⟨u, res⟩, hr, h⟩ := ok_of_bind h
    obtain ⟨answer, ha, rfl⟩ := attemptRequest_ok hr
    cases answer with
    | none =>
      cases h
      exact ⟨none, ha, rfl⟩
    | some answer =>
      simp only [Option.map_some, msgType_answer] at h
      split at h
      · next htype =>
        obtain ⟨x, rfl, hx⟩ := result_confirmed (q := .register port) htype
        cases h
        refine ⟨_, ha, .inl ⟨x, rfl, hx, ?_, rfl⟩⟩
        exact congrArg (fun id => { c with memberId := id }) memberId_receiveCtrlMsg
      · next htype =>
        split at h <;> cases h
        · exact ⟨_, ha, result_answer htype (.inr rfl)⟩
        · exact ⟨_, ha, result_answer htype (.inl rfl)⟩
  | createRoom roomName =>
    obtain ⟨⟨u, res⟩, hr, h⟩ := ok_of_bind h
    obtain ⟨answer, ha, rfl⟩ := attemptRequest_ok hr
    cases answer with
    | none =>
      cases h
      exact ⟨none, ha, rfl⟩
    | some answer =>
      simp only [Option.map_some, msgType_answer] at h
      obtain ⟨rfl, hres⟩ := result_of_type (q := .createRoom roomName) (fun _ => rfl) h
      exact ⟨_, ha, hres⟩
  | switchRoom roomName =>
    obtain ⟨⟨u, res⟩, hr, h⟩ := ok_of_bind h
    obtain ⟨answer, ha, rfl⟩ := attemptRequest_ok hr
    cases answer with
    | none =>
      cases h
      exact ⟨none, ha, rfl⟩
    | some answer =>
      simp only [Option.map_some, msgType_answer] at h
      obtain ⟨rfl, hres⟩ := result_of_type (q := .switchRoom roomName) (fun _ => rfl) h
      exact ⟨_, ha, hres⟩

/-- The return value of a call that completes (no delivery makes `create_room` write through a tail
that was lost) reports the effect exactly when no attempt whose reply was lost, before the one that
was answered, carried a request that the server accepted. -/
theorem effect_reported_iff {start now : Session} (hstart : Started start)
    (hr : Reaches Step start now) (hv : q.Valid c)
    (h : q.handle c outcomes now.server = .ok (t, c', ret)) :
    q.Reported c now.server c' t ret ↔
      (Answered outcomes.toList → ∀ d ∈ lostBefore outcomes.toList, ¬q.Accepts c now.server d) := by
  have hsettled : Settled now.server := by
    obtain ⟨R, M, hs, -⟩ := hstart.sound
    obtain ⟨L, R, M, hs⟩ := Reaches.invariant (R := Step) (I := fun c => ∃ L R M, Sound c L R M)
      (fun _ _ _ hs hstep => sound_step hstep hs) ⟨[], R, M, hs⟩ hr
    exact ⟨L, R, M, hs.inv⟩
  obtain ⟨answer, ha, hres⟩ := handle_result h
  cases answer with
  | none =>
    obtain rfl : ret = -2 := hres
    have hno : ¬Answered outcomes.toList := by
      rw [← attempts_isSome ha]
      simp
    refine iff_of_true ⟨fun h0 => ?_, fun hret => ?_⟩ fun hans => (hno hans).elim
    · exact absurd h0 (by decide)
    · exact absurd hret (by decide)
  | some answer =>
    have hans : Answered outcomes.toList := (attempts_isSome ha).mp rfl
    rw [← (acceptsOnce hv).reported_iff hsettled ha, forall_prop_of_true hans]
    rcases hres with ⟨x, rfl, hx, rfl, rfl⟩ | ⟨hno, rfl, hret⟩
    · constructor
      · rintro ⟨heffect, -⟩
        refine ⟨fun y hy _ => ?_, fun hnone => (hnone x rfl hx).elim⟩
        cases hy
        exact heffect rfl
      · rintro ⟨heffect, -⟩
        exact ⟨fun _ => heffect x rfl hx, fun hret => absurd hret (by decide)⟩
    · constructor
      · rintro ⟨-, hsame⟩
        exact ⟨fun y hy htype => (hno y hy htype).elim, fun _ => (hsame hret).1⟩
      · rintro ⟨-, hsame⟩
        refine ⟨fun h0 => ?_, fun _ => ⟨hsame hno, rfl⟩⟩
        omega

/-- The client `ann`, not registered yet, and how its requests reach the server. -/
def ann : Client := ⟨0, text "ann", []⟩

def onTime : Delivery := ⟨firstEnv, [], 0⟩

def answeredLate : Vector (Attempt Delivery) tcpRetries :=
  #v[.notDelivered, .answered onTime, .notDelivered, .notDelivered, .notDelivered, .notDelivered,
    .notDelivered, .notDelivered, .notDelivered, .notDelivered]

def replyLost : Vector (Attempt Delivery) tcpRetries :=
  #v[.lost onTime, .answered { onTime with env := { firstEnv with addr := 16384 } }, .notDelivered,
    .notDelivered, .notDelivered, .notDelivered, .notDelivered, .notDelivered, .notDelivered,
    .notDelivered]

theorem effect_reported_iff_ann : ∃ t c',
    (register 7001).handle ann answeredLate twoRooms.server = .ok (t, c', 0) ∧
    c'.memberId = 1 ∧ ((register 7001).Reported ann twoRooms.server c' t 0 ↔
      (Answered answeredLate.toList → ∀ d ∈ lostBefore answeredLate.toList,
        ¬(register 7001).Accepts ann twoRooms.server d)) := by
  obtain ⟨⟨t, c', ret⟩, hh, he⟩ := ok_of_map
    (c := (register 7001).handle ann answeredLate twoRooms.server)
    (f := fun x => (x.2.1.memberId, x.2.2)) (b := (1, 0)) (by decide +kernel)
  obtain ⟨hid, rfl⟩ := Prod.mk.inj he
  exact ⟨t, c', hh, hid, effect_reported_iff twoRooms_started .refl ⟨by decide, by decide⟩ hh⟩

/-- The reply to a registration is lost and the request repeated: the client is told that its
own name is taken, while it is registered. -/
theorem registration_misreported : ∃ t c', Started twoRooms ∧
    (register 7001).handle ann replyLost twoRooms.server = .ok (t, c', -3) ∧
    findMemberWithId t 1 = .ok (some 12288) ∧
    ¬(register 7001).Reported ann twoRooms.server c' t (-3) := by
  obtain ⟨⟨t, c', ret⟩, hh, he⟩ := ok_of_map
    (c := (register 7001).handle ann replyLost twoRooms.server)
    (f := fun x => (x.2.2, (findMemberWithId x.1 1).toOption, x.1.totalNumOfMembers,
      twoRooms.server.totalNumOfMembers)) (b := (-3, some (some 12288), 1, 0)) (by decide +kernel)
  simp only [Prod.mk.injEq] at he
  obtain ⟨rfl, hfind, hone, hzero⟩ := he
  refine ⟨t, c', twoRooms_started, hh, ?_, ?_⟩
  · cases hf : findMemberWithId t 1 with
    | error e =>
      rw [hf] at hfind
      cases hfind
    | ok found =>
      rw [hf] at hfind
      exact congrArg _ (Option.some.inj hfind)
  · rintro ⟨-, hsame⟩
    have hcount := (hsame (.inr rfl)).1.totalNumOfMembers
    omega

end Request
end Csc469.Chat
