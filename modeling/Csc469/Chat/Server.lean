import Csc469.Chat.Wire
import Csc469.Store

/-! `server_util.c`: the members, the rooms, and the handlers of the chat server. -/
namespace Csc469.Chat

open Execution Linked

structure Member where
  memberId : UInt16
  memberName : Vector UInt8 maxMemberNameLen
  quietFlag : Int
  /-- In network order, as the message had it. -/
  sinPort : UInt16
  sinAddr : UInt32
  numChatMsgs : Int
  numBytesRcved : Int
  nextMember : Option Nat
  prevMember : Option Nat
  nextRoomMember : Option Nat
  prevRoomMember : Option Nat
  currentRoom : Option Nat

structure Room where
  roomName : Vector UInt8 maxRoomNameLen
  nextRoom : Option Nat
  numOfMembers : Int
  emptyFlag : Int
  memberListHead : Option Nat
  memberListTail : Option Nat

structure Server where
  members : Store Member
  rooms : Store Room
  memListHead : Option Nat
  memListTail : Option Nat
  roomListHead : Option Nat
  roomListTail : Option Nat
  totalNumOfMembers : Int
  totalNumOfRooms : Int

/-- The eight bytes of a pointer in memory. -/
def pointerBytes (p : Option Nat) : Bytes :=
  (List.range 8).map fun i => UInt8.ofNat (p.getD 0 / 256 ^ i)

/-- `member_name` as a string: the host name behind it is never set. -/
def Member.name (mt : Member) : Bytes := cstr mt.memberName.toList

/-- `room_name` as a string: a name of 24 characters runs on into `next_room`. -/
def Room.name (rt : Room) : Bytes := cstr (rt.roomName.toList ++ pointerBytes rt.nextRoom)

def memberLinks : Links Member where
  next := Member.nextMember
  prev := Member.prevMember
  setNext p mt := { mt with nextMember := p }
  setPrev p mt := { mt with prevMember := p }
  next_setNext _ _ := rfl
  next_setPrev _ _ := rfl
  prev_setPrev _ _ := rfl
  prev_setNext _ _ := rfl

def roomLinks : Links Member where
  next := Member.nextRoomMember
  prev := Member.prevRoomMember
  setNext p mt := { mt with nextRoomMember := p }
  setPrev p mt := { mt with prevRoomMember := p }
  next_setNext _ _ := rfl
  next_setPrev _ _ := rfl
  prev_setPrev _ _ := rfl
  prev_setNext _ _ := rfl

/-- What the rest of the system decides during a request: where `malloc` places a record,
the peer's address (none when `getpeername` fails) and the values of `rand()`. -/
structure Env where
  addr : Nat
  peer : Option UInt32
  rands : List (Fin (2147483647 + 1))

/-- The record `create_room` fills in. The terminator of a name of 24 characters is written
into `next_room`, which is zero. -/
def newRoom (name : Bytes) : Room :=
  { roomName := strncpy maxRoomNameLen name
    nextRoom := none
    numOfMembers := 0
    emptyFlag := 0
    memberListHead := none
    memberListTail := none }

/-- The loop over the room list that compares names. -/
def findRoom (s : Server) (name : Bytes) : Call (Option Nat) :=
  find s.rooms.load Room.nextRoom (fun rt => rt.name = name) s.rooms.used.length s.roomListHead

/-- `create_room`: 0, or the reason it fails. A room that fails after `malloc` is not freed. -/
def createRoom (s : Server) (name : Bytes) (addr : Nat) : Call (Server × Nat) :=
  if maxRoomNameLen < name.length then .ok (s, 1)
  else do
    let rooms ← s.rooms.malloc addr (newRoom name)
    let s := { s with rooms := rooms }
    if s.totalNumOfRooms = (maxNumOfRooms : Int) then .ok (s, 2)
    else
      match s.roomListHead with
      | none =>
        .ok ({ s with
          roomListHead := some addr
          roomListTail := some addr
          totalNumOfRooms := s.totalNumOfRooms + 1 }, 0)
      | some _ =>
        match ← findRoom s (newRoom name).name with
        | some _ => .ok (s, 3)
        | none =>
          let rooms ← s.rooms.write s.roomListTail fun rt => { rt with nextRoom := some addr }
          .ok ({ s with
            rooms := rooms
            roomListTail := some addr
            totalNumOfRooms := s.totalNumOfRooms + 1 }, 0)

/-- The rooms of the configuration file, each with the place of its record. -/
def createRooms (s : Server) (config : List (Bytes × Nat)) : Call Server :=
  config.foldlM (fun s x => do
    let (s, _) ← createRoom s x.1 x.2
    .ok s) s

/-- No member and no room. -/
def Server.empty : Server :=
  { members := .empty
    rooms := .empty
    memListHead := none
    memListTail := none
    roomListHead := none
    roomListTail := none
    totalNumOfMembers := 0
    totalNumOfRooms := 0 }

/-- `init_server`. -/
def initServer (config : List (Bytes × Nat)) : Call Server := createRooms .empty config

/-- `find_member_with_id`. -/
def findMemberWithId (s : Server) (id : UInt16) : Call (Option Nat) :=
  find s.members.load Member.nextMember (fun mt => mt.memberId = id) s.members.used.length
    s.memListHead

/-- Take a member out of its room, if it is in one. The source has this code twice, in
`remove_member` and in `process_switch_room_request`. -/
def leaveRoom (s : Server) (mt : Member) : Call Server :=
  match mt.currentRoom with
  | none => .ok s
  | some r => do
    let rt ← s.rooms.read (some r)
    let (members, head, tail) ←
      roomLinks.unlink s.members mt rt.memberListHead rt.memberListTail
    .ok { s with
      members := members
      rooms := s.rooms.modify r fun rt =>
        { rt with
          memberListHead := head
          memberListTail := tail
          numOfMembers := rt.numOfMembers - 1 } }

/-- `remove_member`. -/
def removeMember (s : Server) (a : Nat) : Call Server := do
  let mt ← s.members.read (some a)
  let s ← leaveRoom s mt
  let mt ← s.members.read (some a)
  let (members, head, tail) ← memberLinks.unlink s.members mt s.memListHead s.memListTail
  .ok { s with
    members := members
    memListHead := head
    memListTail := tail
    totalNumOfMembers := s.totalNumOfMembers - 1 }

/-- `remove_member`, and the `free` that its callers do. -/
def dropMember (s : Server) (a : Nat) : Call Server := do
  let s ← removeMember s a
  .ok { s with members := s.members.free a }

/-- `remove_room`. The search stops at the room itself (true) or at the one before it. -/
def removeRoom (s : Server) (a : Nat) : Call Server := do
  let rt ← s.rooms.read (some a)
  let found ← search (fun x => (s.rooms.load x).map (x, ·)) (fun trt => trt.2.nextRoom)
    (fun trt =>
      if trt.1 = a then some true else if trt.2.nextRoom = some a then some false else none)
    s.rooms.used.length s.roomListHead
  match found with
  | none => .ok s
  | some (_, true) =>
    .ok { s with
      roomListHead := rt.nextRoom
      roomListTail := if rt.nextRoom = none then none else s.roomListTail }
  | some (trt, false) =>
    let rooms ← s.rooms.write (some trt) fun trt => { trt with nextRoom := rt.nextRoom }
    .ok { s with
      rooms := rooms
      roomListTail := if rt.nextRoom = none then none else s.roomListTail }

/-- Put a member that is in no room's list into a room. -/
def joinRoom (s : Server) (a r : Nat) : Call Server := do
  let members ← s.members.write (some a) fun mt =>
    { mt with
      nextRoomMember := none
      prevRoomMember := none
      currentRoom := some r }
  let rt ← s.rooms.read (some r)
  let (members, head, tail) ← roomLinks.append members a rt.memberListHead rt.memberListTail
  .ok { s with
    members := members
    rooms := s.rooms.modify r fun rt =>
      { rt with
        memberListHead := head
        memberListTail := tail
        numOfMembers := rt.numOfMembers + 1
        emptyFlag := 0 } }

/-- The record `process_register_request` fills in, all zero but for name and address. -/
def newMember (msg : Bytes) (peer : Option UInt32) : Member :=
  { memberId := 0
    memberName := strncpy maxMemberNameLen ((msgdata msg).drop 2)
    quietFlag := 0
    sinPort := load16 (msgdata msg) 0
    sinAddr := peer.getD 0
    numChatMsgs := 0
    numBytesRcved := 0
    nextMember := none
    prevMember := none
    nextRoomMember := none
    prevRoomMember := none
    currentRoom := none }

/-- `1 + (u_int16_t) (65535.0 * rand()/(RAND_MAX+1.0))`: both operations are exact. -/
def randId (r : Fin (2147483647 + 1)) : UInt16 :=
  UInt16.ofNat (1 + 65535 * r.val / (2147483647 + 1))

/-- The loop that creates an id: a value is taken when no member before the tail has it. -/
def createId (s : Server) : List (Fin (2147483647 + 1)) → Call UInt16
  | [] => .error .loops
  | r :: rands => do
    let found ← search (fun x => (s.members.load x).map (x, ·)) (fun mt => mt.2.nextMember)
      (fun mt =>
        if some mt.1 = s.memListTail then some true
        else if mt.2.memberId = randId r then some false else none)
      s.members.used.length s.memListHead
    match found with
    | some (_, true) => .ok (randId r)
    | some (_, false) => createId s rands
    | none => .error .fault

/-- The loop over the member list that compares names. -/
def findName (s : Server) (name : Bytes) : Call (Option Nat) :=
  find s.members.load Member.nextMember (fun mt => mt.name = name) s.members.used.length
    s.memListHead

/-- `process_register_request`. A member that fails after `malloc` is not freed. -/
def processRegisterRequest (s : Server) (env : Env) (msg : Bytes) :
    Call (Server × Option Reply) :=
  if s.totalNumOfMembers = (maxNumOfMembers : Int) then
    .ok (s, some ⟨registerFail, 0, text "Number of members reached maximum!"⟩)
  else do
    let mt := newMember msg env.peer
    let members ← s.members.malloc env.addr mt
    let s := { s with members := members }
    if env.peer = none then .ok (s, none)
    else
      match ← findName s mt.name with
      | some _ => .ok (s, some ⟨registerFail, 0, text "Name has already been used!"⟩)
      | none =>
        let (members, head, tail) ←
          memberLinks.append s.members env.addr s.memListHead s.memListTail
        let s :=
          { s with
            members := members
            memListHead := head
            memListTail := tail
            totalNumOfMembers := s.totalNumOfMembers + 1 }
        let id ← createId s env.rands
        let members ← s.members.write s.memListTail fun mt => { mt with memberId := id }
        .ok ({ s with members := members }, some ⟨registerSucc, id, []⟩)

/-- `process_create_room_request`, for the member with this id. -/
def processCreateRoomRequest (s : Server) (env : Env) (id : UInt16) (msg : Bytes) :
    Call (Server × Option Reply) := do
  let (s, ret) ← createRoom s (cstr (msgdata msg)) env.addr
  match ret with
  | 1 => .ok (s, some ⟨createRoomFail, id, text "Room name too long!"⟩)
  | 2 => .ok (s, some ⟨createRoomFail, id, text "Number of rooms reached maximum!"⟩)
  | 3 => .ok (s, some ⟨createRoomFail, id, text "Room exists!"⟩)
  | _ => .ok (s, some ⟨createRoomSucc, id, []⟩)

/-- `process_room_list_request`: it only reads. -/
def processRoomListRequest (s : Server) (id : UInt16) : Call (Option Reply) :=
  if s.totalNumOfRooms = 0 then
    .ok (some ⟨roomListFail, id, text "No rooms available!"⟩)
  else do
    let rooms ← walk s.rooms.load Room.nextRoom s.rooms.used.length s.roomListHead
    let entry := fun (r : Nat × Room) =>
      text "[" ++ r.2.name ++ text (" (" ++ toString r.2.numOfMembers ++ ")]") ++
        if some r.1 = s.roomListTail then [] else text " "
    .ok (some ⟨roomListSucc, id, rooms.flatMap entry⟩)

/-- `process_member_list_request`: it only reads. -/
def processMemberListRequest (s : Server) (id : UInt16) (msg : Bytes) : Call (Option Reply) :=
  match s.roomListHead with
  | none => .ok (some ⟨memberListFail, id, text "No room available yet!"⟩)
  | some _ => do
    match ← findRoom s (cstr (msgdata msg)) with
    | none => .ok (some ⟨memberListFail, id, text "Room not found!"⟩)
    | some r =>
      let rt ← s.rooms.read (some r)
      if rt.memberListHead = none then
        .ok (some ⟨memberListFail, id, text "No member in this room!"⟩)
      else
        let members ←
          walk s.members.load Member.nextRoomMember s.members.used.length rt.memberListHead
        let entry := fun (mt : Nat × Member) =>
          text "(" ++ mt.2.name ++ text ")" ++ if mt.2.nextRoomMember = none then [] else text " "
        .ok (some ⟨memberListSucc, id, members.flatMap entry⟩)

/-- `process_switch_room_request`, for the member at `a`. -/
def processSwitchRoomRequest (s : Server) (a : Nat) (msg : Bytes) :
    Call (Server × Option Reply) := do
  let mt ← s.members.read (some a)
  match s.roomListHead with
  | none => .ok (s, some ⟨switchRoomFail, mt.memberId, text "No room available yet!"⟩)
  | some _ =>
    match ← findRoom s (cstr (msgdata msg)) with
    | none => .ok (s, some ⟨switchRoomFail, mt.memberId, text "Room not found!"⟩)
    | some r =>
      let rt ← s.rooms.read (some r)
      if rt.numOfMembers = (maxNumOfMembersPerRoom : Int) then
        .ok (s, some ⟨switchRoomFail, mt.memberId, text "Room is full!"⟩)
      else if mt.currentRoom = some r then
        .ok (s, some ⟨switchRoomFail, mt.memberId, text "Already in this room!"⟩)
      else
        let s ← leaveRoom s mt
        let s ← joinRoom s a r
        .ok (s, some ⟨switchRoomSucc, mt.memberId, []⟩)

/-- The `switch` of `process_control_msg`, for the types that need a valid id. -/
def processMemberRequest (s : Server) (env : Env) (a : Nat) (msg : Bytes) :
    Call (Server × Option Reply) := do
  let mt ← s.members.read (some a)
  if msgType msg = roomListRequest then
    let reply ← processRoomListRequest s mt.memberId
    .ok (s, reply)
  else if msgType msg = memberListRequest then
    let reply ← processMemberListRequest s mt.memberId msg
    .ok (s, reply)
  else if msgType msg = switchRoomRequest then processSwitchRoomRequest s a msg
  else if msgType msg = createRoomRequest then processCreateRoomRequest s env mt.memberId msg
  else if msgType msg = quitRequest then
    let s ← dropMember s a
    .ok (s, none)
  else .ok (s, none)  -- MEMBER_KEEP_ALIVE, and the types only the server sends

/-- `process_control_msg`: `msg` is what `read` returned, none when it failed. -/
def processControlMsg (s : Server) (env : Env) (msg : Option Bytes) :
    Call (Server × Option Reply) :=
  match msg with
  | none => .ok (s, none)
  | some msg =>
    if roomListRequest ≤ msgType msg ∧ msgType msg ≤ quitRequest then do
      match ← findMemberWithId s (memberId msg) with
      | none => .ok (s, some ⟨msgType msg + 2, 0, text "Member id invalid!"⟩)
      | some a =>
        let members ← s.members.write (some a) fun mt => { mt with quietFlag := 0 }
        processMemberRequest { s with members := members } env a msg
    else if msgType msg = registerRequest then processRegisterRequest s env msg
    else .ok (s, none)

structure Datagram where
  addr : UInt32
  port : UInt16
  data : Bytes

/-- The loop that sends a chat message on: `n` is the length, and then what the last
`sendto` returned (none when it failed). -/
def relay (s : Server) (buf : Bytes) :
    Nat → Option Nat → Nat → List (Option Nat) → Call (List Datagram)
  | _, none, _, _ => .ok []
  | 0, some _, _, _ => .error .loops
  | k + 1, some a, n, sent => do
    let mt ← s.members.read (some a)
    let d := ⟨mt.sinAddr, mt.sinPort, buf.take n⟩
    match sent with
    | some n :: sent =>
      let ds ← relay s buf k mt.nextRoomMember n sent
      .ok (d :: ds)
    | _ => .ok [d]

/-- `process_chat_msg`: `msg` is what `recvfrom` returned, none when it failed. -/
def processChatMsg (s : Server) (msg : Option Bytes) (sent : List (Option Nat)) :
    Call (Server × List Datagram) :=
  match msg with
  | none => .ok (s, [])
  | some msg => do
    match ← findMemberWithId s (htons (load16 msg 0)) with
    | none => .ok (s, [])
    | some a =>
      let members ← s.members.write (some a) fun mt =>
        { mt with
          quietFlag := 0
          numChatMsgs := mt.numChatMsgs + 1
          numBytesRcved := mt.numBytesRcved + msg.length }
      let s := { s with members := members }
      let mt ← s.members.read (some a)
      let sender : Bytes := mt.name ++ [0]
      let buf := sender ++ (msg ++ List.replicate (maxMsgLen - msg.length) 0).drop sender.length
      match mt.currentRoom with
      | none => .ok (s, [])
      | some r =>
        let rt ← s.rooms.read (some r)
        let ds ← relay s buf s.members.used.length rt.memberListHead msg.length sent
        .ok (s, ds)

/-- The sweep of `main` over the member list, from the given pointer. -/
def sweepMembers : Nat → Option Nat → Server → Call Server
  | _, none, s => .ok s
  | 0, some _, _ => .error .loops
  | n + 1, some a, s => do
    let mt ← s.members.read (some a)
    if mt.quietFlag = 0 then
      -- active in the last interval
      let members := s.members.modify a fun mt => { mt with quietFlag := mt.quietFlag + 1 }
      sweepMembers n mt.nextMember { s with members := members }
    else
      let s ← dropMember s a
      sweepMembers n mt.nextMember s

/-- `remove_room`, and what the sweep does after it. -/
def dropRoom (s : Server) (a : Nat) : Call Server := do
  let s ← removeRoom s a
  .ok { s with
    totalNumOfRooms := s.totalNumOfRooms - 1
    rooms := s.rooms.free a }

/-- The sweep of `main` over the room list, from the given pointer. -/
def sweepRooms : Nat → Option Nat → Server → Call Server
  | _, none, s => .ok s
  | 0, some _, _ => .error .loops
  | n + 1, some a, s => do
    let rt ← s.rooms.read (some a)
    if rt.numOfMembers = 0 then
      if rt.emptyFlag = 0 then
        let rooms := s.rooms.modify a fun rt => { rt with emptyFlag := rt.emptyFlag + 1 }
        sweepRooms n rt.nextRoom { s with rooms := rooms }
      else
        let s ← dropRoom s a
        sweepRooms n rt.nextRoom s
    else sweepRooms n rt.nextRoom s

/-- What `main` does when `select` times out. -/
def sweep (s : Server) : Call Server := do
  let s ← sweepMembers s.members.used.length s.memListHead s
  sweepRooms s.rooms.used.length s.roomListHead s

end Csc469.Chat
