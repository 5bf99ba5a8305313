import Csc469.Chat.Server
import Csc469.Retry

/-! `client_main.c` and `client_recv.c`: the requests of the chat client. -/
namespace Csc469.Chat

open Execution Retry

def tcpRetries : Nat := 10
def portStart : Nat := 7000
def numPortRetry : Nat := 200

/-- The globals of the client that its requests use: the two names are C strings. -/
structure Client where
  memberId : UInt16
  memberName : Bytes
  lastChannel : Bytes

/-- The loop of `init_receiver` that looks for a port, with `n` attempts left. -/
def bindLoop (bind : Nat → Bool) : Nat → Nat → Option Nat
  | 0, _ => none
  | n + 1, port =>
    if bind port then some port
    else if portStart + numPortRetry < port then none
    else bindLoop bind n (port + 1)

/-- `init_receiver`: the port it reports, given which ports can be bound. -/
def initReceiver (bind : Nat → Bool) : Option Nat := bindLoop bind (numPortRetry + 2) portStart

/-- `send_ctrl_msg`: what is written. The length it passes to `write` is in network order by
then, so that the memory behind the buffer is written too. -/
def sendCtrlMsg (memberId type : UInt16) (data : Bytes) (msgLen : Nat) (heap : Bytes) : Bytes :=
  let buf := controlMsghdr type memberId msgLen ++ (strncpy (msgLen - cmhSize) data).toList
  (buf ++ heap).take (htons (UInt16.ofNat msgLen)).toNat

/-- `receive_ctrl_msg`: the zeroed buffer after the read. -/
def receiveCtrlMsg (bytes : Bytes) : Bytes := (bytes ++ List.replicate maxMsgLen 0).take maxMsgLen

/-- How a request reaches the server: what the system decides there, the memory behind the
client's buffer, and how many bytes behind the message the server's `read` returns. -/
structure Delivery where
  env : Env
  heap : Bytes
  behind : Nat

/-- What the server reads of a request. -/
def delivered (memberId type : UInt16) (data : Bytes) (msgLen : Nat) (d : Delivery) : Bytes :=
  (sendCtrlMsg memberId type data msgLen d.heap).take (min maxMsgLen (msgLen + d.behind))

def serveRequest (memberId type : UInt16) (data : Bytes) (msgLen : Nat) (s : Server)
    (d : Delivery) : Call (Server × Option Reply) :=
  processControlMsg s d.env (some (delivered memberId type data msgLen d))

/-- `attempt_request`, with the outcomes of the attempts it can make. -/
def attemptRequest (c : Client) (type : UInt16) (data : Bytes) (msgLen : Nat)
    (outcomes : Vector (Attempt Delivery) tcpRetries) (s : Server) :
    Call (Server × Option Bytes) := do
  let (s, answer) ← attempts (serveRequest c.memberId type data msgLen) outcomes.toList s
  .ok (s, answer.map fun reply => receiveCtrlMsg ((reply.map Reply.wire).getD []))

/-- `struct register_msgdata` as `handle_register_req` fills it in. -/
def registerData (port : UInt16) (name : Bytes) : Bytes :=
  store16 (htons port) ++ (strncpy maxMemberNameLen name).toList

def registerSize (name : Bytes) : Nat := cmhSize + 2 + name.length + 1

/-- `handle_register_req`: the server, the client and the return value. -/
def handleRegisterReq (c : Client) (port : UInt16)
    (outcomes : Vector (Attempt Delivery) tcpRetries) (s : Server) :
    Call (Server × Client × Int) := do
  let (s, res) ← attemptRequest c registerRequest (registerData port c.memberName)
    (registerSize c.memberName) outcomes s
  match res with
  | none => .ok (s, c, -2)
  | some res =>
    if msgType res = registerSucc then .ok (s, { c with memberId := memberId res }, 0)
    else if (msgdata res).take 10 = (text "Name has already been used!").take 10 then
      .ok (s, c, -3)
    else .ok (s, c, -1)

/-- `handle_switch_room_req`. -/
def handleSwitchRoomReq (c : Client) (roomName : Bytes)
    (outcomes : Vector (Attempt Delivery) tcpRetries) (s : Server) :
    Call (Server × Client × Int) := do
  let (s, res) ← attemptRequest c switchRoomRequest roomName (cmhSize + roomName.length + 1)
    outcomes s
  match res with
  | none => .ok (s, c, -2)
  | some res =>
    if msgType res = switchRoomSucc then .ok (s, { c with lastChannel := roomName }, 0)
    else .ok (s, c, -1)

/-- `handle_create_room_req`. -/
def handleCreateRoomReq (c : Client) (roomName : Bytes)
    (outcomes : Vector (Attempt Delivery) tcpRetries) (s : Server) :
    Call (Server × Client × Int) := do
  let (s, res) ← attemptRequest c createRoomRequest roomName (cmhSize + roomName.length + 1)
    outcomes s
  match res with
  | none => .ok (s, c, -2)
  | some res => if msgType res = createRoomSucc then .ok (s, c, 0) else .ok (s, c, -1)

variable {id type port : UInt16} {data name heap rest : Bytes} {msgLen n p q : Nat}
  {bind : Nat → Bool} {d : Delivery} {peer : Option UInt32}

theorem bindLoop_range (h : bindLoop bind n p = some q) : p ≤ q ∧ q < p + n := by
  induction n generalizing p with
  | zero => cases h
  | succ n ih =>
    rw [bindLoop] at h
    split at h
    · cases h
      omega
    · split at h
      · cases h
      · have := ih h
        omega

theorem initReceiver_range (h : initReceiver bind = some p) : 7000 ≤ p ∧ p ≤ 7201 := by
  have hrange := bindLoop_range h
  simp only [portStart, numPortRetry] at hrange
  omega

theorem controlMsghdr_length : (controlMsghdr type id n).length = cmhSize := rfl

/-- A short message arrives whole, with more bytes behind it. -/
theorem delivered_eq (id type : UInt16) (data : Bytes) (d : Delivery) (hmin : cmhSize ≤ msgLen)
    (hmax : msgLen < 256) :
    ∃ rest, delivered id type data msgLen d =
      controlMsghdr type id msgLen ++ ((strncpy (msgLen - cmhSize) data).toList ++ rest) := by
  have hlen : (controlMsghdr type id msgLen ++
      (strncpy (msgLen - cmhSize) data).toList).length = msgLen := by
    rw [List.length_append, controlMsghdr_length, Vector.length_toList]
    omega
  have hsend : msgLen ≤ (htons (UInt16.ofNat msgLen)).toNat := by
    rw [htons_toNat, UInt16.toNat_ofNat', Nat.mod_eq_of_lt (by omega)]
    simp only [cmhSize] at hmin
    omega
  have hread : msgLen ≤ min maxMsgLen (msgLen + d.behind) := by
    simp only [maxMsgLen]
    omega
  rw [delivered, sendCtrlMsg, List.take_take, List.take_append, hlen,
    List.take_of_length_le (by omega), List.append_assoc]
  exact ⟨_, rfl⟩

section RoomRequests

/-- The name of a room arrives as it was sent. -/
theorem delivered_room (type id : UInt16) (hlen : name.length ≤ maxRoomNameLen) (h0 : 0 ∉ name) :
    ∃ rest, delivered id type name (cmhSize + name.length + 1) d =
      controlMsghdr type id (cmhSize + name.length + 1) ++ (name ++ 0 :: rest) := by
  simp only [maxRoomNameLen] at hlen
  have hmin : cmhSize ≤ cmhSize + name.length + 1 := by omega
  obtain ⟨rest, h⟩ := delivered_eq id type name d hmin (by simp only [cmhSize]; omega)
  refine ⟨rest, ?_⟩
  have hdata : (strncpy (cmhSize + name.length + 1 - cmhSize) name).toList = name ++ [0] := by
    rw [strncpy_toList (by rw [cstr_self h0]; omega), cstr_self h0]
    rw [show cmhSize + name.length + 1 - cmhSize - name.length = 1 by omega]
    rfl
  rw [h, hdata]
  simp

end RoomRequests

section Register

/-- The name the server reads of a registration: a zero byte in the port ends the copy. -/
def registerName (port : UInt16) (name : Bytes) : Bytes :=
  if port.toNat / 256 = 0 ∨ port.toNat % 256 = 0 then [] else name

theorem store16_htons :
    store16 (htons port) = [UInt8.ofNat (port.toNat / 256), UInt8.ofNat (port.toNat % 256)] := by
  have := port.toNat_lt
  rw [store16, htons_toNat]
  rw [show (port.toNat % 256 * 256 + port.toNat / 256) % 256 = port.toNat / 256 by omega,
    show (port.toNat % 256 * 256 + port.toNat / 256) / 256 = port.toNat % 256 by omega]

theorem ofNat_eq_zero {x : Nat} (h : x < 256) : UInt8.ofNat x = 0 ↔ x = 0 := by
  rw [← UInt8.toNat_inj, UInt8.toNat_ofNat', Nat.mod_eq_of_lt h]
  rfl

theorem cstr_registerData (hlen : name.length < maxMemberNameLen) (h0 : 0 ∉ name)
    (hport : ¬(port.toNat / 256 = 0 ∨ port.toNat % 256 = 0)) :
    cstr (registerData port name) = store16 (htons port) ++ name := by
  have hlt := port.toNat_lt
  have hhi : UInt8.ofNat (port.toNat / 256) ≠ 0 := by
    rw [Ne, ofNat_eq_zero (by omega)]
    omega
  have hlo : UInt8.ofNat (port.toNat % 256) ≠ 0 := by
    rw [Ne, ofNat_eq_zero (by omega)]
    omega
  have hname : cstr (strncpy maxMemberNameLen name).toList = name := by
    rw [cstr_strncpy, cstr_self h0, List.take_of_length_le (by omega)]
  rw [registerData, store16_htons]
  simp only [cstr, List.cons_append, List.nil_append, List.takeWhile_cons, hhi, hlo, ne_eq,
    not_false_eq_true, decide_true, if_true]
  exact congrArg (fun l => _ :: _ :: l) hname

/-- What is sent of a registration: the port, the name, and one byte behind it. -/
theorem delivered_registerData (id : UInt16) (d : Delivery) (hlen : name.length < maxMemberNameLen) :
    ∃ rest, delivered id registerRequest (registerData port name) (registerSize name) d =
      controlMsghdr registerRequest id (registerSize name) ++
        ((strncpy (name.length + 3) (registerData port name)).toList ++ rest) := by
  simp only [maxMemberNameLen] at hlen
  have hsize : registerSize name - cmhSize = name.length + 3 := by
    simp only [registerSize]
    omega
  obtain ⟨rest, h⟩ := delivered_eq id registerRequest (registerData port name) d
    (by simp only [registerSize]; omega : cmhSize ≤ registerSize name)
    (by simp only [registerSize, cmhSize]; omega)
  rw [hsize] at h
  exact ⟨rest, h⟩

/-- Both bytes of the port and the name arrive when neither of the bytes is zero. -/
theorem delivered_register (id : UInt16) (d : Delivery) (hlen : name.length < maxMemberNameLen)
    (h0 : 0 ∉ name) (hport : ¬(port.toNat / 256 = 0 ∨ port.toNat % 256 = 0)) :
    ∃ rest, delivered id registerRequest (registerData port name) (registerSize name) d =
      controlMsghdr registerRequest id (registerSize name) ++
        (store16 (htons port) ++ (name ++ 0 :: rest)) := by
  obtain ⟨rest, h⟩ := delivered_registerData id d hlen
  refine ⟨rest, ?_⟩
  have hdata : (strncpy (name.length + 3) (registerData port name)).toList =
      store16 (htons port) ++ (name ++ [0]) := by
    have hstr := cstr_registerData hlen h0 hport
    have hcount : (cstr (registerData port name)).length = name.length + 2 := by
      rw [hstr]
      simp [store16]
    rw [strncpy_toList (by omega), hcount, hstr]
    rw [show name.length + 3 - (name.length + 2) = 1 by omega, List.append_assoc]
    rfl
  rw [h, hdata]
  simp

/-- A zero byte in the port: neither what is behind it nor the name arrives. -/
theorem delivered_register_cut (id : UInt16) (d : Delivery) (hlen : name.length < maxMemberNameLen)
    (hport : port.toNat / 256 = 0 ∨ port.toNat % 256 = 0) :
    ∃ x rest, delivered id registerRequest (registerData port name) (registerSize name) d =
      controlMsghdr registerRequest id (registerSize name) ++ (x :: 0 :: 0 :: rest) := by
  obtain ⟨rest, h⟩ := delivered_registerData id d hlen
  have hstr : cstr (registerData port name) = [] ∨
      cstr (registerData port name) = [UInt8.ofNat (port.toNat / 256)] := by
    rw [registerData, store16_htons]
    simp only [cstr, List.cons_append, List.nil_append, List.takeWhile_cons]
    split
    · right
      have hlo : UInt8.ofNat (port.toNat % 256) = 0 := by
        rcases hport with hport | hport
        · next hhi => simp [hport] at hhi
        · rw [hport]
          rfl
      simp [hlo]
    · exact .inl rfl
  rw [h]
  rcases hstr with hstr | hstr
  · rw [strncpy_toList (by simp [hstr]), hstr]
    exact ⟨0, List.replicate name.length 0 ++ rest, rfl⟩
  · rw [strncpy_toList (by simp [hstr]), hstr]
    exact ⟨_, List.replicate name.length 0 ++ rest, rfl⟩

/-- The record of a new member has the name that `registerName` says. -/
theorem newMember_name (hlen : name.length < maxMemberNameLen) (h0 : 0 ∉ name) :
    (newMember (delivered id registerRequest (registerData port name) (registerSize name) d)
      peer).name = registerName port name := by
  rw [newMember, Member.name, cstr_strncpy, registerName]
  by_cases hport : port.toNat / 256 = 0 ∨ port.toNat % 256 = 0
  · obtain ⟨x, rest, h⟩ := delivered_register_cut id d hlen hport
    rw [if_pos hport, h, msgdata_controlMsghdr]
    rfl
  · obtain ⟨rest, h⟩ := delivered_register id d hlen h0 hport
    rw [if_neg hport, h, msgdata_controlMsghdr]
    show (cstr (name ++ 0 :: rest)).take maxMemberNameLen = name
    rw [cstr_append_zero h0, List.take_of_length_le (by omega)]

theorem msgType_delivered_register (hlen : name.length < maxMemberNameLen) :
    msgType (delivered id registerRequest (registerData port name) (registerSize name) d) =
      registerRequest := by
  obtain ⟨rest, h⟩ := delivered_registerData id d hlen
  rw [h, msgType_controlMsghdr]

/-- The server reads a message as the registration of a name, and of a port for chat
messages. -/
def RegistersAs (msg : Bytes) (port : UInt16) (name : Bytes) : Prop :=
  msgType msg = registerRequest ∧
    ∀ peer, (newMember msg peer).sinPort = htons port ∧ (newMember msg peer).name = name

/-- What `handle_register_req` sends is what the server reads, for every port that the
receiver can report but one. -/
theorem register_round_trip_iff (hp : initReceiver bind = some p) (hpos : 1 ≤ name.length)
    (hlen : name.length < maxMemberNameLen) (h0 : 0 ∉ name) :
    RegistersAs (delivered id registerRequest (registerData (UInt16.ofNat p) name)
      (registerSize name) d) (UInt16.ofNat p) name ↔ p ≠ 7168 := by
  obtain ⟨hmin, hmax⟩ := initReceiver_range hp
  have hnat : (UInt16.ofNat p).toNat = p := by
    rw [UInt16.toNat_ofNat', Nat.mod_eq_of_lt (by omega)]
  have hcut : ((UInt16.ofNat p).toNat / 256 = 0 ∨ (UInt16.ofNat p).toNat % 256 = 0) ↔
      p = 7168 := by
    rw [hnat]
    omega
  constructor
  · rintro ⟨-, hdecoded⟩ hcase
    have hname := (hdecoded none).2
    rw [newMember_name hlen h0, registerName, if_pos (hcut.mpr hcase)] at hname
    rw [← hname] at hpos
    cases hpos
  · intro hne
    refine ⟨msgType_delivered_register hlen, fun peer => ⟨?_, ?_⟩⟩
    · obtain ⟨rest, h⟩ := delivered_register id d hlen h0 (mt hcut.mp hne)
      rw [h]
      exact load16_store16 [] _
    · rw [newMember_name hlen h0, registerName, if_neg (mt hcut.mp hne)]

theorem register_round_trip_7001 : initReceiver (fun p => p = 7001) = some 7001 ∧
    (RegistersAs (delivered 0 registerRequest (registerData 7001 (text "ann"))
      (registerSize (text "ann")) ⟨⟨0, none, []⟩, [], 0⟩) 7001 (text "ann") ↔ 7001 ≠ 7168) :=
  ⟨by decide, register_round_trip_iff (show initReceiver (fun p => p = 7001) = some 7001 by decide)
    (by decide) (by decide) (by decide)⟩

/-- The receiver is given port 7168 when the ports before it are taken: the server stores an
empty name. -/
theorem register_name_lost : initReceiver (fun p => 7168 ≤ p) = some 7168 ∧
    (newMember (delivered 0 registerRequest (registerData 7168 (text "ann"))
      (registerSize (text "ann")) ⟨⟨0, none, []⟩, [], 0⟩) none).name = [] ∧
    ¬RegistersAs (delivered 0 registerRequest (registerData 7168 (text "ann"))
      (registerSize (text "ann")) ⟨⟨0, none, []⟩, [], 0⟩) 7168 (text "ann") := by
  have hname : (newMember (delivered 0 registerRequest (registerData 7168 (text "ann"))
      (registerSize (text "ann")) ⟨⟨0, none, []⟩, [], 0⟩) none).name = [] := by decide +kernel
  refine ⟨by decide +kernel, hname, ?_⟩
  rintro ⟨-, hdecoded⟩
  have hann := (hdecoded none).2
  rw [hname] at hann
  cases hann

end Register
end Csc469.Chat
