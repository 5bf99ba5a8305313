import Csc469.Chat.LostReplies

/-! What the client takes for an answer to its requests. -/
namespace Csc469.Chat

open Execution Retry

section ListRequests

/-- A request for a list: the text that is shown of the answer, and the return value. -/
def handleListReq (c : Client) (type succ : UInt16) (data : Bytes) (msgLen : Nat)
    (outcomes : Vector (Attempt Delivery) tcpRetries) (s : Server) :
    Call (Server × Bytes × Int) := do
  let (s, res) ← attemptRequest c type data msgLen outcomes s
  match res with
  | none => .ok (s, [], -2)
  | some res =>
    if msgType res = succ then .ok (s, cstr (msgdata res), 0)
    else .ok (s, cstr (msgdata res), -1)

/-- `handle_room_list_req`: the request has no payload. -/
def handleRoomListReq (c : Client) (outcomes : Vector (Attempt Delivery) tcpRetries)
    (s : Server) : Call (Server × Bytes × Int) :=
  handleListReq c roomListRequest roomListSucc [] cmhSize outcomes s

/-- `handle_member_list_req`. -/
def handleMemberListReq (c : Client) (roomName : Bytes)
    (outcomes : Vector (Attempt Delivery) tcpRetries) (s : Server) :
    Call (Server × Bytes × Int) :=
  handleListReq c memberListRequest memberListSucc roomName (cmhSize + roomName.length + 1)
    outcomes s

end ListRequests

/-- The requests of the client that the server answers. -/
inductive ClientRequest where
  | register (port : UInt16)
  | roomList
  | memberList (roomName : Bytes)
  | switchRoom (roomName : Bytes)
  | createRoom (roomName : Bytes)

namespace ClientRequest

def type : ClientRequest → UInt16
  | register _ => registerRequest
  | roomList => roomListRequest
  | memberList _ => memberListRequest
  | switchRoom _ => switchRoomRequest
  | createRoom _ => createRoomRequest

def succ : ClientRequest → UInt16
  | register _ => registerSucc
  | roomList => roomListSucc
  | memberList _ => memberListSucc
  | switchRoom _ => switchRoomSucc
  | createRoom _ => createRoomSucc

def fail : ClientRequest → UInt16
  | register _ => registerFail
  | roomList => roomListFail
  | memberList _ => memberListFail
  | switchRoom _ => switchRoomFail
  | createRoom _ => createRoomFail

def data (c : Client) : ClientRequest → Bytes
  | register port => registerData port c.memberName
  | roomList => []
  | memberList roomName => roomName
  | switchRoom roomName => roomName
  | createRoom roomName => roomName

def msgLen (c : Client) : ClientRequest → Nat
  | register _ => registerSize c.memberName
  | roomList => cmhSize
  | memberList roomName => cmhSize + roomName.length + 1
  | switchRoom roomName => cmhSize + roomName.length + 1
  | createRoom roomName => cmhSize + roomName.length + 1

def serve (c : Client) (q : ClientRequest) : Server → Delivery → Call (Server × Option Reply) :=
  serveRequest c.memberId q.type (q.data c) (q.msgLen c)

/-- What the handlers of the client return: only a registration looks at the reason. -/
def returned (q : ClientRequest) : Option Bytes → Int
  | none => -2
  | some res =>
    if msgType res = q.succ then 0
    else
      match q with
      | register _ =>
        if (msgdata res).take 10 = (text "Name has already been used!").take 10 then -3 else -1
      | _ => -1

variable {σ δ : Type} {q : ClientRequest} {c : Client} {s t : Server} {d : Delivery} {x : Reply}
  {res : Option Bytes} {ret : Int}

/-- A request with any server behind the connections: the header that `attempt_request`
returns, and what the handler makes of it. -/
def handle (q : ClientRequest) (serve : σ → δ → Call (σ × Option Reply))
    (outcomes : Vector (Attempt δ) tcpRetries) (s : σ) : Call (σ × Option Bytes × Int) := do
  let (s, answer) ← attempts serve outcomes.toList s
  let res := answer.map fun reply => receiveCtrlMsg ((reply.map Reply.wire).getD [])
  .ok (s, res, q.returned res)

/-- The handlers of the client, by what they return. -/
def handler (c : Client) (outcomes : Vector (Attempt Delivery) tcpRetries) (s : Server) :
    ClientRequest → Call (Server × Int)
  | register port => (handleRegisterReq c port outcomes s).map fun x => (x.1, x.2.2)
  | roomList => (handleRoomListReq c outcomes s).map fun x => (x.1, x.2.2)
  | memberList roomName => (handleMemberListReq c roomName outcomes s).map fun x => (x.1, x.2.2)
  | switchRoom roomName => (handleSwitchRoomReq c roomName outcomes s).map fun x => (x.1, x.2.2)
  | createRoom roomName => (handleCreateRoomReq c roomName outcomes s).map fun x => (x.1, x.2.2)

theorem map_bind_returned {α : Type} {r : Call (Server × Option Bytes)}
    {f : Server × Option Bytes → Call (Server × α × Int)}
    (h : ∀ t res, (f (t, res)).map (fun x => (x.1, x.2.2)) = .ok (t, q.returned res)) :
    (r >>= f).map (fun x => (x.1, x.2.2)) = r.map fun x => (x.1, q.returned x.2) := by
  rcases r with e | ⟨t, res⟩
  · rfl
  · exact h t res

/-- The end of a handler that reads nothing of the header but its type. -/
theorem map_ite_returned {α : Type} {p : Prop} [Decidable p] {x y : α} {m n : Int} :
    (if p then .ok (t, x, m) else .ok (t, y, n) : Call (Server × α × Int)).map
      (fun x => (x.1, x.2.2)) = .ok (t, if p then m else n) := by
  split <;> rfl

/-- Every handler returns what `returned` makes of the header. -/
theorem handler_eq {outcomes : Vector (Attempt Delivery) tcpRetries} :
    q.handler c outcomes s =
      (q.handle (q.serve c) outcomes s).map fun x => (x.1, x.2.2) := by
  have hhandle : (q.handle (q.serve c) outcomes s).map (fun x => (x.1, x.2.2)) =
      (attemptRequest c q.type (q.data c) (q.msgLen c) outcomes s).map
        fun x => (x.1, q.returned x.2) := by
    unfold handle attemptRequest serve
    rcases attempts _ outcomes.toList s with e | ⟨t, answer⟩ <;> rfl
  rw [hhandle]
  cases q with
  | register port =>
    refine map_bind_returned fun t res => ?_
    cases res with
    | none => rfl
    | some res =>
      have hret : (register port).returned (some res) = if msgType res = registerSucc then 0
        else if (msgdata res).take 10 = (text "Name has already been used!").take 10 then -3
        else -1 := rfl
      rw [hret]
      dsimp only
      by_cases htype : msgType res = registerSucc
      · rw [if_pos htype, if_pos htype]
        rfl
      · rw [if_neg htype, if_neg htype]
        exact map_ite_returned
  | roomList =>
    refine map_bind_returned fun t res => ?_
    cases res with
    | none => rfl
    | some res => exact map_ite_returned
  | memberList roomName =>
    refine map_bind_returned fun t res => ?_
    cases res with
    | none => rfl
    | some res => exact map_ite_returned
  | switchRoom roomName =>
    refine map_bind_returned fun t res => ?_
    cases res with
    | none => rfl
    | some res => exact map_ite_returned
  | createRoom roomName =>
    refine map_bind_returned fun t res => ?_
    cases res with
    | none => rfl
    | some res => exact map_ite_returned

section Answers

/-- What the server can send in reply to a request. -/
structure Answer (q : ClientRequest) where
  reply : Reply
  type : reply.type = q.succ ∨ reply.type = q.fail

/-- The request with a server that sends the given answers. -/
def handleTold (q : ClientRequest) (outcomes : Vector (Attempt q.Answer) tcpRetries) :
    Call (Unit × Option Bytes × Int) := q.handle (sends Answer.reply) outcomes ()

/-- The client takes a header for an answer only when the server has sent it in reply: then
`res` is what was sent, and it is NULL when no attempt is answered. A rejection is one of the
server. -/
structure AnswerOnly (q : ClientRequest) (outcomes : Vector (Attempt q.Answer) tcpRetries) :
    Prop where
  sent : ∀ res ret, q.handleTold outcomes = .ok ((), some res, ret) →
    ∃ x, answering outcomes.toList = some (.answered x) ∧ res = receiveCtrlMsg x.reply.wire
  silent : (∀ x, answering outcomes.toList ≠ some (.answered x)) →
    q.handleTold outcomes = .ok ((), none, -2)
  rejected : ∀ res ret, q.handleTold outcomes = .ok ((), res, ret) →
    ret = -1 ∨ ret = -3 →
      ∃ x, answering outcomes.toList = some (.answered x) ∧ x.reply.type = q.fail

variable {outcomes : Vector (Attempt q.Answer) tcpRetries}

theorem handleTold_eq (q : ClientRequest) (outcomes : Vector (Attempt q.Answer) tcpRetries) :
    q.handleTold outcomes = .ok
      (match answering outcomes.toList with
        | some (.answered x) =>
          ((), some (receiveCtrlMsg x.reply.wire), q.returned (some (receiveCtrlMsg x.reply.wire)))
        | some _ => ((), some (receiveCtrlMsg []), q.returned (some (receiveCtrlMsg [])))
        | none => ((), none, -2)) := by
  rw [handleTold, handle, attempts_sends]
  rcases answering outcomes.toList with _ | o
  · rfl
  · cases o <;> rfl

theorem returned_succ {res : Bytes} (h : msgType res = q.succ) : q.returned (some res) = 0 :=
  if_pos h

theorem not_answerOnly {outcomes : Vector (Attempt q.Answer) tcpRetries}
    (hclosed : answering outcomes.toList = some .closed) : ¬AnswerOnly q outcomes := by
  rintro ⟨hsent, -, -⟩
  have htold := handleTold_eq q outcomes
  rw [hclosed] at htold
  obtain ⟨x, hx, -⟩ := hsent _ _ htold
  rw [hclosed] at hx
  cases hx

/-- The client takes only answers for answers exactly when the first attempt that does not end
with a read error is not one whose connection is closed without any byte. -/
theorem answer_only_iff (q : ClientRequest) (outcomes : Vector (Attempt q.Answer) tcpRetries) :
    AnswerOnly q outcomes ↔ answering outcomes.toList ≠ some .closed := by
  constructor
  · exact fun h hclosed => not_answerOnly hclosed h
  · intro hopen
    have htold := handleTold_eq q outcomes
    rcases answering_cases outcomes.toList with hnone | hclosed | ⟨x, hx⟩
    · rw [hnone] at htold
      refine ⟨fun res ret h => ?_, fun _ => htold, fun res ret h hret => ?_⟩
      · cases htold.symm.trans h
      · cases htold.symm.trans h
        omega
    · exact absurd hclosed hopen
    · rw [hx] at htold
      refine ⟨fun res ret h => ?_, fun hno => absurd hx (hno x), fun res ret h hret => ?_⟩
      · cases htold.symm.trans h
        exact ⟨x, hx, rfl⟩
      · cases htold.symm.trans h
        refine ⟨x, hx, x.type.resolve_left fun hsucc => ?_⟩
        rw [returned_succ (msgType_receiveCtrlMsg.trans hsucc)] at hret
        omega

/-- The connection of every attempt is closed without any byte: the zeroed buffer is taken for
a header, and a first registration reports a rejection. -/
theorem end_of_file_rejects :
    (register 7001).handleTold (Vector.replicate tcpRetries .closed) =
      .ok ((), some (List.replicate maxMsgLen 0), -1) ∧
    ¬AnswerOnly (register 7001) (Vector.replicate tcpRetries .closed) := by
  refine ⟨?_, not_answerOnly rfl⟩
  decide +kernel

end Answers

section Served

/-- The server reads the type of a request as it was sent. -/
theorem msgType_delivered {type id : UInt16} {data : Bytes} {msgLen : Nat} (hmin : cmhSize ≤ msgLen)
    (hmax : msgLen < 256) : msgType (delivered id type data msgLen d) = type := by
  obtain ⟨rest, h⟩ := delivered_eq id type data d hmin hmax
  rw [h, msgType_controlMsghdr]

theorem le_msgLen : cmhSize ≤ q.msgLen c := by
  cases q <;> simp only [msgLen, registerSize] <;> omega

theorem processMemberRequest_type {msg : Bytes} {env : Env} {a : Nat} {L R : List Nat}
    {M : Nat → List Nat} {id : UInt16} (h : Inv s L R M) (ha : a ∈ L) (hid : s.idAt a = some id)
    (hq : q.type ≠ registerRequest) (htype : msgType msg = q.type)
    (hp : processMemberRequest s env a msg = .ok (t, some x)) :
    x.type = q.succ ∨ x.type = q.fail := by
  cases q with
  | register port => exact absurd rfl hq
  | roomList =>
    obtain ⟨mt, -, hp⟩ := ok_of_bind hp
    simp only [htype, type, if_true] at hp
    obtain ⟨reply, hr, hp⟩ := ok_of_bind hp
    cases hp
    exact (processRoomListRequest_type hr x rfl).symm
  | memberList roomName =>
    obtain ⟨mt, -, hp⟩ := ok_of_bind hp
    simp only [htype, type] at hp
    rw [if_neg (by decide), if_pos trivial] at hp
    obtain ⟨reply, hr, hp⟩ := ok_of_bind hp
    cases hp
    exact (processMemberListRequest_type hr x rfl).symm
  | switchRoom roomName =>
    rw [processMemberRequest_switch hid htype] at hp
    obtain ⟨u, reply, hok, hcases⟩ : ∃ u reply, processSwitchRoomRequest s a msg = .ok (u, reply) ∧
        Switched s L R M a id (cstr (msgdata msg)) u reply := processSwitchRoomRequest_ok h ha hid
    cases hok.symm.trans hp
    cases hcases with
    | switched => exact .inl rfl
    | _ => exact .inr rfl
  | createRoom roomName =>
    rw [processMemberRequest_create hid htype] at hp
    obtain ⟨ret, r, -, hr, hx⟩ := processCreateRoomRequest_created h hp
    cases hr
    rw [hx]
    split
    · exact .inl rfl
    · exact .inr rfl

/-- A request that is no registration needs a valid id. -/
theorem type_cases (q : ClientRequest) : (∃ port, q = register port) ∨
    (roomListRequest ≤ q.type ∧ q.type ≤ quitRequest) ∧ q.type ≠ registerRequest ∧
      q.type + 2 = q.fail := by
  cases q with
  | register port => exact .inl ⟨port, rfl⟩
  | roomList => exact .inr (by decide)
  | memberList roomName => exact .inr (by simp only [type, fail]; decide)
  | switchRoom roomName => exact .inr (by simp only [type, fail]; decide)
  | createRoom roomName => exact .inr (by simp only [type, fail]; decide)

/-- The server replies to a request with one of the two types that belong to it. -/
theorem serve_type (h : Settled s) (hlen : q.msgLen c < 256)
    (hp : q.serve c s d = .ok (t, some x)) : x.type = q.succ ∨ x.type = q.fail := by
  obtain ⟨L, R, M, h⟩ := h
  have htype : msgType (delivered c.memberId q.type (q.data c) (q.msgLen c) d) = q.type :=
    msgType_delivered le_msgLen hlen
  rcases type_cases q with ⟨port, rfl⟩ | ⟨hneeds, hq, hfail⟩
  · have hr := (processControlMsg_register htype).symm.trans hp
    cases processRegisterRequest_registered h hr with
    | registered => exact .inl rfl
    | _ => exact .inr rfl
  · rcases processControlMsg_needsId (needsId_of_type htype hneeds) h.registry hp with
      ⟨-, -, hx⟩ | ⟨a, ha, hf, hp⟩
    · cases hx
      rw [htype]
      exact .inr hfail
    · have hid := ((findMemberWithId_some_iff h.registry).mp hf).2
      exact processMemberRequest_type h.touch ha ((idAt_touch a).trans hid) hq htype hp

theorem serve_settled {reply : Option Reply} (h : Settled s)
    (hp : q.serve c s d = .ok (t, reply)) : Settled t := by
  unfold serve serveRequest at hp
  exact processControlMsg_settled h hp

/-- What a handler returns is what it returns when the answers of the server were told
before. -/
theorem handler_told {outcomes : Vector (Attempt Delivery) tcpRetries} (hs : Settled s)
    (hlen : q.msgLen c < 256) (h : q.handler c outcomes s = .ok (t, ret)) :
    ∃ (told : Vector (Attempt q.Answer) tcpRetries) (res : Option Bytes),
      q.handleTold told = .ok ((), res, ret) := by
  rw [handler_eq, handle] at h
  rcases ha : attempts (q.serve c) outcomes.toList s with e | ⟨u, answer⟩
  · rw [ha] at h
    cases h
  · rw [ha] at h
    cases h
    have hsend : ∀ {s d t x}, Settled s → q.serve c s d = .ok (t, some x) →
        ∃ y : q.Answer, y.reply = x := fun hI hp => ⟨⟨_, serve_type hI hlen hp⟩, rfl⟩
    obtain ⟨told, hcount, htold⟩ := attempts_told serve_settled hsend hs ha
    refine ⟨⟨told.toArray, hcount.trans outcomes.size_toArray⟩,
      answer.map fun reply => receiveCtrlMsg ((reply.map Reply.wire).getD []), ?_⟩
    rw [handleTold, handle]
    show (attempts _ told () >>= _) = _
    rw [htold]
    rfl

end Served

end ClientRequest
end Csc469.Chat
