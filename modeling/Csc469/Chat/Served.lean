import Csc469.Chat.Requests

/-! What a message can do to the server, request by request. -/
namespace Csc469.Chat

open Execution Linked

/-- The type is that of a request that needs a valid id. -/
def NeedsId (msg : Bytes) : Prop := roomListRequest ≤ msgType msg ∧ msgType msg ≤ quitRequest

/-- The member at `a` has been heard of. -/
def Server.touch (s : Server) (a : Nat) : Server :=
  { s with members := s.members.modify a fun mt => { mt with quietFlag := 0 } }

/-- What `process_control_msg` can do. -/
inductive Served (s : Server) (L R : List Nat) (M : Nat → List Nat) (env : Env) :
    Option Bytes → Server → Option Reply → Prop
  | unread : Served s L R M env none s none
  | unknownId {msg : Bytes} (htype : NeedsId msg)
      (hno : ∀ a ∈ L, s.idAt a ≠ some (memberId msg)) :
    Served s L R M env (some msg) s (some ⟨msgType msg + 2, 0, text "Member id invalid!"⟩)
  | answered {msg : Bytes} {a : Nat} {reply : Option Reply} (htype : NeedsId msg) (ha : a ∈ L)
      (hid : s.idAt a = some (memberId msg)) (hcreate : msgType msg ≠ createRoomRequest)
      (hreply : ∀ r, reply = some r → r.type = roomListFail ∨ r.type = roomListSucc ∨
        r.type = memberListFail ∨ r.type = memberListSucc)
      (halive : msgType msg = memberKeepAlive → reply = none) :
    Served s L R M env (some msg) (s.touch a) reply
  | switched {msg : Bytes} {a : Nat} {t : Server} {reply : Option Reply}
      (htype : msgType msg = switchRoomRequest) (ha : a ∈ L)
      (hid : s.idAt a = some (memberId msg))
      (hw : Switched (s.touch a) L R M a (memberId msg) (cstr (msgdata msg)) t reply)
      (hp : processSwitchRoomRequest (s.touch a) a msg = .ok (t, reply)) :
    Served s L R M env (some msg) t reply
  | created {msg : Bytes} {a ret : Nat} {t : Server} {r : Reply}
      (htype : msgType msg = createRoomRequest) (ha : a ∈ L)
      (hid : s.idAt a = some (memberId msg))
      (hc : Created (s.touch a) R (cstr (msgdata msg)) env.addr t ret)
      (hreply : r.type = if ret = 0 then createRoomSucc else createRoomFail) :
    Served s L R M env (some msg) t (some r)
  | left {msg : Bytes} {a : Nat} {t : Server} {M' : Nat → List Nat}
      (htype : msgType msg = quitRequest) (ha : a ∈ L) (hid : s.idAt a = some (memberId msg))
      (hd : Dropped (s.touch a) a t) (hinv : Inv t (L.erase a) R M') :
    Served s L R M env (some msg) t none
  | registered {msg : Bytes} {t : Server} {reply : Option Reply}
      (htype : msgType msg = registerRequest) (hr : Registered s L R M env msg t reply) :
    Served s L R M env (some msg) t reply
  | ignored {msg : Bytes} (htype : ¬NeedsId msg) (hreg : msgType msg ≠ registerRequest) :
    Served s L R M env (some msg) s none

variable {s t : Server} {L R : List Nat} {M : Nat → List Nat} {a : Nat} {env : Env}
  {msg : Bytes} {recv : Option Bytes} {reply : Option Reply} {id : UInt16}

instance : Decidable (NeedsId msg) := inferInstanceAs (Decidable (_ ∧ _))

theorem needsId_of_type {type : UInt16} (h : msgType msg = type)
    (ht : roomListRequest ≤ type ∧ type ≤ quitRequest) : NeedsId msg := by
  rwa [NeedsId, h]

theorem not_needsId_of_type {type : UInt16} (h : msgType msg = type)
    (ht : ¬(roomListRequest ≤ type ∧ type ≤ quitRequest)) : ¬NeedsId msg := by
  rwa [NeedsId, h]

theorem Inv.touch (h : Inv s L R M) : Inv (s.touch a) L R M :=
  h.modifyMember _ (fun _ => rfl) (fun _ => rfl)

theorem idAt_touch (b : Nat) : (s.touch a).idAt b = s.idAt b :=
  Store.agree_modify (u := fun mt : Member => { mt with quietFlag := 0 }) (fun _ => rfl) b

theorem roomAt_touch (b : Nat) : (s.touch a).roomAt b = s.roomAt b :=
  Store.bind_of_map (f := Member.currentRoom) (g := id)
    (Store.agree_modify (u := fun mt : Member => { mt with quietFlag := 0 }) (fun _ => rfl) b)

theorem processRoomListRequest_type (h : processRoomListRequest s id = .ok reply) (r : Reply)
    (hr : reply = some r) : r.type = roomListFail ∨ r.type = roomListSucc := by
  unfold processRoomListRequest at h
  split at h
  · cases h
    cases hr
    exact .inl rfl
  · obtain ⟨rooms, -, h⟩ := ok_of_bind h
    cases h
    cases hr
    exact .inr rfl

theorem processMemberListRequest_type (h : processMemberListRequest s id msg = .ok reply)
    (r : Reply) (hr : reply = some r) : r.type = memberListFail ∨ r.type = memberListSucc := by
  unfold processMemberListRequest at h
  split at h
  · cases h
    cases hr
    exact .inl rfl
  · obtain ⟨found, -, h⟩ := ok_of_bind h
    cases found with
    | none =>
      cases h
      cases hr
      exact .inl rfl
    | some r =>
      obtain ⟨rt, -, h⟩ := ok_of_bind h
      split at h
      · cases h
        cases hr
        exact .inl rfl
      · obtain ⟨members, -, h⟩ := ok_of_bind h
        cases h
        cases hr
        exact .inr rfl

theorem processCreateRoomRequest_created (h : Inv s L R M)
    (hp : processCreateRoomRequest s env id msg = .ok (t, reply)) : ∃ ret r,
      Created s R (cstr (msgdata msg)) env.addr t ret ∧ reply = some r ∧
      r.type = if ret = 0 then createRoomSucc else createRoomFail := by
  obtain ⟨⟨u, ret⟩, hc, hp⟩ := ok_of_bind hp
  have hcr := createRoom_created h hc
  obtain ⟨r, rfl, rfl, hr⟩ : ∃ r, t = u ∧ reply = some r ∧
      r.type = if ret = 0 then createRoomSucc else createRoomFail := by
    cases hcr <;> cases hp <;> exact ⟨_, rfl, rfl, rfl⟩
  exact ⟨ret, r, hcr, rfl, hr⟩

theorem processMemberRequest_served (h : Inv s L R M) (ha : a ∈ L) (htype : NeedsId msg)
    (hid : s.idAt a = some (memberId msg))
    (hp : processMemberRequest (s.touch a) env a msg = .ok (t, reply)) :
    Served s L R M env (some msg) t reply := by
  have hinv := h.touch (a := a)
  have hid' : (s.touch a).idAt a = some (memberId msg) := (idAt_touch a).trans hid
  obtain ⟨mt, hmt, hp⟩ := ok_of_bind hp
  obtain ⟨b, hb, hmt⟩ := Store.read_ok hmt
  cases hb
  split at hp
  · next hlist =>
    obtain ⟨reply', hr, hp⟩ := ok_of_bind hp
    cases hp
    refine .answered htype ha hid (by rw [hlist]; decide) (fun r hr' => ?_) fun halive => ?_
    · rcases processRoomListRequest_type hr r hr' with h | h
      · exact .inl h
      · exact .inr (.inl h)
    · exact absurd (hlist.symm.trans halive) (by decide)
  · split at hp
    · next hmembers =>
      obtain ⟨reply', hr, hp⟩ := ok_of_bind hp
      cases hp
      refine .answered htype ha hid (by rw [hmembers]; decide) (fun r hr' => ?_) fun halive => ?_
      · exact .inr (.inr (processMemberListRequest_type hr r hr'))
      · exact absurd (hmembers.symm.trans halive) (by decide)
    · split at hp
      · next hswitch =>
        obtain ⟨t', reply', ht, hw⟩ := processSwitchRoomRequest_ok hinv ha hid'
        cases ht.symm.trans hp
        exact .switched hswitch ha hid hw hp
      · split at hp
        · next hcreate =>
          obtain ⟨ret, r, hc, rfl, hr⟩ := processCreateRoomRequest_created hinv hp
          exact .created hcreate ha hid hc hr
        · next hcreate =>
          split at hp
          · next hquit =>
            obtain ⟨t', hd, hp⟩ := ok_of_bind hp
            cases hp
            obtain ⟨u, M', hu, hinv', hdr⟩ := dropMember_ok hinv ha
            cases hd.symm.trans hu
            exact .left hquit ha hid hdr hinv'
          · cases hp
            exact .answered htype ha hid hcreate (fun _ hr => nomatch hr) fun _ => rfl

/-- A request that needs a valid id is turned down, or handled for the member that it marks. -/
theorem processControlMsg_needsId (htype : NeedsId msg) (h : Registry s L)
    (hp : processControlMsg s env (some msg) = .ok (t, reply)) :
    (findMemberWithId s (memberId msg) = .ok none ∧ t = s ∧
      reply = some ⟨msgType msg + 2, 0, text "Member id invalid!"⟩) ∨
    ∃ a ∈ L, findMemberWithId s (memberId msg) = .ok (some a) ∧
      processMemberRequest (s.touch a) env a msg = .ok (t, reply) := by
  rw [NeedsId] at htype
  simp only [processControlMsg, if_pos htype] at hp
  obtain ⟨found, hf, hp⟩ := ok_of_bind hp
  cases found with
  | none =>
    cases hp
    exact .inl ⟨hf, rfl, rfl⟩
  | some a =>
    have ha := ((findMemberWithId_some_iff h).mp hf).1
    obtain ⟨members, hm, hp⟩ := ok_of_bind hp
    rw [Store.write_some (h.alloc a ha)] at hm
    cases hm
    exact .inr ⟨a, ha, hf, hp⟩

theorem processControlMsg_served (h : Inv s L R M)
    (hp : processControlMsg s env recv = .ok (t, reply)) : Served s L R M env recv t reply := by
  cases recv with
  | none =>
    cases hp
    exact .unread
  | some msg =>
    by_cases htype : NeedsId msg
    · rcases processControlMsg_needsId htype h.registry hp with ⟨hf, rfl, rfl⟩ | ⟨a, ha, hf, hp⟩
      · exact .unknownId htype (findMemberWithId_none h.registry hf)
      · have hid := ((findMemberWithId_some_iff h.registry).mp hf).2
        exact processMemberRequest_served h ha htype hid hp
    · have hno : ¬(roomListRequest ≤ msgType msg ∧ msgType msg ≤ quitRequest) := htype
      simp only [processControlMsg, if_neg hno] at hp
      split at hp
      · next hreg => exact .registered hreg (processRegisterRequest_registered h hp)
      · next hreg =>
        cases hp
        exact .ignored htype hreg

/-- The member at `a` has sent a chat message of `n` bytes. -/
def Server.heard (s : Server) (a n : Nat) : Server :=
  { s with
    members := s.members.modify a fun mt =>
      { mt with
        quietFlag := 0
        numChatMsgs := mt.numChatMsgs + 1
        numBytesRcved := mt.numBytesRcved + n } }

/-- What a chat message does to the server. -/
theorem processChatMsg_heard {sent : List (Option Nat)} {ds : List Datagram} (h : Registry s L)
    (hp : processChatMsg s (some msg) sent = .ok (t, ds)) :
    (t = s ∧ ∀ a ∈ L, s.idAt a ≠ some (senderId msg)) ∨
      ∃ a ∈ L, s.idAt a = some (senderId msg) ∧ t = s.heard a msg.length := by
  obtain ⟨found, hf, hp⟩ := ok_of_bind hp
  cases found with
  | none =>
    cases hp
    exact .inl ⟨rfl, findMemberWithId_none h hf⟩
  | some a =>
    obtain ⟨ha, hid⟩ := (findMemberWithId_some_iff h).mp hf
    obtain ⟨members, hm, hp⟩ := ok_of_bind hp
    rw [Store.write_some (h.alloc a ha)] at hm
    cases hm
    obtain ⟨mt, -, hp⟩ := ok_of_bind hp
    refine .inr ⟨a, ha, hid, ?_⟩
    simp only at hp
    split at hp
    · cases hp
      rfl
    · obtain ⟨rt, -, hp⟩ := ok_of_bind hp
      obtain ⟨ds', -, hp⟩ := ok_of_bind hp
      cases hp
      rfl

end Csc469.Chat
