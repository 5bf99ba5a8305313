import Csc469.Chat.Client
import Csc469.Chat.Relay

/-! What becomes of a message's bytes when the server passes it on, and when a client sends it. -/
namespace Csc469.Chat

open Execution Linked

variable {s : Server} {L R zs : List Nat} {M : Nat → List Nat} {a r k : Nat}
  {fails : List Bool} {name msg data : Bytes} {ds : List Datagram} {lost : Failures}

section Relay

/-- The datagram as received, but for the field of the sender. -/
def SenderOnly (msg data : Bytes) : Prop :=
  data.length = msg.length ∧ data.drop maxMemberNameLen = msg.drop maxMemberNameLen

/-- Behind the name and its terminator the buffer is as it was read. -/
theorem withName_drop (h : name.length < k) :
    (withName name msg).drop k = (msg ++ List.replicate (maxMsgLen - msg.length) 0).drop k := by
  have hlen : (name ++ [0]).length = name.length + 1 := by simp
  rw [withName, List.drop_append, List.drop_of_length_le (by omega), List.nil_append,
    List.drop_drop]
  congr 1
  omega

theorem forwarded_drop (h : name.length < k) : (forwarded name msg).drop k = msg.drop k := by
  rw [forwarded, List.drop_take, withName_drop h, ← List.drop_take, List.take_left']
  rfl

/-- The terminator of a name that fills its field is written to the byte behind it. -/
theorem forwarded_full (h : name.length = k) (hk : k < msg.length) :
    (forwarded name msg).drop k = 0 :: msg.drop (k + 1) := by
  have hbuf : (withName name msg).drop k = 0 :: (withName name msg).drop (k + 1) := by
    subst h
    rw [withName_drop (Nat.lt_succ_self _), withName, List.append_assoc, List.drop_left,
      List.length_append]
    rfl
  have htail : (forwarded name msg).drop (k + 1) = msg.drop (k + 1) := forwarded_drop (by omega)
  rw [forwarded, List.drop_take] at htail ⊢
  rw [hbuf, show msg.length - k = (msg.length - (k + 1)) + 1 by omega, List.take_succ_cons, htail]

theorem forwarded_senderOnly_iff (h : name.length ≤ maxMemberNameLen) :
    SenderOnly msg (forwarded name msg) ↔
      name.length < maxMemberNameLen ∨ msg.getD maxMemberNameLen 0 = 0 := by
  rw [SenderOnly, and_iff_right forwarded_length]
  rcases Nat.lt_or_eq_of_le h with hlt | heq
  · exact iff_of_true (forwarded_drop hlt) (.inl hlt)
  · rcases Nat.lt_or_ge maxMemberNameLen msg.length with hlong | hshort
    · have hbyte : msg.getD maxMemberNameLen 0 = msg[maxMemberNameLen] := by simp [hlong]
      rw [forwarded_full heq hlong, List.drop_eq_getElem_cons hlong, hbyte, List.cons.injEq,
        and_iff_left rfl, or_iff_right (by omega), eq_comm]
    · have hbyte : msg.getD maxMemberNameLen 0 = 0 := by simp [hshort]
      rw [List.drop_of_length_le (by rwa [forwarded_length]), List.drop_of_length_le hshort]
      exact iff_of_true rfl (.inr hbyte)

theorem nameAt_length (h : s.nameAt a = some name) : name.length ≤ maxMemberNameLen := by
  obtain ⟨mt, -, rfl⟩ := Option.map_eq_some_iff.mp h
  exact (List.takeWhile_sublist _).length_le.trans (by simp)

theorem reached_ne_nil (h : a ∈ zs) : reached fails zs ≠ [] := by
  cases zs with
  | nil => cases h
  | cons b zs =>
    cases fails with
    | nil => simp [reached]
    | cons failed fails => cases failed <;> simp [reached]

/-- Every datagram to a member carries the same bytes, and there is one at least. -/
theorem all_datagrams_iff {P : Bytes → Prop} (hne : zs ≠ [])
    (hmap : ds.map some = zs.map (s.datagramTo data)) : (∀ x ∈ ds, P x.data) ↔ P data := by
  have hdata : ∀ x ∈ ds, x.data = data := by
    intro x hx
    have hsome : some x ∈ ds.map some := List.mem_map_of_mem hx
    rw [hmap] at hsome
    obtain ⟨b, -, hb⟩ := List.mem_map.mp hsome
    obtain ⟨mt, -, rfl⟩ := Option.map_eq_some_iff.mp hb
    rfl
  constructor
  · intro h
    cases ds with
    | nil => exact absurd (List.map_eq_nil_iff.mp hmap.symm) hne
    | cons x ds =>
      have hx := h x (by simp)
      rwa [hdata x (by simp)] at hx
  · intro h x hx
    rwa [hdata x hx]

/-- A message of a member that is in no room is not passed on. -/
theorem processChatMsg_roomless (h : Inv s L R M) (ha : a ∈ L)
    (hid : s.idAt a = some (senderId msg)) (hroom : s.roomAt a = none)
    (sent : List (Option Nat)) : ∃ t, processChatMsg s (some msg) sent = .ok (t, []) := by
  obtain ⟨mt, hmt⟩ := Option.isSome_iff_exists.mp (h.registry.alloc a ha)
  have hf := (findMemberWithId_some_iff h.registry).mpr ⟨ha, hid⟩
  have hcurrent : mt.currentRoom = none := by simpa [Server.roomAt, hmt] using hroom
  let u := fun mt : Member =>
    { mt with
      quietFlag := 0
      numChatMsgs := mt.numChatMsgs + 1
      numBytesRcved := mt.numBytesRcved + msg.length }
  have hread : (s.members.modify a u).read (some a) = .ok (u mt) :=
    Store.read_some (by simp [hmt])
  refine ⟨{ s with members := s.members.modify a u }, ?_⟩
  refine bind_eq_ok.mpr ⟨some a, hf, bind_eq_ok.mpr ⟨s.members.modify a u,
    Store.write_some (h.registry.alloc a ha), bind_eq_ok.mpr ⟨u mt, hread, ?_⟩⟩⟩
  simp only [u, hcurrent]

theorem Inv.relayed (h : Inv s L R M) (ha : a ∈ L) (hid : s.idAt a = some (senderId msg))
    (hname : s.nameAt a = some name) (lost : Failures) :
    ∃ t ds, processChatMsg s (some msg) (sendtoResults lost.toList msg.length) = .ok (t, ds) ∧
      ((∀ x ∈ ds, SenderOnly msg x.data) ↔ s.roomAt a = none ∨
        name.length < maxMemberNameLen ∨ msg.getD maxMemberNameLen 0 = 0) := by
  cases hroom : s.roomAt a with
  | none =>
    obtain ⟨t, ht⟩ := processChatMsg_roomless h ha hid hroom (sendtoResults lost.toList msg.length)
    exact ⟨t, [], ht, by simp⟩
  | some r =>
    obtain ⟨t, ds, ht, hmap⟩ := processChatMsg_ok h ha hid hname hroom lost
    have hr := h.membership.current a ha r hroom
    have hne : reached lost.toList (M r) ≠ [] :=
      reached_ne_nil ((h.membership.mem r hr a).mpr ⟨ha, hroom⟩)
    refine ⟨t, ds, ht, ?_⟩
    rw [all_datagrams_iff hne hmap, forwarded_senderOnly_iff (nameAt_length hname)]
    simp

/-- A chat message of a registered member is passed on with nothing but the sender changed
exactly when its name leaves room for the terminator, or `msg_len` begins with a zero byte. -/
theorem relay_frame_iff {c d : Session} (hc : Started c) (hr : Reaches Step c d)
    (ha : d.server.HasMember a) (hid : d.server.idAt a = some (senderId msg))
    (hname : d.server.nameAt a = some name) (lost : Failures) :
    ∃ t ds, processChatMsg d.server (some msg) (sendtoResults lost.toList msg.length) =
        .ok (t, ds) ∧
      ((∀ x ∈ ds, SenderOnly msg x.data) ↔ d.server.roomAt a = none ∨
        name.length < maxMemberNameLen ∨ msg.getD maxMemberNameLen 0 = 0) := by
  obtain ⟨L, R, M, h⟩ := inv_of_reaches hc hr
  exact h.relayed (h.registry.hasMember_iff.mp ha) hid hname lost

theorem relay_frame_iff_ann : ∃ d, Reaches Step twoRooms d ∧ ∃ t ds,
    processChatMsg d.server (some greeting) (sendtoResults noFailure.toList greeting.length) =
      .ok (t, ds) ∧
    ((∀ x ∈ ds, SenderOnly greeting x.data) ↔ d.server.roomAt 12288 = none ∨
      (text "ann").length < maxMemberNameLen ∨ greeting.getD maxMemberNameLen 0 = 0) := by
  obtain ⟨d, hr, ⟨ha, hid, -⟩, hann, -⟩ := twoMembers_reached
  exact ⟨d, hr, relay_frame_iff twoRooms_started hr ha (hid.trans (by decide)) hann noFailure⟩

/-- A member with a name of 24 characters registers and switches to the first room. -/
def longName : List Op :=
  [.control firstEnv (request registerRequest 0
      (store16 (htons 7001) ++ text "a-name-of-24-characters." ++ [0])),
    .control ⟨0, none, []⟩ (request switchRoomRequest 1 (text "A" ++ [0]))]

/-- A chat message of 300 bytes, as its `msg_len` says. -/
def longMsg : Bytes :=
  store16 (htons 1) ++ List.replicate 22 0 ++ store16 (htons 300) ++ List.replicate 274 97

/-- The terminator of the name lies in `msg_len`, which is changed from 300 to 44. -/
theorem relay_overwrites_length : ∃ d t ds, Started twoRooms ∧ Reaches Step twoRooms d ∧
    d.server.HasMember 12288 ∧ d.server.idAt 12288 = some (senderId longMsg) ∧
    processChatMsg d.server (some longMsg) (sendtoResults noFailure.toList longMsg.length) =
      .ok (t, ds) ∧ ¬∀ x ∈ ds, SenderOnly longMsg x.data := by
  obtain ⟨run, hrun, hh⟩ := ok_of_map (c := rounds twoRooms longName)
    (f := fun run => run.getLast?.map fun x : Event × Session =>
      (x.2.server.placed 12288 1 4096, x.2.server.nameAt 12288))
    (b := some (true, some (text "a-name-of-24-characters."))) (by decide +kernel)
  obtain ⟨x, hx, he⟩ := Option.map_eq_some_iff.mp hh
  simp only [Prod.mk.injEq] at he
  obtain ⟨hplaced, hname⟩ := he
  have hr := (rounds_along hrun).reaches x (List.mem_of_getLast? hx)
  obtain ⟨L, R, M, h⟩ := inv_of_reaches twoRooms_started hr
  obtain ⟨ha, hid, hroom⟩ := h.of_placed hplaced
  have hid : x.2.server.idAt 12288 = some (senderId longMsg) := hid.trans (by decide)
  obtain ⟨t, ds, ht, hiff⟩ := h.relayed (h.registry.hasMember_iff.mp ha) hid hname noFailure
  refine ⟨x.2, t, ds, twoRooms_started, hr, ha, hid, ht, fun hall => ?_⟩
  rw [hiff, hroom] at hall
  exact absurd hall (by decide)

end Relay

section Control
variable {id type : UInt16} {msgLen : Nat} {heap : Bytes}

/-- The two bytes of a number in network order. -/
def networkOrder (n : Nat) : Bytes := [UInt8.ofNat (n / 256), UInt8.ofNat (n % 256)]

/-- A control message of the given length on the wire: its type, the member's id and its length, two
reserved bytes, and the payload cut or padded with zeros. -/
def controlFrame (memberId type : UInt16) (data : Bytes) (msgLen : Nat) : Bytes :=
  networkOrder type.toNat ++ networkOrder memberId.toNat ++ networkOrder msgLen ++ [0, 0] ++
    ((cstr data).take (msgLen - cmhSize) ++
      List.replicate (msgLen - cmhSize - (cstr data).length) 0)

/-- The buffer that `send_ctrl_msg` fills in is the message. -/
theorem controlFrame_eq (hmax : msgLen ≤ maxMsgLen) : controlFrame id type data msgLen =
    controlMsghdr type id msgLen ++ (strncpy (msgLen - cmhSize) data).toList := by
  have hlen : (UInt16.ofNat msgLen).toNat = msgLen := by
    simp only [maxMsgLen] at hmax
    rw [UInt16.toNat_ofNat', Nat.mod_eq_of_lt (by omega : msgLen < 2 ^ 16)]
  have hpayload : (strncpy (msgLen - cmhSize) data).toList =
      (cstr data).take (msgLen - cmhSize) ++
        List.replicate (msgLen - cmhSize - (cstr data).length) 0 := by
    simp [strncpy, Vector.toList, List.take_append]
  rw [controlFrame, hpayload, controlMsghdr]
  simp only [store16_htons, networkOrder, hlen]
  rfl

theorem controlFrame_length (hmin : cmhSize ≤ msgLen) :
    (controlFrame id type data msgLen).length = msgLen := by
  simp only [controlFrame, networkOrder, List.length_append, List.length_cons, List.length_nil,
    List.length_take, List.length_replicate, cmhSize] at hmin ⊢
  omega

theorem sendCtrlMsg_eq (hmax : msgLen ≤ maxMsgLen) : sendCtrlMsg id type data msgLen heap =
    (controlFrame id type data msgLen ++ heap).take (htons (UInt16.ofNat msgLen)).toNat := by
  rw [controlFrame_eq hmax]
  rfl

/-- What `write` is told to send of a message: its length with the bytes exchanged. -/
theorem written_length (hmax : msgLen ≤ maxMsgLen) :
    (htons (UInt16.ofNat msgLen)).toNat = msgLen % 256 * 256 + msgLen / 256 := by
  simp only [maxMsgLen] at hmax
  rw [htons_toNat, UInt16.toNat_ofNat', Nat.mod_eq_of_lt (by omega : msgLen < 2 ^ 16)]

theorem sendCtrlMsg_length (hmin : cmhSize ≤ msgLen) (hmax : msgLen ≤ maxMsgLen)
    (hheap : msgLen % 256 * 256 + msgLen / 256 ≤ msgLen + heap.length) :
    (sendCtrlMsg id type data msgLen heap).length = msgLen % 256 * 256 + msgLen / 256 := by
  rw [sendCtrlMsg_eq hmax, List.length_take, written_length hmax, List.length_append,
    controlFrame_length hmin]
  omega

/-- The memory behind the buffer being such that `write` can read what it is told to send, a
control message is sent exactly when the two bytes of its length are equal. -/
theorem control_frame_iff (hmin : cmhSize ≤ msgLen) (hmax : msgLen ≤ maxMsgLen)
    (hheap : msgLen % 256 * 256 + msgLen / 256 ≤ msgLen + heap.length) :
    sendCtrlMsg id type data msgLen heap = controlFrame id type data msgLen ↔
      msgLen % 256 = msgLen / 256 := by
  constructor
  · intro h
    have hsent := congrArg List.length h
    rw [sendCtrlMsg_length hmin hmax hheap, controlFrame_length hmin] at hsent
    omega
  · intro h
    have hcount : (htons (UInt16.ofNat msgLen)).toNat = msgLen := by
      rw [written_length hmax]
      omega
    rw [sendCtrlMsg_eq hmax, hcount, List.take_left' (controlFrame_length hmin)]

theorem control_frame_iff_257 :
    sendCtrlMsg 1 createRoomRequest (text "room" ++ [0]) 257 [] =
      controlFrame 1 createRoomRequest (text "room" ++ [0]) 257 ↔ 257 % 256 = 257 / 256 :=
  control_frame_iff (by decide) (by decide) (by decide)

/-- Of a request for the room list, 2040 bytes behind the message are sent too; of a message
of 768 bytes only the first 3 are. -/
theorem control_frame_lengths :
    sendCtrlMsg 1 roomListRequest [] 8 (List.replicate 2040 1) =
      controlFrame 1 roomListRequest [] 8 ++ List.replicate 2040 1 ∧
    sendCtrlMsg 1 roomListRequest [] 8 (List.replicate 2040 1) ≠
      controlFrame 1 roomListRequest [] 8 ∧
    sendCtrlMsg 1 createRoomRequest (text "room" ++ [0]) 768 [] =
      (controlFrame 1 createRoomRequest (text "room" ++ [0]) 768).take 3 := by
  decide +kernel

end Control
end Csc469.Chat
