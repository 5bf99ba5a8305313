import Csc469.Chat.Relay

/-! A line of chat: typed in, sent to the server, passed on and displayed. -/
namespace Csc469.Chat

open Execution Linked

/-- `sizeof(struct chat_msghdr)`: the sender and the length. -/
def chatMsghdrSize : Nat := 26

def maxMsgdata : Nat := maxMsgLen - chatMsghdrSize

def newline : UInt8 := 10

/-- The bytes that `fgets` reads, with room for `n`: up to a newline or the end of the input. -/
def fgetsLoop : Nat → Bytes → Bytes
  | 0, _ => []
  | _, [] => []
  | n + 1, c :: input => if c = newline then [c] else c :: fgetsLoop n input

/-- `fgets` into an array of `size` chars: the line, or none at the end of the input. -/
def fgets (size : Nat) (input : Bytes) : Option Bytes :=
  if input = [] then none else some (fgetsLoop (size - 1) input)

/-- `get_user_input`: `user_input_buffer`, zeroed before the line is read into it. -/
def getUserInput (input : Bytes) : Option Bytes :=
  (fgets maxMsgdata input).map fun line => line ++ List.replicate (maxMsgdata - line.length) 0

/-- `handle_chatmsg_input`: the datagram for the server. -/
def handleChatmsgInput (memberId : UInt16) (inputdata : Bytes) : Bytes :=
  let size := UInt16.ofNat ((cstr inputdata).length + chatMsghdrSize + 1)
  let sender := store16 (htons memberId) ++ List.replicate (maxMemberNameLen - 2) 0
  let buf := sender ++ store16 (htons size) ++ (strncpy maxMsgLen inputdata).toList
  buf.take size.toNat

/-- `msg_len` of a chat message. -/
def chatMsgLen (msg : Bytes) : UInt16 := htons (load16 msg maxMemberNameLen)

/-- `recv` into a buffer of `MAX_MSG_LEN` bytes. -/
def received (buf data : Bytes) : Bytes := data.take maxMsgLen ++ buf.drop data.length

/-- `printf` of a string with a precision: a negative one is ignored. -/
def printed (precision : Int) (s : Bytes) : Bytes :=
  if precision < 0 then cstr s else cstr (s.take precision.toNat)

/-- `handle_received_msg`: what it displays. -/
def handleReceivedMsg (buf : Bytes) : Bytes :=
  cstr buf ++ text ": " ++
    printed ((chatMsgLen buf).toNat - chatMsghdrSize) (buf.drop chatMsghdrSize)

variable {s : Server} {L R : List Nat} {M : Nat → List Nat} {a r n : Nat} {id : UInt16}
  {line input inputdata name msg data old rest : Bytes} {lost : Failures}

theorem fgetsLoop_length : (fgetsLoop n input).length ≤ n := by
  induction input generalizing n with
  | nil => cases n <;> simp [fgetsLoop]
  | cons c input ih =>
    cases n with
    | zero => simp [fgetsLoop]
    | succ n =>
      rw [fgetsLoop]
      split
      · simp
      · simpa using ih

/-- A line that fits is read with its newline. -/
theorem fgetsLoop_line (hnl : newline ∉ line) (hn : line.length < n) :
    fgetsLoop n (line ++ newline :: rest) = line ++ [newline] := by
  induction line generalizing n with
  | nil =>
    obtain ⟨n, rfl⟩ := Nat.exists_eq_add_one.mpr hn
    rfl
  | cons c line ih =>
    obtain ⟨n, rfl⟩ := Nat.exists_eq_add_one.mpr (Nat.zero_lt_of_lt hn)
    simp only [List.mem_cons, not_or] at hnl
    rw [List.cons_append, fgetsLoop, if_neg (Ne.symm hnl.1),
      ih hnl.2 (Nat.lt_of_succ_lt_succ hn), List.cons_append]

/-- A line leaves room for its terminator. -/
theorem fgets_length (h : fgets n input = some line) : line.length ≤ n - 1 := by
  unfold fgets at h
  split at h
  · cases h
  · cases h
    exact fgetsLoop_length

/-- The line that is typed in is the string in the buffer. -/
theorem getUserInput_line (h : fgets maxMsgdata input = some line) (h0 : 0 ∉ line) :
    ∃ buf, getUserInput input = some buf ∧ cstr buf = line := by
  have hlen := fgets_length h
  obtain ⟨k, hk⟩ : ∃ k, maxMsgdata - line.length = k + 1 :=
    Nat.exists_eq_add_one.mpr (by simp only [maxMsgdata, maxMsgLen, chatMsghdrSize] at hlen ⊢; omega)
  refine ⟨line ++ List.replicate (k + 1) 0, ?_, cstr_append_zero h0 _⟩
  rw [getUserInput, h, Option.map_some, hk]

/-- A chat message: the sender, the length, and the text with its terminator. -/
def chatMsg (sender : Bytes) (size : UInt16) (line : Bytes) : Bytes :=
  sender ++ (store16 (htons size) ++ (line ++ [0]))

/-- The size of the message for a line, as `msg_len` has it. -/
def chatSize (line : Bytes) : UInt16 := UInt16.ofNat (line.length + chatMsghdrSize + 1)

/-- The sender's field as the client fills it in. -/
def idField (id : UInt16) : Bytes := store16 (htons id) ++ List.replicate (maxMemberNameLen - 2) 0

/-- The same field as the server fills it in: what it does not overwrite stays. -/
def nameField (name sender : Bytes) : Bytes := name ++ 0 :: sender.drop (name.length + 1)

theorem chatSize_toNat (h : line.length ≤ maxMsgdata - 1) :
    (chatSize line).toNat = line.length + 27 := by
  simp only [maxMsgdata, maxMsgLen, chatMsghdrSize] at h
  rw [chatSize, UInt16.toNat_ofNat', chatMsghdrSize, Nat.mod_eq_of_lt]
  omega

theorem chatMsg_length {sender : Bytes} {size : UInt16} (h : sender.length = maxMemberNameLen) :
    (chatMsg sender size line).length = line.length + 27 := by
  simp only [chatMsg, List.length_append, h, maxMemberNameLen]
  simp [store16]
  omega

theorem idField_length : (idField id).length = maxMemberNameLen := rfl

theorem senderId_chatMsg {size : UInt16} : senderId (chatMsg (idField id) size line) = id := by
  have h := load16_store16 (x := htons id) [] (List.replicate (maxMemberNameLen - 2) 0 ++
    (store16 (htons size) ++ (line ++ [0])))
  rw [senderId, chatMsg, idField, List.append_assoc]
  exact (congrArg htons h).trans htons_htons

/-- A line that fits is sent with its terminator, and nothing behind it. -/
theorem handleChatmsgInput_eq (h : cstr inputdata = line) (hlen : line.length ≤ maxMsgdata - 1) :
    handleChatmsgInput id inputdata = chatMsg (idField id) (chatSize line) line := by
  have hbound : (cstr inputdata).length ≤ maxMsgLen := by
    rw [h]
    exact hlen.trans (by decide)
  have hcopy := strncpy_toList hbound
  obtain ⟨k, hk⟩ : ∃ k, maxMsgLen - line.length = k + 1 :=
    Nat.exists_eq_add_one.mpr (by simp only [maxMsgdata, maxMsgLen, chatMsghdrSize] at hlen ⊢; omega)
  rw [h, hk, List.replicate_succ] at hcopy
  have hbuf : idField id ++ store16 (htons (chatSize line)) ++ (strncpy maxMsgLen inputdata).toList =
      chatMsg (idField id) (chatSize line) line ++ List.replicate k 0 := by
    rw [hcopy]
    simp [chatMsg]
  have hsize : (chatSize line).toNat = (chatMsg (idField id) (chatSize line) line).length := by
    rw [chatSize_toNat hlen, chatMsg_length idField_length]
  have htake : (idField id ++ store16 (htons (chatSize line)) ++
      (strncpy maxMsgLen inputdata).toList).take (chatSize line).toNat =
        chatMsg (idField id) (chatSize line) line := by
    rw [hbuf, hsize, List.take_left']
    rfl
  rw [← htake, handleChatmsgInput, h]
  rfl

/-- The server puts the name of the sender in place of its id and changes nothing else. -/
theorem forwarded_chatMsg {sender : Bytes} {size : UInt16} (hs : sender.length = maxMemberNameLen)
    (hname : name.length < maxMemberNameLen) :
    forwarded name (chatMsg sender size line) = chatMsg (nameField name sender) size line := by
  have hdrop : ∀ rest : Bytes, (sender ++ rest).drop (name.length + 1) =
      sender.drop (name.length + 1) ++ rest := fun rest =>
    List.drop_append_of_le_length (by omega)
  have hlen : (chatMsg (nameField name sender) size line).length =
      (chatMsg sender size line).length := by
    have hfield : (nameField name sender).length = maxMemberNameLen := by
      simp only [nameField, List.length_append, List.length_cons, List.length_drop]
      omega
    rw [chatMsg_length hfield, chatMsg_length hs]
  have hbuf : withName name (chatMsg sender size line) = chatMsg (nameField name sender) size line ++
      List.replicate (maxMsgLen - (chatMsg sender size line).length) 0 := by
    simp only [withName, chatMsg, nameField, List.length_append, List.length_cons, List.length_nil,
      Nat.zero_add, List.append_assoc, hdrop, List.cons_append, List.nil_append]
  rw [forwarded, hbuf, List.take_left' hlen]

/-- What a member displays of a message in its buffer, whatever is behind it. -/
theorem handleReceivedMsg_eq {sender : Bytes} (hs : sender.length = maxMemberNameLen)
    (hname : cstr (sender ++ rest) = name) (hlen : line.length ≤ maxMsgdata - 1) (h0 : 0 ∉ line)
    (hrest : rest = store16 (htons (chatSize line)) ++ (line ++ 0 :: old)) :
    handleReceivedMsg (sender ++ rest) = name ++ text ": " ++ line := by
  have hmsgLen : chatMsgLen (sender ++ rest) = chatSize line := by
    rw [chatMsgLen, ← hs, hrest, load16_store16, htons_htons]
  have hdata : (sender ++ rest).drop chatMsghdrSize = line ++ 0 :: old := by
    have hhdr : (sender ++ store16 (htons (chatSize line))).length = chatMsghdrSize := by
      rw [List.length_append, hs]
      rfl
    rw [hrest, ← List.append_assoc, List.drop_left' hhdr]
  have hprec : ((chatMsgLen (sender ++ rest)).toNat : Int) - chatMsghdrSize =
      (line.length + 1 : Nat) := by
    rw [hmsgLen, chatSize_toNat hlen, chatMsghdrSize]
    omega
  have htake : (line ++ 0 :: old).take (line.length + 1) = line ++ 0 :: [] := by
    rw [List.take_length_add_append]
    rfl
  rw [handleReceivedMsg, hname, hdata, hprec, printed, if_neg (by omega), Int.toNat_natCast, htake,
    cstr_append_zero h0]

/-- The message fits into the buffers on its way. -/
theorem handleReceivedMsg_received {sender : Bytes} (hs : sender.length = maxMemberNameLen)
    (hname : name.length < maxMemberNameLen) (h0name : 0 ∉ name)
    (hlen : line.length ≤ maxMsgdata - 1) (h0 : 0 ∉ line) :
    handleReceivedMsg (received old (chatMsg (nameField name sender) (chatSize line) line)) =
      name ++ text ": " ++ line := by
  have hfield : (nameField name sender).length = maxMemberNameLen := by
    simp only [nameField, List.length_append, List.length_cons, List.length_drop]
    omega
  have hfits : (chatMsg (nameField name sender) (chatSize line) line).length ≤ maxMsgLen := by
    rw [chatMsg_length hfield]
    simp only [maxMsgdata, maxMsgLen, chatMsghdrSize] at hlen ⊢
    omega
  rw [received, List.take_of_length_le hfits, chatMsg, List.append_assoc]
  refine handleReceivedMsg_eq hfield ?_ hlen h0 (by simp; rfl)
  rw [nameField, List.append_assoc, List.cons_append, cstr_append_zero h0name]

theorem zero_notMem_nameAt (h : s.nameAt a = some name) : 0 ∉ name := by
  obtain ⟨mt, -, rfl⟩ := Option.map_eq_some_iff.mp h
  exact zero_notMem_cstr

/-- A line of a registered member with a name of at most 23 characters: the datagram fits and
says how long it is, the server passes it on whole, and each member of the room displays the
name and the line. -/
theorem chat_text_displayed {c d : Session} (hc : Started c) (hr : Reaches Step c d)
    (ha : d.server.HasMember a) (hid : d.server.idAt a = some id)
    (hname : d.server.nameAt a = some name) (hlen : name.length < maxMemberNameLen)
    (hroom : d.server.roomAt a = some r) (hline : fgets maxMsgdata input = some line)
    (h0 : 0 ∉ line) :
    ∃ buf, getUserInput input = some buf ∧
      (handleChatmsgInput id buf).length ≤ maxMsgLen ∧
      (chatMsgLen (handleChatmsgInput id buf)).toNat = (handleChatmsgInput id buf).length ∧
      ∀ lost : Failures, ∃ t ds,
        processChatMsg d.server (some ((handleChatmsgInput id buf).take maxMsgLen))
          (sendtoResults lost.toList (handleChatmsgInput id buf).length) = .ok (t, ds) ∧
        (∀ x ∈ ds, x.data.length = (handleChatmsgInput id buf).length ∧
          (∃ b, d.server.HasMember b ∧ d.server.roomAt b = some r ∧
            d.server.datagramTo x.data b = some x) ∧
          ∀ old, handleReceivedMsg (received old x.data) = name ++ text ": " ++ line) ∧
        (d.server.SendsReachRoom r lost →
          d.server.SentToRoom r (handleChatmsgInput id buf).length ds) := by
  obtain ⟨L, R, M, h⟩ := inv_of_reaches hc hr
  have ha := h.registry.hasMember_iff.mp ha
  have hrR := h.membership.current a ha r hroom
  obtain ⟨buf, hbuf, hstr⟩ := getUserInput_line hline h0
  have hfits := fgets_length hline
  have hmsg : handleChatmsgInput id buf = chatMsg (idField id) (chatSize line) line :=
    handleChatmsgInput_eq hstr hfits
  have hmsglen : (handleChatmsgInput id buf).length = line.length + 27 := by
    rw [hmsg, chatMsg_length idField_length]
  have hle : (handleChatmsgInput id buf).length ≤ maxMsgLen := by
    rw [hmsglen]
    simp only [maxMsgdata, maxMsgLen, chatMsghdrSize] at hfits ⊢
    omega
  refine ⟨buf, hbuf, hle, ?_, fun lost => ?_⟩
  · have hfield : (idField id).length = maxMemberNameLen := idField_length
    rw [hmsglen, hmsg, chatMsgLen, chatMsg, ← hfield, load16_store16, htons_htons,
      chatSize_toNat hfits]
  · rw [List.take_of_length_le hle]
    have hsender : senderId (handleChatmsgInput id buf) = id := by rw [hmsg, senderId_chatMsg]
    obtain ⟨t, ds, hp, hmap⟩ := processChatMsg_ok h ha (hid.trans (by rw [hsender])) hname hroom lost
    refine ⟨t, ds, hp, fun x hx => ?_, fun hall => ?_⟩
    swap
    · exact (h.sentToRoom_iff hrR forwarded_length hmap).mpr hall
    obtain ⟨b, hb, hd⟩ : ∃ b ∈ reached lost.toList (M r),
        d.server.datagramTo (forwarded name (handleChatmsgInput id buf)) b = some x := by
      have : some x ∈ ds.map some := List.mem_map_of_mem hx
      rw [hmap] at this
      simpa using this
    have hdata : x.data = forwarded name (handleChatmsgInput id buf) := by
      obtain ⟨mt, -, rfl⟩ := Option.map_eq_some_iff.mp hd
      rfl
    obtain ⟨hbm, hbr⟩ := (h.hasMember_room_iff hrR).mp (reached_initial.subset hb)
    refine ⟨by rw [hdata, forwarded_length], ⟨b, hbm, hbr, hdata ▸ hd⟩, fun old => ?_⟩
    rw [hdata, hmsg, forwarded_chatMsg idField_length hlen]
    exact handleReceivedMsg_received idField_length hlen (zero_notMem_nameAt hname) hfits h0

theorem chat_text_displayed_ann : ∃ d, Reaches Step twoRooms d ∧
    ∃ name, d.server.nameAt 12288 = some name ∧ ∃ buf, getUserInput (text "hi\n") = some buf ∧
      (handleChatmsgInput 1 buf).length ≤ maxMsgLen ∧
      (chatMsgLen (handleChatmsgInput 1 buf)).toNat = (handleChatmsgInput 1 buf).length ∧
      ∀ lost : Failures, ∃ t ds,
        processChatMsg d.server (some ((handleChatmsgInput 1 buf).take maxMsgLen))
          (sendtoResults lost.toList (handleChatmsgInput 1 buf).length) = .ok (t, ds) ∧
        (∀ x ∈ ds, x.data.length = (handleChatmsgInput 1 buf).length ∧
          (∃ b, d.server.HasMember b ∧ d.server.roomAt b = some 4096 ∧
            d.server.datagramTo x.data b = some x) ∧
          ∀ old, handleReceivedMsg (received old x.data) = name ++ text ": " ++ text "hi\n") ∧
        (d.server.SendsReachRoom 4096 lost →
          d.server.SentToRoom 4096 (handleChatmsgInput 1 buf).length ds) := by
  obtain ⟨d, hr, ⟨ha, hid, hroom⟩, hann, -⟩ := twoMembers_reached
  exact ⟨d, hr, text "ann", hann, chat_text_displayed twoRooms_started hr ha hid hann (by decide)
    hroom (by decide +kernel) (by decide +kernel)⟩

end Csc469.Chat
