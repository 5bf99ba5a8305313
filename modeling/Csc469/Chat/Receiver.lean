import Csc469.Chat.ChatText

/-! `client_recv.c`: the loop of the receiver, and what its buffer holds of earlier messages. -/
namespace Csc469.Chat

/-- What the client process tells the receiver. -/
inductive Notice where
  | chatQuit
  | switchedChan
  deriving DecidableEq

/-- What `msgrcv` and `recv` return in one turn of the loop: no bytes when there is nothing. -/
structure Turn where
  notice : Option Notice
  datagram : Bytes

/-- `receive_msgs`: what its buffer holds in the end, and what has been displayed. The memory
behind the buffer is not the receiver's. -/
def receiveMsgs (behind : Bytes) : Bytes → List Turn → Bytes × List Bytes
  | buf, [] => (buf, [])
  | buf, turn :: rest =>
    if turn.notice = some .chatQuit then (buf, [])
    else
      let banner :=
        if turn.notice = some .switchedChan then
          [text "---------- SWITCHED CHANNEL ----------\n\n"]
        else []
      if turn.datagram = [] then
        let (last, shown) := receiveMsgs behind buf rest
        (last, banner ++ shown)
      else
        let buf := received buf turn.datagram
        let (last, shown) := receiveMsgs behind buf rest
        (last, banner ++ handleReceivedMsg (buf ++ behind) :: shown)

/-- The loop goes on after these turns. -/
def GoesOn (history : List Turn) : Prop := ∀ turn ∈ history, turn.notice ≠ some .chatQuit

/-- The memory from the buffer on when `d` has been received after the history. -/
def memoryAt (behind buf : Bytes) (history : List Turn) (d : Bytes) : Bytes :=
  received (receiveMsgs behind buf history).1 d ++ behind

/-- What `handle_received_msg` displays as the name of the sender. -/
def shownName (mem : Bytes) : Bytes := cstr mem

/-- What `handle_received_msg` displays as the text. -/
def shownText (mem : Bytes) : Bytes :=
  printed ((chatMsgLen mem).toNat - chatMsghdrSize) (mem.drop chatMsghdrSize)

/-- Whatever was received before `d`, the same is displayed for it, and only bytes of `d`. -/
def ShowsOnly (d : Bytes) : Prop :=
  ∀ behind buf : Bytes, buf.length = maxMsgLen → ∀ h₁ h₂, GoesOn h₁ → GoesOn h₂ →
    (receiveMsgs behind buf (h₁ ++ [⟨none, d⟩])).2.getLast? =
      (receiveMsgs behind buf (h₂ ++ [⟨none, d⟩])).2.getLast? ∧
    shownName (memoryAt behind buf h₁ d) <+: d ∧
    shownText (memoryAt behind buf h₁ d) <+: d.drop chatMsghdrSize

/-- The datagram has a zero byte, and one in its text unless `msg_len` ends the text. -/
def Terminated (d : Bytes) : Prop :=
  0 ∈ d ∧ (0 ∈ d.drop chatMsghdrSize ∨
    (chatMsghdrSize ≤ (chatMsgLen d).toNat ∧ (chatMsgLen d).toNat ≤ d.length))

variable {b d mem behind buf old rest : Bytes} {y : UInt8} {p : Int} {history : List Turn}

theorem handleReceivedMsg_shown :
    handleReceivedMsg mem = shownName mem ++ text ": " ++ shownText mem := rfl

/-! The loop. -/

/-- A datagram is displayed from the memory it lies in. -/
theorem receiveMsgs_concat (hgo : GoesOn history) (hd : d ≠ []) :
    (receiveMsgs behind buf (history ++ [⟨none, d⟩])).2 =
      (receiveMsgs behind buf history).2 ++ [handleReceivedMsg (memoryAt behind buf history d)] := by
  induction history generalizing buf with
  | nil => simp [receiveMsgs, memoryAt, hd]
  | cons turn rest ih =>
    have hturn := hgo turn (by simp)
    have hrest : GoesOn rest := fun turn' h' => hgo turn' (by simp [h'])
    simp only [List.cons_append, receiveMsgs, memoryAt, if_neg hturn] at ih ⊢
    split
    · rw [ih hrest, List.append_assoc]
    · rw [ih hrest, List.append_assoc]
      rfl

theorem received_eq (h : d.length ≤ maxMsgLen) : received old d = d ++ old.drop d.length := by
  rw [received, List.take_of_length_le h]

/-! What is displayed. -/

theorem cstr_beyond (h0 : 0 ∉ b) (hy : y ≠ 0) : b.length < (cstr (b ++ y :: rest)).length := by
  rw [cstr_append h0, List.length_append, cstr, List.takeWhile_cons]
  simp [hy]

theorem printed_initial : printed p b <+: b := by
  unfold printed
  split
  · exact List.takeWhile_prefix _
  · exact (List.takeWhile_prefix _).trans (List.take_prefix _ _)

/-- The text ends within `b`: at a zero byte, or because no more is to be printed. -/
theorem printed_append (h : 0 ∈ b ∨ (0 ≤ p ∧ p ≤ b.length)) : printed p (b ++ rest) = printed p b := by
  unfold printed
  split
  · exact cstr_append_of_mem (h.resolve_right (by omega))
  · rcases Nat.le_total p.toNat b.length with hle | hge
    · rw [List.take_append_of_le_length hle]
    · rcases h with h | h
      · rw [List.take_append, List.take_of_length_le hge, cstr_append_of_mem h]
      · rw [show p.toNat = b.length by omega, List.take_left, List.take_length]

/-- Otherwise it goes on behind `b`, unless a zero byte comes first there. -/
theorem printed_beyond (h0 : 0 ∉ b) (hp : ¬(0 ≤ p ∧ p ≤ b.length)) (hy : y ≠ 0) :
    b.length < (printed p (b ++ y :: rest)).length := by
  unfold printed
  split
  · exact cstr_beyond h0 hy
  · obtain ⟨k, hk⟩ : ∃ k, p.toNat = b.length + (k + 1) :=
      ⟨p.toNat - b.length - 1, by omega⟩
    rw [hk, List.take_length_add_append, List.take_succ_cons]
    exact cstr_beyond h0 hy

theorem chatMsgLen_append (h : chatMsghdrSize ≤ d.length) :
    chatMsgLen (d ++ rest) = chatMsgLen d := by
  have h24 : maxMemberNameLen < d.length := Nat.lt_of_lt_of_le (by decide) h
  have h25 : maxMemberNameLen + 1 < d.length := Nat.lt_of_lt_of_le (by decide) h
  simp [chatMsgLen, load16, List.getElem?_append_left h24, List.getElem?_append_left h25]

theorem shownText_append (h : chatMsghdrSize ≤ d.length) :
    shownText (d ++ rest) =
      printed ((chatMsgLen d).toNat - chatMsghdrSize) (d.drop chatMsghdrSize ++ rest) := by
  rw [shownText, chatMsgLen_append h, List.drop_append_of_le_length h]

/-- The precision that is passed for the text is within the text that was received. -/
theorem precision_iff (h : chatMsghdrSize ≤ d.length) :
    (0 ≤ ((chatMsgLen d).toNat : Int) - chatMsghdrSize ∧
      ((chatMsgLen d).toNat : Int) - chatMsghdrSize ≤ (d.drop chatMsghdrSize).length) ↔
    chatMsghdrSize ≤ (chatMsgLen d).toNat ∧ (chatMsgLen d).toNat ≤ d.length := by
  rw [List.length_drop]
  omega

theorem Terminated.shown (ht : Terminated d) (h : chatMsghdrSize ≤ d.length) :
    shownName (d ++ rest) = shownName d ∧ shownText (d ++ rest) = shownText d := by
  refine ⟨cstr_append_of_mem ht.1, ?_⟩
  rw [shownText_append h, printed_append (ht.2.imp_right (precision_iff h).mpr)]
  rfl

/-- Without a terminator bytes behind the datagram are displayed. -/
theorem not_terminated_shown (ht : ¬Terminated d) (h : chatMsghdrSize ≤ d.length) (hy : y ≠ 0) :
    ¬(shownName (d ++ y :: rest) <+: d ∧
      shownText (d ++ y :: rest) <+: d.drop chatMsghdrSize) := by
  rintro ⟨hname, htext⟩
  by_cases h0 : 0 ∈ d
  · have hno := not_or.mp fun hex => ht ⟨h0, hex⟩
    have hbeyond : (d.drop chatMsghdrSize).length < (shownText (d ++ y :: rest)).length := by
      rw [shownText_append h]
      exact printed_beyond hno.1 (mt (precision_iff h).mp hno.2) hy
    exact absurd htext.length_le (Nat.not_le.mpr hbeyond)
  · exact absurd hname.length_le (Nat.not_le.mpr (cstr_beyond h0 hy))

/-- For a datagram with its header the display shows only that datagram, whatever came before
it and whatever is behind the buffer, exactly when the datagram is terminated. -/
theorem shows_only_iff (hmin : chatMsghdrSize ≤ d.length) (hmax : d.length ≤ maxMsgLen) :
    ShowsOnly d ↔ Terminated d := by
  have hd : d ≠ [] := by
    rintro rfl
    exact absurd hmin (by decide)
  constructor
  · intro hs
    by_contra ht
    have hlen : (List.replicate maxMsgLen (1 : UInt8)).length = maxMsgLen := List.length_replicate
    have hnone : GoesOn [] := fun _ h => (nomatch h)
    obtain ⟨-, hshown⟩ := hs [1] _ hlen [] [] hnone hnone
    have hmem : memoryAt [1] (List.replicate maxMsgLen 1) [] d =
        d ++ 1 :: List.replicate (maxMsgLen - d.length) 1 := by
      rw [memoryAt, receiveMsgs, received_eq hmax, List.append_assoc, List.drop_replicate,
        ← List.replicate_succ', List.replicate_succ]
    rw [hmem] at hshown
    exact not_terminated_shown ht hmin (by decide) hshown
  · intro ht behind buf _ h₁ h₂ hgo₁ hgo₂
    have hmem : ∀ history, shownName (memoryAt behind buf history d) = shownName d ∧
        shownText (memoryAt behind buf history d) = shownText d := by
      intro history
      rw [memoryAt, received_eq hmax, List.append_assoc]
      exact ht.shown hmin
    refine ⟨?_, ?_, ?_⟩
    · rw [receiveMsgs_concat hgo₁ hd, receiveMsgs_concat hgo₂ hd, List.getLast?_concat,
        List.getLast?_concat, handleReceivedMsg_shown, handleReceivedMsg_shown, (hmem h₁).1,
        (hmem h₁).2, (hmem h₂).1, (hmem h₂).2]
    · rw [(hmem h₁).1]
      exact List.takeWhile_prefix _
    · rw [(hmem h₁).2]
      exact printed_initial

theorem shows_only_iff_hi : ShowsOnly (nameField (text "ann") (List.replicate 24 0) ++
      (store16 (htons 28) ++ text "hi")) ↔
    Terminated (nameField (text "ann") (List.replicate 24 0) ++
      (store16 (htons 28) ++ text "hi")) :=
  shows_only_iff (by decide) (by decide)

/-- A text of one member, and then a message of another that is shorter than its `msg_len`. -/
def earlier : Bytes :=
  nameField (text "ann") (List.replicate 24 0) ++ (store16 (htons 38) ++ text "my password\n")

def tooShort : Bytes :=
  nameField (text "bob") (List.replicate 24 0) ++ (store16 (htons 60) ++ text "hi")

/-- The end of the first text is displayed with the second. -/
theorem earlier_text_displayed :
    (receiveMsgs [0] (List.replicate maxMsgLen 0) ([] ++ [⟨none, tooShort⟩])).2.getLast? =
      some (text "bob: hi") ∧
    (receiveMsgs [0] (List.replicate maxMsgLen 0)
      ([⟨none, earlier⟩] ++ [⟨none, tooShort⟩])).2.getLast? =
      some (text "bob: hi password\n") ∧ ¬ShowsOnly tooShort := by
  have halone : (receiveMsgs [0] (List.replicate maxMsgLen 0)
      ([] ++ [⟨none, tooShort⟩])).2.getLast? = some (text "bob: hi") := by decide +kernel
  have hafter : (receiveMsgs [0] (List.replicate maxMsgLen 0)
      ([⟨none, earlier⟩] ++ [⟨none, tooShort⟩])).2.getLast? =
      some (text "bob: hi password\n") := by decide +kernel
  refine ⟨halone, hafter, fun hs => ?_⟩
  obtain ⟨hsame, -⟩ := hs [0] (List.replicate maxMsgLen 0) List.length_replicate []
    [⟨none, earlier⟩] (fun _ h => (nomatch h)) (by simp [GoesOn])
  rw [halone, hafter] at hsame
  exact absurd hsame (by decide)

end Csc469.Chat
