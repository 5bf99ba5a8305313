import Csc469.Chat.ChatText
import Csc469.Chat.Client

/-! The commands of the chat client: what a line after `!` asks the server for. -/
namespace Csc469.Chat

/-- The handlers that `handle_command_input` calls, with the room name they are given. -/
inductive Command where
  | roomList
  | createRoom (roomName : Bytes)
  | memberList (roomName : Bytes)
  | switchRoom (roomName : Bytes)
  | quit
  deriving DecidableEq

/-- The characters of `" \t\n"`. -/
def isWhitespace (b : UInt8) : Bool := b = 32 ∨ b = 9 ∨ b = newline

/-- `strcspn(line, " \t\n")` -/
def wordLength (line : Bytes) : Nat := (line.takeWhile fun b => !isWhitespace b).length

def formatError (cmd : UInt8) (rest : String) : Bytes :=
  text "Error in command format: !" ++ [cmd] ++ text rest

/-- The first `switch`, on the command and what follows it: the message it prints, or what it
passes on. -/
def checkFormat (cmd : UInt8) (line : Bytes) : Except Bytes Bytes :=
  if [cmd] = text "r" ∨ [cmd] = text "q" then
    if line.length ≠ 0 then .error (formatError cmd " should not be followed by anything.\n")
    else .ok line
  else if [cmd] = text "c" ∨ [cmd] = text "m" ∨ [cmd] = text "s" then
    if line.headD 0 ≠ 32 then
      .error (formatError cmd " should be followed by a space and a room name.\n")
    else
      let line := line.drop 1
      if line.length ≠ wordLength line then
        .error (text "Error in command format: line contains extra whitespace" ++
          text " (space, tab or carriage return)\n")
      else if line.length > maxRoomNameLen then
        .error (text "Error in command format: name must not exceed 24 characters.\n")
      else .ok line
  else .error (text "Error: unrecognized command !" ++ [cmd] ++ text "\n")

/-- The second `switch`. -/
def dispatch (cmd : UInt8) (line : Bytes) : Option Command :=
  if [cmd] = text "r" then some .roomList
  else if [cmd] = text "c" then some (.createRoom line)
  else if [cmd] = text "m" then some (.memberList line)
  else if [cmd] = text "s" then some (.switchRoom line)
  else if [cmd] = text "q" then some .quit
  else none

/-- The client after a line, the request it has issued and the error it has printed. -/
structure CommandResult where
  client : Client
  issued : Option Command
  printed : Option Bytes

/-- `handle_command_input`. `issue` is what a request does to the client: the handler, and
`reconnect` when the connection has failed. -/
def handleCommandInput (issue : Command → Client → Client) (line : Bytes) (c : Client) :
    CommandResult :=
  let cmd := line.headD 0
  match checkFormat cmd (line.drop 1) with
  | .error message => ⟨c, none, some message⟩
  | .ok arg =>
    match dispatch cmd arg with
    | some q => ⟨issue q c, some q, none⟩
    | none => ⟨c, none, some (text "Error !" ++ [cmd] ++ text " is not a recognized command.\n")⟩

/-- `handle_input` on a line that starts with `!`: a newline at its end is taken off. -/
def commandLine (buf : Bytes) : Bytes :=
  let line := cstr buf
  (if line.getLast? = some newline then line.dropLast else line).drop 1

/-- A room name that has at least `least` characters. -/
structure RoomArgument (least : Nat) (name : Bytes) : Prop where
  long : least ≤ name.length
  short : name.length ≤ maxRoomNameLen
  word : ∀ b ∈ name, isWhitespace b = false

/-- The commands, and what each of them asks for. -/
inductive Grammar (least : Nat) : Bytes → Command → Prop
  | roomList : Grammar least (text "r") .roomList
  | createRoom {name : Bytes} (h : RoomArgument least name) :
    Grammar least (text "c " ++ name) (.createRoom name)
  | memberList {name : Bytes} (h : RoomArgument least name) :
    Grammar least (text "m " ++ name) (.memberList name)
  | switchRoom {name : Bytes} (h : RoomArgument least name) :
    Grammar least (text "s " ++ name) (.switchRoom name)
  | quit : Grammar least (text "q") .quit

/-- The line issues exactly the request that the grammar gives it, and else none. -/
def FollowsGrammar (line : Bytes) : Prop :=
  ∀ issue c,
    (∀ q, (handleCommandInput issue line c).issued = some q ↔ Grammar 1 line q) ∧
      (∀ q, Grammar 1 line q → (handleCommandInput issue line c).client = issue q c) ∧
      ((∀ q, ¬Grammar 1 line q) → (handleCommandInput issue line c).issued = none ∧
        (handleCommandInput issue line c).client.lastChannel = c.lastChannel)

variable {line name rest : Bytes} {least : Nat} {q : Command} {issue : Command → Client → Client}
  {c : Client} {cmd : UInt8}

theorem wordLength_eq : name.length = wordLength name ↔ ∀ b ∈ name, isWhitespace b = false := by
  rw [wordLength, eq_comm, (List.takeWhile_prefix _).sublist.length_eq, List.takeWhile_eq_self_iff]
  simp

theorem roomArgument_zero : RoomArgument 0 name ↔
    name.length = wordLength name ∧ name.length ≤ maxRoomNameLen := by
  rw [wordLength_eq]
  exact ⟨fun h => ⟨h.word, h.short⟩, fun h => ⟨Nat.zero_le _, h.2, h.1⟩⟩

theorem checkFormat_room (hcmd : [cmd] = text "c" ∨ [cmd] = text "m" ∨ [cmd] = text "s") :
    checkFormat cmd rest = .ok name ↔ rest = 32 :: name ∧ RoomArgument 0 name := by
  have hother : ¬([cmd] = text "r" ∨ [cmd] = text "q") := by
    rcases hcmd with h | h | h <;> rw [h] <;> decide
  rw [checkFormat, if_neg hother, if_pos hcmd, roomArgument_zero]
  cases rest with
  | nil => simp
  | cons b rest =>
    by_cases hb : b = 32
    · subst hb
      simp only [List.headD_cons, ne_eq, not_true_eq_false, if_false, List.drop_succ_cons,
        List.drop_zero, List.cons.injEq, true_and]
      split
      · next hword => simp only [reduceCtorEq, false_iff]; rintro ⟨rfl, h, -⟩; exact hword h
      · next hword =>
        split
        · next hlong => simp only [reduceCtorEq, false_iff]; rintro ⟨rfl, -, h⟩; omega
        · next hshort =>
          simp only [Except.ok.injEq]
          constructor
          · rintro rfl
            exact ⟨rfl, not_not.mp hword, by omega⟩
          · exact fun h => h.1
    · simp [hb]

theorem checkFormat_alone (hcmd : [cmd] = text "r" ∨ [cmd] = text "q") :
    checkFormat cmd rest = .ok name ↔ rest = [] ∧ name = [] := by
  rw [checkFormat, if_pos hcmd]
  cases rest with
  | nil => simp [eq_comm]
  | cons b rest => simp

theorem issued_iff_dispatch : (handleCommandInput issue (cmd :: rest) c).issued = some q ↔
    ∃ arg, checkFormat cmd rest = .ok arg ∧ dispatch cmd arg = some q := by
  rw [handleCommandInput]
  simp only [List.headD_cons, List.drop_succ_cons, List.drop_zero]
  cases checkFormat cmd rest with
  | error message => simp
  | ok arg => cases hd : dispatch cmd arg <;> simp [hd]

theorem dispatch_iff {arg : Bytes} : dispatch cmd arg = some q ↔
    cmd = 114 ∧ q = .roomList ∨ cmd = 99 ∧ q = .createRoom arg ∨ cmd = 109 ∧ q = .memberList arg ∨
      cmd = 115 ∧ q = .switchRoom arg ∨ cmd = 113 ∧ q = .quit := by
  have hletter : ∀ x : UInt8, [cmd] = [x] ↔ cmd = x := fun x => by simp
  simp only [dispatch, show text "r" = [114] from rfl, show text "c" = [99] from rfl,
    show text "m" = [109] from rfl, show text "s" = [115] from rfl, show text "q" = [113] from rfl,
    hletter]
  split_ifs with hr hc hm hs hq
  · subst hr
    simp [eq_comm]
  · subst hc
    simp [eq_comm]
  · subst hm
    simp [eq_comm]
  · subst hs
    simp [eq_comm]
  · subst hq
    simp [eq_comm]
  · simp [hr, hc, hm, hs, hq]

/-- What the code accepts is the grammar with room names that may be empty. -/
theorem issued_iff : (handleCommandInput issue line c).issued = some q ↔ Grammar 0 line q := by
  cases line with
  | nil =>
    refine iff_of_false (fun h => ?_) fun h => nomatch h
    simp [handleCommandInput, checkFormat, text] at h
  | cons cmd rest =>
    rw [issued_iff_dispatch]
    constructor
    · rintro ⟨arg, hcheck, hd⟩
      rcases dispatch_iff.mp hd with ⟨rfl, rfl⟩ | ⟨rfl, rfl⟩ | ⟨rfl, rfl⟩ | ⟨rfl, rfl⟩ | ⟨rfl, rfl⟩
      · obtain ⟨rfl, rfl⟩ := (checkFormat_alone (.inl rfl)).mp hcheck
        exact .roomList
      · obtain ⟨rfl, harg⟩ := (checkFormat_room (.inl rfl)).mp hcheck
        exact .createRoom harg
      · obtain ⟨rfl, harg⟩ := (checkFormat_room (.inr (.inl rfl))).mp hcheck
        exact .memberList harg
      · obtain ⟨rfl, harg⟩ := (checkFormat_room (.inr (.inr rfl))).mp hcheck
        exact .switchRoom harg
      · obtain ⟨rfl, rfl⟩ := (checkFormat_alone (.inr rfl)).mp hcheck
        exact .quit
    · intro hg
      generalize hline : cmd :: rest = line at hg
      cases hg with
      | roomList =>
        obtain ⟨rfl, rfl⟩ := List.cons.inj hline
        exact ⟨[], (checkFormat_alone (.inl rfl)).mpr ⟨rfl, rfl⟩, rfl⟩
      | @createRoom name h =>
        obtain ⟨rfl, rfl⟩ := List.cons.inj hline
        exact ⟨name, (checkFormat_room (.inl rfl)).mpr ⟨rfl, h⟩, rfl⟩
      | @memberList name h =>
        obtain ⟨rfl, rfl⟩ := List.cons.inj hline
        exact ⟨name, (checkFormat_room (.inr (.inl rfl))).mpr ⟨rfl, h⟩, rfl⟩
      | @switchRoom name h =>
        obtain ⟨rfl, rfl⟩ := List.cons.inj hline
        exact ⟨name, (checkFormat_room (.inr (.inr rfl))).mpr ⟨rfl, h⟩, rfl⟩
      | quit =>
        obtain ⟨rfl, rfl⟩ := List.cons.inj hline
        exact ⟨[], (checkFormat_alone (.inr rfl)).mpr ⟨rfl, rfl⟩, rfl⟩

/-- The client is what the request leaves, if there is one. -/
theorem client_eq : (handleCommandInput issue line c).client =
    ((handleCommandInput issue line c).issued.map fun q => issue q c).getD c := by
  rw [handleCommandInput]
  generalize line.headD 0 = cmd
  cases checkFormat cmd (line.drop 1) with
  | error message => rfl
  | ok arg => cases hd : dispatch cmd arg <;> simp [hd]

/-- A command letter and a space, with no room name. -/
def NamesNothing (line : Bytes) : Prop :=
  line = text "c " ∨ line = text "m " ∨ line = text "s "

theorem RoomArgument.one_iff : RoomArgument 1 name ↔ RoomArgument 0 name ∧ name ≠ [] := by
  constructor
  · intro h
    exact ⟨⟨Nat.zero_le _, h.short, h.word⟩, List.length_pos_iff.mp h.long⟩
  · rintro ⟨h, hne⟩
    exact ⟨List.length_pos_iff.mpr hne, h.short, h.word⟩

theorem roomArgument_nil : RoomArgument 0 [] := ⟨Nat.zero_le _, Nat.zero_le _, by simp⟩

theorem Grammar.weaken (h : Grammar 1 line q) : Grammar 0 line q := by
  cases h with
  | roomList => exact .roomList
  | createRoom h => exact .createRoom (RoomArgument.one_iff.mp h).1
  | memberList h => exact .memberList (RoomArgument.one_iff.mp h).1
  | switchRoom h => exact .switchRoom (RoomArgument.one_iff.mp h).1
  | quit => exact .quit

theorem Grammar.strengthen (h : Grammar 0 line q) (hne : ¬NamesNothing line) :
    Grammar 1 line q := by
  have hname : ∀ (name letter : Bytes), line = letter ++ name →
      (letter = text "c " ∨ letter = text "m " ∨ letter = text "s ") → name ≠ [] := by
    rintro name letter rfl hletter rfl
    rw [List.append_nil] at hne
    exact hne hletter
  cases h with
  | roomList => exact .roomList
  | createRoom h => exact .createRoom (RoomArgument.one_iff.mpr ⟨h, hname _ _ rfl (.inl rfl)⟩)
  | memberList h =>
    exact .memberList (RoomArgument.one_iff.mpr ⟨h, hname _ _ rfl (.inr (.inl rfl))⟩)
  | switchRoom h =>
    exact .switchRoom (RoomArgument.one_iff.mpr ⟨h, hname _ _ rfl (.inr (.inr rfl))⟩)
  | quit => exact .quit

theorem not_grammar_one (h : NamesNothing line) : ¬Grammar 1 line q := by
  have hlen : line.length = 2 := by rcases h with rfl | rfl | rfl <;> rfl
  intro hg
  cases hg with
  | roomList => cases hlen
  | createRoom ha | memberList ha | switchRoom ha =>
    have hpos := ha.long
    rw [List.length_append] at hlen
    change 2 + _ = 2 at hlen
    omega
  | quit => cases hlen

/-- A line follows the grammar unless it is a command that lacks its room name. -/
theorem command_grammar_iff : FollowsGrammar line ↔ ¬NamesNothing line := by
  constructor
  · intro hf h
    have hissued : ∃ q, Grammar 0 line q := by
      rcases h with rfl | rfl | rfl
      · exact ⟨_, .createRoom roomArgument_nil⟩
      · exact ⟨_, .memberList roomArgument_nil⟩
      · exact ⟨_, .switchRoom roomArgument_nil⟩
    obtain ⟨q, hq⟩ := hissued
    exact not_grammar_one h (((hf (fun _ c => c) ⟨0, [], []⟩).1 q).mp (issued_iff.mpr hq))
  · intro hne issue c
    have hiff : ∀ q, (handleCommandInput issue line c).issued = some q ↔ Grammar 1 line q :=
      fun q => issued_iff.trans ⟨fun h => h.strengthen hne, Grammar.weaken⟩
    refine ⟨hiff, fun q hq => ?_, fun hnone => ?_⟩
    · rw [client_eq, (hiff q).mpr hq]
      rfl
    · have hissued : (handleCommandInput issue line c).issued = none :=
        Option.eq_none_iff_forall_not_mem.mpr fun q hq => hnone q ((hiff q).mp hq)
      rw [client_eq, hissued]
      exact ⟨rfl, rfl⟩

/-- `!s ` asks the server to switch to the room with the empty name. -/
theorem empty_name_accepted :
    (handleCommandInput (fun _ c => c) (text "s ") ⟨1, text "ann", []⟩).issued =
      some (.switchRoom []) ∧ ¬FollowsGrammar (text "s ") := by
  refine ⟨by decide, fun hf => ?_⟩
  have h := ((hf (fun _ c => c) ⟨1, text "ann", []⟩).1 (.switchRoom [])).mp (by decide)
  exact not_grammar_one (.inr (.inr rfl)) h

/-- The line that is typed after `!` is what `handle_command_input` is given. -/
theorem commandLine_typed (h0 : 0 ∉ line) (hnl : newline ∉ line)
    (hfit : line.length + 2 < maxMsgdata) :
    (getUserInput (text "!" ++ line ++ newline :: rest)).map commandLine = some line := by
  have hbang : text "!" = [33] := rfl
  have hnl' : newline ∉ 33 :: line := List.not_mem_cons_of_ne_of_not_mem (by decide) hnl
  have hread : fgets maxMsgdata (33 :: line ++ newline :: rest) = some (33 :: line ++ [newline]) := by
    rw [fgets, if_neg (by simp)]
    refine congrArg some (fgetsLoop_line hnl' ?_)
    simp only [List.length_cons]
    omega
  obtain ⟨buf, hbuf, hstr⟩ := getUserInput_line hread (by simp [h0, newline])
  rw [hbang, List.singleton_append, hbuf, Option.map_some, commandLine, hstr]
  simp only [List.getLast?_concat, if_true, List.dropLast_concat, List.drop_succ_cons,
    List.drop_zero]

end Csc469.Chat
