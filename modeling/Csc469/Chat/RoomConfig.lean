import Csc469.Chat.ChatText
import Csc469.Chat.RoomNames
import Csc469.FirstSeen
import Csc469.Tokens

/-! The configuration file of the chat server: which rooms there are after `init_server`. -/
namespace Csc469.Chat

open Execution Linked Tokens FirstSeen

def maxLineLen : Nat := 256

/-- `fgets` on a stream: the line, what is left of the stream, and whether its end was met. -/
def fgetsStream (size : Nat) (input : Bytes) : Bytes × Bytes × Bool :=
  let line := fgetsLoop (size - 1) input
  (line, input.drop line.length, line.length < size - 1 ∧ line.getLast? ≠ some newline)

/-- The newline at the end of a line is taken off. An empty string has no last character. -/
def stripNewline (line : Bytes) : Call Bytes :=
  let line := cstr line
  if line = [] then .error .fault
  else .ok (if line.getLast? = some newline then line.dropLast else line)

/-- `create_room` in `init_server`: `place` is where `malloc` puts the records, in turn. -/
def createNext (place : Nat → Nat) (s : Server) (name : Bytes) : Call Server := do
  let (s, _) ← createRoom s name (place s.rooms.used.length)
  .ok s

/-- The `for` loop over the names of a line, from the second one on. -/
def createOthers (place : Nat → Nat) : Nat → Bytes → Server → Call Server
  | 0, _, s => .ok s
  | n + 1, line, s =>
    match strtok 32 line with
    | some (str, line) => do
      let s ← createNext place s str
      createOthers place n line s
    | none => .ok s

/-- What `init_server` does with a line. -/
def createLine (place : Nat → Nat) (line : Bytes) (s : Server) : Call Server :=
  match strtok 32 line with
  | some (str, line) => do
    let s ← createNext place s str
    createOthers place (maxNumOfRooms - 1) line s
  | none => createOthers place (maxNumOfRooms - 1) [] s

/-- The loop over the file. A line that is ended by the end of the file is not looked at. -/
def readRooms (place : Nat → Nat) : Nat → Bytes → Server → Call Server
  | 0, _, _ => .error .loops
  | n + 1, input, s =>
    match fgetsStream maxLineLen input with
    | (_, _, true) => .ok s
    | (line, input, false) => do
      let line ← stripNewline line
      let s ← createLine place line s
      readRooms place n input s

/-- `init_server` with the text of the configuration file. -/
def initServerFrom (place : Nat → Nat) (config : Bytes) : Call Server :=
  readRooms place (config.length + 1) config .empty

/-- A configuration: the lines that end with a newline, and what is behind the last newline. -/
structure RoomConfig where
  lines : List Bytes
  last : Bytes
  chars : ∀ line ∈ lines ++ [last], newline ∉ line ∧ 0 ∉ line
  lineShort : ∀ line ∈ lines ++ [last], line.length < maxLineLen - 1
  nameShort : ∀ line ∈ lines ++ [last], ∀ name ∈ tokens 32 line, name.length < maxRoomNameLen
  few : ((lines ++ [last]).flatMap (tokens 32)).eraseDups.length ≤ maxNumOfRooms

def configText (lines : List Bytes) (last : Bytes) : Bytes :=
  lines.flatMap (fun line => line ++ [newline]) ++ last

def RoomConfig.text (c : RoomConfig) : Bytes := configText c.lines c.last

/-- All names, as often as they are there. -/
def RoomConfig.names (c : RoomConfig) : List Bytes := (c.lines ++ [c.last]).flatMap (tokens 32)

/-- The names on a line, the first forty of which are read. -/
def marked (line : Bytes) : List (Bytes × Bool) :=
  ((tokens 32 line).take maxNumOfRooms).map (·, true) ++
    ((tokens 32 line).drop maxNumOfRooms).map (·, false)

/-- All names, and whether they are read: not behind forty others on a line, and not on a last
line that lacks its newline. -/
def RoomConfig.marked (c : RoomConfig) : List (Bytes × Bool) :=
  c.lines.flatMap Chat.marked ++ (tokens 32 c.last).map (·, false)

/-- The room list consists of rooms with these names. -/
def Server.ListsRooms (s : Server) (names : List Bytes) : Prop :=
  ∃ rooms, walk s.rooms.load Room.nextRoom s.rooms.used.length s.roomListHead = .ok rooms ∧
    rooms.map (fun r => r.2.name) = names ∧ s.totalNumOfRooms = names.length

/-- `init_server` creates the rooms that are named, once each, in the order in which their names
appear. -/
def RoomConfig.CreatesNamed (c : RoomConfig) (place : Nat → Nat) : Prop :=
  ∃ s, initServerFrom place c.text = .ok s ∧ s.ListsRooms c.names.eraseDups

/-- The records are put at different addresses, which `malloc` can return. -/
structure Places (place : Nat → Nat) (n : Nat) : Prop where
  pos : ∀ i < n, 0 < place i
  lt : ∀ i < n, place i < 2 ^ 47
  inj : ∀ i < n, ∀ j < n, place i = place j → i = j

variable {place : Nat → Nat} {s t : Server} {R : List Nat} {line last name : Bytes}
  {lines names all : List Bytes} {n : Nat}

section Parsing

theorem createOthers_eq : createOthers place n line s =
    ((tokens 32 line).take n).foldlM (createNext place) s := by
  induction n generalizing line s with
  | zero => rfl
  | succ n ih =>
    rw [createOthers, tokens_strtok]
    cases strtok 32 line with
    | none => rfl
    | some x =>
      simp only [Option.map_some, Option.getD_some, List.take_succ_cons, List.foldlM_cons, ih]

/-- The first forty names of a line are taken. -/
theorem createLine_eq : createLine place line s =
    ((tokens 32 line).take maxNumOfRooms).foldlM (createNext place) s := by
  have hnone : createOthers place (maxNumOfRooms - 1) [] s = .ok s := by
    rw [createOthers_eq, tokens_nil]
    rfl
  rw [createLine, tokens_strtok]
  cases strtok 32 line with
  | none => exact hnone
  | some x =>
    simp only [createOthers_eq, Option.map_some, Option.getD_some]
    rfl

theorem stripNewline_line (h0 : 0 ∉ line) : stripNewline (line ++ [newline]) = .ok line := by
  have hstr : cstr (line ++ [newline]) = line ++ [newline] :=
    cstr_self (by simp [h0, newline])
  simp [stripNewline, hstr]

theorem fgetsLoop_last (hnl : newline ∉ last) (hn : last.length ≤ n) : fgetsLoop n last = last := by
  induction last generalizing n with
  | nil => cases n <;> rfl
  | cons c last ih =>
    obtain ⟨n, rfl⟩ := Nat.exists_eq_add_one.mpr (Nat.zero_lt_of_lt hn)
    simp only [List.mem_cons, not_or] at hnl
    rw [fgetsLoop, if_neg (Ne.symm hnl.1), ih hnl.2 (Nat.le_of_succ_le_succ hn)]

/-- A line with its newline is read and used. -/
theorem readRooms_line {rest : Bytes} (hnl : newline ∉ line) (h0 : 0 ∉ line)
    (hlen : line.length < maxLineLen - 1) : readRooms place (n + 1) (line ++ newline :: rest) s =
      createLine place line s >>= fun s => readRooms place n rest s := by
  have hread : fgetsStream maxLineLen (line ++ newline :: rest) =
      (line ++ [newline], rest, false) := by
    have hdrop : (line ++ newline :: rest).drop (line ++ [newline]).length = rest := by
      have happ : line ++ newline :: rest = (line ++ [newline]) ++ rest := List.append_cons ..
      rw [happ, List.drop_left]
    simp only [fgetsStream, fgetsLoop_line hnl hlen, hdrop]
    simp
  rw [readRooms, hread]
  simp only [stripNewline_line h0]
  rfl

/-- What is behind the last newline is read and not used. -/
theorem readRooms_last (hnl : newline ∉ last) (hlen : last.length < maxLineLen - 1) :
    readRooms place (n + 1) last s = .ok s := by
  have hread : fgetsStream maxLineLen last = (last, [], true) := by
    have hend : last.getLast? ≠ some newline := fun he => hnl (List.mem_of_getLast? he)
    simp only [fgetsStream, fgetsLoop_last hnl hlen.le, List.drop_length, hlen]
    simp [hend]
  rw [readRooms, hread]

theorem readRooms_eq (hchars : ∀ line ∈ lines ++ [last], newline ∉ line ∧ 0 ∉ line)
    (hlen : ∀ line ∈ lines ++ [last], line.length < maxLineLen - 1) (hn : lines.length < n) :
    readRooms place n (configText lines last) s =
      (lines.flatMap fun line => (tokens 32 line).take maxNumOfRooms).foldlM
        (createNext place) s := by
  induction lines generalizing n s with
  | nil =>
    obtain ⟨n, rfl⟩ := Nat.exists_eq_add_one.mpr hn
    exact readRooms_last (hchars last (by simp)).1 (hlen last (by simp))
  | cons line lines ih =>
    obtain ⟨n, rfl⟩ := Nat.exists_eq_add_one.mpr (Nat.zero_lt_of_lt hn)
    rw [List.cons_append, List.forall_mem_cons] at hchars hlen
    have htext : configText (line :: lines) last = line ++ newline :: configText lines last := by
      simp [configText]
    rw [htext, readRooms_line hchars.1.1 hchars.1.2 hlen.1, createLine_eq, List.flatMap_cons,
      List.foldlM_append]
    simp only [ih hchars.2 hlen.2 (Nat.lt_of_succ_lt_succ hn)]

theorem length_configText : lines.length ≤ (configText lines last).length := by
  induction lines with
  | nil => exact Nat.zero_le _
  | cons line lines ih =>
    simp only [configText, List.flatMap_cons, List.length_append, List.length_cons,
      List.length_nil] at ih ⊢
    omega

theorem taken_map_true : taken (names.map (·, true)) = names := by
  induction names with
  | nil => rfl
  | cons name names ih => exact congrArg (name :: ·) ih

theorem taken_map_false : taken (names.map (·, false)) = [] := by
  induction names with
  | nil => rfl
  | cons name names ih => exact ih

/-- The names that are read are the marked ones. -/
theorem RoomConfig.taken_marked (c : RoomConfig) : taken c.marked =
    c.lines.flatMap fun line => (tokens 32 line).take maxNumOfRooms := by
  have happ : ∀ k l : List (Bytes × Bool), taken (k ++ l) = taken k ++ taken l := fun k l => by
    simp [taken]
  have hline : ∀ line, taken (Chat.marked line) = (tokens 32 line).take maxNumOfRooms := by
    intro line
    rw [Chat.marked, happ, taken_map_true, taken_map_false, List.append_nil]
  have hlines : ∀ lines : List Bytes, taken (lines.flatMap Chat.marked) =
      lines.flatMap fun line => (tokens 32 line).take maxNumOfRooms := by
    intro lines
    induction lines with
    | nil => rfl
    | cons line lines ih => rw [List.flatMap_cons, happ, hline, ih, List.flatMap_cons]
  rw [RoomConfig.marked, happ, hlines, taken_map_false, List.append_nil]

theorem RoomConfig.marked_names (c : RoomConfig) : c.marked.map Prod.fst = c.names := by
  have hline : ∀ line, (Chat.marked line).map Prod.fst = tokens 32 line := by
    intro line
    simp [Chat.marked, Function.comp_def]
  rw [RoomConfig.marked, RoomConfig.names, List.map_append, List.map_flatMap, List.flatMap_append]
  simp only [hline]
  simp [Function.comp_def]

/-- What is read decides which rooms are created. -/
theorem RoomConfig.initServerFrom_eq (c : RoomConfig) :
    initServerFrom place c.text = (taken c.marked).foldlM (createNext place) .empty := by
  rw [initServerFrom, RoomConfig.text, readRooms_eq c.chars c.lineShort
    (Nat.lt_succ_of_le length_configText), c.taken_marked]

end Parsing

section Creating

theorem createRooms_of_foldlM (h : names.foldlM (createNext place) s = .ok t) :
    ∃ config : List (Bytes × Nat), config.map Prod.fst = names ∧ createRooms s config = .ok t := by
  induction names generalizing s with
  | nil => exact ⟨[], rfl, h⟩
  | cons name names ih =>
    rw [List.foldlM_cons] at h
    obtain ⟨u, hu, h⟩ := ok_of_bind h
    obtain ⟨config, hconfig, hc⟩ := ih h
    refine ⟨(name, place s.rooms.used.length) :: config, congrArg (name :: ·) hconfig, ?_⟩
    rw [createRooms, List.foldlM_cons]
    exact (congrArg (· >>= _) hu).trans hc

/-- Reading the file is one way to call `create_room` with a list of names. -/
theorem RoomConfig.initServer_ok (c : RoomConfig) (h : initServerFrom place c.text = .ok s) :
    ∃ config : List (Bytes × Nat), config.map Prod.fst = taken c.marked ∧
      initServer config = .ok s :=
  createRooms_of_foldlM (c.initServerFrom_eq.symm.trans h)

theorem createRoom_used {addr ret : Nat} (h : createRoom s name addr = .ok (t, ret)) :
    t.rooms.used = s.rooms.used ∨ t.rooms.used = addr :: s.rooms.used := by
  unfold createRoom at h
  split at h
  · cases h
    exact .inl rfl
  obtain ⟨rooms, hm, h⟩ := ok_of_bind h
  have hused : rooms.used = addr :: s.rooms.used := (Store.malloc_ok hm).2.1
  refine .inr ?_
  simp only at h
  split at h
  · cases h
    exact hused
  split at h
  · cases h
    exact hused
  obtain ⟨found, -, h⟩ := ok_of_bind h
  cases found with
  | some r =>
    cases h
    exact hused
  | none =>
    obtain ⟨rooms', hw, h⟩ := ok_of_bind h
    cases h
    exact (Store.write_used hw).trans hused

/-- The rooms have the names that have been read, and the records are in their places. -/
structure RoomsRead (place : Nat → Nat) (s : Server) (R : List Nat) (names : List Bytes) :
    Prop where
  inv : ∃ M, Inv s [] R M
  tail : s.roomListTail = R.getLast?
  stored : R.map s.storedAt = names.eraseDups.map some
  placed : ∀ a ∈ s.rooms.used, ∃ i < s.rooms.used.length, a = place i
  count : s.rooms.used.length ≤ names.length

theorem roomsRead_empty : RoomsRead place .empty [] [] where
  inv := ⟨_, inv_empty⟩
  tail := rfl
  stored := rfl
  placed := fun _ ha => nomatch ha
  count := Nat.zero_le _

theorem RoomsRead.length (h : RoomsRead place s R names) : R.length = names.eraseDups.length := by
  have hlen := congrArg List.length h.stored
  rwa [List.length_map, List.length_map] at hlen

/-- A name has been read when a room has it. -/
theorem RoomsRead.mem_iff (h : RoomsRead place s R names) (hlen : name.length < maxRoomNameLen) :
    name ∈ names ↔ ∃ r ∈ R, s.roomNameAt r = some name := by
  have hmem : name ∈ names ↔ some name ∈ R.map s.storedAt := by
    rw [h.stored]
    simp
  simp only [hmem, List.mem_map, roomNameAt_iff_stored hlen]

/-- The place of the next record is free. -/
theorem RoomsRead.free (h : RoomsRead place s R names) (hp : Places place n)
    (hn : names.length < n) : s.rooms.Free (place s.rooms.used.length) := by
  have hlt : s.rooms.used.length < n := Nat.lt_of_le_of_lt h.count hn
  refine ⟨?_, hp.pos _ hlt, hp.lt _ hlt⟩
  cases hload : s.rooms.load (place s.rooms.used.length) with
  | none => rfl
  | some rt =>
    obtain ⟨i, hi, heq⟩ := h.placed _ (s.rooms.mem_used _ (by rw [hload]; rfl))
    have := hp.inj _ hlt i (by omega) heq
    omega

theorem RoomsRead.placed_cons {used : List Nat} (h : RoomsRead place s R names) (name : Bytes)
    (hused : used = place s.rooms.used.length :: s.rooms.used) :
    (∀ a ∈ used, ∃ i < used.length, a = place i) ∧ used.length ≤ (names ++ [name]).length := by
  subst hused
  refine ⟨List.forall_mem_cons.mpr ⟨⟨_, by simp, rfl⟩, fun a ha => ?_⟩, ?_⟩
  · obtain ⟨i, hi, rfl⟩ := h.placed a ha
    exact ⟨i, Nat.lt_succ_of_lt hi, rfl⟩
  · rw [List.length_cons, List.length_append]
    exact Nat.succ_le_succ h.count

/-- A record that is forgotten leaves the rooms as they are. -/
theorem RoomsRead.leak {rooms : Store Room} {rt : Room} (h : RoomsRead place s R names)
    (hm : s.rooms.malloc (place s.rooms.used.length) rt = .ok rooms) (hname : name ∈ names) :
    RoomsRead place { s with rooms := rooms } R (names ++ [name]) := by
  obtain ⟨M, hinv⟩ := h.inv
  obtain ⟨hplaced, hcount⟩ := h.placed_cons name (Store.malloc_ok hm).2.1
  refine ⟨⟨M, hinv.leakRoom hm⟩, h.tail, ?_, hplaced, hcount⟩
  rw [eraseDups_concat, if_pos hname, ← h.stored]
  refine List.map_congr_left fun r hr => ?_
  rw [Server.storedAt, Store.malloc_kept hm (hinv.roomList.alloc r hr)]
  rfl

theorem RoomsRead.added (h : RoomsRead place s R names) (h0 : 0 ∉ name)
    (hlen : name.length ≤ maxRoomNameLen) (hname : name ∉ names)
    (hmax : s.totalNumOfRooms ≠ maxNumOfRooms)
    (ha : RoomAdded s R name (place s.rooms.used.length) t)
    (hused : t.rooms.used = place s.rooms.used.length :: s.rooms.used) :
    RoomsRead place t (R ++ [place s.rooms.used.length]) (names ++ [name]) := by
  obtain ⟨M, hinv⟩ := h.inv
  obtain ⟨hplaced, hcount⟩ := h.placed_cons name hused
  refine ⟨⟨_, ha.inv hinv hmax⟩, by rw [ha.roomListTail, List.getLast?_concat], ?_, hplaced, hcount⟩
  rw [eraseDups_concat, if_neg hname, List.map_append, List.map_append, ← h.stored]
  refine congrArg₂ (· ++ ·) (List.map_congr_left fun r hr => ?_) ?_
  · have hne : r ≠ place s.rooms.used.length := fun he => ha.notMem hinv.roomList (he ▸ hr)
    by_cases hlast : R.getLast? = some r
    · rw [Server.storedAt, ha.last r hlast, Option.map_map]
      rfl
    · rw [Server.storedAt, ha.other r hne hlast]
      rfl
  · simp [Server.storedAt, ha.new, cstr_newRoom h0 hlen]

/-- The next name: a new one gets a room, another one nothing. -/
theorem RoomsRead.next (h : RoomsRead place s R names) (hp : Places place n)
    (hn : names.length < n) (h0 : 0 ∉ name) (hlen : name.length < maxRoomNameLen)
    (hfew : (names ++ [name]).eraseDups.length ≤ maxNumOfRooms) :
    ∃ t R', createNext place s name = .ok t ∧ RoomsRead place t R' (names ++ [name]) := by
  obtain ⟨M, hinv⟩ := h.inv
  obtain ⟨⟨t, ret⟩, hc⟩ : ∃ x, createRoom s name (place s.rooms.used.length) = .ok x :=
    createRoom_ok hinv h.tail (h.free hp hn)
  have hnext : createNext place s name = .ok t := by
    rw [createNext, hc]
    rfl
  have hcount : s.totalNumOfRooms = (names.eraseDups.length : Int) := by
    rw [hinv.roomList.count, h.length]
  rw [eraseDups_concat] at hfew
  cases createRoom_created hinv hc with
  | tooLong hlong => exact absurd hlong (by omega)
  | tooMany hm hmax =>
    refine ⟨_, R, hnext, h.leak hm ?_⟩
    by_contra hname
    rw [if_neg hname, List.length_append, List.length_singleton] at hfew
    omega
  | «exists» hm hroom =>
    rw [newRoom_name hlen.le h0] at hroom
    exact ⟨_, R, hnext, h.leak hm ((h.mem_iff hlen).mpr hroom)⟩
  | created hle hmax hnew ha =>
    rw [newRoom_name hle h0] at hnew
    have hname : name ∉ names := fun hname => by
      obtain ⟨r, hr, he⟩ := (h.mem_iff hlen).mp hname
      exact hnew r hr he
    refine ⟨t, _, hnext, h.added h0 hle hname hmax ha ?_⟩
    rcases createRoom_used hc with hu | hu
    · have hmem := t.rooms.mem_used _ (by rw [ha.new]; rfl)
      rw [hu] at hmem
      obtain ⟨i, hi, he⟩ := h.placed _ hmem
      have hlt := Nat.lt_of_le_of_lt h.count hn
      have := hp.inj _ hlt i (by omega) he
      omega
    · exact hu

/-- The names are read one after another. -/
theorem RoomsRead.run (h : RoomsRead place s R names) (hp : Places place n) (more : List Bytes)
    (hn : (names ++ more).length ≤ n)
    (hmore : ∀ name ∈ more, 0 ∉ name ∧ name.length < maxRoomNameLen)
    (hfew : (names ++ more).eraseDups.length ≤ maxNumOfRooms) :
    ∃ t R', more.foldlM (createNext place) s = .ok t ∧ RoomsRead place t R' (names ++ more) := by
  induction more generalizing s R names with
  | nil => exact ⟨s, R, rfl, by rwa [List.append_nil]⟩
  | cons name more ih =>
    rw [List.append_cons] at hn hfew ⊢
    rw [List.forall_mem_cons] at hmore
    have hprefix : (names ++ [name]).eraseDups.length ≤ maxNumOfRooms :=
      (length_eraseDups_le (List.subset_append_left _ more)).trans hfew
    have hlt : names.length < n := by
      simp only [List.length_append, List.length_singleton] at hn
      omega
    obtain ⟨u, R', hu, hread⟩ := h.next hp hlt hmore.1.1 hmore.1.2 hprefix
    obtain ⟨t, R'', ht, hread'⟩ := ih hread hn hmore.2 hfew
    refine ⟨t, R'', ?_, hread'⟩
    rw [List.foldlM_cons, hu]
    exact ht

theorem RoomsRead.lists (h : RoomsRead place s R names)
    (hlen : ∀ name ∈ names, name.length < maxRoomNameLen) : s.ListsRooms names.eraseDups := by
  obtain ⟨M, hinv⟩ := h.inv
  have halloc := hinv.roomList.alloc
  refine ⟨_, walk_ok hinv.roomList.chain halloc
    (Store.length_le_used hinv.roomList.nodup halloc), ?_, ?_⟩
  · have hname : ∀ r ∈ R, ∃ name ∈ names, s.storedAt r = some name := by
      intro r hr
      have hmem : s.storedAt r ∈ names.eraseDups.map some := h.stored ▸ List.mem_map_of_mem hr
      obtain ⟨name, hname, he⟩ := List.mem_map.mp hmem
      exact ⟨name, List.mem_eraseDups.mp hname, he.symm⟩
    have hmap := map_records (f := fun r => some r.2.name) halloc fun r hr rt hrt => by
      obtain ⟨name, hn, he⟩ := hname r hr
      have hat := (roomNameAt_iff_stored (hlen name hn)).mpr he
      rw [Server.roomNameAt, hrt, Option.map_some] at hat
      exact hat.trans he.symm
    rw [h.stored] at hmap
    refine (List.map_inj_right fun _ _ => Option.some.inj).mp ?_
    rw [List.map_map]
    exact hmap
  · rw [hinv.roomList.count, h.length]

end Creating

theorem Server.ListsRooms.unique {names names' : List Bytes} (h : s.ListsRooms names)
    (h' : s.ListsRooms names') : names = names' := by
  obtain ⟨rooms, hw, rfl, -⟩ := h
  obtain ⟨rooms', hw', rfl, -⟩ := h'
  rw [Except.ok.inj (hw.symm.trans hw')]

theorem RoomConfig.names_ok (c : RoomConfig) :
    ∀ name ∈ c.names, 0 ∉ name ∧ name.length < maxRoomNameLen := by
  intro name hname
  obtain ⟨line, hline, hmem⟩ := List.mem_flatMap.mp hname
  exact ⟨fun h0 => (c.chars line hline).2 (mem_tokens hmem h0), c.nameShort line hline name hmem⟩

theorem RoomConfig.taken_sublist (c : RoomConfig) : (taken c.marked).Sublist c.names := by
  rw [← c.marked_names, taken]
  exact List.filter_sublist.map _

/-- After `init_server` there are the rooms whose names are read. -/
theorem RoomConfig.initServerFrom_lists (c : RoomConfig) (hp : Places place c.names.length) :
    ∃ s, initServerFrom place c.text = .ok s ∧ s.ListsRooms (taken c.marked).eraseDups := by
  have hsub := c.taken_sublist
  have hok : ∀ name ∈ taken c.marked, 0 ∉ name ∧ name.length < maxRoomNameLen :=
    fun name hname => c.names_ok name (hsub.subset hname)
  obtain ⟨s, R, hs, hread⟩ := roomsRead_empty.run hp (taken c.marked) hsub.length_le hok
    ((length_eraseDups_le hsub.subset).trans c.few)
  exact ⟨s, c.initServerFrom_eq.trans hs, hread.lists fun name hname => (hok name hname).2⟩

/-- `init_server` creates the rooms of the file unless it passes over a new name that is not
read before the next new one. -/
theorem room_config_iff (c : RoomConfig) (hp : Places place c.names.length) :
    c.CreatesNamed place ↔ TakenInTime [] c.marked := by
  obtain ⟨s, hs, hlists⟩ := c.initServerFrom_lists hp
  rw [← eraseDups_taken_iff, c.marked_names]
  constructor
  · rintro ⟨t, ht, h⟩
    obtain rfl := Except.ok.inj (hs.symm.trans ht)
    exact hlists.unique h
  · intro he
    exact ⟨s, hs, he ▸ hlists⟩

/-- Records of 64 bytes, one behind the other. -/
theorem places_next (hn : n ≤ 2 ^ 40) : Places (fun i => 4096 + 64 * i) n :=
  ⟨fun i _ => by omega, fun i _ => by omega, fun i _ j _ he => by omega⟩

/-- `room.cfg` -/
def roomCfg : RoomConfig where
  lines := [Chat.text "golf basketball ", Chat.text "soccer hockey"]
  last := []
  chars := by decide
  lineShort := by decide
  nameShort := by decide
  few := by decide

theorem room_config_iff_roomCfg :
    roomCfg.CreatesNamed (fun i => 4096 + 64 * i) ↔ TakenInTime [] roomCfg.marked :=
  room_config_iff roomCfg (places_next (by decide))

/-- A last line without a newline. -/
def unterminated : RoomConfig where
  lines := [Chat.text "a"]
  last := Chat.text "b"
  chars := by decide
  lineShort := by decide
  nameShort := by decide
  few := by decide

/-- There is no room `b`. -/
theorem last_line_dropped : ¬unterminated.CreatesNamed fun i => 4096 + 64 * i := by
  rintro ⟨s, hs, hnamed⟩
  obtain ⟨t, ht, hlists⟩ := unterminated.initServerFrom_lists (places_next (by decide))
  obtain rfl := Except.ok.inj (hs.symm.trans ht)
  exact absurd (hlists.unique hnamed) (by decide)

end Csc469.Chat
