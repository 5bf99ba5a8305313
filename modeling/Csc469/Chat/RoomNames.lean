import Csc469.Chat.ServerSafety

/-! Which rooms are found under which names, while rooms are created and removed. -/
namespace Csc469.Chat

open Execution Linked

/-- The server, and the names that `create_room` has returned 0 for, with their rooms, as long
as these are there. -/
structure RoomNaming where
  server : Server
  named : List (Bytes × Nat)

inductive NameEvent where
  | create (name : Bytes) (addr : Nat)
  | round (e : Event)

/-- The name of the room whose creation a reply confirms. -/
def newNames (env : Env) (recv : Option Bytes) (reply : Option Reply) : List (Bytes × Nat) :=
  (newRooms env recv reply).map (cstr (msgdata (recv.getD [])), ·)

/-- The server is in state `t` next. -/
def RoomNaming.next (c : RoomNaming) (t : Server) (names : List (Bytes × Nat)) : RoomNaming :=
  ⟨t, (names ++ c.named).filter fun x => (t.rooms.load x.2).isSome⟩

/-- A call of `create_room`, by a request or else, or another round of `main`. -/
inductive NameStep : RoomNaming → NameEvent → RoomNaming → Prop
  | create {c : RoomNaming} {name : Bytes} {addr ret : Nat} {t : Server} (h0 : 0 ∉ name)
      (h : createRoom c.server name addr = .ok (t, ret)) :
    NameStep c (.create name addr) (c.next t (if ret = 0 then [(name, addr)] else []))
  | control {c : RoomNaming} {env : Env} {recv : Option Bytes} {t : Server} {reply : Option Reply}
      (h : processControlMsg c.server env recv = .ok (t, reply)) :
    NameStep c (.round (.control env recv reply)) (c.next t (newNames env recv reply))
  | chat {c : RoomNaming} {recv : Option Bytes} {sent : List (Option Nat)} {t : Server}
      {ds : List Datagram} (h : processChatMsg c.server recv sent = .ok (t, ds)) :
    NameStep c (.round (.chat recv sent)) (c.next t [])
  | sweep {c : RoomNaming} {t : Server} (h : sweep c.server = .ok t) :
    NameStep c (.round .sweep) (c.next t [])

/-- No room yet. -/
def noRooms : RoomNaming := ⟨.empty, []⟩

/-- What is stored of a room's name in its 24 bytes. -/
def Server.storedAt (s : Server) (r : Nat) : Option Bytes :=
  (s.rooms.load r).map fun rt => cstr rt.roomName.toList

variable {s t : Server} {L R R' : List Nat} {M : Nat → List Nat} {a r addr ret : Nat} {env : Env}
  {name : Bytes} {recv : Option Bytes} {reply : Option Reply} {rt : Room} {p : Option Nat}

section Stored

/-- The string in the 24 bytes goes on behind them when none of them is zero. -/
theorem name_eq : rt.name = if (cstr rt.roomName.toList).length = maxRoomNameLen then
    rt.roomName.toList ++ cstr (pointerBytes rt.nextRoom) else cstr rt.roomName.toList := by
  rw [Room.name, cstr, List.takeWhile_append, Vector.length_toList]
  rfl

/-- A name that leaves room for its terminator is read as it was stored. -/
theorem name_eq_iff (hlen : name.length < maxRoomNameLen) :
    rt.name = name ↔ cstr rt.roomName.toList = name := by
  rw [name_eq]
  split
  · next hfull =>
    refine iff_of_false ?_ ?_
    · rintro rfl
      rw [List.length_append, Vector.length_toList] at hlen
      omega
    · rintro rfl
      omega
  · exact Iff.rfl

theorem roomNameAt_iff_stored (hlen : name.length < maxRoomNameLen) :
    s.roomNameAt r = some name ↔ s.storedAt r = some name := by
  cases h : s.rooms.load r with
  | none => simp [Server.roomNameAt, Server.storedAt, h]
  | some rt => simp [Server.roomNameAt, Server.storedAt, h, name_eq_iff hlen]

theorem cstr_newRoom (h0 : 0 ∉ name) (hlen : name.length ≤ maxRoomNameLen) :
    cstr (newRoom name).roomName.toList = name := by
  rw [newRoom, cstr_strncpy, cstr_self h0, List.take_of_length_le hlen]

/-- A name of 24 characters is read as it was stored when the room is the last one, or the low
byte of the address of the next one is zero. -/
theorem full_name_iff (h0 : 0 ∉ name) (hlen : name.length = maxRoomNameLen) :
    Room.name { newRoom name with nextRoom := p } = name ↔ p.getD 0 % 256 = 0 := by
  have hc := cstr_newRoom h0 hlen.le
  have hself : cstr (newRoom name).roomName.toList = (newRoom name).roomName.toList := by
    refine (List.takeWhile_sublist _).eq_of_length ?_
    rw [← cstr, hc, hlen, Vector.length_toList]
  rw [name_eq]
  simp only [hc, hlen, if_true]
  have hfirst : cstr (pointerBytes p) = [] ↔ UInt8.ofNat (p.getD 0) = 0 := by
    have hbytes : pointerBytes p = UInt8.ofNat (p.getD 0) ::
        (List.range' 1 7).map fun i => UInt8.ofNat (p.getD 0 / 256 ^ i) := by
      simp [pointerBytes, List.range_succ, List.range'_succ]
    rw [hbytes, cstr, List.takeWhile_cons]
    split <;> simp_all
  rw [← hself, hc, List.append_right_eq_self, hfirst, ← UInt8.toNat_inj, UInt8.toNat_ofNat']
  rfl

end Stored

section Steps

/-- What a step does to the rooms and their names. -/
inductive Renaming (s t : Server) (R R' : List Nat) : List (Bytes × Nat) → Prop
  | kept (hsub : ∀ r ∈ R', r ∈ R) (hstored : ∀ r ∈ R', t.storedAt r = s.storedAt r)
      (hleft : ∀ r ∈ R, (t.rooms.load r).isSome → r ∈ R') : Renaming s t R R' []
  | added {name : Bytes} {addr : Nat} (h0 : 0 ∉ name) (hR : R' = R ++ [addr])
      (hnew : ∀ r ∈ R, s.roomNameAt r ≠ some name) (hadd : t.storedAt addr = some name)
      (hstored : ∀ r ∈ R, t.storedAt r = s.storedAt r) : Renaming s t R R' [(name, addr)]

theorem Renaming.of_rooms (h : t.rooms = s.rooms) : Renaming s t R R [] :=
  .kept (fun _ hr => hr) (fun r _ => by rw [Server.storedAt, h]; rfl) fun _ hr _ => hr

theorem Renaming.of_listing (h : Store.Agree Room.listing s.rooms t.rooms) : Renaming s t R R [] :=
  .kept (fun _ hr => hr)
    (fun r _ => Store.map_of_map (h r) fun x => cstr x.1.toList) fun _ hr _ => hr

theorem Renaming.leak {rooms : Store Room} (h : RoomList s R)
    (hm : s.rooms.malloc addr rt = .ok rooms) : Renaming s { s with rooms := rooms } R R [] := by
  refine .kept (fun _ hr => hr) (fun r hr => ?_) fun _ hr _ => hr
  rw [Server.storedAt, Store.malloc_kept hm (h.alloc r hr)]
  rfl

theorem Renaming.of_touch {names : List (Bytes × Nat)} (h : Renaming (s.touch a) t R R' names) :
    Renaming s t R R' names := by
  cases h with
  | kept hsub hstored hleft => exact .kept hsub hstored hleft
  | added h0 hR hnew hadd hstored => exact .added h0 hR hnew hadd hstored

theorem Created.renaming (h : Inv s L R M) (hc : Created s R name addr t ret) (h0 : 0 ∉ name) :
    ∃ R' M', Inv t L R' M' ∧ Renaming s t R R' (if ret = 0 then [(name, addr)] else []) := by
  cases hc with
  | tooLong => exact ⟨R, M, h, .of_rooms rfl⟩
  | tooMany hm => exact ⟨R, M, h.leakRoom hm, .leak h.roomList hm⟩
  | «exists» hm => exact ⟨R, M, h.leakRoom hm, .leak h.roomList hm⟩
  | created hlen hmax hnew ha =>
    refine ⟨_, _, ha.inv h hmax, .added h0 rfl (fun r hr => ?_) ?_ fun r hr => ?_⟩
    · rw [← newRoom_name hlen h0]
      exact hnew r hr
    · simp [Server.storedAt, ha.new, cstr_newRoom h0 hlen]
    · have hne : r ≠ addr := fun he => ha.notMem h.roomList (he ▸ hr)
      by_cases hlast : R.getLast? = some r
      · rw [Server.storedAt, ha.last r hlast, Option.map_map]
        rfl
      · rw [Server.storedAt, ha.other r hne hlast]
        rfl

theorem newNames_of_ne {msg : Bytes} (h : msgType msg ≠ createRoomRequest) :
    newNames env (some msg) reply = [] := by
  rw [newNames, newRooms_of_ne h, List.map_nil]

theorem newNames_none (env : Env) (recv : Option Bytes) : newNames env recv none = [] := by
  cases recv <;> rfl

theorem Served.renaming (h : Inv s L R M) (hs : Served s L R M env recv t reply) : ∃ L' R' M',
    Inv t L' R' M' ∧ Renaming s t R R' (newNames env recv reply) := by
  cases hs with
  | unread => exact ⟨L, R, M, h, .of_rooms rfl⟩
  | @unknownId msg htype =>
    obtain ⟨hne, -⟩ := reply_type htype
    have hnone : newNames env (some msg)
        (some ⟨msgType msg + 2, 0, text "Member id invalid!"⟩) = [] := by
      simp only [newNames, newRooms, hne, if_false, List.map_nil]
    rw [hnone]
    exact ⟨L, R, M, h, .of_rooms rfl⟩
  | answered _ _ _ hcreate =>
    rw [newNames_of_ne hcreate]
    exact ⟨L, R, M, h.touch, .of_rooms rfl⟩
  | switched htype ha hid hw =>
    rw [newNames_of_ne (by rw [htype]; decide)]
    cases hw with
    | switched _ _ _ honly _ hinv => exact ⟨L, R, _, hinv, .of_listing honly.rooms⟩
    | _ => exact ⟨L, R, M, h.touch, .of_rooms rfl⟩
  | @created msg a ret t r htype ha hid hc hreply =>
    obtain ⟨R', M', hinv, hr⟩ := hc.renaming h.touch zero_notMem_cstr
    have hnames : newNames env (some msg) (some r) =
        if ret = 0 then [(cstr (msgdata msg), env.addr)] else [] := by
      rw [newNames, newRooms, htype, hreply]
      by_cases h0 : ret = 0 <;> simp [h0, createRoomSucc, createRoomFail]
    rw [hnames]
    exact ⟨L, R', M', hinv, hr.of_touch⟩
  | left htype ha hid hd hinv =>
    rw [newNames_of_ne (by rw [htype]; decide)]
    exact ⟨_, R, _, hinv, .of_listing hd.rooms⟩
  | registered htype hr =>
    rw [newNames_of_ne (by rw [htype]; decide)]
    cases hr with
    | full => exact ⟨L, R, M, h, .of_rooms rfl⟩
    | noPeer hm => exact ⟨L, R, M, h.leakMember hm, .of_rooms rfl⟩
    | nameUsed hm => exact ⟨L, R, M, h.leakMember hm, .of_rooms rfl⟩
    | registered _ _ _ ha hinv => exact ⟨_, R, M, hinv, .of_rooms ha.rooms⟩
  | ignored =>
    rw [newNames_none]
    exact ⟨L, R, M, h, .of_rooms rfl⟩

/-- A step keeps the names of the rooms that stay. -/
theorem nameStep_renaming {c d : RoomNaming} {e : NameEvent} (hs : NameStep c e d)
    (h : Inv c.server L R M) : ∃ L' R' M' names, Inv d.server L' R' M' ∧
      Renaming c.server d.server R R' names ∧ d = c.next d.server names := by
  cases hs with
  | create h0 hc =>
    obtain ⟨R', M', hinv, hr⟩ := (createRoom_created h hc).renaming h h0
    exact ⟨L, R', M', _, hinv, hr, rfl⟩
  | control hp =>
    obtain ⟨L', R', M', hinv, hr⟩ := (processControlMsg_served h hp).renaming h
    exact ⟨L', R', M', _, hinv, hr, rfl⟩
  | @chat recv sent t ds hp =>
    obtain ⟨hinv, -⟩ := processChatMsg_handled h hp
    refine ⟨L, R, M, _, hinv, .of_rooms ?_, rfl⟩
    cases recv with
    | none =>
      cases hp
      rfl
    | some msg =>
      rcases processChatMsg_heard h.registry hp with ⟨rfl, -⟩ | ⟨a, -, -, rfl⟩
      · rfl
      · rfl
  | sweep hp =>
    obtain ⟨u, t, M', ht, hs, hr, hinv⟩ := sweep_swept h
    cases ht.symm.trans hp
    refine ⟨_, _, M', _, hinv, .kept (fun r hr => (List.mem_filter.mp hr).1) (fun r hrR => ?_)
      (fun r hrR hsome => ?_), rfl⟩
    · obtain ⟨hR, hflag⟩ := List.mem_filter.mp hrR
      have hu : u.emptyFlagAt r = c.server.emptyFlagAt r := hs.emptyFlag r
      have hkept := congrArg (Option.map fun rt : Room => cstr rt.roomName.toList)
        (hr.kept r hR (hu.trans (of_decide_eq_true hflag)))
      rw [Option.map_map, Option.map_map] at hkept
      exact hkept.trans (Store.map_of_map (hs.rooms r) fun x => cstr x.1.toList)
    · have hu : u.emptyFlagAt r = c.server.emptyFlagAt r := hs.emptyFlag r
      refine List.mem_filter.mpr ⟨hrR, decide_eq_true ?_⟩
      by_contra hne
      have hgone := hr.gone r hrR (by rwa [hu])
      simp [RoomNaming.next, hgone] at hsome

end Steps

section Stable
variable {c d : RoomNaming} {e : NameEvent}

/-- No two rooms store one name that has room for its terminator, and the rooms that were
created under a name store it. -/
structure NamesStored (c : RoomNaming) (R : List Nat) : Prop where
  unique : ∀ r ∈ R, ∀ r' ∈ R, ∀ name, name.length < maxRoomNameLen →
    c.server.storedAt r = some name → c.server.storedAt r' = some name → r = r'
  named : ∀ x ∈ c.named, 0 ∉ x.1 ∧ x.2 ∈ R ∧ c.server.storedAt x.2 = some x.1

theorem namesStored_step (hs : NameStep c e d) (h : Inv c.server L R M) (hn : NamesStored c R) :
    ∃ L' R' M', Inv d.server L' R' M' ∧ NamesStored d R' := by
  obtain ⟨L', R', M', names, hinv, hr, hd⟩ := nameStep_renaming hs h
  refine ⟨L', R', M', hinv, ?_⟩
  have hnamed : ∀ x ∈ d.named, x ∈ names ∨ x ∈ c.named ∧ (d.server.rooms.load x.2).isSome := by
    intro x hx
    rw [hd] at hx
    obtain ⟨hx, hsome⟩ := List.mem_filter.mp hx
    rcases List.mem_append.mp hx with hx | hx
    · exact .inl hx
    · exact .inr ⟨hx, hsome⟩
  cases hr with
  | kept hsub hstored hleft =>
    refine ⟨fun r hr r' hr' name hlen he he' => ?_, fun x hx => ?_⟩
    · rw [hstored r hr] at he
      rw [hstored r' hr'] at he'
      exact hn.unique r (hsub r hr) r' (hsub r' hr') name hlen he he'
    · rcases hnamed x hx with hx | ⟨hx, hsome⟩
      · cases hx
      · obtain ⟨h0, hR, hst⟩ := hn.named x hx
        have hR' := hleft x.2 hR hsome
        exact ⟨h0, hR', (hstored x.2 hR').trans hst⟩
  | @added name addr h0 hR' hnew hadd hstored =>
    subst hR'
    have hold : ∀ r ∈ R, name.length < maxRoomNameLen → c.server.storedAt r ≠ some name := by
      intro r hr hlen he
      exact hnew r hr ((roomNameAt_iff_stored hlen).mpr he)
    refine ⟨fun r hr r' hr' n hlen he he' => ?_, fun x hx => ?_⟩
    · rcases List.mem_append.mp hr with hm | hm <;> rcases List.mem_append.mp hr' with hm' | hm'
      · rw [hstored r hm] at he
        rw [hstored r' hm'] at he'
        exact hn.unique r hm r' hm' n hlen he he'
      · obtain rfl := List.mem_singleton.mp hm'
        cases hadd.symm.trans he'
        rw [hstored r hm] at he
        exact (hold r hm hlen he).elim
      · obtain rfl := List.mem_singleton.mp hm
        cases hadd.symm.trans he
        rw [hstored r' hm'] at he'
        exact (hold r' hm' hlen he').elim
      · rw [List.mem_singleton.mp hm, List.mem_singleton.mp hm']
    · rcases hnamed x hx with hx | ⟨hx, -⟩
      · obtain rfl := List.mem_singleton.mp hx
        exact ⟨h0, by simp, hadd⟩
      · obtain ⟨h0, hR, hst⟩ := hn.named x hx
        exact ⟨h0, List.mem_append_left _ hR, (hstored x.2 hR).trans hst⟩

theorem namesStored_reaches (hr : Reaches NameStep noRooms c) : ∃ L R M,
    Inv c.server L R M ∧ NamesStored c R := by
  refine Reaches.invariant (R := NameStep) (I := fun c => ∃ L R M, Inv c.server L R M ∧
    NamesStored c R) ?_ ⟨[], [], _, inv_empty, ⟨?_, ?_⟩⟩ hr
  · rintro c e d ⟨L, R, M, h, hn⟩ hs
    obtain ⟨L', R', M', h', hn'⟩ := namesStored_step hs h hn
    exact ⟨L', R', M', h', hn'⟩
  · exact fun _ hr => nomatch hr
  · exact fun _ hx => nomatch hx

theorem findRoom_named (h : RoomList s R) (ha : a ∈ R) (hname : s.roomNameAt a = some name)
    (huniq : ∀ r ∈ R, s.roomNameAt r = some name → r = a) : findRoom s name = .ok (some a) := by
  rw [findRoom_ok h]
  refine congrArg _ ?_
  cases hf : R.find? fun r => (s.rooms.load r).any fun rt => rt.name = name with
  | none => exact (List.find?_eq_none.mp hf a ha (Server.roomNameAt_iff.mp hname)).elim
  | some r =>
    have hr := List.find?_some hf
    rw [huniq r (List.mem_of_find?_eq_some hf) (Server.roomNameAt_iff.mpr hr)]

/-- A name of at most 23 characters for which `create_room` has returned 0 is found as long as
its room is there, and it cannot be created again. -/
theorem room_names_stable (hr : Reaches NameStep noRooms c) (hn : (name, a) ∈ c.named)
    (hlen : name.length < maxRoomNameLen) :
    findRoom c.server name = .ok (some a) ∧ c.server.roomNameAt a = some name ∧
      ∀ addr, c.server.rooms.Free addr → ∃ t, createRoom c.server name addr =
        .ok (t, if c.server.totalNumOfRooms = maxNumOfRooms then 2 else 3) := by
  obtain ⟨L, R, M, h, hst⟩ := namesStored_reaches hr
  obtain ⟨h0, haR, hstored⟩ := hst.named _ hn
  have hname := (roomNameAt_iff_stored hlen).mpr hstored
  have huniq : ∀ r ∈ R, c.server.roomNameAt r = some name → r = a := fun r hr he =>
    hst.unique r hr a haR name hlen ((roomNameAt_iff_stored hlen).mp he) hstored
  refine ⟨findRoom_named h.roomList haR hname huniq, hname, fun addr hfree => ?_⟩
  obtain ⟨rooms, hm⟩ := Store.malloc_free (v := newRoom name) hfree
  have hleak := (h.leakRoom hm).roomList
  have hkept : ∀ r ∈ R, { c.server with rooms := rooms }.roomNameAt r = c.server.roomNameAt r := by
    intro r hr
    rw [Server.roomNameAt, Store.malloc_kept hm (h.roomList.alloc r hr)]
    rfl
  have hfind : findRoom { c.server with rooms := rooms } (newRoom name).name = .ok (some a) := by
    rw [newRoom_name hlen.le h0]
    refine findRoom_named hleak haR ((hkept a haR).trans hname) fun r hr he => ?_
    exact huniq r hr ((hkept r hr).symm.trans he)
  obtain ⟨x, hx⟩ : ∃ x, c.server.roomListHead = some x := by
    rw [h.roomList.chain.head_eq]
    exact ⟨_, List.head?_eq_some_head (List.ne_nil_of_mem haR)⟩
  refine ⟨{ c.server with rooms := rooms }, ?_⟩
  rw [createRoom, if_neg (by omega)]
  refine bind_eq_ok.mpr ⟨rooms, hm, ?_⟩
  by_cases hfull : c.server.totalNumOfRooms = maxNumOfRooms
  · rw [if_pos hfull, if_pos hfull]
  · rw [if_neg hfull, if_neg hfull]
    split
    · next hnone => cases hx.symm.trans hnone
    · exact bind_eq_ok.mpr ⟨some a, hfind, rfl⟩

/-- Calls of `create_room`, one after the other. -/
def creates (c : RoomNaming) : List (Bytes × Nat) → Call RoomNaming
  | [] => .ok c
  | (name, addr) :: calls => do
    let (t, ret) ← createRoom c.server name addr
    creates (c.next t (if ret = 0 then [(name, addr)] else [])) calls

theorem creates_reaches {calls : List (Bytes × Nat)} (h0 : ∀ x ∈ calls, 0 ∉ x.1)
    (h : creates c calls = .ok d) : Reaches NameStep c d := by
  induction calls generalizing c with
  | nil =>
    cases h
    exact .refl
  | cons x calls ih =>
    obtain ⟨⟨t, ret⟩, ht, h⟩ := ok_of_bind h
    exact .head ⟨_, .create (h0 x (by simp)) ht⟩ (ih (fun y hy => h0 y (by simp [hy])) h)

theorem room_names_stable_A : ∃ c, Reaches NameStep noRooms c ∧ (text "A", 4096) ∈ c.named ∧
    findRoom c.server (text "A") = .ok (some 4096) ∧
      c.server.roomNameAt 4096 = some (text "A") ∧
      ∀ addr, c.server.rooms.Free addr → ∃ t, createRoom c.server (text "A") addr =
        .ok (t, if c.server.totalNumOfRooms = maxNumOfRooms then 2 else 3) := by
  obtain ⟨c, hc, hn⟩ := ok_of_map (c := creates noRooms [(text "A", 4096), (text "B", 8192)])
    (f := fun c => decide ((text "A", 4096) ∈ c.named)) (b := true) (by decide +kernel)
  have hr := creates_reaches (by decide) hc
  exact ⟨c, hr, of_decide_eq_true hn, room_names_stable hr (of_decide_eq_true hn) (by decide)⟩

/-- A name of 24 characters, and forty rooms with other names. -/
def fullName : Bytes := text "abcdefghijklmnopqrstuvwx"

def fortyRooms : List (Bytes × Nat) :=
  (List.range maxNumOfRooms).map fun i => ([UInt8.ofNat (65 + i)], 4096 + 64 * i)

/-- The room with a name of 24 characters is not found any more when there is a room behind
it, and its name is created again. When there are forty rooms a name that exists is refused
for another reason. -/
theorem room_names_lost :
    (∃ c t, Reaches NameStep noRooms c ∧ (fullName, 4096) ∈ c.named ∧
      findRoom c.server fullName = .ok none ∧ createRoom c.server fullName 4224 = .ok (t, 0)) ∧
    ∃ c t, Reaches NameStep noRooms c ∧ (text "A", 4096) ∈ c.named ∧
      findRoom c.server (text "A") = .ok (some 4096) ∧
      createRoom c.server (text "A") 8192 = .ok (t, 2) := by
  constructor
  · obtain ⟨⟨c, found, t, ret⟩, hc, hn⟩ := ok_of_map
      (c := do
        let c ← creates noRooms [(fullName, 4096), (text "B", 4160)]
        let found ← findRoom c.server fullName
        let x ← createRoom c.server fullName 4224
        .ok (c, found, x))
      (f := fun x => (decide ((fullName, 4096) ∈ x.1.named), x.2.1, x.2.2.2)) (b := (true, none, 0))
      (by decide +kernel)
    simp only [Prod.mk.injEq, decide_eq_true_eq] at hn
    obtain ⟨hn, rfl, rfl⟩ := hn
    obtain ⟨c, hc, hh⟩ := ok_of_bind hc
    obtain ⟨found, hf, hh⟩ := ok_of_bind hh
    obtain ⟨x, hx, hh⟩ := ok_of_bind hh
    cases hh
    exact ⟨_, _, creates_reaches (by decide) hc, hn, hf, hx⟩
  · obtain ⟨⟨c, found, t, ret⟩, hc, hn⟩ := ok_of_map
      (c := do
        let c ← creates noRooms fortyRooms
        let found ← findRoom c.server (text "A")
        let x ← createRoom c.server (text "A") 8192
        .ok (c, found, x))
      (f := fun x => (decide ((text "A", 4096) ∈ x.1.named), x.2.1, x.2.2.2))
      (b := (true, some 4096, 2)) (by decide +kernel)
    simp only [Prod.mk.injEq, decide_eq_true_eq] at hn
    obtain ⟨hn, rfl, rfl⟩ := hn
    obtain ⟨c, hc, hh⟩ := ok_of_bind hc
    obtain ⟨found, hf, hh⟩ := ok_of_bind hh
    obtain ⟨x, hx, hh⟩ := ok_of_bind hh
    cases hh
    exact ⟨_, _, creates_reaches (by decide) hc, hn, hf, hx⟩

end Stable
end Csc469.Chat
