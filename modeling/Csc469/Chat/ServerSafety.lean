import Csc469.Chat.ServerRuns

/-! The member list, the rooms' lists and the room list over whole runs of the server. -/
namespace Csc469.Chat

open Execution Linked

variable {c d : Session} {e : Event} {run : List (Event × Session)} {s : Server}
  {L R : List Nat} {M : Nat → List Nat}

theorem sound_step (hs : Step c e d) (h : ∃ L R M, Sound c L R M) : ∃ L R M, Sound d L R M := by
  obtain ⟨L, R, M, h⟩ := h
  obtain ⟨L', R', M', hd, -⟩ := step_sound hs h
  exact ⟨L', R', M', hd⟩

/-- Along any run the lists stay as they are between requests. -/
theorem sound_run (hc : Started c) (hr : Along Step c run) :
    Along (fun c e d => Step c e d ∧ (∃ L R M, Sound c L R M) ∧ ∃ L R M, Sound d L R M) c run := by
  obtain ⟨R, M, h, -⟩ := hc.sound
  exact hr.and (hr.invariant (fun _ _ _ h hs => sound_step hs h) ⟨[], R, M, h⟩)

section Members

/-- A server with two rooms, before any message. -/
def twoRooms : Session :=
  ⟨(initServer [(text "A", 4096), (text "B", 8192)]).toOption.getD .empty, [], []⟩

def request (type id : UInt16) (data : Bytes) : Option Bytes :=
  some (controlMsghdr type id (cmhSize + data.length) ++ data)

/-- A request whose record is allocated at 12288, and the first value `rand()` can have. -/
def firstEnv : Env := ⟨12288, some 0, [0]⟩

/-- A member registers, switches to the first room and is not heard of for two intervals. -/
def oneMember : List Op :=
  [.control firstEnv
      (request registerRequest 0 (store16 (htons 7001) ++ text "ann" ++ [0])),
    .control ⟨0, none, []⟩ (request switchRoomRequest 1 (text "A" ++ [0])),
    .sweep, .sweep]

/-- Two members register and switch to the first room. -/
def twoMembers : List Op :=
  [.control firstEnv (request registerRequest 0 (store16 (htons 7001) ++ text "ann" ++ [0])),
    .control ⟨16384, some 0, [⟨32769, by decide⟩]⟩
      (request registerRequest 0 (store16 (htons 7002) ++ text "bob" ++ [0])),
    .control ⟨0, none, []⟩ (request switchRoomRequest 1 (text "A" ++ [0])),
    .control ⟨0, none, []⟩ (request switchRoomRequest 2 (text "A" ++ [0]))]

/-- Then the first of them is not heard of for two intervals, and goes. -/
def annLeaves : List Op :=
  twoMembers ++
    [.sweep, .control ⟨0, none, []⟩ (request memberKeepAlive 2 []), .sweep]

/-- A member stays in the second room, the first one is removed, and a third one is created. -/
def roomRemoved : List Op :=
  [.control firstEnv (request registerRequest 0 (store16 (htons 7001) ++ text "ann" ++ [0])),
    .control ⟨0, none, []⟩ (request switchRoomRequest 1 (text "B" ++ [0])),
    .sweep, .control ⟨0, none, []⟩ (request memberKeepAlive 1 []), .sweep,
    .control ⟨16384, none, []⟩ (request createRoomRequest 1 (text "C" ++ [0]))]

theorem twoRooms_started : Started twoRooms := by
  obtain ⟨s, hs, he⟩ := ok_of_map (c := initServer [(text "A", 4096), (text "B", 8192)])
    (f := Server.roomListHead) (b := some 4096) (by decide +kernel)
  refine ⟨⟨[(text "A", 4096), (text "B", 8192)], ?_⟩, rfl, rfl⟩
  rw [twoRooms, hs]
  rfl

end Members

section Registry

/-- The member list is a doubly linked list with its tail and its count, no two members share
an id or a name, and the search for an id finds the member that was sent it. -/
def RegistrySound (c : Session) : Prop :=
  ∃ L, DList (memberLinks.succ c.server.members) (memberLinks.pred c.server.members)
      c.server.memListHead L ∧
    c.server.memListTail = L.getLast? ∧ c.server.totalNumOfMembers = L.length ∧
    L.length ≤ maxNumOfMembers ∧
    (∀ a ∈ L, ∃ id, c.server.idAt a = some id ∧ 1 ≤ id.toNat ∧ id.toNat ≤ 65535) ∧
    (∀ a ∈ L, ∀ b ∈ L, c.server.idAt a = c.server.idAt b → a = b) ∧
    (∀ a ∈ L, ∀ b ∈ L, c.server.nameAt a = c.server.nameAt b → a = b) ∧
    ∀ id, ∃ found, findMemberWithId c.server id = .ok found ∧
      ∀ a, found = some a ↔ (id, a) ∈ c.holders

/-- A member that was sent an id holds it from then on, until it leaves: by a quit message
with that id, or in a sweep. -/
def HoldersKept (c : Session) (e : Event) (d : Session) : Prop :=
  (∀ x ∈ e.newHolders, x ∈ d.holders) ∧ ∀ x ∈ c.holders, x ∈ d.holders ∨ e.Leaves x.1

theorem Sound.registrySound (h : Sound c L R M) : RegistrySound c := by
  have hreg := h.inv.registry
  refine ⟨L, hreg.list, hreg.tail, hreg.count, hreg.le, fun a ha => ?_, hreg.ids, hreg.names,
    fun id => ⟨_, findMemberWithId_ok hreg id, fun a => ?_⟩⟩
  · obtain ⟨mt, hmt⟩ := Option.isSome_iff_exists.mp (hreg.alloc a ha)
    have hpos := hreg.id_pos a ha
    refine ⟨mt.memberId, by simp [Server.idAt, hmt], ?_, ?_⟩
    · by_contra hlt
      have h0 : mt.memberId = 0 := UInt16.toNat_inj.mp (by simpa using hlt)
      simp [Server.idAt, hmt, h0] at hpos
    · have := mt.memberId.toNat_lt
      omega
  · rw [h.holders, ← findMemberWithId_some_iff hreg, findMemberWithId_ok hreg]
    simp

theorem registry_sound (hc : Started c) (hr : Along Step c run) :
    RegistrySound c ∧ Along (fun c e d => RegistrySound d ∧ HoldersKept c e d) c run := by
  constructor
  · obtain ⟨R, M, h, -⟩ := hc.sound
    exact h.registrySound
  · refine (sound_run hc hr).mono ?_
    rintro c e d ⟨hs, ⟨L, R, M, h⟩, -⟩
    obtain ⟨L', R', M', hd, hk, -⟩ := step_sound hs h
    exact ⟨hd.registrySound, hk.confirmed, hk.holders⟩

/-- The id that each of the two has been sent is its own until it leaves. -/
theorem registry_sound_annLeaves : ∃ run, Started twoRooms ∧ Along Step twoRooms run ∧
    run.map (fun x => x.2.holders) =
      [(1, 12288)] :: (List.replicate 5 [(2, 16384), (1, 12288)] ++ [[(2, 16384)]]) ∧
    RegistrySound twoRooms ∧
    Along (fun c e d => RegistrySound d ∧ HoldersKept c e d) twoRooms run := by
  obtain ⟨run, hrun, hh⟩ := ok_of_map (c := rounds twoRooms annLeaves)
    (f := List.map fun x => x.2.holders)
    (b := [(1, 12288)] :: (List.replicate 5 [(2, 16384), (1, 12288)] ++ [[(2, 16384)]]))
    (by decide +kernel)
  have hr := rounds_along hrun
  exact ⟨run, twoRooms_started, hr, hh, registry_sound twoRooms_started hr⟩

end Registry

section Membership

/-- In every room the list of its members is exactly that, with its tail and its count, and
no member is in a room that is not in the room list. -/
def MembershipSound (s : Server) : Prop :=
  ∃ (L R : List Nat) (M : Nat → List Nat), Chain (memberLinks.succ s.members) s.memListHead L ∧
    Chain s.nextRoomAt s.roomListHead R ∧
    (∀ r ∈ R, DList (roomLinks.succ s.members) (roomLinks.pred s.members) (s.roomHead r) (M r) ∧
      (M r).Nodup ∧ (∀ a, a ∈ M r ↔ a ∈ L ∧ s.roomAt a = some r) ∧
      s.roomTail r = (M r).getLast? ∧
      (s.rooms.load r).map Room.numOfMembers = some ((M r).length : Int) ∧
      (M r).length ≤ maxNumOfMembersPerRoom) ∧
    ∀ a ∈ L, ∀ r, s.roomAt a = some r → r ∈ R

theorem Inv.membershipSound (h : Inv s L R M) : MembershipSound s := by
  have hm := h.membership
  refine ⟨L, R, M, h.registry.list.forth, h.roomList.chain, fun r hr => ?_, hm.current⟩
  have d := hm.family.dlist r hr
  exact ⟨d, d.nodup, hm.mem r hr, hm.tail r hr, hm.count r hr, hm.le r hr⟩

theorem membership_sound (hc : Started c) (hr : Along Step c run) :
    MembershipSound c.server ∧ ∀ x ∈ run, MembershipSound x.2.server := by
  constructor
  · obtain ⟨R, M, h, -⟩ := hc.sound
    exact h.inv.membershipSound
  · refine (along_states (P := fun d => MembershipSound d.server)).mp ((sound_run hc hr).mono ?_)
    rintro c e d ⟨-, -, L, R, M, h⟩
    exact h.inv.membershipSound

/-- Behind the first member of the room is the second one, who is alone there in the end. -/
theorem membership_sound_annLeaves : ∃ run, Started twoRooms ∧ Along Step twoRooms run ∧
    run.map (fun x => (x.2.server.roomHead 4096, x.2.server.roomTail 4096)) =
      [(none, none), (none, none), (some 12288, some 12288)] ++
        List.replicate 3 (some 12288, some 16384) ++ [(some 16384, some 16384)] ∧
    MembershipSound twoRooms.server ∧ ∀ x ∈ run, MembershipSound x.2.server := by
  obtain ⟨run, hrun, hh⟩ := ok_of_map (c := rounds twoRooms annLeaves)
    (f := List.map fun x => (x.2.server.roomHead 4096, x.2.server.roomTail 4096))
    (b := [(none, none), (none, none), (some 12288, some 12288)] ++
      List.replicate 3 (some 12288, some 16384) ++ [(some 16384, some 16384)]) (by decide +kernel)
  have hr := rounds_along hrun
  exact ⟨run, twoRooms_started, hr, hh, membership_sound twoRooms_started hr⟩

end Membership

section RoomList

/-- The room list is a finite chain with its tail and its count, it can always take another
room, and it has every room that was announced and not removed. -/
def RoomsSound (c : Session) : Prop :=
  ∃ R, Chain c.server.nextRoomAt c.server.roomListHead R ∧ R.Nodup ∧
    c.server.roomListTail = R.getLast? ∧ c.server.totalNumOfRooms = R.length ∧
    R.length ≤ maxNumOfRooms ∧ (∀ r ∈ c.announced, r ∈ R) ∧
    ∀ name addr, c.server.rooms.Free addr → ∃ x, createRoom c.server name addr = .ok x

/-- A room that was announced stays so until a sweep. -/
def AnnouncedKept (c : Session) (e : Event) (d : Session) : Prop :=
  (∀ r ∈ e.newRooms, r ∈ d.announced) ∧ ∀ r ∈ c.announced, r ∈ d.announced ∨ e.Removes

theorem Sound.roomsSound_iff (h : Sound c L R M) :
    RoomsSound c ↔ c.server.roomListTail = R.getLast? := by
  have hl := h.inv.roomList
  constructor
  · rintro ⟨R', hR', -, ht, -⟩
    rwa [Chain.unique hR' hl.chain] at ht
  · intro ht
    exact ⟨R, hl.chain, hl.nodup, ht, hl.count, hl.le, h.announced,
      fun name addr hf => createRoom_ok h.inv ht hf⟩

/-- The room list is sound along a run exactly when no sweep of the run takes the last room
away from rooms that stay. -/
theorem rooms_sound_iff (hc : Started c) (hr : Along Step c run) :
    (RoomsSound c ∧ Along (fun c e d => RoomsSound d ∧ AnnouncedKept c e d) c run) ↔
      Along (fun c e _ => KeepsTail c.server e) c run := by
  obtain ⟨R, M, h, ht⟩ := hc.sound
  have hsound := h.roomsSound_iff.mpr ht
  rw [and_iff_right hsound]
  refine along_iff (I := fun c => RoomsSound c ∧ ∃ L R M, Sound c L R M) ?_
    ⟨hsound, [], R, M, h⟩ hr
  rintro c e d ⟨hrc, L, R, M, h⟩ hs
  obtain ⟨L', R', M', hd, hk, htail⟩ := step_sound hs h
  have hiff := htail (h.roomsSound_iff.mp hrc)
  rw [← hd.roomsSound_iff] at hiff
  refine ⟨⟨fun hg => hiff.mp hg.1, fun hq => ⟨hiff.mpr hq, hk.created, hk.announced⟩⟩,
    fun hq => ⟨hiff.mpr hq, L', R', M', hd⟩⟩

/-- The second room is the last of the two, and does not go in a sweep. -/
def SecondStays (s : Server) : Event → Prop
  | .sweep => s.roomListHead = some 4096 ∧ s.nextRoomAt 4096 = some 8192 ∧
      s.nextRoomAt 8192 = none ∧ s.emptyFlagAt 8192 = some 0
  | _ => True

instance SecondStays.decidable : (s : Server) → (e : Event) → Decidable (SecondStays s e)
  | _, .sweep => inferInstanceAs (Decidable (_ ∧ _))
  | _, .control .. => .isTrue trivial
  | _, .chat .. => .isTrue trivial

theorem SecondStays.keepsTail (h : SecondStays s e) : KeepsTail s e := by
  cases e with
  | sweep =>
    obtain ⟨hhead, hfirst, hsecond, hflag⟩ := h
    intro R hR
    have hboth : Chain s.nextRoomAt s.roomListHead [4096, 8192] :=
      ⟨hhead, by rw [hfirst]; exact ⟨rfl, hsecond⟩⟩
    obtain rfl := Chain.unique hR hboth
    refine .inl fun r hr => ?_
    cases hr
    exact hflag
  | _ => trivial

/-- The first room goes in a sweep, and the next room is created behind the second one. -/
theorem rooms_sound_iff_roomRemoved : ∃ run, Started twoRooms ∧ Along Step twoRooms run ∧
    run.map (fun x => (x.2.server.roomListHead, x.2.server.roomListTail)) =
      List.replicate 4 (some 4096, some 8192) ++
        [(some 8192, some 8192), (some 8192, some 16384)] ∧
    Along (fun c e _ => KeepsTail c.server e) twoRooms run ∧
    ((RoomsSound twoRooms ∧ Along (fun c e d => RoomsSound d ∧ AnnouncedKept c e d) twoRooms run) ↔
      Along (fun c e _ => KeepsTail c.server e) twoRooms run) := by
  obtain ⟨run, hrun, hh⟩ := ok_of_map (c := rounds twoRooms roomRemoved)
    (f := fun run => (run.map fun x => (x.2.server.roomListHead, x.2.server.roomListTail),
      decide (Along (fun c e _ => SecondStays c.server e) twoRooms run)))
    (b := (List.replicate 4 (some 4096, some 8192) ++
      [(some 8192, some 8192), (some 8192, some 16384)], true)) (by decide +kernel)
  obtain ⟨hrooms, hstays⟩ := Prod.mk.inj hh
  have hr := rounds_along hrun
  have hkeeps := (of_decide_eq_true hstays).mono
    (Q := fun c e _ => KeepsTail c.server e) fun _ _ _ h => h.keepsTail
  exact ⟨run, twoRooms_started, hr, hrooms, hkeeps, rooms_sound_iff twoRooms_started hr⟩

/-- Room B is empty for two intervals and is removed; room A stays and the tail is lost. The
next room that is created is linked behind no room. -/
theorem room_tail_lost : ∃ run, Started twoRooms ∧ Along Step twoRooms run ∧
    ∃ x ∈ run, x.2.server.roomListHead = some 4096 ∧ x.2.server.roomListTail = none ∧
      x.2.server.rooms.Free 16384 ∧ createRoom x.2.server (text "C") 16384 = .error .fault ∧
      ¬RoomsSound x.2 := by
  obtain ⟨run, hrun, hh⟩ := ok_of_map (c := rounds twoRooms oneMember)
    (f := fun run => run.getLast?.map fun x : Event × Session =>
      (x.2.server.roomListHead, x.2.server.roomListTail,
      decide (x.2.server.rooms.Free 16384),
      match createRoom x.2.server (text "C") 16384 with
      | .error .fault => true
      | _ => false))
    (b := some (some 4096, none, true, true)) (by decide +kernel)
  obtain ⟨x, hx, he⟩ := Option.map_eq_some_iff.mp hh
  simp only [Prod.mk.injEq, decide_eq_true_eq] at he
  obtain ⟨hhead, htail, hfree, hcreate⟩ := he
  have hfault : createRoom x.2.server (text "C") 16384 = .error .fault := by
    split at hcreate
    · assumption
    · cases hcreate
  refine ⟨run, twoRooms_started, rounds_along hrun, x, List.mem_of_getLast? hx, hhead, htail, hfree,
    hfault, ?_⟩
  rintro ⟨R, -, -, -, -, -, -, hok⟩
  obtain ⟨y, hy⟩ := hok (text "C") 16384 hfree
  rw [hfault] at hy
  cases hy

end RoomList
end Csc469.Chat
