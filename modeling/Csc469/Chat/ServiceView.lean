import Csc469.Chat.RoomNames
import Csc469.Chat.SweepRules
import Csc469.ChatService

/-! The server as a chat service: what its searches find, and what a request changes of it. -/
namespace Csc469.Chat

open Execution Linked ChatService

namespace Server

/-- The member at `a` as others know it. -/
def presenceAt (s : Server) (a : Nat) : Option (Presence Bytes) :=
  (s.nameAt a).map fun name =>
    ⟨name, (s.roomAt a).bind s.roomNameAt, decide (s.quietAt a ≠ some 0)⟩

def idleAt (s : Server) (r : Nat) : Option Bool := (s.emptyFlagAt r).map fun n => decide (n ≠ 0)

/-- The service that the server gives: what its own searches find. -/
def service (s : Server) : Service UInt16 Bytes where
  member id :=
    match findMemberWithId s id with
    | .ok (some a) => s.presenceAt a
    | _ => none
  idle name :=
    match findRoom s name with
    | .ok (some r) => s.idleAt r
    | _ => none

end Server

def chatLimits : Limits Bytes :=
  ⟨maxNumOfMembers, maxNumOfRooms, maxNumOfMembersPerRoom, fun name => name.length ≤ maxRoomNameLen⟩

/-- The lists are as between requests, and the rooms have names of at most 23 characters, no
two the same. -/
structure WellNamed (s : Server) (L R : List Nat) (M : Nat → List Nat) : Prop where
  inv : Inv s L R M
  short : ∀ r ∈ R, ∀ name, s.storedAt r = some name → name.length < maxRoomNameLen
  unique : ∀ r ∈ R, ∀ r' ∈ R, s.storedAt r = s.storedAt r' → r = r'

variable {s t : Server} {L R L' R' : List Nat} {M M' : Nat → List Nat} {a b r : Nat} {env : Env}
  {msg name : Bytes} {reply : Option Reply} {id : UInt16}

section Seen

theorem ncard_of_list {α β : Type*} {S : Set α} {l : List β} {f : β → Option α} (hnd : l.Nodup)
    (hinj : ∀ a ∈ l, ∀ b ∈ l, f a = f b → a = b) (hsome : ∀ a ∈ l, (f a).isSome)
    (hS : ∀ x, x ∈ S ↔ ∃ a ∈ l, f a = some x) : S.ncard = l.length := by
  classical
  have hset : Option.some '' S = ((l.map f).toFinset : Set (Option α)) := by
    ext o
    simp only [Set.mem_image, List.coe_toFinset, List.mem_map, Set.mem_ofPred_eq]
    constructor
    · rintro ⟨x, hx, rfl⟩
      exact (hS x).mp hx
    · rintro ⟨a, ha, rfl⟩
      obtain ⟨x, hx⟩ := Option.isSome_iff_exists.mp (hsome a ha)
      exact ⟨x, (hS x).mpr ⟨a, ha, hx⟩, hx.symm⟩
  rw [← Set.ncard_image_of_injective S (Option.some_injective α), hset, Set.ncard_coe_finset,
    List.toFinset_card_of_nodup (hnd.map_on hinj), List.length_map]

theorem WellNamed.roomNameAt (h : WellNamed s L R M) (hr : r ∈ R) :
    s.roomNameAt r = s.storedAt r := by
  obtain ⟨rt, hrt⟩ := Option.isSome_iff_exists.mp (h.inv.roomList.alloc r hr)
  have hstored : s.storedAt r = some (cstr rt.roomName.toList) := by simp [Server.storedAt, hrt]
  rw [hstored, roomNameAt_iff_stored (h.short r hr _ hstored), hstored]

theorem WellNamed.room_eq (h : WellNamed s L R M) (hr : r ∈ R) {r' : Nat} (hr' : r' ∈ R)
    (he : s.roomNameAt r = s.roomNameAt r') : r = r' := by
  rw [h.roomNameAt hr, h.roomNameAt hr'] at he
  exact h.unique r hr r' hr' he

theorem Registry.member_at (h : Registry s L) (ha : a ∈ L) (hid : s.idAt a = some id) :
    s.service.member id = s.presenceAt a := by
  simp only [Server.service, (findMemberWithId_some_iff h).mpr ⟨ha, hid⟩]

theorem Registry.member_none (h : Registry s L) (hno : ∀ a ∈ L, s.idAt a ≠ some id) :
    s.service.member id = none := by
  have hf := findMemberWithId_ok h id
  have hnone : (L.find? fun a => (s.members.load a).any fun mt => mt.memberId = id) = none := by
    refine List.find?_eq_none.mpr fun a ha he => ?_
    exact hno a ha (Server.idAt_iff.mpr he)
  rw [hnone] at hf
  simp only [Server.service, hf]

theorem Registry.member_ext (h : Registry s L) {f : UInt16 → Option (Presence Bytes)}
    (hat : ∀ a ∈ L, ∀ id, s.idAt a = some id → f id = s.presenceAt a)
    (hno : ∀ id, (∀ a ∈ L, s.idAt a ≠ some id) → f id = none) : s.service.member = f := by
  funext id
  by_cases hid : ∃ a ∈ L, s.idAt a = some id
  · obtain ⟨a, ha, hid⟩ := hid
    rw [h.member_at ha hid, hat a ha id hid]
  · push Not at hid
    rw [h.member_none hid, hno id hid]

theorem WellNamed.idle_at (h : WellNamed s L R M) (hr : r ∈ R) (hn : s.roomNameAt r = some name) :
    s.service.idle name = s.idleAt r := by
  have hf := findRoom_named h.inv.roomList hr hn fun r' hr' he =>
    h.room_eq hr' hr (he.trans hn.symm)
  simp only [Server.service, hf]

theorem idle_none (h : RoomList s R) (hno : ∀ r ∈ R, s.roomNameAt r ≠ some name) :
    s.service.idle name = none := by
  have hf := findRoom_ok h name
  have hnone : (R.find? fun r => (s.rooms.load r).any fun rt => rt.name = name) = none := by
    refine List.find?_eq_none.mpr fun r hr he => ?_
    exact hno r hr (Server.roomNameAt_iff.mpr he)
  rw [hnone] at hf
  simp only [Server.service, hf]

theorem WellNamed.idle_ext (h : WellNamed s L R M) {f : Bytes → Option Bool}
    (hat : ∀ r ∈ R, ∀ name, s.roomNameAt r = some name → f name = s.idleAt r)
    (hno : ∀ name, (∀ r ∈ R, s.roomNameAt r ≠ some name) → f name = none) :
    s.service.idle = f := by
  funext name
  by_cases hn : ∃ r ∈ R, s.roomNameAt r = some name
  · obtain ⟨r, hr, hn⟩ := hn
    rw [h.idle_at hr hn, hat r hr name hn]
  · push Not at hn
    rw [idle_none h.inv.roomList hn, hno name hn]

theorem presenceAt_isSome : (s.presenceAt a).isSome = (s.members.load a).isSome := by
  simp [Server.presenceAt, Server.nameAt]

theorem idleAt_isSome : (s.idleAt r).isSome = (s.rooms.load r).isSome := by
  simp [Server.idleAt, Server.emptyFlagAt]

theorem Registry.member_isSome_iff (h : Registry s L) :
    (s.service.member id).isSome ↔ ∃ a ∈ L, s.idAt a = some id := by
  constructor
  · intro hsome
    by_contra hno
    push Not at hno
    rw [h.member_none hno] at hsome
    cases hsome
  · rintro ⟨a, ha, hid⟩
    rw [h.member_at ha hid, presenceAt_isSome]
    exact h.alloc a ha

theorem WellNamed.idle_isSome_iff (h : WellNamed s L R M) :
    (s.service.idle name).isSome ↔ ∃ r ∈ R, s.roomNameAt r = some name := by
  constructor
  · intro hsome
    by_contra hno
    push Not at hno
    rw [idle_none h.inv.roomList hno] at hsome
    cases hsome
  · rintro ⟨r, hr, hn⟩
    rw [h.idle_at hr hn, idleAt_isSome]
    exact h.inv.roomList.alloc r hr

theorem Registry.idAt_isSome (h : Registry s L) (ha : a ∈ L) : (s.idAt a).isSome := by
  rw [Server.idAt, Option.isSome_map]
  exact h.alloc a ha

theorem RoomList.roomNameAt_isSome (h : RoomList s R) (hr : r ∈ R) : (s.roomNameAt r).isSome := by
  rw [Server.roomNameAt, Option.isSome_map]
  exact h.alloc r hr

theorem Registry.ncard_present (h : Registry s L) : s.service.present.ncard = L.length :=
  ncard_of_list h.nodup h.ids (fun _ ha => h.idAt_isSome ha) fun _ => h.member_isSome_iff

theorem WellNamed.ncard_rooms (h : WellNamed s L R M) : s.service.rooms.ncard = R.length :=
  ncard_of_list h.inv.roomList.nodup (fun _ hr _ hr' => h.room_eq hr hr')
    (fun _ hr => h.inv.roomList.roomNameAt_isSome hr) fun _ => h.idle_isSome_iff

theorem WellNamed.mem_occupants_iff (h : WellNamed s L R M) (hr : r ∈ R)
    (hn : s.roomNameAt r = some name) :
    id ∈ s.service.occupants name ↔ ∃ a ∈ M r, s.idAt a = some id := by
  constructor
  · rintro ⟨p, hp, hroom⟩
    have hsome : (s.service.member id).isSome := by rw [hp, Option.isSome_some]
    obtain ⟨a, ha, hid⟩ := h.inv.registry.member_isSome_iff.mp hsome
    rw [h.inv.registry.member_at ha hid] at hp
    obtain ⟨n, -, rfl⟩ := Option.map_eq_some_iff.mp hp
    obtain ⟨r', hr', hn'⟩ := Option.bind_eq_some_iff.mp hroom
    obtain rfl := h.room_eq (h.inv.membership.current a ha r' hr') hr (hn'.trans hn.symm)
    exact ⟨a, (h.inv.membership.mem _ hr a).mpr ⟨ha, hr'⟩, hid⟩
  · rintro ⟨a, haM, hid⟩
    obtain ⟨ha, hroom⟩ := (h.inv.membership.mem r hr a).mp haM
    have hsome := presenceAt_isSome.trans (h.inv.registry.alloc a ha)
    obtain ⟨p, hp⟩ := Option.isSome_iff_exists.mp hsome
    refine ⟨p, (h.inv.registry.member_at ha hid).trans hp, ?_⟩
    obtain ⟨n, -, rfl⟩ := Option.map_eq_some_iff.mp hp
    simp [hroom, hn]

theorem WellNamed.ncard_occupants (h : WellNamed s L R M) (hr : r ∈ R)
    (hn : s.roomNameAt r = some name) :
    (s.service.occupants name).ncard = (M r).length := by
  have hL : ∀ a ∈ M r, a ∈ L := fun a ha => h.inv.membership.mem_left hr ha
  exact ncard_of_list (h.inv.membership.family.dlist r hr).nodup
    (fun a ha b hb => h.inv.registry.ids a (hL a ha) b (hL b hb))
    (fun a ha => h.inv.registry.idAt_isSome (hL a ha)) fun _ => h.mem_occupants_iff hr hn

end Seen

section Effects

theorem presenceAt_congr (hname : t.nameAt a = s.nameAt a) (hroom : t.roomAt a = s.roomAt a)
    (hquiet : t.quietAt a = s.quietAt a)
    (hr : ∀ r, s.roomAt a = some r → t.roomNameAt r = s.roomNameAt r) :
    t.presenceAt a = s.presenceAt a := by
  rw [Server.presenceAt, hname, hroom, hquiet, Server.presenceAt]
  cases h : s.roomAt a with
  | none => rfl
  | some r => rw [Option.bind_some, Option.bind_some, hr r h]

theorem service_idle_congr (hrooms : t.rooms = s.rooms) (hhead : t.roomListHead = s.roomListHead) :
    t.service.idle = s.service.idle := by
  funext name
  simp only [Server.service, findRoom, Server.idleAt, Server.emptyFlagAt, hrooms, hhead]

/-- Nothing that is seen has changed. -/
theorem WellNamed.service_congr (h : WellNamed s L R M) (ht : WellNamed t L R M')
    (hid : ∀ a ∈ L, t.idAt a = s.idAt a) (hp : ∀ a ∈ L, t.presenceAt a = s.presenceAt a)
    (hname : ∀ r ∈ R, t.roomNameAt r = s.roomNameAt r)
    (hidle : ∀ r ∈ R, t.idleAt r = s.idleAt r) : t.service = s.service := by
  refine Service.ext ?_ ?_
  · refine ht.inv.registry.member_ext (fun a ha id he => ?_) fun id hno => ?_
    · rw [hid a ha] at he
      rw [h.inv.registry.member_at ha he, hp a ha]
    · exact h.inv.registry.member_none fun a ha he => hno a ha ((hid a ha).trans he)
  · refine ht.idle_ext (fun r hr name hn => ?_) fun name hno => ?_
    · rw [hname r hr] at hn
      rw [h.idle_at hr hn, hidle r hr]
    · exact idle_none h.inv.roomList fun r hr he => hno r hr ((hname r hr).trans he)

theorem presenceAt_of_load {mt : Member} (hl : s.members.load a = some mt) : s.presenceAt a =
    some ⟨mt.name, mt.currentRoom.bind s.roomNameAt, decide (mt.quietFlag ≠ 0)⟩ := by
  simp [Server.presenceAt, Server.nameAt, Server.roomAt, Server.quietAt, hl]

theorem presenceAt_of_free (hl : s.members.load a = none) : s.presenceAt a = none := by
  simp [Server.presenceAt, Server.nameAt, hl]

/-- The member at `a` has been heard of, by a write that its lists and the others do not see. -/
structure Hears (u : Member → Member) : Prop where
  identity : ∀ mt, (u mt).identity = mt.identity
  place : ∀ mt, (u mt).place = mt.place
  quiet : ∀ mt, (u mt).quietFlag = 0

theorem presenceAt_hears {u : Member → Member} (hu : Hears u) :
    Server.presenceAt { s with members := s.members.modify a u } b =
      if b = a then (s.presenceAt b).map Presence.heard else s.presenceAt b := by
  have hrooms : Server.roomNameAt { s with members := s.members.modify a u } = s.roomNameAt := rfl
  cases hl : s.members.load b with
  | none =>
    have hl' : (s.members.modify a u).load b = none := by simp [hl]
    rw [presenceAt_of_free hl, presenceAt_of_free hl', Option.map_none, ite_self]
  | some mt =>
    by_cases hb : b = a
    · have hl' : (s.members.modify a u).load b = some (u mt) := by simp [hb ▸ hl, hb]
      have hname : (u mt).name = mt.name :=
        congrArg (fun x : _ × Vector UInt8 maxMemberNameLen × _ => cstr x.2.1.toList)
          (hu.identity mt)
      have hroom : (u mt).currentRoom = mt.currentRoom :=
        congrArg (fun x : _ × _ × Option Nat => x.2.2) (hu.place mt)
      rw [if_pos hb, presenceAt_of_load hl, presenceAt_of_load hl', hname, hroom, hu.quiet, hrooms]
      rfl
    · have hl' : (s.members.modify a u).load b = some mt := by simp [hl, hb]
      rw [if_neg hb, presenceAt_of_load hl, presenceAt_of_load hl', hrooms]

theorem WellNamed.hears {u : Member → Member} (h : WellNamed s L R M) (hu : Hears u) :
    WellNamed { s with members := s.members.modify a u } L R M :=
  ⟨h.inv.modifyMember u hu.identity hu.place, h.short, h.unique⟩

/-- The member with the id is heard of. -/
theorem WellNamed.service_hears {u : Member → Member} (h : WellNamed s L R M) (hu : Hears u)
    (ha : a ∈ L) (hid : s.idAt a = some id) :
    Server.service { s with members := s.members.modify a u } = s.service.hear id := by
  have hids : ∀ b, Server.idAt { s with members := s.members.modify a u } b = s.idAt b := fun b =>
    Store.map_of_map (f := Member.identity) (Store.agree_modify hu.identity b) Prod.fst
  refine Service.ext ?_ (service_idle_congr rfl rfl)
  refine (h.hears hu).inv.registry.member_ext (fun b hb i hi => ?_) fun i hno => ?_
  · rw [hids] at hi
    rw [member_hear, h.inv.registry.member_at hb hi, presenceAt_hears hu]
    by_cases hba : b = a
    · subst hba
      rw [if_pos (Option.some.inj (hid.symm.trans hi)), if_pos rfl]
    · have hne : id ≠ i := by
        rintro rfl
        exact hba (h.inv.registry.ids b hb a ha (hi.trans hid.symm))
      rw [if_neg hne, if_neg hba]
  · have hnone := h.inv.registry.member_none fun b hb he => hno b hb ((hids b).trans he)
    rw [member_hear, hnone]
    exact ite_self _

theorem hears_touch : Hears fun mt => { mt with quietFlag := 0 } :=
  ⟨fun _ => rfl, fun _ => rfl, fun _ => rfl⟩

theorem hears_heard {n : Nat} : Hears fun mt =>
    { mt with
      quietFlag := 0
      numChatMsgs := mt.numChatMsgs + 1
      numBytesRcved := mt.numBytesRcved + n } :=
  ⟨fun _ => rfl, fun _ => rfl, fun _ => rfl⟩

theorem WellNamed.touch (h : WellNamed s L R M) : WellNamed (s.touch a) L R M := h.hears hears_touch

theorem WellNamed.service_touch (h : WellNamed s L R M) (ha : a ∈ L) (hid : s.idAt a = some id) :
    (s.touch a).service = s.service.hear id := h.service_hears hears_touch ha hid

theorem WellNamed.service_heard {n : Nat} (h : WellNamed s L R M) (ha : a ∈ L)
    (hid : s.idAt a = some id) :
    (s.heard a n).service = s.service.hear id := h.service_hears hears_heard ha hid

/-- The names of the rooms stay apart when those that come have room for their terminator. -/
theorem WellNamed.renamed {names : List (Bytes × Nat)} (h : WellNamed s L R M) (ht : Inv t L' R' M')
    (hr : Renaming s t R R' names) (hfits : ∀ x ∈ names, x.1.length < maxRoomNameLen) :
    WellNamed t L' R' M' := by
  cases hr with
  | kept hsub hstored =>
    refine ⟨ht, fun r hr name hn => ?_, fun r hr r' hr' he => ?_⟩
    · exact h.short r (hsub r hr) name ((hstored r hr).symm.trans hn)
    · rw [hstored r hr, hstored r' hr'] at he
      exact h.unique r (hsub r hr) r' (hsub r' hr') he
  | @added name addr h0 hR hnew hadd hstored =>
    subst hR
    have hlen : name.length < maxRoomNameLen := hfits (name, addr) (by simp)
    have hold : ∀ r ∈ R, s.storedAt r ≠ some name := fun r hr he =>
      hnew r hr ((roomNameAt_iff_stored hlen).mpr he)
    refine ⟨ht, fun r hr n hn => ?_, fun r hr r' hr' he => ?_⟩
    · rcases List.mem_append.mp hr with hr | hr
      · exact h.short r hr n ((hstored r hr).symm.trans hn)
      · rw [List.mem_singleton.mp hr, hadd] at hn
        cases hn
        exact hlen
    · rcases List.mem_append.mp hr with hm | hm <;> rcases List.mem_append.mp hr' with hm' | hm'
      · rw [hstored r hm, hstored r' hm'] at he
        exact h.unique r hm r' hm' he
      · rw [hstored r hm, List.mem_singleton.mp hm', hadd] at he
        exact (hold r hm he).elim
      · rw [hstored r' hm', List.mem_singleton.mp hm, hadd] at he
        exact (hold r' hm' he.symm).elim
      · rw [List.mem_singleton.mp hm, List.mem_singleton.mp hm']

theorem WellNamed.listing (h : WellNamed s L R M) (ht : Inv t L' R M')
    (hl : Store.Agree Room.listing s.rooms t.rooms) : WellNamed t L' R M' :=
  h.renamed ht (.of_listing hl) fun _ hx => nomatch hx

theorem WellNamed.roomNameAt_eq (h : WellNamed s L R M) (ht : WellNamed t L' R' M')
    (hr : r ∈ R) (hr' : r ∈ R') (hs : t.storedAt r = s.storedAt r) :
    t.roomNameAt r = s.roomNameAt r := by
  rw [ht.roomNameAt hr', h.roomNameAt hr, hs]

theorem WellNamed.roomNameAt_listing (h : WellNamed s L R M) (ht : WellNamed t L' R M')
    (hl : Store.Agree Room.listing s.rooms t.rooms) (hr : r ∈ R) :
    t.roomNameAt r = s.roomNameAt r :=
  h.roomNameAt_eq ht hr hr (Store.map_of_map (hl r) fun x => cstr x.1.toList)

/-- A record that is not in the member list is not seen. -/
theorem WellNamed.service_leakMember {members : Store Member} {mt : Member} (h : WellNamed s L R M)
    (hm : s.members.malloc r mt = .ok members) :
    WellNamed { s with members := members } L R M ∧
      Server.service { s with members := members } = s.service := by
  have hload : ∀ a ∈ L, members.load a = s.members.load a := fun a ha =>
    Store.malloc_kept hm (h.inv.registry.alloc a ha)
  have ht : WellNamed { s with members := members } L R M :=
    ⟨h.inv.leakMember hm, h.short, h.unique⟩
  refine ⟨ht, h.service_congr ht (fun a ha => ?_) (fun a ha => ?_) (fun _ _ => rfl) fun _ _ => rfl⟩
  · rw [Server.idAt, hload a ha]
    rfl
  · refine presenceAt_congr ?_ ?_ ?_ fun _ _ => rfl
    · rw [Server.nameAt, hload a ha]
      rfl
    · rw [Server.roomAt, hload a ha]
      rfl
    · rw [Server.quietAt, hload a ha]
      rfl

/-- A record that is not in the room list is not seen. -/
theorem WellNamed.service_leakRoom {rooms : Store Room} {rt : Room} (h : WellNamed s L R M)
    (hm : s.rooms.malloc r rt = .ok rooms) :
    WellNamed { s with rooms := rooms } L R M ∧
      Server.service { s with rooms := rooms } = s.service := by
  have hload : ∀ r ∈ R, rooms.load r = s.rooms.load r := fun r hr =>
    Store.malloc_kept hm (h.inv.roomList.alloc r hr)
  have ht : WellNamed { s with rooms := rooms } L R M :=
    h.renamed (h.inv.leakRoom hm) (.leak h.inv.roomList hm) fun _ hx => nomatch hx
  have hname : ∀ r ∈ R, Server.roomNameAt { s with rooms := rooms } r = s.roomNameAt r := by
    intro r hr
    rw [Server.roomNameAt, hload r hr]
    rfl
  refine ⟨ht, h.service_congr ht (fun _ _ => rfl) (fun a ha => ?_) hname fun r hr => ?_⟩
  · exact presenceAt_congr rfl rfl rfl fun r hr => hname r (h.inv.membership.current a ha r hr)
  · rw [Server.idleAt, Server.emptyFlagAt, hload r hr]
    rfl

/-- The new member is seen under its id. -/
theorem WellNamed.service_registered (h : WellNamed s L R M) (ha : MemberAdded s env msg id t)
    (ht : Inv t (L ++ [env.addr]) R M) : WellNamed t (L ++ [env.addr]) R M ∧
      t.service = s.service.setMember id (some ⟨(newMember msg env.peer).name, none, false⟩) := by
  have hne : ∀ a ∈ L, a ≠ env.addr := by
    rintro a haL rfl
    have := h.inv.registry.alloc _ haL
    simp [ha.free.1] at this
  have hnt : WellNamed t (L ++ [env.addr]) R M := h.listing ht (by rw [ha.rooms]; exact .refl)
  refine ⟨hnt, Service.ext ?_ (service_idle_congr ha.rooms ha.roomListHead)⟩
  have hrooms : t.roomNameAt = s.roomNameAt := by
    funext r
    rw [Server.roomNameAt, ha.rooms]
    rfl
  have hids : ∀ a ∈ L, t.idAt a = s.idAt a := fun a haL =>
    Store.map_of_map (ha.other a (hne a haL)) Member.memberId
  refine ht.registry.member_ext (fun a haL i hi => ?_) fun i hno => ?_
  · rw [member_setMember]
    rcases List.mem_append.mp haL with haL | haL
    · have hi' : i ≠ id := by
        rintro rfl
        have hsame := hi.trans ha.idAt.symm
        exact hne a haL (ht.registry.ids a (by simp [haL]) env.addr (by simp) hsame)
      have hstatus := ha.other a (hne a haL)
      rw [hids a haL] at hi
      rw [if_neg (Ne.symm hi'), h.inv.registry.member_at haL hi]
      refine (presenceAt_congr ?_ ?_ ?_ fun r _ => by rw [hrooms]).symm
      · exact Store.map_of_map hstatus Member.name
      · exact Store.bind_of_map hstatus Member.currentRoom
      · exact Store.map_of_map hstatus Member.quietFlag
    · obtain rfl := List.mem_singleton.mp haL
      rw [if_pos (Option.some.inj (ha.idAt.symm.trans hi))]
      obtain ⟨mt, hmt, hstatus⟩ := Option.map_eq_some_iff.mp ha.new
      have hname := congrArg Member.name hstatus
      have hroom := congrArg Member.currentRoom hstatus
      have hquiet := congrArg Member.quietFlag hstatus
      symm
      rw [presenceAt_of_load hmt]
      change some (Presence.mk mt.status.name (mt.status.currentRoom.bind t.roomNameAt)
        (decide (mt.status.quietFlag ≠ 0))) = _
      rw [hname, hroom, hquiet]
      rfl
  · have hi : id ≠ i := by
      rintro rfl
      exact hno env.addr (by simp) ha.idAt
    rw [member_setMember, if_neg hi]
    exact h.inv.registry.member_none fun a haL he => hno a (by simp [haL]) ((hids a haL).trans he)

/-- The member that leaves is seen no more. -/
theorem WellNamed.service_dropped (h : WellNamed s L R M) (ha : a ∈ L) (hid : s.idAt a = some id)
    (hd : Dropped s a t) (ht : Inv t (L.erase a) R M') : WellNamed t (L.erase a) R M' ∧
      t.service = s.service.setMember id none := by
  have hnt : WellNamed t (L.erase a) R M' := h.listing ht hd.rooms
  have hmem : ∀ b, b ∈ L.erase a ↔ b ≠ a ∧ b ∈ L := fun b => h.inv.registry.nodup.mem_erase_iff
  have hids : ∀ b, b ≠ a → t.idAt b = s.idAt b := fun b hb =>
    Store.map_of_map (hd.members b hb) Member.memberId
  refine ⟨hnt, Service.ext ?_ ?_⟩
  · refine ht.registry.member_ext (fun b hb i hi => ?_) fun i hno => ?_
    · obtain ⟨hba, hb⟩ := (hmem b).mp hb
      rw [hids b hba] at hi
      have hne : id ≠ i := by
        rintro rfl
        exact hba (h.inv.registry.ids b hb a ha (hi.trans hid.symm))
      rw [member_setMember, if_neg hne, h.inv.registry.member_at hb hi]
      refine (presenceAt_congr ?_ ?_ ?_ fun r hr => ?_).symm
      · exact Store.map_of_map (hd.members b hba) Member.name
      · exact Store.bind_of_map (hd.members b hba) Member.currentRoom
      · exact Store.map_of_map (hd.members b hba) Member.quietFlag
      · exact h.roomNameAt_listing hnt hd.rooms (h.inv.membership.current b hb r hr)
    · rw [member_setMember]
      split
      · rfl
      · next hne =>
        refine h.inv.registry.member_none fun b hb he => ?_
        have hba : b ≠ a := by
          rintro rfl
          exact hne (Option.some.inj (hid.symm.trans he))
        exact hno b ((hmem b).mpr ⟨hba, hb⟩) ((hids b hba).trans he)
  · refine hnt.idle_ext (fun r hr n hn => ?_) fun n hno => ?_
    · have hname := h.roomNameAt_listing hnt hd.rooms hr
      rw [Service.setMember, h.idle_at hr (hname.symm.trans hn), Server.idleAt, Server.idleAt]
      exact congrArg _ (hd.emptyFlag r).symm
    · exact idle_none h.inv.roomList fun r hr he =>
        hno r hr ((h.roomNameAt_listing hnt hd.rooms hr).trans he)

/-- The new room is seen under its name. -/
theorem WellNamed.service_created (h : WellNamed s L R M) (ha : RoomAdded s R name r t)
    (hlen : name.length < maxRoomNameLen) (h0 : 0 ∉ name) (hmax : s.totalNumOfRooms ≠ maxNumOfRooms)
    (hnew : ∀ r ∈ R, s.roomNameAt r ≠ some name) : ∃ M', WellNamed t L (R ++ [r]) M' ∧
      t.service = s.service.setIdle name false := by
  have ht := ha.inv h.inv hmax
  have hout := ha.notMem h.inv.roomList
  have hstored : ∀ x ∈ R, t.storedAt x = s.storedAt x := by
    intro x hx
    have hne : x ≠ r := fun he => hout (he ▸ hx)
    by_cases hlast : R.getLast? = some x
    · rw [Server.storedAt, ha.last x hlast, Option.map_map]
      rfl
    · rw [Server.storedAt, ha.other x hne hlast]
      rfl
  have hadd : t.storedAt r = some name := by simp [Server.storedAt, ha.new, cstr_newRoom h0 hlen.le]
  have hnt : WellNamed t L (R ++ [r]) (Function.update M r []) :=
    h.renamed ht (.added h0 rfl hnew hadd hstored) (by simpa using hlen)
  have hname : ∀ x ∈ R, t.roomNameAt x = s.roomNameAt x := fun x hx =>
    h.roomNameAt_eq hnt hx (by simp [hx]) (hstored x hx)
  have hself : t.roomNameAt r = some name := by rw [hnt.roomNameAt (by simp), hadd]
  refine ⟨_, hnt, Service.ext ?_ ?_⟩
  · have hload : t.members = s.members := ha.members
    have hids : ∀ a, t.idAt a = s.idAt a := fun a => by
      rw [Server.idAt, hload]
      rfl
    refine ht.registry.member_ext (fun a haL i hi => ?_) fun i hno => ?_
    · rw [Service.setIdle, h.inv.registry.member_at haL ((hids a).symm.trans hi)]
      refine (presenceAt_congr ?_ ?_ ?_ fun x hx => ?_).symm
      · rw [Server.nameAt, hload]
        rfl
      · rw [Server.roomAt, hload]
        rfl
      · rw [Server.quietAt, hload]
        rfl
      · exact hname x (h.inv.membership.current a haL x hx)
    · exact h.inv.registry.member_none fun a haL he => hno a haL ((hids a).trans he)
  · refine hnt.idle_ext (fun x hx n hn => ?_) fun n hno => ?_
    · rw [idle_setIdle]
      rcases List.mem_append.mp hx with hx | hx
      · have hne : name ≠ n := by
          rintro rfl
          exact hnew x hx ((hname x hx).symm.trans hn)
        rw [if_neg hne, h.idle_at hx ((hname x hx).symm.trans hn), Server.idleAt, Server.idleAt]
        exact congrArg _ (Store.map_of_map (ha.occupancy h.inv.roomList x hx) Prod.snd).symm
      · obtain rfl := List.mem_singleton.mp hx
        rw [if_pos (Option.some.inj (hself.symm.trans hn)), Server.idleAt, Server.emptyFlagAt,
          ha.new]
        rfl
    · have hne : name ≠ n := by
        rintro rfl
        exact hno r (by simp) hself
      rw [idle_setIdle, if_neg hne]
      exact idle_none h.inv.roomList fun x hx he => hno x (by simp [hx]) ((hname x hx).trans he)

/-- A switch moves the member that asks for it, and no other. -/
theorem processSwitchRoomRequest_roomAt (h : Inv s L R M) (ha : a ∈ L)
    (hp : processSwitchRoomRequest s a msg = .ok (t, reply)) (hb : b ∈ L) (hba : b ≠ a) :
    t.roomAt b = s.roomAt b := by
  obtain ⟨mt, hmt, hp⟩ := ok_of_bind hp
  obtain ⟨_, ⟨⟩, hmt⟩ := Store.read_ok hmt
  split at hp
  · cases hp
    rfl
  obtain ⟨found, hfind, hp⟩ := ok_of_bind hp
  cases found with
  | none =>
    cases hp
    rfl
  | some r =>
  obtain ⟨rt, hrt, hp⟩ := ok_of_bind hp
  split at hp
  · cases hp
    rfl
  next hfull =>
  split at hp
  · cases hp
    rfl
  next hcur =>
  obtain ⟨u, hu, hp⟩ := ok_of_bind hp
  obtain ⟨v, hv, hp⟩ := ok_of_bind hp
  cases hp
  obtain ⟨_, ⟨⟩, hrt⟩ := Store.read_ok hrt
  have hr := (findRoom_some h.roomList hfind).1
  have hcount : rt.numOfMembers = ((M r).length : Int) := by
    simpa [hrt] using h.membership.count r hr
  obtain ⟨u', M₁, hu', honly, -, hstatus, -, hm, hM⟩ := leaveRoom_ok h ha hmt
  cases hu'.symm.trans hu
  have hlt : (M₁ r).length < maxNumOfMembersPerRoom := by
    have := h.membership.le r hr
    rw [hM r (by simpa [Server.roomAt, hmt] using hcur)]
    omega
  obtain ⟨t', ht', -, -, hm'⟩ := joinRoom_ok (h.registry.roomsOnly honly)
    (h.roomList.roomsOnly honly) hm ha hr hlt
  cases ht'.symm.trans hv
  have hleft : u.roomAt b = s.roomAt b := Store.bind_of_map (hstatus b) Member.currentRoom
  have hb' : b ∈ L.erase a := (List.mem_erase_of_ne hba).mpr hb
  -- the lists of the rooms tell who is where, before and after
  have hin : ∀ j ∈ R, b ∈ Function.update M₁ r (M₁ r ++ [a]) j ↔ b ∈ M₁ j := by
    intro j hj
    by_cases hjr : j = r
    · subst hjr
      simp [hba]
    · rw [Function.update_of_ne hjr]
  rw [← hleft]
  refine Option.ext fun j => ⟨fun he => ?_, fun he => ?_⟩
  · have hj := hm'.current b hb j he
    exact ((hm.mem j hj b).mp ((hin j hj).mp ((hm'.mem j hj b).mpr ⟨hb, he⟩))).2
  · have hj := hm.current b hb' j he
    exact ((hm'.mem j hj b).mp ((hin j hj).mpr ((hm.mem j hj b).mpr ⟨hb', he⟩))).2

/-- The member that has asked for it is seen in the room. -/
theorem WellNamed.service_switched {p : Presence Bytes} (h : WellNamed s L R M) (ha : a ∈ L)
    (hid : s.idAt a = some id) (hp : processSwitchRoomRequest s a msg = .ok (t, reply))
    (hfind : findRoom s (cstr (msgdata msg)) = .ok (some r)) (honly : RoomsOnly s t)
    (hroom : t.roomAt a = some r) (hflag : t.emptyFlagAt r = some 0) (ht : Inv t L R M')
    (hmember : s.presenceAt a = some p) (hquiet : p.quiet = false) : WellNamed t L R M' ∧
      t.service = (s.service.setMember id (some ⟨p.name, some (cstr (msgdata msg)), false⟩)).setIdle
        (cstr (msgdata msg)) false := by
  obtain ⟨hr, hname⟩ := findRoom_some h.inv.roomList hfind
  have hnt : WellNamed t L R M' := h.listing ht honly.rooms
  have hnames : ∀ x ∈ R, t.roomNameAt x = s.roomNameAt x := fun x hx =>
    h.roomNameAt_listing hnt honly.rooms hx
  have hids : ∀ b, t.idAt b = s.idAt b := fun b =>
    Store.map_of_map (honly.members b) Member.memberId
  have hother : ∀ b, t.nameAt b = s.nameAt b ∧ t.quietAt b = s.quietAt b := fun b =>
    ⟨Store.map_of_map (honly.members b) Member.name,
      Store.map_of_map (honly.members b) Member.quietFlag⟩
  obtain ⟨n, hn, rfl⟩ := Option.map_eq_some_iff.mp hmember
  refine ⟨hnt, Service.ext ?_ ?_⟩
  · refine ht.registry.member_ext (fun b hb i hi => ?_) fun i hno => ?_
    · rw [hids] at hi
      rw [Service.setIdle, member_setMember]
      by_cases hba : b = a
      · subst hba
        rw [if_pos (Option.some.inj (hid.symm.trans hi)), Server.presenceAt, (hother b).1, hn,
          hroom, (hother b).2, Option.bind_some, hnames r hr, hname]
        exact congrArg (fun q => some (Presence.mk n _ q)) hquiet.symm
      · have hne : id ≠ i := by
          rintro rfl
          exact hba (h.inv.registry.ids b hb a ha (hi.trans hid.symm))
        rw [if_neg hne, h.inv.registry.member_at hb hi]
        exact (presenceAt_congr (hother b).1
          (processSwitchRoomRequest_roomAt h.inv ha hp hb hba) (hother b).2 fun x hx =>
            hnames x (h.inv.membership.current b hb x hx)).symm
    · have hne : id ≠ i := by
        rintro rfl
        exact hno a ha ((hids a).trans hid)
      rw [Service.setIdle, member_setMember, if_neg hne]
      exact h.inv.registry.member_none fun b hb he => hno b hb ((hids b).trans he)
  · refine hnt.idle_ext (fun x hx n hn => ?_) fun n hno => ?_
    · have hn' := (hnames x hx).symm.trans hn
      rw [idle_setIdle]
      by_cases hxr : x = r
      · subst hxr
        rw [if_pos (Option.some.inj (hname.symm.trans hn')), Server.idleAt, hflag]
        rfl
      · have hne : cstr (msgdata msg) ≠ n := by
          rintro rfl
          exact hxr (h.room_eq hx hr (hn'.trans hname.symm))
        rw [if_neg hne, Service.setMember, h.idle_at hx hn', Server.idleAt, Server.idleAt,
          processSwitchRoomRequest_flags hp hfind hxr]
    · have hne : cstr (msgdata msg) ≠ n := by
        rintro rfl
        exact hno r hr ((hnames r hr).trans hname)
      rw [idle_setIdle, if_neg hne]
      exact idle_none h.inv.roomList fun x hx he => hno x hx ((hnames x hx).trans he)

/-- The members that stay in a sweep, as they are seen before and after. -/
theorem Swept.presence {u : Server} (hs : Swept s L u) (ha : a ∈ L) (hq : s.quietAt a = some 0) :
    u.nameAt a = s.nameAt a ∧ u.roomAt a = s.roomAt a ∧ u.idAt a = s.idAt a ∧
      u.quietAt a ≠ some 0 := by
  obtain ⟨mt, hmt⟩ : ∃ mt, s.members.load a = some mt := by
    rw [Server.quietAt, Option.map_eq_some_iff] at hq
    exact hq.imp fun _ h => h.1
  have hkept := hs.kept a ha hq
  rw [hmt] at hkept
  obtain ⟨mt', hmt', hstatus⟩ := Option.map_eq_some_iff.mp hkept
  have hname : mt'.name = mt.name := by
    have := congrArg Member.name hstatus
    exact this
  have hroom : mt'.currentRoom = mt.currentRoom := by
    have := congrArg Member.currentRoom hstatus
    exact this
  have hid : mt'.memberId = mt.memberId := by
    have := congrArg Member.memberId hstatus
    exact this
  have hquiet : mt'.quietFlag = 1 := by
    have := congrArg Member.quietFlag hstatus
    exact this
  simp [Server.nameAt, Server.roomAt, Server.idAt, Server.quietAt, hmt, hmt', hname, hroom, hid,
    hquiet]

/-- The rooms that stay in a sweep have their names, and are flagged when nobody is in them. -/
theorem RoomsSwept.room {u : Server} {n : Int} (hr : RoomsSwept u R t) (hx : r ∈ R)
    (hf : u.emptyFlagAt r = some 0) (hn : (t.rooms.load r).map Room.numOfMembers = some n) :
    t.storedAt r = u.storedAt r ∧ t.idleAt r = some (decide (n = 0)) := by
  obtain ⟨rt, hrt⟩ : ∃ rt, u.rooms.load r = some rt := by
    rw [Server.emptyFlagAt, Option.map_eq_some_iff] at hf
    exact hf.imp fun _ h => h.1
  have hkept := hr.kept r hx hf
  rw [hrt] at hkept
  obtain ⟨rt', hrt', hcontents⟩ := Option.map_eq_some_iff.mp hkept
  have hname : rt'.roomName = rt.roomName := by
    have := congrArg Room.roomName hcontents
    exact this
  have hcount : rt'.numOfMembers = rt.numOfMembers := by
    have := congrArg Room.numOfMembers hcontents
    exact this
  have hflag : rt'.emptyFlag = if rt.numOfMembers = 0 then 1 else 0 := by
    have := congrArg Room.emptyFlag hcontents
    exact this
  obtain rfl : rt'.numOfMembers = n := by simpa [hrt'] using hn
  refine ⟨by simp [Server.storedAt, hrt, hrt', hname], ?_⟩
  rw [Server.idleAt, Server.emptyFlagAt, hrt', Option.map_some, Option.map_some, hflag, hcount]
  split <;> simp [*]

/-- A sweep ends an interval. -/
theorem WellNamed.service_swept {u : Server} (h : WellNamed s L R M) (hs : Swept s L u)
    (hr : RoomsSwept u R t) (ht : Inv t (L.filter fun a => s.quietAt a = some 0)
      (R.filter fun r => s.emptyFlagAt r = some 0) M') :
    WellNamed t (L.filter fun a => s.quietAt a = some 0)
        (R.filter fun r => s.emptyFlagAt r = some 0) M' ∧
      t.service = s.service.pass := by
  have hflag : ∀ r, u.emptyFlagAt r = s.emptyFlagAt r := hs.emptyFlag
  have hL : ∀ a, a ∈ L.filter (fun a => s.quietAt a = some 0) ↔ a ∈ L ∧ s.quietAt a = some 0 := by
    simp
  have hR : ∀ r, r ∈ R.filter (fun r => s.emptyFlagAt r = some 0) ↔
      r ∈ R ∧ s.emptyFlagAt r = some 0 := by
    simp
  have hroom : ∀ r, r ∈ R → s.emptyFlagAt r = some 0 →
      t.storedAt r = s.storedAt r ∧ t.idleAt r = some (decide (M' r = [])) := by
    intro r hx hf
    obtain ⟨hstored, hidle⟩ := hr.room hx ((hflag r).trans hf)
      (ht.membership.count r ((hR r).mpr ⟨hx, hf⟩))
    refine ⟨hstored.trans (Store.map_of_map (hs.rooms r) fun x => cstr x.1.toList), hidle.trans ?_⟩
    rw [Option.some.injEq, decide_eq_decide, Int.natCast_eq_zero, List.length_eq_zero_iff]
  have hnt : WellNamed t (L.filter fun a => s.quietAt a = some 0)
      (R.filter fun r => s.emptyFlagAt r = some 0) M' := by
    refine ⟨ht, fun r hx name hn => ?_, fun r hx r' hx' he => ?_⟩
    · obtain ⟨hx, hf⟩ := (hR r).mp hx
      exact h.short r hx name ((hroom r hx hf).1.symm.trans hn)
    · obtain ⟨hx, hf⟩ := (hR r).mp hx
      obtain ⟨hx', hf'⟩ := (hR r').mp hx'
      rw [(hroom r hx hf).1, (hroom r' hx' hf').1] at he
      exact h.unique r hx r' hx' he
  have hname : ∀ r ∈ R, s.emptyFlagAt r = some 0 → t.roomNameAt r = s.roomNameAt r :=
    fun r hx hf => h.roomNameAt_eq hnt hx ((hR r).mpr ⟨hx, hf⟩) (hroom r hx hf).1
  have hmembers : ∀ a ∈ L, s.quietAt a = some 0 → t.nameAt a = s.nameAt a ∧
      t.roomAt a = s.roomAt a ∧ t.idAt a = s.idAt a ∧ t.quietAt a ≠ some 0 := by
    intro a ha hq
    have hload : t.members = u.members := hr.members
    have := hs.presence ha hq
    simpa only [Server.nameAt, Server.roomAt, Server.idAt, Server.quietAt, hload] using this
  refine ⟨hnt, Service.ext ?_ ?_⟩
  · refine ht.registry.member_ext (fun a ha i hi => ?_) fun i hno => ?_
    · obtain ⟨haL, hq⟩ := (hL a).mp ha
      obtain ⟨hn, hrm, hid, hq'⟩ := hmembers a haL hq
      obtain ⟨n, hn'⟩ : ∃ n, s.nameAt a = some n := by
        apply Option.isSome_iff_exists.mp
        rw [Server.nameAt, Option.isSome_map]
        exact h.inv.registry.alloc a haL
      rw [member_pass, h.inv.registry.member_at haL (hid.symm.trans hi), Server.presenceAt,
        Server.presenceAt, hn, hn', hq, hrm]
      cases hx : s.roomAt a with
      | none => simp [Presence.pass, hq']
      | some x =>
        obtain ⟨hxR, hf⟩ := (hR x).mp (ht.membership.current a ha x (hrm.trans hx))
        simp [Presence.pass, hq', hname x hxR hf]
    · rw [member_pass]
      by_cases hid : ∃ a ∈ L, s.idAt a = some i
      · obtain ⟨a, ha, hid⟩ := hid
        have hq : s.quietAt a ≠ some 0 := fun hq =>
          hno a ((hL a).mpr ⟨ha, hq⟩) ((hmembers a ha hq).2.2.1.trans hid)
        rw [h.inv.registry.member_at ha hid, Server.presenceAt]
        cases s.nameAt a with
        | none => rfl
        | some n => simp [Presence.pass, hq]
      · push Not at hid
        rw [h.inv.registry.member_none hid, Option.bind_none]
  · refine hnt.idle_ext (fun r hx name hn => ?_) fun name hno => ?_
    · obtain ⟨hxR, hf⟩ := (hR r).mp hx
      rw [hname r hxR hf] at hn
      have hidle : s.idleAt r = some false := by simp [Server.idleAt, hf]
      rw [idle_pass, h.idle_at hxR hn, hidle, (hroom r hxR hf).2, Option.bind_some,
        if_neg Bool.false_ne_true, Option.some.injEq, decide_eq_decide]
      constructor
      · intro hall
        refine List.eq_nil_iff_forall_not_mem.mpr fun a haM => ?_
        obtain ⟨ha, hroomAt⟩ := (ht.membership.mem r hx a).mp haM
        obtain ⟨haL, hq⟩ := (hL a).mp ha
        obtain ⟨-, hrm, -, -⟩ := hmembers a haL hq
        obtain ⟨i, hi⟩ := Option.isSome_iff_exists.mp (h.inv.registry.idAt_isSome haL)
        obtain ⟨p, hp⟩ := Option.isSome_iff_exists.mp
          (presenceAt_isSome.trans (h.inv.registry.alloc a haL))
        have hmem := (h.inv.registry.member_at haL hi).trans hp
        obtain ⟨n, -, rfl⟩ := Option.map_eq_some_iff.mp hp
        refine hall i _ hmem (decide_eq_false (not_not.mpr hq)) ?_
        rw [← hrm, hroomAt, Option.bind_some, hn]
      · intro hnil i p hp hquiet hroomp
        have hsome : (s.service.member i).isSome := by rw [hp, Option.isSome_some]
        obtain ⟨a, haL, hi⟩ := h.inv.registry.member_isSome_iff.mp hsome
        rw [h.inv.registry.member_at haL hi] at hp
        obtain ⟨n, -, rfl⟩ := Option.map_eq_some_iff.mp hp
        have hq : s.quietAt a = some 0 := not_not.mp (of_decide_eq_false hquiet)
        obtain ⟨-, hrm, -, -⟩ := hmembers a haL hq
        obtain ⟨x, hx', hn'⟩ := Option.bind_eq_some_iff.mp hroomp
        obtain rfl := h.room_eq (h.inv.membership.current a haL x hx') hxR (hn'.trans hn.symm)
        have haM : a ∈ M' x :=
          (ht.membership.mem x hx a).mpr ⟨(hL a).mpr ⟨haL, hq⟩, hrm.trans hx'⟩
        rw [hnil] at haM
        cases haM
    · rw [idle_pass]
      by_cases hx : ∃ r ∈ R, s.roomNameAt r = some name
      · obtain ⟨r, hx, hn⟩ := hx
        have hf : s.emptyFlagAt r ≠ some 0 := fun hf =>
          hno r ((hR r).mpr ⟨hx, hf⟩) ((hname r hx hf).trans hn)
        rw [h.idle_at hx hn, Server.idleAt]
        cases hfl : s.emptyFlagAt r with
        | none => rfl
        | some n =>
          have : n ≠ 0 := fun h0 => hf (hfl.trans (by rw [h0]))
          simp [this]
      · push Not at hx
        rw [idle_none h.inv.roomList hx, Option.bind_none]

end Effects
end Csc469.Chat
