import Csc469.Chat.Server

/-! What the server's lists look like between requests. -/
namespace Csc469.Chat

open Linked

variable {s s' : Server} {L R : List Nat} {M : Nat → List Nat} {a r : Nat}

/-- What the registry reads of a member. -/
def Member.identity (mt : Member) :
    UInt16 × Vector UInt8 maxMemberNameLen × Option Nat × Option Nat :=
  (mt.memberId, mt.memberName, mt.nextMember, mt.prevMember)

/-- What the rooms read of a member. -/
def Member.place (mt : Member) : Option Nat × Option Nat × Option Nat :=
  (mt.nextRoomMember, mt.prevRoomMember, mt.currentRoom)

/-- What the room list reads of a room. -/
def Room.listing (rt : Room) : Vector UInt8 maxRoomNameLen × Option Nat :=
  (rt.roomName, rt.nextRoom)

/-- What the members of a room read of it. -/
def Room.ends (rt : Room) : Option Nat × Option Nat × Int :=
  (rt.memberListHead, rt.memberListTail, rt.numOfMembers)

def Room.occupancy (rt : Room) : (Option Nat × Option Nat × Int) × Int := (rt.ends, rt.emptyFlag)

namespace Server

def idAt (s : Server) (a : Nat) : Option UInt16 := (s.members.load a).map Member.memberId

def nameAt (s : Server) (a : Nat) : Option Bytes := (s.members.load a).map Member.name

def roomAt (s : Server) (a : Nat) : Option Nat := (s.members.load a).bind Member.currentRoom

def nextRoomAt (s : Server) (r : Nat) : Option Nat := (s.rooms.load r).bind Room.nextRoom

def roomHead (s : Server) (r : Nat) : Option Nat := (s.rooms.load r).bind Room.memberListHead

def roomTail (s : Server) (r : Nat) : Option Nat := (s.rooms.load r).bind Room.memberListTail

/-- The member at `a` is in the member list. -/
def HasMember (s : Server) (a : Nat) : Prop :=
  ∃ L, Chain (memberLinks.succ s.members) s.memListHead L ∧ a ∈ L

/-- A registered member has this id. -/
def HasId (s : Server) (id : UInt16) : Prop := ∃ a, s.HasMember a ∧ s.idAt a = some id

/-- The room at `r` is in the room list. -/
def HasRoom (s : Server) (r : Nat) : Prop := ∃ R, Chain s.nextRoomAt s.roomListHead R ∧ r ∈ R

end Server

/-- The member list is `L`. -/
structure Registry (s : Server) (L : List Nat) : Prop where
  list : DList (memberLinks.succ s.members) (memberLinks.pred s.members) s.memListHead L
  tail : s.memListTail = L.getLast?
  alloc : ∀ a ∈ L, (s.members.load a).isSome
  count : s.totalNumOfMembers = L.length
  le : L.length ≤ maxNumOfMembers
  ids : ∀ a ∈ L, ∀ b ∈ L, s.idAt a = s.idAt b → a = b
  id_pos : ∀ a ∈ L, s.idAt a ≠ some 0
  names : ∀ a ∈ L, ∀ b ∈ L, s.nameAt a = s.nameAt b → a = b

/-- The room list is `R`. Its tail pointer may have been lost. -/
structure RoomList (s : Server) (R : List Nat) : Prop where
  chain : Chain s.nextRoomAt s.roomListHead R
  alloc : ∀ r ∈ R, (s.rooms.load r).isSome
  tail : s.roomListTail = none ∨ s.roomListTail = R.getLast?
  count : s.totalNumOfRooms = R.length
  le : R.length ≤ maxNumOfRooms

/-- The members in `L` are in the rooms in `R`: those of room `r` are listed as `M r`. -/
structure Membership (s : Server) (L R : List Nat) (M : Nat → List Nat) : Prop where
  family : Family (· ∈ R) (roomLinks.succ s.members) (roomLinks.pred s.members) s.roomHead M
  tail : ∀ r ∈ R, s.roomTail r = (M r).getLast?
  count : ∀ r ∈ R, (s.rooms.load r).map Room.numOfMembers = some ((M r).length : Int)
  le : ∀ r ∈ R, (M r).length ≤ maxNumOfMembersPerRoom
  mem : ∀ r ∈ R, ∀ a, a ∈ M r ↔ a ∈ L ∧ s.roomAt a = some r
  current : ∀ a ∈ L, ∀ r, s.roomAt a = some r → r ∈ R
  idle : ∀ r ∈ R, (s.rooms.load r).map Room.emptyFlag ≠ some 0 → M r = []

/-- The server between two requests. -/
structure Inv (s : Server) (L R : List Nat) (M : Nat → List Nat) : Prop where
  registry : Registry s L
  roomList : RoomList s R
  membership : Membership s L R M

theorem Registry.hasMember_iff (h : Registry s L) : s.HasMember a ↔ a ∈ L := by
  constructor
  · rintro ⟨L', hL', ha⟩
    rwa [Chain.unique hL' h.list.forth] at ha
  · exact fun ha => ⟨L, h.list.forth, ha⟩

theorem Registry.hasId_iff {id : UInt16} (h : Registry s L) :
    s.HasId id ↔ ∃ a ∈ L, s.idAt a = some id :=
  exists_congr fun _ => and_congr_left' h.hasMember_iff

theorem RoomList.hasRoom_iff (h : RoomList s R) : s.HasRoom r ↔ r ∈ R := by
  constructor
  · rintro ⟨R', hR', hr⟩
    rwa [Chain.unique hR' h.chain] at hr
  · exact fun hr => ⟨R, h.chain, hr⟩

theorem Registry.nodup (h : Registry s L) : L.Nodup := h.list.nodup

theorem RoomList.nodup (h : RoomList s R) : R.Nodup := h.chain.nodup

theorem Registry.congr (h : Registry s L)
    (hm : ∀ a ∈ L, (s'.members.load a).map Member.identity =
      (s.members.load a).map Member.identity)
    (hhead : s'.memListHead = s.memListHead) (htail : s'.memListTail = s.memListTail)
    (hcount : s'.totalNumOfMembers = s.totalNumOfMembers) : Registry s' L := by
  have hid : ∀ a ∈ L, s'.idAt a = s.idAt a := fun a ha => Store.map_of_map (hm a ha) (·.1)
  have hname : ∀ a ∈ L, s'.nameAt a = s.nameAt a :=
    fun a ha => Store.map_of_map (hm a ha) fun x => cstr x.2.1.toList
  refine ⟨?_, by rw [htail, h.tail], fun a ha => ?_, by rw [hcount, h.count], h.le, ?_, ?_, ?_⟩
  · rw [hhead]
    exact h.list.congr (fun a ha => Store.bind_of_map (hm a ha) (·.2.2.1))
      (fun a ha => Store.bind_of_map (hm a ha) (·.2.2.2))
  · rw [Store.isSome_of_map (hm a ha)]
    exact h.alloc a ha
  · intro a ha b hb he
    exact h.ids a ha b hb (by rwa [hid a ha, hid b hb] at he)
  · intro a ha
    rw [hid a ha]
    exact h.id_pos a ha
  · intro a ha b hb he
    exact h.names a ha b hb (by rwa [hname a ha, hname b hb] at he)

theorem RoomList.congr (h : RoomList s R)
    (hr : ∀ r ∈ R, (s'.rooms.load r).map Room.listing = (s.rooms.load r).map Room.listing)
    (hhead : s'.roomListHead = s.roomListHead) (htail : s'.roomListTail = s.roomListTail)
    (hcount : s'.totalNumOfRooms = s.totalNumOfRooms) : RoomList s' R := by
  refine ⟨?_, fun r hrR => ?_, by rw [htail]; exact h.tail, by rw [hcount, h.count], h.le⟩
  · rw [hhead]
    exact h.chain.congr fun r hrR => Store.bind_of_map (hr r hrR) (·.2)
  · rw [Store.isSome_of_map (hr r hrR)]
    exact h.alloc r hrR

theorem Membership.mem_left (h : Membership s L R M) (hr : r ∈ R) (ha : a ∈ M r) : a ∈ L :=
  ((h.mem r hr a).mp ha).1

/-- The same members in the same rooms: the rooms may be flagged anew. -/
theorem Membership.reflag (h : Membership s L R M)
    (hm : ∀ a ∈ L, (s'.members.load a).map Member.place = (s.members.load a).map Member.place)
    (hr : ∀ r ∈ R, (s'.rooms.load r).map Room.ends = (s.rooms.load r).map Room.ends)
    (hidle : ∀ r ∈ R, (s'.rooms.load r).map Room.emptyFlag ≠ some 0 → M r = []) :
    Membership s' L R M := by
  have hroom : ∀ a ∈ L, s'.roomAt a = s.roomAt a :=
    fun a ha => Store.bind_of_map (hm a ha) (·.2.2)
  refine ⟨⟨fun r hrR => ?_, h.family.disjoint⟩, fun r hrR => ?_, fun r hrR => ?_, h.le, ?_, ?_,
    hidle⟩
  · have hhead : s'.roomHead r = s.roomHead r := Store.bind_of_map (hr r hrR) (·.1)
    rw [hhead]
    exact (h.family.dlist r hrR).congr
      (fun a ha => Store.bind_of_map (hm a (h.mem_left hrR ha)) (·.1))
      (fun a ha => Store.bind_of_map (hm a (h.mem_left hrR ha)) (·.2.1))
  · exact (Store.bind_of_map (hr r hrR) (·.2.1)).trans (h.tail r hrR)
  · exact (Store.map_of_map (hr r hrR) (·.2.2)).trans (h.count r hrR)
  · intro r hrR a
    rw [h.mem r hrR a]
    constructor
    · rintro ⟨ha, he⟩
      exact ⟨ha, by rwa [hroom a ha]⟩
    · rintro ⟨ha, he⟩
      exact ⟨ha, by rwa [← hroom a ha]⟩
  · intro a ha r he
    exact h.current a ha r (by rwa [← hroom a ha])

theorem Membership.congr (h : Membership s L R M)
    (hm : ∀ a ∈ L, (s'.members.load a).map Member.place = (s.members.load a).map Member.place)
    (hr : ∀ r ∈ R, (s'.rooms.load r).map Room.occupancy =
      (s.rooms.load r).map Room.occupancy) : Membership s' L R M := by
  refine h.reflag hm (fun r hrR => Store.map_of_map (hr r hrR) Prod.fst) fun r hrR he => ?_
  have hflag := Store.map_of_map (hr r hrR) Prod.snd
  exact h.idle r hrR fun h0 => he (hflag.trans h0)

end Csc469.Chat
