import Csc469.Chat.Invariant

/-! Members leave and join rooms, and leave the server. -/
namespace Csc469.Chat

open Execution Linked

variable {s t : Server} {L R : List Nat} {M : Nat → List Nat} {a r : Nat} {mt : Member}

/-- A member apart from its place in a room. -/
def Member.apart (mt : Member) : Member :=
  { mt with
    nextRoomMember := none
    prevRoomMember := none
    currentRoom := none }

/-- A member apart from its links. -/
def Member.status (mt : Member) : Member :=
  { mt with
    nextMember := none
    prevMember := none
    nextRoomMember := none
    prevRoomMember := none }

/-- Nothing has changed but which member is in which room. -/
structure RoomsOnly (s t : Server) : Prop where
  members : Store.Agree Member.apart s.members t.members
  membersUsed : t.members.used = s.members.used
  rooms : Store.Agree Room.listing s.rooms t.rooms
  roomsUsed : t.rooms.used = s.rooms.used
  memListHead : t.memListHead = s.memListHead
  memListTail : t.memListTail = s.memListTail
  roomListHead : t.roomListHead = s.roomListHead
  roomListTail : t.roomListTail = s.roomListTail
  totalNumOfMembers : t.totalNumOfMembers = s.totalNumOfMembers
  totalNumOfRooms : t.totalNumOfRooms = s.totalNumOfRooms

theorem RoomsOnly.refl : RoomsOnly s s :=
  ⟨.refl, rfl, .refl, rfl, rfl, rfl, rfl, rfl, rfl, rfl⟩

theorem RoomsOnly.trans {s₁ s₂ s₃ : Server} (h : RoomsOnly s₁ s₂) (h' : RoomsOnly s₂ s₃) :
    RoomsOnly s₁ s₃ where
  members := h.members.trans h'.members
  membersUsed := h'.membersUsed.trans h.membersUsed
  rooms := h.rooms.trans h'.rooms
  roomsUsed := h'.roomsUsed.trans h.roomsUsed
  memListHead := h'.memListHead.trans h.memListHead
  memListTail := h'.memListTail.trans h.memListTail
  roomListHead := h'.roomListHead.trans h.roomListHead
  roomListTail := h'.roomListTail.trans h.roomListTail
  totalNumOfMembers := h'.totalNumOfMembers.trans h.totalNumOfMembers
  totalNumOfRooms := h'.totalNumOfRooms.trans h.totalNumOfRooms

theorem Registry.roomsOnly (h : Registry s L) (hs : RoomsOnly s t) : Registry t L :=
  h.congr (fun a _ => Store.map_of_map (hs.members a) Member.identity) hs.memListHead
    hs.memListTail hs.totalNumOfMembers

theorem RoomList.roomsOnly (h : RoomList s R) (hs : RoomsOnly s t) : RoomList t R :=
  h.congr (fun r _ => hs.rooms r) hs.roomListHead hs.roomListTail hs.totalNumOfRooms

/-- A member in no room can be left out. -/
theorem Membership.erase (h : Membership s L R M) (hL : L.Nodup) (hroom : s.roomAt a = none) :
    Membership s (L.erase a) R M := by
  have hne : ∀ b r, s.roomAt b = some r → b ≠ a := by
    rintro b r he rfl
    rw [hroom] at he
    cases he
  refine ⟨h.family, h.tail, h.count, h.le, fun r hr b => ?_, fun b hb => ?_, h.idle⟩
  · rw [h.mem r hr b, hL.mem_erase_iff]
    constructor
    · rintro ⟨hb, he⟩
      exact ⟨⟨hne b r he, hb⟩, he⟩
    · rintro ⟨⟨-, hb⟩, he⟩
      exact ⟨hb, he⟩
  · exact h.current b (List.mem_of_mem_erase hb)

/-- The list of room `r` becomes `ys`; the other rooms stay as they are. -/
theorem Membership.update {L' ys : List Nat} (h : Membership s L' R M)
    (hfamily : Family (· ∈ R) (roomLinks.succ t.members) (roomLinks.pred t.members) t.roomHead
      (Function.update M r ys))
    (hother : ∀ j, j ≠ r → t.rooms.load j = s.rooms.load j)
    (htail : t.roomTail r = ys.getLast?)
    (hcount : (t.rooms.load r).map Room.numOfMembers = some (ys.length : Int))
    (hle : ys.length ≤ maxNumOfMembersPerRoom)
    (hmem : ∀ j ∈ R, ∀ b, b ∈ Function.update M r ys j ↔ b ∈ L ∧ t.roomAt b = some j)
    (hcurrent : ∀ b ∈ L, ∀ j, t.roomAt b = some j → j ∈ R)
    (hidle : (t.rooms.load r).map Room.emptyFlag ≠ some 0 → ys = []) :
    Membership t L R (Function.update M r ys) := by
  refine ⟨hfamily, fun j hj => ?_, fun j hj => ?_, fun j hj => ?_, hmem, hcurrent,
    fun j hj he => ?_⟩
  · by_cases hjr : j = r
    · subst j
      rw [Function.update_self, htail]
    · rw [Function.update_of_ne hjr, ← h.tail j hj]
      simp only [Server.roomTail, hother j hjr]
  · by_cases hjr : j = r
    · subst j
      rw [Function.update_self, hcount]
    · rw [Function.update_of_ne hjr, hother j hjr, h.count j hj]
  · by_cases hjr : j = r
    · subst j
      rw [Function.update_self]
      exact hle
    · rw [Function.update_of_ne hjr]
      exact h.le j hj
  · by_cases hjr : j = r
    · subst j
      rw [Function.update_self]
      exact hidle he
    · rw [hother j hjr] at he
      rw [Function.update_of_ne hjr]
      exact h.idle j hj he

section Leave
variable {head tail : Option Nat}

/-- The writes that take the member at `a` out of room `r`. -/
theorem Membership.leave (h : Membership s L R M) (hL : L.Nodup) (ha : a ∈ L)
    (hroom : s.roomAt a = some r) (hsome : (s.rooms.load r).isSome)
    (un : roomLinks.Unlinked s.members a (s.roomHead r) (s.roomTail r) t.members head tail)
    (hrooms : t.rooms = s.rooms.modify r fun rt =>
      { rt with
        memberListHead := head
        memberListTail := tail
        numOfMembers := rt.numOfMembers - 1 }) :
    Membership t (L.erase a) R (Function.update M r ((M r).erase a)) := by
  have hr : r ∈ R := h.current a ha r hroom
  have haM : a ∈ M r := (h.mem r hr a).mpr ⟨ha, hroom⟩
  have hpos := List.length_pos_of_mem haM
  have d := h.family.dlist r hr
  obtain ⟨rt, hrt⟩ := Option.isSome_iff_exists.mp hsome
  have hcount : rt.numOfMembers = ((M r).length : Int) := by simpa [hrt] using h.count r hr
  have hother : ∀ j, j ≠ r → t.rooms.load j = s.rooms.load j := by
    intro j hj
    simp [hrooms, hj]
  have hroomAt : ∀ b, t.roomAt b = s.roomAt b := fun b =>
    Store.bind_of_map (un.relinked.agree Member.currentRoom (fun _ _ => rfl) (fun _ _ => rfl) b) id
  refine h.update ?_ hother ?_ ?_ ?_ (fun j hj b => ?_) (fun b hb j he => ?_) fun he => ?_
  · refine h.family.unlink hr haM un.next un.prev ?_ fun j hj => ?_
    · rw [← un.head]
      simp [Server.roomHead, hrooms, hrt]
    · simp only [Server.roomHead, hother j hj]
  · rw [d.getLast?_erase haM, ← h.tail r hr, ← un.tail]
    simp [Server.roomTail, hrooms, hrt]
  · rw [List.length_erase_of_mem haM]
    simp only [hrooms, Store.modify_load, if_true, hrt, Option.map_some, hcount,
      Option.some.injEq]
    omega
  · exact List.length_erase_le.trans (h.le r hr)
  · rw [hroomAt b, hL.mem_erase_iff]
    by_cases hjr : j = r
    · subst j
      rw [Function.update_self, d.nodup.mem_erase_iff, h.mem r hr b, and_assoc]
    · rw [Function.update_of_ne hjr, h.mem j hj b]
      constructor
      · rintro ⟨hb, he⟩
        refine ⟨⟨?_, hb⟩, he⟩
        rintro rfl
        exact hjr (Option.some.inj (he.symm.trans hroom))
      · rintro ⟨⟨-, hb⟩, he⟩
        exact ⟨hb, he⟩
  · rw [hroomAt b] at he
    exact h.current b (List.mem_of_mem_erase hb) j he
  · have hflag : (t.rooms.load r).map Room.emptyFlag = (s.rooms.load r).map Room.emptyFlag := by
      simp [hrooms, hrt]
    rw [hflag] at he
    rw [h.idle r hr he] at haM
    cases haM

/-- Taking a member out of its room succeeds. The member itself stays as it is, the room it
came from included. -/
theorem leaveRoom_ok (h : Inv s L R M) (ha : a ∈ L) (hv : s.members.load a = some mt) :
    ∃ t M', leaveRoom s mt = .ok t ∧ RoomsOnly s t ∧ t.members.load a = some mt ∧
      Store.Agree Member.status s.members t.members ∧
      Store.Agree Room.emptyFlag s.rooms t.rooms ∧ Membership t (L.erase a) R M' ∧
      ∀ r, s.roomAt a ≠ some r → M' r = M r := by
  have hm := h.membership
  have hL := h.registry.nodup
  cases hc : mt.currentRoom with
  | none =>
    refine ⟨s, M, by simp [leaveRoom, hc], .refl, hv, .refl, .refl, hm.erase hL ?_, fun _ _ => rfl⟩
    simp [Server.roomAt, hv, hc]
  | some r =>
    have hroom : s.roomAt a = some r := by simp [Server.roomAt, hv, hc]
    have hr : r ∈ R := hm.current a ha r hroom
    have hsome := h.roomList.alloc r hr
    obtain ⟨rt, hrt⟩ := Option.isSome_iff_exists.mp hsome
    have hhead : s.roomHead r = rt.memberListHead := by simp [Server.roomHead, hrt]
    have htail : s.roomTail r = rt.memberListTail := by simp [Server.roomTail, hrt]
    obtain ⟨m, head, tail, hu, un⟩ := Links.unlink_ok rt.memberListTail
      (hhead ▸ hm.family.dlist r hr) ((hm.mem r hr a).mpr ⟨ha, hroom⟩)
      (fun y hy => h.registry.alloc y (hm.mem_left hr hy)) hv
    let t : Server :=
      { s with
        members := m
        rooms := s.rooms.modify r fun rt =>
          { rt with
            memberListHead := head
            memberListTail := tail
            numOfMembers := rt.numOfMembers - 1 } }
    refine ⟨t, _, ?_, ⟨?_, un.relinked.used, ?_, rfl, rfl, rfl, rfl, rfl, rfl, rfl⟩,
      un.load.trans hv, ?_, ?_, hm.leave hL ha hroom hsome (hhead ▸ htail ▸ un) rfl,
      fun j hj => Function.update_of_ne (fun he => hj (by rw [he, hroom])) _ _⟩
    · simp only [leaveRoom, hc, Store.read_some hrt, bind, Except.bind, hu, t]
    · exact un.relinked.agree Member.apart (fun _ _ => rfl) (fun _ _ => rfl)
    · exact Store.agree_modify fun _ => rfl
    · exact un.relinked.agree Member.status (fun _ _ => rfl) (fun _ _ => rfl)
    · exact Store.agree_modify fun _ => rfl

/-- The writes that take the member at `a` out of the member list and free it. -/
theorem Registry.drop {m : Store Member} (h : Registry s L) (ha : a ∈ L)
    (un : memberLinks.Unlinked s.members a s.memListHead s.memListTail m head tail)
    (hmembers : t.members = m.free a) (hhead : t.memListHead = head)
    (htail : t.memListTail = tail) (hcount : t.totalNumOfMembers = s.totalNumOfMembers - 1) :
    Registry t (L.erase a) := by
  have hmem : ∀ b, b ∈ L.erase a ↔ b ≠ a ∧ b ∈ L := fun b => h.nodup.mem_erase_iff
  have hload : ∀ b, b ≠ a → t.members.load b = m.load b := by
    intro b hb
    simp [hmembers, hb]
  have hstatus := un.relinked.agree Member.status (fun _ _ => rfl) (fun _ _ => rfl)
  have hid : ∀ b, b ≠ a → t.idAt b = s.idAt b := by
    intro b hb
    rw [Server.idAt, hload b hb]
    exact Store.map_of_map (hstatus b) Member.memberId
  have hname : ∀ b, b ≠ a → t.nameAt b = s.nameAt b := by
    intro b hb
    rw [Server.nameAt, hload b hb]
    exact Store.map_of_map (hstatus b) Member.name
  have hlen := List.length_erase_of_mem ha
  have hpos := List.length_pos_of_mem ha
  refine ⟨?_, ?_, fun b hb => ?_, ?_, ?_, ?_, fun b hb => ?_, ?_⟩
  · rw [hhead, un.head]
    refine h.list.unlink ha (fun y _ hy => ?_) (fun y _ hy => ?_)
    · rw [← un.next y hy, Links.succ, Links.succ, hload y hy]
    · rw [← un.prev y hy, Links.pred, Links.pred, hload y hy]
  · rw [htail, h.list.getLast?_erase ha, ← h.tail, un.tail]
  · obtain ⟨hba, hb⟩ := (hmem b).mp hb
    rw [hload b hba, un.relinked.isSome]
    exact h.alloc b hb
  · have := h.count
    omega
  · have := h.le
    omega
  · intro b hb c hc he
    obtain ⟨hba, hb⟩ := (hmem b).mp hb
    obtain ⟨hca, hc⟩ := (hmem c).mp hc
    rw [hid b hba, hid c hca] at he
    exact h.ids b hb c hc he
  · obtain ⟨hba, hb⟩ := (hmem b).mp hb
    rw [hid b hba]
    exact h.id_pos b hb
  · intro b hb c hc he
    obtain ⟨hba, hb⟩ := (hmem b).mp hb
    obtain ⟨hca, hc⟩ := (hmem c).mp hc
    rw [hname b hba, hname c hca] at he
    exact h.names b hb c hc he

/-- Rooms have at most lost members. -/
structure RoomsKept (s t : Server) : Prop where
  rooms : Store.Agree Room.listing s.rooms t.rooms
  emptyFlag : Store.Agree Room.emptyFlag s.rooms t.rooms
  roomsUsed : t.rooms.used = s.rooms.used
  roomListHead : t.roomListHead = s.roomListHead
  roomListTail : t.roomListTail = s.roomListTail
  totalNumOfRooms : t.totalNumOfRooms = s.totalNumOfRooms

theorem RoomsKept.refl : RoomsKept s s := ⟨.refl, .refl, rfl, rfl, rfl, rfl⟩

theorem RoomsKept.trans {s₁ s₂ s₃ : Server} (h : RoomsKept s₁ s₂) (h' : RoomsKept s₂ s₃) :
    RoomsKept s₁ s₃ where
  rooms := h.rooms.trans h'.rooms
  emptyFlag := h.emptyFlag.trans h'.emptyFlag
  roomsUsed := h'.roomsUsed.trans h.roomsUsed
  roomListHead := h'.roomListHead.trans h.roomListHead
  roomListTail := h'.roomListTail.trans h.roomListTail
  totalNumOfRooms := h'.totalNumOfRooms.trans h.totalNumOfRooms

/-- What `remove_member` and `free` leave as it was. -/
structure Dropped (s : Server) (a : Nat) (t : Server) : Prop extends RoomsKept s t where
  gone : t.members.load a = none
  members : ∀ b, b ≠ a →
    (t.members.load b).map Member.status = (s.members.load b).map Member.status
  membersUsed : t.members.used = s.members.used

/-- Removing a registered member succeeds. -/
theorem dropMember_ok (h : Inv s L R M) (ha : a ∈ L) :
    ∃ t M', dropMember s a = .ok t ∧ Inv t (L.erase a) R M' ∧ Dropped s a t := by
  obtain ⟨mt, hv⟩ := Option.isSome_iff_exists.mp (h.registry.alloc a ha)
  obtain ⟨u, M', hu, honly, hv', hstatus, hflag, hm, -⟩ := leaveRoom_ok h ha hv
  have hreg := h.registry.roomsOnly honly
  have hlist := h.roomList.roomsOnly honly
  obtain ⟨m, head, tail, hun, un⟩ := Links.unlink_ok u.memListTail hreg.list ha
    hreg.alloc hv'
  let t : Server :=
    { u with
      members := m.free a
      memListHead := head
      memListTail := tail
      totalNumOfMembers := u.totalNumOfMembers - 1 }
  have hne : ∀ b, b ∈ L.erase a → b ≠ a := fun b hb => (hreg.nodup.mem_erase_iff.mp hb).1
  have hload : ∀ b, b ≠ a → t.members.load b = m.load b := by
    intro b hb
    simp [t, hb]
  refine ⟨t, M', ?_, ⟨?_, ?_, ?_⟩, ?_⟩
  · simp only [dropMember, removeMember, Store.read_some hv, bind, Except.bind, hu,
      Store.read_some hv', hun, t]
  · exact hreg.drop ha un rfl rfl rfl rfl
  · exact hlist.congr (fun _ _ => rfl) rfl rfl rfl
  · refine hm.congr (fun b hb => ?_) (fun _ _ => rfl)
    rw [hload b (hne b hb)]
    exact un.relinked.agree Member.place (fun _ _ => rfl) (fun _ _ => rfl) b
  · refine ⟨⟨honly.rooms, hflag, honly.roomsUsed, honly.roomListHead, honly.roomListTail,
      honly.totalNumOfRooms⟩, by simp [t], fun b hb => ?_, ?_⟩
    · rw [hload b hb]
      exact (un.relinked.agree Member.status (fun _ _ => rfl) (fun _ _ => rfl) b).trans
        (hstatus b)
    · exact un.relinked.used.trans honly.membersUsed

end Leave

section Join
variable {m : Store Member} {head : Option Nat}

/-- The writes that put the member at `a`, its place in a room reset, into room `r`. -/
theorem Membership.join (h : Membership s (L.erase a) R M) (hL : L.Nodup) (ha : a ∈ L)
    (hr : r ∈ R) (hsome : (s.rooms.load r).isSome)
    (hfull : (M r).length < maxNumOfMembersPerRoom)
    (hm : ∀ b, b ≠ a → m.load b = s.members.load b)
    (hroom : (m.load a).bind Member.currentRoom = some r)
    (ap : roomLinks.Appended m a (s.roomHead r) (s.roomTail r) t.members head)
    (hrooms : t.rooms = s.rooms.modify r fun rt =>
      { rt with
        memberListHead := head
        memberListTail := some a
        numOfMembers := rt.numOfMembers + 1
        emptyFlag := 0 }) :
    Membership t L R (Function.update M r (M r ++ [a])) := by
  obtain ⟨rt, hrt⟩ := Option.isSome_iff_exists.mp hsome
  have hcount : rt.numOfMembers = ((M r).length : Int) := by simpa [hrt] using h.count r hr
  have hout : ∀ j, j ∈ R → a ∉ M j := fun j hj hy =>
    (hL.mem_erase_iff.mp (h.mem_left hj hy)).1 rfl
  have hother : ∀ j, j ≠ r → t.rooms.load j = s.rooms.load j := by
    intro j hj
    simp [hrooms, hj]
  have hcurrent := ap.relinked.agree Member.currentRoom (fun _ _ => rfl) (fun _ _ => rfl)
  have hself : t.roomAt a = some r := (Store.bind_of_map (hcurrent a) id).trans hroom
  have hroomAt : ∀ b, b ≠ a → t.roomAt b = s.roomAt b := by
    intro b hb
    have := Store.bind_of_map (hcurrent b) id
    rwa [hm b hb] at this
  refine h.update ?_ hother ?_ ?_ ?_ (fun j hj b => ?_) (fun b hb j he => ?_) fun he => ?_
  · refine h.family.concat hr hout ap.succ_self ?_ (fun y hy => ?_) (fun y hy => ?_) ?_ fun j hj => ?_
    · rw [ap.pred_self, h.tail r hr]
    · rw [ap.next y hy, h.tail r hr, Links.succ, hm y hy]
      rfl
    · rw [ap.prev y hy, Links.pred, hm y hy]
      rfl
    · rw [← h.tail r hr, ← ap.head]
      simp [Server.roomHead, hrooms, hrt]
    · simp only [Server.roomHead, hother j hj]
  · rw [List.getLast?_concat]
    simp [Server.roomTail, hrooms, hrt]
  · simp [hrooms, hrt, hcount]
  · rw [List.length_append, List.length_singleton]
    exact hfull
  · by_cases hba : b = a
    · subst b
      rw [hself]
      by_cases hjr : j = r
      · subst j
        simp [ha]
      · rw [Function.update_of_ne hjr]
        constructor
        · exact fun hb => (hout j hj hb).elim
        · rintro ⟨-, ⟨⟩⟩
          exact (hjr rfl).elim
    · have hb := h.mem j hj b
      rw [hL.mem_erase_iff] at hb
      rw [hroomAt b hba]
      by_cases hjr : j = r
      · subst j
        simpa [hba] using hb
      · rw [Function.update_of_ne hjr]
        simpa [hba] using hb
  · by_cases hba : b = a
    · subst b
      rw [hself] at he
      cases he
      exact hr
    · rw [hroomAt b hba] at he
      exact h.current b (hL.mem_erase_iff.mpr ⟨hba, hb⟩) j he
  · simp [hrooms, hrt] at he

/-- Putting a registered member that is in no room into one that is not full succeeds. -/
theorem joinRoom_ok (hreg : Registry s L) (hlist : RoomList s R)
    (hm : Membership s (L.erase a) R M) (ha : a ∈ L) (hr : r ∈ R)
    (hfull : (M r).length < maxNumOfMembersPerRoom) :
    ∃ t, joinRoom s a r = .ok t ∧ RoomsOnly s t ∧ t.roomAt a = some r ∧
      Membership t L R (Function.update M r (M r ++ [a])) := by
  obtain ⟨mt, hv⟩ := Option.isSome_iff_exists.mp (hreg.alloc a ha)
  have hsome := hlist.alloc r hr
  obtain ⟨rt, hrt⟩ := Option.isSome_iff_exists.mp hsome
  have hhead : s.roomHead r = rt.memberListHead := by simp [Server.roomHead, hrt]
  have htail : s.roomTail r = rt.memberListTail := by simp [Server.roomTail, hrt]
  let reset (mt : Member) : Member :=
    { mt with
      nextRoomMember := none
      prevRoomMember := none
      currentRoom := some r }
  let m := s.members.modify a reset
  have hload : ∀ b, b ≠ a → m.load b = s.members.load b := by
    intro b hb
    simp [m, hb]
  have hself : m.load a = some (reset mt) := by simp [m, hv]
  have hne : ∀ b, b ∈ M r → b ≠ a := fun b hb =>
    (hreg.nodup.mem_erase_iff.mp (hm.mem_left hr hb)).1
  have d : DList (roomLinks.succ m) (roomLinks.pred m) rt.memberListHead (M r) := by
    rw [← hhead]
    refine (hm.family.dlist r hr).congr (fun b hb => ?_) (fun b hb => ?_)
    · simp only [Links.succ, hload b (hne b hb)]
    · simp only [Links.pred, hload b (hne b hb)]
  have hlast : rt.memberListTail = (M r).getLast? := htail ▸ hm.tail r hr
  obtain ⟨m', head, hap, ap⟩ := Links.append_ok d hlast (fun hb => hne a hb rfl) (fun b hb => by
      rw [hload b (hne b hb)]
      exact hreg.alloc b (List.mem_of_mem_erase (hm.mem_left hr hb))) hself rfl rfl
  let t : Server :=
    { s with
      members := m'
      rooms := s.rooms.modify r fun rt =>
        { rt with
          memberListHead := head
          memberListTail := some a
          numOfMembers := rt.numOfMembers + 1
          emptyFlag := 0 } }
  have hm' : Membership t L R (Function.update M r (M r ++ [a])) :=
    hm.join hreg.nodup ha hr hsome hfull hload (by rw [hself]; rfl) (hhead ▸ htail ▸ ap) rfl
  refine ⟨t, ?_, ⟨?_, ap.relinked.used, ?_, rfl, rfl, rfl, rfl, rfl, rfl, rfl⟩, ?_, hm'⟩
  · have hw : s.members.write (some a) reset = .ok m := Store.write_some (by simp [hv])
    simp only [joinRoom, reset] at hw ⊢
    simp only [hw, bind, Except.bind, Store.read_some hrt, hap, t]
  · have h1 : Store.Agree Member.apart s.members m := Store.agree_modify fun _ => rfl
    exact h1.trans (ap.relinked.agree Member.apart (fun _ _ => rfl) (fun _ _ => rfl))
  · exact Store.agree_modify fun _ => rfl
  · exact ((hm'.mem r hr a).mp (by simp)).2

end Join

section Sweep
variable {n : Nat} {pre rest : List Nat}

def Server.quietAt (s : Server) (a : Nat) : Option Int := (s.members.load a).map Member.quietFlag

/-- What the sweep over the member list leaves: of the members in `rest`, those that have
been active in the last interval. -/
structure Swept (s : Server) (rest : List Nat) (t : Server) : Prop extends RoomsKept s t where
  gone : ∀ a ∈ rest, s.quietAt a ≠ some 0 → t.members.load a = none
  kept : ∀ a ∈ rest, s.quietAt a = some 0 → (t.members.load a).map Member.status =
    (s.members.load a).map fun mt => { mt.status with quietFlag := 1 }
  members : ∀ a, a ∉ rest →
    (t.members.load a).map Member.status = (s.members.load a).map Member.status
  membersUsed : t.members.used = s.members.used

/-- A change to a member that its lists do not see. -/
theorem Inv.modifyMember (h : Inv s L R M) (u : Member → Member)
    (hi : ∀ mt, (u mt).identity = mt.identity) (hp : ∀ mt, (u mt).place = mt.place) :
    Inv { s with members := s.members.modify a u } L R M :=
  ⟨h.registry.congr (fun b _ => Store.agree_modify hi b) rfl rfl rfl,
    h.roomList.congr (fun _ _ => rfl) rfl rfl rfl,
    h.membership.congr (fun b _ => Store.agree_modify hp b) fun _ _ => rfl⟩

/-- The member the sweep has come to, and the link that it follows from there. -/
theorem Inv.currentMember (h : Inv s (pre ++ a :: rest) R M) :
    ∃ mt, s.members.load a = some mt ∧ mt.nextMember = rest.head? := by
  obtain ⟨mt, hmt⟩ := Option.isSome_iff_exists.mp (h.registry.alloc a (by simp))
  refine ⟨mt, hmt, ?_⟩
  rw [← h.registry.list.next_eq, Links.succ_eq hmt]
  rfl

/-- The member the sweep has come to is flagged. -/
theorem Inv.flagMember (h : Inv s (pre ++ a :: rest) R M) :
    Inv { s with members := s.members.modify a fun mt => { mt with quietFlag := mt.quietFlag + 1 } }
      ((pre ++ [a]) ++ rest) R M := by
  rw [List.append_assoc]
  exact h.modifyMember _ (fun _ => rfl) (fun _ => rfl)

/-- The member the sweep has come to is removed. -/
theorem Inv.dropCurrent (h : Inv s (pre ++ a :: rest) R M) :
    ∃ t M', dropMember s a = .ok t ∧ Inv t (pre ++ rest) R M' ∧ Dropped s a t := by
  have hmem : a ∈ pre ++ a :: rest := by simp
  obtain ⟨t, M', ht, hi, hd⟩ := dropMember_ok h hmem
  rw [List.erase_append_right _ h.registry.list.sides.1, List.erase_cons_head] at hi
  exact ⟨t, M', ht, hi, hd⟩

/-- One step of the sweep comes before the rest of it. -/
theorem Swept.cons {u : Server} (hk : RoomsKept s u) (hs : Swept u rest t) (ha : a ∉ rest)
    (hother : ∀ b, b ≠ a →
      (u.members.load b).map Member.status = (s.members.load b).map Member.status)
    (hgone : s.quietAt a ≠ some 0 → u.members.load a = none)
    (hkept : s.quietAt a = some 0 → (u.members.load a).map Member.status =
      (s.members.load a).map fun mt => { mt.status with quietFlag := 1 })
    (hused : u.members.used = s.members.used) : Swept s (a :: rest) t := by
  have hne : ∀ b, b ∈ rest → b ≠ a := fun b hb he => ha (he ▸ hb)
  have hquiet : ∀ b, b ≠ a → u.quietAt b = s.quietAt b :=
    fun b hb => Store.map_of_map (hother b hb) Member.quietFlag
  have hself := hs.members a ha
  refine ⟨hk.trans hs.toRoomsKept, fun b hb hq => ?_, fun b hb hq => ?_, fun b hb => ?_,
    hs.membersUsed.trans hused⟩
  · rcases List.mem_cons.mp hb with rfl | hb
    · rw [hgone hq] at hself
      simpa using hself
    · exact hs.gone b hb (by rwa [hquiet b (hne b hb)])
  · rcases List.mem_cons.mp hb with rfl | hb
    · exact hself.trans (hkept hq)
    · rw [hs.kept b hb (by rwa [hquiet b (hne b hb)])]
      exact Store.map_of_map (hother b (hne b hb)) fun mt => { mt with quietFlag := 1 }
  · rw [hs.members b (fun hm => hb (by simp [hm]))]
    exact hother b (fun he => hb (by simp [he]))

/-- The sweep over the rest of the member list ends, and removes the quiet members. -/
theorem sweepMembers_ok (h : Inv s (pre ++ rest) R M) (hn : rest.length ≤ n) :
    ∃ t M', sweepMembers n rest.head? s = .ok t ∧
      Inv t (pre ++ rest.filter fun a => s.quietAt a = some 0) R M' ∧ Swept s rest t := by
  induction rest generalizing s pre n M with
  | nil =>
    refine ⟨s, M, by cases n <;> rfl, h, .refl, ?_, ?_, fun _ _ => rfl, rfl⟩ <;> simp
  | cons a rest ih =>
    cases n with
    | zero => simp at hn
    | succ n =>
      have hn : rest.length ≤ n := by simpa using hn
      obtain ⟨mt, hv, hnext⟩ := h.currentMember
      obtain ⟨-, hrest, -, -⟩ := h.registry.list.sides
      have hfilter : ∀ u : Server, (∀ b, b ≠ a →
          (u.members.load b).map Member.status = (s.members.load b).map Member.status) →
          rest.filter (fun b => u.quietAt b = some 0) =
            rest.filter fun b => s.quietAt b = some 0 := by
        intro u hu
        refine List.filter_congr fun b hb => ?_
        have : u.quietAt b = s.quietAt b :=
          Store.map_of_map (hu b fun he => hrest (he ▸ hb)) Member.quietFlag
        rw [this]
      simp only [List.head?_cons, sweepMembers, Store.read_some hv, bind, Except.bind, hnext]
      by_cases hq : mt.quietFlag = 0
      · -- active: the flag is set and the member stays
        have hqa : s.quietAt a = some 0 := by simp [Server.quietAt, hv, hq]
        let u : Server :=
          { s with
            members := s.members.modify a fun mt => { mt with quietFlag := mt.quietFlag + 1 } }
        have hother : ∀ b, b ≠ a →
            (u.members.load b).map Member.status = (s.members.load b).map Member.status := by
          intro b hb
          simp [u, hb]
        obtain ⟨t, M', ht, hi, hs⟩ := ih h.flagMember hn
        refine ⟨t, M', ?_, ?_, ?_⟩
        · rw [if_pos hq]
          exact ht
        · rw [hfilter u hother] at hi
          simpa [hqa] using hi
        · refine Swept.cons (u := u) ⟨.refl, .refl, rfl, rfl, rfl, rfl⟩ hs hrest hother ?_
            (fun _ => ?_) rfl
          · exact fun hne => (hne hqa).elim
          · simp [u, hv, hq, Member.status]
      · have hqa : s.quietAt a ≠ some 0 := by simp [Server.quietAt, hv, hq]
        obtain ⟨u, M', hdrop, hu, hd⟩ := h.dropCurrent
        obtain ⟨t, M', ht, hi, hs⟩ := ih hu hn
        refine ⟨t, M', ?_, ?_, ?_⟩
        · rw [if_neg hq]
          simp only [hdrop]
          exact ht
        · rw [hfilter u hd.members] at hi
          simpa [hqa] using hi
        · refine Swept.cons hd.toRoomsKept hs hrest hd.members (fun _ => hd.gone) ?_ hd.membersUsed
          exact fun he => (hqa he).elim

end Sweep
end Csc469.Chat
