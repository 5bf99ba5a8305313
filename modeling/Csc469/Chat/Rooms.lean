import Csc469.Chat.Members

/-! Rooms are created, and removed by the sweep. -/
namespace Csc469.Chat

open Execution Linked

variable {s t : Server} {L R : List Nat} {M : Nat → List Nat} {a r addr n ret : Nat}
  {name : Bytes} {pre rest : List Nat}

def Server.roomNameAt (s : Server) (r : Nat) : Option Bytes := (s.rooms.load r).map Room.name

def Server.emptyFlagAt (s : Server) (r : Nat) : Option Int :=
  (s.rooms.load r).map Room.emptyFlag

/-- A room apart from its link. -/
def Room.contents (rt : Room) : Room := { rt with nextRoom := none }

section Find

theorem Server.roomNameAt_iff : s.roomNameAt r = some name ↔
    ((s.rooms.load r).any fun rt => rt.name = name) = true := by
  cases h : s.rooms.load r <;> simp [Server.roomNameAt, h]

/-- The search for a room ends at the first one with the name. -/
theorem findRoom_ok (h : RoomList s R) (name : Bytes) :
    findRoom s name = .ok (R.find? fun r => (s.rooms.load r).any fun rt => rt.name = name) :=
  find_ok h.chain h.alloc (Store.length_le_used h.nodup h.alloc)

theorem findRoom_some (h : RoomList s R) (hf : findRoom s name = .ok (some r)) :
    r ∈ R ∧ s.roomNameAt r = some name := by
  have hr := Except.ok.inj ((findRoom_ok h name).symm.trans hf)
  have hname := List.find?_some hr
  exact ⟨List.mem_of_find?_eq_some hr, Server.roomNameAt_iff.mpr hname⟩

theorem findRoom_none (h : RoomList s R) (hf : findRoom s name = .ok none) :
    ∀ r ∈ R, s.roomNameAt r ≠ some name := by
  have hnone := Except.ok.inj ((findRoom_ok h name).symm.trans hf)
  intro r hr he
  exact List.find?_eq_none.mp hnone r hr (Server.roomNameAt_iff.mp he)

end Find

section Create

theorem newRoom_name (hlen : name.length ≤ maxRoomNameLen) (h0 : 0 ∉ name) :
    (newRoom name).name = name := by
  have hcopy : (strncpy maxRoomNameLen name).toList =
      name ++ List.replicate (maxRoomNameLen - name.length) 0 := by
    rw [strncpy_toList (by rwa [cstr_self h0]), cstr_self h0]
  have hzeros : ∀ k, ∃ rest, List.replicate k 0 ++ pointerBytes none = 0 :: rest := by
    intro k
    cases k with
    | zero => exact ⟨_, rfl⟩
    | succ k => exact ⟨_, rfl⟩
  obtain ⟨rest, hrest⟩ := hzeros (maxRoomNameLen - name.length)
  show cstr ((strncpy maxRoomNameLen name).toList ++ pointerBytes none) = name
  rw [hcopy, List.append_assoc, hrest, cstr_append_zero h0]

/-- A record that was allocated and then forgotten. -/
theorem Inv.leakRoom {rooms : Store Room} {rt : Room} (h : Inv s L R M)
    (hm : s.rooms.malloc addr rt = .ok rooms) : Inv { s with rooms := rooms } L R M := by
  have hsame : ∀ r ∈ R, rooms.load r = s.rooms.load r := by
    intro r hr
    exact Store.malloc_kept hm (h.roomList.alloc r hr)
  refine ⟨h.registry.congr (fun _ _ => rfl) rfl rfl rfl,
    h.roomList.congr (fun r hr => ?_) rfl rfl rfl,
    h.membership.congr (fun _ _ => rfl) (fun r hr => ?_)⟩ <;> rw [hsame r hr]

/-- The members have not changed. -/
structure MembersKept (s t : Server) : Prop where
  members : t.members = s.members
  memListHead : t.memListHead = s.memListHead
  memListTail : t.memListTail = s.memListTail
  totalNumOfMembers : t.totalNumOfMembers = s.totalNumOfMembers

theorem MembersKept.refl : MembersKept s s := ⟨rfl, rfl, rfl, rfl⟩

theorem MembersKept.trans {s₁ s₂ s₃ : Server} (h : MembersKept s₁ s₂) (h' : MembersKept s₂ s₃) :
    MembersKept s₁ s₃ where
  members := h'.members.trans h.members
  memListHead := h'.memListHead.trans h.memListHead
  memListTail := h'.memListTail.trans h.memListTail
  totalNumOfMembers := h'.totalNumOfMembers.trans h.totalNumOfMembers

theorem Registry.membersKept (h : Registry s L) (hk : MembersKept s t) : Registry t L :=
  h.congr (fun a _ => by rw [hk.members]) hk.memListHead hk.memListTail hk.totalNumOfMembers

/-- `t` is `s` with a new room behind the last one. -/
structure RoomAdded (s : Server) (R : List Nat) (name : Bytes) (addr : Nat) (t : Server) :
    Prop extends MembersKept s t where
  free : s.rooms.Free addr
  new : t.rooms.load addr = some (newRoom name)
  last : ∀ r, R.getLast? = some r →
    t.rooms.load r = (s.rooms.load r).map fun rt => { rt with nextRoom := some addr }
  other : ∀ r, r ≠ addr → R.getLast? ≠ some r → t.rooms.load r = s.rooms.load r
  roomListHead : t.roomListHead = if R.getLast? = none then some addr else s.roomListHead
  roomListTail : t.roomListTail = some addr
  totalNumOfRooms : t.totalNumOfRooms = s.totalNumOfRooms + 1

/-- What `create_room` can do. -/
inductive Created (s : Server) (R : List Nat) (name : Bytes) (addr : Nat) : Server → Nat → Prop
  | tooLong (h : maxRoomNameLen < name.length) : Created s R name addr s 1
  | tooMany {rooms : Store Room} (hm : s.rooms.malloc addr (newRoom name) = .ok rooms)
      (h : s.totalNumOfRooms = maxNumOfRooms) :
      Created s R name addr { s with rooms := rooms } 2
  | exists {rooms : Store Room} (hm : s.rooms.malloc addr (newRoom name) = .ok rooms)
      (h : ∃ r ∈ R, s.roomNameAt r = some (newRoom name).name) :
      Created s R name addr { s with rooms := rooms } 3
  | created {t : Server} (hlen : name.length ≤ maxRoomNameLen)
      (hmax : s.totalNumOfRooms ≠ maxNumOfRooms)
      (hnew : ∀ r ∈ R, s.roomNameAt r ≠ some (newRoom name).name)
      (h : RoomAdded s R name addr t) : Created s R name addr t 0

/-- The new room is linked in behind the last one. -/
theorem RoomAdded.behind {rooms : Store Room} {z : Nat} (h : RoomList s R)
    (hm : s.rooms.malloc addr (newRoom name) = .ok rooms) (hlast : R.getLast? = some z) :
    RoomAdded s R name addr
      { s with
        rooms := rooms.modify z fun rt => { rt with nextRoom := some addr }
        roomListTail := some addr
        totalNumOfRooms := s.totalNumOfRooms + 1 } := by
  obtain ⟨hfree, -, hload⟩ := Store.malloc_ok hm
  have hz := h.alloc z (List.mem_of_getLast? hlast)
  have hza : z ≠ addr := by
    rintro rfl
    simp [hfree.1] at hz
  refine ⟨⟨rfl, rfl, rfl, rfl⟩, hfree, ?_, ?_, ?_, by simp [hlast], rfl, rfl⟩
  · simp [hload, hza.symm]
  · intro r hr
    rw [hlast] at hr
    cases hr
    simp [Store.malloc_kept hm hz]
  · intro r hr hrz
    have : r ≠ z := fun he => hrz (he ▸ hlast)
    simp [hload, hr, this]

theorem createRoom_created (h : Inv s L R M) (hc : createRoom s name addr = .ok (t, ret)) :
    Created s R name addr t ret := by
  unfold createRoom at hc
  split at hc
  · next hlen =>
    cases hc
    exact .tooLong hlen
  next hlen =>
  obtain ⟨rooms, hm, hc⟩ := ok_of_bind hc
  have hlist := (h.leakRoom hm).roomList
  have hsame : ∀ r ∈ R, rooms.load r = s.rooms.load r := by
    intro r hr
    exact Store.malloc_kept hm (h.roomList.alloc r hr)
  simp only at hc
  split at hc
  · next hmax =>
    cases hc
    exact .tooMany hm hmax
  next hmax =>
  split at hc
  · next hhead =>
    cases hc
    obtain ⟨hfree, -, hload⟩ := Store.malloc_ok hm
    have hnil := h.roomList.chain.head_eq
    rw [hhead] at hnil
    obtain rfl : R = [] := List.head?_eq_none_iff.mp hnil.symm
    refine .created (by omega) hmax (by simp)
      ⟨⟨rfl, rfl, rfl, rfl⟩, hfree, ?_, by simp, ?_, by simp, rfl, rfl⟩
    · simp [hload]
    · intro r hr _
      simp [hload, hr]
  · next x hhead =>
    obtain ⟨found, hfind, hc⟩ := ok_of_bind hc
    cases found with
    | some r =>
      cases hc
      obtain ⟨hr, hname⟩ := findRoom_some hlist hfind
      refine .exists hm ⟨r, hr, ?_⟩
      simpa [Server.roomNameAt, hsame r hr] using hname
    | none =>
      obtain ⟨rooms', hw, hc⟩ := ok_of_bind hc
      cases hc
      -- the write went through, so the tail pointer has not been lost
      cases htail : s.roomListTail with
      | none =>
        rw [htail] at hw
        cases hw
      | some z =>
        rw [htail] at hw
        have hlast : R.getLast? = some z := by
          rcases h.roomList.tail with ht | ht
          · rw [htail] at ht
            cases ht
          · rw [← ht, htail]
        have hz := List.mem_of_getLast? hlast
        rw [Store.write_some (hsame z hz ▸ h.roomList.alloc z hz)] at hw
        cases hw
        refine .created (by omega) hmax (fun r hr => ?_) (.behind h.roomList hm hlast)
        have := findRoom_none hlist hfind r hr
        simpa [Server.roomNameAt, hsame r hr] using this

theorem RoomAdded.notMem (ha : RoomAdded s R name addr t) (h : RoomList s R) : addr ∉ R := by
  intro hr
  have := h.alloc addr hr
  simp [ha.free.1] at this

theorem RoomAdded.occupancy (ha : RoomAdded s R name addr t) (h : RoomList s R) :
    ∀ r ∈ R, (t.rooms.load r).map Room.occupancy = (s.rooms.load r).map Room.occupancy := by
  intro r hr
  have hne : r ≠ addr := fun he => ha.notMem h (he ▸ hr)
  by_cases hlast : R.getLast? = some r
  · rw [ha.last r hlast, Option.map_map]
    rfl
  · rw [ha.other r hne hlast]

theorem RoomAdded.roomList (ha : RoomAdded s R name addr t) (h : RoomList s R)
    (hmax : s.totalNumOfRooms ≠ maxNumOfRooms) : RoomList t (R ++ [addr]) := by
  have hout := ha.notMem h
  have hnew : t.nextRoomAt addr = none := by simp [Server.nextRoomAt, ha.new, newRoom]
  refine ⟨?_, fun r hr => ?_, .inr ?_, ?_, ?_⟩
  · rcases List.eq_nil_or_concat' R with rfl | ⟨l, z, rfl⟩
    · rw [ha.roomListHead]
      exact ⟨by simp, hnew⟩
    · rw [ha.roomListHead, if_neg (by simp)]
      have hnd := h.nodup
      refine h.chain.concat ?_ hnew fun y hy => ?_
      · obtain ⟨rt, hrt⟩ := Option.isSome_iff_exists.mp (h.alloc z (by simp))
        simp [Server.nextRoomAt, ha.last z (by simp), hrt]
      · have hyz : y ≠ z := by
          rintro rfl
          simp [List.nodup_append] at hnd
          exact hnd.2 y hy rfl
        have hya : y ≠ addr := fun he => hout (by simp [← he, hy])
        rw [Server.nextRoomAt, ha.other y hya (by simpa using Ne.symm hyz)]
        rfl
  · rcases List.mem_append.mp hr with hr | hr
    · rw [Store.isSome_of_map (ha.occupancy h r hr)]
      exact h.alloc r hr
    · obtain rfl := List.mem_singleton.mp hr
      simp [ha.new]
  · rw [ha.roomListTail, List.getLast?_concat]
  · rw [ha.totalNumOfRooms, h.count, List.length_append]
    simp
  · have := h.count
    have := h.le
    simp only [List.length_append, List.length_singleton]
    omega

/-- A new room has no members yet. -/
theorem Membership.addRoom (h : Membership s L R M) (hout : addr ∉ R)
    (hm : t.members = s.members) (hnew : t.rooms.load addr = some (newRoom name))
    (hr : ∀ r ∈ R, (t.rooms.load r).map Room.occupancy = (s.rooms.load r).map Room.occupancy) :
    Membership t L (R ++ [addr]) (Function.update M addr []) := by
  have hc : Membership t L R M := h.congr (fun a _ => by rw [hm]) hr
  have hne : ∀ r, r ∈ R → r ≠ addr := fun r hr he => hout (he ▸ hr)
  have hcases : ∀ r ∈ R ++ [addr], (r ∈ R ∧ Function.update M addr [] r = M r) ∨
      (r = addr ∧ Function.update M addr [] r = []) := by
    intro r hr
    rcases List.mem_append.mp hr with hr | hr
    · exact .inl ⟨hr, Function.update_of_ne (hne r hr) _ _⟩
    · obtain rfl := List.mem_singleton.mp hr
      exact .inr ⟨rfl, Function.update_self _ _ _⟩
  refine ⟨⟨fun r hr => ?_, fun i j hi hj x hx hx' => ?_⟩, fun r hr => ?_, fun r hr => ?_,
    fun r hr => ?_, fun r hr a => ?_, fun a ha r he => ?_, fun r hr he => ?_⟩
  · rcases hcases r hr with ⟨hr, he⟩ | ⟨rfl, he⟩ <;> rw [he]
    · exact hc.family.dlist r hr
    · have : t.roomHead r = none := by simp [Server.roomHead, hnew, newRoom]
      rw [this]
      exact .nil
  · rcases hcases i hi with ⟨hi, he⟩ | ⟨rfl, he⟩ <;> rw [he] at hx
    · rcases hcases j hj with ⟨hj, he'⟩ | ⟨rfl, he'⟩ <;> rw [he'] at hx'
      · exact hc.family.disjoint i j hi hj x hx hx'
      · cases hx'
    · cases hx
  · rcases hcases r hr with ⟨hr, he⟩ | ⟨rfl, he⟩ <;> rw [he]
    · exact hc.tail r hr
    · simp [Server.roomTail, hnew, newRoom]
  · rcases hcases r hr with ⟨hr, he⟩ | ⟨rfl, he⟩ <;> rw [he]
    · exact hc.count r hr
    · simp [hnew, newRoom]
  · rcases hcases r hr with ⟨hr, he⟩ | ⟨rfl, he⟩ <;> rw [he]
    · exact hc.le r hr
    · simp
  · rcases hcases r hr with ⟨hr, he⟩ | ⟨rfl, he⟩ <;> rw [he]
    · exact hc.mem r hr a
    · simp only [List.not_mem_nil, false_iff]
      rintro ⟨ha, hroom⟩
      exact hout (hc.current a ha r hroom)
  · exact List.mem_append_left _ (hc.current a ha r he)
  · rcases hcases r hr with ⟨hr, he'⟩ | ⟨rfl, he'⟩ <;> rw [he']
    exact hc.idle r hr he

theorem RoomAdded.inv (ha : RoomAdded s R name addr t) (h : Inv s L R M)
    (hmax : s.totalNumOfRooms ≠ maxNumOfRooms) :
    Inv t L (R ++ [addr]) (Function.update M addr []) :=
  ⟨h.registry.membersKept ha.toMembersKept, ha.roomList h.roomList hmax,
    h.membership.addRoom (ha.notMem h.roomList) ha.members ha.new (ha.occupancy h.roomList)⟩

/-- With its tail pointer in place, the room list always takes a room. -/
theorem createRoom_ok (h : Inv s L R M) (htail : s.roomListTail = R.getLast?)
    (hfree : s.rooms.Free addr) : ∃ x, createRoom s name addr = .ok x := by
  by_cases hlen : maxRoomNameLen < name.length
  · exact ⟨(s, 1), if_pos hlen⟩
  · obtain ⟨rooms, hm⟩ := Store.malloc_free (v := newRoom name) hfree
    have hlist := (h.leakRoom hm).roomList
    simp only [createRoom, if_neg hlen, hm, bind, Except.bind]
    split
    · exact ⟨_, rfl⟩
    · split
      · exact ⟨_, rfl⟩
      · next x hhead =>
        rw [findRoom_ok hlist]
        simp only
        split
        · exact ⟨_, rfl⟩
        · have hne : R ≠ [] := by
            rintro rfl
            have := h.roomList.chain.head_eq
            rw [hhead] at this
            cases this
          have hlast := List.getLast?_eq_some_getLast hne
          rw [htail, hlast, Store.write_some (hlist.alloc _ (List.getLast_mem hne))]
          exact ⟨_, rfl⟩

end Create

section Drop

/-- What `remove_room` and `free` leave as it was. -/
structure RoomDropped (s : Server) (a : Nat) (t : Server) : Prop extends MembersKept s t where
  gone : t.rooms.load a = none
  contents : ∀ r, r ≠ a →
    (t.rooms.load r).map Room.contents = (s.rooms.load r).map Room.contents
  roomsUsed : t.rooms.used = s.rooms.used
  roomListTail : t.roomListTail = if s.nextRoomAt a = none then none else s.roomListTail

/-- The search of `remove_room` ends at the room itself only when it is the first one. -/
theorem removeRoom_firstHit {l : List Nat} (h : RoomList s (l ++ a :: rest)) :
    firstHit (fun x => (s.rooms.load x).map (x, ·))
      (fun trt =>
        if trt.1 = a then some true else if trt.2.nextRoom = some a then some false else none)
      (l ++ a :: rest) = match l.getLast? with
        | none => some (a, true)
        | some p => some (p, false) := by
  have hnd := h.nodup
  have hload : ∀ x ∈ l ++ a :: rest, ∃ rt, s.rooms.load x = some rt ∧ s.nextRoomAt x = rt.nextRoom := by
    intro x hx
    obtain ⟨rt, hrt⟩ := Option.isSome_iff_exists.mp (h.alloc x hx)
    exact ⟨rt, hrt, by simp [Server.nextRoomAt, hrt]⟩
  rcases List.eq_nil_or_concat' l with rfl | ⟨l, p, rfl⟩
  · obtain ⟨rt, hrt, -⟩ := hload a (by simp)
    simp [firstHit, hrt]
  · have hne : ∀ x ∈ l ++ [p], x ≠ a := fun x hx => (List.nodup_append.mp hnd).2.2 x hx a (by simp)
    have hbefore : ∀ x ∈ l, s.nextRoomAt x ≠ some a := by
      intro x hx he
      obtain ⟨l₁, l₂, rfl⟩ := List.append_of_mem hx
      have hc := h.chain
      rw [show l₁ ++ x :: l₂ ++ [p] ++ a :: rest = l₁ ++ x :: (l₂ ++ [p] ++ a :: rest) by simp] at hc
      have := hc.next_eq.symm.trans he
      cases l₂ with
      | nil => exact hne p (by simp) (by simpa using this)
      | cons z l₂ => exact hne z (by simp) (by simpa using this)
    obtain ⟨rt, hrt, hnext⟩ := hload p (by simp)
    have hp : rt.nextRoom = some a := by
      have hc := h.chain
      rw [show l ++ [p] ++ a :: rest = l ++ p :: a :: rest by simp] at hc
      rw [← hnext, hc.next_eq]
      rfl
    have hnone : firstHit (fun x => (s.rooms.load x).map (x, ·))
        (fun trt =>
          if trt.1 = a then some true else if trt.2.nextRoom = some a then some false else none)
        l = none := by
      refine firstHit_eq_none_iff.mpr fun x hx => ?_
      obtain ⟨rt, hrt, hnext⟩ := hload x (by simp [hx])
      have := hbefore x hx
      rw [hnext] at this
      simp [hrt, hne x (by simp [hx]), this]
    rw [firstHit] at hnone ⊢
    rw [List.findSome?_append, List.findSome?_append, hnone, List.getLast?_concat]
    simp [hrt, hp, hne p (by simp)]

theorem removeRoom_search {l : List Nat} (h : RoomList s (l ++ a :: rest)) :
    search (fun x => (s.rooms.load x).map (x, ·)) (fun trt => trt.2.nextRoom)
      (fun trt =>
        if trt.1 = a then some true else if trt.2.nextRoom = some a then some false else none)
      s.rooms.used.length s.roomListHead = .ok (match l.getLast? with
        | none => some (a, true)
        | some p => some (p, false)) :=
  (searchAt_ok h.chain h.alloc (Store.length_le_used h.nodup h.alloc)).trans
    (congrArg Except.ok (removeRoom_firstHit h))

/-- Whatever becomes of the tail pointer, it is not left on another room. -/
theorem RoomList.tail_drop {l : List Nat} (h : RoomList s (l ++ a :: rest)) :
    (if s.nextRoomAt a = none then none else s.roomListTail) = none ∨
      (if s.nextRoomAt a = none then none else s.roomListTail) = (l ++ rest).getLast? := by
  split
  · exact .inl rfl
  · next hne =>
    rcases h.tail with ht | ht
    · exact .inl ht
    · right
      rw [ht]
      cases rest with
      | nil => exact (hne h.chain.next_eq).elim
      | cons z rest => simp [List.getLast?_append, List.getLast?_cons]

theorem RoomDropped.roomList {l : List Nat} (hd : RoomDropped s a t)
    (h : RoomList s (l ++ a :: rest)) (hchain : Chain t.nextRoomAt t.roomListHead (l ++ rest))
    (hcount : t.totalNumOfRooms = s.totalNumOfRooms - 1) : RoomList t (l ++ rest) := by
  have hc := h.count
  have hle := h.le
  simp only [List.length_append, List.length_cons] at hc hle
  have hnd : a ∉ l ++ rest := by
    have hnd := h.nodup
    simp only [List.nodup_append, List.nodup_cons] at hnd
    intro hm
    rcases List.mem_append.mp hm with hm | hm
    · exact hnd.2.2 a hm a (by simp) rfl
    · exact hnd.2.1.1 hm
  refine ⟨hchain, fun y hy => ?_, ?_, ?_, ?_⟩
  · have hya : y ≠ a := fun he => hnd (he ▸ hy)
    rw [Store.isSome_of_map (hd.contents y hya)]
    exact h.alloc y (by simp at hy ⊢; tauto)
  · rw [hd.roomListTail]
    exact h.tail_drop
  · rw [hcount, List.length_append]
    omega
  · rw [List.length_append]
    omega

/-- The first room is removed: the one behind it comes first. -/
theorem dropRoom_first (h : RoomList s (a :: rest)) : ∃ t, dropRoom s a = .ok t ∧
    Chain t.nextRoomAt t.roomListHead rest ∧ RoomDropped s a t ∧
    t.totalNumOfRooms = s.totalNumOfRooms - 1 := by
  obtain ⟨rt, hrt⟩ := Option.isSome_iff_exists.mp (h.alloc a (by simp))
  have hnext : s.nextRoomAt a = rt.nextRoom := by simp [Server.nextRoomAt, hrt]
  have hsearch := removeRoom_search (l := []) h
  simp only [List.getLast?_nil] at hsearch
  have har : a ∉ rest := (List.nodup_cons.mp h.nodup).1
  let t : Server :=
    { s with
      roomListHead := rt.nextRoom
      roomListTail := if rt.nextRoom = none then none else s.roomListTail
      totalNumOfRooms := s.totalNumOfRooms - 1
      rooms := s.rooms.free a }
  refine ⟨t, ?_, ?_, ⟨⟨rfl, rfl, rfl, rfl⟩, ?_, fun y hy => ?_, rfl, ?_⟩, rfl⟩
  · simp only [dropRoom, removeRoom, Store.read_some hrt, bind, Except.bind, hsearch, t]
  · have hc : Chain s.nextRoomAt rt.nextRoom rest := hnext ▸ h.chain.2
    refine hc.congr fun y hy => ?_
    simp [Server.nextRoomAt, t, show y ≠ a from fun he => har (he ▸ hy)]
  · simp [t]
  · simp only [t, Store.free_load, if_neg hy]
  · rw [hnext]

/-- A room behind another is removed: the one before it skips it. -/
theorem dropRoom_behind {l : List Nat} {p : Nat} (h : RoomList s (l ++ p :: a :: rest)) :
    ∃ t, dropRoom s a = .ok t ∧ Chain t.nextRoomAt t.roomListHead (l ++ p :: rest) ∧
      RoomDropped s a t ∧ t.totalNumOfRooms = s.totalNumOfRooms - 1 := by
  have hsplit : l ++ p :: a :: rest = (l ++ [p]) ++ a :: rest := by simp
  obtain ⟨rt, hrt⟩ := Option.isSome_iff_exists.mp (h.alloc a (by simp))
  have hnext : s.nextRoomAt a = rt.nextRoom := by simp [Server.nextRoomAt, hrt]
  have hsearch := removeRoom_search (hsplit ▸ h)
  simp only [List.getLast?_concat] at hsearch
  have hsome := h.alloc p (by simp)
  have hnd := h.nodup
  simp only [List.nodup_append, List.nodup_cons, List.mem_cons] at hnd
  obtain ⟨-, ⟨hp, ha, -⟩, hl⟩ := hnd
  have hpa : p ≠ a := fun he => hp (.inl he)
  have hout : ∀ y, y ∈ l ∨ y ∈ rest → y ≠ a ∧ y ≠ p := by
    rintro y (hy | hy)
    · exact ⟨hl y hy a (by simp), hl y hy p (by simp)⟩
    · exact ⟨fun he => ha (he ▸ hy), fun he => hp (.inr (he ▸ hy))⟩
  let t : Server :=
    { s with
      roomListTail := if rt.nextRoom = none then none else s.roomListTail
      totalNumOfRooms := s.totalNumOfRooms - 1
      rooms := (s.rooms.modify p fun trt => { trt with nextRoom := rt.nextRoom }).free a }
  have hload : ∀ y, y ∈ l ∨ y ∈ rest → t.rooms.load y = s.rooms.load y := by
    intro y hy
    obtain ⟨hya, hyp⟩ := hout y hy
    simp [t, hya, hyp]
  refine ⟨t, ?_, ?_, ⟨⟨rfl, rfl, rfl, rfl⟩, ?_, fun y hy => ?_, rfl, ?_⟩, rfl⟩
  · simp only [dropRoom, removeRoom, Store.read_some hrt, bind, Except.bind, hsearch,
      Store.write_some hsome, t]
  · refine h.chain.skip ?_ (fun y hy => ?_) (fun y hy => ?_)
    · obtain ⟨v, hv⟩ := Option.isSome_iff_exists.mp hsome
      rw [hnext]
      simp [Server.nextRoomAt, t, hpa, hv]
    · simp only [Server.nextRoomAt, hload y (.inl hy)]
    · simp only [Server.nextRoomAt, hload y (.inr hy)]
  · simp [t]
  · have hagree : Store.Agree Room.contents s.rooms
        (s.rooms.modify p fun trt => { trt with nextRoom := rt.nextRoom }) :=
      Store.agree_modify fun _ => rfl
    simp only [t, Store.free_load, if_neg hy]
    exact hagree y
  · rw [hnext]

/-- Removing a room of the list succeeds. -/
theorem dropRoom_ok {l : List Nat} (h : RoomList s (l ++ a :: rest)) :
    ∃ t, dropRoom s a = .ok t ∧ RoomList t (l ++ rest) ∧ RoomDropped s a t := by
  rcases List.eq_nil_or_concat' l with rfl | ⟨l, p, rfl⟩
  · obtain ⟨t, ht, hchain, hd, hcount⟩ := dropRoom_first h
    exact ⟨t, ht, hd.roomList h hchain hcount, hd⟩
  · have hsplit : l ++ [p] ++ a :: rest = l ++ p :: a :: rest := by simp
    obtain ⟨t, ht, hchain, hd, hcount⟩ := dropRoom_behind (hsplit ▸ h)
    refine ⟨t, ht, hd.roomList h ?_ hcount, hd⟩
    rwa [List.append_assoc, List.singleton_append]

theorem Membership.shrink (h : Membership s L R M) (hM : M a = []) :
    Membership s L (R.erase a) M := by
  have hsub : ∀ r, r ∈ R.erase a → r ∈ R := fun r hr => List.mem_of_mem_erase hr
  refine ⟨⟨fun r hr => h.family.dlist r (hsub r hr),
      fun i j hi hj => h.family.disjoint i j (hsub i hi) (hsub j hj)⟩,
    fun r hr => h.tail r (hsub r hr), fun r hr => h.count r (hsub r hr),
    fun r hr => h.le r (hsub r hr), fun r hr => h.mem r (hsub r hr), fun b hb r he => ?_,
    fun r hr => h.idle r (hsub r hr)⟩
  have hr := h.current b hb r he
  refine (List.mem_erase_of_ne ?_).mpr hr
  rintro rfl
  have := (h.mem r hr b).mpr ⟨hb, he⟩
  rw [hM] at this
  cases this

/-- An empty room can be removed. -/
theorem Membership.dropRoom (h : Membership s L R M) (hR : R.Nodup) (hM : M a = [])
    (hd : RoomDropped s a t) : Membership t L (R.erase a) M := by
  refine (h.shrink hM).congr (fun b _ => by rw [hd.members]) fun r hr => ?_
  exact Store.map_of_map (hd.contents r (hR.mem_erase_iff.mp hr).1) Room.occupancy

end Drop

section Sweep

/-- What the sweep over the room list leaves: of the rooms in `rest`, those that were not
empty at the last sweep. -/
structure RoomsSwept (s : Server) (rest : List Nat) (t : Server) : Prop
    extends MembersKept s t where
  gone : ∀ r ∈ rest, s.emptyFlagAt r ≠ some 0 → t.rooms.load r = none
  kept : ∀ r ∈ rest, s.emptyFlagAt r = some 0 → (t.rooms.load r).map Room.contents =
    (s.rooms.load r).map fun rt =>
      { rt.contents with emptyFlag := if rt.numOfMembers = 0 then 1 else 0 }
  rooms : ∀ r, r ∉ rest →
    (t.rooms.load r).map Room.contents = (s.rooms.load r).map Room.contents
  tailLost : ∀ r, rest.getLast? = some r → s.emptyFlagAt r ≠ some 0 → t.roomListTail = none
  tailKept : (∀ r, rest.getLast? = some r → s.emptyFlagAt r = some 0) →
    t.roomListTail = s.roomListTail

/-- One step of the sweep comes before the rest of it. -/
theorem RoomsSwept.cons {u : Server} (hk : MembersKept s u) (hs : RoomsSwept u rest t)
    (ha : a ∉ rest)
    (hother : ∀ r, r ≠ a →
      (u.rooms.load r).map Room.contents = (s.rooms.load r).map Room.contents)
    (hgone : s.emptyFlagAt a ≠ some 0 → u.rooms.load a = none)
    (hkept : s.emptyFlagAt a = some 0 → (u.rooms.load a).map Room.contents =
      (s.rooms.load a).map fun rt =>
        { rt.contents with emptyFlag := if rt.numOfMembers = 0 then 1 else 0 })
    (htail : u.roomListTail =
      if rest = [] ∧ s.emptyFlagAt a ≠ some 0 then none else s.roomListTail) :
    RoomsSwept s (a :: rest) t := by
  have hne : ∀ r, r ∈ rest → r ≠ a := fun r hr he => ha (he ▸ hr)
  have hflag : ∀ r, r ≠ a → u.emptyFlagAt r = s.emptyFlagAt r :=
    fun r hr => Store.map_of_map (hother r hr) Room.emptyFlag
  have hself := hs.rooms a ha
  refine ⟨hk.trans hs.toMembersKept, fun r hr hq => ?_, fun r hr hq => ?_, fun r hr => ?_,
    fun r hr hq => ?_, fun h => ?_⟩
  · rcases List.mem_cons.mp hr with rfl | hr
    · rw [hgone hq] at hself
      simpa using hself
    · exact hs.gone r hr (by rwa [hflag r (hne r hr)])
  · rcases List.mem_cons.mp hr with rfl | hr
    · exact hself.trans (hkept hq)
    · rw [hs.kept r hr (by rwa [hflag r (hne r hr)])]
      exact Store.map_of_map (hother r (hne r hr)) fun rt =>
        { rt.contents with emptyFlag := if rt.numOfMembers = 0 then 1 else 0 }
  · rw [hs.rooms r (fun hm => hr (by simp [hm]))]
    exact hother r (fun he => hr (by simp [he]))
  · cases rest with
    | nil =>
      obtain rfl : a = r := by simpa using hr
      rw [hs.tailKept (by simp), htail, if_pos ⟨rfl, hq⟩]
    | cons b rest =>
      have hr' : (b :: rest).getLast? = some r := by simpa [List.getLast?_cons] using hr
      exact hs.tailLost r hr' (by rwa [hflag r (hne r (List.mem_of_getLast? hr'))])
  · cases rest with
    | nil => rw [hs.tailKept (by simp), htail, if_neg (fun hn => hn.2 (h a (by simp)))]
    | cons b rest =>
      rw [hs.tailKept fun r hr => ?_, htail, if_neg (by simp)]
      rw [hflag r (hne r (List.mem_of_getLast? hr))]
      exact h r (by simpa [List.getLast?_cons] using hr)

/-- A room without members is flagged. -/
theorem Inv.flagRoom (h : Inv s L R M) (hM : M a = []) : Inv { s with
    rooms := s.rooms.modify a fun rt => { rt with emptyFlag := rt.emptyFlag + 1 } } L R M := by
  have hl : Store.Agree Room.listing s.rooms
      (s.rooms.modify a fun rt => { rt with emptyFlag := rt.emptyFlag + 1 }) :=
    Store.agree_modify fun _ => rfl
  have he : Store.Agree Room.ends s.rooms
      (s.rooms.modify a fun rt => { rt with emptyFlag := rt.emptyFlag + 1 }) :=
    Store.agree_modify fun _ => rfl
  refine ⟨h.registry.congr (fun _ _ => rfl) rfl rfl rfl,
    h.roomList.congr (fun r _ => hl r) rfl rfl rfl,
    h.membership.reflag (fun _ _ => rfl) (fun r _ => he r) fun r hr hne => ?_⟩
  by_cases hra : r = a
  · rw [hra, hM]
  · refine h.membership.idle r hr fun h0 => hne ?_
    rw [Store.modify_load, if_neg hra]
    exact h0

/-- The room the sweep has come to, and the link that it follows from there. -/
theorem Inv.currentRoom (h : Inv s L (pre ++ a :: rest) M) :
    ∃ rt, s.rooms.load a = some rt ∧ rt.nextRoom = rest.head? ∧
      rt.numOfMembers = ((M a).length : Int) := by
  have hmem : a ∈ pre ++ a :: rest := by simp
  obtain ⟨rt, hrt⟩ := Option.isSome_iff_exists.mp (h.roomList.alloc a hmem)
  refine ⟨rt, hrt, ?_, ?_⟩
  · rw [← h.roomList.chain.next_eq]
    simp [Server.nextRoomAt, hrt]
  · simpa [hrt] using h.membership.count a hmem

/-- The sweep goes on behind the room it has come to. -/
theorem Inv.passRoom (h : Inv s L (pre ++ a :: rest) M) : Inv s L ((pre ++ [a]) ++ rest) M := by
  rwa [List.append_assoc]

/-- The room the sweep has come to is removed. -/
theorem Inv.dropCurrentRoom (h : Inv s L (pre ++ a :: rest) M) (hM : M a = []) :
    ∃ t, dropRoom s a = .ok t ∧ Inv t L (pre ++ rest) M ∧ RoomDropped s a t := by
  have hnd := h.roomList.nodup
  have hpre : a ∉ pre := fun hm => (List.nodup_append.mp hnd).2.2 a hm a (by simp) rfl
  obtain ⟨t, ht, hl, hd⟩ := dropRoom_ok h.roomList
  have hm := h.membership.dropRoom hnd hM hd
  rw [List.erase_append_right _ hpre, List.erase_cons_head] at hm
  exact ⟨t, ht, ⟨h.registry.membersKept hd.toMembersKept, hl, hm⟩, hd⟩

theorem filter_emptyFlag {u : Server} (ha : a ∉ rest) (hother : ∀ r, r ≠ a →
      (u.rooms.load r).map Room.contents = (s.rooms.load r).map Room.contents) :
    rest.filter (fun r => u.emptyFlagAt r = some 0) =
      rest.filter fun r => s.emptyFlagAt r = some 0 := by
  refine List.filter_congr fun r hr => ?_
  have hflag : u.emptyFlagAt r = s.emptyFlagAt r :=
    Store.map_of_map (hother r fun he => ha (he ▸ hr)) Room.emptyFlag
  rw [hflag]

/-- The sweep over the rest of the room list ends, and removes the rooms that have been empty
since the last sweep. -/
theorem sweepRooms_ok (h : Inv s L (pre ++ rest) M) (hn : rest.length ≤ n) :
    ∃ t, sweepRooms n rest.head? s = .ok t ∧
      Inv t L (pre ++ rest.filter fun r => s.emptyFlagAt r = some 0) M ∧ RoomsSwept s rest t := by
  induction rest generalizing s pre n with
  | nil =>
    refine ⟨s, by cases n <;> rfl, h, .refl, ?_, ?_, fun _ _ => rfl, ?_, fun _ => rfl⟩ <;> simp
  | cons a rest ih =>
    cases n with
    | zero => simp at hn
    | succ n =>
      have hn : rest.length ≤ n := by simpa using hn
      obtain ⟨rt, hrt, hnext, hcount⟩ := h.currentRoom
      have hrest : a ∉ rest :=
        (List.nodup_cons.mp (List.nodup_append.mp h.roomList.nodup).2.1).1
      have hidle := h.membership.idle a (by simp)
      simp only [hrt, Option.map_some, ne_eq, Option.some.injEq] at hidle
      simp only [List.head?_cons, sweepRooms, Store.read_some hrt, bind, Except.bind, hnext]
      by_cases hflag : rt.emptyFlag = 0
      · have hfa : s.emptyFlagAt a = some 0 := by simp [Server.emptyFlagAt, hrt, hflag]
        by_cases hnum : rt.numOfMembers = 0
        · -- empty for the first time
          let u : Server :=
            { s with
              rooms := s.rooms.modify a fun rt => { rt with emptyFlag := rt.emptyFlag + 1 } }
          have hM : M a = [] := by
            rw [hcount] at hnum
            exact List.eq_nil_of_length_eq_zero (by omega)
          have hother : ∀ r, r ≠ a →
              (u.rooms.load r).map Room.contents = (s.rooms.load r).map Room.contents := by
            intro r hr
            simp [u, hr]
          obtain ⟨t, ht, hi, hs⟩ := ih (h.passRoom.flagRoom hM) hn
          refine ⟨t, ?_, ?_, ?_⟩
          · rw [if_pos hnum, if_pos hflag]
            exact ht
          · rw [filter_emptyFlag hrest hother] at hi
            simpa [hfa] using hi
          · have hk : MembersKept s u := ⟨rfl, rfl, rfl, rfl⟩
            refine RoomsSwept.cons hk hs hrest hother (fun hne => (hne hfa).elim)
              (fun _ => ?_) ?_
            · simp [u, hrt, hnum, hflag, Room.contents]
            · simp [u, hfa]
        · obtain ⟨t, ht, hi, hs⟩ := ih h.passRoom hn
          refine ⟨t, ?_, ?_, ?_⟩
          · rw [if_neg hnum]
            exact ht
          · simpa [hfa] using hi
          · refine RoomsSwept.cons .refl hs hrest (fun _ _ => rfl) (fun hne => (hne hfa).elim)
              (fun _ => ?_) ?_
            · simp [hrt, hnum, Room.contents, hflag]
            · simp [hfa]
      · -- empty for the second time
        have hfa : s.emptyFlagAt a ≠ some 0 := by simp [Server.emptyFlagAt, hrt, hflag]
        have hM := hidle hflag
        have hnum : rt.numOfMembers = 0 := by simp [hcount, hM]
        obtain ⟨u, hdrop, hu, hd⟩ := h.dropCurrentRoom hM
        obtain ⟨t, ht, hi, hs⟩ := ih hu hn
        refine ⟨t, ?_, ?_, ?_⟩
        · rw [if_pos hnum, if_neg hflag]
          simp only [hdrop]
          exact ht
        · rw [filter_emptyFlag hrest hd.contents] at hi
          simpa [hfa] using hi
        · refine RoomsSwept.cons hd.toMembersKept hs hrest hd.contents (fun _ => hd.gone)
            (fun he => (hfa he).elim) ?_
          rw [hd.roomListTail, h.roomList.chain.next_eq]
          simp [hfa]

end Sweep
end Csc469.Chat
