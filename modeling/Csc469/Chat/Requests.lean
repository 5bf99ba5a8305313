import Csc469.Chat.Rooms

/-! What the requests of clients do to the server's lists. -/
namespace Csc469.Chat

open Execution Linked

variable {s t : Server} {L R ys : List Nat} {M : Nat → List Nat} {a r addr : Nat} {env : Env}
  {msg : Bytes} {reply : Option Reply} {id : UInt16} {mt : Member} {name : Bytes}

section Find

theorem Server.idAt_iff : s.idAt a = some id ↔
    ((s.members.load a).any fun mt => mt.memberId = id) = true := by
  cases h : s.members.load a <;> simp [Server.idAt, h]

theorem Server.nameAt_iff : s.nameAt a = some name ↔
    ((s.members.load a).any fun mt => mt.name = name) = true := by
  cases h : s.members.load a <;> simp [Server.nameAt, h]

theorem findMemberWithId_ok (h : Registry s L) (id : UInt16) : findMemberWithId s id =
    .ok (L.find? fun a => (s.members.load a).any fun mt => mt.memberId = id) :=
  find_ok h.list.forth h.alloc (Store.length_le_used h.nodup h.alloc)

theorem findName_ok (h : Registry s L) (name : Bytes) : findName s name =
    .ok (L.find? fun a => (s.members.load a).any fun mt => mt.name = name) :=
  find_ok h.list.forth h.alloc (Store.length_le_used h.nodup h.alloc)

theorem findMemberWithId_none (h : Registry s L) (hf : findMemberWithId s id = .ok none) :
    ∀ a ∈ L, s.idAt a ≠ some id := by
  have hnone := Except.ok.inj ((findMemberWithId_ok h id).symm.trans hf)
  intro a ha he
  exact List.find?_eq_none.mp hnone a ha (Server.idAt_iff.mp he)

/-- The search for an id ends at the one registered member that has it. -/
theorem findMemberWithId_some_iff (h : Registry s L) :
    findMemberWithId s id = .ok (some a) ↔ a ∈ L ∧ s.idAt a = some id := by
  constructor
  · intro hf
    have ha := Except.ok.inj ((findMemberWithId_ok h id).symm.trans hf)
    have hid := List.find?_some ha
    exact ⟨List.mem_of_find?_eq_some ha, Server.idAt_iff.mpr hid⟩
  · rintro ⟨ha, he⟩
    cases hf : L.find? fun a => (s.members.load a).any fun mt => mt.memberId = id with
    | none => exact (List.find?_eq_none.mp hf a ha (Server.idAt_iff.mp he)).elim
    | some b =>
      have hid := List.find?_some hf
      have hb := (Server.idAt_iff.mpr hid).trans he.symm
      rw [findMemberWithId_ok h, hf, h.ids b (List.mem_of_find?_eq_some hf) a ha hb]

theorem findName_some (h : Registry s L) (hf : findName s name = .ok (some a)) :
    a ∈ L ∧ s.nameAt a = some name := by
  have ha := Except.ok.inj ((findName_ok h name).symm.trans hf)
  have hname := List.find?_some ha
  exact ⟨List.mem_of_find?_eq_some ha, Server.nameAt_iff.mpr hname⟩

theorem findName_none (h : Registry s L) (hf : findName s name = .ok none) :
    ∀ a ∈ L, s.nameAt a ≠ some name := by
  have hnone := Except.ok.inj ((findName_ok h name).symm.trans hf)
  intro a ha he
  exact List.find?_eq_none.mp hnone a ha (Server.nameAt_iff.mp he)

end Find

section Register

theorem randId_ne_zero (r : Fin (2147483647 + 1)) : randId r ≠ 0 := by
  intro h
  have := congrArg UInt16.toNat h
  have hr := r.isLt
  rw [randId, UInt16.toNat_ofNat', Nat.mod_eq_of_lt (by omega)] at this
  simp at this

/-- One round of `createId` over the list `ys` and the tail `a`: a node of `ys` with the id
is found, or the tail is reached. -/
theorem createId_round (ha : a ∉ ys) (hl : ∀ b ∈ ys, (s.members.load b).isSome)
    (ht : s.memListTail = some a)
    (h : firstHit (fun x => (s.members.load x).map (x, ·))
      (fun mt => if some mt.1 = s.memListTail then some true
        else if mt.2.memberId = id then some false else none) (ys ++ [a]) = some (r, true)) :
    ∀ b ∈ ys, s.idAt b ≠ some id := by
  intro b hb hid
  obtain ⟨mt, hmt⟩ := Option.isSome_iff_exists.mp (hl b hb)
  have hba : b ≠ a := fun he => ha (he ▸ hb)
  rw [firstHit, List.findSome?_append] at h
  cases hys : ys.findSome? fun x => (((s.members.load x).map (x, ·)).bind fun mt =>
      if some mt.1 = s.memListTail then some true
      else if mt.2.memberId = id then some false else none).map (x, ·) with
  | none =>
    have hno := List.findSome?_eq_none_iff.mp hys b hb
    simp [Server.idAt, hmt] at hid
    simp [hmt, ht, hba, hid] at hno
  | some x =>
    rw [hys] at h
    cases h
    obtain ⟨z, hz, hx⟩ := List.exists_of_findSome?_eq_some hys
    obtain ⟨v, hv⟩ := Option.isSome_iff_exists.mp (hl z hz)
    have hza : z ≠ a := fun he => ha (he ▸ hz)
    simp [hv, ht, hza] at hx

/-- An id that was created is not zero, and no member before the tail has it. -/
theorem createId_fresh {rands : List (Fin (2147483647 + 1))}
    (hc : Chain (memberLinks.succ s.members) s.memListHead (ys ++ [a]))
    (hl : ∀ b ∈ ys ++ [a], (s.members.load b).isSome) (ht : s.memListTail = some a)
    (h : createId s rands = .ok id) : id ≠ 0 ∧ ∀ b ∈ ys, s.idAt b ≠ some id := by
  have hload : Chain (fun a => (s.members.load a).bind Member.nextMember) s.memListHead
    (ys ++ [a]) := hc
  have ha : a ∉ ys := by
    have hnd := hc.nodup
    rw [List.nodup_append] at hnd
    exact fun hm => hnd.2.2 a hm a (by simp) rfl
  induction rands with
  | nil => cases h
  | cons r rands ih =>
    obtain ⟨found, hf, h⟩ := ok_of_bind h
    rw [searchAt_ok hload hl (Store.length_le_used hc.nodup hl)] at hf
    have hhit := Except.ok.inj hf
    cases found with
    | none => cases h
    | some x =>
      obtain ⟨b, c⟩ := x
      cases c with
      | false => exact ih h
      | true =>
        cases h
        exact ⟨randId_ne_zero r, createId_round ha (fun b hb => hl b (by simp [hb])) ht hhit⟩

/-- A record that was allocated and then forgotten. -/
theorem Inv.leakMember {members : Store Member} (h : Inv s L R M)
    (hm : s.members.malloc addr mt = .ok members) : Inv { s with members := members } L R M := by
  have hsame : ∀ a ∈ L, members.load a = s.members.load a := by
    intro a ha
    exact Store.malloc_kept hm (h.registry.alloc a ha)
  refine ⟨h.registry.congr (fun a ha => ?_) rfl rfl rfl,
    h.roomList.congr (fun _ _ => rfl) rfl rfl rfl,
    h.membership.congr (fun a ha => ?_) fun _ _ => rfl⟩ <;> rw [hsame a ha]

/-- A new member is in no room. -/
theorem Membership.insert (h : Membership s L R M) (ha : a ∉ L) (hroom : s.roomAt a = none) :
    Membership s (L ++ [a]) R M := by
  refine ⟨h.family, h.tail, h.count, h.le, fun r hr b => ?_, fun b hb r he => ?_, h.idle⟩
  · rw [h.mem r hr b, List.mem_append, List.mem_singleton]
    constructor
    · rintro ⟨hb, he⟩
      exact ⟨.inl hb, he⟩
    · rintro ⟨hb | rfl, he⟩
      · exact ⟨hb, he⟩
      · rw [hroom] at he
        cases he
  · rcases List.mem_append.mp hb with hb | hb
    · exact h.current b hb r he
    · obtain rfl := List.mem_singleton.mp hb
      rw [hroom] at he
      cases he

/-- `t` is `s` with a new member behind the last one. -/
structure MemberAdded (s : Server) (env : Env) (msg : Bytes) (id : UInt16) (t : Server) :
    Prop where
  free : s.members.Free env.addr
  new : (t.members.load env.addr).map Member.status =
    some { newMember msg env.peer with memberId := id }
  other : ∀ a, a ≠ env.addr →
    (t.members.load a).map Member.status = (s.members.load a).map Member.status
  rooms : t.rooms = s.rooms
  roomListHead : t.roomListHead = s.roomListHead
  roomListTail : t.roomListTail = s.roomListTail
  totalNumOfRooms : t.totalNumOfRooms = s.totalNumOfRooms

/-- What `process_register_request` can do. -/
inductive Registered (s : Server) (L R : List Nat) (M : Nat → List Nat) (env : Env)
    (msg : Bytes) : Server → Option Reply → Prop
  | full (h : s.totalNumOfMembers = maxNumOfMembers) :
    Registered s L R M env msg s
      (some ⟨registerFail, 0, text "Number of members reached maximum!"⟩)
  | noPeer {members : Store Member}
      (hm : s.members.malloc env.addr (newMember msg env.peer) = .ok members)
      (h : env.peer = none) : Registered s L R M env msg { s with members := members } none
  | nameUsed {members : Store Member}
      (hm : s.members.malloc env.addr (newMember msg env.peer) = .ok members)
      (h : ∃ a ∈ L, s.nameAt a = some (newMember msg env.peer).name) :
    Registered s L R M env msg { s with members := members }
      (some ⟨registerFail, 0, text "Name has already been used!"⟩)
  | registered {t : Server} {id : UInt16} (hmax : s.totalNumOfMembers ≠ maxNumOfMembers)
      (hpeer : env.peer ≠ none)
      (hnew : ∀ a ∈ L, s.nameAt a ≠ some (newMember msg env.peer).name)
      (h : MemberAdded s env msg id t) (hinv : Inv t (L ++ [env.addr]) R M) :
    Registered s L R M env msg t (some ⟨registerSucc, id, []⟩)

theorem MemberAdded.idAt (h : MemberAdded s env msg id t) : t.idAt env.addr = some id := by
  have hnew : (some { newMember msg env.peer with memberId := id }).map Member.status =
      (t.members.load env.addr).map Member.status := h.new.symm
  exact (Store.map_of_map hnew Member.memberId).symm

theorem Registry.append {m : Store Member} {head : Option Nat} (h : Registry s L)
    (ha : addr ∉ L)
    (ap : memberLinks.Appended s.members addr s.memListHead s.memListTail m head) :
    DList (memberLinks.succ m) (memberLinks.pred m) head (L ++ [addr]) := by
  have hne : ∀ b ∈ L, b ≠ addr := fun b hb he => ha (he ▸ hb)
  rw [ap.head, h.tail]
  refine h.list.concat ha ap.succ_self (h.tail ▸ ap.pred_self) (fun y hy => ?_) fun y hy => ?_
  · rw [ap.next y (hne y hy), h.tail]
  · exact ap.prev y (hne y hy)

/-- The writes that put the member at `addr` behind the last one, under a new id. -/
theorem Registry.add {m : Store Member} {head : Option Nat} (h : Registry s L) (ha : addr ∉ L)
    (hsome : (s.members.load addr).isSome)
    (ap : memberLinks.Appended s.members addr s.memListHead s.memListTail m head)
    (hmembers : t.members = m.modify addr fun mt => { mt with memberId := id })
    (hhead : t.memListHead = head) (htail : t.memListTail = some addr)
    (hcount : t.totalNumOfMembers = s.totalNumOfMembers + 1)
    (hmax : s.totalNumOfMembers ≠ maxNumOfMembers) (hid : id ≠ 0)
    (hfresh : ∀ b ∈ L, s.idAt b ≠ some id) (hname : ∀ b ∈ L, s.nameAt b ≠ s.nameAt addr) :
    Registry t (L ++ [addr]) := by
  have hne : ∀ b ∈ L, b ≠ addr := fun b hb he => ha (he ▸ hb)
  have hstatus := ap.relinked.agree Member.status (fun _ _ => rfl) (fun _ _ => rfl)
  have hother : ∀ b ∈ L, t.idAt b = s.idAt b := by
    intro b hb
    have hload : t.members.load b = m.load b := by simp [hmembers, hne b hb]
    rw [Server.idAt, hload]
    exact Store.map_of_map (hstatus b) Member.memberId
  have hself : t.idAt addr = some id := by
    have hm : (m.load addr).isSome := by rw [ap.relinked.isSome, hsome]
    obtain ⟨mt, hmt⟩ := Option.isSome_iff_exists.mp hm
    simp [Server.idAt, hmembers, hmt]
  have hnames : ∀ b, t.nameAt b = s.nameAt b := by
    intro b
    have hload : (t.members.load b).map Member.name = (m.load b).map Member.name := by
      have hagree : Store.Agree Member.name m
          (m.modify addr fun mt => { mt with memberId := id }) := Store.agree_modify fun _ => rfl
      rw [hmembers]
      exact hagree b
    rw [Server.nameAt, hload]
    exact Store.map_of_map (hstatus b) Member.name
  have hlinks : Store.Agree (fun mt : Member => (mt.nextMember, mt.prevMember)) m t.members := by
    rw [hmembers]
    exact Store.agree_modify fun _ => rfl
  have d := h.append ha ap
  refine ⟨?_, by rw [htail, List.getLast?_concat], fun b hb => ?_, ?_, ?_, ?_, fun b hb => ?_, ?_⟩
  · rw [hhead]
    exact d.congr (fun b _ => Store.bind_of_map (hlinks b) Prod.fst)
      fun b _ => Store.bind_of_map (hlinks b) Prod.snd
  · rw [Store.isSome_of_map (hlinks b), ap.relinked.isSome]
    rcases List.mem_append.mp hb with hb | hb
    · exact h.alloc b hb
    · obtain rfl := List.mem_singleton.mp hb
      exact hsome
  · rw [hcount, h.count, List.length_append]
    simp
  · have := h.count
    have := h.le
    simp only [List.length_append, List.length_singleton]
    omega
  · intro b hb c hc he
    rcases List.mem_append.mp hb with hbL | hbL <;> rcases List.mem_append.mp hc with hcL | hcL
    · rw [hother b hbL, hother c hcL] at he
      exact h.ids b hbL c hcL he
    · rw [List.mem_singleton.mp hcL, hother b hbL, hself] at he
      exact (hfresh b hbL he).elim
    · rw [List.mem_singleton.mp hbL, hother c hcL, hself] at he
      exact (hfresh c hcL he.symm).elim
    · rw [List.mem_singleton.mp hbL, List.mem_singleton.mp hcL]
  · rcases List.mem_append.mp hb with hb | hb
    · rw [hother b hb]
      exact h.id_pos b hb
    · obtain rfl := List.mem_singleton.mp hb
      rw [hself]
      simpa using hid
  · intro b hb c hc he
    rw [hnames b, hnames c] at he
    rcases List.mem_append.mp hb with hbL | hbL <;> rcases List.mem_append.mp hc with hcL | hcL
    · exact h.names b hbL c hcL he
    · rw [List.mem_singleton.mp hcL] at he
      exact (hname b hbL he).elim
    · rw [List.mem_singleton.mp hbL] at he
      exact (hname c hcL he.symm).elim
    · rw [List.mem_singleton.mp hbL, List.mem_singleton.mp hcL]

/-- The record of a new member is none of those in the list, which are as they were. -/
theorem Inv.newRecord {members : Store Member} (h : Inv s L R M)
    (hm : s.members.malloc env.addr (newMember msg env.peer) = .ok members) :
    members.load env.addr = some (newMember msg env.peer) ∧ env.addr ∉ L ∧
      ∀ b, b ≠ env.addr → members.load b = s.members.load b := by
  obtain ⟨hfree, -, hload⟩ := Store.malloc_ok hm
  refine ⟨by simp [hload], fun ha => ?_, fun b hb => ?_⟩
  · have := h.registry.alloc _ ha
    simp [hfree.1] at this
  · rw [hload b, if_neg hb]

/-- The record is linked in behind the last member, under a new id. -/
theorem Inv.addMember {members m : Store Member} {head : Option Nat} (h : Inv s L R M)
    (hm : s.members.malloc env.addr (newMember msg env.peer) = .ok members)
    (ap : memberLinks.Appended members env.addr s.memListHead s.memListTail m head)
    (hmax : s.totalNumOfMembers ≠ maxNumOfMembers) (hid : id ≠ 0)
    (hfresh : ∀ b ∈ L, (m.load b).map Member.memberId ≠ some id)
    (hnew : ∀ b ∈ L, s.nameAt b ≠ some (newMember msg env.peer).name)
    (ht : t = { s with
      members := m.modify env.addr fun mt => { mt with memberId := id }
      memListHead := head
      memListTail := some env.addr
      totalNumOfMembers := s.totalNumOfMembers + 1 }) :
    MemberAdded s env msg id t ∧ Inv t (L ++ [env.addr]) R M := by
  have hinv := h.leakMember hm
  have hfree := (Store.malloc_ok hm).1
  obtain ⟨hself, hout, hother⟩ := h.newRecord hm
  have hstatus := ap.relinked.agree Member.status (fun _ _ => rfl) (fun _ _ => rfl)
  have hne : ∀ b ∈ L, b ≠ env.addr := fun b hb he => hout (he ▸ hb)
  subst ht
  refine ⟨⟨hfree, ?_, fun b hb => ?_, rfl, rfl, rfl, rfl⟩, ⟨?_, ?_, ?_⟩⟩
  · have hnewStatus := Store.map_of_map (hstatus env.addr) fun mt => { mt with memberId := id }
    rw [hself] at hnewStatus
    simp only [Store.modify_load, if_true, Option.map_map]
    exact hnewStatus
  · simp only [Store.modify_load, if_neg hb]
    rw [hstatus b, hother b hb]
  · refine hinv.registry.add hout (by simp [hself]) ap rfl rfl rfl rfl hmax hid ?_ ?_
    · intro b hb he
      refine hfresh b hb ?_
      rw [← he]
      exact Store.map_of_map (hstatus b) Member.memberId
    · intro b hb he
      have hsame : (members.load b).map Member.name = s.nameAt b := by
        rw [hother b (hne b hb)]
        rfl
      refine hnew b hb (hsame.symm.trans (he.trans ?_))
      simp [Server.nameAt, hself]
  · exact h.roomList.congr (fun _ _ => rfl) rfl rfl rfl
  · refine Membership.insert (hinv.membership.congr (fun b hb => ?_) fun _ _ => rfl) hout ?_
    · simp only [Store.modify_load, if_neg (hne b hb)]
      exact ap.relinked.agree Member.place (fun _ _ => rfl) (fun _ _ => rfl) b
    · have hroom := Store.bind_of_map (hstatus env.addr) Member.currentRoom
      rw [hself] at hroom
      have hsome : (m.load env.addr).isSome := by
        rw [ap.relinked.isSome]
        simp [hself]
      obtain ⟨mt, hmt⟩ := Option.isSome_iff_exists.mp hsome
      simp only [hmt, Option.bind_some] at hroom
      simp only [Server.roomAt, Store.modify_load, if_true, hmt, Option.map_some,
        Option.bind_some]
      exact hroom

theorem processRegisterRequest_registered (h : Inv s L R M)
    (hp : processRegisterRequest s env msg = .ok (t, reply)) :
    Registered s L R M env msg t reply := by
  unfold processRegisterRequest at hp
  split at hp
  · next hmax =>
    cases hp
    exact .full hmax
  next hmax =>
  obtain ⟨members, hm, hp⟩ := ok_of_bind hp
  have hinv := h.leakMember hm
  obtain ⟨hself, hout, hother⟩ := h.newRecord hm
  have hname : ∀ b ∈ L, (members.load b).map Member.name = s.nameAt b := by
    intro b hb
    rw [hother b fun he => hout (he ▸ hb)]
    rfl
  simp only at hp
  split at hp
  · next hpeer =>
    cases hp
    exact .noPeer hm hpeer
  next hpeer =>
  obtain ⟨found, hfind, hp⟩ := ok_of_bind hp
  cases found with
  | some a =>
    cases hp
    obtain ⟨ha, he⟩ := findName_some hinv.registry hfind
    exact .nameUsed hm ⟨a, ha, (hname a ha).symm.trans he⟩
  | none =>
    have hnew : ∀ a ∈ L, s.nameAt a ≠ some (newMember msg env.peer).name := by
      intro a ha he
      exact findName_none hinv.registry hfind a ha ((hname a ha).trans he)
    obtain ⟨m, head, hap, ap⟩ := Links.append_ok hinv.registry.list hinv.registry.tail hout
      hinv.registry.alloc hself rfl rfl
    simp only [hap] at hp
    obtain ⟨⟨m', head', tail'⟩, happend, hp⟩ := ok_of_bind hp
    cases happend
    obtain ⟨id, hid, hp⟩ := ok_of_bind hp
    obtain ⟨m'', hw, hp⟩ := ok_of_bind hp
    have hsome : (m.load env.addr).isSome := by
      rw [ap.relinked.isSome]
      simp [hself]
    rw [Store.write_some hsome] at hw
    cases hw
    cases hp
    have halloc : ∀ b ∈ L ++ [env.addr], (m.load b).isSome := by
      intro b hb
      rw [ap.relinked.isSome]
      rcases List.mem_append.mp hb with hb | hb
      · exact hinv.registry.alloc b hb
      · simp [List.mem_singleton.mp hb, hself]
    obtain ⟨hid0, hfresh⟩ := createId_fresh (hinv.registry.append hout ap).forth halloc rfl hid
    obtain ⟨hadd, hinv'⟩ := h.addMember hm ap hmax hid0 hfresh hnew rfl
    exact .registered hmax hpeer hnew hadd hinv'

end Register

section Switch

/-- What `process_switch_room_request` can do for the member at `a`, whose id is `id`. -/
inductive Switched (s : Server) (L R : List Nat) (M : Nat → List Nat) (a : Nat) (id : UInt16)
    (name : Bytes) : Server → Option Reply → Prop
  | noRoom (h : R = []) :
    Switched s L R M a id name s (some ⟨switchRoomFail, id, text "No room available yet!"⟩)
  | notFound (hfind : findRoom s name = .ok none) :
    Switched s L R M a id name s (some ⟨switchRoomFail, id, text "Room not found!"⟩)
  | full {r : Nat} (hfind : findRoom s name = .ok (some r))
      (h : (M r).length = maxNumOfMembersPerRoom) :
    Switched s L R M a id name s (some ⟨switchRoomFail, id, text "Room is full!"⟩)
  | already {r : Nat} (hfind : findRoom s name = .ok (some r)) (h : s.roomAt a = some r) :
    Switched s L R M a id name s (some ⟨switchRoomFail, id, text "Already in this room!"⟩)
  | switched {r : Nat} {t : Server} {M' : Nat → List Nat}
      (hfind : findRoom s name = .ok (some r)) (hfull : (M r).length ≠ maxNumOfMembersPerRoom)
      (hne : s.roomAt a ≠ some r) (honly : RoomsOnly s t) (hroom : t.roomAt a = some r)
      (hinv : Inv t L R M') :
    Switched s L R M a id name t (some ⟨switchRoomSucc, id, []⟩)

theorem processSwitchRoomRequest_ok (h : Inv s L R M) (ha : a ∈ L) (hid : s.idAt a = some id) :
    ∃ t reply, processSwitchRoomRequest s a msg = .ok (t, reply) ∧
      Switched s L R M a id (cstr (msgdata msg)) t reply := by
  obtain ⟨mt, hmt⟩ := Option.isSome_iff_exists.mp (h.registry.alloc a ha)
  obtain rfl : mt.memberId = id := by simpa [Server.idAt, hmt] using hid
  have hroomAt : s.roomAt a = mt.currentRoom := by simp [Server.roomAt, hmt]
  simp only [processSwitchRoomRequest, Store.read_some hmt, bind, Except.bind]
  cases hhead : s.roomListHead with
  | none =>
    have hnil := h.roomList.chain.head_eq
    rw [hhead] at hnil
    exact ⟨_, _, rfl, .noRoom (List.head?_eq_none_iff.mp hnil.symm)⟩
  | some x =>
    cases hfind : R.find? fun r => (s.rooms.load r).any fun rt => rt.name = cstr (msgdata msg) with
    | none =>
      have hf := findRoom_ok h.roomList (cstr (msgdata msg))
      rw [hfind] at hf
      simp only [hf]
      exact ⟨_, _, rfl, .notFound hf⟩
    | some r =>
      have hf := findRoom_ok h.roomList (cstr (msgdata msg))
      rw [hfind] at hf
      have hr := (findRoom_some h.roomList hf).1
      obtain ⟨rt, hrt⟩ := Option.isSome_iff_exists.mp (h.roomList.alloc r hr)
      have hcount : rt.numOfMembers = ((M r).length : Int) := by
        simpa [hrt] using h.membership.count r hr
      simp only [hf, Store.read_some hrt, hcount]
      by_cases hfull : (M r).length = maxNumOfMembersPerRoom
      · refine ⟨_, _, ?_, .full hf hfull⟩
        rw [if_pos (by rw [hfull])]
      · rw [if_neg (by omega)]
        by_cases hcur : mt.currentRoom = some r
        · refine ⟨_, _, ?_, .already hf (hroomAt.trans hcur)⟩
          rw [if_pos hcur]
        · rw [if_neg hcur, ← hroomAt] at *
          obtain ⟨u, M₁, hu, honly, -, -, -, hm, hM⟩ := leaveRoom_ok h ha hmt
          have hle := h.membership.le r hr
          have hlt : (M₁ r).length < maxNumOfMembersPerRoom := by
            rw [hM r hcur]
            omega
          have hreg := h.registry.roomsOnly honly
          have hlist := h.roomList.roomsOnly honly
          obtain ⟨t, ht, honly', hroom, hm'⟩ := joinRoom_ok hreg hlist hm ha hr hlt
          refine ⟨t, _, ?_, .switched hf hfull hcur (honly.trans honly') hroom
            ⟨hreg.roomsOnly honly', hlist.roomsOnly honly', hm'⟩⟩
          simp only [hu, ht]

end Switch
end Csc469.Chat
