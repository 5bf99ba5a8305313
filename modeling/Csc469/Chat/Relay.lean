import Csc469.Chat.ServerSafety

/-! A chat message on its way through the server to the members of a room. -/
namespace Csc469.Chat

open Execution Linked

/-- Which calls of `sendto` fail. The others send the whole datagram. -/
abbrev Failures := Vector Bool maxNumOfMembersPerRoom

def sendtoResults (fails : List Bool) (n : Nat) : List (Option Nat) :=
  fails.map fun failed => if failed then none else some n

/-- The members of a room that the loop gets to. -/
def reached : List Bool → List Nat → List Nat
  | _, [] => []
  | false :: fails, a :: rest => a :: reached fails rest
  | _, a :: _ => [a]

/-- The buffer of `process_chat_msg`, with the name of the sender in place of its id. -/
def withName (name msg : Bytes) : Bytes :=
  let sender : Bytes := name ++ [0]
  sender ++ (msg ++ List.replicate (maxMsgLen - msg.length) 0).drop sender.length

/-- What the members are sent of a message. -/
def forwarded (name msg : Bytes) : Bytes := (withName name msg).take msg.length

namespace Server

def datagramTo (s : Server) (data : Bytes) (a : Nat) : Option Datagram :=
  (s.members.load a).map fun mt => ⟨mt.sinAddr, mt.sinPort, data⟩

/-- The datagrams are one of length `n` for every member in the room, and no others. -/
def SentToRoom (s : Server) (r n : Nat) (ds : List Datagram) : Prop :=
  ∃ members : List Nat, members.Nodup ∧ (∀ a, a ∈ members ↔ s.HasMember a ∧ s.roomAt a = some r) ∧
    ∃ data, data.length = n ∧ ds.map some = members.map (s.datagramTo data)

/-- No call of `sendto` fails, but for the one to the last member of the room. -/
def SendsReachRoom (s : Server) (r : Nat) (fails : Failures) : Prop :=
  ∀ rt, s.rooms.load r = some rt → ∀ i (h : i < maxNumOfMembersPerRoom),
    (i : Int) + 1 < rt.numOfMembers → fails[i] = false

end Server

variable {s t : Server} {L R zs : List Nat} {M : Nat → List Nat} {a r n k : Nat} {p : Option Nat}
  {fails : List Bool} {buf msg name data : Bytes} {mt : Member} {ds : List Datagram}
  {lost : Failures}

theorem reached_initial : reached fails zs <+: zs := by
  induction zs generalizing fails with
  | nil => cases fails <;> exact List.prefix_rfl
  | cons a zs ih =>
    cases fails with
    | nil => exact ⟨zs, rfl⟩
    | cons failed fails =>
      cases failed with
      | false => exact (List.prefix_cons_inj a).mpr ih
      | true => exact ⟨zs, rfl⟩

/-- The loop gets to all members when no call fails, but for the last one. -/
theorem reached_all_iff (hlen : zs.length ≤ fails.length) :
    (reached fails zs).length = zs.length ↔ ∀ i, i + 1 < zs.length → fails[i]? = some false := by
  induction zs generalizing fails with
  | nil => cases fails <;> simp [reached]
  | cons a zs ih =>
    cases fails with
    | nil => simp at hlen
    | cons failed fails =>
      simp only [List.length_cons, Nat.add_le_add_iff_right] at hlen
      cases failed with
      | false =>
        simp only [reached, List.length_cons, Nat.add_right_cancel_iff, Nat.add_lt_add_iff_right]
        rw [ih hlen]
        constructor
        · intro h i hi
          cases i with
          | zero => rfl
          | succ i => exact h i hi
        · intro h i hi
          exact h (i + 1) hi
      | true =>
        simp only [reached, List.length_cons, List.length_nil, Nat.add_lt_add_iff_right]
        constructor
        · intro h i hi
          omega
        · intro h
          by_contra hne
          have := h 0 (by omega)
          simp at this

theorem forwarded_length : (forwarded name msg).length = msg.length := by
  simp only [forwarded, withName, List.length_take, List.length_append, List.length_drop,
    List.length_replicate]
  omega

/-- The loop over the members of a room sends each of them that it gets to the same bytes. -/
theorem relay_ok (buf : Bytes) (fails : List Bool) (hc : Chain (roomLinks.succ s.members) p zs)
    (hall : ∀ a ∈ zs, (s.members.load a).isSome) (hk : zs.length ≤ k)
    (hlen : zs.length ≤ fails.length) :
    ∃ ds, relay s buf k p n (sendtoResults fails n) = .ok ds ∧
      ds.map some = (reached fails zs).map (s.datagramTo (buf.take n)) := by
  induction zs generalizing p k fails with
  | nil =>
    obtain rfl : p = none := hc
    refine ⟨[], ?_, ?_⟩
    · cases k <;> rfl
    · cases fails <;> rfl
  | cons a zs ih =>
    obtain ⟨rfl, hc⟩ := hc
    obtain ⟨mt, hmt⟩ := Option.isSome_iff_exists.mp (hall a (by simp))
    have hd : s.datagramTo (buf.take n) a = some ⟨mt.sinAddr, mt.sinPort, buf.take n⟩ := by
      simp [Server.datagramTo, hmt]
    have hnext : roomLinks.succ s.members a = mt.nextRoomMember := Links.succ_eq hmt
    rw [hnext] at hc
    cases k with
    | zero => simp at hk
    | succ k =>
      cases fails with
      | nil => simp at hlen
      | cons failed fails =>
        cases failed with
        | true =>
          refine ⟨[⟨mt.sinAddr, mt.sinPort, buf.take n⟩], ?_, ?_⟩
          · simp only [sendtoResults, List.map_cons, relay, Store.read_some hmt]
            rfl
          · simp [reached, hd]
        | false =>
          obtain ⟨ds, hds, hmap⟩ := ih fails hc (fun b hb => hall b (by simp [hb]))
            (by simpa using hk) (by simpa using hlen)
          refine ⟨⟨mt.sinAddr, mt.sinPort, buf.take n⟩ :: ds, ?_, ?_⟩
          · simp only [sendtoResults] at hds
            simp only [sendtoResults, List.map_cons, relay, Store.read_some hmt, bind, Except.bind,
              Bool.false_eq_true, if_false, hds]
          · simp [reached, hd, hmap]

/-- A chat message of a member in a room. -/
theorem processChatMsg_ok (h : Inv s L R M) (ha : a ∈ L) (hid : s.idAt a = some (senderId msg))
    (hname : s.nameAt a = some name) (hroom : s.roomAt a = some r) (fails : Failures) :
    ∃ t ds, processChatMsg s (some msg) (sendtoResults fails.toList msg.length) = .ok (t, ds) ∧
      ds.map some = (reached fails.toList (M r)).map (s.datagramTo (forwarded name msg)) := by
  have hr : r ∈ R := h.membership.current a ha r hroom
  obtain ⟨mt, hmt⟩ := Option.isSome_iff_exists.mp (h.registry.alloc a ha)
  obtain ⟨rt, hrt⟩ := Option.isSome_iff_exists.mp (h.roomList.alloc r hr)
  have hf := (findMemberWithId_some_iff h.registry).mpr ⟨ha, hid⟩
  have hcurrent : mt.currentRoom = some r := by simpa [Server.roomAt, hmt] using hroom
  have hmtname : mt.name = name := by simpa [Server.nameAt, hmt] using hname
  let u := fun mt : Member =>
    { mt with
      quietFlag := 0
      numChatMsgs := mt.numChatMsgs + 1
      numBytesRcved := mt.numBytesRcved + msg.length }
  let t : Server := { s with members := s.members.modify a u }
  have ht : Inv t L R M := h.modifyMember u (fun _ => rfl) (fun _ => rfl)
  have hut : t.members.load a = some (u mt) := by simp [t, hmt]
  have hsend : ∀ data, t.datagramTo data = s.datagramTo data := by
    intro data
    funext b
    exact Store.agree_modify (u := u) (fun _ => rfl) b
  have hhead : t.roomHead r = rt.memberListHead := by simp [t, Server.roomHead, hrt]
  have hlist := ht.membership.family.dlist r hr
  rw [hhead] at hlist
  have hused : (M r).length ≤ t.members.used.length :=
    Store.length_le_used hlist.nodup
      fun b hb => ht.registry.alloc b (ht.membership.mem_left hr hb)
  obtain ⟨ds, hds, hmap⟩ := relay_ok (n := msg.length) (withName name msg) fails.toList hlist.forth
    (fun b hb => ht.registry.alloc b (ht.membership.mem_left hr hb)) hused
    (by simpa using h.membership.le r hr)
  rw [hsend] at hmap
  refine ⟨t, ds, ?_, hmap⟩
  have hread : t.members.read (some a) = .ok (u mt) := Store.read_some hut
  have hrtread : t.rooms.read (some r) = .ok rt := Store.read_some hrt
  have hrelay : relay t (withName mt.name msg) t.members.used.length rt.memberListHead msg.length
      (sendtoResults fails.toList msg.length) = .ok ds := by rw [hmtname, hds]
  refine bind_eq_ok.mpr ⟨some a, hf, bind_eq_ok.mpr ⟨t.members,
    Store.write_some (h.registry.alloc a ha), bind_eq_ok.mpr ⟨u mt, hread, ?_⟩⟩⟩
  simp only [u, hcurrent]
  exact bind_eq_ok.mpr ⟨rt, hrtread, bind_eq_ok.mpr ⟨ds, hrelay, rfl⟩⟩

theorem Inv.hasMember_room_iff (h : Inv s L R M) (hr : r ∈ R) :
    a ∈ M r ↔ s.HasMember a ∧ s.roomAt a = some r := by
  rw [h.membership.mem r hr, h.registry.hasMember_iff]

theorem sendsReachRoom_iff (h : Inv s L R M) (hr : r ∈ R) :
    s.SendsReachRoom r lost ↔ ∀ i, i + 1 < (M r).length → lost.toList[i]? = some false := by
  obtain ⟨rt, hrt⟩ := Option.isSome_iff_exists.mp (h.roomList.alloc r hr)
  have hcount : rt.numOfMembers = (M r).length := by
    simpa [hrt] using h.membership.count r hr
  have hle := h.membership.le r hr
  constructor
  · intro hs i hi
    have := hs rt hrt i (by omega) (by omega)
    simpa [List.getElem?_eq_getElem, show i < maxNumOfMembersPerRoom by omega] using this
  · intro hs rt' hrt' i hlt hi
    cases hrt.symm.trans hrt'
    have := hs i (by omega)
    simpa [List.getElem?_eq_getElem, hlt] using this

/-- Every member of the room is sent the message exactly when no call of `sendto` fails, but
for the one to the last of them. -/
theorem Inv.sentToRoom_iff (h : Inv s L R M) (hr : r ∈ R) (hdata : data.length = n)
    (hmap : ds.map some = (reached lost.toList (M r)).map (s.datagramTo data)) :
    s.SentToRoom r n ds ↔ s.SendsReachRoom r lost := by
  have hnd := (h.membership.family.dlist r hr).nodup
  have hlen : ds.length = (reached lost.toList (M r)).length := by
    simpa using congrArg List.length hmap
  rw [sendsReachRoom_iff h hr, ← reached_all_iff (by simpa using h.membership.le r hr)]
  constructor
  · rintro ⟨members, hmembers, hmem, data', -, hmap'⟩
    have hperm : members.Perm (M r) := by
      refine (List.perm_ext_iff_of_nodup hmembers hnd).mpr fun b => ?_
      rw [hmem, h.hasMember_room_iff hr]
    have hlen' : ds.length = members.length := by simpa using congrArg List.length hmap'
    rw [← hlen, hlen', hperm.length_eq]
  · intro hall
    have he : reached lost.toList (M r) = M r := reached_initial.eq_of_length hall
    rw [he] at hmap
    exact ⟨M r, hnd, fun b => h.hasMember_room_iff hr, data, hdata, hmap⟩

theorem inv_of_reaches {c d : Session} (hc : Started c) (hr : Reaches Step c d) :
    ∃ L R M, Inv d.server L R M := by
  obtain ⟨R, M, hs, -⟩ := hc.sound
  obtain ⟨L, R, M, hs⟩ := Reaches.invariant (R := Step) (I := fun c => ∃ L R M, Sound c L R M)
    (fun _ _ _ hs hstep => sound_step hstep hs) ⟨[], R, M, hs⟩ hr
  exact ⟨L, R, M, hs.inv⟩

theorem Inv.nameAt (h : Inv s L R M) (ha : a ∈ L) : ∃ name, s.nameAt a = some name := by
  obtain ⟨mt, hmt⟩ := Option.isSome_iff_exists.mp (h.registry.alloc a ha)
  exact ⟨mt.name, by simp [Server.nameAt, hmt]⟩

/-- A chat message of a member is sent whole to every member of its room, once, and to nobody
else, exactly when no call of `sendto` fails, but for the one to the last of them. -/
theorem relay_complete_iff {c d : Session} (hc : Started c) (hr : Reaches Step c d)
    (ha : d.server.HasMember a) (hid : d.server.idAt a = some (senderId msg))
    (hroom : d.server.roomAt a = some r) :
    ∃ t ds, processChatMsg d.server (some msg) (sendtoResults lost.toList msg.length) =
        .ok (t, ds) ∧
      (d.server.SentToRoom r msg.length ds ↔ d.server.SendsReachRoom r lost) := by
  obtain ⟨L, R, M, h⟩ := inv_of_reaches hc hr
  have ha := h.registry.hasMember_iff.mp ha
  obtain ⟨name, hname⟩ := h.nameAt ha
  obtain ⟨t, ds, hp, hmap⟩ := processChatMsg_ok h ha hid hname hroom lost
  exact ⟨t, ds, hp, h.sentToRoom_iff (h.membership.current a ha r hroom) forwarded_length hmap⟩

section TwoMembers

/-- A chat message of the first of them. -/
def greeting : Bytes :=
  store16 (htons 1) ++ List.replicate 22 0 ++ store16 (htons 29) ++ text "hi" ++ [0]

def noFailure : Failures := Vector.replicate maxNumOfMembersPerRoom false

def firstFails : Failures := noFailure.set 0 true

/-- What tells that a member with this id is in a room. -/
def Server.placed (s : Server) (a : Nat) (id : UInt16) (r : Nat) : Bool :=
  (findMemberWithId s id).toOption = some (some a) ∧ s.roomAt a = some r

theorem Inv.of_placed {id : UInt16} (h : Inv s L R M) (hp : s.placed a id r) :
    s.HasMember a ∧ s.idAt a = some id ∧ s.roomAt a = some r := by
  simp only [Server.placed, decide_eq_true_eq] at hp
  have hf : findMemberWithId s id = .ok (some a) := by
    cases hf : findMemberWithId s id with
    | error e => simp [hf, Except.toOption] at hp
    | ok found =>
      rw [hf] at hp
      exact congrArg _ (Option.some.inj hp.1)
  obtain ⟨ha, hid⟩ := (findMemberWithId_some_iff h.registry).mp hf
  exact ⟨h.registry.hasMember_iff.mpr ha, hid, hp.2⟩

theorem twoMembers_reached : ∃ d, Reaches Step twoRooms d ∧
    (d.server.HasMember 12288 ∧ d.server.idAt 12288 = some 1 ∧
      d.server.roomAt 12288 = some 4096) ∧
    d.server.nameAt 12288 = some (text "ann") ∧
    d.server.HasMember 16384 ∧ d.server.idAt 16384 = some 2 ∧
    d.server.roomAt 16384 = some 4096 := by
  obtain ⟨run, hrun, hh⟩ := ok_of_map (c := rounds twoRooms twoMembers)
    (f := fun run => run.getLast?.map fun x : Event × Session =>
      (x.2.server.placed 12288 1 4096, x.2.server.nameAt 12288, x.2.server.placed 16384 2 4096))
    (b := some (true, some (text "ann"), true)) (by decide +kernel)
  obtain ⟨x, hx, he⟩ := Option.map_eq_some_iff.mp hh
  simp only [Prod.mk.injEq] at he
  obtain ⟨hann, hname, hbob⟩ := he
  have hr := (rounds_along hrun).reaches x (List.mem_of_getLast? hx)
  obtain ⟨L, R, M, h⟩ := inv_of_reaches twoRooms_started hr
  exact ⟨x.2, hr, h.of_placed hann, hname, h.of_placed hbob⟩

theorem relay_complete_iff_twoMembers : ∃ d, Reaches Step twoRooms d ∧
    ∃ t ds, processChatMsg d.server (some greeting)
        (sendtoResults noFailure.toList greeting.length) = .ok (t, ds) ∧
      (d.server.SentToRoom 4096 greeting.length ds ↔
        d.server.SendsReachRoom 4096 noFailure) := by
  obtain ⟨d, hr, ⟨ha, hid, hroom⟩, -⟩ := twoMembers_reached
  exact ⟨d, hr, relay_complete_iff twoRooms_started hr ha (hid.trans (by decide)) hroom⟩

/-- The first call of `sendto` fails: the second member is sent nothing. -/
theorem relay_stops : ∃ d t ds, Started twoRooms ∧ Reaches Step twoRooms d ∧
    d.server.HasMember 12288 ∧ d.server.idAt 12288 = some (senderId greeting) ∧
    d.server.roomAt 12288 = some 4096 ∧
    processChatMsg d.server (some greeting)
      (sendtoResults firstFails.toList greeting.length) = .ok (t, ds) ∧
    ¬d.server.SentToRoom 4096 greeting.length ds := by
  obtain ⟨d, hr, ⟨ha, hid, hroom⟩, -, ha', -, hroom'⟩ := twoMembers_reached
  obtain ⟨L, R, M, h⟩ := inv_of_reaches twoRooms_started hr
  have hL := h.registry.hasMember_iff.mp ha
  have hR := h.membership.current _ hL _ hroom
  obtain ⟨name, hname⟩ := h.nameAt hL
  have hid : d.server.idAt 12288 = some (senderId greeting) := hid.trans (by decide)
  obtain ⟨t, ds, hp, hmap⟩ := processChatMsg_ok h hL hid hname hroom
    firstFails
  refine ⟨d, t, ds, twoRooms_started, hr, ha, hid, hroom, hp, ?_⟩
  rw [h.sentToRoom_iff hR forwarded_length hmap, sendsReachRoom_iff h hR]
  have htwo : 2 ≤ (M 4096).length := by
    have hsub : [12288, 16384] ⊆ M 4096 := by
      intro b hb
      rw [h.hasMember_room_iff hR]
      rcases List.mem_pair.mp hb with rfl | rfl
      · exact ⟨ha, hroom⟩
      · exact ⟨ha', hroom'⟩
    exact (List.subperm_of_subset (by decide) hsub).length_le
  intro hall
  exact absurd (hall 0 (by omega)) (by decide)

end TwoMembers
end Csc469.Chat
