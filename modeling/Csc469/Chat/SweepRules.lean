import Csc469.Chat.Relay

/-! Who is removed by a sweep: what two sweeps find, and what happens between them. -/
namespace Csc469.Chat

open Execution Linked

namespace Event

/-- The message carries this id, as a request that needs an id or as a chat message. -/
def Carries (id : UInt16) : Event → Prop
  | control _ (some msg) _ => NeedsId msg ∧ memberId msg = id
  | chat (some msg) _ => senderId msg = id
  | _ => False

end Event

namespace Server

/-- The room has no members. -/
def Vacant (s : Server) (r : Nat) : Prop := ∀ a, s.HasMember a → s.roomAt a ≠ some r

/-- A member that was not in the room comes into it. -/
def Enters (r : Nat) (s t : Server) : Prop :=
  ∃ a, (t.HasMember a ∧ t.roomAt a = some r) ∧ ¬(s.HasMember a ∧ s.roomAt a = some r)

end Server

/-- The flags that the sweep reads, in a step that touches no member. -/
structure FlagsKept (s t : Server) (L L' R R' : List Nat) : Prop where
  ids : ∀ a ∈ L', a ∈ L → t.idAt a = s.idAt a
  quiet : ∀ a ∈ L', a ∈ L → t.quietAt a = s.quietAt a
  newMember : ∀ a ∈ L', a ∉ L → t.quietAt a = some 0
  rooms : ∀ r ∈ R, r ∈ R'
  empty : ∀ r ∈ R, t.emptyFlagAt r = s.emptyFlagAt r ∨ Server.Enters r s t
  newRoom : ∀ r ∈ R', r ∉ R → t.emptyFlagAt r = some 0

/-- The flags that the sweep reads, in a step in which these ids are heard of. -/
structure FlagsSet (heard : UInt16 → Prop) (s t : Server) (L L' R R' : List Nat) : Prop where
  heardOf : ∀ a ∈ L', ∀ id, t.idAt a = some id → heard id → t.quietAt a = some 0
  quiet : ∀ a ∈ L', ∀ id, t.idAt a = some id → ¬heard id →
    t.quietAt a = some 0 ∧ a ∉ L ∨ t.quietAt a = s.quietAt a ∧ s.idAt a = some id ∧ a ∈ L
  stays : ∀ a ∈ L, ∀ id, s.idAt a = some id → ¬heard id → t.idAt a = some id ∧ a ∈ L'
  rooms : ∀ r ∈ R, r ∈ R'
  empty : ∀ r ∈ R, t.emptyFlagAt r = s.emptyFlagAt r ∨ Server.Enters r s t
  newRoom : ∀ r ∈ R', r ∉ R → t.emptyFlagAt r = some 0

variable {s t u : Server} {L L' R R' : List Nat} {M M' : Nat → List Nat} {a r j : Nat} {env : Env}
  {msg name : Bytes} {recv : Option Bytes} {reply : Option Reply} {id : UInt16} {mt : Member}
  {heard : UInt16 → Prop}

theorem FlagsKept.refl : FlagsKept s s L L R R :=
  ⟨fun _ _ _ => rfl, fun _ _ _ => rfl, fun _ h hn => (hn h).elim, fun _ h => h,
    fun _ _ => .inl rfl, fun _ h hn => (hn h).elim⟩

/-- A step in which nobody is heard of. -/
theorem FlagsKept.unheard (h : FlagsKept s t L L' R R') (hL : ∀ a ∈ L, a ∈ L')
    (hno : ∀ a ∈ L', ∀ id, t.idAt a = some id → ¬heard id) : FlagsSet heard s t L L' R R' where
  heardOf a ha id hid hh := (hno a ha id hid hh).elim
  quiet a ha id hid _ := by
    by_cases hmem : a ∈ L
    · exact .inr ⟨h.quiet a ha hmem, by rwa [← h.ids a ha hmem], hmem⟩
    · exact .inl ⟨h.newMember a ha hmem, hmem⟩
  stays a ha id hid _ := ⟨by rwa [h.ids a (hL a ha) ha], hL a ha⟩
  rooms := h.rooms
  empty := h.empty
  newRoom := h.newRoom

theorem enters_touch (h : Inv s L R M) : Server.Enters r (s.touch a) t ↔ Server.Enters r s t := by
  have hmem : ∀ b, (s.touch a).HasMember b ↔ s.HasMember b := fun b => by
    rw [h.registry.hasMember_iff, h.touch.registry.hasMember_iff]
  simp only [Server.Enters, roomAt_touch, hmem]

/-- A step in which the member at `a` is heard of. -/
theorem FlagsKept.heardOf (h : Inv s L R M) (ha : a ∈ L) (hid : s.idAt a = some id)
    (hk : FlagsKept (s.touch a) t L L' R R') (hL : ∀ b ∈ L, b ≠ a → b ∈ L')
    (hheard : ∀ x, heard x ↔ x = id) (hnew : ∀ b ∈ L', b ∈ L) : FlagsSet heard s t L L' R R' := by
  have hids : ∀ b ∈ L', t.idAt b = s.idAt b := fun b hb =>
    (hk.ids b hb (hnew b hb)).trans (idAt_touch b)
  have huniq : ∀ b ∈ L, s.idAt b = some id → b = a := fun b hb he =>
    h.registry.ids b hb a ha (he.trans hid.symm)
  have hquiet : ∀ b ∈ L', b ≠ a → t.quietAt b = s.quietAt b := by
    intro b hb hne
    rw [hk.quiet b hb (hnew b hb)]
    simp [Server.quietAt, Server.touch, hne]
  refine ⟨fun b hb x hx hh => ?_, fun b hb x hx hn => ?_, fun b hb x hx hn => ?_, hk.rooms,
    fun r hr => ?_, hk.newRoom⟩
  · rw [(hheard x).mp hh, hids b hb] at hx
    obtain rfl := huniq b (hnew b hb) hx
    rw [hk.quiet b hb ha]
    obtain ⟨mt, hmt⟩ := Option.isSome_iff_exists.mp (h.registry.alloc b ha)
    simp [Server.quietAt, Server.touch, hmt]
  · have hne : b ≠ a := by
      rintro rfl
      rw [hids b hb, hid] at hx
      exact hn ((hheard x).mpr (Option.some.inj hx).symm)
    exact .inr ⟨hquiet b hb hne, by rwa [← hids b hb], hnew b hb⟩
  · have hne : b ≠ a := by
      rintro rfl
      rw [hid] at hx
      exact hn ((hheard x).mpr (Option.some.inj hx).symm)
    have hb' := hL b hb hne
    exact ⟨by rwa [hids b hb'], hb'⟩
  · rw [← enters_touch (a := a) h]
    exact hk.empty r hr

theorem Created.flagsKept {addr ret : Nat} (h : Inv s L R M) (hc : Created s R name addr t ret) :
    ∃ R' M', Inv t L R' M' ∧ FlagsKept s t L L R R' := by
  have hleak : ∀ {rooms : Store Room}, s.rooms.malloc addr (newRoom name) = .ok rooms →
      FlagsKept s { s with rooms := rooms } L L R R := by
    intro rooms hm
    refine ⟨fun _ _ _ => rfl, fun _ _ _ => rfl, fun _ h hn => (hn h).elim, fun _ h => h,
      fun r hr => .inl ?_, fun _ h hn => (hn h).elim⟩
    rw [Server.emptyFlagAt, Store.malloc_kept hm (h.roomList.alloc r hr)]
    rfl
  cases hc with
  | tooLong => exact ⟨R, M, h, .refl⟩
  | tooMany hm => exact ⟨R, M, h.leakRoom hm, hleak hm⟩
  | «exists» hm => exact ⟨R, M, h.leakRoom hm, hleak hm⟩
  | created _ hmax _ ha =>
    have hmembers : t.members = s.members := ha.members
    have hflag : ∀ r ∈ R, t.emptyFlagAt r = s.emptyFlagAt r := fun r hr =>
      Store.map_of_map (ha.occupancy h.roomList r hr) Prod.snd
    refine ⟨_, _, ha.inv h hmax, ⟨fun a _ _ => ?_, fun a _ _ => ?_, fun _ h hn => (hn h).elim,
      fun r hr => List.mem_append_left _ hr, fun r hr => .inl (hflag r hr), fun r hr hn => ?_⟩⟩
    · rw [Server.idAt, hmembers]
      rfl
    · rw [Server.quietAt, hmembers]
      rfl
    · obtain rfl : r = addr := by simpa [hn] using hr
      simp [Server.emptyFlagAt, ha.new, newRoom]

theorem Registered.flagsKept (h : Inv s L R M) (hr : Registered s L R M env msg t reply) :
    ∃ L', Inv t L' R M ∧ FlagsKept s t L L' R R ∧ ∀ a ∈ L, a ∈ L' := by
  have hleak : ∀ {members : Store Member},
      s.members.malloc env.addr (newMember msg env.peer) = .ok members →
        FlagsKept s { s with members := members } L L R R := by
    intro members hm
    refine ⟨fun a ha _ => ?_, fun a ha _ => ?_, fun _ h hn => (hn h).elim, fun _ h => h,
      fun _ _ => .inl rfl, fun _ h hn => (hn h).elim⟩
    · rw [Server.idAt, Store.malloc_kept hm (h.registry.alloc a ha)]
      rfl
    · rw [Server.quietAt, Store.malloc_kept hm (h.registry.alloc a ha)]
      rfl
  cases hr with
  | full => exact ⟨L, h, .refl, fun _ ha => ha⟩
  | noPeer hm => exact ⟨L, h.leakMember hm, hleak hm, fun _ ha => ha⟩
  | nameUsed hm => exact ⟨L, h.leakMember hm, hleak hm, fun _ ha => ha⟩
  | registered _ _ _ ha hinv =>
    have hne : ∀ a ∈ L, a ≠ env.addr := by
      rintro a haL rfl
      have := h.registry.alloc _ haL
      simp [ha.free.1] at this
    refine ⟨_, hinv, ⟨fun a _ haL => ?_, fun a _ haL => ?_, fun a haL hn => ?_, fun _ h => h,
      fun r _ => .inl ?_, fun _ h hn => (hn h).elim⟩, fun a ha => List.mem_append_left _ ha⟩
    · exact Store.map_of_map (ha.other a (hne a haL)) Member.memberId
    · exact Store.map_of_map (ha.other a (hne a haL)) Member.quietFlag
    · obtain rfl : a = env.addr := by simpa [hn] using haL
      have hnew := congrArg (Option.map Member.quietFlag) ha.new
      simpa [Server.quietAt, Member.status, newMember, Function.comp_def] using hnew
    · rw [Server.emptyFlagAt, ha.rooms]
      rfl

theorem leaveRoom_flags (h : leaveRoom s mt = .ok u) :
    Store.Agree Room.emptyFlag s.rooms u.rooms := by
  unfold leaveRoom at h
  split at h
  · cases h
    exact .refl
  · obtain ⟨rt, -, h⟩ := ok_of_bind h
    obtain ⟨⟨members, head, tail⟩, -, h⟩ := ok_of_bind h
    cases h
    exact Store.agree_modify fun _ => rfl

theorem joinRoom_flags (h : joinRoom s a r = .ok u) (hj : j ≠ r) :
    u.emptyFlagAt j = s.emptyFlagAt j := by
  obtain ⟨members, -, h⟩ := ok_of_bind h
  obtain ⟨rt, -, h⟩ := ok_of_bind h
  obtain ⟨⟨members', head, tail⟩, -, h⟩ := ok_of_bind h
  cases h
  simp [Server.emptyFlagAt, hj]

/-- A switch changes the flag of the room that it leads to, and no other. -/
theorem processSwitchRoomRequest_flags (hp : processSwitchRoomRequest s a msg = .ok (t, reply))
    (hfind : findRoom s (cstr (msgdata msg)) = .ok (some r)) (hj : j ≠ r) :
    t.emptyFlagAt j = s.emptyFlagAt j := by
  obtain ⟨mt, -, hp⟩ := ok_of_bind hp
  split at hp
  · cases hp
    rfl
  · simp only [hfind, bind, Except.bind] at hp
    obtain ⟨rt, -, hp⟩ := ok_of_bind hp
    split at hp
    · cases hp
      rfl
    · split at hp
      · cases hp
        rfl
      · obtain ⟨u, hu, hp⟩ := ok_of_bind hp
        obtain ⟨v, hv, hp⟩ := ok_of_bind hp
        cases hp
        exact (joinRoom_flags hv hj).trans (leaveRoom_flags hu j)

theorem Switched.flagsKept (h : Inv s L R M) (ha : a ∈ L)
    (hw : Switched s L R M a id (cstr (msgdata msg)) t reply)
    (hp : processSwitchRoomRequest s a msg = .ok (t, reply)) :
    ∃ M', Inv t L R M' ∧ FlagsKept s t L L R R := by
  cases hw with
  | @switched r _ M' hfind _ hne honly hroom hinv =>
    refine ⟨M', hinv, ⟨fun b _ _ => ?_, fun b _ _ => ?_, fun _ h hn => (hn h).elim, fun _ h => h,
      fun j _ => ?_, fun _ h hn => (hn h).elim⟩⟩
    · exact Store.map_of_map (honly.members b) Member.memberId
    · exact Store.map_of_map (honly.members b) Member.quietFlag
    · by_cases hj : j = r
      · subst hj
        exact .inr ⟨a, ⟨hinv.registry.hasMember_iff.mpr ha, hroom⟩, fun hin => hne hin.2⟩
      · exact .inl (processSwitchRoomRequest_flags hp hfind hj)
  | _ => exact ⟨M, h, .refl⟩

theorem Dropped.flagsKept (hL : L.Nodup) (hd : Dropped s a t) :
    FlagsKept s t L (L.erase a) R R := by
  have hne : ∀ b ∈ L.erase a, b ≠ a := fun b hb => (hL.mem_erase_iff.mp hb).1
  refine ⟨fun b hb _ => ?_, fun b hb _ => ?_, fun b hb hn => (hn (List.mem_of_mem_erase hb)).elim,
    fun _ h => h, fun r _ => .inl (hd.emptyFlag r), fun _ h hn => (hn h).elim⟩
  · exact Store.map_of_map (hd.members b (hne b hb)) Member.memberId
  · exact Store.map_of_map (hd.members b (hne b hb)) Member.quietFlag

/-- A control message sets the flag of the member whose id it carries. -/
theorem Served.flagsSet (h : Inv s L R M) (hs : Served s L R M env recv t reply) :
    ∃ L' R' M', Inv t L' R' M' ∧
      FlagsSet (fun id => Event.Carries id (.control env recv reply)) s t L L' R R' := by
  cases hs with
  | unread => exact ⟨L, R, M, h, FlagsKept.refl.unheard (fun _ ha => ha) fun _ _ _ _ hc => hc⟩
  | unknownId _ hno =>
    refine ⟨L, R, M, h, FlagsKept.refl.unheard (fun _ ha => ha) fun a ha id hid hc => ?_⟩
    obtain ⟨-, rfl⟩ := hc
    exact hno a ha hid
  | answered htype ha hid =>
    exact ⟨L, R, M, h.touch, FlagsKept.refl.heardOf h ha hid (fun _ hb _ => hb)
      (fun x => by simp [Event.Carries, htype, eq_comm]) fun _ hb => hb⟩
  | switched htype ha hid hw hp =>
    have hneeds : NeedsId _ := needsId_of_type htype (by decide)
    obtain ⟨M', hinv, hk⟩ := hw.flagsKept h.touch ha hp
    exact ⟨L, R, M', hinv, hk.heardOf h ha hid (fun _ hb _ => hb)
      (fun x => by simp [Event.Carries, hneeds, eq_comm]) fun _ hb => hb⟩
  | created htype ha hid hc =>
    have hneeds : NeedsId _ := needsId_of_type htype (by decide)
    obtain ⟨R', M', hinv, hk⟩ := hc.flagsKept h.touch
    exact ⟨L, R', M', hinv, hk.heardOf h ha hid (fun _ hb _ => hb)
      (fun x => by simp [Event.Carries, hneeds, eq_comm]) fun _ hb => hb⟩
  | left htype ha hid hd hinv =>
    have hneeds : NeedsId _ := needsId_of_type htype (by decide)
    exact ⟨_, R, _, hinv, (hd.flagsKept h.registry.nodup).heardOf h ha hid
      (fun b hb hne => (List.mem_erase_of_ne hne).mpr hb)
      (fun x => by simp [Event.Carries, hneeds, eq_comm]) fun b hb => List.mem_of_mem_erase hb⟩
  | registered htype hr =>
    obtain ⟨L', hinv, hk, hL⟩ := hr.flagsKept h
    refine ⟨L', R, M, hinv, hk.unheard hL fun _ _ _ _ hc => ?_⟩
    have hno : ¬NeedsId _ := not_needsId_of_type htype (by decide)
    exact hno hc.1
  | ignored htype =>
    exact ⟨L, R, M, h, FlagsKept.refl.unheard (fun _ ha => ha) fun _ _ _ _ hc => htype hc.1⟩

/-- A chat message sets the flag of its sender. -/
theorem processChatMsg_flagsSet {sent : List (Option Nat)} {ds : List Datagram} (h : Inv s L R M)
    (hp : processChatMsg s recv sent = .ok (t, ds)) :
    Inv t L R M ∧ FlagsSet (fun id => Event.Carries id (.chat recv sent)) s t L L R R := by
  refine ⟨(processChatMsg_handled h hp).1, ?_⟩
  cases recv with
  | none =>
    cases hp
    exact FlagsKept.refl.unheard (fun _ ha => ha) fun _ _ _ _ hc => hc
  | some msg =>
    rcases processChatMsg_heard h.registry hp with ⟨rfl, hno⟩ | ⟨a, ha, hid, rfl⟩
    · refine FlagsKept.refl.unheard (fun _ ha => ha) fun a ha id hid hc => ?_
      exact hno a ha (hid.trans (congrArg some hc.symm))
    · have hk : FlagsKept (s.touch a) (s.heard a msg.length) L L R R := by
        refine ⟨fun b _ _ => ?_, fun b _ _ => ?_, fun _ h hn => (hn h).elim, fun _ h => h,
          fun _ _ => .inl rfl, fun _ h hn => (hn h).elim⟩
        · rw [idAt_touch]
          simp only [Server.idAt, Server.heard, Store.modify_load]
          split <;> simp [Function.comp_def]
        · simp only [Server.quietAt, Server.heard, Server.touch, Store.modify_load]
          split <;> simp [Function.comp_def]
      exact hk.heardOf h ha hid (fun _ hb _ => hb) (fun x => eq_comm) fun _ hb => hb

section Between
variable {c d : Session} {e : Event} {run : List (Event × Session)}

/-- The member with this id was there after the last sweep, and no message since has carried
its id. -/
def IdleSince (id : UInt16) : Session → List (Event × Session) → Prop :=
  Since (fun _ e d => e = .sweep ∧ d.server.HasId id) fun _ e _ => e ≠ .sweep ∧ ¬e.Carries id

/-- The room was there without members after the last sweep, and no member has come since. -/
def VacantSince (r : Nat) : Session → List (Event × Session) → Prop :=
  Since (fun _ e d => e = .sweep ∧ d.server.HasRoom r ∧ d.server.Vacant r)
    fun c e d => e ≠ .sweep ∧ ¬Server.Enters r c.server d.server

/-- The flags say what the sweep is to know of the time since the last one. -/
structure Flagged (c : Session) (run : List (Event × Session)) (s : Server) (L R : List Nat) :
    Prop where
  member : ∀ a ∈ L, ∀ id, s.idAt a = some id → (s.quietAt a ≠ some 0 ↔ IdleSince id c run)
  idle : ∀ id, IdleSince id c run → ∃ a ∈ L, s.idAt a = some id
  room : ∀ r ∈ R, s.emptyFlagAt r ≠ some 0 ↔ VacantSince r c run
  vacant : ∀ r, VacantSince r c run → r ∈ R

/-- What one round of `main` does to the flags. -/
inductive RoundFlags (s t : Server) (L R : List Nat) (e : Event) (L' R' : List Nat) : Prop
  | message (he : e ≠ .sweep) (h : FlagsSet (fun id => e.Carries id) s t L L' R R')
  | sweep {u : Server} (he : e = .sweep) (hs : Swept s L u) (hr : RoomsSwept u R t)
      (hL : L' = L.filter fun a => s.quietAt a = some 0)
      (hR : R' = R.filter fun r => s.emptyFlagAt r = some 0)

theorem step_round (hs : Step c e d) (h : Inv c.server L R M) : ∃ L' R' M',
    Inv d.server L' R' M' ∧ RoundFlags c.server d.server L R e L' R' := by
  cases hs with
  | control hp =>
    obtain ⟨L', R', M', hinv, hf⟩ := (processControlMsg_served h hp).flagsSet h
    exact ⟨L', R', M', hinv, .message (by simp) hf⟩
  | chat hp =>
    obtain ⟨hinv, hf⟩ := processChatMsg_flagsSet h hp
    exact ⟨L, R, M, hinv, .message (by simp) hf⟩
  | sweep hp =>
    obtain ⟨u, t, M', ht, hs, hr, hinv⟩ := sweep_swept h
    cases ht.symm.trans hp
    exact ⟨_, _, M', hinv, .sweep rfl hs hr rfl rfl⟩

theorem Membership.vacant_iff (h : Inv s L R M) (hr : r ∈ R) : s.Vacant r ↔ M r = [] := by
  rw [List.eq_nil_iff_forall_not_mem]
  refine forall_congr' fun a => ?_
  rw [h.hasMember_room_iff hr, not_and]

/-- A message that leads nobody into the room leaves its flag. -/
theorem FlagsSet.flagged {x : Event} (hf : Flagged c run s L R) (he : x ≠ .sweep)
    (h' : Inv d.server L' R' M') (hlast : (lastState c run).server = s)
    (hs : FlagsSet (fun id => x.Carries id) s d.server L L' R R') :
    Flagged c (run ++ [(x, d)]) d.server L' R' := by
  have hidle : ∀ id, IdleSince id c (run ++ [(x, d)]) ↔ ¬x.Carries id ∧ IdleSince id c run := by
    intro id
    rw [IdleSince, since_concat]
    simp [he]
  have hvacant : ∀ r, VacantSince r c (run ++ [(x, d)]) ↔
      ¬Server.Enters r s d.server ∧ VacantSince r c run := by
    intro r
    rw [VacantSince, since_concat, hlast]
    simp [he]
  refine ⟨fun a ha id hid => ?_, fun id hi => ?_, fun r hr => ?_, fun r hv => ?_⟩
  · rw [hidle]
    by_cases hc : x.Carries id
    · simp [hs.heardOf a ha id hid hc, hc]
    · rcases hs.quiet a ha id hid hc with ⟨hq, hnew⟩ | ⟨hq, hold, haL⟩
      · -- a new member: no other has its id
        have hno : ¬IdleSince id c run := by
          intro hi
          obtain ⟨b, hb, hbid⟩ := hf.idle id hi
          obtain ⟨hbid', hb'⟩ := hs.stays b hb id hbid hc
          obtain rfl := h'.registry.ids a ha b hb' (hid.trans hbid'.symm)
          exact hnew hb
        simp [hq, hno]
      · rw [hq, hf.member a haL id hold]
        simp [hc]
  · obtain ⟨hc, hi⟩ := (hidle id).mp hi
    obtain ⟨a, ha, hid⟩ := hf.idle id hi
    obtain ⟨hid', ha'⟩ := hs.stays a ha id hid hc
    exact ⟨a, ha', hid'⟩
  · rw [hvacant]
    by_cases hrR : r ∈ R
    · by_cases hent : Server.Enters r s d.server
      · have hzero : d.server.emptyFlagAt r = some 0 := by
          by_contra hne
          obtain ⟨a, ⟨ham, har⟩, -⟩ := hent
          have hM := h'.membership.idle r hr hne
          exact (Membership.vacant_iff h' hr).mpr hM a ham har
        simp [hzero, hent]
      · rcases hs.empty r hrR with hk | hk
        · rw [hk, hf.room r hrR]
          simp [hent]
        · exact (hent hk).elim
    · have hno : ¬VacantSince r c run := fun hv => hrR (hf.vacant r hv)
      simp [hs.newRoom r hr hrR, hno]
  · exact hs.rooms r (hf.vacant r ((hvacant r).mp hv).2)

/-- A sweep flags every member that stays, and every room that is empty then. -/
theorem Swept.flagged (hs : Swept s L u) (hr : RoomsSwept u R d.server)
    (h' : Inv d.server (L.filter fun a => s.quietAt a = some 0)
      (R.filter fun r => s.emptyFlagAt r = some 0) M') :
    Flagged c (run ++ [(.sweep, d)]) d.server (L.filter fun a => s.quietAt a = some 0)
      (R.filter fun r => s.emptyFlagAt r = some 0) := by
  have hidle : ∀ id, IdleSince id c (run ++ [(.sweep, d)]) ↔ d.server.HasId id := by
    intro id
    rw [IdleSince, since_concat]
    simp
  have hvacant : ∀ r, VacantSince r c (run ++ [(.sweep, d)]) ↔
      d.server.HasRoom r ∧ d.server.Vacant r := by
    intro r
    rw [VacantSince, since_concat]
    simp
  refine ⟨fun a ha id hid => ?_, fun id hi => ?_, fun r hrR => ?_, fun r hv => ?_⟩
  · rw [hidle, h'.registry.hasId_iff]
    refine iff_of_true ?_ ⟨a, ha, hid⟩
    obtain ⟨haL, hq⟩ := List.mem_filter.mp ha
    have hkept := congrArg (Option.map Member.quietFlag) (hs.kept a haL (of_decide_eq_true hq))
    rw [Server.quietAt, hr.members]
    obtain ⟨mt, hmt⟩ := Option.isSome_iff_exists.mp (h'.registry.alloc a ha)
    rw [hr.members] at hmt
    cases hv : s.members.load a with
    | none => simp [hmt, hv] at hkept
    | some v =>
      simp only [hmt, hv, Option.map_some, Option.some.injEq] at hkept ⊢
      rw [show mt.quietFlag = 1 from hkept]
      decide
  · exact h'.registry.hasId_iff.mp ((hidle id).mp hi)
  · rw [hvacant, h'.roomList.hasRoom_iff, and_iff_right hrR, Membership.vacant_iff h' hrR]
    obtain ⟨hR, hq⟩ := List.mem_filter.mp hrR
    have hflag : u.emptyFlagAt r = s.emptyFlagAt r := hs.emptyFlag r
    have hkept := hr.kept r hR (hflag.trans (of_decide_eq_true hq))
    have hcount := h'.membership.count r hrR
    obtain ⟨rt, hrt⟩ := Option.isSome_iff_exists.mp (h'.roomList.alloc r hrR)
    cases hv : u.rooms.load r with
    | none => simp [hrt, hv] at hkept
    | some v =>
      simp only [hrt, hv, Option.map_some, Option.some.injEq] at hkept hcount
      have hnum : rt.numOfMembers = v.numOfMembers := by
        simpa [Room.contents] using congrArg Room.numOfMembers hkept
      have hempty : rt.emptyFlag = if v.numOfMembers = 0 then 1 else 0 := by
        simpa [Room.contents] using congrArg Room.emptyFlag hkept
      simp only [Server.emptyFlagAt, hrt, Option.map_some, ne_eq, Option.some.injEq, hempty,
        ← hnum, hcount]
      cases M' r with
      | nil => simp
      | cons b bs => simp; omega
  · exact h'.roomList.hasRoom_iff.mp ((hvacant r).mp hv).1

/-- No room has been found empty before the first sweep. -/
theorem createRooms_flags {config : List (Bytes × Nat)} (h : Inv s [] R M)
    (h0 : ∀ r ∈ R, s.emptyFlagAt r = some 0) (hc : createRooms s config = .ok t) :
    ∃ R' M', Inv t [] R' M' ∧ ∀ r ∈ R', t.emptyFlagAt r = some 0 := by
  induction config generalizing s R M with
  | nil =>
    cases hc
    exact ⟨R, M, h, h0⟩
  | cons x config ih =>
    obtain ⟨u, hu, hc⟩ := ok_of_bind hc
    obtain ⟨⟨v, ret⟩, hv, hu⟩ := ok_of_bind hu
    cases hu
    obtain ⟨R', M', hinv, hk⟩ := (createRoom_created h hv).flagsKept h
    refine ih hinv (fun r hr => ?_) hc
    by_cases hrR : r ∈ R
    · rcases hk.empty r hrR with hf | ⟨a, ⟨ham, -⟩, -⟩
      · rw [hf, h0 r hrR]
      · exact nomatch hinv.registry.hasMember_iff.mp ham
    · exact hk.newRoom r hr hrR

theorem Started.flagged (hc : Started c) : ∃ R M, Inv c.server [] R M ∧
    Flagged c [] c.server [] R := by
  obtain ⟨config, hi⟩ := hc.init
  have hempty : Inv .empty [] [] fun _ => [] := inv_empty
  obtain ⟨R, M, h, h0⟩ := createRooms_flags hempty (fun _ hr => nomatch hr) hi
  refine ⟨R, M, h, ⟨fun _ ha => (nomatch ha), fun _ hi => (not_since_nil hi).elim, fun r hr => ?_,
    fun _ hv => (not_since_nil hv).elim⟩⟩
  exact iff_of_false (fun hne => hne (h0 r hr)) not_since_nil

theorem run_flagged (hc : Started c) (hr : Along Step c run) : ∃ L R M,
    Inv (lastState c run).server L R M ∧ Flagged c run (lastState c run).server L R := by
  refine hr.history (I := fun run => ∃ L R M, Inv (lastState c run).server L R M ∧
    Flagged c run (lastState c run).server L R) ?_ ?_
  · obtain ⟨R, M, h, hf⟩ := hc.flagged
    exact ⟨[], R, M, h, hf⟩
  · rintro run e d ⟨L, R, M, h, hf⟩ hstep
    obtain ⟨L', R', M', h', hround⟩ := step_round hstep h
    rw [lastState_append]
    refine ⟨L', R', M', h', ?_⟩
    cases hround with
    | message he hs => exact hs.flagged hf he h' rfl
    | sweep he hs hr hL hR =>
      subst he hL hR
      exact hs.flagged hr h'

/-- The member with an id is removed when its flag is set. -/
theorem Swept.removes_member (hs : Swept s L u) (h : Inv s L R M)
    (h' : Inv t (L.filter fun a => s.quietAt a = some 0) R' M') (hm : t.members = u.members)
    (ha : a ∈ L) (hid : s.idAt a = some id) : ¬t.HasId id ↔ s.quietAt a ≠ some 0 := by
  have hids : ∀ b ∈ L, s.quietAt b = some 0 → t.idAt b = s.idAt b := by
    intro b hb hq
    have hk := congrArg (Option.map Member.memberId) (hs.kept b hb hq)
    rw [Option.map_map, Option.map_map, ← hm] at hk
    exact hk
  rw [not_iff_not.symm, not_not, not_not, h'.registry.hasId_iff]
  constructor
  · rintro ⟨b, hb, hbid⟩
    obtain ⟨hbL, hq⟩ := List.mem_filter.mp hb
    have hq := of_decide_eq_true hq
    rw [hids b hbL hq] at hbid
    rwa [h.registry.ids a ha b hbL (hid.trans hbid.symm)]
  · intro hq
    exact ⟨a, List.mem_filter.mpr ⟨ha, decide_eq_true hq⟩, (hids a ha hq).trans hid⟩

/-- What is left of an empty room's members after a sweep: none. -/
theorem Swept.vacant (hs : Swept s L u) (h : Inv s L R M)
    (h' : Inv t (L.filter fun a => s.quietAt a = some 0) R' M') (hm : t.members = u.members)
    (hr : r ∈ R) (hv : M r = []) : t.Vacant r := by
  intro a ha hroom
  obtain ⟨haL, hq⟩ := List.mem_filter.mp (h'.registry.hasMember_iff.mp ha)
  have hk := congrArg (Option.bind · Member.currentRoom) (hs.kept a haL (of_decide_eq_true hq))
  simp only [Option.bind_map, ← hm] at hk
  have hin : a ∈ M r := (h.membership.mem r hr a).mpr ⟨haL, hk.symm.trans hroom⟩
  rw [hv] at hin
  cases hin

section Visits
variable {n : Nat} {pre rest : List Nat} {p : Option Nat}

/-- `sweepMembers`, with the members it comes to. -/
def visitMembers : Nat → Option Nat → Server → Call (List Nat × Server)
  | _, none, s => .ok ([], s)
  | 0, some _, _ => .error .loops
  | n + 1, some a, s => do
    let mt ← s.members.read (some a)
    if mt.quietFlag = 0 then
      let members := s.members.modify a fun mt => { mt with quietFlag := mt.quietFlag + 1 }
      let (visited, s) ← visitMembers n mt.nextMember { s with members := members }
      .ok (a :: visited, s)
    else
      let s ← dropMember s a
      let (visited, s) ← visitMembers n mt.nextMember s
      .ok (a :: visited, s)

/-- `sweepRooms`, with the rooms it comes to. -/
def visitRooms : Nat → Option Nat → Server → Call (List Nat × Server)
  | _, none, s => .ok ([], s)
  | 0, some _, _ => .error .loops
  | n + 1, some a, s => do
    let rt ← s.rooms.read (some a)
    if rt.numOfMembers = 0 then
      if rt.emptyFlag = 0 then
        let rooms := s.rooms.modify a fun rt => { rt with emptyFlag := rt.emptyFlag + 1 }
        let (visited, s) ← visitRooms n rt.nextRoom { s with rooms := rooms }
        .ok (a :: visited, s)
      else
        let s ← dropRoom s a
        let (visited, s) ← visitRooms n rt.nextRoom s
        .ok (a :: visited, s)
    else
      let (visited, s) ← visitRooms n rt.nextRoom s
      .ok (a :: visited, s)

/-- `sweep`, with the members and the rooms it comes to. -/
def sweepVisits (s : Server) : Call (List Nat × List Nat × Server) := do
  let (members, s) ← visitMembers s.members.used.length s.memListHead s
  let (rooms, s) ← visitRooms s.rooms.used.length s.roomListHead s
  .ok (members, rooms, s)

theorem sweepMembers_of_visit {visited : List Nat} (h : visitMembers n p s = .ok (visited, t)) :
    sweepMembers n p s = .ok t := by
  induction n generalizing p s visited with
  | zero =>
    cases p <;> cases h
    rfl
  | succ n ih =>
    cases p with
    | none =>
      cases h
      rfl
    | some a =>
      obtain ⟨mt, hmt, h⟩ := ok_of_bind h
      refine bind_eq_ok.mpr ⟨mt, hmt, ?_⟩
      split at h
      · next hq =>
        obtain ⟨⟨vs, u⟩, hv, h⟩ := ok_of_bind h
        cases h
        rw [if_pos hq]
        exact ih hv
      · next hq =>
        obtain ⟨u, hu, h⟩ := ok_of_bind h
        obtain ⟨⟨vs, v⟩, hv, h⟩ := ok_of_bind h
        cases h
        rw [if_neg hq]
        exact bind_eq_ok.mpr ⟨u, hu, ih hv⟩

theorem sweepRooms_of_visit {visited : List Nat} (h : visitRooms n p s = .ok (visited, t)) :
    sweepRooms n p s = .ok t := by
  induction n generalizing p s visited with
  | zero =>
    cases p <;> cases h
    rfl
  | succ n ih =>
    cases p with
    | none =>
      cases h
      rfl
    | some a =>
      obtain ⟨rt, hrt, h⟩ := ok_of_bind h
      refine bind_eq_ok.mpr ⟨rt, hrt, ?_⟩
      split at h
      · next hnum =>
        rw [if_pos hnum]
        split at h
        · next hq =>
          obtain ⟨⟨vs, u⟩, hv, h⟩ := ok_of_bind h
          cases h
          rw [if_pos hq]
          exact ih hv
        · next hq =>
          obtain ⟨u, hu, h⟩ := ok_of_bind h
          obtain ⟨⟨vs, v⟩, hv, h⟩ := ok_of_bind h
          cases h
          rw [if_neg hq]
          exact bind_eq_ok.mpr ⟨u, hu, ih hv⟩
      · next hnum =>
        obtain ⟨⟨vs, u⟩, hv, h⟩ := ok_of_bind h
        cases h
        rw [if_neg hnum]
        exact ih hv

/-- What is counted is the sweep. -/
theorem sweep_of_visits {members rooms : List Nat} (h : sweepVisits s = .ok (members, rooms, t)) :
    sweep s = .ok t := by
  obtain ⟨⟨ms, u⟩, hu, h⟩ := ok_of_bind h
  obtain ⟨⟨rs, v⟩, hv, h⟩ := ok_of_bind h
  cases h
  exact bind_eq_ok.mpr ⟨u, sweepMembers_of_visit hu, sweepRooms_of_visit hv⟩

/-- The sweep over the member list comes to each member that is left to it, in order: the link
to the next one is read before a member is freed. -/
theorem visitMembers_ok (h : Inv s (pre ++ rest) R M) (hn : rest.length ≤ n) :
    ∃ t, visitMembers n rest.head? s = .ok (rest, t) := by
  induction rest generalizing s pre n M with
  | nil => exact ⟨s, by cases n <;> rfl⟩
  | cons a rest ih =>
    cases n with
    | zero => simp at hn
    | succ n =>
      have hn : rest.length ≤ n := by simpa using hn
      obtain ⟨mt, hv, hnext⟩ := h.currentMember
      by_cases hq : mt.quietFlag = 0
      · obtain ⟨t, ht⟩ := ih h.flagMember hn
        refine ⟨t, bind_eq_ok.mpr ⟨mt, Store.read_some hv, ?_⟩⟩
        rw [if_pos hq, hnext]
        exact bind_eq_ok.mpr ⟨_, ht, rfl⟩
      · obtain ⟨u, M', hdrop, hu, -⟩ := h.dropCurrent
        obtain ⟨t, ht⟩ := ih hu hn
        refine ⟨t, bind_eq_ok.mpr ⟨mt, Store.read_some hv, ?_⟩⟩
        rw [if_neg hq, hnext]
        exact bind_eq_ok.mpr ⟨u, hdrop, bind_eq_ok.mpr ⟨_, ht, rfl⟩⟩

/-- The sweep over the room list comes to each room that is left to it, in order. -/
theorem visitRooms_ok (h : Inv s L (pre ++ rest) M) (hn : rest.length ≤ n) :
    ∃ t, visitRooms n rest.head? s = .ok (rest, t) := by
  induction rest generalizing s pre n M with
  | nil => exact ⟨s, by cases n <;> rfl⟩
  | cons a rest ih =>
    cases n with
    | zero => simp at hn
    | succ n =>
      have hn : rest.length ≤ n := by simpa using hn
      obtain ⟨rt, hrt, hnext, hcount⟩ := h.currentRoom
      by_cases hnum : rt.numOfMembers = 0
      · have hM : M a = [] := List.eq_nil_of_length_eq_zero (by omega)
        by_cases hq : rt.emptyFlag = 0
        · obtain ⟨t, ht⟩ := ih (h.passRoom.flagRoom hM) hn
          refine ⟨t, bind_eq_ok.mpr ⟨rt, Store.read_some hrt, ?_⟩⟩
          rw [if_pos hnum, if_pos hq, hnext]
          exact bind_eq_ok.mpr ⟨_, ht, rfl⟩
        · obtain ⟨u, hdrop, hu, -⟩ := h.dropCurrentRoom hM
          obtain ⟨t, ht⟩ := ih hu hn
          refine ⟨t, bind_eq_ok.mpr ⟨rt, Store.read_some hrt, ?_⟩⟩
          rw [if_pos hnum, if_neg hq, hnext]
          exact bind_eq_ok.mpr ⟨u, hdrop, bind_eq_ok.mpr ⟨_, ht, rfl⟩⟩
      · obtain ⟨t, ht⟩ := ih h.passRoom hn
        refine ⟨t, bind_eq_ok.mpr ⟨rt, Store.read_some hrt, ?_⟩⟩
        rw [if_neg hnum, hnext]
        exact bind_eq_ok.mpr ⟨_, ht, rfl⟩

/-- A sweep comes to every member and to every room once. -/
theorem sweepVisits_ok (h : Inv s L R M) (hs : sweep s = .ok t) :
    sweepVisits s = .ok (L, R, t) := by
  have hnil : Inv s ([] ++ L) R M := h
  have hmembers := Store.length_le_used h.registry.nodup h.registry.alloc
  obtain ⟨u, hu⟩ := visitMembers_ok hnil hmembers
  obtain ⟨u', M', hu', hinv, hswept⟩ := sweepMembers_ok hnil hmembers
  cases hu'.symm.trans (sweepMembers_of_visit hu)
  have hnil' : Inv u (L.filter fun a => s.quietAt a = some 0) ([] ++ R) M' := hinv
  obtain ⟨v, hv⟩ := visitRooms_ok hnil'
    (Store.length_le_used hinv.roomList.nodup hinv.roomList.alloc)
  have hvisits : sweepVisits s = .ok (L, R, v) := by
    rw [← h.registry.list.head_eq] at hu
    rw [← hinv.roomList.chain.head_eq] at hv
    exact bind_eq_ok.mpr ⟨_, hu, bind_eq_ok.mpr ⟨_, hv, rfl⟩⟩
  cases hs.symm.trans (sweep_of_visits hvisits)
  exact hvisits

end Visits

theorem sweep_returns {s : Session} (hc : Started c) (hs : Reaches Step c s) :
    ∃ t, sweep s.server = .ok t := by
  obtain ⟨L, R, M, h⟩ := inv_of_reaches hc hs
  obtain ⟨t, -, ht, -⟩ := sweep_ok h
  exact ⟨t, ht⟩

/-- A sweep returns wherever the server has come. It removes the members that were there at the
sweep before and have not been heard of since, and the rooms that were empty then, still are, and
had nobody come in between. It comes to each member and to each room once. -/
theorem sweep_removes (hc : Started c) (hr : Along Step c (run ++ [(.sweep, d)])) :
    (∀ s, Reaches Step c s → ∃ t, sweep s.server = .ok t) ∧
    (∀ id, (lastState c run).server.HasId id → (¬d.server.HasId id ↔ IdleSince id c run)) ∧
    (∀ r, (lastState c run).server.HasRoom r →
      (¬d.server.HasRoom r ↔ d.server.Vacant r ∧ VacantSince r c run)) ∧
    ∃ members rooms, sweepVisits (lastState c run).server = .ok (members, rooms, d.server) ∧
      members.Nodup ∧ (∀ a, a ∈ members ↔ (lastState c run).server.HasMember a) ∧
      rooms.Nodup ∧ ∀ r, r ∈ rooms ↔ (lastState c run).server.HasRoom r := by
  refine ⟨fun s hs => sweep_returns hc hs, ?_⟩
  obtain ⟨hr, hstep⟩ := along_concat.mp hr
  obtain ⟨L, R, M, h, hf⟩ := run_flagged hc hr
  obtain ⟨L', R', M', h', hround⟩ := step_round hstep h
  have hsweep : sweep (lastState c run).server = .ok d.server := by
    cases hstep with
    | sweep hs => exact hs
  cases hround with
  | message he => exact absurd rfl he
  | sweep _ hs hrooms hL hR =>
    subst hL hR
    refine ⟨fun id hid => ?_, fun r hr => ?_, L, R, sweepVisits_ok h hsweep, h.registry.nodup,
      fun a => h.registry.hasMember_iff.symm, h.roomList.nodup,
      fun r => h.roomList.hasRoom_iff.symm⟩
    · obtain ⟨a, ha, hid⟩ := h.registry.hasId_iff.mp hid
      rw [hs.removes_member h h' hrooms.members ha hid, hf.member a ha id hid]
    · have hrR := h.roomList.hasRoom_iff.mp hr
      rw [h'.roomList.hasRoom_iff, List.mem_filter, decide_eq_true_eq, ← hf.room r hrR]
      constructor
      · intro hgone
        have hne : (lastState c run).server.emptyFlagAt r ≠ some 0 := fun h0 => hgone ⟨hrR, h0⟩
        exact ⟨hs.vacant h h' hrooms.members hrR (h.membership.idle r hrR hne), hne⟩
      · rintro ⟨-, hne⟩ ⟨-, h0⟩
        exact hne h0

/-- Of two members of a room one is not heard of between two sweeps: it goes, and the other one
stays. -/
theorem sweep_removes_annLeaves : ∃ run d, Started twoRooms ∧
    Along Step twoRooms (run ++ [(.sweep, d)]) ∧
    (findMemberWithId d.server 1).toOption = some none ∧
    (findMemberWithId d.server 2).toOption = some (some 16384) ∧
    (∀ s, Reaches Step twoRooms s → ∃ t, sweep s.server = .ok t) ∧
    (∀ id, (lastState twoRooms run).server.HasId id →
      (¬d.server.HasId id ↔ IdleSince id twoRooms run)) ∧
    (∀ r, (lastState twoRooms run).server.HasRoom r →
      (¬d.server.HasRoom r ↔ d.server.Vacant r ∧ VacantSince r twoRooms run)) ∧
    ∃ members rooms, sweepVisits (lastState twoRooms run).server = .ok (members, rooms, d.server) ∧
      members.Nodup ∧ (∀ a, a ∈ members ↔ (lastState twoRooms run).server.HasMember a) ∧
      rooms.Nodup ∧ ∀ r, r ∈ rooms ↔ (lastState twoRooms run).server.HasRoom r := by
  obtain ⟨⟨run, t⟩, hh, he⟩ := ok_of_map
    (c := do
      let run ← rounds twoRooms (annLeaves.take 6)
      let t ← sweep (lastState twoRooms run).server
      .ok (run, t))
    (f := fun x => ((findMemberWithId x.2 1).toOption, (findMemberWithId x.2 2).toOption))
    (b := (some none, some (some 16384))) (by decide +kernel)
  obtain ⟨hann, hbob⟩ := Prod.mk.inj he
  obtain ⟨run, hrun, hh⟩ := ok_of_bind hh
  obtain ⟨t, ht, hh⟩ := ok_of_bind hh
  cases hh
  have hr := along_concat.mpr ⟨rounds_along hrun, Step.sweep ht⟩
  exact ⟨run, _, twoRooms_started, hr, hann, hbob, sweep_removes twoRooms_started hr⟩

end Between
end Csc469.Chat
