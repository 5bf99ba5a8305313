import Csc469.Chat.LostReplies
import Csc469.Chat.ServiceView

/-! The server refines the chat service, over any run. -/
namespace Csc469.Chat

open Execution Linked ChatService Simulation

/-- What a message and its reply are to the service. -/
def Event.action : Event → Option (Action UInt16 Bytes)
  | .control env (some msg) reply =>
    if NeedsId msg then
      if reply = some ⟨msgType msg + 2, 0, text "Member id invalid!"⟩ then
        some (.unknown (memberId msg))
      else if msgType msg = switchRoomRequest then
        some (.enter (memberId msg) (cstr (msgdata msg)) (reply.any (·.type = switchRoomSucc)))
      else if msgType msg = createRoomRequest then
        some (.create (memberId msg) (cstr (msgdata msg)) (reply.any (·.type = createRoomSucc)))
      else if msgType msg = quitRequest then some (.leave (memberId msg))
      else some (.ask (memberId msg))
    else if msgType msg = registerRequest then
      reply.map fun r => .register (newMember msg env.peer).name
        (if r.type = registerSucc then some r.id else none)
    else none
  | .chat (some msg) _ => some (.speak (senderId msg))
  | .sweep => some .interval
  | .control _ none _ => none
  | .chat none _ => none

/-- The message does not create a room under a name of exactly 24 characters, which has no
terminator in its record. -/
def Event.NamesFit : Event → Prop
  | .control _ (some msg) _ =>
    msgType msg = createRoomRequest → (cstr (msgdata msg)).length ≠ maxRoomNameLen
  | _ => True

variable {s t : Server} {L R L' R' : List Nat} {M M' : Nat → List Nat} {a b r : Nat} {env : Env}
  {msg name : Bytes} {reply : Option Reply} {id : UInt16}

section Requests

variable {x : Reply}

theorem processRoomListRequest_id (h : processRoomListRequest s id = .ok (some x)) : x.id = id := by
  unfold processRoomListRequest at h
  split at h
  · cases h
    rfl
  · obtain ⟨rooms, -, h⟩ := ok_of_bind h
    cases h
    rfl

theorem processMemberListRequest_id (h : processMemberListRequest s id msg = .ok (some x)) :
    x.id = id := by
  unfold processMemberListRequest at h
  split at h
  · cases h
    rfl
  obtain ⟨found, -, h⟩ := ok_of_bind h
  cases found with
  | none =>
    cases h
    rfl
  | some r =>
    obtain ⟨rt, -, h⟩ := ok_of_bind h
    split at h
    · cases h
      rfl
    · obtain ⟨members, -, h⟩ := ok_of_bind h
      cases h
      rfl

theorem processCreateRoomRequest_id (h : processCreateRoomRequest s env id msg = .ok (t, some x)) :
    x.id = id := by
  obtain ⟨⟨u, ret⟩, -, h⟩ := ok_of_bind h
  simp only at h
  split at h <;> (cases h; rfl)

theorem processSwitchRoomRequest_id (hid : s.idAt a = some id)
    (h : processSwitchRoomRequest s a msg = .ok (t, some x)) : x.id = id := by
  obtain ⟨mt, hmt, h⟩ := ok_of_bind h
  obtain ⟨_, ⟨⟩, hmt⟩ := Store.read_ok hmt
  obtain rfl : mt.memberId = id := by simpa [Server.idAt, hmt] using hid
  split at h
  · cases h
    rfl
  obtain ⟨found, -, h⟩ := ok_of_bind h
  cases found with
  | none =>
    cases h
    rfl
  | some r =>
    obtain ⟨rt, -, h⟩ := ok_of_bind h
    split at h
    · cases h
      rfl
    split at h
    · cases h
      rfl
    obtain ⟨u, -, h⟩ := ok_of_bind h
    obtain ⟨v, -, h⟩ := ok_of_bind h
    cases h
    rfl

/-- What a member is told carries its id. -/
theorem processMemberRequest_id (hid : s.idAt a = some id)
    (hp : processMemberRequest s env a msg = .ok (t, some x)) : x.id = id := by
  obtain ⟨mt, hmt, hp⟩ := ok_of_bind hp
  obtain ⟨_, ⟨⟩, hmt⟩ := Store.read_ok hmt
  obtain rfl : mt.memberId = id := by simpa [Server.idAt, hmt] using hid
  split at hp
  · obtain ⟨reply, hr, hp⟩ := ok_of_bind hp
    cases hp
    exact processRoomListRequest_id hr
  split at hp
  · obtain ⟨reply, hr, hp⟩ := ok_of_bind hp
    cases hp
    exact processMemberListRequest_id hr
  split at hp
  · exact processSwitchRoomRequest_id hid hp
  split at hp
  · exact processCreateRoomRequest_id hp
  split at hp
  · obtain ⟨u, -, hp⟩ := ok_of_bind hp
    cases hp
  · cases hp

/-- A request of another type only reads. -/
theorem processMemberRequest_reads (hs : msgType msg ≠ switchRoomRequest)
    (hc : msgType msg ≠ createRoomRequest) (hq : msgType msg ≠ quitRequest)
    (hp : processMemberRequest s env a msg = .ok (t, reply)) : t = s := by
  obtain ⟨mt, -, hp⟩ := ok_of_bind hp
  rw [if_neg hs, if_neg hc, if_neg hq] at hp
  split at hp
  · obtain ⟨reply', -, hp⟩ := ok_of_bind hp
    cases hp
    rfl
  split at hp
  · obtain ⟨reply', -, hp⟩ := ok_of_bind hp
    cases hp
    rfl
  · cases hp
    rfl

theorem processMemberRequest_quit (ha : (s.members.load a).isSome)
    (htype : msgType msg = quitRequest) :
    processMemberRequest s env a msg = (dropMember s a).map (·, none) := by
  obtain ⟨mt, hmt⟩ := Option.isSome_iff_exists.mp ha
  simp only [processMemberRequest, Store.read_some hmt, htype, bind, Except.bind]
  cases dropMember s a <;> rfl

end Requests

section Steps

theorem WellNamed.presence (h : WellNamed s L R M) (ha : a ∈ L) (hid : s.idAt a = some id) :
    ∃ p, s.presenceAt a = some p ∧ s.service.member id = some p := by
  have hsome := presenceAt_isSome.trans (h.inv.registry.alloc a ha)
  obtain ⟨p, hp⟩ := Option.isSome_iff_exists.mp hsome
  exact ⟨p, hp, (h.inv.registry.member_at ha hid).trans hp⟩

theorem WellNamed.present (h : WellNamed s L R M) (ha : a ∈ L) (hid : s.idAt a = some id) :
    (s.service.member id).isSome := h.inv.registry.member_isSome_iff.mpr ⟨a, ha, hid⟩

theorem WellNamed.notMem_rooms (h : WellNamed s L R M) (hno : ∀ r ∈ R, s.roomNameAt r ≠ some name) :
    name ∉ s.service.rooms := by
  intro hmem
  obtain ⟨r, hr, hn⟩ := h.idle_isSome_iff.mp hmem
  exact hno r hr hn

theorem WellNamed.mem_rooms (h : WellNamed s L R M) (hr : r ∈ R) (hn : s.roomNameAt r = some name) :
    name ∈ s.service.rooms := h.idle_isSome_iff.mpr ⟨r, hr, hn⟩

theorem WellNamed.switch_refined (h : WellNamed s L R M) (ha : a ∈ L) (hid : s.idAt a = some id)
    (hp : processSwitchRoomRequest (s.touch a) a msg = .ok (t, reply)) : ∃ M', WellNamed t L R M' ∧
      ChatService.Step chatLimits s.service
        (.enter id (cstr (msgdata msg)) (reply.any (·.type = switchRoomSucc))) t.service := by
  have h' := h.touch (a := a)
  have hid' : (s.touch a).idAt a = some id := (idAt_touch a).trans hid
  have hhear := h.service_touch ha hid
  obtain ⟨p, hpa, hmember⟩ := h.presence ha hid
  obtain ⟨u, reply', hok, hw⟩ := processSwitchRoomRequest_ok h'.inv ha hid'
  cases hok.symm.trans hp
  cases hw with
  | noRoom hnil =>
    rw [hhear]
    exact ⟨M, h', .enterRefused hmember (.inl (h.notMem_rooms (by simp [hnil])))⟩
  | notFound hfind =>
    rw [hhear]
    have hnone := h.notMem_rooms (findRoom_none h.inv.roomList hfind)
    exact ⟨M, h', .enterRefused hmember (.inl hnone)⟩
  | full hfind hfull =>
    obtain ⟨hr, hn⟩ := findRoom_some h.inv.roomList hfind
    rw [hhear]
    exact ⟨M, h', .enterRefused hmember (.inr (.inl ((h.ncard_occupants hr hn).trans hfull)))⟩
  | already hfind hroom =>
    obtain ⟨hr, hn⟩ := findRoom_some h.inv.roomList hfind
    rw [hhear]
    refine ⟨M, h', .enterRefused hmember (.inr (.inr ?_))⟩
    obtain ⟨n, -, rfl⟩ := Option.map_eq_some_iff.mp hpa
    rw [roomAt_touch] at hroom
    simp [hroom, hn]
  | @switched r _ M' hfind hfull hne honly hroom hinv =>
    obtain ⟨hr, hn⟩ := findRoom_some h.inv.roomList hfind
    have hpa' : (s.touch a).presenceAt a = some p.heard := by
      have := presenceAt_hears (s := s) (a := a) (b := a) hears_touch
      rw [if_pos rfl, hpa] at this
      exact this
    have hflag : t.emptyFlagAt r = some 0 := by
      by_contra hflag
      have haM := (hinv.membership.mem r hr a).mpr ⟨ha, hroom⟩
      rw [hinv.membership.idle r hr hflag] at haM
      cases haM
    obtain ⟨ht, hservice⟩ := h'.service_switched ha hid' hp hfind honly hroom hflag hinv hpa' rfl
    refine ⟨M', ht, ?_⟩
    rw [hservice, hhear, setMember_hear]
    refine .entered (p := p) hmember (h.mem_rooms hr hn) ?_ fun he => ?_
    · have hle := h.inv.membership.le r hr
      rw [h.ncard_occupants hr hn]
      exact lt_of_le_of_ne hle hfull
    · obtain ⟨n, -, rfl⟩ := Option.map_eq_some_iff.mp hpa
      obtain ⟨x, hx, hxn⟩ := Option.bind_eq_some_iff.mp he
      obtain rfl := h.room_eq (h.inv.membership.current a ha x hx) hr (hxn.trans hn.symm)
      exact hne ((roomAt_touch a).trans hx)

theorem WellNamed.create_refined (h : WellNamed s L R M) (ha : a ∈ L) (hid : s.idAt a = some id)
    (hp : processCreateRoomRequest (s.touch a) env id msg = .ok (t, reply))
    (hfits : (cstr (msgdata msg)).length ≠ maxRoomNameLen) : ∃ R' M', WellNamed t L R' M' ∧
      ChatService.Step chatLimits s.service
        (.create id (cstr (msgdata msg)) (reply.any (·.type = createRoomSucc))) t.service := by
  have h' := h.touch (a := a)
  have hhear := h.service_touch ha hid
  have hpresent := h.present ha hid
  have h0 : 0 ∉ cstr (msgdata msg) := zero_notMem_cstr
  obtain ⟨ret, x, hc, rfl, hx⟩ := processCreateRoomRequest_created h'.inv hp
  have hany : (some x).any (·.type = createRoomSucc) = decide (ret = 0) := by
    rw [Option.any_some, hx]
    by_cases hret : ret = 0
    · simp [hret]
    · simp [hret, createRoomSucc, createRoomFail]
  rw [hany]
  cases hc with
  | tooLong hlen =>
    rw [hhear]
    exact ⟨R, M, h', .createRefused hpresent (.inl (not_le.mpr hlen))⟩
  | tooMany hm hmax =>
    obtain ⟨ht, hservice⟩ := h'.service_leakRoom hm
    rw [hservice, hhear]
    refine ⟨R, M, ht, .createRefused hpresent (.inr (.inl (h.ncard_rooms.trans ?_)))⟩
    exact Int.natCast_inj.mp (h.inv.roomList.count.symm.trans hmax)
  | «exists» hm hex =>
    obtain ⟨ht, hservice⟩ := h'.service_leakRoom hm
    obtain ⟨r, hr, hn⟩ := hex
    rw [hservice, hhear]
    refine ⟨R, M, ht, .createRefused hpresent ?_⟩
    by_cases hlen : (cstr (msgdata msg)).length ≤ maxRoomNameLen
    · rw [newRoom_name hlen h0] at hn
      exact .inr (.inr (h.mem_rooms hr hn))
    · exact .inl hlen
  | created hlen hmax hnew hadd =>
    have hlt : (cstr (msgdata msg)).length < maxRoomNameLen := lt_of_le_of_ne hlen hfits
    rw [newRoom_name hlen h0] at hnew
    obtain ⟨M', ht, hservice⟩ := h'.service_created hadd hlt h0 hmax hnew
    rw [hservice, hhear]
    refine ⟨_, M', ht, .created hpresent hlen ?_ (h.notMem_rooms hnew)⟩
    have hcount := h.inv.roomList.count
    have hle := h.inv.roomList.le
    have hne : R.length ≠ maxNumOfRooms := fun he => hmax (hcount.trans (by rw [he]))
    rw [h.ncard_rooms]
    exact lt_of_le_of_ne hle hne

theorem WellNamed.quit_refined (h : WellNamed s L R M) (ha : a ∈ L) (hid : s.idAt a = some id)
    (hd : dropMember (s.touch a) a = .ok t) : ∃ M', WellNamed t (L.erase a) R M' ∧
      ChatService.Step chatLimits s.service (.leave id) t.service := by
  have h' := h.touch (a := a)
  obtain ⟨u, M', hu, hinv, hdropped⟩ := dropMember_ok h'.inv ha
  cases hu.symm.trans hd
  obtain ⟨ht, hservice⟩ := h'.service_dropped ha ((idAt_touch a).trans hid) hdropped hinv
  rw [hservice, h.service_touch ha hid, setMember_hear]
  exact ⟨M', ht, .left (h.present ha hid)⟩

theorem WellNamed.register_refined (h : WellNamed s L R M)
    (hr : Registered s L R M env msg t reply) :
    ∃ L', WellNamed t L' R M ∧ match reply with
      | some x => ChatService.Step chatLimits s.service (.register (newMember msg env.peer).name
          (if x.type = registerSucc then some x.id else none)) t.service
      | none => t.service = s.service := by
  cases hr with
  | full hfull =>
    refine ⟨L, h, .registerRefused (.inl (h.inv.registry.ncard_present.trans ?_))⟩
    exact Int.natCast_inj.mp (h.inv.registry.count.symm.trans hfull)
  | noPeer hm =>
    obtain ⟨ht, hservice⟩ := h.service_leakMember hm
    exact ⟨L, ht, hservice⟩
  | nameUsed hm hname =>
    obtain ⟨ht, hservice⟩ := h.service_leakMember hm
    obtain ⟨a, ha, hname⟩ := hname
    obtain ⟨id, hid⟩ := Option.isSome_iff_exists.mp (h.inv.registry.idAt_isSome ha)
    obtain ⟨p, hp, hmember⟩ := h.presence ha hid
    refine ⟨L, ht, ?_⟩
    simp only [hservice]
    refine .registerRefused (.inr ⟨id, p, hmember, ?_⟩)
    rw [Server.presenceAt, hname, Option.map_some] at hp
    cases hp
    rfl
  | @registered t id hmax hpeer hnew hadd hinv =>
    obtain ⟨ht, hservice⟩ := h.service_registered hadd hinv
    refine ⟨_, ht, ?_⟩
    simp only [hservice]
    refine .registered ?_ (fun i p hp he => ?_) ?_
    · have hcount := h.inv.registry.count
      have hle := h.inv.registry.le
      have hne : L.length ≠ maxNumOfMembers := fun he => hmax (hcount.trans (by rw [he]))
      rw [h.inv.registry.ncard_present]
      exact lt_of_le_of_ne hle hne
    · have hsome : (s.service.member i).isSome := by rw [hp, Option.isSome_some]
      obtain ⟨a, ha, hi⟩ := h.inv.registry.member_isSome_iff.mp hsome
      rw [h.inv.registry.member_at ha hi] at hp
      obtain ⟨n, hn, rfl⟩ := Option.map_eq_some_iff.mp hp
      exact hnew a ha (hn.trans (congrArg some he))
    · refine h.inv.registry.member_none fun a ha he => ?_
      have hne : a ≠ env.addr := by
        rintro rfl
        have := h.inv.registry.alloc _ ha
        simp [hadd.free.1] at this
      have hid : t.idAt a = some id :=
        (Store.map_of_map (hadd.other a hne) Member.memberId).trans he
      exact hne (hinv.registry.ids a (by simp [ha]) env.addr (by simp) (hid.trans hadd.idAt.symm))

/-- What the service sees of a message and its reply. -/
def Refines (s : Server) (e : Event) (t : Server) : Prop :=
  match e.action with
  | some act => ChatService.Step chatLimits s.service act t.service
  | none => t.service = s.service

theorem refines_some {e : Event} {act : Action UInt16 Bytes} (h : e.action = some act)
    (hs : ChatService.Step chatLimits s.service act t.service) : Refines s e t := by
  rwa [Refines, h]

theorem WellNamed.member_refined (h : WellNamed s L R M) (ha : a ∈ L)
    (hid : s.idAt a = some (memberId msg)) (htype : NeedsId msg)
    (hfits : Event.NamesFit (.control env (some msg) reply))
    (hp : processMemberRequest (s.touch a) env a msg = .ok (t, reply)) :
    ∃ L' R' M', WellNamed t L' R' M' ∧ Refines s (.control env (some msg) reply) t := by
  have hid' : (s.touch a).idAt a = some (memberId msg) := (idAt_touch a).trans hid
  have hvalid : reply ≠ some ⟨msgType msg + 2, 0, text "Member id invalid!"⟩ := by
    rintro rfl
    have h0 := processMemberRequest_id hid' hp
    exact h.inv.registry.id_pos a ha (hid.trans (congrArg some h0.symm))
  by_cases hs : msgType msg = switchRoomRequest
  · rw [processMemberRequest_switch hid' hs] at hp
    obtain ⟨M', ht, hstep⟩ := h.switch_refined ha hid hp
    exact ⟨L, R, M', ht, refines_some (by
      rw [Event.action, if_pos htype, if_neg hvalid, if_pos hs]) hstep⟩
  by_cases hc : msgType msg = createRoomRequest
  · rw [processMemberRequest_create hid' hc] at hp
    obtain ⟨R', M', ht, hstep⟩ := h.create_refined ha hid hp (hfits hc)
    exact ⟨L, R', M', ht, refines_some (by
      rw [Event.action, if_pos htype, if_neg hvalid, if_neg hs, if_pos hc]) hstep⟩
  by_cases hq : msgType msg = quitRequest
  · rw [processMemberRequest_quit (h.touch.inv.registry.alloc a ha) hq] at hp
    obtain ⟨u, hu, hp⟩ := map_eq_ok.mp hp
    cases hp
    obtain ⟨M', ht, hstep⟩ := h.quit_refined ha hid hu
    exact ⟨_, R, M', ht, refines_some (by
      rw [Event.action, if_pos htype, if_neg hvalid, if_neg hs, if_neg hc, if_pos hq]) hstep⟩
  · cases processMemberRequest_reads hs hc hq hp
    refine ⟨L, R, M, h.touch, refines_some (by
      rw [Event.action, if_pos htype, if_neg hvalid, if_neg hs, if_neg hc, if_neg hq]) ?_⟩
    rw [h.service_touch ha hid]
    exact .ask (h.present ha hid)

theorem WellNamed.control_refined {recv : Option Bytes} (h : WellNamed s L R M)
    (hfits : Event.NamesFit (.control env recv reply))
    (hp : processControlMsg s env recv = .ok (t, reply)) :
    ∃ L' R' M', WellNamed t L' R' M' ∧ Refines s (.control env recv reply) t := by
  cases recv with
  | none =>
    cases hp
    exact ⟨L, R, M, h, rfl⟩
  | some msg =>
    by_cases htype : NeedsId msg
    · rcases processControlMsg_needsId htype h.inv.registry hp with ⟨hf, rfl, rfl⟩ | ⟨a, ha, hf, hp⟩
      · have hno := findMemberWithId_none h.inv.registry hf
        refine ⟨L, R, M, h, refines_some ?_ (.unknown (h.inv.registry.member_none hno))⟩
        rw [Event.action, if_pos htype, if_pos rfl]
      · have hid := ((findMemberWithId_some_iff h.inv.registry).mp hf).2
        exact h.member_refined ha hid htype hfits hp
    · cases processControlMsg_served h.inv hp with
      | registered hreg hr =>
        obtain ⟨L', ht, hstep⟩ := h.register_refined hr
        refine ⟨L', R, M, ht, ?_⟩
        rw [Refines, Event.action, if_neg htype, if_pos hreg]
        cases reply <;> exact hstep
      | ignored _ hreg =>
        refine ⟨L, R, M, h, ?_⟩
        rw [Refines, Event.action, if_neg htype, if_neg hreg]
      | unknownId hn => exact (htype hn).elim
      | answered hn => exact (htype hn).elim
      | switched ht => exact (htype (needsId_of_type ht (by decide))).elim
      | created ht => exact (htype (needsId_of_type ht (by decide))).elim
      | left ht => exact (htype (needsId_of_type ht (by decide))).elim

theorem WellNamed.chat_refined {recv : Option Bytes} {sent : List (Option Nat)} {ds : List Datagram}
    (h : WellNamed s L R M) (hp : processChatMsg s recv sent = .ok (t, ds)) :
    WellNamed t L R M ∧ Refines s (.chat recv sent) t := by
  cases recv with
  | none =>
    cases hp
    exact ⟨h, rfl⟩
  | some msg =>
    rcases processChatMsg_heard h.inv.registry hp with ⟨rfl, hno⟩ | ⟨a, ha, hid, rfl⟩
    · have hstep : ChatService.Step chatLimits t.service (.speak (senderId msg))
          (t.service.hear (senderId msg)) := .speak
      rw [hear_of_none (h.inv.registry.member_none hno)] at hstep
      exact ⟨h, refines_some rfl hstep⟩
    · refine ⟨h.hears hears_heard, ?_⟩
      change ChatService.Step chatLimits s.service (.speak (senderId msg)) _
      rw [h.service_heard ha hid]
      exact .speak

theorem WellNamed.sweep_refined (h : WellNamed s L R M) (hp : sweep s = .ok t) :
    ∃ L' R' M', WellNamed t L' R' M' ∧ Refines s .sweep t := by
  obtain ⟨u, t', M', ht, hs, hr, hinv⟩ := sweep_swept h.inv
  cases ht.symm.trans hp
  obtain ⟨hnt, hservice⟩ := h.service_swept hs hr hinv
  refine ⟨_, _, M', hnt, ?_⟩
  change ChatService.Step chatLimits s.service .interval t.service
  rw [hservice]
  exact .pass

/-- Every round of `main` is a step of the service, or none. -/
theorem WellNamed.step_refined {c d : Session} {e : Event} (h : WellNamed c.server L R M)
    (hs : Step c e d) (hfits : e.NamesFit) :
    ∃ L' R' M', WellNamed d.server L' R' M' ∧ Refines c.server e d.server := by
  cases hs with
  | control hp => exact h.control_refined hfits hp
  | chat hp =>
    obtain ⟨ht, hr⟩ := h.chat_refined hp
    exact ⟨L, R, M, ht, hr⟩
  | sweep hp => exact h.sweep_refined hp

end Steps

section Runs
variable {config : List (Bytes × Nat)} {c : Session} {run : List (Event × Session)}

/-- The rooms of the configuration have names that are not of 24 characters. -/
def ConfigFits (config : List (Bytes × Nat)) : Prop :=
  ∀ x ∈ config, 0 ∉ x.1 ∧ x.1.length ≠ maxRoomNameLen

instance : Decidable (ConfigFits config) := inferInstanceAs (Decidable (∀ _ ∈ _, _))

instance : (e : Event) → Decidable e.NamesFit
  | .control _ (some _) _ => inferInstanceAs (Decidable (_ → _))
  | .control _ none _ => inferInstanceAs (Decidable True)
  | .chat _ _ => inferInstanceAs (Decidable True)
  | .sweep => inferInstanceAs (Decidable True)

theorem Created.length_le {addr ret : Nat} (h : Created s R name addr t ret) (h0 : ret = 0) :
    name.length ≤ maxRoomNameLen := by
  cases h with
  | created hlen => exact hlen
  | _ => cases h0

theorem createRooms_named (h : WellNamed s [] R M) (hfits : ConfigFits config)
    (hc : createRooms s config = .ok t) : ∃ R' M', WellNamed t [] R' M' := by
  induction config generalizing s R M with
  | nil =>
    cases hc
    exact ⟨R, M, h⟩
  | cons x config ih =>
    obtain ⟨u, hu, hc⟩ := ok_of_bind hc
    obtain ⟨⟨v, ret⟩, hv, hu⟩ := ok_of_bind hu
    cases hu
    obtain ⟨h0, hlen⟩ := hfits x (by simp)
    have hcr := createRoom_created h.inv hv
    obtain ⟨R', M', hinv, hr⟩ := hcr.renaming h.inv h0
    refine ih (h.renamed hinv hr fun y hy => ?_) (fun y hy => hfits y (by simp [hy])) hc
    by_cases hret : ret = 0
    · obtain rfl : y = (x.1, x.2) := by simpa [hret] using hy
      exact lt_of_le_of_ne (hcr.length_le hret) hlen
    · simp [hret] at hy

theorem initServer_named (hfits : ConfigFits config) (hi : initServer config = .ok s) :
    ∃ R M, WellNamed s [] R M :=
  createRooms_named ⟨inv_empty, by simp, by simp⟩ hfits hi

theorem step_simulates : Simulates (fun c : Session => ∃ L R M, WellNamed c.server L R M)
    (fun c e d => Step c e d ∧ e.NamesFit) (ChatService.Step chatLimits)
    (fun c => c.server.service) Event.action where
  keeps := by
    rintro c e d ⟨L, R, M, h⟩ ⟨hs, hfits⟩
    obtain ⟨L', R', M', hd, -⟩ := h.step_refined hs hfits
    exact ⟨L', R', M', hd⟩
  step := by
    rintro c e d act ⟨L, R, M, h⟩ ⟨hs, hfits⟩ hact
    obtain ⟨L', R', M', -, hr⟩ := h.step_refined hs hfits
    rwa [Refines, hact] at hr
  silent := by
    rintro c e d ⟨L, R, M, h⟩ ⟨hs, hfits⟩ hact
    obtain ⟨L', R', M', -, hr⟩ := h.step_refined hs hfits
    rwa [Refines, hact] at hr

/-- What clients see of a run of the server is a run of the chat service. -/
theorem server_refines_service (hi : initServer config = .ok c.server) (hc : ConfigFits config)
    (hr : Along Step c run) (hfits : ∀ x ∈ run, x.1.NamesFit) :
    Along (ChatService.Step chatLimits) c.server.service
        (seen (fun d : Session => d.server.service) Event.action run) ∧
      lastState c.server.service (seen (fun d : Session => d.server.service) Event.action run) =
        (lastState c run).server.service := by
  obtain ⟨R, M, h⟩ := initServer_named hc hi
  have hboth := hr.and (along_labels hfits)
  exact ⟨step_simulates.along ⟨[], R, M, h⟩ hboth, step_simulates.last ⟨[], R, M, h⟩ hboth⟩

theorem twoRooms_init : initServer [(text "A", 4096), (text "B", 8192)] = .ok twoRooms.server := by
  obtain ⟨s, hs, -⟩ := ok_of_map (c := initServer [(text "A", 4096), (text "B", 8192)])
    (f := Server.roomListHead) (b := some 4096) (by decide +kernel)
  rw [twoRooms, hs]
  rfl

theorem annLeaves_run : ∃ run, rounds twoRooms annLeaves = .ok run ∧ ∀ x ∈ run, x.1.NamesFit := by
  obtain ⟨run, hrun, hfits⟩ := ok_of_map (c := rounds twoRooms annLeaves)
    (f := fun run => run.all fun x => decide x.1.NamesFit) (b := true) (by decide +kernel)
  exact ⟨run, hrun, by simpa using hfits⟩

theorem server_refines_service_annLeaves : ∃ run, rounds twoRooms annLeaves = .ok run ∧
    Along (ChatService.Step chatLimits) twoRooms.server.service
        (seen (fun d : Session => d.server.service) Event.action run) ∧
      lastState twoRooms.server.service
          (seen (fun d : Session => d.server.service) Event.action run) =
        (lastState twoRooms run).server.service := by
  obtain ⟨run, hrun, hfits⟩ := annLeaves_run
  exact ⟨run, hrun, server_refines_service twoRooms_init (by decide) (rounds_along hrun) hfits⟩

/-- What the server holds of an id is what its own requests, with their answers, and the sweeps
tell, whatever the other clients do. -/
theorem member_view (id : UInt16) (hi : initServer config = .ok c.server) (hc : ConfigFits config)
    (hr : Along Step c run) (hfits : ∀ x ∈ run, x.1.NamesFit) :
    (lastState c run).server.service.member id =
      (run.filterMap fun x => x.1.action).foldl (fun p act => follow id act p) none := by
  obtain ⟨R, M, h⟩ := initServer_named hc hi
  have hboth := hr.and (along_labels hfits)
  have hrun := step_simulates.along ⟨[], R, M, h⟩ hboth
  have hlast := congrArg (fun s : Service UInt16 Bytes => s.member id)
    (step_simulates.last ⟨[], R, M, h⟩ hboth)
  have hnone : c.server.service.member id = none := h.inv.registry.member_none (by simp)
  rw [← hlast, ← hnone, ← seen_labels (f := fun d : Session => d.server.service)]
  exact run_follow hrun

/-- The second member is where its own requests have brought it, although the first one has come
and gone. -/
theorem member_view_annLeaves : ∃ run, rounds twoRooms annLeaves = .ok run ∧
    (lastState twoRooms run).server.service.member 2 =
      (run.filterMap fun x => x.1.action).foldl (fun p act => follow 2 act p) none := by
  obtain ⟨run, hrun, hfits⟩ := annLeaves_run
  exact ⟨run, hrun, member_view 2 twoRooms_init (by decide) (rounds_along hrun) hfits⟩

end Runs
end Csc469.Chat
