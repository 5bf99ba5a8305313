import Csc469.Chat.Served

/-! Runs of the server: requests, chat messages and sweeps in any order. -/
namespace Csc469.Chat

open Execution Linked

variable {s t : Server} {L R : List Nat} {M : Nat → List Nat} {a r : Nat} {env : Env}
  {msg : Bytes} {recv : Option Bytes} {reply : Option Reply} {id : UInt16}

/-- The server, the rooms it has announced with CREATE_ROOM_SUCC and not removed since, and
the members it has sent REGISTER_SUCC, with the id sent, that have not left since. -/
structure Session where
  server : Server
  announced : List Nat
  holders : List (UInt16 × Nat)

inductive Event where
  | control (env : Env) (recv : Option Bytes) (reply : Option Reply)
  | chat (recv : Option Bytes) (sent : List (Option Nat))
  | sweep

/-- The room whose creation a reply confirms. -/
def newRooms (env : Env) (recv : Option Bytes) (reply : Option Reply) : List Nat :=
  match recv, reply with
  | some msg, some r =>
    if msgType msg = createRoomRequest ∧ r.type = createRoomSucc then [env.addr] else []
  | _, _ => []

/-- The member whose registration a reply confirms. -/
def newHolders (env : Env) (reply : Option Reply) : List (UInt16 × Nat) :=
  match reply with
  | some r => if r.type = registerSucc then [(r.id, env.addr)] else []
  | none => []

/-- The id that a message asks to take off the server. -/
def quits (recv : Option Bytes) : Option UInt16 :=
  match recv with
  | some msg => if msgType msg = quitRequest then some (memberId msg) else none
  | none => none

namespace Event

def newRooms : Event → List Nat
  | control env recv reply => Chat.newRooms env recv reply
  | _ => []

def newHolders : Event → List (UInt16 × Nat)
  | control env _ reply => Chat.newHolders env reply
  | _ => []

/-- The member with this id may leave. -/
def Leaves (id : UInt16) : Event → Prop
  | control _ recv _ => quits recv = some id
  | chat _ _ => False
  | sweep => True

/-- Rooms may be removed. -/
def Removes : Event → Prop
  | sweep => True
  | _ => False

end Event

/-- The server is in state `t` next. What it has freed has been removed, or has left. -/
def Session.next (c : Session) (t : Server) (rooms : List Nat) (holders : List (UInt16 × Nat)) :
    Session :=
  { server := t
    announced := (rooms ++ c.announced).filter fun r => (t.rooms.load r).isSome
    holders := (holders ++ c.holders).filter fun x => (t.members.load x.2).isSome }

/-- One round of `main`: a control message, a chat message, or a timeout. -/
inductive Step : Session → Event → Session → Prop
  | control {c : Session} {env : Env} {recv : Option Bytes} {t : Server} {reply : Option Reply}
      (h : processControlMsg c.server env recv = .ok (t, reply)) :
    Step c (.control env recv reply) (c.next t (newRooms env recv reply) (newHolders env reply))
  | chat {c : Session} {recv : Option Bytes} {sent : List (Option Nat)} {t : Server}
      {ds : List Datagram} (h : processChatMsg c.server recv sent = .ok (t, ds)) :
    Step c (.chat recv sent) (c.next t [] [])
  | sweep {c : Session} {t : Server} (h : sweep c.server = .ok t) :
    Step c .sweep (c.next t [] [])

/-- `init_server` has run, on any configuration, and nothing else has. -/
structure Started (c : Session) : Prop where
  init : ∃ config, initServer config = .ok c.server
  announced : c.announced = []
  holders : c.holders = []

/-- What `select` reports. -/
inductive Op where
  | control (env : Env) (recv : Option Bytes)
  | chat (recv : Option Bytes) (sent : List (Option Nat))
  | sweep

/-- One round of `main` as a call. -/
def round (c : Session) : Op → Call (Event × Session)
  | .control env recv => do
    let (t, reply) ← processControlMsg c.server env recv
    .ok (.control env recv reply, c.next t (newRooms env recv reply) (newHolders env reply))
  | .chat recv sent => do
    let (t, _) ← processChatMsg c.server recv sent
    .ok (.chat recv sent, c.next t [] [])
  | .sweep => do
    let t ← sweep c.server
    .ok (.sweep, c.next t [] [])

def rounds : Session → List Op → Call (List (Event × Session))
  | _, [] => .ok []
  | c, op :: ops => do
    let x ← round c op
    let rest ← rounds x.2 ops
    .ok (x :: rest)

theorem round_step {c d : Session} {e : Event} {op : Op} (h : round c op = .ok (e, d)) :
    Step c e d := by
  cases op with
  | control env recv =>
    obtain ⟨⟨t, reply⟩, hp, h⟩ := ok_of_bind h
    cases h
    exact .control hp
  | chat recv sent =>
    obtain ⟨⟨t, ds⟩, hp, h⟩ := ok_of_bind h
    cases h
    exact .chat hp
  | sweep =>
    obtain ⟨t, hp, h⟩ := ok_of_bind h
    cases h
    exact .sweep hp

theorem rounds_along {c : Session} {ops : List Op} {run : List (Event × Session)}
    (h : rounds c ops = .ok run) : Along Step c run := by
  induction ops generalizing c run with
  | nil =>
    cases h
    trivial
  | cons op ops ih =>
    obtain ⟨x, hx, h⟩ := ok_of_bind h
    obtain ⟨rest, hrest, h⟩ := ok_of_bind h
    cases h
    exact ⟨round_step hx, ih hrest⟩

/-- What a message does to the member list and to the room list. -/
inductive Handled (s : Server) (L R : List Nat) (addr : Nat) (q : Option UInt16) (t : Server) :
    List Nat → List Nat → List Nat → List (UInt16 × Nat) → Prop
  | same (hids : ∀ a ∈ L, t.idAt a = s.idAt a) (htail : t.roomListTail = s.roomListTail) :
    Handled s L R addr q t L R [] []
  | joined {id : UInt16} (hfree : s.members.load addr = none) (hid : t.idAt addr = some id)
      (hids : ∀ a ∈ L, t.idAt a = s.idAt a) (htail : t.roomListTail = s.roomListTail) :
    Handled s L R addr q t (L ++ [addr]) R [] [(id, addr)]
  | left {a : Nat} (ha : a ∈ L) (hid : s.idAt a = q) (hgone : t.members.load a = none)
      (hids : ∀ b, b ≠ a → t.idAt b = s.idAt b) (htail : t.roomListTail = s.roomListTail) :
    Handled s L R addr q t (L.erase a) R [] []
  | created (hids : ∀ a ∈ L, t.idAt a = s.idAt a) (htail : t.roomListTail = some addr) :
    Handled s L R addr q t L (R ++ [addr]) [addr] []

theorem Created.handled {name : Bytes} {addr ret : Nat} {q : Option UInt16}
    (h : Inv s L R M)
    (hc : Created s R name addr t ret) : ∃ R' M', Inv t L R' M' ∧
      Handled s L R addr q t L R' (if ret = 0 then [addr] else []) [] := by
  cases hc with
  | tooLong => exact ⟨R, M, h, .same (fun _ _ => rfl) rfl⟩
  | tooMany hm => exact ⟨R, M, h.leakRoom hm, .same (fun _ _ => rfl) rfl⟩
  | «exists» hm => exact ⟨R, M, h.leakRoom hm, .same (fun _ _ => rfl) rfl⟩
  | created _ hmax _ ha =>
    refine ⟨_, _, ha.inv h hmax, .created (fun a _ => ?_) ha.roomListTail⟩
    rw [Server.idAt, ha.members]
    rfl

theorem Registered.handled {q : Option UInt16} (h : Inv s L R M)
    (hr : Registered s L R M env msg t reply) :
    ∃ L', Inv t L' R M ∧ Handled s L R env.addr q t L' R [] (newHolders env reply) := by
  have hleak : ∀ {members : Store Member},
      s.members.malloc env.addr (newMember msg env.peer) = .ok members →
        ∀ a ∈ L, { s with members := members }.idAt a = s.idAt a := by
    intro members hm a ha
    rw [Server.idAt, Store.malloc_kept hm (h.registry.alloc a ha)]
    rfl
  cases hr with
  | full => exact ⟨L, h, .same (fun _ _ => rfl) rfl⟩
  | noPeer hm => exact ⟨L, h.leakMember hm, .same (hleak hm) rfl⟩
  | nameUsed hm => exact ⟨L, h.leakMember hm, .same (hleak hm) rfl⟩
  | registered _ _ _ ha hinv =>
    refine ⟨_, hinv, .joined ha.free.1 ha.idAt (fun a hL => ?_) ha.roomListTail⟩
    refine Store.map_of_map (ha.other a ?_) Member.memberId
    rintro rfl
    have := h.registry.alloc _ hL
    simp [ha.free.1] at this

theorem Switched.handled {name : Bytes} {addr : Nat} {q : Option UInt16} (h : Inv s L R M)
    (hw : Switched s L R M a id name t reply) :
    ∃ M', Inv t L R M' ∧ Handled s L R addr q t L R [] (newHolders env reply) := by
  cases hw with
  | switched _ _ _ honly _ hinv =>
    refine ⟨_, hinv, .same (fun b _ => ?_) honly.roomListTail⟩
    exact Store.map_of_map (honly.members b) Member.memberId
  | _ => exact ⟨M, h, .same (fun _ _ => rfl) rfl⟩

theorem newRooms_of_ne (h : msgType msg ≠ createRoomRequest) :
    newRooms env (some msg) reply = [] := by
  cases reply with
  | none => rfl
  | some r => simp [newRooms, h]

theorem Handled.of_same {addr : Nat} {q : Option UInt16} {u : Server} {L' R' rooms : List Nat}
    {holders : List (UInt16 × Nat)} (hids : ∀ b, u.idAt b = s.idAt b)
    (htail : u.roomListTail = s.roomListTail)
    (hfree : u.members.load addr = none → s.members.load addr = none)
    (h : Handled u L R addr q t L' R' rooms holders) :
    Handled s L R addr q t L' R' rooms holders := by
  cases h with
  | same hi ht => exact .same (fun a ha => (hi a ha).trans (hids a)) (ht.trans htail)
  | joined hf hid hi ht =>
    exact .joined (hfree hf) hid (fun a ha => (hi a ha).trans (hids a)) (ht.trans htail)
  | left ha hid hgone hi ht =>
    exact .left ha ((hids _).symm.trans hid) hgone (fun a hb => (hi a hb).trans (hids a))
      (ht.trans htail)
  | created hi ht => exact .created (fun a ha => (hi a ha).trans (hids a)) ht

/-- A change to a member that the registry and its lists do not see. -/
theorem Handled.modify {u : Member → Member} {addr : Nat} {q : Option UInt16}
    {L' R' rooms : List Nat} {holders : List (UInt16 × Nat)}
    (h : Handled { s with members := s.members.modify a u } L R addr q t L' R' rooms holders)
    (hi : ∀ mt, (u mt).identity = mt.identity) :
    Handled s L R addr q t L' R' rooms holders := by
  have hagree : Store.Agree Member.identity s.members (s.members.modify a u) :=
    Store.agree_modify hi
  have hids : ∀ b, { s with members := s.members.modify a u }.idAt b = s.idAt b := by
    intro b
    exact Store.map_of_map (hagree b) Prod.fst
  refine h.of_same hids rfl fun hf => ?_
  have hsome := Store.isSome_of_map (hagree addr)
  have hf : (s.members.modify a u).load addr = none := hf
  rw [hf] at hsome
  cases hl : s.members.load addr with
  | none => rfl
  | some v =>
    rw [hl] at hsome
    cases hsome

/-- The reply to an invalid id is not taken for one that confirms a registration, or the
creation of a room that was asked for. -/
theorem reply_type {type : UInt16} (h : roomListRequest ≤ type ∧ type ≤ quitRequest) :
    (type = createRoomRequest ∧ type + 2 = createRoomSucc) = False ∧
      (type + 2 = registerSucc) = False := by
  obtain ⟨hlo, hhi⟩ := h
  have hlo := UInt16.le_iff_toNat_le.mp hlo
  have hhi := UInt16.le_iff_toNat_le.mp hhi
  refine ⟨eq_false ?_, eq_false fun he => ?_⟩
  · rintro ⟨rfl, he⟩
    exact absurd he (by decide)
  · have := congrArg UInt16.toNat he
    rw [UInt16.toNat_add] at this
    simp [roomListRequest, quitRequest, registerSucc] at hlo hhi this
    omega

theorem Served.handled (h : Inv s L R M) (hs : Served s L R M env recv t reply) :
    ∃ L' R' M', Inv t L' R' M' ∧ Handled s L R env.addr (quits recv) t L' R'
      (newRooms env recv reply) (newHolders env reply) := by
  cases hs with
  | unread => exact ⟨L, R, M, h, .same (fun _ _ => rfl) rfl⟩
  | unknownId htype =>
    obtain ⟨hne, hne'⟩ := reply_type htype
    refine ⟨L, R, M, h, ?_⟩
    simp only [newRooms, newHolders, hne, hne', if_false]
    exact .same (fun _ _ => rfl) rfl
  | answered htype ha hid hcreate hreply =>
    have hholders : newHolders env reply = [] := by
      cases reply with
      | none => rfl
      | some r =>
        rw [newHolders, if_neg]
        rcases hreply r rfl with hr | hr | hr | hr <;> rw [hr] <;> decide
    rw [newRooms_of_ne hcreate, hholders]
    exact ⟨L, R, M, h.touch, .same (fun b _ => idAt_touch b) rfl⟩
  | switched htype ha hid hw =>
    obtain ⟨M', hinv, hh⟩ := hw.handled h.touch
    rw [newRooms_of_ne (by rw [htype]; decide)]
    exact ⟨L, R, M', hinv, hh.modify fun _ => rfl⟩
  | @created msg a ret t r htype ha hid hc hreply =>
    obtain ⟨R', M', hinv, hh⟩ := hc.handled (q := quits (some msg)) h.touch
    have hrooms : newRooms env (some msg) (some r) = if ret = 0 then [env.addr] else [] := by
      rw [newRooms, htype, hreply]
      by_cases h0 : ret = 0 <;> simp [h0, createRoomSucc, createRoomFail]
    have hholders : newHolders env (some r) = [] := by
      rw [newHolders, if_neg]
      rw [hreply]
      split <;> decide
    rw [hrooms, hholders]
    exact ⟨L, R', M', hinv, hh.modify fun _ => rfl⟩
  | @left msg a t M' htype ha hid hd hinv =>
    rw [newRooms_of_ne (by rw [htype]; decide)]
    refine ⟨_, R, M', hinv, .left ha ?_ hd.gone (fun b hb => ?_) hd.roomListTail⟩
    · rw [hid, quits, if_pos htype]
    · exact (Store.map_of_map (hd.members b hb) Member.memberId).trans (idAt_touch b)
  | registered htype hr =>
    obtain ⟨L', hinv, hh⟩ := hr.handled h
    rw [newRooms_of_ne (by rw [htype]; decide)]
    exact ⟨L', R, M, hinv, hh⟩
  | ignored => exact ⟨L, R, M, h, .same (fun _ _ => rfl) rfl⟩

/-- Every control message is handled. -/
theorem processControlMsg_handled (h : Inv s L R M)
    (hp : processControlMsg s env recv = .ok (t, reply)) : ∃ L' R' M', Inv t L' R' M' ∧
      Handled s L R env.addr (quits recv) t L' R' (newRooms env recv reply)
        (newHolders env reply) :=
  (processControlMsg_served h hp).handled h

/-- A chat message changes no list. -/
theorem processChatMsg_handled {sent : List (Option Nat)} {ds : List Datagram} (h : Inv s L R M)
    (hp : processChatMsg s recv sent = .ok (t, ds)) :
    Inv t L R M ∧ Handled s L R 0 none t L R [] [] := by
  cases recv with
  | none =>
    cases hp
    exact ⟨h, .same (fun _ _ => rfl) rfl⟩
  | some msg =>
    rcases processChatMsg_heard h.registry hp with ⟨rfl, -⟩ | ⟨a, -, -, rfl⟩
    · exact ⟨h, .same (fun _ _ => rfl) rfl⟩
    · refine ⟨h.modifyMember _ (fun _ => rfl) (fun _ => rfl), Handled.modify (.same ?_ rfl) ?_⟩
      · exact fun _ _ => rfl
      · exact fun _ => rfl

/-- What a sweep leaves of the members and of the rooms. -/
structure SweepDone (s : Server) (L R : List Nat) (t : Server) : Prop where
  gone : ∀ a ∈ L, s.quietAt a ≠ some 0 → t.members.load a = none
  ids : ∀ a ∈ L, s.quietAt a = some 0 → t.idAt a = s.idAt a
  roomGone : ∀ r ∈ R, s.emptyFlagAt r ≠ some 0 → t.rooms.load r = none
  tailLost : ∀ r, R.getLast? = some r → s.emptyFlagAt r ≠ some 0 → t.roomListTail = none
  tailKept : (∀ r, R.getLast? = some r → s.emptyFlagAt r = some 0) →
    t.roomListTail = s.roomListTail

/-- A sweep over the members, and then over the rooms. -/
theorem sweep_swept (h : Inv s L R M) : ∃ u t M', sweep s = .ok t ∧ Swept s L u ∧
    RoomsSwept u R t ∧
    Inv t (L.filter fun a => s.quietAt a = some 0) (R.filter fun r => s.emptyFlagAt r = some 0) M' := by
  have hnil : Inv s ([] ++ L) R M := h
  obtain ⟨u, M', hu, hinv, hs⟩ := sweepMembers_ok hnil
    (Store.length_le_used h.registry.nodup h.registry.alloc)
  rw [← h.registry.list.head_eq] at hu
  rw [List.nil_append] at hinv
  have hflag : ∀ r, u.emptyFlagAt r = s.emptyFlagAt r := hs.emptyFlag
  have hnil' : Inv u (L.filter fun a => s.quietAt a = some 0) ([] ++ R) M' := hinv
  obtain ⟨t, ht, hinv', hr⟩ := sweepRooms_ok hnil'
    (Store.length_le_used hinv.roomList.nodup hinv.roomList.alloc)
  rw [← hinv.roomList.chain.head_eq] at ht
  simp only [List.nil_append, hflag] at hinv'
  refine ⟨u, t, M', ?_, hs, hr, hinv'⟩
  simp only [sweep, hu, bind, Except.bind, ht]

/-- A sweep succeeds: the quiet members go, and the rooms that were empty at the last one. -/
theorem sweep_ok (h : Inv s L R M) : ∃ t M', sweep s = .ok t ∧
    Inv t (L.filter fun a => s.quietAt a = some 0) (R.filter fun r => s.emptyFlagAt r = some 0) M' ∧
    SweepDone s L R t := by
  obtain ⟨u, t, M', ht, hs, hr, hinv⟩ := sweep_swept h
  have hflag : ∀ r, u.emptyFlagAt r = s.emptyFlagAt r := hs.emptyFlag
  have hload : ∀ a, t.members.load a = u.members.load a := by
    intro a
    rw [hr.members]
  refine ⟨t, M', ht, hinv, ⟨fun a ha hq => ?_, fun a ha hq => ?_, fun r hR he => ?_,
    fun r hR he => ?_, fun hk => ?_⟩⟩
  · rw [hload a]
    exact hs.gone a ha hq
  · rw [Server.idAt, hload a]
    have hid := congrArg (Option.map Member.memberId) (hs.kept a ha hq)
    rw [Option.map_map, Option.map_map] at hid
    exact hid
  · exact hr.gone r hR (by rwa [hflag r])
  · exact hr.tailLost r hR (by rwa [hflag r])
  · rw [hr.tailKept fun r hR => (hflag r).trans (hk r hR), hs.roomListTail]

section Sessions
variable {c d : Session} {e : Event}

/-- The lists are as between requests, and the records of what was announced agree. -/
structure Sound (c : Session) (L R : List Nat) (M : Nat → List Nat) : Prop where
  inv : Inv c.server L R M
  holders : ∀ id a, (id, a) ∈ c.holders ↔ a ∈ L ∧ c.server.idAt a = some id
  announced : ∀ r ∈ c.announced, r ∈ R

theorem idAt_isSome (h : s.idAt a = some id) : (s.members.load a).isSome := by
  cases hl : s.members.load a with
  | none => simp [Server.idAt, hl] at h
  | some mt => rfl

theorem Handled.sound {addr : Nat} {q : Option UInt16} {L' R' rooms : List Nat}
    {M' : Nat → List Nat} {holders : List (UInt16 × Nat)} (h : Sound c L R M)
    (ht : Inv t L' R' M') (hh : Handled c.server L R addr q t L' R' rooms holders) :
    Sound (c.next t rooms holders) L' R' M' := by
  have hmem : ∀ id a, (id, a) ∈ (c.next t rooms holders).holders ↔
      ((id, a) ∈ holders ∨ (a ∈ L ∧ c.server.idAt a = some id)) ∧
        (t.members.load a).isSome := by
    intro id a
    simp [Session.next, h.holders, or_and_right]
  have hrooms : ∀ r ∈ (c.next t rooms holders).announced, r ∈ rooms ∨ r ∈ R := by
    intro r hr
    simp only [Session.next, List.mem_filter, List.mem_append] at hr
    rcases hr.1 with hr | hr
    · exact .inl hr
    · exact .inr (h.announced r hr)
  refine ⟨ht, fun id a => ?_, fun r hr => ?_⟩
  · rw [hmem id a]
    show _ ↔ a ∈ L' ∧ t.idAt a = some id
    cases hh with
    | same hids | created hids =>
      constructor
      · rintro ⟨hm | ⟨ha, he⟩, -⟩
        · cases hm
        · exact ⟨ha, (hids a ha).trans he⟩
      · rintro ⟨ha, he⟩
        exact ⟨.inr ⟨ha, (hids a ha).symm.trans he⟩, idAt_isSome he⟩
    | @joined id' hfree hid hids =>
      constructor
      · rintro ⟨hm | ⟨ha, he⟩, -⟩
        · cases List.mem_singleton.mp hm
          exact ⟨by simp, hid⟩
        · exact ⟨by simp [ha], (hids a ha).trans he⟩
      · rintro ⟨ha, he⟩
        refine ⟨?_, idAt_isSome he⟩
        rcases List.mem_append.mp ha with ha | ha
        · exact .inr ⟨ha, (hids a ha).symm.trans he⟩
        · obtain rfl := List.mem_singleton.mp ha
          cases hid.symm.trans he
          exact .inl (by simp)
    | @left x hx hid hgone hids =>
      rw [h.inv.registry.nodup.mem_erase_iff]
      constructor
      · rintro ⟨hm | ⟨ha, he⟩, hsome⟩
        · cases hm
        · have hax : a ≠ x := by
            rintro rfl
            rw [hgone] at hsome
            cases hsome
          exact ⟨⟨hax, ha⟩, (hids a hax).trans he⟩
      · rintro ⟨⟨hax, ha⟩, he⟩
        exact ⟨.inr ⟨ha, (hids a hax).symm.trans he⟩, idAt_isSome he⟩
  · have hnew := hrooms r hr
    cases hh with
    | created => simpa [or_comm] using hnew
    | _ => simpa using hnew

theorem SweepDone.sound {M' : Nat → List Nat} (h : Sound c L R M)
    (ht : Inv t (L.filter fun a => c.server.quietAt a = some 0)
      (R.filter fun r => c.server.emptyFlagAt r = some 0) M') (hd : SweepDone c.server L R t) :
    Sound (c.next t [] []) (L.filter fun a => c.server.quietAt a = some 0)
      (R.filter fun r => c.server.emptyFlagAt r = some 0) M' := by
  refine ⟨ht, fun id a => ?_, fun r hr => ?_⟩
  · have hmem : (id, a) ∈ (c.next t [] []).holders ↔
        (a ∈ L ∧ c.server.idAt a = some id) ∧ (t.members.load a).isSome := by
      simp [Session.next, h.holders]
    rw [hmem, List.mem_filter, decide_eq_true_eq]
    show _ ↔ _ ∧ t.idAt a = some id
    constructor
    · rintro ⟨⟨ha, he⟩, hsome⟩
      have hq : c.server.quietAt a = some 0 := by
        by_contra hq
        rw [hd.gone a ha hq] at hsome
        cases hsome
      exact ⟨⟨ha, hq⟩, (hd.ids a ha hq).trans he⟩
    · rintro ⟨⟨ha, hq⟩, he⟩
      exact ⟨⟨ha, (hd.ids a ha hq).symm.trans he⟩, idAt_isSome he⟩
  · simp only [Session.next, List.nil_append, List.mem_filter] at hr
    have hR := h.announced r hr.1
    refine List.mem_filter.mpr ⟨hR, decide_eq_true ?_⟩
    by_contra he
    have hsome := hr.2
    rw [hd.roomGone r hR he] at hsome
    cases hsome

/-- What was confirmed to clients stays so: a member leaves by a quit message with its id or
in a sweep, a room is removed in a sweep. -/
structure Kept (c : Session) (e : Event) (d : Session) : Prop where
  confirmed : ∀ x ∈ e.newHolders, x ∈ d.holders
  holders : ∀ x ∈ c.holders, x ∈ d.holders ∨ e.Leaves x.1
  created : ∀ r ∈ e.newRooms, r ∈ d.announced
  announced : ∀ r ∈ c.announced, r ∈ d.announced ∨ e.Removes

/-- A message keeps all but the member that quits. -/
theorem Handled.kept {addr : Nat} {q : Option UInt16} {L' R' rooms : List Nat}
    {M' : Nat → List Nat} {holders : List (UInt16 × Nat)} (h : Sound c L R M)
    (hn : Sound (c.next t rooms holders) L' R' M')
    (hh : Handled c.server L R addr q t L' R' rooms holders) :
    (∀ x ∈ holders, x ∈ (c.next t rooms holders).holders) ∧
      (∀ x ∈ c.holders, x ∈ (c.next t rooms holders).holders ∨ q = some x.1) ∧
      ∀ r, r ∈ rooms ∨ r ∈ c.announced → r ∈ (c.next t rooms holders).announced := by
  refine ⟨fun ⟨id, a⟩ hx => ?_, fun ⟨id, a⟩ hx => ?_, fun r hr => ?_⟩
  · rw [hn.holders]
    cases hh with
    | joined _ hid =>
      cases List.mem_singleton.mp hx
      exact ⟨by simp, hid⟩
    | _ => cases hx
  · rw [hn.holders]
    obtain ⟨ha, he⟩ := (h.holders id a).mp hx
    cases hh with
    | same hids => exact .inl ⟨ha, (hids a ha).trans he⟩
    | created hids => exact .inl ⟨ha, (hids a ha).trans he⟩
    | joined _ _ hids => exact .inl ⟨by simp [ha], (hids a ha).trans he⟩
    | @left x hx hid _ hids =>
      by_cases hax : a = x
      · right
        rw [← hid, ← hax, he]
      · exact .inl ⟨(List.mem_erase_of_ne hax).mpr ha, (hids a hax).trans he⟩
  · have hR' : r ∈ R' := by
      rcases hr with hr | hr
      · cases hh with
        | created => exact List.mem_append_right _ hr
        | _ => cases hr
      · have hR := h.announced r hr
        cases hh with
        | created => exact List.mem_append_left _ hR
        | _ => exact hR
    refine List.mem_filter.mpr ⟨?_, hn.inv.roomList.alloc r hR'⟩
    exact List.mem_append.mpr hr

/-- The sweep does not take the last room away from rooms that stay. -/
def LastRoomStays (s : Server) : Prop :=
  ∀ R, Chain s.nextRoomAt s.roomListHead R →
    (∀ r, R.getLast? = some r → s.emptyFlagAt r = some 0) ∨ ∀ r ∈ R, s.emptyFlagAt r ≠ some 0

/-- The step does not lose the tail of the room list. -/
def KeepsTail (s : Server) : Event → Prop
  | .sweep => LastRoomStays s
  | _ => True

theorem Handled.tail {addr : Nat} {q : Option UInt16} {L' R' rooms : List Nat}
    {holders : List (UInt16 × Nat)} (hh : Handled s L R addr q t L' R' rooms holders)
    (ht : s.roomListTail = R.getLast?) :
    t.roomListTail = R'.getLast? := by
  cases hh with
  | created _ htail => rw [htail, List.getLast?_concat]
  | same _ htail => rw [htail, ht]
  | joined _ _ _ htail => rw [htail, ht]
  | left _ _ _ _ htail => rw [htail, ht]

/-- After a sweep the tail pointer is right exactly when the last room stayed, or no room
did. -/
theorem SweepDone.tail_iff (h : RoomList s R) (hd : SweepDone s L R t)
    (ht : s.roomListTail = R.getLast?) :
    t.roomListTail = (R.filter fun r => s.emptyFlagAt r = some 0).getLast? ↔ LastRoomStays s := by
  have hstay : LastRoomStays s ↔
      (∀ r, R.getLast? = some r → s.emptyFlagAt r = some 0) ∨
        ∀ r ∈ R, s.emptyFlagAt r ≠ some 0 := by
    constructor
    · intro hl
      exact hl R h.chain
    · intro hl R' hR'
      rwa [Chain.unique hR' h.chain]
  rw [hstay]
  rcases List.eq_nil_or_concat' R with rfl | ⟨l, z, rfl⟩
  · rw [hd.tailKept (by simp), ht]
    simp
  · by_cases hz : s.emptyFlagAt z = some 0
    · have hk : ∀ r, (l ++ [z]).getLast? = some r → s.emptyFlagAt r = some 0 := by
        simpa using hz
      rw [hd.tailKept hk, ht]
      simp [hz]
    · rw [hd.tailLost z (by simp) hz]
      constructor
      · intro he
        have hnone := List.filter_eq_nil_iff.mp (List.getLast?_eq_none_iff.mp he.symm)
        exact .inr fun r hr => by simpa using hnone r hr
      · rintro (hk | hall)
        · exact (hz (hk z (by simp))).elim
        · refine (List.getLast?_eq_none_iff.mpr (List.filter_eq_nil_iff.mpr fun r hr => ?_)).symm
          simpa using hall r hr

/-- What one step does to the lists. -/
theorem step_sound (hs : Step c e d) (h : Sound c L R M) : ∃ L' R' M', Sound d L' R' M' ∧
    Kept c e d ∧ (c.server.roomListTail = R.getLast? →
      (d.server.roomListTail = R'.getLast? ↔ KeepsTail c.server e)) := by
  cases hs with
  | control hp =>
    obtain ⟨L', R', M', ht, hh⟩ := processControlMsg_handled h.inv hp
    have hn := hh.sound h ht
    obtain ⟨h1, h2, h3⟩ := hh.kept h hn
    refine ⟨L', R', M', hn, ⟨h1, h2, fun r hr => h3 r (.inl hr), fun r hr => .inl (h3 r (.inr hr))⟩,
      fun htail => iff_of_true (hh.tail htail) trivial⟩
  | chat hp =>
    obtain ⟨ht, hh⟩ := processChatMsg_handled h.inv hp
    have hn := hh.sound h ht
    obtain ⟨h1, h2, h3⟩ := hh.kept h hn
    refine ⟨L, R, M, hn, ⟨h1, fun x hx => .inl ?_, fun r hr => h3 r (.inl hr),
      fun r hr => .inl (h3 r (.inr hr))⟩, fun htail => iff_of_true (hh.tail htail) trivial⟩
    simpa using h2 x hx
  | sweep hp =>
    obtain ⟨t, M', ht, hinv, hd⟩ := sweep_ok h.inv
    cases ht.symm.trans hp
    refine ⟨_, _, M', hd.sound h hinv, ⟨?_, ?_, ?_, ?_⟩,
      fun htail => hd.tail_iff h.inv.roomList htail⟩
    · exact fun _ hx => nomatch hx
    · exact fun _ _ => .inr trivial
    · exact fun _ hr => nomatch hr
    · exact fun _ _ => .inr trivial

theorem createRooms_sound {config : List (Bytes × Nat)} (h : Inv s L R M)
    (ht : s.roomListTail = R.getLast?) (hc : createRooms s config = .ok t) :
    ∃ R' M', Inv t L R' M' ∧ t.roomListTail = R'.getLast? := by
  induction config generalizing s R M with
  | nil =>
    cases hc
    exact ⟨R, M, h, ht⟩
  | cons x config ih =>
    obtain ⟨u, hu, hc⟩ := ok_of_bind hc
    obtain ⟨⟨v, ret⟩, hv, hu⟩ := ok_of_bind hu
    cases hu
    obtain ⟨R', M', hinv, hh⟩ := (createRoom_created h hv).handled (q := none) h
    exact ih hinv (hh.tail ht) hc

theorem inv_empty : Inv .empty [] [] fun _ => [] := by
  refine ⟨?_, ?_, ?_⟩
  · refine ⟨.nil, rfl, ?_, rfl, ?_, ?_, ?_, ?_⟩ <;> simp
  · refine ⟨rfl, ?_, .inl rfl, rfl, ?_⟩ <;> simp
  · refine ⟨⟨?_, ?_⟩, ?_, ?_, ?_, ?_, ?_, ?_⟩ <;> simp

theorem initServer_sound {config : List (Bytes × Nat)} (hi : initServer config = .ok s) :
    ∃ R M, Inv s [] R M ∧ s.roomListTail = R.getLast? := by
  exact createRooms_sound inv_empty rfl hi

theorem Started.sound (h : Started c) :
    ∃ R M, Sound c [] R M ∧ c.server.roomListTail = R.getLast? := by
  obtain ⟨config, hi⟩ := h.init
  obtain ⟨R, M, hinv, ht⟩ := initServer_sound hi
  refine ⟨R, M, ⟨hinv, ?_, ?_⟩, ht⟩
  · simp [h.holders]
  · simp [h.announced]

end Sessions
end Csc469.Chat
