import Csc469.Chat.Heartbeat
import Csc469.Chat.NameBuffer
import Csc469.Chat.Outcomes

/-! `client_main.c`: `init_client` and `reconnect`, with the servers that they find. -/
namespace Csc469.Chat

open Execution Retry

def maxRetries : Nat := 5

/-- The globals of the client between its requests. -/
structure Globals where
  naming : Naming
  memberId : UInt16
  lastChannel : Bytes
  clientUdpPort : UInt16

def Globals.client (g : Globals) : Client := ⟨g.memberId, g.naming.memberName, g.lastChannel⟩

/-- A request, and what happens at the server before it arrives there. -/
def arriving (serve : Server → Delivery → Call (Server × Option Reply)) (s : Server)
    (x : Arrival) : Call (Server × Option Reply) := do
  let s ← changes s x.before
  serve s x.delivery

/-- `handle_register_req`. -/
def registerReq (g : Globals) (outcomes : Vector (Attempt Arrival) tcpRetries) (s : Server) :
    Call (Server × Globals × Int) := do
  let q := ClientRequest.register g.clientUdpPort
  let (s, res, ret) ← q.handle (arriving (q.serve g.client)) outcomes s
  match res with
  | some res => .ok (s, if ret = 0 then { g with memberId := memberId res } else g, ret)
  | none => .ok (s, g, ret)

/-- `strcpy` into `last_channel`, where 24 characters leave no room for the terminator. -/
def setLastChannel (g : Globals) (roomName : Bytes) : Call Globals :=
  if roomName.length < maxRoomNameLen then .ok { g with lastChannel := roomName }
  else .error .fault

/-- `handle_switch_room_req`. -/
def switchRoomReq (g : Globals) (roomName : Bytes)
    (outcomes : Vector (Attempt Arrival) tcpRetries) (s : Server) :
    Call (Server × Globals × Int) := do
  let q := ClientRequest.switchRoom roomName
  let (s, _, ret) ← q.handle (arriving (q.serve g.client)) outcomes s
  if ret = 0 then
    let g ← setLastChannel g roomName
    .ok (s, g, ret)
  else .ok (s, g, ret)

/-- Step 4 of `init_client`, with the outcomes of its registrations. -/
def registerUntil (g : Globals) (suffix : Nat) :
    List (Vector (Attempt Arrival) tcpRetries) → Server → Call (Server × Globals × Option Ending)
  | [], s => .ok (s, g, none)
  | outcomes :: rest, s => do
    let (s, g, ret) ← registerReq g outcomes s
    if ret = 0 then .ok (s, g, some .connected)
    else if ret = -1 then .ok (s, g, some .shutdown)
    else if ret = -2 then .ok (s, g, some .disconnected)
    else
      match ← retryName g.naming suffix with
      | none => .ok (s, g, some .shutdown)
      | some n => registerUntil { g with naming := n } (suffix + 1) rest s

/-- What one turn of the loop of `reconnect` meets: the server it finds, if it finds a host, and
how the requests to it end. -/
structure Found where
  server : Option Server
  registrations : List (Vector (Attempt Arrival) tcpRetries)
  rejoin : Vector (Attempt Arrival) tcpRetries

/-- Why the loop of `reconnect` goes on: `init_client` returned -2, or the client was disconnected
again before it was back in its room. -/
inductive Setback where
  | notConnected
  | lostAgain
  deriving DecidableEq

/-- How `reconnect` ends: it returns, it shuts down after its last retry, `init_client` shuts down,
or `init_client` exits. It is still waiting when there is nothing more to meet. -/
inductive Reconnected where
  | returned (s : Server)
  | gaveUp
  | shutdown
  | exited
  | pending

/-- The loop of `reconnect`, with `connect_retries`. -/
def reconnectLoop : List Found → Nat → Globals → Call (List Setback × Globals × Reconnected)
  | _, 0, g => .ok ([], g, .gaveUp)
  | [], _ + 1, g => .ok ([], g, .pending)
  | x :: rest, retries + 1, g =>
    match x.server with
    | none => .ok ([], g, .exited)
    | some s => do
      let (s, g, ending) ← registerUntil g 1 x.registrations s
      match ending with
      | none => .ok ([], g, .pending)
      | some .shutdown => .ok ([], g, .shutdown)
      | some .disconnected =>
        let (setbacks, g, ending) ← reconnectLoop rest retries g
        .ok (.notConnected :: setbacks, g, ending)
      | some .connected =>
        if g.lastChannel = [] then .ok ([], g, .returned s)
        else do
          let (s, g, ret) ← switchRoomReq g g.lastChannel x.rejoin s
          if ret = -1 then .ok ([], { g with lastChannel := [] }, .returned s)
          else if ret = -2 then
            let (setbacks, g, ending) ← reconnectLoop rest maxRetries g
            .ok (.lostAgain :: setbacks, g, ending)
          else .ok ([], g, .returned s)

/-- `reconnect`. -/
def reconnect (found : List Found) (g : Globals) : Call (List Setback × Globals × Reconnected) :=
  reconnectLoop found maxRetries g

/-- The globals are C strings in their buffers. -/
structure GlobalsFit (g : Globals) : Prop where
  naming : Buffered g.naming
  short : g.lastChannel.length < maxRoomNameLen
  terminated : 0 ∉ g.lastChannel

/-- The client is registered at the server under its name, as far as the name arrives. -/
def Enrolled (g : Globals) (s : Server) : Prop :=
  RegisteredAs s g.memberId (registerName g.clientUdpPort g.naming.memberName)

variable {s t : Server} {g g' : Globals} {q : ClientRequest} {c : Client} {ret : Int}
  {res : Option Bytes} {outcomes : Vector (Attempt Arrival) tcpRetries} {roomName : Bytes}
  {accepts : Server → Delivery → Prop} {Effect : Server → Reply → Prop} {k : Nat}
  {registrations : List (Vector (Attempt Arrival) tcpRetries)} {ending : Option Ending}

theorem returned_eq_zero {res : Bytes} (h : q.returned (some res) = 0) : msgType res = q.succ := by
  by_contra hne
  cases q with
  | register port =>
    rw [ClientRequest.returned, if_neg hne] at h
    split at h <;> cases h
  | _ => simp [ClientRequest.returned, hne] at h

theorem arriving_settled {x : Arrival} {reply : Option Reply} (hs : Settled s)
    (hserve : ∀ {s d t r}, Settled s → q.serve c s d = .ok (t, r) → Settled t)
    (h : arriving (q.serve c) s x = .ok (t, reply)) : Settled t := by
  obtain ⟨u, hu, h⟩ := ok_of_bind h
  exact hserve (changes_settled hs hu) h

/-- When a request returns 0, the last server state is one that the confirmation speaks of. -/
theorem handle_confirmed (hq : AcceptsOnce (q.serve c) Settled Unchanged accepts
      (fun x => x.type = q.succ) Effect) (hs : Settled s)
    (h : q.handle (arriving (q.serve c)) outcomes s = .ok (t, res, ret)) :
    Settled t ∧ (ret = 0 → ∃ x, res = some (receiveCtrlMsg (Reply.wire x)) ∧ Effect t x) := by
  have hkeep : ∀ {s x t r}, Settled s → arriving (q.serve c) s x = .ok (t, r) → Settled t :=
    fun hs h => arriving_settled hs hq.keeps h
  obtain ⟨⟨u, answer⟩, ha, h⟩ := ok_of_bind h
  cases h
  refine ⟨attempts_invariant hkeep hs ha, fun hret => ?_⟩
  cases answer with
  | none => exact absurd hret (by simp [ClientRequest.returned])
  | some answer =>
    have htype : (answer.map Reply.type).getD 0 = q.succ := by
      rw [← msgType_answer]
      exact returned_eq_zero hret
    cases answer with
    | none => exact absurd htype (by cases q <;> simp only [ClientRequest.succ] <;> decide)
    | some x =>
      rcases attempts_answering hkeep hs ha with ⟨-, hnone⟩ | ⟨d, s', -, hs', hserve⟩
      · cases hnone
      · obtain ⟨v, hv, hserve⟩ := ok_of_bind hserve
        exact ⟨x, rfl, hq.confirmed (changes_settled hs' hv) hserve htype⟩

theorem registerReq_spec (hs : Settled s) (hg : Fits g.naming.memberName)
    (h : registerReq g outcomes s = .ok (t, g', ret)) :
    Settled t ∧ g'.naming = g.naming ∧ g'.lastChannel = g.lastChannel ∧
      (ret = 0 → Enrolled g' t) := by
  obtain ⟨⟨u, res, ret'⟩, hh, h⟩ := ok_of_bind h
  obtain ⟨ht, hzero⟩ := handle_confirmed (q := .register g.clientUdpPort)
    (register_acceptsOnce (c := g.client) hg.length hg.terminated) hs hh
  cases res with
  | none =>
    cases h
    refine ⟨ht, rfl, rfl, fun hret => ?_⟩
    obtain ⟨x, hx, -⟩ := hzero hret
    cases hx
  | some res =>
    cases h
    split
    · next hret =>
      obtain ⟨x, hx, heffect⟩ := hzero hret
      cases hx
      refine ⟨ht, rfl, rfl, fun _ => ?_⟩
      rw [Enrolled]
      simp only [memberId_receiveCtrlMsg]
      exact heffect
    · next hret => exact ⟨ht, rfl, rfl, fun h0 => (hret h0).elim⟩

theorem setLastChannel_ok (h : setLastChannel g roomName = .ok g') :
    roomName.length < maxRoomNameLen ∧ g' = { g with lastChannel := roomName } := by
  by_cases hlen : roomName.length < maxRoomNameLen
  · rw [setLastChannel, if_pos hlen] at h
    exact ⟨hlen, (Except.ok.inj h).symm⟩
  · rw [setLastChannel, if_neg hlen] at h
    cases h

theorem switchRoomReq_spec (hs : Settled s) (hlen : roomName.length ≤ maxRoomNameLen)
    (h0 : 0 ∉ roomName) (h : switchRoomReq g roomName outcomes s = .ok (t, g', ret)) :
    Settled t ∧ (ret = 0 ∧ roomName.length < maxRoomNameLen ∧
        g' = { g with lastChannel := roomName } ∧ InRoom t g.memberId roomName ∨
      (ret = -1 ∨ ret = -2) ∧ g' = g) := by
  obtain ⟨⟨u, res, ret'⟩, hh, h⟩ := ok_of_bind h
  obtain ⟨ht, hzero⟩ := handle_confirmed (q := .switchRoom roomName) (c := g.client)
    (switchRoom_acceptsOnce hlen h0) hs hh
  have hret : ret' = 0 ∨ ret' = -1 ∨ ret' = -2 := by
    obtain ⟨⟨v, answer⟩, -, hh⟩ := ok_of_bind hh
    cases hh
    cases answer with
    | none => exact .inr (.inr rfl)
    | some answer =>
      by_cases htype : msgType (receiveCtrlMsg ((answer.map Reply.wire).getD [])) = switchRoomSucc
      · exact .inl (if_pos htype)
      · exact .inr (.inl (if_neg htype))
  dsimp only at h
  rcases hret with rfl | hret
  · rw [if_pos rfl] at h
    obtain ⟨g₁, hset, h⟩ := ok_of_bind h
    cases h
    obtain ⟨hshort, rfl⟩ := setLastChannel_ok hset
    obtain ⟨x, -, heffect⟩ := hzero rfl
    exact ⟨ht, .inl ⟨rfl, hshort, rfl, heffect⟩⟩
  · have hne : ret' ≠ 0 := by rcases hret with rfl | rfl <;> decide
    rw [if_neg hne] at h
    cases h
    exact ⟨ht, .inr ⟨hret, rfl⟩⟩

theorem GlobalsFit.congr (hg : GlobalsFit g) (hnaming : g'.naming = g.naming)
    (hchannel : g'.lastChannel = g.lastChannel) : GlobalsFit g' :=
  ⟨hnaming ▸ hg.naming, hchannel ▸ hg.short, hchannel ▸ hg.terminated⟩

theorem GlobalsFit.inNoRoom (h : Buffered g.naming) (hnil : g.lastChannel = []) : GlobalsFit g := by
  refine ⟨h, ?_, ?_⟩ <;> rw [hnil]
  · decide
  · exact List.not_mem_nil

/-- Whatever becomes of the registrations, the globals still fit; a connected client is
registered. -/
theorem registerUntil_spec (hs : Settled s) (hg : GlobalsFit g) (hf : Follows g.naming k)
    (hk : 1 ≤ k) (h : registerUntil g k registrations s = .ok (t, g', ending)) :
    Settled t ∧ GlobalsFit g' ∧ g'.lastChannel = g.lastChannel ∧
      (ending = some .connected → Enrolled g' t) := by
  induction registrations generalizing s g k with
  | nil =>
    cases h
    exact ⟨hs, hg, rfl, fun he => by cases he⟩
  | cons outcomes rest ih =>
    obtain ⟨⟨u, g₁, ret⟩, hr, h⟩ := ok_of_bind h
    obtain ⟨hu, hnaming, hchannel, hzero⟩ := registerReq_spec hs hg.naming.fits hr
    have hg₁ := hg.congr hnaming hchannel
    dsimp only at h
    split at h
    · next hret =>
      cases h
      exact ⟨hu, hg₁, hchannel, fun _ => hzero hret⟩
    split at h
    · cases h
      exact ⟨hu, hg₁, hchannel, fun he => by cases he⟩
    split at h
    · cases h
      exact ⟨hu, hg₁, hchannel, fun he => by cases he⟩
    rcases retryName_total hg₁.naming (hnaming ▸ hf) hk with hnone | ⟨n, hn, hfits, hfollows, -⟩
    · rw [hnone] at h
      cases h
      exact ⟨hu, hg₁, hchannel, fun he => by cases he⟩
    · rw [hn] at h
      have hg₂ : GlobalsFit { g₁ with naming := n } := ⟨hfits, hg₁.short, hg₁.terminated⟩
      obtain ⟨ht, hg', hchannel', hconnected⟩ := ih hu hg₂ hfollows (Nat.le_succ_of_le hk) h
      exact ⟨ht, hg', hchannel'.trans hchannel, hconnected⟩

/-! What one turn of the loop does. -/

/-- A turn that sets the client back: `init_client` returns -2, or the client has registered and
then finds no server when it asks for its room. -/
inductive SetBack (g : Globals) (x : Found) : Setback → Globals → Prop
  | notConnected {s t : Server} {g' : Globals} (hx : x.server = some s)
      (h : registerUntil g 1 x.registrations s = .ok (t, g', some .disconnected)) :
      SetBack g x .notConnected g'
  | lostAgain {s t u : Server} {g₁ g' : Globals} (hx : x.server = some s)
      (h : registerUntil g 1 x.registrations s = .ok (t, g₁, some .connected))
      (hroom : g₁.lastChannel ≠ [])
      (hswitch : switchRoomReq g₁ g₁.lastChannel x.rejoin t = .ok (u, g', -2)) :
      SetBack g x .lostAgain g'

/-- A turn that is the last one. -/
inductive LastTurn (g : Globals) (x : Found) : Reconnected → Globals → Prop
  | noHost (hx : x.server = none) : LastTurn g x .exited g
  | registering {s t : Server} {g' : Globals} (hx : x.server = some s)
      (h : registerUntil g 1 x.registrations s = .ok (t, g', none)) : LastTurn g x .pending g'
  | shutdown {s t : Server} {g' : Globals} (hx : x.server = some s)
      (h : registerUntil g 1 x.registrations s = .ok (t, g', some .shutdown)) :
      LastTurn g x .shutdown g'
  | noRoom {s t : Server} {g' : Globals} (hx : x.server = some s)
      (h : registerUntil g 1 x.registrations s = .ok (t, g', some .connected))
      (hroom : g'.lastChannel = []) : LastTurn g x (.returned t) g'
  | refused {s t u : Server} {g₁ g' : Globals} (hx : x.server = some s)
      (h : registerUntil g 1 x.registrations s = .ok (t, g₁, some .connected))
      (hroom : g₁.lastChannel ≠ [])
      (hswitch : switchRoomReq g₁ g₁.lastChannel x.rejoin t = .ok (u, g', -1)) :
      LastTurn g x (.returned u) { g' with lastChannel := [] }
  | rejoined {s t u : Server} {g₁ g' : Globals} {ret : Int} (hx : x.server = some s)
      (h : registerUntil g 1 x.registrations s = .ok (t, g₁, some .connected))
      (hroom : g₁.lastChannel ≠ [])
      (hswitch : switchRoomReq g₁ g₁.lastChannel x.rejoin t = .ok (u, g', ret))
      (hret : ret ≠ -1 ∧ ret ≠ -2) : LastTurn g x (.returned u) g'

/-- What a setback leaves of `connect_retries`. -/
def Setback.left (retries : Nat) : Setback → Nat
  | .notConnected => retries
  | .lostAgain => maxRetries

section Turns
variable {x : Found} {found rest : List Found} {retries : Nat} {setbacks later : List Setback}
  {b : Setback} {out : Reconnected} {g₁ : Globals}

theorem reconnectLoop_zero : reconnectLoop found 0 g = .ok ([], g, .gaveUp) := by
  cases found <;> rfl

/-- A turn sets the client back, or it is the last one. -/
theorem reconnectLoop_cases
    (h : reconnectLoop (x :: rest) (retries + 1) g = .ok (setbacks, g', out)) :
    (∃ b g₁ later, SetBack g x b g₁ ∧ setbacks = b :: later ∧
      reconnectLoop rest (b.left retries) g₁ = .ok (later, g', out)) ∨
    setbacks = [] ∧ LastTurn g x out g' := by
  rw [reconnectLoop] at h
  cases hx : x.server with
  | none =>
    rw [hx] at h
    cases h
    exact .inr ⟨rfl, .noHost hx⟩
  | some s =>
    rw [hx] at h
    obtain ⟨⟨t, g₁, ending⟩, hr, hinit⟩ := ok_of_bind h
    clear h
    cases ending with
    | none =>
      cases hinit
      exact .inr ⟨rfl, .registering hx hr⟩
    | some ending =>
      cases ending with
      | shutdown =>
        cases hinit
        exact .inr ⟨rfl, .shutdown hx hr⟩
      | disconnected =>
        obtain ⟨⟨later, g₂, ending⟩, hloop, hinit⟩ := ok_of_bind hinit
        cases hinit
        exact .inl ⟨_, g₁, later, .notConnected hx hr, rfl, hloop⟩
      | connected =>
        dsimp only at hinit
        split at hinit
        · next hnil =>
          cases hinit
          exact .inr ⟨rfl, .noRoom hx hr hnil⟩
        next hroom =>
        obtain ⟨⟨u, g₂, ret⟩, hswitch, hend⟩ := ok_of_bind hinit
        clear hinit
        dsimp only at hend
        split at hend
        · next hret =>
          subst hret
          cases hend
          exact .inr ⟨rfl, .refused hx hr hroom hswitch⟩
        next hrefused =>
        split at hend
        · next hret =>
          subst hret
          obtain ⟨⟨later, g₃, ending⟩, hloop, hend⟩ := ok_of_bind hend
          cases hend
          exact .inl ⟨_, g₂, later, .lostAgain hx hr hroom hswitch, rfl, hloop⟩
        next hlost =>
        cases hend
        exact .inr ⟨rfl, .rejoined hx hr hroom hswitch ⟨hrefused, hlost⟩⟩

/-- After a setback the loop goes on with what is left of `connect_retries`. -/
theorem SetBack.loop (h : SetBack g x b g₁)
    (hrest : reconnectLoop rest (b.left retries) g₁ = .ok (later, g', out)) :
    reconnectLoop (x :: rest) (retries + 1) g = .ok (b :: later, g', out) := by
  rw [reconnectLoop]
  cases h with
  | notConnected hx hr =>
    rw [hx]
    refine bind_eq_ok.mpr ⟨_, hr, bind_eq_ok.mpr ⟨_, hrest, rfl⟩⟩
  | lostAgain hx hr hroom hswitch =>
    rw [hx]
    refine bind_eq_ok.mpr ⟨_, hr, ?_⟩
    dsimp only
    rw [if_neg hroom]
    refine bind_eq_ok.mpr ⟨_, hswitch, ?_⟩
    dsimp only
    rw [if_neg (by decide), if_pos rfl]
    exact bind_eq_ok.mpr ⟨_, hrest, rfl⟩

end Turns

/-- What holds when `reconnect` has returned: a client that still has a room is in it at the server
it has found, and one that had none is registered there. -/
structure Rejoined (before g : Globals) (s : Server) : Prop where
  settled : Settled s
  fit : GlobalsFit g
  channel : g.lastChannel = [] ∨ g.lastChannel = before.lastChannel
  inRoom : g.lastChannel ≠ [] → InRoom s g.memberId g.lastChannel
  enrolled : before.lastChannel = [] → Enrolled g s

section Returned
variable {x : Found} {b : Setback}

theorem registered_spec (hserver : ∀ s, x.server = some s → Settled s) (hg : GlobalsFit g)
    (hx : x.server = some s)
    (h : registerUntil g 1 x.registrations s = .ok (t, g', ending)) :
    Settled t ∧ GlobalsFit g' ∧ g'.lastChannel = g.lastChannel ∧
      (ending = some .connected → Enrolled g' t) :=
  registerUntil_spec (hserver s hx) hg follows_first le_rfl h

/-- A setback leaves the globals in their buffers. -/
theorem SetBack.keeps (hserver : ∀ s, x.server = some s → Settled s) (hg : GlobalsFit g)
    (h : SetBack g x b g') : GlobalsFit g' ∧ g'.lastChannel = g.lastChannel := by
  cases h with
  | notConnected hx hr =>
    obtain ⟨-, hg', hchannel, -⟩ := registered_spec hserver hg hx hr
    exact ⟨hg', hchannel⟩
  | lostAgain hx hr hroom hswitch =>
    obtain ⟨ht, hg₁, hchannel, -⟩ := registered_spec hserver hg hx hr
    obtain ⟨-, ⟨hret, -⟩ | ⟨-, rfl⟩⟩ := switchRoomReq_spec ht hg₁.short.le hg₁.terminated hswitch
    · cases hret
    · exact ⟨hg₁, hchannel⟩

/-- What the turn with which `reconnect` returns has done. -/
theorem LastTurn.returned (hserver : ∀ s, x.server = some s → Settled s) (hg : GlobalsFit g)
    (h : LastTurn g x (.returned t) g') : Rejoined g g' t := by
  cases h with
  | noRoom hx hr hroom =>
    obtain ⟨ht, hg', -, henrolled⟩ := registered_spec hserver hg hx hr
    exact ⟨ht, hg', .inl hroom, fun hne => (hne hroom).elim, fun _ => henrolled rfl⟩
  | refused hx hr hroom hswitch =>
    obtain ⟨ht, hg₁, hchannel, -⟩ := registered_spec hserver hg hx hr
    obtain ⟨hu, ⟨hret, -⟩ | ⟨-, rfl⟩⟩ := switchRoomReq_spec ht hg₁.short.le hg₁.terminated hswitch
    · cases hret
    · exact ⟨hu, .inNoRoom hg₁.naming rfl, .inl rfl, fun hne => (hne rfl).elim,
        fun hnil => (hroom (hchannel.trans hnil)).elim⟩
  | rejoined hx hr hroom hswitch hret =>
    obtain ⟨ht, hg₁, hchannel, -⟩ := registered_spec hserver hg hx hr
    obtain ⟨hu, ⟨-, -, rfl, hin⟩ | ⟨h12, -⟩⟩ :=
      switchRoomReq_spec ht hg₁.short.le hg₁.terminated hswitch
    · exact ⟨hu, hg₁.congr rfl rfl, .inr hchannel, fun _ => hin,
        fun hnil => (hroom (hchannel.trans hnil)).elim⟩
    · rcases h12 with h1 | h2
      · exact (hret.1 h1).elim
      · exact (hret.2 h2).elim

end Returned

section Retries
variable {found met : List Found} {retries n : Nat} {setbacks : List Setback} {out : Reconnected}

/-- The turns of the loop so far, each of which has set the client back. -/
inductive SetBacks : Globals → List Found → List Setback → Globals → Prop
  | nil {g : Globals} : SetBacks g [] [] g
  | cons {g g₁ g' : Globals} {x : Found} {met : List Found} {b : Setback}
      {setbacks : List Setback} (h : SetBack g x b g₁) (hrest : SetBacks g₁ met setbacks g') :
      SetBacks g (x :: met) (b :: setbacks) g'

/-- How many calls of `init_client` in a row have failed after a setback, if it was `n` before. -/
def Setback.inARow (n : Nat) : Setback → Nat
  | .notConnected => n + 1
  | .lostAgain => 0

/-- When each of these setbacks came, fewer than five calls in a row had failed. -/
def InTime : Nat → List Setback → Prop
  | _, [] => True
  | n, b :: rest => n < maxRetries ∧ InTime (b.inARow n) rest

theorem Setback.inARow_left {b : Setback} (hle : retries + 1 ≤ maxRetries) :
    b.inARow (maxRetries - (retries + 1)) = maxRetries - b.left retries := by
  cases b with
  | notConnected =>
    simp only [Setback.inARow, Setback.left]
    omega
  | lostAgain => simp [Setback.inARow, Setback.left]

theorem Setback.left_le {b : Setback} (hle : retries + 1 ≤ maxRetries) :
    b.left retries ≤ maxRetries := by
  cases b with
  | notConnected => exact Nat.le_of_succ_le hle
  | lostAgain => exact le_rfl

/-- Whatever ends the loop, its setbacks are turns that it has made, and they came in time. -/
theorem reconnectLoop_setbacks (hle : retries ≤ maxRetries)
    (h : reconnectLoop found retries g = .ok (setbacks, g', out)) :
    (∃ met g₁, met <+: found ∧ SetBacks g met setbacks g₁ ∧ (out = .gaveUp → g' = g₁ ∧
      setbacks.foldl Setback.inARow (maxRetries - retries) = maxRetries)) ∧
    InTime (maxRetries - retries) setbacks := by
  induction found generalizing g retries setbacks with
  | nil =>
    cases retries with
    | zero =>
      cases h
      exact ⟨⟨[], g', List.prefix_rfl, .nil, fun _ => ⟨rfl, rfl⟩⟩, trivial⟩
    | succ retries =>
      cases h
      exact ⟨⟨[], g', List.prefix_rfl, .nil, nofun⟩, trivial⟩
  | cons x rest ih =>
    cases retries with
    | zero =>
      cases h
      exact ⟨⟨[], g', List.nil_prefix, .nil, fun _ => ⟨rfl, rfl⟩⟩, trivial⟩
    | succ retries =>
      rcases reconnectLoop_cases h with ⟨b, g₁, later, hback, rfl, hloop⟩ | ⟨rfl, hlast⟩
      · obtain ⟨⟨met, g₂, hmet, hbacks, hout⟩, htime⟩ := ih (b.left_le hle) hloop
        rw [← b.inARow_left hle] at hout htime
        exact ⟨⟨x :: met, g₂, (List.prefix_cons_inj x).mpr hmet, .cons hback hbacks, hout⟩,
          by omega, htime⟩
      · refine ⟨⟨[], g, List.nil_prefix, .nil, ?_⟩, trivial⟩
        rintro rfl
        cases hlast

/-- Turns that set the client back, up to the fifth failed call in a row, end the loop. -/
theorem SetBacks.gaveUp (hle : retries ≤ maxRetries) (h : SetBacks g met setbacks g')
    (htime : InTime (maxRetries - retries) setbacks)
    (hrow : setbacks.foldl Setback.inARow (maxRetries - retries) = maxRetries)
    (hmet : met <+: found) : reconnectLoop found retries g = .ok (setbacks, g', .gaveUp) := by
  induction h generalizing found retries with
  | nil =>
    have hzero : retries = 0 := by
      simp only [List.foldl_nil, maxRetries] at hrow hle
      omega
    rw [hzero]
    exact reconnectLoop_zero
  | @cons g g₁ g' x met b setbacks hback hrest ih =>
    obtain ⟨rest, rfl⟩ := hmet
    cases retries with
    | zero => exact (Nat.lt_irrefl _ htime.1).elim
    | succ retries =>
      obtain ⟨-, htime⟩ := htime
      rw [List.foldl_cons, b.inARow_left hle] at hrow
      rw [b.inARow_left hle] at htime
      exact hback.loop (ih (b.left_le hle) htime hrow (List.prefix_append met rest))

theorem InTime.count (hn : n ≤ maxRetries) (h : InTime n setbacks) :
    n + setbacks.count .notConnected ≤ maxRetries * (setbacks.count .lostAgain + 1) := by
  induction setbacks generalizing n with
  | nil => simpa using hn
  | cons b rest ih =>
    obtain ⟨hlt, hrest⟩ := h
    cases b with
    | notConnected =>
      have hle := ih hlt hrest
      rw [List.count_cons_self, List.count_cons_of_ne (by decide)]
      omega
    | lostAgain =>
      have hle := ih (Nat.zero_le _) hrest
      rw [List.count_cons_self, List.count_cons_of_ne (by decide)]
      simp only [maxRetries] at hle hlt ⊢
      omega

/-- `reconnect` gives up exactly when its turns have set it back up to the fifth call of
`init_client` in a row that returns -2, where a disconnection before it is back in its room begins
the row anew. However it ends, the calls that have failed are at most five times as many as these
disconnections and one. -/
theorem reconnect_gives_up_iff :
    (reconnect found g = .ok (setbacks, g', .gaveUp) ↔
      ∃ met, met <+: found ∧ SetBacks g met setbacks g' ∧ InTime 0 setbacks ∧
        setbacks.foldl Setback.inARow 0 = maxRetries) ∧
    ∀ out, reconnect found g = .ok (setbacks, g', out) →
      (∃ met g₁, met <+: found ∧ SetBacks g met setbacks g₁) ∧
        setbacks.count .notConnected ≤ maxRetries * (setbacks.count .lostAgain + 1) := by
  refine ⟨⟨fun h => ?_, ?_⟩, fun out h => ?_⟩
  · obtain ⟨⟨met, g₁, hmet, hbacks, hout⟩, htime⟩ := reconnectLoop_setbacks le_rfl h
    obtain ⟨rfl, hrow⟩ := hout rfl
    exact ⟨met, hmet, hbacks, htime, hrow⟩
  · rintro ⟨met, hmet, hbacks, htime, hrow⟩
    exact hbacks.gaveUp le_rfl htime hrow hmet
  · obtain ⟨⟨met, g₁, hmet, hbacks, -⟩, htime⟩ := reconnectLoop_setbacks le_rfl h
    have hcount := htime.count (Nat.zero_le _)
    rw [Nat.zero_add] at hcount
    exact ⟨⟨met, g₁, hmet, hbacks⟩, hcount⟩

/-- No connection can be made. -/
def unreachable : Vector (Attempt Arrival) tcpRetries := Vector.replicate tcpRetries .noConnection

/-- The globals of `ann`, who has been in a room. -/
def annGlobals : Globals := ⟨(startNames (text "ann")).naming, 1, text "A", 7001⟩

/-- A server that answers a registration and is gone afterwards, and then five times none. -/
def lostOnce : List Found :=
  ⟨some twoRooms.server, [answeredAfter []], unreachable⟩ ::
    List.replicate 5 ⟨some twoRooms.server, [unreachable], unreachable⟩

def Reconnected.isGaveUp : Reconnected → Bool
  | .gaveUp => true
  | _ => false

theorem lostOnce_gaveUp : ∃ g, reconnect lostOnce annGlobals =
    .ok (.lostAgain :: List.replicate 5 .notConnected, g, .gaveUp) := by
  obtain ⟨⟨setbacks, g, out⟩, hr, he⟩ := ok_of_map (c := reconnect lostOnce annGlobals)
    (f := fun v => (v.1, v.2.2.isGaveUp))
    (b := (.lostAgain :: List.replicate 5 .notConnected, true)) (by decide +kernel)
  obtain ⟨rfl, hout⟩ := Prod.mk.inj he
  cases out with
  | gaveUp => exact ⟨g, hr⟩
  | _ => cases hout

theorem reconnect_gives_up_iff_lostOnce : ∃ met g, met <+: lostOnce ∧
    SetBacks annGlobals met (.lostAgain :: List.replicate 5 .notConnected) g ∧
    InTime 0 (.lostAgain :: List.replicate 5 .notConnected) ∧
    (.lostAgain :: List.replicate 5 .notConnected).foldl Setback.inARow 0 = maxRetries := by
  obtain ⟨g, h⟩ := lostOnce_gaveUp
  obtain ⟨met, hmet⟩ := reconnect_gives_up_iff.1.mp h
  exact ⟨met, g, hmet⟩

end Retries

section Program

/-- The requests that a command makes, and the heartbeat. -/
inductive Asked where
  | roomList
  | memberList (roomName : Bytes)
  | switchRoom (roomName : Bytes)
  | createRoom (roomName : Bytes)
  | keepAlive

/-- A request that leaves the globals as they are: the handlers of the two lists and of a new
room. -/
def askReq (g : Globals) (q : ClientRequest) (outcomes : Vector (Attempt Arrival) tcpRetries)
    (s : Server) : Call (Server × Globals × Int) := do
  let (s, _, ret) ← q.handle (arriving (q.serve g.client)) outcomes s
  .ok (s, g, ret)

/-- The handlers, and `heartbeat`, which takes any answer for a sign of life. -/
def ask (g : Globals) (outcomes : Vector (Attempt Arrival) tcpRetries) (s : Server) :
    Asked → Call (Server × Globals × Int)
  | .roomList => askReq g .roomList outcomes s
  | .memberList roomName => askReq g (.memberList roomName) outcomes s
  | .switchRoom roomName => switchRoomReq g roomName outcomes s
  | .createRoom roomName => askReq g (.createRoom roomName) outcomes s
  | .keepAlive => do
    let (s, reconnects) ← heartbeat g.client outcomes s
    .ok (s, g, if reconnects then -2 else 0)

/-- What `handle_command_input` has checked of a room that the client switches to. -/
def Asked.Fits : Asked → Prop
  | .switchRoom roomName => roomName.length ≤ maxRoomNameLen ∧ 0 ∉ roomName
  | _ => True

/-- The server that the client is connected to, and the client. -/
structure Connection where
  server : Server
  globals : Globals

inductive ClientEvent where
  | changed
  | asked (q : Asked) (ret : Int)
  | reconnected (setbacks : List Setback)

/-- The server is as between two requests, and the globals are in their buffers. -/
def Connection.Sound (c : Connection) : Prop := Settled c.server ∧ GlobalsFit c.globals

/-- The client has just been told by a server where it is. -/
def ClientEvent.Places : ClientEvent → Prop
  | .changed => False
  | .asked (.switchRoom _) ret => ret = 0
  | .asked _ _ => False
  | .reconnected _ => True

variable {c d : Connection} {e : ClientEvent} {run : List (ClientEvent × Connection)}
  {q : Asked} {base : Bytes} {port : UInt16}

/-- The server that `reconnect` has returned with. -/
def Reconnected.server : Reconnected → Option Server
  | .returned s => some s
  | _ => none

/-- The server confirms a switch to a room whose name has 24 characters. -/
def longSwitch : Call (Server × Globals × Int) := do
  let s₀ ← initServer [(List.replicate 24 65, 4096)]
  let x ← registerUntil ⟨(startNames (text "ann")).naming, 0, [], 7001⟩ 1 [answeredAfter []] s₀
  let q := ClientRequest.switchRoom (List.replicate 24 65)
  let y ← q.handle (arriving (q.serve x.2.1.client)) (answeredAfter []) x.1
  .ok (y.1, x.2.1, y.2.2)

/-- Such a switch is confirmed, and the name does not fit into `last_channel`. -/
example : longSwitch.toOption.map (·.2.2) = some 0 ∧
    (longSwitch.bind fun v => setLastChannel v.2.1 (List.replicate 24 65)).toOption.isNone := by
  decide +kernel

end Program
end Csc469.Chat
