import Csc469.Chat.LostReplies

/-! The client's heartbeat, while the server goes on, sweeps or is restarted. -/
namespace Csc469.Chat

open Execution Linked Retry

/-- What happens at the server meanwhile: a round of `main`, or a restart. -/
inductive Change where
  | round (op : Op)
  | restart (config : List (Bytes × Nat))

def change (s : Server) : Change → Call Server
  | .round op => do
    let (_, c) ← Chat.round ⟨s, [], []⟩ op
    .ok c.server
  | .restart config => initServer config

def changes (s : Server) (l : List Change) : Call Server := l.foldlM change s

/-- A keep-alive message arrives at the server, after the changes. -/
structure Arrival where
  before : List Change
  delivery : Delivery

def keepAlive (c : Client) (s : Server) (x : Arrival) : Call (Server × Option Reply) := do
  let s ← changes s x.before
  serveRequest c.memberId memberKeepAlive [] cmhSize s x.delivery

/-- `heartbeat`: the server, and whether `reconnect` is called. `attempt_request` returns no
header when no attempt is answered. -/
def heartbeat (c : Client) (outcomes : Vector (Attempt Arrival) tcpRetries) (s : Server) :
    Call (Server × Bool) := do
  let (s, answer) ← attempts (keepAlive c) outcomes.toList s
  .ok (s, answer.isNone)

/-- The server's answer to a keep-alive: none for a registered member, which closes the
connection, and a failure reply for anyone else. -/
def KeepAliveReply (t : Server) (id : UInt16) (reply : Option Reply) : Prop :=
  (reply = none ∧ t.HasId id) ∨
    (reply = some ⟨memberKeepAlive + 2, 0, text "Member id invalid!"⟩ ∧ ¬t.HasId id)

variable {s s₀ t : Server} {L R : List Nat} {M : Nat → List Nat} {env : Env} {msg : Bytes}
  {reply : Option Reply} {c : Client} {x : Arrival} {id : UInt16} {before : List Change}
  {config : List (Bytes × Nat)} {outcomes : Vector (Attempt Arrival) tcpRetries}
  {reconnects : Bool}

theorem initServer_settled (h : initServer config = .ok s) : Settled s := by
  obtain ⟨R, M, hinv, -⟩ := initServer_sound h
  exact ⟨[], R, M, hinv⟩

theorem change_settled {ch : Change} (hs : Settled s) (h : change s ch = .ok t) : Settled t := by
  obtain ⟨L, R, M, hs⟩ := hs
  cases ch with
  | restart config => exact initServer_settled h
  | round op =>
    obtain ⟨⟨e, c⟩, hr, h⟩ := ok_of_bind h
    cases h
    cases op with
    | control env recv =>
      obtain ⟨⟨u, reply⟩, hp, hr⟩ := ok_of_bind hr
      cases hr
      exact processControlMsg_settled ⟨L, R, M, hs⟩ hp
    | chat recv sent =>
      obtain ⟨⟨u, ds⟩, hp, hr⟩ := ok_of_bind hr
      cases hr
      exact ⟨L, R, M, (processChatMsg_handled hs hp).1⟩
    | sweep =>
      obtain ⟨u, hp, hr⟩ := ok_of_bind hr
      cases hr
      obtain ⟨v, M', hv, hinv, -⟩ := sweep_ok hs
      cases hv.symm.trans hp
      exact ⟨_, _, M', hinv⟩

theorem changes_settled (hs : Settled s) (h : changes s before = .ok t) : Settled t := by
  induction before generalizing s with
  | nil =>
    cases h
    exact hs
  | cons ch before ih =>
    obtain ⟨u, hu, h⟩ := ok_of_bind h
    exact ih (change_settled hs hu) h

theorem processControlMsg_keepAlive (h : Inv s L R M) (htype : msgType msg = memberKeepAlive)
    (hp : processControlMsg s env (some msg) = .ok (t, reply)) :
    KeepAliveReply t (memberId msg) reply := by
  cases processControlMsg_served h hp with
  | unknownId _ hno =>
    rw [htype]
    refine .inr ⟨rfl, fun hid => ?_⟩
    obtain ⟨a, ha, hid⟩ := h.registry.hasId_iff.mp hid
    exact hno a ha hid
  | @answered _ a _ _ ha hid _ _ halive =>
    refine .inl ⟨halive htype, h.touch.registry.hasId_iff.mpr ⟨a, ha, ?_⟩⟩
    exact (idAt_touch a).trans hid
  | ignored hneeds =>
    refine absurd ?_ hneeds
    rw [NeedsId, htype]
    decide
  | switched hswitch => exact absurd (htype.symm.trans hswitch) (by decide)
  | created hcreate => exact absurd (htype.symm.trans hcreate) (by decide)
  | left hquit => exact absurd (htype.symm.trans hquit) (by decide)
  | registered hreg => exact absurd (htype.symm.trans hreg) (by decide)

theorem keepAlive_reply (hs : Settled s) (h : keepAlive c s x = .ok (t, reply)) :
    Settled t ∧ KeepAliveReply t c.memberId reply := by
  obtain ⟨u, hu, h⟩ := ok_of_bind h
  obtain ⟨L, R, M, hinv⟩ := changes_settled hs hu
  refine ⟨processControlMsg_settled ⟨L, R, M, hinv⟩ h, ?_⟩
  have hmax : cmhSize < 256 := by decide
  obtain ⟨rest, hd⟩ := delivered_eq c.memberId memberKeepAlive [] x.delivery (Nat.le_refl _) hmax
  have htype : msgType (delivered c.memberId memberKeepAlive [] cmhSize x.delivery) =
      memberKeepAlive := by rw [hd, msgType_controlMsghdr]
  have hid : memberId (delivered c.memberId memberKeepAlive [] cmhSize x.delivery) =
      c.memberId := by rw [hd, memberId_controlMsghdr]
  have hreply := processControlMsg_keepAlive hinv htype h
  rwa [hid] at hreply

/-- The heartbeat ends without `reconnect` exactly when one of its attempts is answered. What
the server answered tells whether the client is registered there. -/
theorem heartbeat_alive (hs : initServer config = .ok s₀) (hw : changes s₀ before = .ok s)
    (h : heartbeat c outcomes s = .ok (t, reconnects)) :
    (reconnects = false ↔ Answered outcomes.toList) ∧
      ∀ x, answering outcomes.toList = some (.answered x) →
        ∃ reply, attempts (keepAlive c) outcomes.toList s = .ok (t, some reply) ∧
          KeepAliveReply t c.memberId reply := by
  have hsettled : Settled s := changes_settled (initServer_settled hs) hw
  obtain ⟨⟨u, answer⟩, ha, h⟩ := ok_of_bind h
  cases h
  have hanswered := attempts_isSome ha
  constructor
  · rw [← hanswered]
    cases answer <;> simp
  · intro x hx
    cases answer with
    | none =>
      have hno : ¬Answered outcomes.toList := by
        rw [← hanswered]
        simp
      exact (hno (answering_isSome.mp (Option.isSome_of_mem hx))).elim
    | some answer =>
      rcases attempts_answering (I := Settled) (fun hI hk => (keepAlive_reply hI hk).1) hsettled ha
        with ⟨hclosed, -⟩ | ⟨x', s', hx', hs', hk⟩
      · cases hclosed.symm.trans hx
      · cases hx'.symm.trans hx
        exact ⟨answer, ha, (keepAlive_reply hs' hk).2⟩

/-- A registration that arrives while nobody is registered. -/
def joined : List Change :=
  [.round (.control firstEnv
    (request registerRequest 0 (store16 (htons 7001) ++ text "ann" ++ [0])))]

/-- The first keep-alive is answered, when this has happened at the server. -/
def answeredAfter (before : List Change) : Vector (Attempt Arrival) tcpRetries :=
  #v[.answered ⟨before, Request.onTime⟩, .notDelivered, .notDelivered, .notDelivered, .notDelivered,
    .notDelivered, .notDelivered, .notDelivered, .notDelivered, .notDelivered]

/-- The only member of a server. -/
def Server.soleId (s : Server) : Option UInt16 :=
  match s.memListHead with
  | some a => if memberLinks.succ s.members a = none then s.idAt a else none
  | none => none

theorem hasId_of_sole (h : s.soleId = some id) : s.HasId id := by
  unfold Server.soleId at h
  split at h
  · next a ha =>
    split at h
    · next hnext => exact ⟨a, ⟨[a], ⟨ha, hnext⟩, List.mem_singleton_self a⟩, h⟩
    · cases h
  · cases h

theorem heartbeat_alive_ann : ∃ s₀ s t, initServer [(text "A", 4096)] = .ok s₀ ∧
    changes s₀ joined = .ok s ∧ s.HasId 1 ∧
    heartbeat ⟨1, text "ann", []⟩ (answeredAfter [.round .sweep]) s = .ok (t, false) ∧
    (false = false ↔ Answered (answeredAfter [.round .sweep]).toList) ∧
      ∀ x, answering (answeredAfter [.round .sweep]).toList = some (.answered x) →
        ∃ reply, attempts (keepAlive ⟨1, text "ann", []⟩)
            (answeredAfter [.round .sweep]).toList s = .ok (t, some reply) ∧
          KeepAliveReply t 1 reply := by
  obtain ⟨⟨s₀, s, t, b⟩, hh, he⟩ := ok_of_map
    (c := do
      let s₀ ← initServer [(text "A", 4096)]
      let s ← changes s₀ joined
      let x ← heartbeat ⟨1, text "ann", []⟩ (answeredAfter [.round .sweep]) s
      .ok (s₀, s, x))
    (f := fun x => (x.2.1.soleId, x.2.2.2)) (b := (some 1, false)) (by decide +kernel)
  obtain ⟨hid, rfl⟩ := Prod.mk.inj he
  obtain ⟨s₀, hs₀, hh⟩ := ok_of_bind hh
  obtain ⟨s, hs, hh⟩ := ok_of_bind hh
  obtain ⟨x, hx, hh⟩ := ok_of_bind hh
  cases hh
  exact ⟨_, _, _, hs₀, hs, hasId_of_sole hid, hx, heartbeat_alive hs₀ hs hx⟩

/-- The server is restarted with an empty registry. Its answer to the keep-alive is a failure,
and the client does not connect again. -/
theorem heartbeat_misses_restart : ∃ s₀ s t, initServer [(text "A", 4096)] = .ok s₀ ∧
    changes s₀ joined = .ok s ∧ s.HasId 1 ∧
    heartbeat ⟨1, text "ann", []⟩ (answeredAfter [.restart []]) s = .ok (t, false) ∧
    ¬t.HasId 1 := by
  obtain ⟨⟨s₀, s, t, b⟩, hh, he⟩ := ok_of_map
    (c := do
      let s₀ ← initServer [(text "A", 4096)]
      let s ← changes s₀ joined
      let x ← heartbeat ⟨1, text "ann", []⟩ (answeredAfter [.restart []]) s
      .ok (s₀, s, x))
    (f := fun x => (x.2.1.soleId, x.2.2.1.memListHead, x.2.2.2)) (b := (some 1, none, false))
    (by decide +kernel)
  simp only [Prod.mk.injEq] at he
  obtain ⟨hid, hhead, rfl⟩ := he
  obtain ⟨s₀, hs₀, hh⟩ := ok_of_bind hh
  obtain ⟨s, hs, hh⟩ := ok_of_bind hh
  obtain ⟨x, hx, hh⟩ := ok_of_bind hh
  cases hh
  refine ⟨_, _, _, hs₀, hs, hasId_of_sole hid, hx, ?_⟩
  rintro ⟨a, ⟨L, hL, ha⟩, -⟩
  rw [hhead] at hL
  obtain rfl : L = [] := Chain.unique hL rfl
  cases ha

end Csc469.Chat
