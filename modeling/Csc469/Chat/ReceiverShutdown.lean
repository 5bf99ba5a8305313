import Csc469.Chat.ReceiverChannel

/-! `client_main.c` and `client_recv.c`: how the client and its receiver come to an end. -/
namespace Csc469.Chat

open Execution Fairness Queues

variable {cap : Nat} {s t : Processes} {e : ChannelEvent}

section Shutdown
variable {masked : Bool} {E : Trace Processes ChannelEvent}

/-- The steps of the client that it does not choose. -/
def ChannelEvent.OfClient (e : ChannelEvent) : Prop := e = .clientStep ∨ ∃ notice, e = .sent notice

def ChannelEvent.OfReceiver (e : ChannelEvent) : Prop := e = .receiverStep ∨ ∃ turn, e = .turn turn

/-- `shutdown_clean` has ended: nothing of the two processes is left. -/
def Cleaned (s : Processes) : Prop := s.client = .gone ∧ s.queue = none ∧ s.receiver = .exited

/-- The receiver has ended, and the notice to quit does not fit into the queue. -/
def StuckFull (cap : Nat) (s : Processes) : Prop :=
  s.client = .quitting ∧ s.receiver = .exited ∧ ∃ q, s.queue = some q ∧ cap ≤ q.length

/-- The client is at `pc` in `shutdown_clean`. -/
structure ClosingAt (pc : ClientPC) (masked : Bool) (s : Processes) : Prop where
  inv : ChannelInv s
  client : s.client = pc
  mask : s.inHandler = masked

/-- An interrupt begins `shutdown_clean` once more. -/
def Again (masked : Bool) (s : Processes) : Prop :=
  masked = false ∧ ClosingAt .quitting true s

/-- The notice to quit fits into the queue. -/
def HasRoom (cap : Nat) (s : Processes) : Prop := ∃ q, s.queue = some q ∧ q.length < cap

theorem ClosingAt.exiting_step (h : ClosingAt .exiting masked s) (hs : ChannelStep cap s e t) :
    (ClosingAt .exiting masked t ∧ ¬e.OfClient) ∨ Cleaned t ∨ Again masked t := by
  have ht := channelInv_step hs h.inv
  have hpc := h.client
  have hmask := h.mask
  have hexit := h.inv.reaped (.inr hpc)
  have hq := h.inv.removed hpc
  cases hs with
  | exit => exact .inr (.inl ⟨rfl, hq, hexit⟩)
  | interrupt hno => exact .inr (.inr ⟨hmask.symm.trans hno, ht, rfl, rfl⟩)
  | _ => simp_all

theorem ClosingAt.removing_step (h : ClosingAt .removing masked s) (hs : ChannelStep cap s e t) :
    (ClosingAt .removing masked t ∧ ¬e.OfClient) ∨ ClosingAt .exiting masked t ∨
      Again masked t := by
  have ht := channelInv_step hs h.inv
  have hpc := h.client
  have hmask := h.mask
  have hexit := h.inv.reaped (.inl hpc)
  cases hs with
  | remove => exact .inr (.inl ⟨ht, rfl, hmask⟩)
  | interrupt hno => exact .inr (.inr ⟨hmask.symm.trans hno, ht, rfl, rfl⟩)
  | _ => simp_all

theorem ClosingAt.waited_step (h : ClosingAt .waiting masked s) (hexit : s.receiver = .exited)
    (hs : ChannelStep cap s e t) :
    ((ClosingAt .waiting masked t ∧ t.receiver = .exited) ∧ ¬e.OfClient) ∨
      ClosingAt .removing masked t ∨ Again masked t := by
  have ht := channelInv_step hs h.inv
  have hpc := h.client
  have hmask := h.mask
  cases hs with
  | waited => exact .inr (.inl ⟨ht, rfl, hmask⟩)
  | interrupt hno => exact .inr (.inr ⟨hmask.symm.trans hno, ht, rfl, rfl⟩)
  | _ => simp_all

/-- How far the receiver is from its end when it has been told to quit. -/
def ReceiverPC.distance : ReceiverPC → Nat
  | .opening => 3
  | .binding => 2
  | .reporting _ => 1
  | _ => 0

theorem ClosingAt.waiting_step (h : ClosingAt .waiting masked s) (hexit : s.receiver ≠ .exited)
    (hs : ChannelStep cap s e t) :
    ((ClosingAt .waiting masked t ∧ t.receiver = .exited) ∨ Again masked t) ∨
      (ClosingAt .waiting masked t ∧ t.receiver ≠ .exited) ∧
      t.receiver.distance + t.notices.length ≤ s.receiver.distance + s.notices.length ∧
      (e.OfReceiver →
        t.receiver.distance + t.notices.length < s.receiver.distance + s.notices.length) := by
  have ht := channelInv_step hs h.inv
  have hpc := h.client
  have hmask := h.mask
  have htold := (h.inv.told hpc).resolve_left hexit
  have hsome := h.inv.alive hexit
  cases hs with
  | interrupt hno => exact .inl (.inr ⟨hmask.symm.trans hno, ht, rfl, rfl⟩)
  | openFailed => exact .inl (.inl ⟨⟨ht, hpc, hmask⟩, rfl⟩)
  | closed => exact .inl (.inl ⟨⟨ht, hpc, hmask⟩, rfl⟩)
  | openQueue hrec =>
    refine .inr ⟨⟨⟨ht, hpc, hmask⟩, by simp⟩, ?_⟩
    simp [hrec, ReceiverPC.distance, Processes.notices]
  | noSocket hrec =>
    refine .inr ⟨⟨⟨ht, hpc, hmask⟩, by simp⟩, ?_⟩
    simp [hrec, ReceiverPC.distance, Processes.notices]
  | bound hrec =>
    refine .inr ⟨⟨⟨ht, hpc, hmask⟩, by simp⟩, ?_⟩
    simp [hrec, ReceiverPC.distance, Processes.notices]
  | notBound hrec =>
    refine .inr ⟨⟨⟨ht, hpc, hmask⟩, by simp⟩, ?_⟩
    simp [hrec, ReceiverPC.distance, Processes.notices]
  | reportLost hrec hq => simp [hq] at hsome
  | @reported report _ hrec hq =>
    cases report with
    | recvReady port =>
      refine .inr ⟨⟨⟨ht, hpc, hmask⟩, by simp [Report.next]⟩, ?_⟩
      simp [hrec, hq, Report.next, ReceiverPC.distance, Processes.notices, List.filterMap_cons]
    | recvNotReady code => exact .inl (.inl ⟨⟨ht, hpc, hmask⟩, rfl⟩)
  | @noticed _ notice _ _ _ hrec hq htake =>
    obtain ⟨hnotices, -⟩ := takeNotice hq htake
    cases notice with
    | chatQuit => exact .inl (.inl ⟨⟨ht, hpc, hmask⟩, rfl⟩)
    | switchedChan =>
      refine .inr ⟨⟨⟨ht, hpc, hmask⟩, by simp [Notice.next]⟩, ?_⟩
      rw [hnotices]
      simp [hrec, Notice.next, ReceiverPC.distance, Processes.notices]
  | noNotice hrec hnone =>
    obtain ⟨q, hq⟩ := Option.isSome_iff_exists.mp hsome
    rw [notices_of_queue hq, takeFirst_eq_none.mp (hnone q hq)] at htold
    cases htold
  | _ => simp_all

theorem ClosingAt.room_step (h : ClosingAt .quitting masked s) (hcap : 2 ≤ cap)
    (hroom : HasRoom cap s) (hs : ChannelStep cap s e t) :
    ((ClosingAt .quitting masked t ∧ HasRoom cap t) ∧ ¬e.OfClient) ∨
      ClosingAt .waiting masked t ∨ Again masked t := by
  have ht := channelInv_step hs h.inv
  have hpc := h.client
  have hmask := h.mask
  obtain ⟨p, hp, hlen⟩ := hroom
  have hnot : ¬ChannelEvent.receiverStep.OfClient := by simp [ChannelEvent.OfClient]
  cases hs with
  | quit => exact .inr (.inl ⟨ht, rfl, hmask⟩)
  | interrupt hno => exact .inr (.inr ⟨hmask.symm.trans hno, ht, rfl, rfl⟩)
  | openFailed => exact .inl ⟨⟨⟨ht, hpc, hmask⟩, p, hp, hlen⟩, hnot⟩
  | openQueue => exact .inl ⟨⟨⟨ht, hpc, hmask⟩, p, hp, hlen⟩, hnot⟩
  | noSocket => exact .inl ⟨⟨⟨ht, hpc, hmask⟩, p, hp, hlen⟩, hnot⟩
  | bound => exact .inl ⟨⟨⟨ht, hpc, hmask⟩, p, hp, hlen⟩, hnot⟩
  | notBound => exact .inl ⟨⟨⟨ht, hpc, hmask⟩, p, hp, hlen⟩, hnot⟩
  | @reported report q hrec hq =>
    -- before the report nothing has been sent by a client that is quitting
    have hnil : q = [] := by
      rcases h.inv.starting (by rw [hrec]; trivial) with ⟨-, hq'⟩ | ⟨-, ⟨-, hq'⟩ | ⟨hc, -⟩⟩
      · exact Option.some.inj (hq.symm.trans hq')
      · exact Option.some.inj (hq.symm.trans hq')
      · cases hpc.symm.trans hc
    refine .inl ⟨⟨⟨ht, hpc, hmask⟩, _, rfl, ?_⟩, hnot⟩
    rw [hnil]
    exact hcap
  | reportLost hrec hq => cases hq.symm.trans hp
  | noticed hrec hq htake =>
    obtain rfl := Option.some.inj (hp.symm.trans hq)
    have hshort := takeFirst_length htake
    exact .inl ⟨⟨⟨ht, hpc, hmask⟩, _, rfl, by omega⟩, by simp [ChannelEvent.OfClient]⟩
  | noNotice => exact .inl ⟨⟨h, p, hp, hlen⟩, by simp [ChannelEvent.OfClient]⟩
  | closed => exact .inl ⟨⟨⟨ht, hpc, hmask⟩, p, hp, hlen⟩, by simp [ChannelEvent.OfClient]⟩
  | _ => simp_all

theorem ClosingAt.lost_step (h : ClosingAt .quitting masked s) (hq : s.queue = none)
    (hs : ChannelStep cap s e t) :
    ((ClosingAt .quitting masked t ∧ t.queue = none) ∧ ¬e.OfClient) ∨
      ClosingAt .waiting masked t ∨ Again masked t := by
  have ht := channelInv_step hs h.inv
  have hpc := h.client
  have hmask := h.mask
  have hexit : s.receiver = .exited := by
    by_contra hne
    simpa [hq] using h.inv.alive hne
  cases hs with
  | quitLost => exact .inr (.inl ⟨ht, rfl, hmask⟩)
  | interrupt hno => exact .inr (.inr ⟨hmask.symm.trans hno, ht, rfl, rfl⟩)
  | _ => simp_all

/-- The queue is full, and the receiver reads it. -/
def FullRead (cap : Nat) (s : Processes) : Prop :=
  (∃ port, s.receiver = .receiving port) ∧ ∃ q, s.queue = some q ∧ cap ≤ q.length

theorem length_views (q : List (Report ⊕ Notice)) :
    q.length = (q.filterMap Sum.getLeft?).length + (q.filterMap Sum.getRight?).length := by
  induction q with
  | nil => rfl
  | cons m q ih => cases m <;> simp [List.filterMap_cons, ih] <;> omega

/-- There is at most one report in it, so that the receiver finds a notice. -/
theorem FullRead.finds (h : FullRead cap s) (hinv : ChannelInv s) (hcap : 2 ≤ cap) :
    s.notices ≠ [] := by
  obtain ⟨-, q, hq, hfull⟩ := h
  have hone := hinv.oneReport
  have hlen := length_views q
  rw [reports_of_queue hq] at hone
  rw [notices_of_queue hq]
  intro hnil
  rw [hnil, List.length_nil] at hlen
  omega

/-- How many messages there are in the queue. -/
def Processes.load (s : Processes) : Nat := (s.queue.getD []).length

theorem ClosingAt.full_step (h : ClosingAt .quitting masked s) (hcap : 2 ≤ cap)
    (hfull : FullRead cap s) (hs : ChannelStep cap s e t) :
    ((ClosingAt .quitting masked t ∧ (t.receiver = .exited ∨ HasRoom cap t)) ∨ Again masked t) ∨
      (ClosingAt .quitting masked t ∧ FullRead cap t) ∧ t.load ≤ s.load ∧
        (e.OfReceiver → t.load < s.load) := by
  have ht := channelInv_step hs h.inv
  have hpc := h.client
  have hmask := h.mask
  have hfinds := hfull.finds h.inv hcap
  have hfull' := hfull
  obtain ⟨⟨port, hrec⟩, q, hq, hlen⟩ := hfull
  cases hs with
  | interrupt hno => exact .inl (.inr ⟨hmask.symm.trans hno, ht, rfl, rfl⟩)
  | @noticed port' notice _ _ r hrec' hq' htake =>
    obtain rfl := Option.some.inj (hq.symm.trans hq')
    have hshort := takeFirst_length htake
    have hless : Processes.load { s with receiver := notice.next port', queue := some r } <
        s.load := by
      simp only [Processes.load, hq, Option.getD_some]
      omega
    by_cases hroom : r.length < cap
    · exact .inl (.inl ⟨⟨ht, hpc, hmask⟩, .inr ⟨r, rfl, hroom⟩⟩)
    cases notice with
    | chatQuit => exact .inl (.inl ⟨⟨ht, hpc, hmask⟩, .inl rfl⟩)
    | switchedChan =>
      exact .inr ⟨⟨⟨ht, hpc, hmask⟩, ⟨_, rfl⟩, r, rfl, Nat.not_lt.mp hroom⟩, hless.le,
        fun _ => hless⟩
  | noNotice hrec' hnone =>
    rw [notices_of_queue hq, takeFirst_eq_none.mp (hnone q hq)] at hfinds
    exact (hfinds rfl).elim
  | closed => exact .inl (.inl ⟨⟨ht, hpc, hmask⟩, .inl rfl⟩)
  | quit hpc' hq' hroom =>
    obtain rfl := Option.some.inj (hq.symm.trans hq')
    exact absurd hroom (Nat.not_lt.mpr hlen)
  | _ => simp_all

/-- The loop of the receiver never waits. -/
theorem receiving_enabled {port : UInt16} (h : s.receiver = .receiving port)
    (hsome : s.queue.isSome) : Enabled (ChannelStep cap) ChannelEvent.OfReceiver s := by
  obtain ⟨q, hq⟩ := Option.isSome_iff_exists.mp hsome
  cases htake : takeFirst Sum.getRight? q with
  | some x => exact ⟨_, _, .inr ⟨⟨some x.1, []⟩, rfl⟩, .noticed h hq htake⟩
  | none =>
    refine ⟨_, _, .inr ⟨⟨none, []⟩, rfl⟩, .noNotice h fun q' hq' => ?_⟩
    obtain rfl := Option.some.inj (hq.symm.trans hq')
    exact htake

theorem ClosingAt.waiting_enabled (h : ClosingAt .waiting masked s) (hcap : 2 ≤ cap)
    (hexit : s.receiver ≠ .exited) : Enabled (ChannelStep cap) ChannelEvent.OfReceiver s := by
  cases hpc : s.receiver with
  | opening => exact ⟨_, _, .inl rfl, .openFailed hpc⟩
  | binding => exact ⟨_, _, .inl rfl, .noSocket hpc⟩
  | reporting report =>
    obtain ⟨q, hq, hlen⟩ : HasRoom cap s := by
      rcases h.inv.starting (by rw [hpc]; trivial) with ⟨-, hq⟩ | ⟨-, ⟨-, hq⟩ | ⟨-, hq⟩⟩
      · exact ⟨_, hq, Nat.zero_lt_of_lt hcap⟩
      · exact ⟨_, hq, Nat.zero_lt_of_lt hcap⟩
      · exact ⟨_, hq, hcap⟩
    exact ⟨_, _, .inl rfl, .reported hpc hq hlen⟩
  | receiving port => exact receiving_enabled hpc (h.inv.alive hexit)
  | exited => exact (hexit hpc).elim

/-- What an attempt to shut down comes to. -/
def Ended (cap : Nat) (masked : Bool) (s : Processes) : Prop :=
  Cleaned s ∨ StuckFull cap s ∨ Again masked s

theorem Again.ended (h : Again masked s) : Ended cap masked s := .inr (.inr h)

section Fair
variable (hv : Valid (ChannelStep cap) E) (hclient : Fair (ChannelStep cap) ChannelEvent.OfClient E)
include hv hclient

theorem exiting_ends : LeadsTo E (ClosingAt .exiting masked) (Ended cap masked) :=
  hclient.leadsTo_of_step hv (fun _ h => ⟨_, _, .inl rfl, .exit h.client⟩) fun _ _ _ h hs =>
    (h.exiting_step hs).imp_right fun h => h.imp_right .inr

theorem removing_ends : LeadsTo E (ClosingAt .removing masked) (Ended cap masked) := by
  refine LeadsTo.chain (Q := ClosingAt .exiting masked) ?_ (exiting_ends hv hclient)
  exact hclient.leadsTo_of_step hv (fun _ h => ⟨_, _, .inl rfl, .remove h.client⟩)
    fun _ _ _ h hs => (h.removing_step hs).imp_right fun h => h.imp_right Again.ended

variable (hcap : 2 ≤ cap) (hreceiver : Fair (ChannelStep cap) ChannelEvent.OfReceiver E)
include hcap hreceiver

theorem waiting_ends : LeadsTo E (ClosingAt .waiting masked) (Ended cap masked) := by
  have hwaited : LeadsTo E (fun s => ClosingAt .waiting masked s ∧ s.receiver = .exited)
      (Ended cap masked) := by
    refine LeadsTo.chain (Q := ClosingAt .removing masked) ?_ (removing_ends hv hclient)
    exact hclient.leadsTo_of_step hv (fun _ h => ⟨_, _, .inl rfl, .waited h.1.client h.2⟩)
      fun _ _ _ h hs => (h.1.waited_step h.2 hs).imp_right fun h => h.imp_right Again.ended
  have hwaiting : LeadsTo E (fun s => ClosingAt .waiting masked s ∧ s.receiver ≠ .exited)
      (Ended cap masked) := by
    refine LeadsTo.chain (Q := fun s => ClosingAt .waiting masked s ∧ s.receiver = .exited) ?_
      hwaited
    exact hreceiver.leadsTo_of_rank hv (fun _ h => h.1.waiting_enabled hcap h.2)
      fun _ _ _ h hs => (h.1.waiting_step h.2 hs).imp_left fun h => h.imp_right Again.ended
  intro n hn
  by_cases hexit : (E.state n).receiver = .exited
  · exact hwaited n ⟨hn, hexit⟩
  · exact hwaiting n ⟨hn, hexit⟩

theorem quitting_ends : LeadsTo E (ClosingAt .quitting masked) (Ended cap masked) := by
  have hwaiting : LeadsTo E (ClosingAt .waiting masked) (Ended cap masked) :=
    waiting_ends hv hclient hcap hreceiver
  have hroom : LeadsTo E (fun s => ClosingAt .quitting masked s ∧ HasRoom cap s)
      (Ended cap masked) := by
    refine LeadsTo.chain (Q := ClosingAt .waiting masked) ?_ hwaiting
    refine hclient.leadsTo_of_step hv (fun s h => ?_) fun _ _ _ h hs =>
      (h.1.room_step hcap h.2 hs).imp_right fun h => h.imp_right Again.ended
    obtain ⟨q, hq, hlen⟩ := h.2
    exact ⟨_, _, .inr ⟨_, rfl⟩, .quit h.1.client hq hlen⟩
  have hlost : LeadsTo E (fun s => ClosingAt .quitting masked s ∧ s.queue = none)
      (Ended cap masked) := by
    refine LeadsTo.chain (Q := ClosingAt .waiting masked) ?_ hwaiting
    exact hclient.leadsTo_of_step hv (fun _ h => ⟨_, _, .inl rfl, .quitLost h.1.client h.2⟩)
      fun _ _ _ h hs => (h.1.lost_step h.2 hs).imp_right fun h => h.imp_right Again.ended
  have hexited : LeadsTo E
      (fun s => ClosingAt .quitting masked s ∧ (s.receiver = .exited ∨ HasRoom cap s))
      (Ended cap masked) := by
    rintro n ⟨hn, hexit | hr⟩
    · cases hq : (E.state n).queue with
      | none => exact hlost n ⟨hn, hq⟩
      | some q =>
        by_cases hlen : q.length < cap
        · exact hroom n ⟨hn, q, hq, hlen⟩
        · exact ⟨n, le_rfl, .inr (.inl ⟨hn.client, hexit, q, hq, Nat.not_lt.mp hlen⟩)⟩
    · exact hroom n ⟨hn, hr⟩
  have hfull : LeadsTo E (fun s => ClosingAt .quitting masked s ∧ FullRead cap s)
      (Ended cap masked) := by
    refine LeadsTo.chain (Q := fun s => ClosingAt .quitting masked s ∧
      (s.receiver = .exited ∨ HasRoom cap s)) ?_ hexited
    refine hreceiver.leadsTo_of_rank hv (fun s h => ?_)
      fun _ _ _ h hs => (h.1.full_step hcap h.2 hs).imp_left fun h => h.imp_right Again.ended
    obtain ⟨⟨port, hrec⟩, q, hq, -⟩ := h.2
    exact receiving_enabled hrec (by rw [hq]; rfl)
  intro n hn
  by_cases hr : HasRoom cap (E.state n)
  · exact hroom n ⟨hn, hr⟩
  cases hpc : (E.state n).receiver with
  | exited => exact hexited n ⟨hn, .inl hpc⟩
  | receiving port =>
    obtain ⟨q, hq⟩ := Option.isSome_iff_exists.mp (hn.inv.alive (by simp [hpc]))
    have hlen : ¬q.length < cap := fun hlen => hr ⟨q, hq, hlen⟩
    exact hfull n ⟨hn, ⟨port, hpc⟩, q, hq, Nat.not_lt.mp hlen⟩
  | _ =>
    -- a receiver that has not reported leaves room for the notice
    rcases hn.inv.starting (by rw [hpc]; trivial) with ⟨-, hq⟩ | ⟨-, ⟨-, hq⟩ | ⟨hc, -⟩⟩
    · exact (hr ⟨_, hq, Nat.zero_lt_of_lt hcap⟩).elim
    · exact (hr ⟨_, hq, Nat.zero_lt_of_lt hcap⟩).elim
    · cases hn.client.symm.trans hc

theorem closing_ends : LeadsTo E (fun s => ChannelInv s ∧ s.client.Closing ∧ s.inHandler = masked)
    (Ended cap masked) := by
  rintro n ⟨hinv, hclosing, hmask⟩
  cases hpc : (E.state n).client with
  | quitting => exact quitting_ends hv hclient hcap hreceiver n ⟨hinv, hpc, hmask⟩
  | waiting => exact waiting_ends hv hclient hcap hreceiver n ⟨hinv, hpc, hmask⟩
  | removing => exact removing_ends hv hclient n ⟨hinv, hpc, hmask⟩
  | exiting => exact exiting_ends hv hclient n ⟨hinv, hpc, hmask⟩
  | _ =>
    rw [hpc] at hclosing
    exact hclosing.elim

end Fair

/-- When both processes go on whenever they can, `shutdown_clean` comes to its end with nothing left
behind, whatever the receiver was doing and whether or not it is interrupted, unless the receiver
has ended before and left a full queue. -/
theorem shutdown_finishes {n : Nat} (hcap : 2 ≤ cap) (hv : Valid (ChannelStep cap) E)
    (h0 : E.state 0 = initProcesses)
    (hclient : Fair (ChannelStep cap) ChannelEvent.OfClient E)
    (hreceiver : Fair (ChannelStep cap) ChannelEvent.OfReceiver E)
    (hn : (E.state n).client.Closing) :
    ∃ m, n ≤ m ∧ (Cleaned (E.state m) ∨ StuckFull cap (E.state m)) := by
  have hinv := hv.invariant (fun _ _ _ h hs => channelInv_step hs h) (h0 ▸ channelInv_init)
  have hmasked : ∀ k, (E.state k).client.Closing → (E.state k).inHandler = true →
      ∃ m, k ≤ m ∧ (Cleaned (E.state m) ∨ StuckFull cap (E.state m)) := by
    intro k hclosing hmask
    obtain ⟨m, hkm, hend⟩ := closing_ends hv hclient hcap hreceiver k ⟨hinv k, hclosing, hmask⟩
    rcases hend with hend | hend | ⟨hno, -⟩
    · exact ⟨m, hkm, .inl hend⟩
    · exact ⟨m, hkm, .inr hend⟩
    · cases hno
  cases hmask : (E.state n).inHandler with
  | true => exact hmasked n hn hmask
  | false =>
    obtain ⟨m, hnm, hend⟩ := closing_ends hv hclient hcap hreceiver n ⟨hinv n, hn, hmask⟩
    rcases hend with hend | hend | ⟨-, hagain⟩
    · exact ⟨m, hnm, .inl hend⟩
    · exact ⟨m, hnm, .inr hend⟩
    · -- the handler is not interrupted once more
      obtain ⟨k, hmk, hk⟩ := hmasked m (by rw [hagain.client]; trivial) hagain.mask
      exact ⟨k, hnm.trans hmk, hk⟩

theorem shutdown_finishes_orderly : ∃ m, 7 ≤ m ∧
    (Cleaned ((Trace.ofRun initProcesses orderlyRun).state m) ∨
      StuckFull 2 ((Trace.ofRun initProcesses orderlyRun).state m)) := by
  refine shutdown_finishes le_rfl (ofRun_valid orderlyRun_along) rfl (ofRun_fair ?_) (ofRun_fair ?_)
    trivial
  · rintro ⟨e, t, he, hs⟩
    cases hs <;> simp_all [orderlyRun, lastState]
  · rintro ⟨e, t, he, hs⟩
    cases hs <;> simp_all [orderlyRun, lastState]

end Shutdown

section Unheard
variable {pc : ClientPC} {run : List (ChannelEvent × Processes)}

/-- What the user does to the two processes. -/
def ChannelEvent.OfUser (e : ChannelEvent) : Prop := e = .interrupt ∨ e = .closed

/-- The receiver has a port. -/
def ReceiverPC.Bound (rc : ReceiverPC) : Prop :=
  ∃ port, rc = .reporting (.recvReady port) ∨ rc = .receiving port

/-- The receiver has a port, and nobody is to tell it to quit. -/
structure Unheard (pc : ClientPC) (s : Processes) : Prop where
  client : s.client = pc
  bound : s.receiver.Bound
  queue : s.queue.isSome
  calm : .chatQuit ∉ s.notices

theorem Unheard.step (hpc : pc = .gaveUp ∨ pc = .gone) (h : Unheard pc s)
    (hs : ChannelStep cap s e t) (hno : ¬e.OfUser) : Unheard pc t := by
  obtain ⟨hclient, ⟨port, hrec⟩, hqueue, hcalm⟩ := h
  have hlive : s.receiver ≠ .exited := by rcases hrec with hrec | hrec <;> simp [hrec]
  cases hs with
  | interrupt => exact (hno (.inl rfl)).elim
  | closed => exact (hno (.inr rfl)).elim
  | pollError => exact ⟨hclient, ⟨port, hrec⟩, hqueue, hcalm⟩
  | noNotice => exact ⟨hclient, ⟨port, hrec⟩, hqueue, hcalm⟩
  | reported hrep hq =>
    obtain hrec := hrec.resolve_right (by simp [hrep])
    cases hrep.symm.trans hrec
    refine ⟨hclient, ⟨port, .inr rfl⟩, rfl, ?_⟩
    rw [notices_of_queue hq] at hcalm
    simpa [Processes.notices, List.filterMap_cons] using hcalm
  | reportLost hrep hq => simp [hq] at hqueue
  | @noticed port' notice _ _ _ hrec' hq htake =>
    obtain ⟨hnotices, -⟩ := takeNotice hq htake
    rw [hnotices, List.mem_cons, not_or] at hcalm
    cases notice with
    | chatQuit => exact (hcalm.1 rfl).elim
    | switchedChan => exact ⟨hclient, ⟨port', .inr rfl⟩, rfl, hcalm.2⟩
  | reaped _ hexit => exact (hlive hexit).elim
  | _ => rcases hpc with rfl | rfl <;> simp_all

theorem Unheard.along (hpc : pc = .gaveUp ∨ pc = .gone) (h : Unheard pc s)
    (hr : Along (ChannelStep cap) s run) (hno : ∀ x ∈ run, ¬x.1.OfUser) :
    ∀ x ∈ run, Unheard pc x.2 := by
  induction run generalizing s with
  | nil => exact fun _ hx => (nomatch hx)
  | cons x run ih =>
    have hx := h.step hpc hr.1 (hno x List.mem_cons_self)
    intro y hy
    rcases List.mem_cons.mp hy with rfl | hy
    · exact hx
    · exact ih hx hr.2 (fun z hz => hno z (List.mem_cons_of_mem _ hz)) y hy

/-- A client that has given up on a receiver with a port waits for its end for ever, and the
receiver for a notice from the client, until the user ends one of them. -/
theorem gave_up_waits (h : Reaches (ChannelStep cap) initProcesses s) (hpc : s.client = .gaveUp)
    (hbound : s.receiver.Bound) (hr : Along (ChannelStep cap) s run)
    (hno : ∀ x ∈ run, ¬x.1.OfUser) :
    ∀ x ∈ run, x.2.client = .gaveUp ∧ x.2.receiver.Bound ∧ .chatQuit ∉ x.2.notices := by
  have hinv := channelInv_reaches h
  have hlive : s.receiver ≠ .exited := by
    obtain ⟨port, hrec | hrec⟩ := hbound <;> simp [hrec]
  have hun : Unheard .gaveUp s :=
    ⟨hpc, hbound, hinv.alive hlive, hinv.calm (.inl (by rw [hpc]; trivial))⟩
  intro x hx
  have hx := hun.along (.inl rfl) hr hno x hx
  exact ⟨hx.client, hx.bound, hx.calm⟩

/-- The client has asked 20 times before the receiver begins. -/
theorem reaches_gaveUp : Reaches (ChannelStep 2) initProcesses
    ⟨.gaveUp, .reporting (.recvReady 7000), some [], 0, false⟩ := by
  have hpolling : ∀ n, n < receiverTries →
      Reaches (ChannelStep 2) initProcesses ⟨.polling n, .opening, some [], 0, false⟩ := by
    intro n hn
    induction n with
    | zero => exact .refl
    | succ n ih =>
      refine (ih (Nat.lt_of_succ_lt hn)).tail ⟨.clientStep, ?_⟩
      have hstep : ChannelStep 2 ⟨.polling n, .opening, some [], 0, false⟩ .clientStep _ :=
        .poll rfl rfl rfl
      rwa [if_pos hn] at hstep
  have hgaveUp : Reaches (ChannelStep 2) initProcesses ⟨.gaveUp, .opening, some [], 0, false⟩ :=
    (hpolling 19 (by decide)).tail ⟨.clientStep, .poll (n := 19) rfl rfl rfl⟩
  have hopen : Reaches (ChannelStep 2) initProcesses ⟨.gaveUp, .binding, some [], 0, false⟩ :=
    hgaveUp.tail ⟨.receiverStep, .openQueue rfl rfl⟩
  exact hopen.tail
    ⟨.receiverStep, .bound rfl (show initReceiver (fun _ => true) = some 7000 from rfl)⟩

theorem gave_up_waits_late : ∃ run : List (ChannelEvent × Processes), run ≠ [] ∧
    ∀ x ∈ run, x.2.client = .gaveUp ∧ x.2.receiver.Bound ∧ .chatQuit ∉ x.2.notices :=
  ⟨[(.receiverStep, ⟨.gaveUp, .receiving 7000, some [.inl (.recvReady 7000)], 0, false⟩)],
    by simp, gave_up_waits reaches_gaveUp rfl ⟨7000, .inl rfl⟩
      ⟨.reported (r := .recvReady 7000) (q := []) rfl rfl Nat.zero_lt_two, trivial⟩
      (by simp [ChannelEvent.OfUser])⟩

/-- A client that leaves without `shutdown_clean` leaves its receiver running behind, and the
queue, until the user closes the window. -/
theorem left_behind (h : Reaches (ChannelStep cap) initProcesses s)
    (hlive : s.receiver ≠ .exited) (hs : ChannelStep cap s .leave t)
    (hr : Along (ChannelStep cap) t run) (hno : ∀ x ∈ run, ¬x.1.OfUser) :
    ∀ x ∈ run, x.2.client = .gone ∧ x.2.receiver.Bound ∧ x.2.queue.isSome := by
  have hinv := channelInv_reaches h
  obtain ⟨hopened, rfl⟩ : s.client = .opened ∧ t = { s with client := .gone } := by
    cases hs with
    | leave hpc => exact ⟨hpc, rfl⟩
  have hrunning : s.client.Running := by rw [hopened]; trivial
  have hbound : s.receiver.Bound := by
    cases hpc : s.receiver with
    | receiving port => exact ⟨port, .inr rfl⟩
    | exited => exact (hlive hpc).elim
    | _ =>
      have hno := hinv.running hrunning
      rw [hpc] at hno
      exact (hno trivial).elim
  have hun : Unheard .gone { s with client := .gone } :=
    ⟨rfl, hbound, hinv.alive hlive, hinv.calm (.inr hrunning)⟩
  intro x hx
  have hx := hun.along (.inr rfl) hr hno x hx
  exact ⟨hx.client, hx.bound, hx.queue⟩

theorem left_behind_opened : ∃ run : List (ChannelEvent × Processes), run ≠ [] ∧
    ∀ x ∈ run, x.2.client = .gone ∧ x.2.receiver.Bound ∧ x.2.queue.isSome :=
  ⟨[(.turn ⟨none, []⟩, ⟨.gone, .receiving 7000, some [], 7000, false⟩)], by simp,
    left_behind (orderlyRun_along.reaches
        (.clientStep, ⟨.opened, .receiving 7000, some [], 7000, false⟩) (by simp [orderlyRun]))
      (by simp) (.leave rfl) ⟨.noNotice rfl fun _ hq => by cases hq; rfl, trivial⟩
      (by simp [ChannelEvent.OfUser])⟩

end Unheard
end Csc469.Chat
