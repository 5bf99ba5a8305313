import Csc469.Chat.Client
import Csc469.Chat.Receiver
import Csc469.Fairness
import Csc469.Queues

/-! `client_main.c` and `client_recv.c`: the message queue between the client and its receiver. -/
namespace Csc469.Chat

open Execution Fairness Queues

/-- `create_receiver`. -/
def receiverTries : Nat := 20

/-- The failure codes of the receiver. -/
def socketFailed : UInt16 := 11
def bindFailed : UInt16 := 12

/-- The messages of `CTRL_TYPE`, from the receiver to the client: `RECV_READY` with its port, or
`RECV_NOTREADY` with a failure code. -/
inductive Report where
  | recvReady (port : UInt16)
  | recvNotReady (code : UInt16)
  deriving DecidableEq

/-- Where the main thread of the client is. It is `gone` after `shutdown_clean`, and without it
when it ends by `exit(1)` in `init_client`, or by the return of `main`. -/
inductive ClientPC where
  | polling (numtries : Nat)
  | gaveUp
  | opened
  | notifying
  | quitting
  | waiting
  | removing
  | exiting
  | gone
  deriving DecidableEq

inductive ReceiverPC where
  | opening
  | binding
  | reporting (report : Report)
  | receiving (port : UInt16)
  | exited
  deriving DecidableEq

/-- The queue is there until it is removed. -/
structure Processes where
  client : ClientPC
  receiver : ReceiverPC
  queue : Option (List (Report ⊕ Notice))
  clientUdpPort : UInt16
  inHandler : Bool

inductive ChannelEvent where
  | clientStep
  | sent (notice : Notice)
  | switched
  | shutdown
  | leave
  | interrupt
  | receiverStep
  | turn (turn : Turn)
  | closed

/-- After its report the receiver goes on, or ends. -/
def Report.next : Report → ReceiverPC
  | .recvReady port => .receiving port
  | .recvNotReady _ => .exited

def Notice.next (port : UInt16) : Notice → ReceiverPC
  | .chatQuit => .exited
  | .switchedChan => .receiving port

/-- One step of a process: `msgsnd` waits while there are `cap` messages in the queue. -/
inductive ChannelStep (cap : Nat) : Processes → ChannelEvent → Processes → Prop
  -- `create_receiver`, when the queue is there and the child has been forked
  | poll {s : Processes} {n : Nat} {q : List (Report ⊕ Notice)} (hpc : s.client = .polling n)
      (hq : s.queue = some q) (hnone : takeFirst Sum.getLeft? q = none) :
    ChannelStep cap s .clientStep
      { s with client := if n + 1 < receiverTries then .polling (n + 1) else .gaveUp }
  | pollError {s : Processes} {n : Nat} (hpc : s.client = .polling n) :
    ChannelStep cap s .clientStep s
  | ready {s : Processes} {n : Nat} {port : UInt16} {q r : List (Report ⊕ Notice)}
      (hpc : s.client = .polling n) (hq : s.queue = some q)
      (htake : takeFirst Sum.getLeft? q = some (.recvReady port, r)) :
    ChannelStep cap s .clientStep
      { s with client := .opened, queue := some r, clientUdpPort := port }
  | failed {s : Processes} {n : Nat} {code : UInt16} {q r : List (Report ⊕ Notice)}
      (hpc : s.client = .polling n) (hq : s.queue = some q)
      (htake : takeFirst Sum.getLeft? q = some (.recvNotReady code, r)) :
    ChannelStep cap s .clientStep { s with client := .opened, queue := some r }
  | reaped {s : Processes} (hpc : s.client = .gaveUp) (hexit : s.receiver = .exited) :
    ChannelStep cap s .clientStep { s with client := .opened }
  -- `handle_switch_room_req`, when the client has been in a room before
  | switched {s : Processes} (hpc : s.client = .opened) :
    ChannelStep cap s .switched { s with client := .notifying }
  | notify {s : Processes} {q : List (Report ⊕ Notice)} (hpc : s.client = .notifying)
      (hq : s.queue = some q) (hroom : q.length < cap) :
    ChannelStep cap s (.sent .switchedChan)
      { s with client := .opened, queue := some (q ++ [.inr .switchedChan]) }
  -- `shutdown_clean`, and the handler of the interrupt, in which the signal is blocked
  | shutdown {s : Processes} (hpc : s.client = .opened) :
    ChannelStep cap s .shutdown { s with client := .quitting }
  | interrupt {s : Processes} (hmask : s.inHandler = false) (hpc : s.client ≠ .gone) :
    ChannelStep cap s .interrupt { s with client := .quitting, inHandler := true }
  | quit {s : Processes} {q : List (Report ⊕ Notice)} (hpc : s.client = .quitting)
      (hq : s.queue = some q) (hroom : q.length < cap) :
    ChannelStep cap s (.sent .chatQuit)
      { s with client := .waiting, queue := some (q ++ [.inr .chatQuit]) }
  | quitLost {s : Processes} (hpc : s.client = .quitting) (hq : s.queue = none) :
    ChannelStep cap s .clientStep { s with client := .waiting }
  | waited {s : Processes} (hpc : s.client = .waiting) (hexit : s.receiver = .exited) :
    ChannelStep cap s .clientStep { s with client := .removing }
  | remove {s : Processes} (hpc : s.client = .removing) :
    ChannelStep cap s .clientStep { s with client := .exiting, queue := none }
  | exit {s : Processes} (hpc : s.client = .exiting) :
    ChannelStep cap s .clientStep { s with client := .gone }
  | leave {s : Processes} (hpc : s.client = .opened) :
    ChannelStep cap s .leave { s with client := .gone }
  -- the receiver: `exec`, `open_client_channel`, `init_receiver`
  | openFailed {s : Processes} (hpc : s.receiver = .opening) :
    ChannelStep cap s .receiverStep { s with receiver := .exited }
  | openQueue {s : Processes} (hpc : s.receiver = .opening) (hq : s.queue.isSome) :
    ChannelStep cap s .receiverStep { s with receiver := .binding }
  | noSocket {s : Processes} (hpc : s.receiver = .binding) :
    ChannelStep cap s .receiverStep
      { s with receiver := .reporting (.recvNotReady socketFailed) }
  | bound {s : Processes} {bind : Nat → Bool} {port : Nat} (hpc : s.receiver = .binding)
      (hport : initReceiver bind = some port) :
    ChannelStep cap s .receiverStep
      { s with receiver := .reporting (.recvReady (UInt16.ofNat port)) }
  | notBound {s : Processes} {bind : Nat → Bool} (hpc : s.receiver = .binding)
      (hport : initReceiver bind = none) :
    ChannelStep cap s .receiverStep { s with receiver := .reporting (.recvNotReady bindFailed) }
  | reported {s : Processes} {r : Report} {q : List (Report ⊕ Notice)}
      (hpc : s.receiver = .reporting r) (hq : s.queue = some q) (hroom : q.length < cap) :
    ChannelStep cap s .receiverStep { s with receiver := r.next, queue := some (q ++ [.inl r]) }
  | reportLost {s : Processes} {r : Report} (hpc : s.receiver = .reporting r)
      (hq : s.queue = none) :
    ChannelStep cap s .receiverStep { s with receiver := r.next }
  -- `receive_msgs`
  | noticed {s : Processes} {port : UInt16} {notice : Notice} {datagram : Bytes}
      {q r : List (Report ⊕ Notice)} (hpc : s.receiver = .receiving port) (hq : s.queue = some q)
      (htake : takeFirst Sum.getRight? q = some (notice, r)) :
    ChannelStep cap s (.turn ⟨some notice, datagram⟩)
      { s with receiver := notice.next port, queue := some r }
  | noNotice {s : Processes} {port : UInt16} {datagram : Bytes}
      (hpc : s.receiver = .receiving port)
      (hnone : ∀ q, s.queue = some q → takeFirst Sum.getRight? q = none) :
    ChannelStep cap s (.turn ⟨none, datagram⟩) s
  -- the user closes the window of the receiver
  | closed {s : Processes} (hpc : s.receiver ≠ .exited) :
    ChannelStep cap s .closed { s with receiver := .exited }

/-- `create_receiver`, when the child has been forked. -/
def initProcesses : Processes :=
  { client := .polling 0
    receiver := .opening
    queue := some []
    clientUdpPort := 0
    inHandler := false }

/-- What is in the queue for the client, and for the receiver. -/
def Processes.reports (s : Processes) : List Report := (s.queue.getD []).filterMap Sum.getLeft?

def Processes.notices (s : Processes) : List Notice := (s.queue.getD []).filterMap Sum.getRight?

/-- The client is in `create_receiver`. -/
def ClientPC.Creating : ClientPC → Prop
  | .polling _ | .gaveUp => True
  | _ => False

/-- The client is connected, or connects. -/
def ClientPC.Running : ClientPC → Prop
  | .opened | .notifying => True
  | _ => False

/-- The client is in `shutdown_clean`. -/
def ClientPC.Closing : ClientPC → Prop
  | .quitting | .waiting | .removing | .exiting => True
  | _ => False

/-- The receiver is in `init_receiver`, or before. -/
def ReceiverPC.Starting : ReceiverPC → Prop
  | .opening | .binding | .reporting _ => True
  | _ => False

/-- The ports that `init_receiver` can bind. -/
def ReceiverPort (port : UInt16) : Prop := 7000 ≤ port.toNat ∧ port.toNat ≤ 7201

/-- What each process knows of the other. -/
structure ChannelInv (s : Processes) : Prop where
  alive : s.receiver ≠ .exited → s.queue.isSome
  starting : s.receiver.Starting → s.client.Creating ∧ s.queue = some [] ∨
    s.inHandler = true ∧ (s.client = .quitting ∧ s.queue = some [] ∨
      s.client = .waiting ∧ s.queue = some [.inr .chatQuit])
  reporting : ∀ port, s.receiver = .reporting (.recvReady port) → ReceiverPort port
  receiving : ∀ port, s.receiver = .receiving port → ReceiverPort port ∧
    (s.client.Creating → s.reports = [.recvReady port]) ∧
    (s.client.Running → s.clientUdpPort = port)
  creating : s.client.Creating → s.clientUdpPort = 0
  ready : ∀ port, .recvReady port ∈ s.reports → ReceiverPort port
  oneReport : s.reports.length ≤ 1
  port : s.clientUdpPort = 0 ∨ ReceiverPort s.clientUdpPort
  calm : s.client.Creating ∨ s.client.Running → .chatQuit ∉ s.notices
  told : s.client = .waiting → s.receiver = .exited ∨ .chatQuit ∈ s.notices
  reaped : s.client = .removing ∨ s.client = .exiting → s.receiver = .exited
  removed : s.client = .exiting → s.queue = none

variable {cap : Nat} {s t : Processes} {e : ChannelEvent}

theorem receiverPort_ofNat {bind : Nat → Bool} {port : Nat} (h : initReceiver bind = some port) :
    ReceiverPort (UInt16.ofNat port) := by
  obtain ⟨hmin, hmax⟩ := initReceiver_range h
  have hnat : (UInt16.ofNat port).toNat = port :=
    UInt16.toNat_ofNat_of_lt' (Nat.lt_of_le_of_lt hmax (by decide))
  rw [ReceiverPort, hnat]
  exact ⟨hmin, hmax⟩

theorem reports_of_queue {q : List (Report ⊕ Notice)} (h : s.queue = some q) :
    s.reports = q.filterMap Sum.getLeft? := by
  rw [Processes.reports, h, Option.getD_some]

theorem notices_of_queue {q : List (Report ⊕ Notice)} (h : s.queue = some q) :
    s.notices = q.filterMap Sum.getRight? := by
  rw [Processes.notices, h, Option.getD_some]

/-- What the client sends is behind the notices. -/
theorem reports_sent {q : List (Report ⊕ Notice)} {notice : Notice} {pc : ClientPC}
    (h : s.queue = some q) :
    Processes.reports { s with client := pc, queue := some (q ++ [.inr notice]) } = s.reports := by
  simp [Processes.reports, h]

theorem notices_sent {q : List (Report ⊕ Notice)} {notice : Notice} {pc : ClientPC}
    (h : s.queue = some q) :
    Processes.notices { s with client := pc, queue := some (q ++ [.inr notice]) } =
      s.notices ++ [notice] := by
  simp [Processes.notices, h]

/-- Taking a report leaves the notices as they are, and the other way round. -/
theorem takeReport {q r : List (Report ⊕ Notice)} {report : Report} (hq : s.queue = some q)
    (h : takeFirst Sum.getLeft? q = some (report, r)) :
    s.reports = report :: r.filterMap Sum.getLeft? ∧ s.notices = r.filterMap Sum.getRight? := by
  rw [reports_of_queue hq, notices_of_queue hq]
  exact ⟨takeFirst_filterMap h, (takeFirst_others (by rintro (m | m) hm <;> simp at hm ⊢) h).symm⟩

theorem takeNotice {q r : List (Report ⊕ Notice)} {notice : Notice} (hq : s.queue = some q)
    (h : takeFirst Sum.getRight? q = some (notice, r)) :
    s.notices = notice :: r.filterMap Sum.getRight? ∧ s.reports = r.filterMap Sum.getLeft? := by
  rw [reports_of_queue hq, notices_of_queue hq]
  exact ⟨takeFirst_filterMap h, (takeFirst_others (by rintro (m | m) hm <;> simp at hm ⊢) h).symm⟩

theorem channelInv_init : ChannelInv initProcesses := by
  constructor <;> simp [initProcesses, ClientPC.Creating, ClientPC.Running, Processes.reports,
    Processes.notices]

/-- A step of the client that leaves the queue as it is. -/
theorem ChannelInv.client_moves {pc : ClientPC} {masked : Bool} (h : ChannelInv s)
    (hstart : s.receiver.Starting → pc.Creating ∧ s.queue = some [] ∨
      masked = true ∧ (pc = .quitting ∧ s.queue = some [] ∨
        pc = .waiting ∧ s.queue = some [.inr .chatQuit]))
    (hcreating : pc.Creating → s.client.Creating)
    (hrunning : pc.Running → s.client.Running ∨ s.client.Creating ∧ s.receiver = .exited)
    (htold : pc = .waiting → s.receiver = .exited)
    (hreaped : pc = .removing → s.receiver = .exited) (hremoved : pc ≠ .exiting) :
    ChannelInv { s with client := pc, inHandler := masked } := by
  refine { h with
    starting := hstart
    receiving := fun port hport => ?_
    creating := fun hc => h.creating (hcreating hc)
    calm := fun hc => h.calm ?_
    told := fun hw => .inl (htold hw)
    reaped := fun hr => hreaped (hr.resolve_right hremoved)
    removed := fun hr => (hremoved hr).elim }
  · obtain ⟨hrange, hc, hr⟩ := h.receiving port hport
    refine ⟨hrange, fun hpc => hc (hcreating hpc), fun hpc => ?_⟩
    rcases hrunning hpc with hr' | ⟨-, hexit⟩
    · exact hr hr'
    · cases hport.symm.trans hexit
  · rcases hc with hc | hr
    · exact .inl (hcreating hc)
    · exact (hrunning hr).elim .inr fun hr => .inl hr.1

theorem ChannelInv.receiver_exits (h : ChannelInv s) :
    ChannelInv { s with receiver := .exited } :=
  { h with
    alive := fun hne => (hne rfl).elim
    starting := fun hs => hs.elim
    reporting := fun _ hp => by cases hp
    receiving := fun _ hp => by cases hp
    told := fun _ => .inl rfl
    reaped := fun _ => rfl }

theorem ReceiverPC.Starting.not_exited {pc : ReceiverPC} (h : pc.Starting) : pc ≠ .exited := by
  rintro rfl
  exact h

theorem ChannelInv.receiver_starts {rc : ReceiverPC} (h : ChannelInv s)
    (hs : s.receiver.Starting) (hrc : rc.Starting)
    (hport : ∀ port, rc = .reporting (.recvReady port) → ReceiverPort port) :
    ChannelInv { s with receiver := rc } := by
  have hne := hs.not_exited
  refine { h with
    alive := fun _ => h.alive hne
    starting := fun _ => h.starting hs
    reporting := hport
    receiving := fun port hp => ?_
    told := fun hw => .inr ((h.told hw).resolve_left hne)
    reaped := fun hr => (hne (h.reaped hr)).elim }
  change rc = .receiving port at hp
  rw [hp] at hrc
  exact hrc.elim

theorem ChannelInv.running (h : ChannelInv s) (hr : s.client.Running) :
    ¬s.receiver.Starting := by
  intro hs
  rcases h.starting hs with ⟨hc, -⟩ | ⟨-, ⟨hc, -⟩ | ⟨hc, -⟩⟩
  · cases hpc : s.client <;> simp [hpc, ClientPC.Running, ClientPC.Creating] at hr hc
  · rw [hc] at hr
    exact hr
  · rw [hc] at hr
    exact hr

/-- The report is the only message that the client finds. -/
theorem ChannelInv.takes_report {q r : List (Report ⊕ Notice)} {report : Report}
    {udpPort : UInt16} (h : ChannelInv s) (hpc : s.client.Creating) (hq : s.queue = some q)
    (htake : takeFirst Sum.getLeft? q = some (report, r))
    (hport : udpPort = 0 ∨ ReceiverPort udpPort)
    (hsame : ∀ port, report = .recvReady port → s.receiver = .receiving port → udpPort = port)
    (hfail : ∀ port, s.receiver = .receiving port → report = .recvReady port) :
    ChannelInv { s with client := .opened, queue := some r, clientUdpPort := udpPort } := by
  obtain ⟨hreports, hnotices⟩ := takeReport hq htake
  refine { h with
    alive := fun _ => rfl
    starting := fun hs => ?_
    receiving := fun port hp => ⟨(h.receiving port hp).1, fun hc => hc.elim,
      fun _ => hsame port (hfail port hp) hp⟩
    creating := fun hc => hc.elim
    ready := fun port hp => h.ready port (by rw [hreports]; exact List.mem_cons_of_mem _ hp)
    oneReport := by
      have hlen := h.oneReport
      rw [hreports, List.length_cons] at hlen
      exact Nat.le_of_succ_le hlen
    port := hport
    calm := fun _ hm => h.calm (.inl hpc) (by rw [hnotices]; exact hm)
    told := fun hw => by cases hw
    reaped := fun hr => by simp at hr
    removed := fun hr => by cases hr }
  have hnil : s.reports = [] := by
    rcases h.starting hs with ⟨-, hq'⟩ | ⟨-, ⟨-, hq'⟩ | ⟨-, hq'⟩⟩ <;> simp [Processes.reports, hq']
  rw [hnil] at hreports
  cases hreports

/-- The report is put behind what an interrupted client has sent. -/
theorem ChannelInv.reports {q : List (Report ⊕ Notice)} {report : Report} (h : ChannelInv s)
    (hpc : s.receiver = .reporting report) (hq : s.queue = some q) :
    ChannelInv { s with receiver := report.next, queue := some (q ++ [.inl report]) } := by
  have hs : s.receiver.Starting := by rw [hpc]; trivial
  have hnotices := notices_of_queue hq
  have hsame : Processes.notices
      { s with receiver := report.next, queue := some (q ++ [.inl report]) } = s.notices := by
    simp [Processes.notices, hq]
  have hnil : q.filterMap Sum.getLeft? = [] := by
    rcases h.starting hs with ⟨-, hq'⟩ | ⟨-, ⟨-, hq'⟩ | ⟨-, hq'⟩⟩ <;>
      (cases hq.symm.trans hq'; rfl)
  refine { h with
    alive := fun _ => rfl
    starting := fun hs' => ?_
    reporting := fun port hp => ?_
    receiving := fun port hp => ?_
    ready := fun port hp => ?_
    oneReport := by simp [Processes.reports, hnil]
    calm := fun hc => hsame ▸ h.calm hc
    told := fun hw => .inr (hsame ▸ (h.told hw).resolve_left hs.not_exited)
    reaped := fun hr => (hs.not_exited (h.reaped hr)).elim
    removed := fun hr => (hs.not_exited (h.reaped (.inr hr))).elim }
  · cases report <;> exact hs'.elim
  · cases report <;> cases hp
  · cases report with
    | recvNotReady code => cases hp
    | recvReady port' =>
      cases hp
      refine ⟨h.reporting _ hpc, fun _ => ?_, fun hr => (h.running hr hs).elim⟩
      simp [Processes.reports, hnil]
  · have hmem : report = .recvReady port := by simpa [Processes.reports, hnil, eq_comm] using hp
    exact h.reporting port (by rw [hpc, hmem])

theorem ChannelInv.takes_notice {q r : List (Report ⊕ Notice)} {notice : Notice} {port : UInt16}
    (h : ChannelInv s) (hpc : s.receiver = .receiving port) (hq : s.queue = some q)
    (htake : takeFirst Sum.getRight? q = some (notice, r)) :
    ChannelInv { s with receiver := notice.next port, queue := some r } := by
  obtain ⟨hnotices, hreports⟩ := takeNotice hq htake
  have hne : s.receiver ≠ .exited := by simp [hpc]
  refine { h with
    alive := fun _ => rfl
    starting := fun hs => ?_
    reporting := fun p hp => ?_
    receiving := fun p hp => ?_
    ready := fun p hp => h.ready p (hreports ▸ hp)
    oneReport := (congrArg _ hreports).symm.trans_le h.oneReport
    calm := fun hc hm => h.calm hc (hnotices ▸ List.mem_cons_of_mem _ hm)
    told := fun hw => ?_
    reaped := fun hr => (hne (h.reaped hr)).elim
    removed := fun hr => (hne (h.reaped (.inr hr))).elim }
  · cases notice <;> exact hs.elim
  · cases notice <;> cases hp
  · cases notice with
    | chatQuit => cases hp
    | switchedChan =>
      cases hp
      obtain ⟨hrange, hc, hr⟩ := h.receiving port hpc
      exact ⟨hrange, fun hpc' => hreports.symm.trans (hc hpc'), hr⟩
  · cases notice with
    | chatQuit => exact .inl rfl
    | switchedChan =>
      have hm := (h.told hw).resolve_left hne
      rw [hnotices] at hm
      exact .inr ((List.mem_cons.mp hm).resolve_left (by simp))

theorem channelInv_step (hs : ChannelStep cap s e t) (h : ChannelInv s) : ChannelInv t := by
  cases hs with
  | poll hpc hq hnone =>
    have hcreating : s.client.Creating := by rw [hpc]; trivial
    refine h.client_moves (fun hs => ?_) (fun _ => hcreating) (fun hr => ?_) (fun hw => ?_)
      (fun hr => ?_) ?_
    · rcases h.starting hs with ⟨-, hnil⟩ | ⟨-, ⟨hc, -⟩ | ⟨hc, -⟩⟩
      · refine .inl ⟨?_, hnil⟩
        split <;> trivial
      · cases hpc.symm.trans hc
      · cases hpc.symm.trans hc
    · split at hr <;> exact hr.elim
    · split at hw <;> cases hw
    · split at hr <;> cases hr
    · split <;> simp
  | pollError => exact h
  | ready hpc hq htake =>
    have hcreating : s.client.Creating := by rw [hpc]; trivial
    obtain ⟨hreports, -⟩ := takeReport hq htake
    have hmem := h.ready _ (by rw [hreports]; exact List.mem_cons_self)
    refine h.takes_report hcreating hq htake (.inr hmem) (fun p hp _ => by cases hp; rfl) ?_
    intro p hp
    have hsame := ((h.receiving p hp).2.1 hcreating).symm.trans hreports
    exact (List.cons.inj hsame).1.symm
  | failed hpc hq htake =>
    have hcreating : s.client.Creating := by rw [hpc]; trivial
    obtain ⟨hreports, -⟩ := takeReport hq htake
    refine h.takes_report hcreating hq htake h.port (fun p hp _ => by cases hp) ?_
    intro p hp
    have hsame := ((h.receiving p hp).2.1 hcreating).symm.trans hreports
    exact (List.cons.inj hsame).1.symm
  | reaped hpc hexit =>
    have hcreating : s.client.Creating := by rw [hpc]; trivial
    exact h.client_moves (fun hs => (hs.not_exited hexit).elim) (fun hc => hc.elim)
      (fun _ => .inr ⟨hcreating, hexit⟩) (fun hw => by cases hw) (fun hr => by cases hr) (by simp)
  | switched hpc =>
    have hrunning : s.client.Running := by rw [hpc]; trivial
    exact h.client_moves (fun hs => (h.running hrunning hs).elim) (fun hc => hc.elim)
      (fun _ => .inl hrunning) (fun hw => by cases hw) (fun hr => by cases hr) (by simp)
  | notify hpc hq hroom =>
    have hrunning : s.client.Running := by rw [hpc]; trivial
    refine { h with
      alive := fun _ => rfl
      starting := fun hs => (h.running hrunning hs).elim
      receiving := fun port hp => ⟨(h.receiving port hp).1, fun hc => hc.elim,
        fun _ => (h.receiving port hp).2.2 hrunning⟩
      creating := fun hc => hc.elim
      ready := fun port hp => h.ready port (reports_sent hq ▸ hp)
      oneReport := (congrArg _ (reports_sent hq)).trans_le h.oneReport
      calm := fun _ hm => h.calm (.inr hrunning) ?_
      told := fun hw => by cases hw
      reaped := fun hr => by simp at hr
      removed := fun hr => by cases hr }
    · rw [notices_sent hq] at hm
      simpa using hm
  | shutdown hpc =>
    have hrunning : s.client.Running := by rw [hpc]; trivial
    exact h.client_moves (fun hs => (h.running hrunning hs).elim) (fun hc => hc.elim)
      (fun hr => hr.elim) (fun hw => by cases hw) (fun hr => by cases hr) (by simp)
  | interrupt hmask hpc =>
    refine h.client_moves (fun hs => ?_) (fun hc => hc.elim) (fun hr => hr.elim)
      (fun hw => by cases hw) (fun hr => by cases hr) (by simp)
    rcases h.starting hs with ⟨-, hnil⟩ | ⟨hmask', -⟩
    · exact .inr ⟨rfl, .inl ⟨rfl, hnil⟩⟩
    · rw [hmask] at hmask'
      cases hmask'
  | quit hpc hq hroom =>
    refine { h with
      alive := fun _ => rfl
      starting := fun hs => ?_
      receiving := fun port hp => ⟨(h.receiving port hp).1, fun hc => hc.elim, fun hr => hr.elim⟩
      creating := fun hc => hc.elim
      ready := fun port hp => h.ready port (reports_sent hq ▸ hp)
      oneReport := (congrArg _ (reports_sent hq)).trans_le h.oneReport
      calm := fun hc => (hc.elim id id).elim
      told := fun _ => .inr ?_
      reaped := fun hr => by simp at hr
      removed := fun hr => by cases hr }
    · rcases h.starting hs with ⟨hc, -⟩ | ⟨hmask, ⟨-, hnil⟩ | ⟨hc, -⟩⟩
      · rw [hpc] at hc
        exact hc.elim
      · rw [hq] at hnil
        cases hnil
        exact .inr ⟨hmask, .inr ⟨rfl, rfl⟩⟩
      · cases hpc.symm.trans hc
    · rw [notices_sent hq]
      simp
  | quitLost hpc hq =>
    have hexit : s.receiver = .exited := by
      by_contra hne
      simpa [hq] using h.alive hne
    exact h.client_moves (fun hs => (hs.not_exited hexit).elim) (fun hc => hc.elim)
      (fun hr => hr.elim) (fun _ => hexit) (fun hr => by cases hr) (by simp)
  | waited hpc hexit =>
    exact h.client_moves (fun hs => (hs.not_exited hexit).elim) (fun hc => hc.elim)
      (fun hr => hr.elim) (fun hw => by cases hw) (fun _ => hexit) (by simp)
  | remove hpc =>
    have hexit := h.reaped (.inl hpc)
    exact { h with
      alive := fun hne => (hne hexit).elim
      starting := fun hs => (hs.not_exited hexit).elim
      receiving := fun port hp => by cases hexit.symm.trans hp
      creating := fun hc => hc.elim
      ready := fun port hp => by cases hp
      oneReport := by simp [Processes.reports]
      calm := fun hc => (hc.elim id id).elim
      told := fun hw => by cases hw
      reaped := fun _ => hexit
      removed := fun _ => rfl }
  | exit hpc =>
    have hexit := h.reaped (.inr hpc)
    exact h.client_moves (fun hs => (hs.not_exited hexit).elim) (fun hc => hc.elim)
      (fun hr => hr.elim) (fun hw => by cases hw) (fun hr => by cases hr) (by simp)
  | leave hpc =>
    have hrunning : s.client.Running := by rw [hpc]; trivial
    exact h.client_moves (fun hs => (h.running hrunning hs).elim) (fun hc => hc.elim)
      (fun hr => hr.elim) (fun hw => by cases hw) (fun hr => by cases hr) (by simp)
  | openFailed hpc => exact h.receiver_exits
  | openQueue hpc hq =>
    exact h.receiver_starts (by rw [hpc]; trivial) trivial fun port hp => by cases hp
  | noSocket hpc =>
    exact h.receiver_starts (by rw [hpc]; trivial) trivial fun port hp => by cases hp
  | bound hpc hport =>
    refine h.receiver_starts (by rw [hpc]; trivial) trivial fun port hp => ?_
    cases hp
    exact receiverPort_ofNat hport
  | notBound hpc =>
    exact h.receiver_starts (by rw [hpc]; trivial) trivial fun port hp => by cases hp
  | reported hpc hq hroom => exact h.reports hpc hq
  | reportLost hpc hq =>
    have hne : s.receiver ≠ .exited := by simp [hpc]
    simpa [hq] using h.alive hne
  | noticed hpc hq htake => exact h.takes_notice hpc hq htake
  | noNotice => exact h
  | closed => exact h.receiver_exits

theorem channelInv_reaches (h : Reaches (ChannelStep cap) initProcesses s) : ChannelInv s :=
  Reaches.invariant (R := ChannelStep cap) (fun _ _ _ h hs => channelInv_step hs h)
    channelInv_init h

/-- The port with which the client registers is the one that its receiver listens at, unless the
receiver has ended: it is 0 only when the receiver ended without a report. The queue is removed
only when the receiver has ended. -/
theorem receiver_port_agreed (h : Reaches (ChannelStep cap) initProcesses s) :
    (s.client.Running → s.receiver = .exited ∨
      s.receiver = .receiving s.clientUdpPort ∧ s.clientUdpPort ≠ 0) ∧
    (s.clientUdpPort = 0 ∨ 7000 ≤ s.clientUdpPort.toNat ∧ s.clientUdpPort.toNat ≤ 7201) ∧
    (s.queue = none → s.receiver = .exited) := by
  have hinv := channelInv_reaches h
  refine ⟨fun hr => ?_, hinv.port, fun hq => ?_⟩
  · cases hpc : s.receiver with
    | receiving port =>
      obtain ⟨hrange, -, hport⟩ := hinv.receiving port hpc
      rw [hport hr]
      refine .inr ⟨rfl, ?_⟩
      rintro rfl
      exact absurd hrange.1 (by decide)
    | exited => exact .inl rfl
    | _ =>
      have hno := hinv.running hr
      rw [hpc] at hno
      exact (hno trivial).elim
  · by_contra hne
    simpa [hq] using hinv.alive hne

section Notices
variable {run : List (ChannelEvent × Processes)} {behind buf : Bytes}

def ChannelEvent.sentNotice : ChannelEvent → Option Notice
  | .sent notice => some notice
  | _ => none

def ChannelEvent.takenNotice : ChannelEvent → Option Notice
  | .turn x => x.notice
  | _ => none

def ChannelEvent.turned : ChannelEvent → Option Turn
  | .turn x => some x
  | _ => none

/-- What the client sends in a run, what the receiver takes, and the turns of its loop. -/
def sentNotices (run : List (ChannelEvent × Processes)) : List Notice :=
  run.filterMap fun x => x.1.sentNotice

def takenNotices (run : List (ChannelEvent × Processes)) : List Notice :=
  run.filterMap fun x => x.1.takenNotice

def turns (run : List (ChannelEvent × Processes)) : List Turn :=
  run.filterMap fun x => x.1.turned

theorem sentNotices_cons :
    sentNotices ((e, t) :: run) = e.sentNotice.toList ++ sentNotices run := by
  cases he : e.sentNotice <;> simp [sentNotices, he]

theorem takenNotices_cons :
    takenNotices ((e, t) :: run) = e.takenNotice.toList ++ takenNotices run := by
  cases he : e.takenNotice <;> simp [takenNotices, he]

/-- While there is a queue, it holds what has been sent and not been taken. -/
theorem notices_step (hs : ChannelStep cap s e t) (hsome : t.queue.isSome) :
    s.notices ++ e.sentNotice.toList = e.takenNotice.toList ++ t.notices := by
  cases hs with
  | ready hpc hq htake =>
    obtain ⟨-, hnotices⟩ := takeReport hq htake
    rw [hnotices]
    exact List.append_nil _
  | failed hpc hq htake =>
    obtain ⟨-, hnotices⟩ := takeReport hq htake
    rw [hnotices]
    exact List.append_nil _
  | notify hpc hq hroom => exact (notices_sent hq).symm
  | quit hpc hq hroom => exact (notices_sent hq).symm
  | remove => cases hsome
  | reported hpc hq hroom =>
    simp [Processes.notices, hq, ChannelEvent.sentNotice, ChannelEvent.takenNotice]
  | noticed hpc hq htake =>
    obtain ⟨hnotices, -⟩ := takeNotice hq htake
    rw [hnotices]
    exact List.append_nil _
  | _ => exact List.append_nil _

/-- Once the queue has been removed nothing is sent or taken. -/
theorem removed_step (hs : ChannelStep cap s e t) (h : ChannelInv s) (hq : s.queue = none) :
    t.queue = none ∧ e.sentNotice = none ∧ e.takenNotice = none := by
  have hexit : s.receiver = .exited := by
    by_contra hne
    simpa [hq] using h.alive hne
  cases hs <;> simp_all [ChannelEvent.sentNotice, ChannelEvent.takenNotice]

theorem removed_along (hr : Along (ChannelStep cap) s run) (h : ChannelInv s)
    (hq : s.queue = none) : sentNotices run = [] ∧ takenNotices run = [] := by
  induction run generalizing s with
  | nil => exact ⟨rfl, rfl⟩
  | cons x run ih =>
    obtain ⟨e, t⟩ := x
    obtain ⟨hs, hr⟩ := hr
    obtain ⟨ht, hsent, htaken⟩ := removed_step hs h hq
    obtain ⟨ihs, iht⟩ := ih hr (channelInv_step hs h) ht
    rw [sentNotices_cons, takenNotices_cons, hsent, htaken]
    exact ⟨ihs, iht⟩

/-- The notices are taken in the order in which they were sent. -/
theorem notices_along (hr : Along (ChannelStep cap) s run) (h : ChannelInv s) :
    ∃ rest, s.notices ++ sentNotices run = takenNotices run ++ rest := by
  induction run generalizing s with
  | nil => exact ⟨s.notices, List.append_nil _⟩
  | cons x run ih =>
    obtain ⟨e, t⟩ := x
    obtain ⟨hs, hr⟩ := hr
    have ht := channelInv_step hs h
    rw [sentNotices_cons, takenNotices_cons]
    cases hq : t.queue with
    | some q =>
      obtain ⟨rest, hrest⟩ := ih hr ht
      refine ⟨rest, ?_⟩
      rw [← List.append_assoc, notices_step hs (by simp [hq]), List.append_assoc, hrest,
        List.append_assoc]
    | none =>
      obtain ⟨hs', ht'⟩ := removed_along hr ht hq
      have hnone : e.sentNotice = none ∧ e.takenNotice = none := by
        cases hs <;> simp_all [ChannelEvent.sentNotice, ChannelEvent.takenNotice]
      rw [hs', ht', hnone.1, hnone.2]
      exact ⟨s.notices, List.append_nil _⟩

/-- After `shutdown_clean` has begun only `CHAT_QUIT` is sent. -/
theorem closing_along (hr : Along (ChannelStep cap) s run)
    (hc : s.client.Closing ∨ s.client = .gone) :
    ∀ notice ∈ sentNotices run, notice = .chatQuit := by
  induction run generalizing s with
  | nil => exact fun _ hm => (nomatch hm)
  | cons x run ih =>
    obtain ⟨e, t⟩ := x
    obtain ⟨hs, hr⟩ := hr
    have hstep : (t.client.Closing ∨ t.client = .gone) ∧
        ∀ notice, e.sentNotice = some notice → notice = .chatQuit := by
      cases hs <;> simp_all [ClientPC.Closing, ChannelEvent.sentNotice]
    intro notice hm
    rw [sentNotices_cons] at hm
    rcases List.mem_append.mp hm with hm | hm
    · exact hstep.2 _ (Option.mem_toList.mp hm)
    · exact ih hr hstep.1 notice hm

/-- So the notices of a switched channel are all sent before. -/
theorem sent_in_order (hr : Along (ChannelStep cap) s run) :
    (sentNotices run).Pairwise fun a b => a = .chatQuit → b = .chatQuit := by
  induction run generalizing s with
  | nil => exact .nil
  | cons x run ih =>
    obtain ⟨e, t⟩ := x
    obtain ⟨hs, hr⟩ := hr
    rw [sentNotices_cons]
    cases he : e.sentNotice with
    | none => exact ih hr
    | some notice =>
      refine List.pairwise_cons.mpr ⟨fun b hb hquit => ?_, ih hr⟩
      have hclosing : t.client.Closing := by
        cases hs <;> simp_all [ClientPC.Closing, ChannelEvent.sentNotice]
      exact closing_along hr (.inl hclosing) b hb

/-- A receiver that has ended does not take a turn. -/
theorem exited_along (hr : Along (ChannelStep cap) s run) (hexit : s.receiver = .exited) :
    takenNotices run = [] := by
  induction run generalizing s with
  | nil => rfl
  | cons x run ih =>
    obtain ⟨e, t⟩ := x
    obtain ⟨hs, hr⟩ := hr
    have hstep : t.receiver = .exited ∧ e.takenNotice = none := by
      cases hs <;> simp_all [ChannelEvent.takenNotice]
    rw [takenNotices_cons, hstep.2]
    exact ih hr hstep.1

/-- The receiver takes nothing after `CHAT_QUIT`. -/
theorem taken_in_order (hr : Along (ChannelStep cap) s run) :
    ∃ k, takenNotices run = List.replicate k .switchedChan ∨
      takenNotices run = List.replicate k .switchedChan ++ [.chatQuit] := by
  induction run generalizing s with
  | nil => exact ⟨0, .inl rfl⟩
  | cons x run ih =>
    obtain ⟨e, t⟩ := x
    obtain ⟨hs, hr⟩ := hr
    rw [takenNotices_cons]
    cases he : e.takenNotice with
    | none => exact ih hr
    | some notice =>
      cases notice with
      | switchedChan =>
        obtain ⟨k, hk⟩ := ih hr
        exact ⟨k + 1, hk.imp (congrArg _) (congrArg _)⟩
      | chatQuit =>
        have hexit : t.receiver = .exited := by
          cases hs <;> simp_all [ChannelEvent.takenNotice, Notice.next]
        rw [exited_along hr hexit]
        exact ⟨0, .inr rfl⟩

/-- The line that `receive_msgs` displays for `SWITCHED_CHAN`. -/
def switchedBanner : Bytes := text "---------- SWITCHED CHANNEL ----------\n\n"

/-- No message of the server is displayed as that line. -/
theorem handleReceivedMsg_ne_banner {mem : Bytes} : handleReceivedMsg mem ≠ switchedBanner := by
  intro h
  have hcolon : (58 : UInt8) ∉ switchedBanner := by decide
  refine hcolon (h ▸ ?_)
  rw [handleReceivedMsg_shown]
  exact List.mem_append_left _ (List.mem_append_right _ (by decide))

/-- The receiver displays one such line for each notice that it takes before `CHAT_QUIT`. -/
theorem receiveMsgs_banners {ts : List Turn} : (receiveMsgs behind buf ts).2.count switchedBanner =
    ((ts.filterMap Turn.notice).takeWhile (· ≠ .chatQuit)).count .switchedChan := by
  have hcons : ∀ mem shown, (handleReceivedMsg mem :: shown).count switchedBanner =
      shown.count switchedBanner := fun mem shown =>
    List.count_cons_of_ne handleReceivedMsg_ne_banner
  induction ts generalizing buf with
  | nil => rfl
  | cons turn rest ih =>
    obtain ⟨notice, datagram⟩ := turn
    rw [receiveMsgs]
    rcases notice with - | - | -
    · by_cases hd : datagram = []
      · simpa [hd] using ih
      · simpa [hd, hcons] using ih
    · simp
    · have hbanner : ∀ shown, ([switchedBanner] ++ shown).count switchedBanner =
          shown.count switchedBanner + 1 := fun shown => List.count_cons_self
      by_cases hd : datagram = []
      · simpa [hd, switchedBanner] using (hbanner _).trans (congrArg (· + 1) ih)
      · simpa [hd, hcons, switchedBanner] using
          (hbanner _).trans (congrArg (· + 1) ((hcons _ _).trans ih))

theorem turns_notices : (turns run).filterMap Turn.notice = takenNotices run := by
  rw [turns, takenNotices, List.filterMap_filterMap]
  refine congrFun (congrArg _ (funext fun x => ?_)) run
  cases x.1 <;> rfl

/-- Whatever the order of the steps, the receiver takes the notices as they were sent and displays
a line for each; when it has been told to quit, it has displayed a line for every one. -/
theorem notices_shown (hr : Along (ChannelStep cap) initProcesses run) :
    takenNotices run <+: sentNotices run ∧
      (receiveMsgs behind buf (turns run)).2.count switchedBanner =
        (takenNotices run).count .switchedChan ∧
      (.chatQuit ∈ takenNotices run →
        (receiveMsgs behind buf (turns run)).2.count switchedBanner =
          (sentNotices run).count .switchedChan) := by
  obtain ⟨rest, hrest⟩ := notices_along hr channelInv_init
  change sentNotices run = takenNotices run ++ rest at hrest
  obtain ⟨k, hk⟩ := taken_in_order hr
  have hcount : (receiveMsgs behind buf (turns run)).2.count switchedBanner = k := by
    rw [receiveMsgs_banners, turns_notices]
    rcases hk with hk | hk <;> simp [hk]
  have htaken : (takenNotices run).count .switchedChan = k := by
    rcases hk with hk | hk <;> simp [hk]
  refine ⟨⟨rest, hrest.symm⟩, hcount.trans htaken.symm, fun hquit => hcount.trans ?_⟩
  have hrest0 : rest.count .switchedChan = 0 := by
    have hpair := sent_in_order hr
    rw [hrest] at hpair
    refine List.count_eq_zero.mpr fun hm => ?_
    cases (List.pairwise_append.mp hpair).2.2 _ hquit _ hm rfl
  rw [hrest, List.count_append, htaken, hrest0, Nat.add_zero]

section Orderly

/-- The receiver reports its port, the client changes the room and shuts down. -/
def orderlyRun : List (ChannelEvent × Processes) :=
  [(.receiverStep, ⟨.polling 0, .binding, some [], 0, false⟩),
    (.receiverStep, ⟨.polling 0, .reporting (.recvReady 7000), some [], 0, false⟩),
    (.receiverStep, ⟨.polling 0, .receiving 7000, some [.inl (.recvReady 7000)], 0, false⟩),
    (.clientStep, ⟨.opened, .receiving 7000, some [], 7000, false⟩),
    (.switched, ⟨.notifying, .receiving 7000, some [], 7000, false⟩),
    (.sent .switchedChan, ⟨.opened, .receiving 7000, some [.inr .switchedChan], 7000, false⟩),
    (.shutdown, ⟨.quitting, .receiving 7000, some [.inr .switchedChan], 7000, false⟩),
    (.turn ⟨some .switchedChan, []⟩, ⟨.quitting, .receiving 7000, some [], 7000, false⟩),
    (.sent .chatQuit, ⟨.waiting, .receiving 7000, some [.inr .chatQuit], 7000, false⟩),
    (.turn ⟨some .chatQuit, []⟩, ⟨.waiting, .exited, some [], 7000, false⟩),
    (.clientStep, ⟨.removing, .exited, some [], 7000, false⟩),
    (.clientStep, ⟨.exiting, .exited, none, 7000, false⟩),
    (.clientStep, ⟨.gone, .exited, none, 7000, false⟩)]

theorem orderlyRun_along : Along (ChannelStep 2) initProcesses orderlyRun :=
  ⟨.openQueue rfl rfl, .bound rfl (show initReceiver (fun _ => true) = some 7000 from rfl),
    .reported (r := .recvReady 7000) (q := []) rfl rfl Nat.zero_lt_two, .ready rfl rfl rfl,
    .switched rfl, .notify (q := []) rfl rfl Nat.zero_lt_two, .shutdown rfl, .noticed rfl rfl rfl,
    .quit (q := []) rfl rfl Nat.zero_lt_two, .noticed rfl rfl rfl, .waited rfl rfl, .remove rfl,
    .exit rfl, trivial⟩

theorem notices_shown_orderly : takenNotices orderlyRun <+: sentNotices orderlyRun ∧
    (receiveMsgs [] [] (turns orderlyRun)).2.count switchedBanner =
      (takenNotices orderlyRun).count .switchedChan ∧
    (.chatQuit ∈ takenNotices orderlyRun →
      (receiveMsgs [] [] (turns orderlyRun)).2.count switchedBanner =
        (sentNotices orderlyRun).count .switchedChan) :=
  notices_shown orderlyRun_along

theorem receiver_port_agreed_orderly :
    (ClientPC.Running .opened → ReceiverPC.receiving 7000 = .exited ∨
      ReceiverPC.receiving 7000 = .receiving 7000 ∧ (7000 : UInt16) ≠ 0) ∧
    ((7000 : UInt16) = 0 ∨ 7000 ≤ (7000 : UInt16).toNat ∧ (7000 : UInt16).toNat ≤ 7201) ∧
    ((some [] : Option (List (Report ⊕ Notice))) = none → ReceiverPC.receiving 7000 = .exited) :=
  receiver_port_agreed (orderlyRun_along.reaches
    (.clientStep, ⟨.opened, .receiving 7000, some [], 7000, false⟩) (by simp [orderlyRun]))

end Orderly
end Notices

end Csc469.Chat
