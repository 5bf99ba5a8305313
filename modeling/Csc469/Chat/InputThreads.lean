import Csc469.Chat.Commands
import Csc469.Fairness
import Csc469.Queues
import Csc469.Simulation

/-! `client_main.c`: the input thread hands the user's lines to the main thread. -/
namespace Csc469.Chat

open Execution Simulation Fairness

inductive Thread where
  | input
  | main
  deriving DecidableEq

/-- Where the input thread is in `get_user_input`. At the end of the input it leaves the loop
without unlocking. -/
inductive InputPC where
  | check
  | lock
  | clear
  | read
  | set
  | unlock
  | stopped
  deriving DecidableEq

/-- Where the main thread is in `handle_input`: `work` is the handling of a line that was found
in the buffer. It may end the program then, or in a heartbeat. -/
inductive MainPC where
  | check
  | beat
  | lock
  | handle
  | work (buf : Bytes)
  | reset
  | unlock
  | gone (working : Bool)
  deriving DecidableEq

structure Threads where
  input : InputPC
  main : MainPC
  readMutex : Option Thread
  readyToRead : Bool
  userInputBuffer : Bytes
  count : Nat

inductive ThreadEvent where
  | inputStep
  | typed (buf : Bytes)
  | endOfInput
  | mainStep
  | heartbeat
  | taken (buf : Bytes)
  | returned
  | exit
  deriving DecidableEq

/-- The newline at the end of a command is overwritten in the buffer. -/
def cutNewline (buf : Bytes) : Bytes :=
  if buf.head? = some 33 ∧ (cstr buf).getLast? = some newline then
    buf.set ((cstr buf).length - 1) 0
  else buf

def MainPC.Gone (pc : MainPC) : Prop := ∃ working, pc = .gone working

/-- One access of a thread to what they share, or a call that blocks. `exit` ends both. -/
inductive ThreadStep : Threads → ThreadEvent → Threads → Prop
  -- `get_user_input`
  | sleep {s : Threads} (hpc : s.input = .check) (hready : s.readyToRead = true)
      (hgone : ¬s.main.Gone) : ThreadStep s .inputStep s
  | proceed {s : Threads} (hpc : s.input = .check) (hready : s.readyToRead = false)
      (hgone : ¬s.main.Gone) : ThreadStep s .inputStep { s with input := .lock }
  | inputLock {s : Threads} (hpc : s.input = .lock) (hfree : s.readMutex = none)
      (hgone : ¬s.main.Gone) :
    ThreadStep s .inputStep { s with input := .clear, readMutex := some .input }
  | clear {s : Threads} (hpc : s.input = .clear) (hgone : ¬s.main.Gone) :
    ThreadStep s .inputStep
      { s with input := .read, userInputBuffer := List.replicate maxMsgdata 0 }
  | typed {s : Threads} {typed buf : Bytes} (hpc : s.input = .read)
      (hbuf : getUserInput typed = some buf) (hgone : ¬s.main.Gone) :
    ThreadStep s (.typed buf) { s with input := .set, userInputBuffer := buf }
  | endOfInput {s : Threads} (hpc : s.input = .read) (hgone : ¬s.main.Gone) :
    ThreadStep s .endOfInput { s with input := .stopped }
  | set {s : Threads} (hpc : s.input = .set) (hgone : ¬s.main.Gone) :
    ThreadStep s .inputStep { s with input := .unlock, readyToRead := true }
  | inputUnlock {s : Threads} (hpc : s.input = .unlock) (hgone : ¬s.main.Gone) :
    ThreadStep s .inputStep { s with input := .check, readMutex := none }
  -- `handle_input`
  | idle {s : Threads} (hpc : s.main = .check) (hready : s.readyToRead = false)
      (hcount : s.count + 1 < 1000) :
    ThreadStep s .mainStep { s with count := s.count + 1 }
  | heartbeat {s : Threads} (hpc : s.main = .check) (hready : s.readyToRead = false)
      (hcount : 1000 ≤ s.count + 1) :
    ThreadStep s .heartbeat { s with main := .beat, count := s.count + 1 }
  | beaten {s : Threads} (hpc : s.main = .beat) :
    ThreadStep s .returned { s with main := .check, count := 0 }
  | see {s : Threads} (hpc : s.main = .check) (hready : s.readyToRead = true) :
    ThreadStep s .mainStep { s with main := .lock }
  | mainLock {s : Threads} (hpc : s.main = .lock) (hfree : s.readMutex = none) :
    ThreadStep s .mainStep { s with main := .handle, readMutex := some .main }
  | take {s : Threads} (hpc : s.main = .handle) :
    ThreadStep s (.taken s.userInputBuffer)
      { s with
        main := .work s.userInputBuffer
        userInputBuffer := cutNewline s.userInputBuffer }
  | handled {s : Threads} {buf : Bytes} (hpc : s.main = .work buf) :
    ThreadStep s .returned { s with main := .reset }
  | reset {s : Threads} (hpc : s.main = .reset) :
    ThreadStep s .mainStep { s with main := .unlock, readyToRead := false }
  | mainUnlock {s : Threads} (hpc : s.main = .unlock) :
    ThreadStep s .mainStep { s with main := .check, readMutex := none }
  -- `shutdown_clean`, on a command to quit or when there is no server left
  | exitBeat {s : Threads} (hpc : s.main = .beat) :
    ThreadStep s .exit { s with main := .gone false }
  | exitWork {s : Threads} {buf : Bytes} (hpc : s.main = .work buf) :
    ThreadStep s .exit { s with main := .gone true }

/-- `main`, when both loops begin. -/
def initThreads : Threads :=
  { input := .check
    main := .check
    readMutex := none
    readyToRead := false
    userInputBuffer := List.replicate maxMsgdata 0
    count := 0 }

/-- The input thread is between its calls to lock and unlock. -/
def InputPC.Holds (pc : InputPC) : Prop :=
  pc = .clear ∨ pc = .read ∨ pc = .set ∨ pc = .unlock ∨ pc = .stopped

/-- The input thread has seen that it may fill the buffer, and not yet set the flag. -/
def InputPC.Filling (pc : InputPC) : Prop :=
  pc = .lock ∨ pc = .clear ∨ pc = .read ∨ pc = .set ∨ pc = .stopped

/-- The main thread has seen that the buffer is filled, and not yet reset the flag. -/
def MainPC.Emptying (pc : MainPC) : Prop :=
  pc = .lock ∨ pc = .handle ∨ (∃ buf, pc = .work buf) ∨ pc = .reset

/-- The main thread is between its calls to lock and unlock. -/
def MainPC.Holds (pc : MainPC) : Prop :=
  pc = .handle ∨ (∃ buf, pc = .work buf) ∨ pc = .reset ∨ pc = .unlock

/-- The main thread has not taken what is in the buffer. -/
def MainPC.WillTake (pc : MainPC) : Prop :=
  pc = .check ∨ pc = .beat ∨ pc = .lock ∨ pc = .handle ∨ pc = .gone false

structure ThreadsInv (s : Threads) : Prop where
  inputHolds : s.input.Holds → s.readMutex = some .input
  heldByInput : s.readMutex = some .input → s.input.Holds
  mainHolds : s.main.Holds → s.readMutex = some .main
  heldByMain : s.readMutex = some .main → s.main.Holds ∨ s.main.Gone
  filling : s.input.Filling → s.readyToRead = false
  filled : s.input = .unlock → s.readyToRead = true
  emptying : s.main.Emptying → s.readyToRead = true
  emptied : s.main = .unlock → s.readyToRead = false
  working : ∀ buf, s.main = .work buf → s.userInputBuffer = cutNewline buf

variable {s t : Threads} {e : ThreadEvent}

/-- What `handle_command_input` is given is what it finds in the buffer. -/
theorem cutNewline_command {buf : Bytes} (h : buf.head? = some 33) :
    (cstr (cutNewline buf)).drop 1 = commandLine buf := by
  rw [commandLine, cutNewline]
  by_cases hnl : (cstr buf).getLast? = some newline
  · obtain ⟨l, hl⟩ : ∃ l, cstr buf = l ++ [newline] := by
      rcases List.eq_nil_or_concat' (cstr buf) with hnil | ⟨l, x, hx⟩
      · rw [hnil] at hnl
        cases hnl
      · rw [hx, List.getLast?_concat] at hnl
        exact ⟨l, by rw [hx, Option.some.inj hnl]⟩
    obtain ⟨rest, hrest⟩ : ∃ rest, buf = l ++ newline :: rest := by
      have hpre : cstr buf <+: buf := List.takeWhile_prefix _
      obtain ⟨rest, hrest⟩ := hpre
      exact ⟨rest, by rw [← hrest, hl, List.append_assoc]; rfl⟩
    have h0 : 0 ∉ l := fun hm => zero_notMem_cstr (by rw [hl]; exact List.mem_append_left _ hm)
    have hset : buf.set ((cstr buf).length - 1) 0 = l ++ 0 :: rest := by
      rw [hl, hrest]
      simp
    rw [if_pos ⟨h, hnl⟩, if_pos hnl, hset, cstr_append_zero h0, hl, List.dropLast_concat]
  · rw [if_neg (fun hc => hnl hc.2), if_neg hnl]

theorem threadsInv_init : ThreadsInv initThreads := by
  constructor <;> simp [initThreads, InputPC.Holds, InputPC.Filling, MainPC.Holds, MainPC.Emptying]

/-- The two threads are never between lock and unlock at once. -/
theorem ThreadsInv.exclusive (h : ThreadsInv s) (hi : s.input.Holds) : ¬s.main.Holds := by
  intro hm
  cases (h.inputHolds hi).symm.trans (h.mainHolds hm)

/-- While one thread fills the buffer the other does not look at it. -/
theorem ThreadsInv.not_emptying (h : ThreadsInv s) (hi : s.input.Filling) : ¬s.main.Emptying := by
  intro hm
  cases (h.filling hi).symm.trans (h.emptying hm)

/-- A thread that is not between lock and unlock does not have the lock. -/
theorem ThreadsInv.not_heldByInput (h : ThreadsInv s) (hi : ¬s.input.Holds) :
    s.readMutex ≠ some .input := fun hm => hi (h.heldByInput hm)

theorem ThreadsInv.not_heldByMain (h : ThreadsInv s) (hm : ¬s.main.Holds) (hg : ¬s.main.Gone) :
    s.readMutex ≠ some .main := fun hh => (h.heldByMain hh).elim hm hg

/-- A step of the main thread to a place outside of lock and unlock where it knows nothing of the
buffer. -/
theorem ThreadsInv.main_outside (h : ThreadsInv s) (hmutex : t.readMutex ≠ some .main)
    (hsame : t.input = s.input ∧ t.readyToRead = s.readyToRead)
    (hin : t.readMutex = s.readMutex ∨ ¬s.input.Holds ∧ t.readMutex ≠ some .input)
    (hpc : t.main = .check ∨ t.main = .beat) : ThreadsInv t := by
  obtain ⟨hinput, hready⟩ := hsame
  have hholds : ¬t.main.Holds := by rcases hpc with hpc | hpc <;> simp [MainPC.Holds, hpc]
  refine ⟨fun hi => ?_, fun hm => ?_, fun hm => (hholds hm).elim, fun hm => (hmutex hm).elim,
    fun hf => ?_, fun hf => ?_, fun he => ?_, fun he => ?_, fun buf hw => ?_⟩
  · rw [hinput] at hi
    rcases hin with hin | hin
    · rw [hin]
      exact h.inputHolds hi
    · exact (hin.1 hi).elim
  · rw [hinput]
    rcases hin with hin | hin
    · exact h.heldByInput (hin ▸ hm)
    · exact (hin.2 hm).elim
  · rw [hready]
    exact h.filling (hinput ▸ hf)
  · rw [hready]
    exact h.filled (hinput ▸ hf)
  · rcases hpc with hpc | hpc <;> simp [MainPC.Emptying, hpc] at he
  · rcases hpc with hpc | hpc <;> cases hpc.symm.trans he
  · rcases hpc with hpc | hpc <;> cases hpc.symm.trans hw

theorem threadsInv_step (hs : ThreadStep s e t) (h : ThreadsInv s) : ThreadsInv t := by
  cases hs with
  | sleep => exact h
  | proceed hpc hready =>
    have hno := h.not_heldByInput (by simp [InputPC.Holds, hpc])
    exact { h with
      inputHolds := by simp [InputPC.Holds]
      heldByInput := fun hm => (hno hm).elim
      filling := fun _ => hready
      filled := by simp }
  | inputLock hpc hfree =>
    exact { h with
      inputHolds := fun _ => rfl
      heldByInput := fun _ => .inl rfl
      mainHolds := fun hm => by cases hfree.symm.trans (h.mainHolds hm)
      heldByMain := by simp
      filling := fun _ => h.filling (.inl hpc)
      filled := by simp }
  | clear hpc =>
    have hm := h.exclusive (.inl hpc)
    exact { h with
      inputHolds := fun _ => h.inputHolds (.inl hpc)
      heldByInput := fun _ => .inr (.inl rfl)
      filling := fun _ => h.filling (.inr (.inl hpc))
      filled := by simp
      working := fun buf hw => (hm (.inr (.inl ⟨buf, hw⟩))).elim }
  | typed hpc =>
    have hm := h.exclusive (.inr (.inl hpc))
    exact { h with
      inputHolds := fun _ => h.inputHolds (.inr (.inl hpc))
      heldByInput := fun _ => .inr (.inr (.inl rfl))
      filling := fun _ => h.filling (.inr (.inr (.inl hpc)))
      filled := by simp
      working := fun buf hw => (hm (.inr (.inl ⟨buf, hw⟩))).elim }
  | endOfInput hpc =>
    exact { h with
      inputHolds := fun _ => h.inputHolds (.inr (.inl hpc))
      heldByInput := fun _ => .inr (.inr (.inr (.inr rfl)))
      filling := fun _ => h.filling (.inr (.inr (.inl hpc)))
      filled := by simp }
  | set hpc =>
    have hm := h.exclusive (.inr (.inr (.inl hpc)))
    exact { h with
      inputHolds := fun _ => h.inputHolds (.inr (.inr (.inl hpc)))
      heldByInput := fun _ => .inr (.inr (.inr (.inl rfl)))
      filling := by simp [InputPC.Filling]
      filled := fun _ => rfl
      emptying := fun _ => rfl
      emptied := fun hu => (hm (.inr (.inr (.inr hu)))).elim }
  | inputUnlock hpc =>
    have hm := h.exclusive (.inr (.inr (.inr (.inl hpc))))
    exact { h with
      inputHolds := by simp [InputPC.Holds]
      heldByInput := by simp
      mainHolds := fun hh => (hm hh).elim
      heldByMain := by simp
      filling := by simp [InputPC.Filling]
      filled := by simp }
  | idle => exact { h with }
  | heartbeat hpc =>
    have hno := h.not_heldByMain (by simp [MainPC.Holds, hpc]) (by simp [MainPC.Gone, hpc])
    exact h.main_outside hno ⟨rfl, rfl⟩ (.inl rfl) (.inr rfl)
  | beaten hpc =>
    have hno := h.not_heldByMain (by simp [MainPC.Holds, hpc]) (by simp [MainPC.Gone, hpc])
    exact h.main_outside hno ⟨rfl, rfl⟩ (.inl rfl) (.inl rfl)
  | see hpc hready =>
    have hno := h.not_heldByMain (by simp [MainPC.Holds, hpc]) (by simp [MainPC.Gone, hpc])
    exact { h with
      mainHolds := by simp [MainPC.Holds]
      heldByMain := fun hm => (hno hm).elim
      emptying := fun _ => hready
      emptied := by simp
      working := by simp }
  | mainLock hpc hfree =>
    exact { h with
      inputHolds := fun hi => by cases hfree.symm.trans (h.inputHolds hi)
      heldByInput := by simp
      mainHolds := fun _ => rfl
      heldByMain := fun _ => .inl (.inl rfl)
      emptying := fun _ => h.emptying (.inl hpc)
      emptied := by simp
      working := by simp }
  | take hpc =>
    exact { h with
      mainHolds := fun _ => h.mainHolds (.inl hpc)
      heldByMain := fun _ => .inl (.inr (.inl ⟨_, rfl⟩))
      emptying := fun _ => h.emptying (.inr (.inl hpc))
      emptied := by simp
      working := fun buf hw => by rw [MainPC.work.inj hw] }
  | handled hpc =>
    exact { h with
      mainHolds := fun _ => h.mainHolds (.inr (.inl ⟨_, hpc⟩))
      heldByMain := fun _ => .inl (.inr (.inr (.inl rfl)))
      emptying := fun _ => h.emptying (.inr (.inr (.inl ⟨_, hpc⟩)))
      emptied := by simp
      working := by simp }
  | reset hpc =>
    have hi : ¬s.input.Holds := fun hi => h.exclusive hi (.inr (.inr (.inl hpc)))
    exact { h with
      mainHolds := fun _ => h.mainHolds (.inr (.inr (.inl hpc)))
      heldByMain := fun _ => .inl (.inr (.inr (.inr rfl)))
      filling := fun _ => rfl
      filled := fun hu => (hi (.inr (.inr (.inr (.inl hu))))).elim
      emptying := by simp [MainPC.Emptying]
      emptied := fun _ => rfl
      working := by simp }
  | mainUnlock hpc =>
    have hi : ¬s.input.Holds := fun hi => h.exclusive hi (.inr (.inr (.inr hpc)))
    exact h.main_outside (by simp) ⟨rfl, rfl⟩ (.inr ⟨hi, by simp⟩) (.inl rfl)
  | exitBeat hpc =>
    have hno := h.not_heldByMain (by simp [MainPC.Holds, hpc]) (by simp [MainPC.Gone, hpc])
    exact { h with
      mainHolds := by simp [MainPC.Holds]
      heldByMain := fun hm => (hno hm).elim
      emptying := by simp [MainPC.Emptying]
      emptied := by simp
      working := by simp }
  | exitWork =>
    exact { h with
      mainHolds := by simp [MainPC.Holds]
      heldByMain := fun _ => .inr ⟨_, rfl⟩
      emptying := by simp [MainPC.Emptying]
      emptied := by simp
      working := by simp }

section Lines
variable {run : List (ThreadEvent × Threads)}

instance : DecidablePred MainPC.WillTake := fun _ => inferInstanceAs (Decidable (_ ∨ _))

/-- The line that was typed and that the main thread has not taken yet. -/
def Threads.pending (s : Threads) : List Bytes :=
  if s.input = .set ∨ (s.readyToRead = true ∧ s.main.WillTake) then [s.userInputBuffer] else []

/-- A line goes into the buffer, or comes out of it. -/
def ThreadEvent.queued : ThreadEvent → Option (Bytes ⊕ Bytes)
  | .typed buf => some (.inl buf)
  | .taken buf => some (.inr buf)
  | _ => none

/-- The buffer is a queue for one line. -/
theorem pending_simulates : Simulates ThreadsInv ThreadStep (Queues.Step 1) Threads.pending
    ThreadEvent.queued where
  keeps _ _ _ h hs := threadsInv_step hs h
  step := by
    intro s e t d h hs hq
    cases hs with
    | typed hpc hbuf =>
      cases hq
      have hready := h.filling (.inr (.inr (.inl hpc)))
      have hbefore : s.pending = [] := by simp [Threads.pending, hpc, hready]
      rw [hbefore]
      exact .put (by simp)
    | take hpc =>
      cases hq
      have hready := h.emptying (.inr (.inl hpc))
      have hnot := mt h.filling (by simp [hready])
      have hbefore : s.pending = [s.userInputBuffer] := by
        simp [Threads.pending, hpc, hready, MainPC.WillTake]
      have hafter : Threads.pending { s with
          main := .work s.userInputBuffer
          userInputBuffer := cutNewline s.userInputBuffer } = [] := by
        simp only [InputPC.Filling, not_or] at hnot
        simp [Threads.pending, hnot, MainPC.WillTake]
      rw [hbefore, hafter]
      exact .take
    | _ => cases hq
  silent := by
    intro s e t h hs hq
    have hfilled := h.filled
    have hfilling := h.filling
    have hemptying := h.emptying
    have hemptied := h.emptied
    have hinput := h.inputHolds
    have hmain := h.mainHolds
    cases hs with
    | typed => cases hq
    | take => cases hq
    | set hpc hgone =>
      -- the main thread does not hold the lock, and has not seen the flag
      have hcheck : s.main = .check ∨ s.main = .beat := by
        have hm := h.exclusive (.inr (.inr (.inl hpc)))
        have he := h.not_emptying (.inr (.inr (.inr (.inl hpc))))
        cases hmain : s.main with
        | gone working => exact (hgone ⟨working, hmain⟩).elim
        | _ => simp_all [MainPC.Emptying, MainPC.Holds]
      rcases hcheck with hcheck | hcheck <;>
        simp [Threads.pending, MainPC.WillTake, hpc, hcheck]
    | _ =>
      simp_all [Threads.pending, MainPC.WillTake, InputPC.Filling, MainPC.Emptying, InputPC.Holds,
        MainPC.Holds]

/-- The lines that the input thread has read in a run, and those the main thread has taken. -/
def typedLines (run : List (ThreadEvent × Threads)) : List Bytes :=
  run.filterMap fun x => match x.1 with
    | .typed buf => some buf
    | _ => none

def takenLines (run : List (ThreadEvent × Threads)) : List Bytes :=
  run.filterMap fun x => match x.1 with
    | .taken buf => some buf
    | _ => none

theorem typedLines_eq : typedLines run = Queues.puts (run.filterMap fun x => x.1.queued) := by
  rw [typedLines, Queues.puts, List.filterMap_filterMap]
  refine congrFun (congrArg _ (funext fun x => ?_)) run
  cases x.1 <;> rfl

theorem takenLines_eq : takenLines run = Queues.takes (run.filterMap fun x => x.1.queued) := by
  rw [takenLines, Queues.takes, List.filterMap_filterMap]
  refine congrFun (congrArg _ (funext fun x => ?_)) run
  cases x.1 <;> rfl

/-- Every line that is typed is taken once and in its turn, with at most one waiting; while the
main thread works on a line it stays in the buffer, and the threads exclude each other. -/
theorem lines_handed_over (hr : Along ThreadStep initThreads run) :
    typedLines run = takenLines run ++ (lastState initThreads run).pending ∧
      (lastState initThreads run).pending.length ≤ 1 ∧
      ∀ x ∈ run, ¬(x.2.input.Holds ∧ x.2.main.Holds) ∧
        ∀ buf, x.2.main = .work buf → x.2.userInputBuffer = cutNewline buf ∧
          (buf.head? = some 33 → (cstr x.2.userInputBuffer).drop 1 = commandLine buf) := by
  have halong := pending_simulates.along threadsInv_init hr
  have hlast := pending_simulates.last threadsInv_init hr
  have hputs := Queues.puts_eq_takes halong
  have hlen := Queues.length_le halong (by decide)
  rw [hlast, seen_labels, ← typedLines_eq, ← takenLines_eq] at hputs
  rw [hlast] at hlen
  refine ⟨hputs, hlen, fun x hx => ?_⟩
  have hinv : ThreadsInv x.2 := Reaches.invariant (R := ThreadStep)
    (fun _ _ _ h hs => threadsInv_step hs h) threadsInv_init (hr.reaches x hx)
  refine ⟨fun h => hinv.exclusive h.1 h.2, fun buf hw => ?_⟩
  rw [hinv.working buf hw]
  exact ⟨rfl, cutNewline_command⟩

section Quit

/-- The buffer after the user has typed a command to quit. -/
def quitBuffer : Bytes := (getUserInput (text "!q" ++ [newline])).getD []

theorem getUserInput_quit : getUserInput (text "!q" ++ [newline]) = some quitBuffer := by
  obtain ⟨buf, hbuf⟩ : ∃ buf, getUserInput (text "!q" ++ [newline]) = some buf := ⟨_, rfl⟩
  rw [quitBuffer, hbuf, Option.getD_some]

/-- The states in which the input thread reads the command, and the main thread handles it. -/
def quitRun : List (ThreadEvent × Threads) :=
  let zeros := List.replicate maxMsgdata 0
  [(.inputStep, ⟨.lock, .check, none, false, zeros, 0⟩),
    (.inputStep, ⟨.clear, .check, some .input, false, zeros, 0⟩),
    (.inputStep, ⟨.read, .check, some .input, false, zeros, 0⟩),
    (.typed quitBuffer, ⟨.set, .check, some .input, false, quitBuffer, 0⟩),
    (.inputStep, ⟨.unlock, .check, some .input, true, quitBuffer, 0⟩),
    (.mainStep, ⟨.unlock, .lock, some .input, true, quitBuffer, 0⟩),
    (.inputStep, ⟨.check, .lock, none, true, quitBuffer, 0⟩),
    (.mainStep, ⟨.check, .handle, some .main, true, quitBuffer, 0⟩),
    (.taken quitBuffer, ⟨.check, .work quitBuffer, some .main, true, cutNewline quitBuffer, 0⟩),
    (.exit, ⟨.check, .gone true, some .main, true, cutNewline quitBuffer, 0⟩)]

theorem quitRun_along : Along ThreadStep initThreads quitRun := by
  have hgone : ∀ pc : MainPC, (pc = .check ∨ pc = .lock) → ¬pc.Gone := by
    rintro pc (rfl | rfl) ⟨working, h⟩ <;> cases h
  exact ⟨.proceed rfl rfl (hgone _ (.inl rfl)), .inputLock rfl rfl (hgone _ (.inl rfl)),
    .clear rfl (hgone _ (.inl rfl)), .typed rfl getUserInput_quit (hgone _ (.inl rfl)),
    .set rfl (hgone _ (.inl rfl)), .see rfl rfl, .inputUnlock rfl (hgone _ (.inr rfl)),
    .mainLock rfl rfl, .take rfl, .exitWork rfl, trivial⟩

theorem lines_handed_over_quit : typedLines quitRun =
      takenLines quitRun ++ (lastState initThreads quitRun).pending ∧
    (lastState initThreads quitRun).pending.length ≤ 1 ∧
      ∀ x ∈ quitRun, ¬(x.2.input.Holds ∧ x.2.main.Holds) ∧
        ∀ buf, x.2.main = .work buf → x.2.userInputBuffer = cutNewline buf ∧
          (buf.head? = some 33 → (cstr x.2.userInputBuffer).drop 1 = commandLine buf) :=
  lines_handed_over quitRun_along

end Quit
end Lines

section Progress
variable {buf : Bytes} {E : Trace Threads ThreadEvent} {n : Nat}

/-- The steps of the main thread. -/
def ThreadEvent.OfMain (e : ThreadEvent) : Prop :=
  e = .mainStep ∨ e = .heartbeat ∨ (∃ buf, e = .taken buf) ∨ e = .returned ∨ e = .exit

/-- The main thread never waits for the user: it can go on, or the input thread is about to
unlock. -/
theorem main_goes_on (hr : Reaches ThreadStep initThreads s) (hgone : ¬s.main.Gone) :
    Enabled ThreadStep ThreadEvent.OfMain s ∨ s.main = .lock ∧ s.input = .unlock := by
  have h : ThreadsInv s := Reaches.invariant (R := ThreadStep)
    (fun _ _ _ h hs => threadsInv_step hs h) threadsInv_init hr
  cases hpc : s.main with
  | check =>
    left
    cases hready : s.readyToRead with
    | false =>
      by_cases hcount : s.count + 1 < 1000
      · exact ⟨_, _, .inl rfl, .idle hpc hready hcount⟩
      · exact ⟨_, _, .inr (.inl rfl), .heartbeat hpc hready (by omega)⟩
    | true => exact ⟨_, _, .inl rfl, .see hpc hready⟩
  | beat => exact .inl ⟨_, _, .inr (.inr (.inr (.inl rfl))), .beaten hpc⟩
  | lock =>
    have hready := h.emptying (.inl hpc)
    cases hmutex : s.readMutex with
    | none => exact .inl ⟨_, _, .inl rfl, .mainLock hpc hmutex⟩
    | some thread =>
      cases thread with
      | main =>
        rcases h.heldByMain hmutex with hm | hm
        · simp [MainPC.Holds, hpc] at hm
        · exact (hgone hm).elim
      | input =>
        -- of the places where the lock is held, only the last is behind the flag
        have hnot := mt h.filling (by simp [hready])
        have hholds := h.heldByInput hmutex
        simp only [InputPC.Filling, not_or] at hnot
        simp only [InputPC.Holds, hnot, false_or, or_false] at hholds
        exact .inr ⟨rfl, hholds⟩
  | handle => exact .inl ⟨_, _, .inr (.inr (.inl ⟨_, rfl⟩)), .take hpc⟩
  | work buf => exact .inl ⟨_, _, .inr (.inr (.inr (.inl rfl))), .handled hpc⟩
  | reset => exact .inl ⟨_, _, .inl rfl, .reset hpc⟩
  | unlock => exact .inl ⟨_, _, .inl rfl, .mainUnlock hpc⟩
  | gone working => exact (hgone ⟨working, hpc⟩).elim

/-- The main thread works on the line, or the program has ended. -/
def WorkedOn (buf : Bytes) (s : Threads) : Prop := s.main = .work buf ∨ s.main.Gone

/-- The line is in the buffer, and the input thread is at `pc`, on its way to let go of it. -/
structure Filled (buf : Bytes) (pc : InputPC) (s : Threads) : Prop where
  inv : ThreadsInv s
  input : s.input = pc
  buffer : s.userInputBuffer = buf
  main : s.main = .check ∨ s.main = .beat ∨ s.main = .lock

/-- The line is in the buffer, and nothing keeps the main thread from it. -/
structure Offered (buf : Bytes) (s : Threads) : Prop where
  inv : ThreadsInv s
  input : s.input = .check
  ready : s.readyToRead = true
  buffer : s.userInputBuffer = buf
  main : s.main = .check ∨ s.main = .beat ∨ s.main = .lock ∨ s.main = .handle

/-- How far the main thread is from the line. -/
def MainPC.distance : MainPC → Nat
  | .beat => 3
  | .check => 2
  | .lock => 1
  | _ => 0

theorem typed_filled (h : ThreadsInv s) (hs : ThreadStep s (.typed buf) t) : Filled buf .set t := by
  have ht := threadsInv_step hs h
  cases hs with
  | typed hpc hbuf hgone =>
    refine ⟨ht, rfl, rfl, ?_⟩
    have hm := h.exclusive (.inr (.inl hpc))
    have he := h.not_emptying (.inr (.inr (.inl hpc)))
    cases hmain : s.main with
    | gone working => exact (hgone ⟨working, hmain⟩).elim
    | _ => simp_all [MainPC.Emptying, MainPC.Holds]

theorem Filled.not_gone {pc : InputPC} (h : Filled buf pc s) : ¬s.main.Gone := by
  rintro ⟨working, hg⟩
  rcases h.main with hm | hm | hm <;> cases hm.symm.trans hg

theorem Filled.set_step (h : Filled buf .set s) (hs : ThreadStep s e t) :
    (Filled buf .set t ∧ e ≠ .inputStep) ∨ Filled buf .unlock t ∨ WorkedOn buf t := by
  have ht := threadsInv_step hs h.inv
  have hready := h.inv.filling (.inr (.inr (.inr (.inl h.input))))
  have hmutex := h.inv.inputHolds (.inr (.inr (.inl h.input)))
  have hpc := h.input
  have hmain := h.main
  cases hs with
  | set => exact .inr (.inl ⟨ht, rfl, h.buffer, hmain⟩)
  | idle => exact .inl ⟨⟨ht, hpc, h.buffer, hmain⟩, by simp⟩
  | heartbeat => exact .inl ⟨⟨ht, hpc, h.buffer, .inr (.inl rfl)⟩, by simp⟩
  | beaten => exact .inl ⟨⟨ht, hpc, h.buffer, .inl rfl⟩, by simp⟩
  | exitBeat => exact .inr (.inr (.inr ⟨_, rfl⟩))
  | exitWork => exact .inr (.inr (.inr ⟨_, rfl⟩))
  | _ => simp_all

theorem Filled.unlock_step (h : Filled buf .unlock s) (hs : ThreadStep s e t) :
    (Filled buf .unlock t ∧ e ≠ .inputStep) ∨ Offered buf t ∨ WorkedOn buf t := by
  have ht := threadsInv_step hs h.inv
  have hready := h.inv.filled h.input
  have hmutex := h.inv.inputHolds (.inr (.inr (.inr (.inl h.input))))
  have hpc := h.input
  have hmain := h.main
  cases hs with
  | inputUnlock => exact .inr (.inl ⟨ht, rfl, hready, h.buffer, hmain.imp_right (·.imp_right .inl)⟩)
  | beaten => exact .inl ⟨⟨ht, hpc, h.buffer, .inl rfl⟩, by simp⟩
  | see => exact .inl ⟨⟨ht, hpc, h.buffer, .inr (.inr rfl)⟩, by simp⟩
  | exitBeat => exact .inr (.inr (.inr ⟨_, rfl⟩))
  | exitWork => exact .inr (.inr (.inr ⟨_, rfl⟩))
  | _ => simp_all

theorem Offered.step (h : Offered buf s) (hs : ThreadStep s e t) : WorkedOn buf t ∨
    Offered buf t ∧ t.main.distance ≤ s.main.distance ∧
      (e.OfMain → t.main.distance < s.main.distance) := by
  have ht := threadsInv_step hs h.inv
  have hinput := h.input
  have hready := h.ready
  have hbuf := h.buffer
  have hmain := h.main
  cases hs with
  | sleep => exact .inr ⟨h, le_rfl, by simp [ThreadEvent.OfMain]⟩
  | beaten hb =>
    exact .inr ⟨⟨ht, hinput, hready, hbuf, by simp⟩, by simp [hb, MainPC.distance]⟩
  | see hb =>
    exact .inr ⟨⟨ht, hinput, hready, hbuf, by simp⟩, by simp [hb, MainPC.distance]⟩
  | mainLock hb =>
    exact .inr ⟨⟨ht, hinput, hready, hbuf, by simp⟩, by simp [hb, MainPC.distance]⟩
  | take hb => exact .inl (.inl (congrArg _ hbuf))
  | exitBeat => exact .inl (.inr ⟨_, rfl⟩)
  | exitWork => exact .inl (.inr ⟨_, rfl⟩)
  | _ => simp_all

theorem Offered.enabled (h : Offered buf s) : Enabled ThreadStep ThreadEvent.OfMain s := by
  rcases h.main with hmain | hmain | hmain | hmain
  · exact ⟨_, _, .inl rfl, .see hmain h.ready⟩
  · exact ⟨_, _, .inr (.inr (.inr (.inl rfl))), .beaten hmain⟩
  · have hfree : s.readMutex = none := by
      cases hmutex : s.readMutex with
      | none => rfl
      | some thread =>
        cases thread with
        | input => simpa [InputPC.Holds, h.input] using h.inv.heldByInput hmutex
        | main => simpa [MainPC.Holds, MainPC.Gone, hmain] using h.inv.heldByMain hmutex
    exact ⟨_, _, .inl rfl, .mainLock hmain hfree⟩
  · exact ⟨_, _, .inr (.inr (.inl ⟨_, rfl⟩)), .take hmain⟩

theorem Filled.enabled {pc : InputPC} (h : Filled buf pc s) (hpc : pc = .set ∨ pc = .unlock) :
    Enabled ThreadStep (· = .inputStep) s := by
  rcases hpc with rfl | rfl
  · exact ⟨_, _, rfl, .set h.input h.not_gone⟩
  · exact ⟨_, _, rfl, .inputUnlock h.input h.not_gone⟩

/-- When both threads go on whenever they can, every line that is typed is worked on, unless the
program ends before. -/
theorem typed_line_handled (hv : Valid ThreadStep E) (h0 : E.state 0 = initThreads)
    (hinput : Fair ThreadStep (· = .inputStep) E) (hmain : Fair ThreadStep ThreadEvent.OfMain E)
    (hn : E.event n = some (.typed buf)) : ∃ m, n < m ∧ WorkedOn buf (E.state m) := by
  have hinv := hv.invariant (fun _ _ _ h hs => threadsInv_step hs h) (h0 ▸ threadsInv_init)
  have hoffered : LeadsTo E (Offered buf) (WorkedOn buf) :=
    hmain.leadsTo_of_rank hv (fun _ h => h.enabled) fun _ _ _ h hs => h.step hs
  have hunlock : LeadsTo E (Filled buf .unlock) (WorkedOn buf) := by
    refine LeadsTo.chain (Q := Offered buf) ?_ hoffered
    exact hinput.leadsTo_of_step hv (fun _ h => h.enabled (.inr rfl)) fun _ _ _ h hs =>
      h.unlock_step hs
  have hset : LeadsTo E (Filled buf .set) (WorkedOn buf) := by
    refine LeadsTo.chain (Q := Filled buf .unlock) ?_ hunlock
    exact hinput.leadsTo_of_step hv (fun _ h => h.enabled (.inl rfl)) fun _ _ _ h hs =>
      h.set_step hs
  obtain ⟨m, hm, hw⟩ := hset (n + 1) (typed_filled (hinv n) (hv.step hn))
  exact ⟨m, hm, hw⟩

/-- The main thread has come to the lock while the input thread still holds it. -/
theorem main_goes_on_waiting : ∃ s, Reaches ThreadStep initThreads s ∧
    s.readMutex = some .input ∧ s.main = .lock ∧
    (Enabled ThreadStep ThreadEvent.OfMain s ∨ s.main = .lock ∧ s.input = .unlock) := by
  have hrun : Along ThreadStep initThreads (quitRun.take 6) := (along_append.mp quitRun_along).1
  exact ⟨_, hrun.reaches_last, rfl, rfl,
    main_goes_on hrun.reaches_last (by rintro ⟨working, h⟩; cases h)⟩

theorem typed_line_handled_quit : ∃ m, 3 < m ∧
    WorkedOn quitBuffer ((Trace.ofRun initThreads quitRun).state m) := by
  have hgone : MainPC.Gone (lastState initThreads quitRun).main := ⟨true, rfl⟩
  refine typed_line_handled (ofRun_valid quitRun_along) rfl (ofRun_fair ?_) (ofRun_fair ?_) rfl
  · rintro ⟨e, t, rfl, hs⟩
    cases hs <;> contradiction
  · rintro ⟨e, t, he, hs⟩
    cases hs <;> simp_all [MainPC.Gone]

end Progress
end Csc469.Chat
