import Csc469.Alloc.Runs
import Csc469.Alloc.Threads

/-! The order in which `mm_malloc` and `mm_free` take their locks. -/
namespace Csc469.Alloc

open Execution Locking

/-- A processor's heap before the global heap, and that before `sbrk_lock`. -/
def Mutex.rank : Mutex → Nat
  | .heap h => if h = 0 then 1 else 0
  | .sbrk => 2

namespace Threads

open Prog

variable {s : State} {cpu sz h a sb old pages : Nat} {o d : Bin} {held : List Mutex}

section Writes

theorem locked_setType {v : Nat} : Mutexes.locked (s.setType a v) = Mutexes.locked s := by
  funext l
  cases l <;> rfl

theorem locked_setSb {f : Superblock → Superblock} :
    Mutexes.locked (s.setSb a f) = Mutexes.locked s := by
  funext l
  cases l <;> rfl

theorem locked_setNode {f : Node → Node} : Mutexes.locked (s.setNode a f) = Mutexes.locked s := by
  funext l
  cases l <;> rfl

theorem locked_setHeap {f : Heap → Heap} (hf : ∀ x, (f x).lock = x.lock) :
    Mutexes.locked (s.setHeap h f) = Mutexes.locked s := by
  funext l
  cases l with
  | heap k =>
    change ((s.setHeap h f).heapTable k).lock = (s.heapTable k).lock
    by_cases hk : k = h
    · subst hk
      simp [hf]
    · simp [hk]
  | sbrk => rfl

theorem locked_setBin {v : Option Nat} : Mutexes.locked (s.setBin o v) = Mutexes.locked s :=
  locked_setHeap (by intro; rfl)

theorem locked_onSb {p : Option Nat} {f : Superblock → Superblock} :
    Mutexes.locked (s.onSb p f) = Mutexes.locked s := by
  cases p with
  | none => rfl
  | some a => exact locked_setSb

theorem locked_onNode {p : Option Nat} {f : Node → Node} :
    Mutexes.locked (s.onNode p f) = Mutexes.locked s := by
  cases p with
  | none => rfl
  | some a => exact locked_setNode

theorem locked_setNextOf {p v : Option Nat} :
    Mutexes.locked (s.setNextOf p o v) = Mutexes.locked s := by
  cases p with
  | none => exact locked_setBin
  | some a => simp only [State.setNextOf, locked_setSb]

theorem locked_setNextChunk {p v : Option Nat} :
    Mutexes.locked (s.setNextChunk p h v) = Mutexes.locked s := by
  cases p with
  | none => exact locked_setHeap (f := fun hp => { hp with binLarge := v }) (by intro; rfl)
  | some a => simp only [State.setNextChunk, locked_setNode]

end Writes

/-! The parts between the locks. -/

section Plain

theorem plain_setSb {f : Superblock → Superblock} : Plain (write (·.setSb a f) : Program Unit) :=
  plain_write fun _ => locked_setSb

theorem plain_setNode {f : Node → Node} : Plain (write (·.setNode a f) : Program Unit) :=
  plain_write fun _ => locked_setNode

theorem plain_setHeap {f : Heap → Heap} (hf : ∀ x, (f x).lock = x.lock) :
    Plain (write (·.setHeap h f) : Program Unit) :=
  plain_write fun _ => locked_setHeap hf

theorem plain_newSuperblock {ptr blockSize : Nat} : Plain (newSuperblock ptr blockSize) := by
  refine (plain_write fun _ => locked_setType).bind fun _ => plain_setSb.bind fun _ =>
    plain_setSb.bind fun _ => plain_setSb.bind fun _ => ?_
  have hend : Plain (do
      write (·.setSb ptr fun b => { b with heapId := 0 })
      write (·.setSb ptr fun b => { b with prev := none })
      write (·.setSb ptr fun b => { b with next := none }) : Program Unit) :=
    plain_setSb.bind fun _ => plain_setSb.bind fun _ => plain_setSb
  split
  · exact plain_setSb.bind fun _ => plain_setSb.bind fun _ =>
      (plain_setHeap (by intro; rfl)).bind fun _ => hend
  · exact hend

theorem plain_unlinkSb : Plain (unlinkSb sb o) :=
  plain_read.bind fun _ => plain_read.bind fun _ => (plain_write fun _ => locked_onSb).bind fun _ =>
    plain_read.bind fun _ => plain_read.bind fun _ => plain_write fun _ => locked_setNextOf

theorem plain_pushSb : Plain (pushSb sb d) :=
  plain_read.bind fun _ => (plain_write fun _ => locked_onSb).bind fun _ =>
    plain_read.bind fun _ => plain_setSb.bind fun _ => plain_setSb.bind fun _ =>
      plain_write fun _ => locked_setBin

theorem plain_transferBins : Plain (transferBins sb o d) := by
  refine plain_unlinkSb.bind fun _ => plain_pushSb.bind fun _ => ?_
  split
  · exact plain_setSb.bind fun _ => plain_read.bind fun _ =>
      (plain_setHeap (by intro; rfl)).bind fun _ => (plain_setHeap (by intro; rfl)).bind fun _ =>
        (plain_setHeap (by intro; rfl)).bind fun _ => plain_setHeap (by intro; rfl)
  · exact plain_pure

theorem plain_firstFilled {bins : List Bin} : Plain (firstFilled bins) := by
  induction bins with
  | nil => exact plain_pure
  | cons b rest ih =>
    refine plain_read.bind fun found => ?_
    cases found with
    | some sb => exact plain_pure
    | none => exact ih

theorem plain_searchList {β : Type} {test : State → Nat → Option β}
    {next : State → Nat → Option Nat} {p : Option Nat} : Plain (searchList test next p) := by
  refine plain_repeat fun p => ?_
  cases p with
  | none => exact plain_pure
  | some a =>
    refine plain_read.bind fun found => ?_
    cases found with
    | some b => exact plain_pure
    | none => exact plain_read.bind fun _ => plain_pure

theorem plain_scanBins {bins : List Nat} : Plain (scanBins h sz bins) := by
  induction bins with
  | nil => exact plain_pure
  | cons i rest ih =>
    refine plain_read.bind fun _ => plain_searchList.bind fun hit => ?_
    cases hit with
    | some x => exact plain_pure
    | none => exact ih

theorem plain_memSbrk {increment : Nat} : Plain (memSbrk increment) := by
  unfold memSbrk
  split
  · exact plain_stop
  · refine plain_read.bind fun _ => plain_read.bind fun _ => ?_
    split
    · exact plain_pure
    · refine (plain_write fun s => ?_).bind fun _ => plain_pure
      funext l
      cases l <;> rfl

theorem plain_rebin {heap id new : Nat} : Plain (rebin sb heap id old new) := by
  unfold rebin
  split
  · exact plain_transferBins
  · exact plain_pure

theorem plain_freeBlock {cls : Nat} {useFirst : Bool} : Plain (freeBlock cls sb useFirst) := by
  cases useFirst with
  | true => exact plain_pure
  | false => exact plain_read

theorem plain_releaseBlock {page offset : Nat} : Plain (releaseBlock h page offset) :=
  plain_read.bind fun _ => plain_setSb.bind fun _ => plain_read.bind fun _ =>
    plain_read.bind fun _ => plain_setSb.bind fun _ => plain_read.bind fun _ =>
      (plain_setHeap (by intro; rfl)).bind fun _ => plain_read.bind fun _ => plain_rebin

theorem plain_relink {curr : Nat} {newNext newPrev : Option Nat} :
    Plain (relink h curr newNext newPrev) :=
  plain_read.bind fun _ => (plain_write fun _ => locked_setNextChunk).bind fun _ =>
    plain_read.bind fun _ => plain_write fun _ => locked_onNode

theorem plain_carve {curr : Nat} : Plain (carve curr pages) := by
  refine plain_read.bind fun _ => ?_
  split
  · exact (plain_write fun _ => locked_setType).bind fun _ => plain_setNode.bind fun _ =>
      plain_setNode.bind fun _ => plain_read.bind fun _ => plain_setNode.bind fun _ =>
        plain_read.bind fun _ => plain_setNode.bind fun _ => plain_relink
  · exact plain_read.bind fun _ => plain_read.bind fun _ => plain_relink

theorem plain_pushLarge : Plain (pushLarge h a) :=
  plain_read.bind fun _ => (plain_write fun _ => locked_onNode).bind fun _ =>
    plain_read.bind fun _ => plain_setNode.bind fun _ => plain_setNode.bind fun _ =>
      plain_setHeap (by intro; rfl)

theorem plain_handOutLarge : Plain (handOutLarge cpu pages a) :=
  plain_pushLarge.bind fun _ => (plain_write fun _ => locked_setType).bind fun _ =>
    plain_setNode.bind fun _ => plain_setNode

end Plain

section Order
variable {useFirst : Bool} {offset page : Nat}

/-- A call that returns a block holds nothing; one that returns a null pointer still holds the lock
of its own heap. -/
def Ends (cpu : Nat) : Option Nat → List Mutex → Prop
  | some _, held => held = []
  | none, held => .heap (cpu + 1) ∈ held

theorem inOrder_sbrk {increment : Nat} (hheld : ∀ k ∈ held, k.rank < 2) :
    InOrder Mutex.rank (sbrk increment) held fun _ k => k = held := by
  refine inOrder_take_bind.mpr ⟨hheld, plain_memSbrk.then fun _ => ?_⟩
  exact inOrder_giveBack_bind.mpr ⟨List.mem_cons_self, List.erase_cons_head ..⟩

theorem inOrder_takeGlobal (hheld : ∀ k ∈ held, k.rank < 2) :
    InOrder Mutex.rank (takeGlobal sz) held fun _ k => k = held := by
  refine plain_firstFilled.then fun found => ?_
  cases found with
  | some x =>
    refine plain_read.then fun _ => plain_read.then fun _ =>
      (plain_setHeap (by intro; rfl)).then fun _ => plain_newSuperblock.then fun _ =>
        plain_setSb.then fun _ => ?_
    exact inOrder_pure.mpr rfl
  | none =>
    refine plain_read.then fun found => ?_
    cases found with
    | some sb => exact inOrder_pure.mpr rfl
    | none =>
      refine inOrder_bind.mpr ((inOrder_sbrk hheld).mono ?_)
      rintro tmp k rfl
      cases tmp with
      | none => exact inOrder_pure.mpr rfl
      | some sb =>
        exact plain_newSuperblock.then fun _ => (plain_write fun _ => locked_setBin).then fun _ =>
          (plain_setHeap (by intro; rfl)).then fun _ => inOrder_pure.mpr rfl

theorem inOrder_takeBlock :
    InOrder Mutex.rank (takeBlock cpu sz sb useFirst old) [.heap (cpu + 1)] (Ends cpu) := by
  refine plain_freeBlock.then fun found => ?_
  cases found with
  | none => exact inOrder_pure.mpr List.mem_cons_self
  | some x =>
    refine plain_setSb.then fun _ => plain_setSb.then fun _ =>
      (plain_setHeap (by intro; rfl)).then fun _ => plain_read.then fun _ =>
        plain_rebin.then fun _ => ?_
    exact inOrder_giveBack_bind.mpr ⟨List.mem_cons_self, List.erase_cons_head ..⟩

theorem inOrder_mallocSmall : InOrder Mutex.rank (mallocSmall cpu sz) [] (Ends cpu) := by
  refine inOrder_take_bind.mpr ⟨by simp, plain_scanBins.then fun found => ?_⟩
  cases found with
  | some x => exact inOrder_takeBlock
  | none =>
    refine inOrder_take_bind.mpr ⟨by simp [Mutex.rank], ?_⟩
    refine inOrder_bind.mpr ((inOrder_takeGlobal (by simp [Mutex.rank])).mono ?_)
    rintro target k rfl
    cases target with
    | none => exact inOrder_pure.mpr (List.mem_cons_of_mem _ List.mem_cons_self)
    | some x =>
      refine plain_transferBins.then fun _ => inOrder_giveBack_bind.mpr ⟨List.mem_cons_self, ?_⟩
      rw [List.erase_cons_head]
      exact inOrder_takeBlock

theorem inOrder_takeLarge : InOrder Mutex.rank (takeLarge pages) [] fun _ k => k = [] := by
  refine inOrder_take_bind.mpr ⟨by simp, plain_read.then fun _ =>
    plain_searchList.then fun found => ?_⟩
  cases found with
  | some x =>
    refine plain_carve.then fun _ => inOrder_giveBack_bind.mpr ⟨List.mem_cons_self, ?_⟩
    exact inOrder_pure.mpr (List.erase_cons_head ..)
  | none =>
    refine inOrder_giveBack_bind.mpr ⟨List.mem_cons_self, ?_⟩
    rw [List.erase_cons_head]
    exact inOrder_sbrk (by simp)

theorem inOrder_mallocLarge : InOrder Mutex.rank (mallocLarge cpu sz) [] (Ends cpu) := by
  unfold mallocLarge
  dsimp only
  split
  · exact inOrder_stop
  · refine inOrder_bind.mpr (inOrder_takeLarge.mono ?_)
    rintro target k rfl
    refine inOrder_take_bind.mpr ⟨by simp, ?_⟩
    cases target with
    | none => exact inOrder_stop
    | some a =>
      refine plain_handOutLarge.then fun _ => inOrder_giveBack_bind.mpr ⟨List.mem_cons_self, ?_⟩
      exact inOrder_pure.mpr (List.erase_cons_head ..)

theorem inOrder_mmMalloc : InOrder Mutex.rank (mmMalloc cpu sz) [] (Ends cpu) := by
  unfold mmMalloc
  split
  · exact inOrder_mallocLarge
  · exact inOrder_mallocSmall

theorem inOrder_trimHeap : InOrder Mutex.rank (trimHeap h) [.heap h] fun _ k => k = [] := by
  have hend : InOrder Mutex.rank (giveBack (.heap h) : Program Unit) [.heap h] fun _ k => k = [] :=
    ⟨List.mem_cons_self, List.erase_cons_head ..⟩
  unfold trimHeap
  split
  · next h0 =>
    subst h0
    exact hend
  · refine plain_read.then fun hp => ?_
    split
    · refine plain_firstFilled.then fun found => ?_
      cases found with
      | none => exact inOrder_stop
      | some x => exact plain_transferBins.then fun _ => hend
    · exact hend

theorem inOrder_freeSmall : InOrder Mutex.rank (freeSmall page offset) [] fun _ k => k = [] :=
  plain_read.then fun _ => inOrder_take_bind.mpr
    ⟨by simp, plain_releaseBlock.then fun _ => inOrder_trimHeap⟩

theorem inOrder_freeLarge : InOrder Mutex.rank (freeLarge a) [] fun _ k => k = [] := by
  refine plain_read.then fun hid => inOrder_take_bind.mpr ⟨by simp, ?_⟩
  refine plain_read.then fun _ => plain_read.then fun _ =>
    (plain_write fun _ => locked_setNextChunk).then fun _ => plain_read.then fun _ =>
      plain_read.then fun _ => (plain_write fun _ => locked_onNode).then fun _ => ?_
  refine inOrder_giveBack_bind.mpr ⟨List.mem_cons_self, ?_⟩
  rw [List.erase_cons_head]
  refine inOrder_take_bind.mpr ⟨by simp, plain_pushLarge.then fun _ => ?_⟩
  exact ⟨List.mem_cons_self, List.erase_cons_head ..⟩

theorem inOrder_mmFree {ptr : Nat} : InOrder Mutex.rank (mmFree ptr) [] fun _ k => k = [] := by
  refine plain_read.then fun type => ?_
  split
  · exact inOrder_freeLarge
  · exact inOrder_freeSmall

end Order
end Threads

section Systems
variable {ι : Type} [DecidableEq ι]

/-- What a call of the allocator returns, `mm_malloc` with the processor it was made on. -/
inductive Result where
  | block (cpu : Nat) (r : Option Nat)
  | freed

/-- The calls that threads make: `mm_malloc` on any processor, and `mm_free` of any pointer. -/
inductive IsCall : Program Result → Prop
  | malloc (cpu sz : Nat) : IsCall (do
    let r ← Threads.mmMalloc cpu sz
    pure (.block cpu r))
  | free (ptr : Nat) : IsCall (do
    Threads.mmFree ptr
    pure .freed)

def allocatorCalls : Set (Program Result) := {p | IsCall p}

/-- One step of one of the threads. -/
abbrev CallStep :
    System State Mutex ι Result → Label ι Result → System State Mutex ι Result → Prop :=
  Locking.Step allocatorCalls

/-- What a call holds when it returns. -/
def Result.Ends : Result → List Mutex → Prop
  | .block cpu r, held => Threads.Ends cpu r held
  | .freed, held => held = []

theorem isCall_inOrder {p : Program Result} (hp : IsCall p) :
    InOrder Mutex.rank p [] Result.Ends := by
  cases hp with
  | malloc cpu sz => exact inOrder_bind.mpr Threads.inOrder_mmMalloc
  | free ptr => exact inOrder_bind.mpr Threads.inOrder_mmFree

theorem rank_lt (l : Mutex) : l.rank < 3 := by
  cases l with
  | heap h =>
    simp only [Mutex.rank]
    split <;> omega
  | sbrk => decide

variable {c d : System State Mutex ι Result}
  {run rest : List (Label ι Result × System State Mutex ι Result)} {i : ι} {cpu : Nat}

theorem calls_inOrder : ∀ p ∈ allocatorCalls, InOrder Mutex.rank p [] Result.Ends :=
  fun _ hp => isCall_inOrder hp

/-- In every run in which no call returns a null pointer. -/
theorem holds_along (hc : Quiet c) (hr : Along CallStep c run)
    (hgiven : ∀ x ∈ run, ∀ i cpu, x.1 ≠ .returns i (.block cpu none)) :
    ∀ x ∈ run, ∃ H, Holds Mutex.rank Result.Ends x.2 H ∧ H.lost = ∅ := by
  refine hc.holds.along_clean calls_inOrder hr fun x hx => ?_
  have hx := hgiven x hx
  rcases x with ⟨i | i | ⟨i, ⟨cpu, r⟩ | _⟩, d⟩
  · trivial
  · trivial
  · cases r with
    | none => exact (hx i cpu rfl).elim
    | some a =>
      intro k hk
      exact hk
  · intro k hk
    exact hk

/-- Any number of threads that call `mm_malloc` and `mm_free` as they like, in any order of their
steps: as long as no call has returned a null pointer, whenever a thread is in a call, one that is
in a call can go on, or has come to an invalid access. -/
theorem allocator_goes_on (hc : Quiet c) (hr : Along CallStep c run)
    (hgiven : ∀ x ∈ run, ∀ i cpu, x.1 ≠ .returns i (.block cpu none)) :
    ∀ x ∈ run, (∃ i, x.2.call i ≠ none) →
      ∃ j, GoesOn allocatorCalls x.2 j ∨ Stops x.2 j := by
  rintro x hx ⟨i, hi⟩
  obtain ⟨H, hheld, hlost⟩ := holds_along hc hr hgiven x hx
  exact hheld.not_all_wait allocatorCalls rank_lt hlost hi

/-- The mutexes that each thread took in a run and has not given back, and those that calls which
have returned did not give back. -/
def holding (c : System State Mutex ι Result)
    (run : List (Label ι Result × System State Mutex ι Result)) : Holding ι Mutex :=
  Holding.none.along c run

/-- After any run the locked mutexes are those that threads in a call hold, each held by one of
them and by it once, and those that calls have not given back; no thread takes a mutex that it
holds, and none gives back one that it does not hold. -/
theorem locks_exclusive (hc : Quiet c) (hr : Along CallStep c run) :
    (∀ i, ((holding c run).held i).Nodup) ∧
      (∀ i j l, l ∈ (holding c run).held i → l ∈ (holding c run).held j → i = j) ∧
      (∀ i, ∀ l ∈ (holding c run).held i, l ∉ (holding c run).lost) ∧
      (∀ l, Mutexes.locked (lastState c run).state l = true ↔
        l ∈ (holding c run).lost ∨ ∃ i, l ∈ (holding c run).held i) ∧
      (∀ i, (lastState c run).call i = none → (holding c run).held i = []) ∧
      ∀ i l next,
        ((lastState c run).call i = some (.lock l next) → l ∉ (holding c run).held i) ∧
        ((lastState c run).call i = some (.unlock l next) → l ∈ (holding c run).held i) := by
  have h : Holds Mutex.rank Result.Ends (lastState c run) (holding c run) :=
    hc.holds.along calls_inOrder hr
  exact ⟨h.nodup, h.apart, h.kept, h.locked, h.idle, fun i l next => h.exclusive⟩

/-- Once a call of `mm_malloc` has returned a null pointer, its heap's lock is never given back:
whoever waits for it then, or comes to wait for it later, waits for ever. -/
theorem null_leaves_locked (hc : Quiet c)
    (hr : Along CallStep c (run ++ (.returns i (.block cpu none), d) :: rest)) :
    Along (fun s _ t => Mutexes.locked t.state (.heap (cpu + 1)) = true ∧
      ∀ j next, s.call j = some (.lock (.heap (cpu + 1)) next) → t.call j = s.call j) d rest := by
  obtain ⟨hrun, hstep, hrest⟩ := along_append.mp hr
  have h := hc.holds.along calls_inOrder hrun
  have hkept : .heap (cpu + 1) ∈ (holding c run).held i := h.returns hstep
  exact (h.step calls_inOrder hstep).stays calls_inOrder (.inr hkept) hrest

section Alone
variable {p : Program Result} {t : State} {a : Result} {sz ptr : Nat} {r : Option Nat}

theorem call_along (hi : c.call i = none) (hp : IsCall p) (h : Returns p c.state t a) :
    ∃ run, Along CallStep c (run ++ [(.returns i a, ⟨t, c.call⟩)]) := by
  have hbegin : CallStep c (.begins i) { c with call := Function.update c.call i (some p) } :=
    Locking.Step.begins hi hp
  have hback : Function.update (Function.update c.call i (some p)) i none = c.call := by
    rw [Function.update_idem, ← hi, Function.update_eq_self]
  let d : System State Mutex ι Result := { c with call := Function.update c.call i (some p) }
  obtain ⟨run, hrun⟩ : ∃ run, Along CallStep d
      (run ++ [(.returns i a, ⟨t, Function.update d.call i none⟩)]) :=
    h.along (rfl : d.state = c.state) (Function.update_self ..)
  simp only [d, hback] at hrun
  exact ⟨(.begins i, { c with call := Function.update c.call i (some p) }) :: run, hbegin, hrun⟩

/-- A call of `mm_malloc` that nobody interrupts leads to where the model's call leads. -/
theorem mmMalloc_along (hi : c.call i = none) (hm : mmMalloc c.state cpu sz = .ok (t, r)) :
    ∃ run, Along CallStep c (run ++ [(.returns i (.block cpu r), ⟨t, c.call⟩)]) :=
  call_along hi (.malloc cpu sz) ((Threads.returns_mmMalloc hm).bind returns_pure)

theorem mmFree_along (hi : c.call i = none) (hf : mmFree c.state ptr = .ok t) :
    ∃ run, Along CallStep c (run ++ [(.returns i .freed, ⟨t, c.call⟩)]) :=
  call_along hi (.free ptr) ((Threads.returns_mmFree hf).bind returns_pure)

end Alone

section Waiting

/-- Two threads on one processor, before their first calls. -/
def twoThreads : System State Mutex Bool Result := ⟨zeroState, fun _ => none⟩

theorem twoThreads_quiet : Quiet twoThreads where
  call _ := rfl
  free l := by cases l <;> rfl

/-- A call of `mm_malloc` for 8 bytes. -/
def eightBytes : Program Result := do
  let r ← Threads.mmMalloc 0 8
  pure (.block 0 r)

/-- The same call once it has its heap's lock. -/
def eightBytesLocked : Program Result :=
  match eightBytes with
  | .lock _ next => next
  | p => p

/-- The second thread has to wait for the first one. -/
def waitingRun : List (Label Bool Result × System State Mutex Bool Result) :=
  let first := Function.update twoThreads.call true (some eightBytes)
  let locked := Function.update first true (some eightBytesLocked)
  let heap := Mutexes.set zeroState (.heap 1) true
  [(.begins true, ⟨zeroState, first⟩), (.goesOn true, ⟨heap, locked⟩),
    (.begins false, ⟨heap, Function.update locked false (some eightBytes)⟩)]

theorem waitingRun_along : Along CallStep twoThreads waitingRun := by
  refine ⟨Locking.Step.begins rfl (.malloc 0 8), ?_, Locking.Step.begins rfl (.malloc 0 8), trivial⟩
  have hlock : Function.update twoThreads.call true (some eightBytes) true =
      some (.lock (.heap 1) eightBytesLocked) := rfl
  exact Locking.Step.locks hlock rfl

theorem allocator_goes_on_waiting : ∃ run : List (Label Bool Result × _), run.length = 3 ∧
    Along CallStep twoThreads run ∧ ∀ x ∈ run, (∃ i, x.2.call i ≠ none) →
      ∃ j, GoesOn allocatorCalls x.2 j ∨ Stops x.2 j :=
  ⟨waitingRun, rfl, waitingRun_along,
    allocator_goes_on twoThreads_quiet waitingRun_along (by simp [waitingRun])⟩

theorem locks_exclusive_waiting : (holding twoThreads waitingRun).held true = [.heap 1] ∧
    (∀ i, ((holding twoThreads waitingRun).held i).Nodup) ∧
    (∀ i j l, l ∈ (holding twoThreads waitingRun).held i →
      l ∈ (holding twoThreads waitingRun).held j → i = j) ∧
    (∀ i, ∀ l ∈ (holding twoThreads waitingRun).held i, l ∉ (holding twoThreads waitingRun).lost) ∧
    (∀ l, Mutexes.locked (lastState twoThreads waitingRun).state l = true ↔
      l ∈ (holding twoThreads waitingRun).lost ∨
        ∃ i, l ∈ (holding twoThreads waitingRun).held i) ∧
    (∀ i, (lastState twoThreads waitingRun).call i = none →
      (holding twoThreads waitingRun).held i = []) ∧
    ∀ i l next,
      ((lastState twoThreads waitingRun).call i = some (.lock l next) →
        l ∉ (holding twoThreads waitingRun).held i) ∧
      ((lastState twoThreads waitingRun).call i = some (.unlock l next) →
        l ∈ (holding twoThreads waitingRun).held i) :=
  ⟨rfl, locks_exclusive twoThreads_quiet waitingRun_along⟩

/-- The segment of `zeroState` cannot grow. -/
theorem zeroState_full : ∃ t, mmMalloc zeroState 0 8 = .ok (t, none) ∧
    Mutexes.locked t (.heap 2) = false := by
  obtain ⟨⟨t, r⟩, hm, he⟩ := ok_of_map (c := mmMalloc zeroState 0 8)
    (f := fun x => (x.2, Mutexes.locked x.1 (.heap 2))) (b := (none, false)) (by decide +kernel)
  obtain ⟨rfl, hfree⟩ := Prod.mk.inj he
  exact ⟨t, hm, hfree⟩

/-- A call of `mm_malloc` on another processor. -/
def otherHeap : Program Result := do
  let r ← Threads.mmMalloc 1 8
  pure (.block 1 r)

/-- The same call once it has its heap's lock. -/
def otherHeapLocked : Program Result :=
  match otherHeap with
  | .lock _ next => next
  | p => p

/-- After the null pointer the second thread waits for the heap's lock, while the first one goes on
with a call on another heap. -/
def waitsOn (t : State) : List (Label Bool Result × System State Mutex Bool Result) :=
  let waits := Function.update twoThreads.call false (some eightBytes)
  let both := Function.update waits true (some otherHeap)
  [(.begins false, ⟨t, waits⟩), (.begins true, ⟨t, both⟩),
    (.goesOn true,
      ⟨Mutexes.set t (.heap 2) true, Function.update both true (some otherHeapLocked)⟩)]

theorem waitsOn_along {t : State} (hfree : Mutexes.locked t (.heap 2) = false) :
    Along CallStep (⟨t, twoThreads.call⟩ : System State Mutex Bool Result) (waitsOn t) := by
  refine ⟨Locking.Step.begins rfl (.malloc 0 8), Locking.Step.begins rfl (.malloc 1 8), ?_, trivial⟩
  have hlock : Function.update (Function.update twoThreads.call false (some eightBytes)) true
      (some otherHeap) true = some (.lock (.heap 2) otherHeapLocked) := rfl
  exact Locking.Step.locks hlock hfree

theorem null_leaves_locked_full : ∃ run d rest,
    Along CallStep twoThreads (run ++ (.returns true (.block 0 none), d) :: rest) ∧
    (∃ next, (lastState d rest).call false = some (.lock (.heap 1) next)) ∧ rest.length = 3 ∧
    Along (fun s _ t => Mutexes.locked t.state (.heap 1) = true ∧
      ∀ j next, s.call j = some (.lock (.heap 1) next) → t.call j = s.call j) d rest := by
  obtain ⟨t, hm, hfree⟩ := zeroState_full
  obtain ⟨run, hrun⟩ := mmMalloc_along (c := twoThreads) (i := true) rfl hm
  have hall : Along CallStep twoThreads
      (run ++ (.returns true (.block 0 none), ⟨t, twoThreads.call⟩) :: waitsOn t) := by
    obtain ⟨hbefore, hret, -⟩ := along_append.mp hrun
    exact along_append.mpr ⟨hbefore, hret, waitsOn_along hfree⟩
  exact ⟨run, _, waitsOn t, hall, ⟨eightBytesLocked, rfl⟩, rfl,
    null_leaves_locked twoThreads_quiet hall⟩

end Waiting
end Systems
end Csc469.Alloc
