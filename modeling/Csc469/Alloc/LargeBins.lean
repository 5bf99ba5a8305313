import Csc469.Alloc.Runs

/-! What `malloc_large` and `free_large` do to the large bins. -/
namespace Csc469.Alloc

open Linked Execution

variable {s t u : State} {x y h j pages : Nat} {newNext newPrev : Option Nat}

namespace State

def nextChunk (s : State) (a : Nat) : Option Nat := (s.node a).next
def prevChunk (s : State) (a : Nat) : Option Nat := (s.node a).prev
def largeBin (s : State) (h : Nat) : Option Nat := (s.heapTable h).binLarge

end State

/-- The two states have the same segment, and chunks of the same sizes and heaps. -/
structure SameNodes (s t : State) : Prop where
  numPages : ∀ a, (t.node a).numPages = (s.node a).numPages
  heapId : ∀ a, (t.node a).heapId = (s.node a).heapId
  type : t.type = s.type
  dsegHi : t.dsegHi = s.dsegHi

theorem SameNodes.trans (h1 : SameNodes s t) (h2 : SameNodes t u) : SameNodes s u :=
  ⟨fun a => (h2.numPages a).trans (h1.numPages a), fun a => (h2.heapId a).trans (h1.heapId a),
    h2.type.trans h1.type, h2.dsegHi.trans h1.dsegHi⟩

/-- The two states have the same large bins. -/
structure SameLarge (s t : State) : Prop where
  node : t.node = s.node
  largeBin : t.largeBin = s.largeBin
  type : t.type = s.type
  dsegHi : t.dsegHi = s.dsegHi

theorem SameLarge.trans (h1 : SameLarge s t) (h2 : SameLarge t u) : SameLarge s u :=
  ⟨h2.node.trans h1.node, h2.largeBin.trans h1.largeBin, h2.type.trans h1.type,
    h2.dsegHi.trans h1.dsegHi⟩

theorem setLock_large {v : Bool} : SameLarge s (s.setHeap h fun hp => { hp with lock := v }) := by
  refine ⟨rfl, ?_, rfl, rfl⟩
  funext j
  by_cases hj : j = h <;> simp [State.largeBin, hj]

theorem lockHeap_large (hl : lockHeap s h = .ok t) : SameLarge s t := by
  unfold lockHeap at hl
  split at hl <;> cases hl
  exact setLock_large

theorem unlockHeap_large : SameLarge s (unlockHeap s h) := setLock_large

theorem setNextChunk_node {p v : Option Nat} {y : Nat} :
    (s.setNextChunk p h v).node y =
      if p = some y then { s.node y with next := v } else s.node y := by
  cases p with
  | none => rfl
  | some a => by_cases hy : y = a <;> simp [State.setNextChunk, hy, eq_comm]

theorem setNextChunk_bin {p v : Option Nat} {j : Nat} :
    (s.setNextChunk p h v).largeBin j = if p = none ∧ j = h then v else s.largeBin j := by
  cases p with
  | none => by_cases hj : j = h <;> simp [State.setNextChunk, State.largeBin, hj]
  | some a => simp [State.setNextChunk, State.largeBin]

theorem onNode_rest {p : Option Nat} {f : Node → Node} :
    (s.onNode p f).type = s.type ∧ (s.onNode p f).dsegHi = s.dsegHi := by
  cases p <;> exact ⟨rfl, rfl⟩

theorem relink_hi : (relink s h x newNext newPrev).dsegHi = s.dsegHi := by
  rw [relink, onNode_rest.2]
  cases (s.node x).prev <;> rfl

theorem relink_spec (newNext newPrev : Option Nat) (hx : s.prevChunk x ≠ some x)
    (ht : t = relink s h x newNext newPrev) :
    (∀ y, t.nextChunk y = if s.prevChunk x = some y then newNext else s.nextChunk y) ∧
    (∀ y, t.prevChunk y = if s.nextChunk x = some y then newPrev else s.prevChunk y) ∧
    (∀ j, t.largeBin j = if s.prevChunk x = none ∧ j = h then newNext else s.largeBin j) ∧
    SameNodes s t := by
  subst ht
  have hxx : (s.setNextChunk (s.node x).prev h newNext).node x = s.node x := by
    rw [setNextChunk_node]
    exact if_neg hx
  simp only [relink, hxx]
  refine ⟨fun y => ?_, fun y => ?_, fun j => ?_, ⟨fun y => ?_, fun y => ?_, ?_, ?_⟩⟩
  · rw [State.nextChunk, State.onNode_node, setNextChunk_node]
    simp only [apply_ite Node.next, ite_self]
    rfl
  · rw [State.prevChunk, State.onNode_node, setNextChunk_node]
    simp only [apply_ite Node.prev, ite_self]
    rfl
  · rw [State.largeBin, State.onNode_heapTable]
    exact setNextChunk_bin
  · simp [setNextChunk_node, apply_ite Node.numPages]
  · simp [setNextChunk_node, apply_ite Node.heapId]
  · rw [onNode_rest.1]
    cases (s.node x).prev <;> rfl
  · rw [onNode_rest.2]
    cases (s.node x).prev <;> rfl

theorem carve_hi : (carve s x pages).dsegHi = s.dsegHi := by
  unfold carve
  split <;> exact relink_hi

theorem lockSbrk_large (hl : lockSbrk s = .ok t) : SameLarge s t := by
  unfold lockSbrk at hl
  split at hl <;> cases hl
  exact ⟨rfl, rfl, rfl, rfl⟩

theorem unlockSbrk_large : SameLarge s (unlockSbrk s) := ⟨rfl, rfl, rfl, rfl⟩

theorem setNode_node {f : Node → Node} {y : Nat} :
    (s.setNode x f).node y = if y = x then f (s.node y) else s.node y := by
  by_cases hy : y = x <;> simp [hy]

theorem pushLarge_spec (ht : t = pushLarge s h x) :
    (∀ y, t.nextChunk y = if y = x then s.largeBin h else s.nextChunk y) ∧
    (∀ y, t.prevChunk y =
      if y = x then none else if s.largeBin h = some y then some x else s.prevChunk y) ∧
    (∀ j, t.largeBin j = if j = h then some x else s.largeBin j) ∧ SameNodes s t := by
  subst ht
  have hnode : ∀ y, (pushLarge s h x).node y = if y = x then
      { (s.onNode (s.heapTable h).binLarge fun c => { c with prev := some x }).node y with
        next := (s.heapTable h).binLarge
        prev := none }
      else (s.onNode (s.heapTable h).binLarge fun c => { c with prev := some x }).node y := by
    intro y
    rw [pushLarge, State.setHeap_node, setNode_node, State.onNode_heapTable]
  refine ⟨fun y => ?_, fun y => ?_, fun j => ?_, ⟨fun y => ?_, fun y => ?_, ?_, ?_⟩⟩
  · rw [State.nextChunk, hnode]
    simp only [apply_ite Node.next, State.onNode_node, ite_self]
    rfl
  · rw [State.prevChunk, hnode]
    simp only [apply_ite Node.prev, State.onNode_node]
    rfl
  · by_cases hj : j = h <;> simp [State.largeBin, pushLarge, hj]
  · simp [hnode, apply_ite Node.numPages]
  · simp [hnode, apply_ite Node.heapId]
  · exact onNode_rest.1
  · exact onNode_rest.2

end Csc469.Alloc
