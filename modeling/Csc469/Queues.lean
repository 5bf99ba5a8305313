import Csc469.Execution

/-! A first-in first-out queue of bounded capacity, and what comes out of it: of a queue with
messages of several kinds the first of a kind can be taken. -/
namespace Csc469.Queues

open Execution

variable {α : Type*} {cap : Nat} {q : List α} {run : List ((α ⊕ α) × List α)}

/-- Something is put at the end, or taken from the front. -/
inductive Step (cap : Nat) : List α → α ⊕ α → List α → Prop
  | put {q : List α} {a : α} (h : q.length < cap) : Step cap q (.inl a) (q ++ [a])
  | take {q : List α} {a : α} : Step cap (a :: q) (.inr a) q

/-- What has been put in a run, and what has been taken. -/
def puts (labels : List (α ⊕ α)) : List α := labels.filterMap Sum.getLeft?

def takes (labels : List (α ⊕ α)) : List α := labels.filterMap Sum.getRight?

variable {a : α} {labels : List (α ⊕ α)}

@[simp] theorem puts_put : puts (.inl a :: labels) = a :: puts labels := rfl

@[simp] theorem puts_take : puts (.inr a :: labels) = puts labels := rfl

@[simp] theorem takes_put : takes (.inl a :: labels) = takes labels := rfl

@[simp] theorem takes_take : takes (.inr a :: labels) = a :: takes labels := rfl

/-- What was put comes out in the same order, each once, and nothing else does. -/
theorem puts_eq_takes (h : Along (Step cap) q run) :
    q ++ puts (run.map Prod.fst) = takes (run.map Prod.fst) ++ lastState q run := by
  induction run generalizing q with
  | nil => simp [puts, takes, lastState]
  | cons x run ih =>
    obtain ⟨e, t⟩ := x
    obtain ⟨hx, hrest⟩ := h
    have hih := ih hrest
    cases hx with
    | put => simpa [lastState] using hih
    | take => simpa [lastState] using hih

theorem length_le (h : Along (Step cap) q run) (hq : q.length ≤ cap) :
    (lastState q run).length ≤ cap := by
  induction run generalizing q with
  | nil => exact hq
  | cons x run ih =>
    obtain ⟨e, t⟩ := x
    obtain ⟨hx, hrest⟩ := h
    refine ih hrest ?_
    cases hx with
    | put h =>
      rw [List.length_append, List.length_singleton]
      exact h
    | take => exact Nat.le_of_succ_le hq

section Kinds
variable {μ β γ : Type*} {f : μ → Option β} {g : μ → Option γ} {l l' : List μ} {m : μ} {b : β}

/-- The first message of a kind, and the queue without it: `f` is defined on that kind. -/
def takeFirst (f : μ → Option β) : List μ → Option (β × List μ)
  | [] => none
  | m :: l =>
    match f m with
    | some b => some (b, l)
    | none => (takeFirst f l).map fun x => (x.1, m :: x.2)

theorem takeFirst_eq_none : takeFirst f l = none ↔ l.filterMap f = [] := by
  induction l with
  | nil => simp [takeFirst]
  | cons m l ih =>
    cases hm : f m with
    | none => simp [takeFirst, hm, ih]
    | some b => simp [takeFirst, hm]

/-- Of its own kind the first message is gone. -/
theorem takeFirst_filterMap (h : takeFirst f l = some (b, l')) :
    l.filterMap f = b :: l'.filterMap f := by
  induction l generalizing l' with
  | nil => cases h
  | cons m l ih =>
    rw [takeFirst] at h
    cases hm : f m with
    | none =>
      rw [hm] at h
      obtain ⟨⟨c, l''⟩, hl, hc⟩ := Option.map_eq_some_iff.mp h
      cases hc
      rw [List.filterMap_cons_none hm, List.filterMap_cons_none hm, ih hl]
    | some c =>
      rw [hm] at h
      cases h
      rw [List.filterMap_cons_some hm]

/-- The messages of another kind stay as they were. -/
theorem takeFirst_others (hfg : ∀ m, (f m).isSome → g m = none)
    (h : takeFirst f l = some (b, l')) : l'.filterMap g = l.filterMap g := by
  induction l generalizing l' with
  | nil => cases h
  | cons m l ih =>
    rw [takeFirst] at h
    cases hm : f m with
    | none =>
      rw [hm] at h
      obtain ⟨⟨c, l''⟩, hl, hc⟩ := Option.map_eq_some_iff.mp h
      cases hc
      rw [List.filterMap_cons, List.filterMap_cons, ih hl]
    | some c =>
      rw [hm] at h
      cases h
      rw [List.filterMap_cons_none (hfg m (by rw [hm]; rfl))]

theorem takeFirst_length (h : takeFirst f l = some (b, l')) : l.length = l'.length + 1 := by
  induction l generalizing l' with
  | nil => cases h
  | cons m l ih =>
    rw [takeFirst] at h
    cases hm : f m with
    | none =>
      rw [hm] at h
      obtain ⟨⟨c, l''⟩, hl, hc⟩ := Option.map_eq_some_iff.mp h
      cases hc
      rw [List.length_cons, List.length_cons, ih hl]
    | some c =>
      rw [hm] at h
      cases h
      rfl

end Kinds
end Csc469.Queues
