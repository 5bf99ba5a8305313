import Mathlib.Algebra.Group.Int.Defs
import Mathlib.Algebra.Group.Nat.Defs
import Mathlib.Data.List.Basic
import Mathlib.Data.List.Induction
import Mathlib.Logic.Relation

/-! Calls that may never return, and runs of a labelled step relation. -/
namespace Csc469.Execution

/-- Why a call never returns: it waits for a lock nobody will release, it loops
forever, or it stops the program (invalid access, failed assertion). -/
inductive Stuck where
  | blocked
  | loops
  | fault
  deriving DecidableEq, Repr

/-- A C call: its result, or the reason it has none. -/
abbrev Call (α : Type) := Except Stuck α

section Calls
variable {α β : Type}

theorem ok_of_bind {c : Call α} {f : α → Call β} {b : β} (h : (c >>= f) = .ok b) :
    ∃ a, c = .ok a ∧ f a = .ok b := by
  cases c with
  | error e => cases h
  | ok a => exact ⟨a, rfl, h⟩

theorem bind_eq_ok {c : Call α} {f : α → Call β} {b : β} :
    (c >>= f) = .ok b ↔ ∃ a, c = .ok a ∧ f a = .ok b := by
  refine ⟨ok_of_bind, ?_⟩
  rintro ⟨a, rfl, h⟩
  exact h

theorem map_eq_ok {c : Call α} {f : α → β} {b : β} :
    c.map f = .ok b ↔ ∃ a, c = .ok a ∧ f a = b := by
  cases c with
  | error e => simp [Except.map]
  | ok a => simp [Except.map]

theorem ok_of_map {c : Call α} {f : α → β} {b : β} (h : c.toOption.map f = some b) :
    ∃ a, c = .ok a ∧ f a = b := by
  cases c with
  | error e => cases h
  | ok a => exact ⟨a, rfl, Option.some.inj h⟩

end Calls

section Runs
variable {σ : Type*} {ε : Type*} {R Q : σ → ε → σ → Prop} {I : σ → Prop}
  {s t : σ} {run : List (ε × σ)}

/-- A run is the list of its labels, each with the state it leads to. `Along R s run`
says that `R` relates every state of the run, from `s` on, to its successor. -/
def Along (R : σ → ε → σ → Prop) : σ → List (ε × σ) → Prop
  | _, [] => True
  | s, (e, t) :: rest => R s e t ∧ Along R t rest

instance Along.decidable [∀ s e t, Decidable (R s e t)] :
    (s : σ) → (run : List (ε × σ)) → Decidable (Along R s run)
  | _, [] => .isTrue trivial
  | s, (e, t) :: rest =>
    haveI := Along.decidable t rest
    inferInstanceAs (Decidable (R s e t ∧ Along R t rest))

theorem Along.mono (h : ∀ s e t, R s e t → Q s e t) (hr : Along R s run) :
    Along Q s run := by
  induction run generalizing s with
  | nil => trivial
  | cons x rest ih => exact ⟨h _ _ _ hr.1, ih hr.2⟩

theorem Along.and (hr : Along R s run) (hq : Along Q s run) :
    Along (fun s e t => R s e t ∧ Q s e t) s run := by
  induction run generalizing s with
  | nil => trivial
  | cons x rest ih => exact ⟨⟨hr.1, hq.1⟩, ih hr.2 hq.2⟩

theorem along_labels {P : ε → Prop} (h : ∀ x ∈ run, P x.1) : Along (fun _ e _ => P e) s run := by
  induction run generalizing s with
  | nil => trivial
  | cons x rest ih => exact ⟨h x (by simp), ih fun y hy => h y (by simp [hy])⟩

theorem along_states {P : σ → Prop} :
    Along (fun _ _ t => P t) s run ↔ ∀ x ∈ run, P x.2 := by
  induction run generalizing s with
  | nil => simp [Along]
  | cons x rest ih => simp [Along, ih]

/-- What every step preserves holds around every step of a run. -/
theorem Along.invariant (hstep : ∀ s e t, I s → R s e t → I t) (hs : I s)
    (hr : Along R s run) : Along (fun s _ t => I s ∧ I t) s run := by
  induction run generalizing s with
  | nil => trivial
  | cons x rest ih =>
    have ht := hstep _ _ _ hs hr.1
    exact ⟨⟨hs, ht⟩, ih ht hr.2⟩

/-- Each step of a run meets `G` as long as the earlier ones did, exactly when it meets
`Q`: then the two agree on whole runs. -/
theorem along_iff {G : σ → ε → σ → Prop}
    (hstep : ∀ s e t, I s → R s e t → (G s e t ↔ Q s e t) ∧ (Q s e t → I t))
    (hs : I s) (hr : Along R s run) : Along G s run ↔ Along Q s run := by
  induction run generalizing s with
  | nil => exact Iff.rfl
  | cons x rest ih =>
    obtain ⟨hgq, hi⟩ := hstep _ _ _ hs hr.1
    constructor
    · rintro ⟨hg, hrest⟩
      have hq := hgq.mp hg
      exact ⟨hq, (ih (hi hq) hr.2).mp hrest⟩
    · rintro ⟨hq, hrest⟩
      exact ⟨hgq.mpr hq, (ih (hi hq) hr.2).mpr hrest⟩

/-- Some finite sequence of steps leads from `s` to `t`. -/
abbrev Reaches (R : σ → ε → σ → Prop) : σ → σ → Prop :=
  Relation.ReflTransGen fun s t => ∃ e, R s e t

theorem Reaches.invariant (hstep : ∀ s e t, I s → R s e t → I t) (hs : I s)
    (hr : Reaches R s t) : I t := by
  induction hr with
  | refl => exact hs
  | tail _ h ih =>
    obtain ⟨e, he⟩ := h
    exact hstep _ _ _ ih he

theorem Along.reaches (hr : Along R s run) : ∀ x ∈ run, Reaches R s x.2 := by
  induction run generalizing s with
  | nil => simp
  | cons x rest ih =>
    have hx : Reaches R s x.2 := .single ⟨x.1, hr.1⟩
    intro y hy
    rcases List.mem_cons.mp hy with rfl | hy
    · exact hx
    · exact hx.trans (ih hr.2 y hy)

section Histories
variable {P : σ → ε → σ → Prop} {l r : List (ε × σ)} {e : ε}

/-- The state that a run leads to. -/
def lastState (s : σ) : List (ε × σ) → σ
  | [] => s
  | (_, t) :: rest => lastState t rest

theorem lastState_append : lastState s (l ++ r) = lastState (lastState s l) r := by
  induction l generalizing s with
  | nil => rfl
  | cons x l ih => exact ih

theorem along_append : Along R s (l ++ r) ↔ Along R s l ∧ Along R (lastState s l) r := by
  induction l generalizing s with
  | nil => simp [Along, lastState]
  | cons x l ih => simp [Along, lastState, ih, and_assoc]

theorem along_concat : Along R s (l ++ [(e, t)]) ↔ Along R s l ∧ R (lastState s l) e t := by
  simp [along_append, Along]

theorem Along.reaches_last (hr : Along R s run) : Reaches R s (lastState s run) := by
  induction run generalizing s with
  | nil => exact .refl
  | cons x rest ih => exact .head ⟨_, hr.1⟩ (ih hr.2)

/-- What holds before a run and is kept by each step of it, given the run so far. -/
theorem Along.history {I : List (ε × σ) → Prop} (hr : Along R s run) (hnil : I [])
    (hstep : ∀ l e t, I l → R (lastState s l) e t → I (l ++ [(e, t)])) : I run := by
  induction run using List.reverseRecOn with
  | nil => exact hnil
  | append_singleton l x ih =>
    obtain ⟨hr, hx⟩ := along_concat.mp hr
    exact hstep l x.1 x.2 (ih hr) hx

/-- At some step of the run `P` was true, and every step after it has met `Q`. -/
def Since (P Q : σ → ε → σ → Prop) (s : σ) (run : List (ε × σ)) : Prop :=
  ∃ l e t r, run = l ++ (e, t) :: r ∧ P (lastState s l) e t ∧ Along Q t r

theorem not_since_nil : ¬Since P Q s [] := by
  rintro ⟨l, e, t, r, h, -⟩
  simp at h

theorem since_concat : Since P Q s (run ++ [(e, t)]) ↔
    P (lastState s run) e t ∨ Q (lastState s run) e t ∧ Since P Q s run := by
  constructor
  · rintro ⟨l, e', t', r, h, hp, hq⟩
    rcases List.eq_nil_or_concat' r with rfl | ⟨r, x, rfl⟩
    · obtain ⟨rfl, he⟩ := List.append_inj' h rfl
      cases he
      exact .inl hp
    · rw [← List.cons_append, ← List.append_assoc] at h
      obtain ⟨rfl, he⟩ := List.append_inj' h rfl
      cases he
      obtain ⟨hq, hlast⟩ := along_concat.mp hq
      refine .inr ⟨?_, l, e', t', r, rfl, hp, hq⟩
      rwa [lastState_append]
  · rintro (hp | ⟨hq, l, e', t', r, rfl, hp, hr⟩)
    · exact ⟨run, e, t, [], rfl, hp, trivial⟩
    · refine ⟨l, e', t', r ++ [(e, t)], by simp, hp, along_concat.mpr ⟨hr, ?_⟩⟩
      rwa [lastState_append] at hq

end Histories
end Runs
end Csc469.Execution
