import Csc469.Execution

/-! Forward simulation: a run of one step relation, seen through a map of its states, is a run
of another. -/
namespace Csc469.Simulation

open Execution

variable {σ τ ε δ : Type*} {I : σ → Prop} {R : σ → ε → σ → Prop} {Q : τ → δ → τ → Prop}
  {f : σ → τ} {g : ε → Option δ} {s t : σ} {run : List (ε × σ)}

/-- What is seen of a run: the labels that `g` knows, each with the image of its state. -/
def seen (f : σ → τ) (g : ε → Option δ) (run : List (ε × σ)) : List (δ × τ) :=
  run.filterMap fun x => (g x.1).map (·, f x.2)

theorem seen_cons_some {x : ε × σ} {d : δ} (hg : g x.1 = some d) :
    seen f g (x :: run) = (d, f x.2) :: seen f g run := by
  simp [seen, hg]

theorem seen_cons_none {x : ε × σ} (hg : g x.1 = none) : seen f g (x :: run) = seen f g run := by
  simp [seen, hg]

theorem seen_append {l r : List (ε × σ)} : seen f g (l ++ r) = seen f g l ++ seen f g r :=
  List.filterMap_append

theorem seen_labels : (seen f g run).map Prod.fst = run.filterMap fun x => g x.1 := by
  simp [seen, List.map_filterMap, Function.comp_def]

/-- A step of `R` from a state that meets `I` is seen as the step of `Q` with the label that
`g` gives, and as no step where `g` gives none. -/
structure Simulates (I : σ → Prop) (R : σ → ε → σ → Prop) (Q : τ → δ → τ → Prop) (f : σ → τ)
    (g : ε → Option δ) : Prop where
  keeps : ∀ s e t, I s → R s e t → I t
  step : ∀ s e t d, I s → R s e t → g e = some d → Q (f s) d (f t)
  silent : ∀ s e t, I s → R s e t → g e = none → f t = f s

theorem Simulates.along (h : Simulates I R Q f g) (hs : I s) (hr : Along R s run) :
    Along Q (f s) (seen f g run) := by
  induction run generalizing s with
  | nil => trivial
  | cons x rest ih =>
    have hrest := ih (h.keeps _ _ _ hs hr.1) hr.2
    cases hg : g x.1 with
    | none =>
      rw [seen_cons_none hg, ← h.silent _ _ _ hs hr.1 hg]
      exact hrest
    | some d =>
      rw [seen_cons_some hg]
      exact ⟨h.step _ _ _ d hs hr.1 hg, hrest⟩

theorem Simulates.last (h : Simulates I R Q f g) (hs : I s) (hr : Along R s run) :
    lastState (f s) (seen f g run) = f (lastState s run) := by
  induction run generalizing s with
  | nil => rfl
  | cons x rest ih =>
    have hrest := ih (h.keeps _ _ _ hs hr.1) hr.2
    cases hg : g x.1 with
    | none =>
      rw [seen_cons_none hg, ← h.silent _ _ _ hs hr.1 hg]
      exact hrest
    | some d =>
      rw [seen_cons_some hg]
      exact hrest

section Conditions
variable {A A' : σ → ε → σ → Prop} {B B' : τ → δ → τ → Prop}

/-- A condition on the steps of a run is seen as one on the steps that are seen. -/
theorem Simulates.along_of (h : Simulates I R Q f g)
    (hAB : ∀ s e t d, A s e t → g e = some d → B (f s) d (f t)) (hs : I s) (hr : Along R s run)
    (ha : Along A s run) : Along B (f s) (seen f g run) := by
  have hboth : Simulates I (fun s e t => R s e t ∧ A s e t) B f g :=
    ⟨fun s e t hs hr => h.keeps s e t hs hr.1, fun s e t d _ hr hg => hAB s e t d hr.2 hg,
      fun s e t hs hr hg => h.silent s e t hs hr.1 hg⟩
  exact hboth.along hs (hr.and ha)

/-- So is what has been true since some step that is seen. -/
theorem Simulates.since (h : Simulates I R Q f g)
    (hA : ∀ s e t, A s e t → ∃ d, g e = some d ∧ B (f s) d (f t))
    (hA' : ∀ s e t d, A' s e t → g e = some d → B' (f s) d (f t)) (hs : I s) (hr : Along R s run)
    (hsince : Since A A' s run) : Since B B' (f s) (seen f g run) := by
  obtain ⟨l, e, t, r, rfl, ha, ha'⟩ := hsince
  obtain ⟨hl, hstep, hrest⟩ := along_append.mp hr
  obtain ⟨d, hd, hb⟩ := hA _ _ _ ha
  have hlast : I (lastState s l) := Reaches.invariant h.keeps hs hl.reaches_last
  refine ⟨seen f g l, d, f t, seen f g r, ?_, ?_, ?_⟩
  · rw [seen_append, seen_cons_some hd]
  · rw [h.last hs hl]
    exact hb
  · exact h.along_of hA' (h.keeps _ _ _ hlast hstep) hrest ha'

end Conditions

end Csc469.Simulation
