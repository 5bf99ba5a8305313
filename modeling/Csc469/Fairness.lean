import Csc469.Execution
import Mathlib.Order.Basic
import Mathlib.Algebra.Order.Ring.Nat

/-! Infinite executions of a labelled step relation, and what fairness makes of them. -/
namespace Csc469.Fairness

open Execution

/-- An infinite execution: in each round a step, with its label, or none. -/
structure Trace (σ ε : Type*) where
  state : Nat → σ
  event : Nat → Option ε

variable {σ ε : Type*} {R : σ → ε → σ → Prop} {acts : ε → Prop} {E : Trace σ ε} {I P Q S : σ → Prop}
  {m n : Nat}

/-- Every round is a step of `R`, or changes nothing. -/
def Valid (R : σ → ε → σ → Prop) (E : Trace σ ε) : Prop :=
  ∀ n, match E.event n with
    | some e => R (E.state n) e (E.state (n + 1))
    | none => E.state (n + 1) = E.state n

/-- Some step with one of these labels is possible. -/
def Enabled (R : σ → ε → σ → Prop) (acts : ε → Prop) (s : σ) : Prop := ∃ e t, acts e ∧ R s e t

/-- From any round on, these steps are impossible at some time, or one of them is taken. -/
def Fair (R : σ → ε → σ → Prop) (acts : ε → Prop) (E : Trace σ ε) : Prop :=
  ∀ n, ∃ m, n ≤ m ∧ (¬Enabled R acts (E.state m) ∨ ∃ e, E.event m = some e ∧ acts e)

/-- Whenever `P` holds, `Q` holds then or later. -/
def LeadsTo (E : Trace σ ε) (P Q : σ → Prop) : Prop :=
  ∀ n, P (E.state n) → ∃ m, n ≤ m ∧ Q (E.state m)

theorem Valid.step {e : ε} (h : Valid R E) (he : E.event n = some e) :
    R (E.state n) e (E.state (n + 1)) := by
  have hn := h n
  rwa [he] at hn

theorem Valid.idle (h : Valid R E) (he : E.event n = none) : E.state (n + 1) = E.state n := by
  have hn := h n
  rwa [he] at hn

/-- An invariant of the steps holds in every round. -/
theorem Valid.invariant (h : Valid R E) (hstep : ∀ s e t, I s → R s e t → I t)
    (h0 : I (E.state 0)) : ∀ n, I (E.state n) := by
  intro n
  induction n with
  | zero => exact h0
  | succ n ih =>
    cases he : E.event n with
    | none => rwa [h.idle he]
    | some e => exact hstep _ _ _ ih (h.step he)

namespace LeadsTo

theorem of_imp (h : ∀ s, P s → Q s) : LeadsTo E P Q := fun n hp => ⟨n, le_rfl, h _ hp⟩

theorem trans (h : LeadsTo E P Q) (h' : LeadsTo E Q S) : LeadsTo E P S := by
  intro n hp
  obtain ⟨m, hnm, hq⟩ := h n hp
  obtain ⟨k, hmk, hs⟩ := h' m hq
  exact ⟨k, hnm.trans hmk, hs⟩

theorem or (h : LeadsTo E P S) (h' : LeadsTo E Q S) : LeadsTo E (fun s => P s ∨ Q s) S := by
  rintro n (hp | hq)
  · exact h n hp
  · exact h' n hq

/-- A chain goes on from where a step of it has come to. -/
theorem chain (h : LeadsTo E P fun s => Q s ∨ S s) (h' : LeadsTo E Q S) : LeadsTo E P S :=
  h.trans (h'.or (of_imp fun _ hs => hs))

end LeadsTo

/-- What holds at `n`, and is kept by each round up to `m` unless it leads to `Q`, still holds
at `m` when `Q` has not come. -/
theorem Valid.kept (h : Valid R E) (hkeep : ∀ s e t, P s → R s e t → P t ∨ Q t)
    (hp : P (E.state n)) (hnm : n ≤ m) (hno : ∀ k, n ≤ k → k ≤ m → ¬Q (E.state k)) :
    P (E.state m) := by
  induction m, hnm using Nat.le_induction with
  | base => exact hp
  | succ m hnm ih =>
    have hpm := ih fun k hk hkm => hno k hk (hkm.trans (Nat.le_succ m))
    cases he : E.event m with
    | none => rwa [h.idle he]
    | some e =>
      rcases hkeep _ _ _ hpm (h.step he) with hp | hq
      · exact hp
      · exact (hno (m + 1) (hnm.trans (Nat.le_succ m)) le_rfl hq).elim

/-- What only `Q` ends, and the steps of a fair party do end, leads to `Q`. -/
theorem Fair.leadsTo (h : Valid R E) (hf : Fair R acts E)
    (hkeep : ∀ s e t, P s → R s e t → P t ∨ Q t) (hen : ∀ s, P s → Enabled R acts s)
    (hdo : ∀ s e t, P s → R s e t → acts e → Q t) : LeadsTo E P Q := by
  intro n hp
  by_contra hno
  push Not at hno
  obtain ⟨m, hnm, hm⟩ := hf n
  have hpm := h.kept hkeep hp hnm fun k hk _ => hno k hk
  rcases hm with hdis | ⟨e, he, hacts⟩
  · exact hdis (hen _ hpm)
  · exact hno (m + 1) (hnm.trans (Nat.le_succ m)) (hdo _ _ _ hpm (h.step he) hacts)

/-- The same, where every step keeps `P` without being of the party, or comes to `Q`. -/
theorem Fair.leadsTo_of_step (h : Valid R E) (hf : Fair R acts E)
    (hen : ∀ s, P s → Enabled R acts s)
    (hstep : ∀ s e t, P s → R s e t → (P t ∧ ¬acts e) ∨ Q t) : LeadsTo E P Q :=
  hf.leadsTo h (fun s e t hp hs => (hstep s e t hp hs).imp_left And.left) hen
    fun s e t hp hs ha => (hstep s e t hp hs).resolve_left fun hk => hk.2 ha

/-- A fair party comes to `Q` when each step of its own brings it nearer, and the others do not
take it back. -/
theorem Fair.leadsTo_of_rank {rank : σ → Nat} (h : Valid R E) (hf : Fair R acts E)
    (hen : ∀ s, P s → Enabled R acts s)
    (hstep : ∀ s e t, P s → R s e t → Q t ∨ P t ∧ rank t ≤ rank s ∧ (acts e → rank t < rank s)) :
    LeadsTo E P Q := by
  have hle : ∀ k, LeadsTo E (fun s => P s ∧ rank s = k) Q := by
    intro k
    induction k using Nat.strong_induction_on with
    | h k ih =>
      have hnear : LeadsTo E (fun s => P s ∧ rank s = k) fun s => Q s ∨ P s ∧ rank s < k := by
        refine hf.leadsTo h (fun s e t hp hs => ?_) (fun s hp => hen s hp.1)
          fun s e t hp hs ha => ?_
        · rcases hstep s e t hp.1 hs with hq | ⟨hpt, hrank, -⟩
          · exact .inr (.inl hq)
          · rw [hp.2] at hrank
            rcases Nat.lt_or_eq_of_le hrank with hlt | heq
            · exact .inr (.inr ⟨hpt, hlt⟩)
            · exact .inl ⟨hpt, heq⟩
        · exact (hstep s e t hp.1 hs).imp_right fun ht => ⟨ht.1, hp.2 ▸ ht.2.2 ha⟩
      refine hnear.trans (LeadsTo.or (.of_imp fun _ hq => hq) fun n hp => ?_)
      exact ih _ hp.2 n ⟨hp.1, rfl⟩
  exact fun n hp => hle _ n ⟨hp, rfl⟩

section Finite
variable {s : σ} {run : List (ε × σ)}

/-- A finite run, after which nothing happens. -/
def Trace.ofRun (s : σ) (run : List (ε × σ)) : Trace σ ε :=
  ⟨fun n => lastState s (run.take n), fun n => run[n]?.map Prod.fst⟩

theorem ofRun_state_last (hn : run.length ≤ n) : (Trace.ofRun s run).state n = lastState s run := by
  simp only [Trace.ofRun, List.take_of_length_le hn]

theorem ofRun_valid (h : Along R s run) : Valid R (.ofRun s run) := by
  intro n
  simp only [Trace.ofRun]
  cases hn : run[n]? with
  | none =>
    have hlen := List.getElem?_eq_none_iff.mp hn
    simp only [Option.map_none]
    rw [List.take_of_length_le hlen, List.take_of_length_le (Nat.le_succ_of_le hlen)]
  | some x =>
    obtain ⟨hlt, hx⟩ := List.getElem?_eq_some_iff.mp hn
    simp only [Option.map_some]
    have htake : run.take (n + 1) = run.take n ++ [(x.1, x.2)] := by
      rw [List.take_succ_eq_append_getElem hlt, hx]
    have hpre : Along R s (run.take (n + 1)) := by
      rw [← List.take_append_drop (n + 1) run] at h
      exact (along_append.mp h).1
    rw [htake] at hpre ⊢
    rw [lastState_append]
    exact (along_concat.mp hpre).2

/-- A run at whose end a party can do nothing is fair to it. -/
theorem ofRun_fair (h : ¬Enabled R acts (lastState s run)) : Fair R acts (.ofRun s run) := by
  intro n
  refine ⟨max n run.length, le_max_left _ _, .inl ?_⟩
  rwa [ofRun_state_last (le_max_right _ _)]

end Finite
end Csc469.Fairness
