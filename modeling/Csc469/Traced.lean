import Csc469.Execution

/-! Calls that record what they do to a shared state, and what a monitor says of the record. -/
namespace Csc469.Execution

/-- A call on a state: what it does in order, also when it never returns, and its result. -/
def Traced (σ ε α : Type) : Type := σ → List ε × Call (σ × α)

variable {σ ε μ α β : Type} {s t : σ} {a : α}

namespace Traced

/-- What the rest of a call adds to what it has done so far. -/
def andThen (f : α → Traced σ ε β) : List ε × Call (σ × α) → List ε × Call (σ × β)
  | (l, .error e) => (l, .error e)
  | (l, .ok (t, a)) => (l ++ (f a t).1, (f a t).2)

instance : Monad (Traced σ ε) where
  pure a := fun s => ([], .ok (s, a))
  bind x f := fun s => andThen f (x s)

def trace (x : Traced σ ε α) (s : σ) : List ε := (x s).1

def result (x : Traced σ ε α) (s : σ) : Call (σ × α) := (x s).2

/-- One action, recorded when it succeeds. -/
def act (c : σ → Call (σ × α)) (record : σ → α → List ε) : Traced σ ε α := fun s =>
  match c s with
  | .error e => ([], .error e)
  | .ok (t, a) => (record s a, .ok (t, a))

/-- A change of the state that nothing is recorded of. -/
def silent (f : σ → σ) : Traced σ ε Unit := act (fun s => .ok (f s, ())) fun _ _ => []

/-- Something that is read from the state. -/
def ask (c : σ → Call α) : Traced σ ε α := act (fun s => (c s).map (s, ·)) fun _ _ => []

@[simp] theorem result_pure : (pure a : Traced σ ε α).result s = .ok (s, a) := rfl

@[simp] theorem result_bind {x : Traced σ ε α} {f : α → Traced σ ε β} :
    (x >>= f).result s = x.result s >>= fun r => (f r.2).result r.1 := by
  change (andThen f (x s)).2 = (x s).2 >>= _
  obtain ⟨l, e | ⟨t, a⟩⟩ := x s <;> rfl

@[simp] theorem result_act {c : σ → Call (σ × α)} {record : σ → α → List ε} :
    (act c record).result s = c s := by
  rw [result, act]
  obtain e | ⟨t, a⟩ := c s <;> rfl

@[simp] theorem result_silent {f : σ → σ} :
    (silent f : Traced σ ε Unit).result s = .ok (f s, ()) := rfl

@[simp] theorem result_ask {c : σ → Call α} :
    (ask c : Traced σ ε α).result s = (c s).map (s, ·) := result_act

variable {e : ε}

theorem mem_trace_bind {x : Traced σ ε α} {f : α → Traced σ ε β} :
    e ∈ (x >>= f).trace s ↔
      e ∈ x.trace s ∨ ∃ t a, x.result s = .ok (t, a) ∧ e ∈ (f a).trace t := by
  have htrace : (x >>= f).trace s = (andThen f (x.trace s, x.result s)).1 := rfl
  rw [htrace]
  cases x.result s with
  | error e => simp [andThen]
  | ok r =>
    obtain ⟨t, a⟩ := r
    simp only [andThen, List.mem_append]
    refine or_congr_right ⟨fun h => ⟨t, a, rfl, h⟩, ?_⟩
    rintro ⟨t', a', ⟨⟩, h⟩
    exact h

@[simp] theorem not_mem_trace_pure : e ∉ (pure a : Traced σ ε α).trace s := List.not_mem_nil

theorem mem_trace_act {c : σ → Call (σ × α)} {record : σ → α → List ε} :
    e ∈ (act c record).trace s ↔ ∃ t a, c s = .ok (t, a) ∧ e ∈ record s a := by
  rw [trace, act]
  obtain e' | ⟨t, a⟩ := c s
  · simp
  · constructor
    · exact fun h => ⟨t, a, rfl, h⟩
    · rintro ⟨t', a', ⟨⟩, h⟩
      exact h

@[simp] theorem not_mem_trace_silent {f : σ → σ} :
    e ∉ (silent f : Traced σ ε Unit).trace s := List.not_mem_nil

@[simp] theorem not_mem_trace_ask {c : σ → Call α} : e ∉ (ask c : Traced σ ε α).trace s := by
  simp [ask, mem_trace_act]

end Traced

/-- An automaton that reads what is recorded and says which entries it allows. -/
structure Monitor (ε μ : Type) where
  allows : μ → ε → Prop
  next : μ → ε → μ

namespace Monitor

variable (m : Monitor ε μ)

def Accepts : μ → List ε → Prop
  | _, [] => True
  | k, e :: l => m.allows k e ∧ Accepts (m.next k e) l

instance decidableAccepts [∀ k e, Decidable (m.allows k e)] :
    (k : μ) → (l : List ε) → Decidable (m.Accepts k l)
  | _, [] => .isTrue trivial
  | k, e :: l =>
    haveI := decidableAccepts (m.next k e) l
    inferInstanceAs (Decidable (m.allows k e ∧ m.Accepts (m.next k e) l))

/-- The automaton after the record. -/
def after (k : μ) (l : List ε) : μ := l.foldl m.next k

variable {m} {k : μ} {l l' : List ε}

theorem accepts_append : m.Accepts k (l ++ l') ↔ m.Accepts k l ∧ m.Accepts (m.after k l) l' := by
  induction l generalizing k with
  | nil => simp [Accepts, after]
  | cons e l ih => simp [Accepts, after, ih, and_assoc]

variable (m) in
/-- From `k` on the call does only what the monitor allows, and what it returns meets `Q`,
together with what the monitor has come to. -/
def Meets (k : μ) (x : Traced σ ε α) (s : σ) (Q : σ → α → μ → Prop) : Prop :=
  m.Accepts k (x.trace s) ∧ ∀ t a, x.result s = .ok (t, a) → Q t a (m.after k (x.trace s))

section Rules
variable {x : Traced σ ε α} {f : α → Traced σ ε β} {Q R : σ → α → μ → Prop} {P : σ → β → μ → Prop}

theorem meets_pure : m.Meets k (pure a) s Q ↔ Q s a k := by
  constructor
  · exact fun h => h.2 s a rfl
  · rintro h
    refine ⟨trivial, ?_⟩
    rintro t b ⟨⟩
    exact h

theorem meets_bind :
    m.Meets k (x >>= f) s P ↔ m.Meets k x s fun t a k' => m.Meets k' (f a) t P := by
  have htrace : (x >>= f).trace s = (Traced.andThen f (x.trace s, x.result s)).1 := rfl
  rw [Meets, Meets, htrace, Traced.result_bind]
  cases x.result s with
  | error e => simp [Traced.andThen, bind, Except.bind]
  | ok r =>
    obtain ⟨t, a⟩ := r
    simp only [Traced.andThen, accepts_append, bind, Except.bind, Except.ok.injEq, Prod.mk.injEq,
      and_assoc]
    refine and_congr_right fun _ => ?_
    constructor
    · rintro h t' a' ⟨rfl, rfl⟩
      refine ⟨h.1, fun u b hr => ?_⟩
      have := h.2 u b hr
      rwa [after, List.foldl_append] at this
    · intro h
      obtain ⟨h1, h2⟩ := h t a ⟨rfl, rfl⟩
      refine ⟨h1, fun u b hr => ?_⟩
      rw [after, List.foldl_append]
      exact h2 u b hr

theorem meets_act {c : σ → Call (σ × α)} {record : σ → α → List ε} :
    m.Meets k (.act c record) s Q ↔
      ∀ t a, c s = .ok (t, a) → m.Accepts k (record s a) ∧ Q t a (m.after k (record s a)) := by
  rw [Meets, Traced.result_act, Traced.trace, Traced.act]
  obtain e | ⟨t, a⟩ := c s
  · simp [Accepts]
  · simp

theorem meets_act_ok {c : σ → Call (σ × α)} {record : σ → α → List ε} (hc : c s = .ok (t, a)) :
    m.Meets k (.act c record) s Q ↔
      m.Accepts k (record s a) ∧ Q t a (m.after k (record s a)) := by
  rw [meets_act]
  constructor
  · exact fun h => h t a hc
  · rintro h t' a' hc'
    cases hc.symm.trans hc'
    exact h

theorem meets_silent {g : σ → σ} {Q : σ → Unit → μ → Prop} :
    m.Meets k (.silent g) s Q ↔ Q (g s) () k := by
  rw [Traced.silent, meets_act_ok rfl]
  exact and_iff_right trivial

theorem meets_ask {c : σ → Call α} : m.Meets k (.ask c) s Q ↔ ∀ a, c s = .ok a → Q s a k := by
  rw [Traced.ask, meets_act]
  cases c s with
  | error e => simp [Except.map]
  | ok a => simp [Except.map, Accepts, after]

/-- The result is known too. -/
theorem Meets.result (h : m.Meets k x s Q) :
    m.Meets k x s fun t a k' => x.result s = .ok (t, a) ∧ Q t a k' :=
  ⟨h.1, fun t a hr => ⟨hr, h.2 t a hr⟩⟩

theorem Meets.mono (h : m.Meets k x s Q) (hQ : ∀ t a k', Q t a k' → R t a k') : m.Meets k x s R :=
  ⟨h.1, fun t a hr => hQ t a _ (h.2 t a hr)⟩

/-- A call whose result is known, before another one. -/
theorem Meets.bind_iff {j : μ} (h : m.Meets k x s fun _ _ k' => k' = j)
    (hr : x.result s = .ok (t, a)) : m.Meets k (x >>= f) s P ↔ m.Meets j (f a) t P := by
  rw [meets_bind]
  constructor
  · intro h'
    have hf := h'.2 t a hr
    rwa [h.2 t a hr] at hf
  · intro hf
    refine h.result.mono ?_
    rintro t' a' k' ⟨hr', rfl⟩
    cases hr.symm.trans hr'
    exact hf

end Rules
end Monitor
end Csc469.Execution
