import Csc469.Execution

/-! A request that is repeated until it is answered, over connections that lose answers. -/
namespace Csc469.Retry

open Execution

/-- How one attempt ends. After `lost` and `answered` the request was delivered, as `d`. -/
inductive Attempt (δ : Type) where
  | noConnection
  | notDelivered
  | closed
  | lost (d : δ)
  | answered (d : δ)

variable {σ δ ρ : Type} {serve : σ → δ → Call (σ × Option ρ)} {s s₀ t : σ} {d : δ}
  {outcomes : List (Attempt δ)} {answer : Option ρ} {res : Option (Option ρ)}

/-- The attempts one after the other, until one is answered or cannot be made. An answer may
be empty: the connection is closed and nothing was sent. -/
def attempts (serve : σ → δ → Call (σ × Option ρ)) :
    List (Attempt δ) → σ → Call (σ × Option (Option ρ))
  | [], s => .ok (s, none)
  | .noConnection :: _, s => .ok (s, none)
  | .notDelivered :: rest, s => attempts serve rest s
  | .closed :: _, s => .ok (s, some none)
  | .lost d :: rest, s => do
    let (s, _) ← serve s d
    attempts serve rest s
  | .answered d :: _, s => do
    let (s, answer) ← serve s d
    .ok (s, some answer)

/-- One of the attempts is answered. -/
def Answered : List (Attempt δ) → Prop
  | [] => False
  | .noConnection :: _ => False
  | .notDelivered :: rest => Answered rest
  | .closed :: _ => True
  | .lost _ :: rest => Answered rest
  | .answered _ :: _ => True

/-- The deliveries before that whose answers are lost. -/
def lostBefore : List (Attempt δ) → List δ
  | .notDelivered :: rest => lostBefore rest
  | .lost d :: rest => d :: lostBefore rest
  | _ => []

theorem attempts_isSome (h : attempts serve outcomes s = .ok (t, res)) :
    res.isSome ↔ Answered outcomes := by
  induction outcomes generalizing s with
  | nil =>
    cases h
    simp [Answered]
  | cons o rest ih =>
    cases o with
    | noConnection =>
      cases h
      simp [Answered]
    | notDelivered => exact ih h
    | closed =>
      cases h
      simp [Answered]
    | lost d =>
      obtain ⟨⟨u, r⟩, -, h⟩ := ok_of_bind h
      exact ih h
    | answered d =>
      obtain ⟨⟨u, r⟩, -, h⟩ := ok_of_bind h
      cases h
      simp [Answered]

/-- The attempt that is answered. -/
def answering : List (Attempt δ) → Option (Attempt δ)
  | .notDelivered :: rest => answering rest
  | .lost _ :: rest => answering rest
  | .closed :: _ => some .closed
  | .answered d :: _ => some (.answered d)
  | _ => none

theorem answering_isSome : (answering outcomes).isSome ↔ Answered outcomes := by
  induction outcomes with
  | nil => simp [answering, Answered]
  | cons o rest ih =>
    cases o with
    | noConnection => simp [answering, Answered]
    | notDelivered => exact ih
    | closed => simp [answering, Answered]
    | lost d => exact ih
    | answered d => simp [answering, Answered]

/-- The attempt that ends the others is answered, or its connection is closed. -/
theorem answering_cases (l : List (Attempt δ)) :
    answering l = none ∨ answering l = some .closed ∨ ∃ d, answering l = some (.answered d) := by
  induction l with
  | nil => exact .inl rfl
  | cons o rest ih =>
    cases o with
    | noConnection => exact .inl rfl
    | notDelivered => exact ih
    | closed => exact .inr (.inl rfl)
    | lost d => exact ih
    | answered d => exact .inr (.inr ⟨d, rfl⟩)

/-- The answer comes from the server, in a state that it has reached by then, unless the
connection was closed before. -/
theorem attempts_answering {I : σ → Prop} (hkeep : ∀ {s d t r}, I s → serve s d = .ok (t, r) → I t)
    (hs : I s) (h : attempts serve outcomes s = .ok (t, some answer)) :
    (answering outcomes = some .closed ∧ answer = none) ∨
      ∃ d s', answering outcomes = some (.answered d) ∧ I s' ∧ serve s' d = .ok (t, answer) := by
  induction outcomes generalizing s with
  | nil => cases h
  | cons o rest ih =>
    cases o with
    | noConnection => cases h
    | notDelivered => exact ih hs h
    | closed =>
      cases h
      exact .inl ⟨rfl, rfl⟩
    | lost d =>
      obtain ⟨⟨u, r⟩, hu, h⟩ := ok_of_bind h
      exact ih (hkeep hs hu) h
    | answered d =>
      obtain ⟨⟨u, r⟩, hu, h⟩ := ok_of_bind h
      cases h
      exact .inr ⟨d, s, rfl, hs, hu⟩

/-- What every request keeps, the attempts keep. -/
theorem attempts_invariant {I : σ → Prop} (hkeep : ∀ {s d t r}, I s → serve s d = .ok (t, r) → I t)
    (hs : I s) (h : attempts serve outcomes s = .ok (t, res)) : I t := by
  induction outcomes generalizing s with
  | nil =>
    cases h
    exact hs
  | cons o rest ih =>
    cases o with
    | noConnection =>
      cases h
      exact hs
    | notDelivered => exact ih hs h
    | closed =>
      cases h
      exact hs
    | lost d =>
      obtain ⟨⟨u, r⟩, hu, h⟩ := ok_of_bind h
      exact ih (hkeep hs hu) h
    | answered d =>
      obtain ⟨⟨u, r⟩, hu, h⟩ := ok_of_bind h
      cases h
      exact hkeep hs hu

section Told
variable {α : Type} {f : α → ρ} {told : List (Attempt α)}

/-- A server that sends the answers it is told. -/
def sends (f : α → ρ) (_ : Unit) (x : α) : Call (Unit × Option ρ) := .ok ((), some (f x))

theorem attempts_sends : attempts (sends f) told () = .ok ((), (answering told).map fun
    | .answered x => some (f x)
    | _ => none) := by
  induction told with
  | nil => rfl
  | cons o rest ih =>
    cases o with
    | noConnection => rfl
    | notDelivered => exact ih
    | closed => rfl
    | lost x => exact ih
    | answered x => rfl

/-- With any server the attempts end as if its answers had been told before. -/
theorem attempts_told {I : σ → Prop} (hkeep : ∀ {s d t r}, I s → serve s d = .ok (t, r) → I t)
    (hsend : ∀ {s d t x}, I s → serve s d = .ok (t, some x) → ∃ a, f a = x) (hs : I s)
    (h : attempts serve outcomes s = .ok (t, res)) :
    ∃ told : List (Attempt α), told.length = outcomes.length ∧
      attempts (sends f) told () = .ok ((), res) := by
  induction outcomes generalizing s with
  | nil =>
    cases h
    exact ⟨[], rfl, rfl⟩
  | cons o rest ih =>
    have hpad (o : Attempt α) : (o :: List.replicate rest.length .closed).length =
        rest.length + 1 := by simp
    cases o with
    | noConnection =>
      cases h
      exact ⟨_, hpad .noConnection, rfl⟩
    | notDelivered =>
      obtain ⟨told, hlen, htold⟩ := ih hs h
      exact ⟨.notDelivered :: told, congrArg (· + 1) hlen, htold⟩
    | closed =>
      cases h
      exact ⟨_, hpad .closed, rfl⟩
    | lost d =>
      obtain ⟨⟨u, r⟩, hu, h⟩ := ok_of_bind h
      obtain ⟨told, hlen, htold⟩ := ih (hkeep hs hu) h
      exact ⟨.notDelivered :: told, congrArg (· + 1) hlen, htold⟩
    | answered d =>
      obtain ⟨⟨u, r⟩, hu, h⟩ := ok_of_bind h
      cases h
      cases r with
      | none => exact ⟨_, hpad .closed, rfl⟩
      | some x =>
        obtain ⟨a, rfl⟩ := hsend hs hu
        exact ⟨_, hpad (.answered a), rfl⟩

end Told

/-- A server that accepts a request at most once. `Same` is what a rejected request keeps,
`confirms` tells the answers to accepted requests apart, and `Effect` is what they promise. -/
structure AcceptsOnce (serve : σ → δ → Call (σ × Option ρ)) (I : σ → Prop)
    (Same : σ → σ → Prop) (accepts : σ → δ → Prop) (confirms : ρ → Prop)
    (Effect : σ → ρ → Prop) : Prop where
  refl : ∀ s, Same s s
  trans : ∀ {s t u}, Same s t → Same t u → Same s u
  keeps : ∀ {s d t answer}, I s → serve s d = .ok (t, answer) → I t
  same : ∀ {s t d}, I s → I t → Same s t → (accepts t d ↔ accepts s d)
  rejected : ∀ {s d t answer}, I s → ¬accepts s d → serve s d = .ok (t, answer) →
    Same s t ∧ ∀ x, answer = some x → ¬confirms x
  accepted : ∀ {s d t answer}, I s → accepts s d → serve s d = .ok (t, answer) →
    ∃ x, answer = some x ∧ confirms x ∧ Effect t x
  changed : ∀ {s₀ s d t answer u}, I s₀ → I s → I u → Same s₀ s → accepts s d →
    serve s d = .ok (t, answer) → Same t u → ¬Same s₀ u
  once : ∀ {s d t answer d'}, I s → accepts s d → serve s d = .ok (t, answer) → ¬accepts t d'

variable {I : σ → Prop} {Same : σ → σ → Prop} {accepts : σ → δ → Prop} {confirms : ρ → Prop}
  {Effect : σ → ρ → Prop}

theorem AcceptsOnce.attempts_keep (h : AcceptsOnce serve I Same accepts confirms Effect)
    (hs : I s) (ha : attempts serve outcomes s = .ok (t, res)) : I t := by
  induction outcomes generalizing s with
  | nil =>
    cases ha
    exact hs
  | cons o rest ih =>
    cases o with
    | noConnection =>
      cases ha
      exact hs
    | notDelivered => exact ih hs ha
    | closed =>
      cases ha
      exact hs
    | lost d =>
      obtain ⟨⟨u, r⟩, hu, ha⟩ := ok_of_bind ha
      exact ih (h.keeps hs hu) ha
    | answered d =>
      obtain ⟨⟨u, r⟩, hu, ha⟩ := ok_of_bind ha
      cases ha
      exact h.keeps hs hu

/-- When no lost request was accepted, the answer tells what has happened. -/
theorem AcceptsOnce.reported (h : AcceptsOnce serve I Same accepts confirms Effect) (hs : I s)
    (hlost : ∀ d ∈ lostBefore outcomes, ¬accepts s d)
    (ha : attempts serve outcomes s = .ok (t, some answer)) :
    (∀ x, answer = some x → confirms x → Effect t x) ∧
      ((∀ x, answer = some x → ¬confirms x) → Same s t) := by
  induction outcomes generalizing s with
  | nil => cases ha
  | cons o rest ih =>
    cases o with
    | noConnection => cases ha
    | notDelivered => exact ih hs hlost ha
    | closed =>
      cases ha
      exact ⟨fun _ hx => (nomatch hx), fun _ => h.refl _⟩
    | lost d =>
      obtain ⟨⟨u, r⟩, hu, ha⟩ := ok_of_bind ha
      have hno : ¬accepts s d := hlost d (by simp [lostBefore])
      obtain ⟨hsame, -⟩ := h.rejected hs hno hu
      have hkeep := h.keeps hs hu
      have hlost' : ∀ d' ∈ lostBefore rest, ¬accepts u d' := by
        intro d' hd' hacc
        exact hlost d' (List.mem_cons_of_mem d hd') ((h.same hs hkeep hsame).mp hacc)
      obtain ⟨heffect, hrest⟩ := ih hkeep hlost' ha
      exact ⟨heffect, fun hx => h.trans hsame (hrest hx)⟩
    | answered d =>
      obtain ⟨⟨u, r⟩, hu, ha⟩ := ok_of_bind ha
      cases ha
      by_cases hacc : accepts s d
      · obtain ⟨x, rfl, hx, heffect⟩ := h.accepted hs hacc hu
        refine ⟨fun y hy _ => ?_, fun hno => (hno x rfl hx).elim⟩
        cases hy
        exact heffect
      · obtain ⟨hsame, hno⟩ := h.rejected hs hacc hu
        exact ⟨fun x hx hc => (hno x hx hc).elim, fun _ => hsame⟩

/-- A confirmation keeps its promise, whatever was lost before it. -/
theorem AcceptsOnce.confirmed {x : ρ} (h : AcceptsOnce serve I Same accepts confirms Effect)
    (hs : I s) (hserve : serve s d = .ok (t, some x)) (hx : confirms x) : Effect t x := by
  by_cases hacc : accepts s d
  · obtain ⟨y, hy, -, heffect⟩ := h.accepted hs hacc hserve
    cases hy
    exact heffect
  · exact ((h.rejected hs hacc hserve).2 x rfl hx).elim

/-- A request that is accepted in no state that is left to it is never confirmed. -/
theorem AcceptsOnce.rejects (h : AcceptsOnce serve I Same accepts confirms Effect) (hs : I s)
    (hno : ∀ d, ¬accepts s d) (ha : attempts serve outcomes s = .ok (t, some answer)) :
    Same s t ∧ ∀ x, answer = some x → ¬confirms x := by
  induction outcomes generalizing s with
  | nil => cases ha
  | cons o rest ih =>
    cases o with
    | noConnection => cases ha
    | notDelivered => exact ih hs hno ha
    | closed =>
      cases ha
      exact ⟨h.refl _, fun _ hx => (nomatch hx)⟩
    | lost d =>
      obtain ⟨⟨u, r⟩, hu, ha⟩ := ok_of_bind ha
      obtain ⟨hsame, -⟩ := h.rejected hs (hno d) hu
      have hkeep := h.keeps hs hu
      have hno' : ∀ d, ¬accepts u d := fun d hacc => hno d ((h.same hs hkeep hsame).mp hacc)
      obtain ⟨hrest, hanswer⟩ := ih hkeep hno' ha
      exact ⟨h.trans hsame hrest, hanswer⟩
    | answered d =>
      obtain ⟨⟨u, r⟩, hu, ha⟩ := ok_of_bind ha
      cases ha
      exact h.rejected hs (hno d) hu

/-- When a lost request was accepted, the answer is a rejection and the state has changed. -/
theorem AcceptsOnce.misreported (h : AcceptsOnce serve I Same accepts confirms Effect)
    (hs₀ : I s₀) (hs : I s) (hsame : Same s₀ s) (hlost : ∃ d ∈ lostBefore outcomes, accepts s d)
    (ha : attempts serve outcomes s = .ok (t, some answer)) :
    ¬Same s₀ t ∧ ∀ x, answer = some x → ¬confirms x := by
  induction outcomes generalizing s with
  | nil => cases ha
  | cons o rest ih =>
    cases o with
    | noConnection => cases ha
    | notDelivered => exact ih hs hsame hlost ha
    | closed =>
      obtain ⟨d, hd, -⟩ := hlost
      cases hd
    | lost d =>
      obtain ⟨⟨u, r⟩, hu, ha⟩ := ok_of_bind ha
      have hkeep := h.keeps hs hu
      by_cases hacc : accepts s d
      · obtain ⟨hrest, hanswer⟩ := h.rejects hkeep (fun d' => h.once hs hacc hu) ha
        have ht := h.attempts_keep hkeep ha
        exact ⟨h.changed hs₀ hs ht hsame hacc hu hrest, hanswer⟩
      · obtain ⟨hsu, -⟩ := h.rejected hs hacc hu
        refine ih hkeep (h.trans hsame hsu) ?_ ha
        obtain ⟨d', hd', hacc'⟩ := hlost
        rcases List.mem_cons.mp hd' with rfl | hd'
        · exact (hacc hacc').elim
        · exact ⟨d', hd', (h.same hs hkeep hsu).mpr hacc'⟩
    | answered d =>
      obtain ⟨d', hd', -⟩ := hlost
      cases hd'

/-- The answer tells what has happened exactly when no lost request was accepted. -/
theorem AcceptsOnce.reported_iff (h : AcceptsOnce serve I Same accepts confirms Effect)
    (hs : I s) (ha : attempts serve outcomes s = .ok (t, some answer)) :
    ((∀ x, answer = some x → confirms x → Effect t x) ∧
      ((∀ x, answer = some x → ¬confirms x) → Same s t)) ↔
        ∀ d ∈ lostBefore outcomes, ¬accepts s d := by
  constructor
  · rintro ⟨-, hrep⟩ d hd hacc
    obtain ⟨hchanged, hanswer⟩ := h.misreported hs hs (h.refl s) ⟨d, hd, hacc⟩ ha
    exact hchanged (hrep hanswer)
  · exact fun hlost => h.reported hs hlost ha

end Csc469.Retry
