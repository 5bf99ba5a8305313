import Csc469.Execution
import Mathlib.Data.List.Nodup
import Mathlib.Data.Set.Basic
import Mathlib.Logic.Function.Basic
import Mathlib.Order.Basic

/-! Threads that share a state with mutexes, and why they never wait for each other in a circle
when each takes its mutexes in order. -/
namespace Csc469.Locking

open Execution

/-- Mutexes that are part of a state. -/
class Mutexes (σ : Type) (κ : outParam Type) where
  locked : σ → κ → Bool
  set : σ → κ → Bool → σ
  locked_set_self : ∀ s l b, locked (set s l b) l = b
  locked_set_of_ne : ∀ s l b k, k ≠ l → locked (set s l b) k = locked s k

/-- What a thread does, one step after the other: an action on the state, which may stop the
thread, a mutex that it takes or gives back, or the next round of a loop. -/
inductive Prog (σ κ : Type) : Type → Type 1
  | done {α : Type} (a : α) : Prog σ κ α
  | act {α β : Type} (c : σ → Call (σ × β)) (next : β → Prog σ κ α) : Prog σ κ α
  | lock {α : Type} (l : κ) (next : Prog σ κ α) : Prog σ κ α
  | unlock {α : Type} (l : κ) (next : Prog σ κ α) : Prog σ κ α
  | loop {α β γ : Type} (body : β → Prog σ κ (β ⊕ γ)) (b : β) (next : γ → Prog σ κ α) : Prog σ κ α

variable {σ κ ι α β γ ρ : Type}

namespace Prog

def andThen {α : Type} : Prog σ κ α → (α → Prog σ κ β) → Prog σ κ β
  | .done a, f => f a
  | .act c next, f => .act c fun b => (next b).andThen f
  | .lock l next, f => .lock l (next.andThen f)
  | .unlock l next, f => .unlock l (next.andThen f)
  | .loop body b next, f => .loop body b fun c => (next c).andThen f

instance : Monad (Prog σ κ) where
  pure := .done
  bind := .andThen

theorem bind_assoc (p : Prog σ κ α) (f : α → Prog σ κ β) (g : β → Prog σ κ γ) :
    p >>= f >>= g = p >>= fun a => f a >>= g := by
  change (p.andThen f).andThen g = p.andThen fun a => (f a).andThen g
  induction p with
  | done a => rfl
  | act c next ih => exact congrArg (Prog.act c) (funext fun b => ih b f)
  | lock l next ih => exact congrArg (Prog.lock l) (ih f)
  | unlock l next ih => exact congrArg (Prog.unlock l) (ih f)
  | loop body b next _ ih => exact congrArg (Prog.loop body b) (funext fun c => ih c f)

/-- What a round of a loop goes on with: the next round, or what comes after the loop. -/
def goOn (body : β → Prog σ κ (β ⊕ γ)) (next : γ → Prog σ κ α) : β ⊕ γ → Prog σ κ α
  | .inl b => .loop body b next
  | .inr c => next c

/-- Something that is read from the state. -/
def read (f : σ → α) : Prog σ κ α := .act (fun s => .ok (s, f s)) .done

/-- A change of the state. -/
def write (f : σ → σ) : Prog σ κ Unit := .act (fun s => .ok (f s, ())) .done

def call (c : σ → Call (σ × α)) : Prog σ κ α := .act c .done

def take (l : κ) : Prog σ κ Unit := .lock l (.done ())

def giveBack (l : κ) : Prog σ κ Unit := .unlock l (.done ())

def repeatFrom (body : β → Prog σ κ (β ⊕ γ)) (b : β) : Prog σ κ γ := .loop body b .done

end Prog

section Order
variable [Mutexes σ κ] [DecidableEq κ] {rank : κ → Nat} {p : Prog σ κ α} {held : List κ}
  {Q R : α → List κ → Prop}

/-- Holding the mutexes `held`, the thread takes only mutexes above all those it holds, gives back
only what it holds, and comes to an end at which `Q` is true of its result and its mutexes. Of
a loop some invariant tells. -/
def InOrder (rank : κ → Nat) : {α : Type} → Prog σ κ α → List κ → (α → List κ → Prop) → Prop
  | _, .done a, held, Q => Q a held
  | _, .act c next, held, Q => ∀ s t b, c s = .ok (t, b) →
    Mutexes.locked t = Mutexes.locked s ∧ InOrder rank (next b) held Q
  | _, .lock l next, held, Q =>
    (∀ k ∈ held, rank k < rank l) ∧ InOrder rank next (l :: held) Q
  | _, .unlock l next, held, Q => l ∈ held ∧ InOrder rank next (held.erase l) Q
  | _, .loop body b next, held, Q => ∃ I : _ → List κ → Prop, I b held ∧ ∀ b held, I b held →
    InOrder rank (body b) held fun r held =>
      match r with
      | .inl b => I b held
      | .inr c => InOrder rank (next c) held Q

theorem InOrder.mono (h : InOrder rank p held Q) (hQ : ∀ a held, Q a held → R a held) :
    InOrder rank p held R := by
  induction p generalizing held with
  | done a => exact hQ a held h
  | act c next ih =>
    intro s t b hc
    obtain ⟨hlocked, hnext⟩ := h s t b hc
    exact ⟨hlocked, ih b hnext hQ⟩
  | lock l next ih => exact ⟨h.1, ih h.2 hQ⟩
  | unlock l next ih => exact ⟨h.1, ih h.2 hQ⟩
  | loop body b next ihbody ih =>
    obtain ⟨I, hb, hround⟩ := h
    refine ⟨I, hb, fun b held hI => ihbody b (hround b held hI) ?_⟩
    rintro (b | c) held hr
    · exact hr
    · exact ih c hr hQ

theorem inOrder_bind {f : α → Prog σ κ β} {S : β → List κ → Prop} :
    InOrder rank (p >>= f) held S ↔
      InOrder rank p held fun a held => InOrder rank (f a) held S := by
  change InOrder rank (p.andThen f) held S ↔ _
  induction p generalizing held with
  | done a => exact Iff.rfl
  | act c next ih =>
    refine forall_congr' fun s => forall_congr' fun t => forall_congr' fun b => ?_
    exact imp_congr_right fun _ => and_congr_right fun _ => ih b
  | lock l next ih => exact and_congr_right fun _ => ih
  | unlock l next ih => exact and_congr_right fun _ => ih
  | loop body b next _ ih =>
    simp only [Prog.andThen, InOrder, ih]

section Rules
variable {l : κ} {f : σ → σ} {g : σ → β} {c : σ → Call (σ × β)} {S : Unit → List κ → Prop}
  {T : β → List κ → Prop}

theorem inOrder_pure {a : α} : InOrder rank (pure a : Prog σ κ α) held Q ↔ Q a held := Iff.rfl

theorem inOrder_stop {e : Stuck} : InOrder rank (.call fun _ => .error e : Prog σ κ β) held T := by
  rintro s t b ⟨⟩

theorem inOrder_read : InOrder rank (.read g : Prog σ κ β) held T ↔ ∀ s, T (g s) held := by
  constructor
  · intro h s
    exact (h s s (g s) rfl).2
  · rintro h s t b ⟨⟩
    exact ⟨rfl, h s⟩

theorem inOrder_write (hf : ∀ s, Mutexes.locked (f s) = Mutexes.locked s) (hS : S () held) :
    InOrder rank (.write f : Prog σ κ Unit) held S := by
  rintro s t b ⟨⟩
  exact ⟨hf s, hS⟩

theorem inOrder_take_bind {k : Unit → Prog σ κ β} : InOrder rank (.take l >>= k) held T ↔
    (∀ k ∈ held, rank k < rank l) ∧ InOrder rank (k ()) (l :: held) T := inOrder_bind

theorem inOrder_giveBack_bind {k : Unit → Prog σ κ β} :
    InOrder rank (.giveBack l >>= k) held T ↔
      l ∈ held ∧ InOrder rank (k ()) (held.erase l) T := inOrder_bind

/-- A loop whose rounds leave the mutexes alone. -/
theorem inOrder_repeat {body : β → Prog σ κ (β ⊕ γ)} {b : β} {S : γ → List κ → Prop}
    (h : ∀ b, InOrder rank (body b) held fun r k => k = held ∧ ∀ c, r = .inr c → S c held) :
    InOrder rank (.repeatFrom body b) held S := by
  refine ⟨fun _ k => k = held, rfl, ?_⟩
  rintro b k rfl
  refine (h b).mono ?_
  rintro (b | c) k ⟨rfl, hc⟩
  · rfl
  · exact hc c rfl

/-- The next round of a loop, or what comes after it. -/
theorem InOrder.round {body : β → Prog σ κ (β ⊕ γ)} {b : β} {next : γ → Prog σ κ α}
    (h : InOrder rank (.loop body b next) held Q) :
    InOrder rank (body b >>= Prog.goOn body next) held Q := by
  obtain ⟨I, hb, hround⟩ := h
  refine inOrder_bind.mpr ((hround b held hb).mono ?_)
  rintro (b | c) held hr
  · exact ⟨I, hr, hround⟩
  · exact hr

end Rules

/-- The program leaves the mutexes alone. -/
def Plain (p : Prog σ κ α) : Prop :=
  ∀ (rank : κ → Nat) (held : List κ), InOrder rank p held fun _ k => k = held

section Plain
variable {f : σ → σ} {g : σ → β} {k : α → Prog σ κ β} {S : β → List κ → Prop}

theorem plain_pure {a : α} : Plain (pure a : Prog σ κ α) := fun _ _ => rfl

theorem plain_read : Plain (.read g : Prog σ κ β) := fun _ _ => inOrder_read.mpr fun _ => rfl

theorem plain_write (hf : ∀ s, Mutexes.locked (f s) = Mutexes.locked s) :
    Plain (.write f : Prog σ κ Unit) := fun _ _ => inOrder_write hf rfl

theorem plain_stop {e : Stuck} : Plain (.call fun _ => .error e : Prog σ κ α) :=
  fun _ _ => inOrder_stop

theorem Plain.then (hp : Plain p) (hk : ∀ a, InOrder rank (k a) held S) :
    InOrder rank (p >>= k) held S := by
  refine inOrder_bind.mpr ((hp rank held).mono ?_)
  rintro a _ rfl
  exact hk a

theorem Plain.bind (hp : Plain p) (hk : ∀ a, Plain (k a)) : Plain (p >>= k) :=
  fun rank held => hp.then fun a => hk a rank held

theorem plain_repeat {body : β → Prog σ κ (β ⊕ γ)} {b : β} (h : ∀ b, Plain (body b)) :
    Plain (.repeatFrom body b) := by
  intro rank held
  refine inOrder_repeat fun b => (h b rank held).mono ?_
  rintro r k rfl
  exact ⟨rfl, fun _ _ => rfl⟩

end Plain
end Order

section Systems
variable [Mutexes σ κ] [DecidableEq ι]

/-- Any number of threads: the state that they share, and for each the call it is in. -/
structure System (σ κ ι ρ : Type) where
  state : σ
  call : ι → Option (Prog σ κ ρ)

inductive Label (ι ρ : Type) where
  | begins (i : ι)
  | goesOn (i : ι)
  | returns (i : ι) (r : ρ)

/-- One step of one thread: it begins one of the given calls, takes a step in its call, or comes
back from it. A mutex is taken only when it is free. -/
inductive Step (calls : Set (Prog σ κ ρ)) :
    System σ κ ι ρ → Label ι ρ → System σ κ ι ρ → Prop
  | begins {s : System σ κ ι ρ} {i : ι} {p : Prog σ κ ρ} (hi : s.call i = none) (hp : p ∈ calls) :
      Step calls s (.begins i) { s with call := Function.update s.call i (some p) }
  | acts {s : System σ κ ι ρ} {i : ι} {β : Type} {c : σ → Call (σ × β)} {next : β → Prog σ κ ρ}
      {t : σ} {b : β} (hi : s.call i = some (.act c next)) (hc : c s.state = .ok (t, b)) :
      Step calls s (.goesOn i) ⟨t, Function.update s.call i (some (next b))⟩
  | locks {s : System σ κ ι ρ} {i : ι} {l : κ} {next : Prog σ κ ρ}
      (hi : s.call i = some (.lock l next)) (hl : Mutexes.locked s.state l = false) :
      Step calls s (.goesOn i)
        ⟨Mutexes.set s.state l true, Function.update s.call i (some next)⟩
  | unlocks {s : System σ κ ι ρ} {i : ι} {l : κ} {next : Prog σ κ ρ}
      (hi : s.call i = some (.unlock l next)) :
      Step calls s (.goesOn i)
        ⟨Mutexes.set s.state l false, Function.update s.call i (some next)⟩
  | loops {s : System σ κ ι ρ} {i : ι} {β γ : Type} {body : β → Prog σ κ (β ⊕ γ)} {b : β}
      {next : γ → Prog σ κ ρ} (hi : s.call i = some (.loop body b next)) :
      Step calls s (.goesOn i)
        { s with call := Function.update s.call i (some (body b >>= Prog.goOn body next)) }
  | returns {s : System σ κ ι ρ} {i : ι} {r : ρ} (hi : s.call i = some (.done r)) :
      Step calls s (.returns i r) { s with call := Function.update s.call i none }

/-- If a call returns here, it has given back what it took. -/
def Label.Clean (ends : ρ → List κ → Prop) : Label ι ρ → Prop
  | .returns _ r => ∀ k, ends r k → k = []
  | _ => True

/-- The mutexes that each thread holds, and those that calls kept when they returned. -/
structure Holding (ι κ : Type) where
  held : ι → List κ
  lost : Set κ

/-- Nothing is held. -/
def Holding.none : Holding ι κ := ⟨fun _ => [], ∅⟩

section Held
variable [DecidableEq κ]

/-- What a step from `s` makes of it: a thread adds the mutex that it takes, drops the one that it
gives back, and leaves behind what it holds when its call returns. -/
def Holding.after (H : Holding ι κ) (s : System σ κ ι ρ) : Label ι ρ → Holding ι κ
  | .begins _ => H
  | .goesOn i =>
    match s.call i with
    | some (.lock l _) => { H with held := Function.update H.held i (l :: H.held i) }
    | some (.unlock l _) => { H with held := Function.update H.held i ((H.held i).erase l) }
    | _ => H
  | .returns i _ => ⟨Function.update H.held i [], {l | l ∈ H.lost ∨ l ∈ H.held i}⟩

/-- What a whole run makes of it. -/
def Holding.along (H : Holding ι κ) (s : System σ κ ι ρ) :
    List (Label ι ρ × System σ κ ι ρ) → Holding ι κ
  | [] => H
  | (e, t) :: rest => (H.after s e).along t rest

/-- What is held agrees with the state and with the calls that the threads are in: `ends` tells
what a call may hold at its end. -/
structure Holds (rank : κ → Nat) (ends : ρ → List κ → Prop) (s : System σ κ ι ρ)
    (H : Holding ι κ) : Prop where
  inOrder : ∀ i p, s.call i = some p → InOrder rank p (H.held i) ends
  idle : ∀ i, s.call i = none → H.held i = []
  nodup : ∀ i, (H.held i).Nodup
  apart : ∀ i j l, l ∈ H.held i → l ∈ H.held j → i = j
  kept : ∀ i, ∀ l ∈ H.held i, l ∉ H.lost
  locked : ∀ l, Mutexes.locked s.state l = true ↔ l ∈ H.lost ∨ ∃ i, l ∈ H.held i

end Held

variable [DecidableEq κ] {rank : κ → Nat} {ends : ρ → List κ → Prop} {calls : Set (Prog σ κ ρ)}
  {s t : System σ κ ι ρ} {e : Label ι ρ} {H : Holding ι κ} {held : ι → List κ} {lost' : Set κ}
  {i j : ι} {l : κ} {run : List (Label ι ρ × System σ κ ι ρ)}

/-- No thread is in a call, and no mutex is locked. -/
structure Quiet (s : System σ κ ι ρ) : Prop where
  call : ∀ i, s.call i = none
  free : ∀ l, Mutexes.locked s.state l = false

omit [DecidableEq ι] in
theorem Quiet.holds (h : Quiet s) : Holds rank ends s .none where
  inOrder i p hp := by
    rw [h.call i] at hp
    cases hp
  idle _ _ := rfl
  nodup _ := List.nodup_nil
  apart i j l hl := by cases hl
  kept i l hl := by cases hl
  locked l := by simp [h.free l, Holding.none]

omit [Mutexes σ κ] [DecidableEq ι] [DecidableEq κ] in
theorem holder_iff (i : ι) : (∃ j, l ∈ held j) ↔ l ∈ held i ∨ ∃ j, j ≠ i ∧ l ∈ held j := by
  constructor
  · rintro ⟨j, hj⟩
    by_cases hji : j = i
    · exact .inl (hji ▸ hj)
    · exact .inr ⟨j, hji, hj⟩
  · rintro (hi | ⟨j, -, hj⟩)
    · exact ⟨i, hi⟩
    · exact ⟨j, hj⟩

/-- Thread `i` goes on to hold the mutexes `k`, and no other thread notices. -/
theorem Holds.goesOn {u : σ} {q : Option (Prog σ κ ρ)} {k : List κ}
    (h : Holds rank ends s H) (hq : ∀ p, q = some p → InOrder rank p k ends)
    (hidle : q = none → k = []) (hnodup : k.Nodup)
    (hk : ∀ l ∈ k, l ∉ lost' ∧ ∀ j, j ≠ i → l ∉ H.held j)
    (hlost : ∀ l ∈ lost', l ∈ H.lost ∨ l ∈ H.held i)
    (hlocked : ∀ l, Mutexes.locked u l = true ↔ l ∈ lost' ∨ l ∈ k ∨ ∃ j, j ≠ i ∧ l ∈ H.held j) :
    Holds rank ends ⟨u, Function.update s.call i q⟩ ⟨Function.update H.held i k, lost'⟩ where
  inOrder j p hp := by
    by_cases hj : j = i
    · subst hj
      simp only [Function.update_self] at hp ⊢
      exact hq p hp
    · simp only [Function.update_of_ne hj] at hp ⊢
      exact h.inOrder j p hp
  idle j hj' := by
    by_cases hj : j = i
    · subst hj
      simp only [Function.update_self] at hj' ⊢
      exact hidle hj'
    · simp only [Function.update_of_ne hj] at hj' ⊢
      exact h.idle j hj'
  nodup j := by
    by_cases hj : j = i
    · subst hj
      simpa only [Function.update_self] using hnodup
    · simp only [Function.update_of_ne hj]
      exact h.nodup j
  apart a b l ha hb := by
    by_contra hab
    by_cases hai : a = i
    · subst hai
      simp only [Function.update_self] at ha
      simp only [Function.update_of_ne (Ne.symm hab)] at hb
      exact (hk l ha).2 b (Ne.symm hab) hb
    · simp only [Function.update_of_ne hai] at ha
      by_cases hbi : b = i
      · subst hbi
        simp only [Function.update_self] at hb
        exact (hk l hb).2 a hab ha
      · simp only [Function.update_of_ne hbi] at hb
        exact hab (h.apart a b l ha hb)
  kept j l hl hl' := by
    by_cases hj : j = i
    · subst hj
      simp only [Function.update_self] at hl
      exact (hk l hl).1 hl'
    · simp only [Function.update_of_ne hj] at hl
      rcases hlost l hl' with hl' | hl'
      · exact h.kept j l hl hl'
      · exact hj (h.apart j i l hl hl')
  locked l := by
    simp only [hlocked l, holder_iff i, Function.update_self]
    refine or_congr_right (or_congr_right (exists_congr fun j => and_congr_right fun hj => ?_))
    rw [Function.update_of_ne hj]

/-- The same mutexes as before. -/
theorem Holds.same {u : σ} {q : Prog σ κ ρ} (h : Holds rank ends s H)
    (hu : Mutexes.locked u = Mutexes.locked s.state) (hq : InOrder rank q (H.held i) ends) :
    Holds rank ends ⟨u, Function.update s.call i (some q)⟩ H := by
  have hgo : Holds rank ends ⟨u, Function.update s.call i (some q)⟩
      ⟨Function.update H.held i (H.held i), H.lost⟩ :=
    h.goesOn (by rintro _ ⟨⟩; exact hq) (by simp) (h.nodup i)
      (fun l hl => ⟨h.kept i l hl, fun j hj hl' => hj (h.apart j i l hl' hl)⟩)
      (fun l hl => .inl hl) fun l => by rw [hu, h.locked l, holder_iff i]
  rwa [Function.update_eq_self] at hgo

/-- One step keeps the agreement. -/
theorem Holds.step (hcalls : ∀ p ∈ calls, InOrder rank p [] ends) (h : Holds rank ends s H)
    (hs : Step calls s e t) : Holds rank ends t (H.after s e) := by
  cases hs with
  | @begins i p hi hp =>
    have hempty := h.idle i hi
    exact h.same rfl (hempty ▸ hcalls p hp)
  | @acts i _ c next u b hi hc =>
    obtain ⟨hlocked, hnext⟩ := h.inOrder i _ hi s.state u b hc
    simp only [Holding.after, hi]
    exact h.same hlocked hnext
  | @locks i l next hi hl =>
    obtain ⟨-, hnext⟩ := h.inOrder i _ hi
    have hfree : l ∉ H.lost ∧ ∀ j, l ∉ H.held j := by
      rw [← Bool.not_eq_true, h.locked l, not_or, not_exists] at hl
      exact hl
    simp only [Holding.after, hi]
    refine h.goesOn ?_ (by simp) (List.nodup_cons.mpr ⟨hfree.2 i, h.nodup i⟩) ?_
      (fun l hl => .inl hl) fun k => ?_
    · rintro _ ⟨⟩
      exact hnext
    · intro k hk
      rcases List.mem_cons.mp hk with rfl | hk
      · exact ⟨hfree.1, fun j _ => hfree.2 j⟩
      · exact ⟨h.kept i k hk, fun j hj hk' => hj (h.apart j i k hk' hk)⟩
    · by_cases hkl : k = l
      · subst hkl
        simp [Mutexes.locked_set_self]
      · rw [Mutexes.locked_set_of_ne _ _ _ _ hkl, h.locked k, holder_iff i]
        simp [hkl]
  | @unlocks i l next hi =>
    obtain ⟨hl, hnext⟩ := h.inOrder i _ hi
    simp only [Holding.after, hi]
    refine h.goesOn ?_ (by simp) ((h.nodup i).erase l) ?_ (fun l hl => .inl hl) fun k => ?_
    · rintro _ ⟨⟩
      exact hnext
    · intro k hk
      have hk' := List.mem_of_mem_erase hk
      exact ⟨h.kept i k hk', fun j hj hkj => hj (h.apart j i k hkj hk')⟩
    · rw [(h.nodup i).mem_erase_iff]
      by_cases hkl : k = l
      · subst hkl
        rw [Mutexes.locked_set_self]
        simp only [Bool.false_eq_true, ne_eq, not_true_eq_false, false_and, false_or, false_iff]
        rintro (hlost | ⟨j, hj, hk'⟩)
        · exact h.kept i k hl hlost
        · exact hj (h.apart j i k hk' hl)
      · rw [Mutexes.locked_set_of_ne _ _ _ _ hkl, h.locked k, holder_iff i]
        simp [hkl]
  | @loops i _ _ body b next hi =>
    simp only [Holding.after, hi]
    exact h.same rfl (h.inOrder i _ hi).round
  | @returns i r hi =>
    refine h.goesOn (by simp) (fun _ => rfl) List.nodup_nil (by simp) (fun l hl => hl) fun l => ?_
    rw [h.locked l, holder_iff i, Set.mem_ofPred_eq, or_assoc]
    simp

/-- So does every run. -/
theorem Holds.along (hcalls : ∀ p ∈ calls, InOrder rank p [] ends) (h : Holds rank ends s H)
    (hr : Along (Step calls) s run) : Holds rank ends (lastState s run) (H.along s run) := by
  induction run generalizing s H with
  | nil => exact h
  | cons x rest ih => exact ih (h.step hcalls hr.1) hr.2

/-- What a call that returns still holds then. -/
theorem Holds.returns {r : ρ} (h : Holds rank ends s H) (hs : Step calls s (.returns i r) t) :
    ends r (H.held i) := by
  cases hs with
  | returns hi => exact h.inOrder i _ hi

omit [Mutexes σ κ] in
theorem Holding.lost_after : H.lost ⊆ (H.after s e).lost := by
  intro l hl
  rcases e with i | i | ⟨i, r⟩
  · exact hl
  · simp only [Holding.after]
    split <;> exact hl
  · exact .inl hl

/-- A call that has given back what it took leaves nothing behind. -/
theorem Holds.lost_clean (h : Holds rank ends s H) (hs : Step calls s e t)
    (hclean : e.Clean ends) : (H.after s e).lost = H.lost := by
  rcases e with i | i | ⟨i, r⟩
  · rfl
  · simp only [Holding.after]
    split <;> rfl
  · have hnone : H.held i = [] := hclean _ (h.returns hs)
    ext l
    simp [Holding.after, hnone]

/-- Nothing is lost in a run in which every call that returns has given back what it took. -/
theorem Holds.along_clean (hcalls : ∀ p ∈ calls, InOrder rank p [] ends)
    (h : Holds rank ends s H) (hr : Along (Step calls) s run)
    (hclean : ∀ x ∈ run, x.1.Clean ends) :
    ∀ x ∈ run, ∃ H', Holds rank ends x.2 H' ∧ H'.lost = H.lost := by
  have hinv := (hr.and (along_labels hclean)).invariant
    (I := fun t => ∃ H', Holds rank ends t H' ∧ H'.lost = H.lost)
    (fun _ _ _ ⟨_, h, hlost⟩ hs =>
      ⟨_, h.step hcalls hs.1, (h.lost_clean hs.1 hs.2).trans hlost⟩) ⟨H, h, rfl⟩
  exact along_states.mp (hinv.mono fun _ _ _ h => h.2)

omit [DecidableEq κ] in
/-- A thread that waits for a locked mutex still waits after any step. -/
theorem Step.waits {next : Prog σ κ ρ} (hs : Step calls s e t)
    (hl : Mutexes.locked s.state l = true) (hj : s.call j = some (.lock l next)) :
    t.call j = s.call j := by
  have hother : ∀ {i q}, s.call i = some q → q ≠ .lock l next → j ≠ i := by
    rintro i q hi hq rfl
    exact hq (Option.some.inj (hi.symm.trans hj))
  cases hs with
  | @begins i p hi hp =>
    have hne : j ≠ i := by
      rintro rfl
      rw [hi] at hj
      cases hj
    exact Function.update_of_ne hne ..
  | acts hi hc => exact Function.update_of_ne (hother hi nofun) ..
  | @locks i l' next' hi hl' =>
    refine Function.update_of_ne (hother hi ?_) ..
    rintro ⟨⟩
    rw [hl] at hl'
    cases hl'
  | unlocks hi => exact Function.update_of_ne (hother hi nofun) ..
  | loops hi => exact Function.update_of_ne (hother hi nofun) ..
  | returns hi => exact Function.update_of_ne (hother hi nofun) ..

/-- A mutex that is lost stays locked, and whoever waits for it waits for ever. -/
theorem Holds.stays (hcalls : ∀ p ∈ calls, InOrder rank p [] ends)
    (h : Holds rank ends s H) (hl : l ∈ H.lost) (hr : Along (Step calls) s run) :
    Along (fun s _ t => Mutexes.locked t.state l = true ∧
      ∀ j next, s.call j = some (.lock l next) → t.call j = s.call j) s run := by
  have hinv := hr.invariant (I := fun t => ∃ H', Holds rank ends t H' ∧ l ∈ H'.lost)
    (fun _ _ _ ⟨_, h, hl⟩ hs => ⟨_, h.step hcalls hs, Holding.lost_after hl⟩) ⟨H, h, hl⟩
  refine (hinv.and hr).mono ?_
  rintro s e t ⟨⟨⟨H, h, hl⟩, H', h', hl'⟩, hs⟩
  exact ⟨(h'.locked l).mpr (.inl hl'), fun j next hj => hs.waits ((h.locked l).mpr (.inl hl)) hj⟩

/-- A thread in a call stands before an action that stops it. -/
def Stops (s : System σ κ ι ρ) (i : ι) : Prop :=
  ∃ (β : Type) (c : σ → Call (σ × β)) (next : β → Prog σ κ ρ) (e : Stuck),
    s.call i = some (.act c next) ∧ c s.state = .error e

/-- A thread in a call can go on. -/
def GoesOn (calls : Set (Prog σ κ ρ)) (s : System σ κ ι ρ) (i : ι) : Prop :=
  s.call i ≠ none ∧ ∃ e t, Step calls s e t ∧ (e = .goesOn i ∨ ∃ r, e = .returns i r)

omit [DecidableEq κ] in
/-- A thread in a call goes on, is stopped, or waits for a mutex. -/
theorem goesOn_or_waits {p : Prog σ κ ρ} (calls : Set (Prog σ κ ρ)) (hi : s.call i = some p) :
    GoesOn calls s i ∨ Stops s i ∨
      ∃ l next, p = .lock l next ∧ Mutexes.locked s.state l = true := by
  have hcall : s.call i ≠ none := by simp [hi]
  cases p with
  | done r => exact .inl ⟨hcall, _, _, .returns hi, .inr ⟨r, rfl⟩⟩
  | act c next =>
    cases hc : c s.state with
    | error e => exact .inr (.inl ⟨_, c, next, e, hi, hc⟩)
    | ok r => exact .inl ⟨hcall, _, _, .acts hi hc, .inl rfl⟩
  | lock l next =>
    cases hl : Mutexes.locked s.state l with
    | false => exact .inl ⟨hcall, _, _, .locks hi hl, .inl rfl⟩
    | true => exact .inr (.inr ⟨l, next, rfl, hl⟩)
  | unlock l next => exact .inl ⟨hcall, _, _, .unlocks hi, .inl rfl⟩
  | loop body b next => exact .inl ⟨hcall, _, _, .loops hi, .inl rfl⟩

/-- With nothing lost, behind a thread that waits for a mutex is one that does not wait: whoever
holds the mutex waits only for a higher one. -/
theorem Holds.not_all_wait {bound : Nat} (calls : Set (Prog σ κ ρ))
    (hbound : ∀ l, rank l < bound) (h : Holds rank ends s H) (hlost : H.lost = ∅)
    (hi : s.call i ≠ none) : ∃ j, GoesOn calls s j ∨ Stops s j := by
  have hwaits : ∀ n i l next, bound - rank l = n → s.call i = some (.lock l next) →
      Mutexes.locked s.state l = true → ∃ j, GoesOn calls s j ∨ Stops s j := by
    intro n
    induction n using Nat.strongRecOn with
    | ind n ih =>
      intro i l next hn hi hl
      obtain ⟨j, hj⟩ := ((h.locked l).mp hl).resolve_left (by simp [hlost])
      cases hcall : s.call j with
      | none =>
        rw [h.idle j hcall] at hj
        cases hj
      | some q =>
        rcases goesOn_or_waits calls hcall with hgo | hstop | ⟨l', next', rfl, hl'⟩
        · exact ⟨j, .inl hgo⟩
        · exact ⟨j, .inr hstop⟩
        · have hhigher : rank l < rank l' := (h.inOrder j _ hcall).1 l hj
          have hbelow := hbound l'
          exact ih (bound - rank l') (by omega) j l' next' rfl hcall hl'
  obtain ⟨p, hp⟩ := Option.ne_none_iff_exists'.mp hi
  rcases goesOn_or_waits calls hp with hgo | hstop | ⟨l, next, rfl, hl⟩
  · exact ⟨i, .inl hgo⟩
  · exact ⟨i, .inr hstop⟩
  · exact hwaits _ i l next rfl hp hl

omit [DecidableEq ι] in
/-- Nobody takes a mutex again, or gives back another's. -/
theorem Holds.exclusive (h : Holds rank ends s H) {next : Prog σ κ ρ} :
    (s.call i = some (.lock l next) → l ∉ H.held i) ∧
      (s.call i = some (.unlock l next) → l ∈ H.held i) := by
  constructor
  · intro hi hl
    exact Nat.lt_irrefl _ ((h.inOrder i _ hi).1 l hl)
  · intro hi
    exact (h.inOrder i _ hi).1

end Systems

section Alone
variable [Mutexes σ κ] {p : Prog σ κ α} {s t u : σ} {a : α} {b : β}

/-- A program that runs alone, from one state to another. -/
inductive Returns : {α : Type} → Prog σ κ α → σ → σ → α → Prop
  | done {α : Type} {a : α} {s : σ} : Returns (.done a) s s a
  | act {α β : Type} {c : σ → Call (σ × β)} {next : β → Prog σ κ α} {s t u : σ} {b : β} {a : α}
      (hc : c s = .ok (t, b)) (hr : Returns (next b) t u a) : Returns (.act c next) s u a
  | lock {α : Type} {l : κ} {next : Prog σ κ α} {s u : σ} {a : α}
      (hl : Mutexes.locked s l = false) (hr : Returns next (Mutexes.set s l true) u a) :
      Returns (.lock l next) s u a
  | unlock {α : Type} {l : κ} {next : Prog σ κ α} {s u : σ} {a : α}
      (hr : Returns next (Mutexes.set s l false) u a) : Returns (.unlock l next) s u a
  | loop {α β γ : Type} {body : β → Prog σ κ (β ⊕ γ)} {b : β} {next : γ → Prog σ κ α} {s u : σ}
      {a : α} (hr : Returns (body b >>= Prog.goOn body next) s u a) :
      Returns (.loop body b next) s u a

theorem Returns.bind {f : α → Prog σ κ β} (h : Returns p s t a) (hf : Returns (f a) t u b) :
    Returns (p >>= f) s u b := by
  induction h with
  | done => exact hf
  | act hc _ ih => exact .act hc (ih hf)
  | lock hl _ ih => exact .lock hl (ih hf)
  | unlock _ ih => exact .unlock (ih hf)
  | @loop _ _ body _ next _ _ _ _ ih =>
    have hrest := ih hf
    rw [Prog.bind_assoc] at hrest
    refine .loop ?_
    have hgo : (fun r => Prog.goOn body next r >>= f) = Prog.goOn body fun c => next c >>= f := by
      funext r
      cases r <;> rfl
    rwa [hgo] at hrest

section Rules
variable {f : σ → σ} {g : σ → β} {k : β → Prog σ κ α} {k' : Unit → Prog σ κ α} {l : κ}

theorem returns_pure {a : α} : Returns (pure a : Prog σ κ α) s s a := .done

theorem returns_read_bind : Returns (Prog.read g >>= k) s u a ↔ Returns (k (g s)) s u a := by
  constructor
  · intro h
    cases h with
    | act hc hr =>
      cases hc
      exact hr
  · intro h
    exact .act rfl h

theorem returns_write_bind : Returns (Prog.write f >>= k') s u a ↔ Returns (k' ()) (f s) u a := by
  constructor
  · intro h
    cases h with
    | act hc hr =>
      cases hc
      exact hr
  · intro h
    exact .act rfl h

theorem returns_write : Returns (Prog.write f : Prog σ κ Unit) s u () ↔ u = f s := by
  constructor
  · intro h
    cases h with
    | act hc hr =>
      cases hc
      cases hr
      rfl
  · rintro rfl
    exact .act rfl .done

theorem returns_take (hl : Mutexes.locked s l = false) :
    Returns (Prog.take l : Prog σ κ Unit) s (Mutexes.set s l true) () := .lock hl .done

theorem returns_giveBack : Returns (Prog.giveBack l : Prog σ κ Unit) s (Mutexes.set s l false) () :=
  .unlock .done

/-- One round of a loop, and what it goes on with. -/
theorem returns_repeat {body : β → Prog σ κ (β ⊕ α)} {b : β} {r : β ⊕ α}
    (h : Returns (body b) s t r) (hr : match r with
      | .inl b => Returns (.repeatFrom body b) t u a
      | .inr c => u = t ∧ a = c) : Returns (.repeatFrom body b) s u a := by
  refine .loop (h.bind ?_)
  cases r with
  | inl b => exact hr
  | inr c =>
    obtain ⟨rfl, rfl⟩ := hr
    exact .done

end Rules

section Returning
variable [DecidableEq ι] {calls : Set (Prog σ κ ρ)} {c : System σ κ ι ρ} {i : ι} {q : Prog σ κ ρ}
  {r : ρ} {e : Label ι ρ}

theorem returns_after (hs : Step calls c e ⟨u, Function.update c.call i (some q)⟩)
    (hrest : ∀ d : System σ κ ι ρ, d.state = u → d.call i = some q →
      ∃ run, Along (Step calls) d
        (run ++ [(.returns i r, ⟨t, Function.update d.call i none⟩)])) :
    ∃ run, Along (Step calls) c
      (run ++ [(.returns i r, ⟨t, Function.update c.call i none⟩)]) := by
  obtain ⟨run, hrun⟩ :=
    hrest ⟨u, Function.update c.call i (some q)⟩ rfl (Function.update_self ..)
  rw [Function.update_idem] at hrun
  exact ⟨(e, ⟨u, Function.update c.call i (some q)⟩) :: run, hs, hrun⟩

/-- In a system too, a thread that runs alone comes back from its call with the result. -/
theorem Returns.along (h : Returns q s t r) (hs : c.state = s) (hi : c.call i = some q) :
    ∃ run, Along (Step calls) c
      (run ++ [(.returns i r, ⟨t, Function.update c.call i none⟩)]) := by
  induction h generalizing c with
  | done =>
    subst hs
    exact ⟨[], .returns hi, trivial⟩
  | act hc _ ih =>
    subst hs
    exact returns_after (.acts hi hc) fun d => ih
  | lock hl _ ih =>
    subst hs
    exact returns_after (.locks hi hl) fun d => ih
  | unlock _ ih =>
    subst hs
    exact returns_after (.unlocks hi) fun d => ih
  | loop _ ih =>
    subst hs
    exact returns_after (.loops hi) fun d => ih

end Returning
end Alone
end Csc469.Locking
