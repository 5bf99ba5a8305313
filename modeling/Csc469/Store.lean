import Csc469.Linked
import Mathlib.Data.List.Perm.Subperm

/-! Records allocated one by one, and lists linked through their fields. -/
namespace Csc469.Linked

open Execution

/-- The records of one type that are allocated, by address. Only finitely many addresses
have been used. -/
structure Store (ρ : Type) where
  load : Nat → Option ρ
  used : List Nat
  mem_used : ∀ a, (load a).isSome → a ∈ used

variable {ρ : Type} {m m' : Store ρ} {a b : Nat} {v w : ρ} {p : Option Nat} {xs : List Nat}

namespace Store

def empty : Store ρ := ⟨fun _ => none, [], by simp⟩

/-- An address `malloc` can return: not null, in the user half, not in use. -/
def Free (m : Store ρ) (a : Nat) : Prop := m.load a = none ∧ 0 < a ∧ a < 2 ^ 47

instance : Decidable (m.Free a) :=
  haveI : Decidable (m.load a = none) := decidable_of_iff ((m.load a).isNone = true) (by simp)
  inferInstanceAs (Decidable (_ ∧ _))

/-- `malloc` at an address the allocator chooses, and the first contents of the record.
Without memory the program exits. -/
def malloc (m : Store ρ) (a : Nat) (v : ρ) : Call (Store ρ) :=
  if m.Free a then
    .ok ⟨fun x => if x = a then some v else m.load x, a :: m.used, fun x hx => by
      by_cases h : x = a
      · simp [h]
      · simp only [h, if_false] at hx
        exact List.mem_cons_of_mem _ (m.mem_used x hx)⟩
  else .error .fault

def modify (m : Store ρ) (a : Nat) (f : ρ → ρ) : Store ρ :=
  ⟨fun x => if x = a then (m.load x).map f else m.load x, m.used, fun x hx => by
    apply m.mem_used
    by_cases h : x = a <;> simpa [h] using hx⟩

def free (m : Store ρ) (a : Nat) : Store ρ :=
  ⟨fun x => if x = a then none else m.load x, m.used, fun x hx => by
    apply m.mem_used
    by_cases h : x = a
    · simp [h] at hx
    · simpa [h] using hx⟩

/-- `*p`: the program stops on a pointer to no record. -/
def read (m : Store ρ) (p : Option Nat) : Call ρ :=
  match p.bind m.load with
  | some v => .ok v
  | none => .error .fault

/-- `p->field = ...`. -/
def write (m : Store ρ) (p : Option Nat) (f : ρ → ρ) : Call (Store ρ) :=
  match p with
  | some a => if (m.load a).isSome then .ok (m.modify a f) else .error .fault
  | none => .error .fault

@[simp] theorem modify_load {f : ρ → ρ} :
    (m.modify b f).load a = if a = b then (m.load a).map f else m.load a := rfl

@[simp] theorem free_load : (m.free b).load a = if a = b then none else m.load a := rfl

theorem malloc_ok (h : m.malloc a v = .ok m') :
    m.Free a ∧ m'.used = a :: m.used ∧ ∀ x, m'.load x = if x = a then some v else m.load x := by
  unfold malloc at h
  split at h
  · next hf =>
    cases h
    exact ⟨hf, rfl, fun _ => rfl⟩
  · cases h

/-- What was allocated before a `malloc` stays as it is. -/
theorem malloc_kept (h : m.malloc a v = .ok m') (hb : (m.load b).isSome) :
    m'.load b = m.load b := by
  obtain ⟨hfree, -, hload⟩ := malloc_ok h
  rw [hload b, if_neg]
  rintro rfl
  simp [hfree.1] at hb

theorem malloc_free (h : m.Free a) : ∃ m', m.malloc a v = .ok m' := ⟨_, if_pos h⟩

@[simp] theorem read_some (h : m.load a = some v) : m.read (some a) = .ok v := by
  simp [read, h]

theorem read_ok (h : m.read p = .ok v) : ∃ a, p = some a ∧ m.load a = some v := by
  cases p with
  | none => cases h
  | some a =>
    cases hv : m.load a with
    | none => simp [read, hv] at h
    | some w =>
      rw [read_some hv] at h
      cases h
      exact ⟨a, rfl, hv⟩

theorem write_some {f : ρ → ρ} (h : (m.load a).isSome) :
    m.write (some a) f = .ok (m.modify a f) := if_pos h

theorem write_used {f : ρ → ρ} (h : m.write p f = .ok m') : m'.used = m.used := by
  unfold write at h
  split at h
  · split at h
    · cases h
      rfl
    · cases h
  · cases h

/-- Distinct allocated addresses are no more than the addresses used so far. -/
theorem length_le_used (hnd : xs.Nodup) (h : ∀ a ∈ xs, (m.load a).isSome) :
    xs.length ≤ m.used.length :=
  (List.subperm_of_subset hnd fun a ha => m.mem_used a (h a ha)).length_le

/-- What `f` reads of the records is the same in both stores. -/
def Agree {β : Type} (f : ρ → β) (m m' : Store ρ) : Prop :=
  ∀ a, (m'.load a).map f = (m.load a).map f

section Agree
variable {β γ : Type} {f : ρ → β} {m₁ m₂ m₃ : Store ρ}

theorem Agree.refl : Agree f m m := fun _ => rfl

theorem Agree.trans (h : Agree f m₁ m₂) (h' : Agree f m₂ m₃) : Agree f m₁ m₃ :=
  fun a => (h' a).trans (h a)

theorem agree_modify {u : ρ → ρ} (h : ∀ v, f (u v) = f v) : Agree f m (m.modify b u) := by
  intro a
  rw [modify_load]
  split
  · rw [Option.map_map, Function.comp_def]
    simp only [h]
  · rfl

theorem map_of_map {o o' : Option ρ} (h : o'.map f = o.map f) (g : β → γ) :
    o'.map (fun v => g (f v)) = o.map fun v => g (f v) := by
  simpa [Function.comp_def] using congrArg (Option.map g) h

theorem bind_of_map {o o' : Option ρ} (h : o'.map f = o.map f) (g : β → Option γ) :
    o'.bind (fun v => g (f v)) = o.bind fun v => g (f v) := by
  have := congrArg (fun x => Option.bind x g) h
  rwa [Option.bind_map, Option.bind_map] at this

theorem isSome_of_map {o o' : Option ρ} (h : o'.map f = o.map f) : o'.isSome = o.isSome := by
  simpa using congrArg Option.isSome h

end Agree
end Store

/-- Two fields by which records of one type are linked into a list. -/
structure Links (ρ : Type) where
  next : ρ → Option Nat
  prev : ρ → Option Nat
  setNext : Option Nat → ρ → ρ
  setPrev : Option Nat → ρ → ρ
  next_setNext : ∀ p v, next (setNext p v) = p
  next_setPrev : ∀ p v, next (setPrev p v) = next v
  prev_setPrev : ∀ p v, prev (setPrev p v) = p
  prev_setNext : ∀ p v, prev (setNext p v) = prev v

attribute [simp] Links.next_setNext Links.next_setPrev Links.prev_setPrev Links.prev_setNext

namespace Links

variable {l : Links ρ} {head tail head' tail' : Option Nat}

def succ (l : Links ρ) (m : Store ρ) (a : Nat) : Option Nat := (m.load a).bind l.next

def pred (l : Links ρ) (m : Store ρ) (a : Nat) : Option Nat := (m.load a).bind l.prev

/-- Take the record `v` out of the list with the given ends. -/
def unlink (l : Links ρ) (m : Store ρ) (v : ρ) (head tail : Option Nat) :
    Call (Store ρ × Option Nat × Option Nat) :=
  match l.prev v with
  | none =>
    -- the first record
    match l.next v with
    | none => .ok (m, none, none)
    | some n => do
      let m ← m.write (some n) (l.setPrev none)
      .ok (m, some n, tail)
  | some p => do
    let m ← m.write (some p) (l.setNext (l.next v))
    match l.next v with
    | none => .ok (m, head, some p)
    | some n =>
      let m ← m.write (some n) (l.setPrev (some p))
      .ok (m, head, tail)

/-- Put the record at `a` behind the last one of the list with the given ends. -/
def append (l : Links ρ) (m : Store ρ) (a : Nat) (head tail : Option Nat) :
    Call (Store ρ × Option Nat × Option Nat) :=
  match head with
  | none => .ok (m, some a, some a)
  | some _ => do
    let m ← m.write tail (l.setNext (some a))
    let m ← m.write (some a) (l.setPrev tail)
    .ok (m, head, some a)

/-- The two stores differ in the links of their records only. -/
structure Relinked (l : Links ρ) (m m' : Store ρ) : Prop where
  used : m'.used = m.used
  agree : ∀ {β : Type} (g : ρ → β), (∀ p v, g (l.setNext p v) = g v) →
    (∀ p v, g (l.setPrev p v) = g v) → Store.Agree g m m'

theorem Relinked.refl : Relinked l m m := ⟨rfl, fun _ _ _ => .refl⟩

theorem Relinked.trans {m₁ m₂ m₃ : Store ρ} (h : Relinked l m₁ m₂) (h' : Relinked l m₂ m₃) :
    Relinked l m₁ m₃ :=
  ⟨h'.used.trans h.used, fun g hn hp => (h.agree g hn hp).trans (h'.agree g hn hp)⟩

theorem relinked_setNext : Relinked l m (m.modify a (l.setNext p)) :=
  ⟨rfl, fun _ hn _ => Store.agree_modify (hn p)⟩

theorem relinked_setPrev : Relinked l m (m.modify a (l.setPrev p)) :=
  ⟨rfl, fun _ _ hp => Store.agree_modify (hp p)⟩

/-- What `unlink` does to the record at `a`, as the doubly linked list sees it. -/
structure Unlinked (l : Links ρ) (m : Store ρ) (a : Nat) (head tail : Option Nat)
    (m' : Store ρ) (head' tail' : Option Nat) : Prop where
  relinked : Relinked l m m'
  load : m'.load a = m.load a
  next : ∀ y, y ≠ a → l.succ m' y = if l.pred m a = some y then l.succ m a else l.succ m y
  prev : ∀ y, y ≠ a → l.pred m' y = if l.succ m a = some y then l.pred m a else l.pred m y
  head : head' = if l.pred m a = none then l.succ m a else head
  tail : tail' = if l.succ m a = none then l.pred m a else tail

/-- What `append` does to the record at `a`, as the doubly linked list sees it. -/
structure Appended (l : Links ρ) (m : Store ρ) (a : Nat) (head tail : Option Nat)
    (m' : Store ρ) (head' : Option Nat) : Prop where
  relinked : Relinked l m m'
  succ_self : l.succ m' a = none
  pred_self : l.pred m' a = tail
  next : ∀ y, y ≠ a → l.succ m' y = if tail = some y then some a else l.succ m y
  prev : ∀ y, y ≠ a → l.pred m' y = l.pred m y
  head : head' = if tail = none then some a else head

theorem Relinked.isSome (h : Relinked l m m') : (m'.load a).isSome = (m.load a).isSome :=
  Store.isSome_of_map (h.agree (fun _ => ()) (fun _ _ => rfl) (fun _ _ => rfl) a)

theorem succ_eq (h : m.load a = some v) : l.succ m a = l.next v := by simp [succ, h]

theorem pred_eq (h : m.load a = some v) : l.pred m a = l.prev v := by simp [pred, h]

theorem succ_setNext (ha : (m.load a).isSome) :
    l.succ (m.modify a (l.setNext p)) b = if b = a then p else l.succ m b := by
  obtain ⟨v, hv⟩ := Option.isSome_iff_exists.mp ha
  by_cases h : b = a
  · subst b
    simp [succ, hv]
  · simp [succ, h]

theorem pred_setNext : l.pred (m.modify a (l.setNext p)) b = l.pred m b := by
  by_cases h : b = a
  · subst b
    cases hv : m.load a <;> simp [pred, hv]
  · simp [pred, h]

theorem pred_setPrev (ha : (m.load a).isSome) :
    l.pred (m.modify a (l.setPrev p)) b = if b = a then p else l.pred m b := by
  obtain ⟨v, hv⟩ := Option.isSome_iff_exists.mp ha
  by_cases h : b = a
  · subst b
    simp [pred, hv]
  · simp [pred, h]

theorem succ_setPrev : l.succ (m.modify a (l.setPrev p)) b = l.succ m b := by
  by_cases h : b = a
  · subst b
    cases hv : m.load a <;> simp [succ, hv]
  · simp [succ, h]

/-- Taking a record out of a well-formed list succeeds. -/
theorem unlink_ok (tail : Option Nat) (d : DList (l.succ m) (l.pred m) head xs) (ha : a ∈ xs)
    (hall : ∀ y ∈ xs, (m.load y).isSome) (hv : m.load a = some v) :
    ∃ m' head' tail', l.unlink m v head tail = .ok (m', head', tail') ∧
      Unlinked l m a head tail m' head' tail' := by
  have hs := succ_eq (l := l) hv
  have hp := pred_eq (l := l) hv
  have hnext : ∀ y, l.next v = some y → (m.load y).isSome ∧ a ≠ y := by
    intro y hy
    obtain ⟨hmem, hne⟩ := d.next_mem ha (hs.trans hy)
    exact ⟨hall y hmem, hne.symm⟩
  have hprev : ∀ y, l.prev v = some y → (m.load y).isSome ∧ a ≠ y := by
    intro y hy
    obtain ⟨hmem, hne⟩ := d.prev_mem ha (hp.trans hy)
    exact ⟨hall y hmem, hne.symm⟩
  cases hpv : l.prev v with
  | none =>
    rw [hpv] at hp
    cases hnv : l.next v with
    | none =>
      rw [hnv] at hs
      refine ⟨m, none, none, by simp [unlink, hpv, hnv], .refl, rfl, ?_, ?_, ?_, ?_⟩ <;> simp [hs, hp]
    | some n =>
      rw [hnv] at hs
      obtain ⟨hn, han⟩ := hnext n hnv
      refine ⟨m.modify n (l.setPrev none), some n, tail, ?_, relinked_setPrev, ?_, ?_, ?_, ?_, ?_⟩
      · simp only [unlink, hpv, hnv, Store.write_some hn]
        rfl
      · simp [han]
      · intro y _
        simp [hp, succ_setPrev]
      · intro y _
        simp [hs, hp, pred_setPrev hn, eq_comm]
      · simp [hs, hp]
      · simp [hs]
  | some q =>
    rw [hpv] at hp
    obtain ⟨hq, haq⟩ := hprev q hpv
    cases hnv : l.next v with
    | none =>
      rw [hnv] at hs
      refine ⟨m.modify q (l.setNext none), head, some q, ?_, relinked_setNext, ?_, ?_, ?_, ?_, ?_⟩
      · simp only [unlink, hpv, hnv, Store.write_some hq]
        rfl
      · simp [haq]
      · intro y _
        simp [hs, hp, succ_setNext hq, eq_comm]
      · intro y _
        simp [hs, pred_setNext]
      · simp [hp]
      · simp [hs, hp]
    | some n =>
      rw [hnv] at hs
      obtain ⟨hn, han⟩ := hnext n hnv
      have hn' : ((m.modify q (l.setNext (some n))).load n).isSome := by
        rw [relinked_setNext.isSome]
        exact hn
      refine ⟨(m.modify q (l.setNext (some n))).modify n (l.setPrev (some q)), head, tail, ?_,
        relinked_setNext.trans relinked_setPrev, ?_, ?_, ?_, ?_, ?_⟩
      · simp only [unlink, hpv, hnv, Store.write_some hq, bind, Except.bind,
          Store.write_some hn']
      · simp [haq, han]
      · intro y _
        simp [hs, hp, succ_setPrev, succ_setNext hq, eq_comm]
      · intro y _
        simp [hs, hp, pred_setPrev hn', pred_setNext, eq_comm]
      · simp [hp]
      · simp [hs]

/-- Appending a record whose links are null succeeds. -/
theorem append_ok (d : DList (l.succ m) (l.pred m) head xs) (ht : tail = xs.getLast?)
    (ha : a ∉ xs) (hall : ∀ y ∈ xs, (m.load y).isSome) (hv : m.load a = some v)
    (hn : l.next v = none) (hp : l.prev v = none) :
    ∃ m' head', l.append m a head tail = .ok (m', head', some a) ∧
      Appended l m a head tail m' head' := by
  have hs := (succ_eq (l := l) hv).trans hn
  have hpd := (pred_eq (l := l) hv).trans hp
  have hsome : (m.load a).isSome := by simp [hv]
  rcases List.eq_nil_or_concat' xs with rfl | ⟨ys, z, rfl⟩
  · obtain rfl : head = none := d.head_eq
    subst ht
    refine ⟨m, some a, rfl, .refl, hs, hpd, fun y _ => ?_, fun y _ => rfl, ?_⟩ <;> simp
  · have ht : tail = some z := by rw [ht, List.getLast?_concat]
    have haz : a ≠ z := fun h => ha (by simp [h])
    have hz : (m.load z).isSome := hall z (by simp)
    obtain ⟨x, hx⟩ : ∃ x, head = some x := by
      rw [d.head_eq]
      exact ⟨_, List.head?_eq_some_head (by simp)⟩
    subst hx ht
    have hsome' : ((m.modify z (l.setNext (some a))).load a).isSome := by
      rw [relinked_setNext.isSome]
      exact hsome
    refine ⟨(m.modify z (l.setNext (some a))).modify a (l.setPrev (some z)), some x, ?_,
      relinked_setNext.trans relinked_setPrev, ?_, ?_, fun y _ => ?_, fun y hy => ?_, by simp⟩
    · simp only [append, Store.write_some hz, bind, Except.bind, Store.write_some hsome']
    · rw [succ_setPrev, succ_setNext hz, if_neg haz, hs]
    · rw [pred_setPrev hsome', if_pos rfl]
    · simp [succ_setPrev, succ_setNext hz, eq_comm]
    · rw [pred_setPrev hsome', if_neg hy, pred_setNext]

end Links
end Csc469.Linked
