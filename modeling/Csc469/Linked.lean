import Csc469.Execution
import Mathlib.Data.List.Basic
import Mathlib.Logic.Function.Basic

/-! Chains and doubly linked lists threaded through the fields of a store. -/
namespace Csc469.Linked

open Execution

variable {α κ : Type*} {next prev next' prev' : α → Option α} {x y : α}
  {xs ys l r : List α} {h p q : Option α}

/-- Following `next` from `h` visits exactly `xs` and arrives at `q`. -/
def Seg (next : α → Option α) : Option α → List α → Option α → Prop
  | h, [], q => h = q
  | h, x :: xs, q => h = some x ∧ Seg next (next x) xs q

/-- The chain from `h` is exactly `xs` and ends in a null link. -/
abbrev Chain (next : α → Option α) (h : Option α) (xs : List α) : Prop :=
  Seg next h xs none

/-- Each node of the list points back to the one before it, the first one to `p`. -/
def Back (prev : α → Option α) : Option α → List α → Prop
  | _, [] => True
  | p, x :: xs => prev x = p ∧ Back prev (some x) xs

theorem seg_append : Seg next h (l ++ r) q ↔ ∃ m, Seg next h l m ∧ Seg next m r q := by
  induction l generalizing h with
  | nil => simp [Seg]
  | cons x l ih => simp [Seg, ih, and_assoc]

theorem Seg.congr (he : ∀ y ∈ xs, next' y = next y) (hs : Seg next h xs q) :
    Seg next' h xs q := by
  induction xs generalizing h with
  | nil => exact hs
  | cons x xs ih =>
    refine ⟨hs.1, ?_⟩
    rw [he x (by simp)]
    exact ih (fun y hy => he y (by simp [hy])) hs.2

theorem Seg.head_eq (hs : Seg next h xs q) : h = xs.head?.or q := by
  cases xs with
  | nil => simpa [Seg] using hs
  | cons x xs => simpa using hs.1

theorem Chain.head_eq (hs : Chain next h xs) : h = xs.head? := by
  simpa using Seg.head_eq hs

theorem Chain.unique (hx : Chain next h xs) (hy : Chain next h ys) : xs = ys := by
  induction xs generalizing h ys with
  | nil =>
    cases ys with
    | nil => rfl
    | cons y ys => cases hx.symm.trans hy.1
  | cons x xs ih =>
    cases ys with
    | nil => cases hy.symm.trans hx.1
    | cons y ys =>
      obtain rfl : x = y := Option.some.inj (hx.1.symm.trans hy.1)
      rw [ih hx.2 hy.2]

/-- A chain visits no node twice: from a repeated node it would never end. -/
theorem Chain.nodup (hs : Chain next h xs) : xs.Nodup := by
  induction xs generalizing h with
  | nil => exact List.nodup_nil
  | cons x xs ih =>
    refine List.nodup_cons.mpr ⟨?_, ih hs.2⟩
    intro hx
    obtain ⟨l, r, rfl⟩ := List.append_of_mem hx
    obtain ⟨m, _, hm⟩ := seg_append.mp hs.2
    have heq : r = l ++ x :: r := Chain.unique hm.2 hs.2
    have := congrArg List.length heq
    simp at this
    omega

/-- The write that links a new node behind the last one. -/
theorem Chain.concat {z : α} (hs : Chain next h (l ++ [z])) (hz : next' z = some x)
    (hx : next' x = none) (hl : ∀ y ∈ l, next' y = next y) : Chain next' h (l ++ [z] ++ [x]) := by
  obtain ⟨m, hl', hm⟩ := seg_append.mp hs
  rw [List.append_assoc]
  exact seg_append.mpr ⟨m, hl'.congr hl, hm.1, hz, hx⟩

/-- The write that takes the node after `z` out. -/
theorem Chain.skip {z : α} (hs : Chain next h (l ++ z :: x :: r)) (hz : next' z = next x)
    (hl : ∀ y ∈ l, next' y = next y) (hr : ∀ y ∈ r, next' y = next y) :
    Chain next' h (l ++ z :: r) := by
  obtain ⟨m, hl', hm⟩ := seg_append.mp hs
  refine seg_append.mpr ⟨m, hl'.congr hl, hm.1, ?_⟩
  rw [hz]
  exact hm.2.2.congr hr

theorem Chain.next_eq (hs : Chain next h (l ++ x :: r)) : next x = r.head? := by
  obtain ⟨m, _, hm⟩ := seg_append.mp hs
  exact Chain.head_eq hm.2

/-- Following `next` stays in a set that holds its start and is closed under `next`. -/
theorem Seg.closed {P : α → Prop} (hs : Seg next h xs q) (hstart : ∀ x, h = some x → P x)
    (hnext : ∀ x y, P x → next x = some y → P y) : (∀ x ∈ xs, P x) ∧ ∀ y, q = some y → P y := by
  induction xs generalizing h with
  | nil =>
    obtain rfl : h = q := hs
    exact ⟨by simp, hstart⟩
  | cons x xs ih =>
    obtain ⟨rfl, hs⟩ := hs
    have hx := hstart x rfl
    obtain ⟨hxs, hq⟩ := ih hs fun y => hnext x y hx
    exact ⟨by simpa using ⟨hx, hxs⟩, hq⟩

/-- The nodes that a chain visits are those that following `next` arrives at. -/
theorem Chain.mem_iff (hc : Chain next h xs) : x ∈ xs ↔ ∃ ys, Seg next h ys (some x) := by
  constructor
  · intro hx
    obtain ⟨l, r, rfl⟩ := List.append_of_mem hx
    obtain ⟨m, hl, hm, -⟩ := seg_append.mp hc
    exact ⟨l, hm ▸ hl⟩
  · rintro ⟨ys, hys⟩
    induction ys generalizing h xs with
    | nil =>
      obtain rfl : h = some x := hys
      exact List.mem_of_head? (Chain.head_eq hc).symm
    | cons y ys ih =>
      obtain ⟨rfl, hys⟩ := hys
      cases xs with
      | nil => cases hc
      | cons z xs =>
        obtain ⟨he, hc⟩ := hc
        cases he
        exact List.mem_cons_of_mem _ (ih hc hys)

/-- On the way to a node with the property `P`, the first such node is reached without passing
any node twice. -/
theorem Seg.first {P : α → Prop} (hs : Seg next h xs (some x)) (hx : P x) :
    ∃ ys y, Seg next h ys (some y) ∧ P y ∧ (∀ z ∈ ys, ¬P z) ∧ (ys ++ [y]).Nodup := by
  induction xs generalizing h with
  | nil => exact ⟨[], x, hs, hx, by simp, by simp⟩
  | cons z xs ih =>
    obtain ⟨rfl, hs⟩ := hs
    obtain ⟨ys, y, hys, hy, hno, hnd⟩ := ih hs
    by_cases hz : P z
    · exact ⟨[], z, rfl, hz, by simp, by simp⟩
    · by_cases hmem : z ∈ ys
      · -- the walk comes back to `z`: leave the round out
        obtain ⟨l, r, rfl⟩ := List.append_of_mem hmem
        obtain ⟨m, -, rfl, hr⟩ := seg_append.mp hys
        rw [List.append_assoc] at hnd
        exact ⟨z :: r, y, ⟨rfl, hr⟩, hy, fun w hw => hno w (List.mem_append_right l hw),
          (List.nodup_append.mp hnd).2.1⟩
      · refine ⟨z :: ys, y, ⟨rfl, hys⟩, hy, by simpa [hz] using hno, ?_⟩
        have hne : z ≠ y := by
          rintro rfl
          exact hz hy
        exact List.nodup_cons.mpr ⟨by simp [hmem, hne], hnd⟩

theorem back_append : Back prev p (l ++ r) ↔ Back prev p l ∧ Back prev (l.getLast?.or p) r := by
  induction l generalizing p with
  | nil => simp [Back]
  | cons x l ih =>
    have hl : (x :: l).getLast?.or p = l.getLast?.or (some x) := by
      cases hg : l.getLast? <;> simp [List.getLast?_cons, hg]
    simp only [List.cons_append, Back, ih, hl, and_assoc]

theorem Back.congr (he : ∀ y ∈ xs, prev' y = prev y) (hs : Back prev p xs) :
    Back prev' p xs := by
  induction xs generalizing p with
  | nil => trivial
  | cons x xs ih =>
    refine ⟨?_, ih (fun y hy => he y (by simp [hy])) hs.2⟩
    rw [he x (by simp)]
    exact hs.1

/-- A well-formed doubly linked list: `next` and `prev` mirror each other along `xs`. -/
structure DList (next prev : α → Option α) (h : Option α) (xs : List α) : Prop where
  forth : Chain next h xs
  back : Back prev none xs

namespace DList

theorem nil : DList next prev none [] := ⟨rfl, trivial⟩

theorem nodup (d : DList next prev h xs) : xs.Nodup := d.forth.nodup

theorem head_eq (d : DList next prev h xs) : h = xs.head? := Chain.head_eq d.forth

theorem congr (d : DList next prev h xs) (hn : ∀ y ∈ xs, next' y = next y)
    (hp : ∀ y ∈ xs, prev' y = prev y) : DList next' prev' h xs :=
  ⟨d.forth.congr hn, d.back.congr hp⟩

theorem next_eq (d : DList next prev h (l ++ x :: r)) : next x = r.head? :=
  Chain.next_eq d.forth

theorem prev_eq (d : DList next prev h (l ++ x :: r)) : prev x = l.getLast? := by
  have hb := (back_append.mp d.back).2.1
  simpa using hb

/-- The neighbours of a node are in the list, and are not the node itself. -/
theorem next_mem (d : DList next prev h xs) (hx : x ∈ xs) (hy : next x = some y) :
    y ∈ xs ∧ y ≠ x := by
  obtain ⟨l, r, rfl⟩ := List.append_of_mem hx
  have hnd := d.nodup
  have hr : y ∈ r := List.mem_of_head? (d.next_eq ▸ hy)
  refine ⟨by simp [hr], ?_⟩
  rintro rfl
  exact (List.nodup_cons.mp (List.nodup_append.mp hnd).2.1).1 hr

theorem prev_mem (d : DList next prev h xs) (hx : x ∈ xs) (hy : prev x = some y) :
    y ∈ xs ∧ y ≠ x := by
  obtain ⟨l, r, rfl⟩ := List.append_of_mem hx
  have hnd := d.nodup
  have hl : y ∈ l := List.mem_of_getLast? (d.prev_eq ▸ hy)
  refine ⟨by simp [hl], ?_⟩
  rintro rfl
  exact (List.nodup_append.mp hnd).2.2 y hl y (by simp) rfl

theorem head_of_prev_none (d : DList next prev h xs) (hx : x ∈ xs) (hp : prev x = none) :
    h = some x := by
  obtain ⟨l, r, rfl⟩ := List.append_of_mem hx
  rw [d.prev_eq, List.getLast?_eq_none_iff] at hp
  subst hp
  simpa using d.head_eq

/-- A node is on neither side of itself, its successor not before it and its predecessor not
after it. -/
theorem sides (d : DList next prev h (l ++ x :: r)) :
    x ∉ l ∧ x ∉ r ∧ (∀ y ∈ l, next x ≠ some y) ∧ ∀ y ∈ r, prev x ≠ some y := by
  have hnx := d.next_eq
  have hpx := d.prev_eq
  obtain ⟨-, hxr, hlr⟩ := List.nodup_append.mp d.nodup
  refine ⟨fun hm => hlr x hm x (by simp) rfl, (List.nodup_cons.mp hxr).1, ?_, ?_⟩
  · intro y hy he
    exact hlr y hy y (by simp [List.mem_of_head? (hnx.symm.trans he)]) rfl
  · intro y hy he
    exact hlr y (List.mem_of_getLast? (hpx.symm.trans he)) y (by simp [hy]) rfl

/-- The writes that put `zs` in the place of `x`: its neighbours are linked to what comes
next to them now. Any other change to `x` itself is allowed. -/
theorem splice [DecidableEq α] (d : DList next prev h (l ++ x :: r)) (zs : List α)
    (hzn : Seg next' (zs ++ r).head? zs r.head?) (hzp : Back prev' l.getLast? zs)
    (hln : ∀ y ∈ l, next' y = if prev x = some y then (zs ++ r).head? else next y)
    (hlp : ∀ y ∈ l, prev' y = prev y) (hrn : ∀ y ∈ r, next' y = next y)
    (hrp : ∀ y ∈ r, prev' y = if next x = some y then (l ++ zs).getLast? else prev y) :
    DList next' prev' (if prev x = none then (zs ++ r).head? else h) (l ++ (zs ++ r)) := by
  have hnd := d.nodup
  have hnx := d.next_eq
  have hpx := d.prev_eq
  obtain ⟨m, hsl, hsm, hsr⟩ := seg_append.mp d.forth
  obtain ⟨hbl, -, hbr⟩ := back_append.mp d.back
  have hmid : Seg next' (zs ++ r).head? (zs ++ r) none := by
    refine seg_append.mpr ⟨_, hzn, ?_⟩
    rw [← hnx]
    exact hsr.congr hrn
  constructor
  · -- the chain: only the last node before `x` has a new successor
    rcases List.eq_nil_or_concat' l with rfl | ⟨l, w, rfl⟩
    · rwa [if_pos (by simpa using hpx), List.nil_append]
    · have hpw : prev x = some w := by simpa using hpx
      rw [if_neg (by simp [hpw])]
      obtain ⟨m', hsl', hw⟩ := seg_append.mp hsl
      have hwl : w ∉ l := by
        have := (List.nodup_append.mp hnd).1
        simp [List.nodup_append] at this
        exact fun hm => this.2 w hm rfl
      rw [List.append_assoc, List.singleton_append]
      refine seg_append.mpr ⟨m', hsl'.congr fun y hy => ?_, hw.1, ?_⟩
      · rw [hln y (by simp [hy]), if_neg]
        rw [hpw]
        rintro ⟨rfl⟩
        exact hwl hy
      · rwa [hln w (by simp), if_pos hpw]
  · -- the back links: only the first node after `x` has a new predecessor
    rw [← List.append_assoc]
    refine back_append.mpr ⟨back_append.mpr ⟨hbl.congr hlp, by rwa [Option.or_none]⟩, ?_⟩
    rw [Option.or_none]
    cases r with
    | nil => trivial
    | cons w r =>
      have hnw : next x = some w := by simpa using hnx
      have hwr : w ∉ r := by
        have := (List.nodup_append.mp hnd).2.1
        simp at this
        exact this.2.1
      refine ⟨?_, hbr.2.congr fun y hy => ?_⟩
      · rw [hrp w (by simp), if_pos hnw]
      · rw [hrp y (by simp [hy]), if_neg]
        rw [hnw]
        rintro ⟨rfl⟩
        exact hwr hy

/-- The two writes that take `x` out: its neighbours are linked to each other, and the
head moves on when `x` had no predecessor. -/
theorem unlink [DecidableEq α] (d : DList next prev h xs) (hx : x ∈ xs)
    (hn : ∀ y ∈ xs, y ≠ x → next' y = if prev x = some y then next x else next y)
    (hp : ∀ y ∈ xs, y ≠ x → prev' y = if next x = some y then prev x else prev y) :
    DList next' prev' (if prev x = none then next x else h) (xs.erase x) := by
  obtain ⟨l, r, rfl⟩ := List.append_of_mem hx
  obtain ⟨hl, hr, hlr, hrl⟩ := d.sides
  rw [List.erase_append_right _ hl, List.erase_cons_head]
  have hs : DList next' prev' (if prev x = none then ([] ++ r).head? else h) (l ++ ([] ++ r)) :=
    d.splice [] rfl trivial (fun y hy => ?_) (fun y hy => ?_) (fun y hy => ?_) (fun y hy => ?_)
  · rwa [List.nil_append, ← d.next_eq] at hs
  · rw [hn y (by simp [hy]) (fun he => hl (he ▸ hy)), d.next_eq, List.nil_append]
  · rw [hp y (by simp [hy]) (fun he => hl (he ▸ hy)), if_neg (hlr y hy)]
  · rw [hn y (by simp [hy]) (fun he => hr (he ▸ hy)), if_neg (hrl y hy)]
  · rw [hp y (by simp [hy]) (fun he => hr (he ▸ hy)), d.prev_eq, List.append_nil]

/-- The writes that put a new node `z` in the place of `x`. -/
theorem replace [DecidableEq α] {z : α} (d : DList next prev h xs) (hx : x ∈ xs)
    (hnz : next' z = next x) (hpz : prev' z = prev x)
    (hn : ∀ y ∈ xs, y ≠ x → next' y = if prev x = some y then some z else next y)
    (hp : ∀ y ∈ xs, y ≠ x → prev' y = if next x = some y then some z else prev y) :
    ∃ ys, DList next' prev' (if prev x = none then some z else h) ys ∧
      ∀ y, y ∈ ys ↔ y = z ∨ (y ∈ xs ∧ y ≠ x) := by
  obtain ⟨l, r, rfl⟩ := List.append_of_mem hx
  obtain ⟨hl, hr, hlr, hrl⟩ := d.sides
  refine ⟨l ++ ([z] ++ r), ?_, fun y => ?_⟩
  · refine d.splice [z] ⟨rfl, hnz.trans d.next_eq⟩ ⟨hpz.trans d.prev_eq, trivial⟩
      (fun y hy => ?_) (fun y hy => ?_) (fun y hy => ?_) (fun y hy => ?_)
    · exact hn y (by simp [hy]) (fun he => hl (he ▸ hy))
    · rw [hp y (by simp [hy]) (fun he => hl (he ▸ hy)), if_neg (hlr y hy)]
    · rw [hn y (by simp [hy]) (fun he => hr (he ▸ hy)), if_neg (hrl y hy)]
    · rw [hp y (by simp [hy]) (fun he => hr (he ▸ hy)), List.getLast?_concat]
  · have hne : ∀ w ∈ l ++ r, w ≠ x := by
      rintro w hw rfl
      rcases List.mem_append.mp hw with hw | hw
      · exact hl hw
      · exact hr hw
    simp only [List.mem_append, List.mem_cons, List.not_mem_nil, or_false]
    constructor
    · rintro (hy | rfl | hy)
      · exact .inr ⟨.inl hy, hne y (by simp [hy])⟩
      · exact .inl rfl
      · exact .inr ⟨.inr (.inr hy), hne y (by simp [hy])⟩
    · rintro (rfl | ⟨hy | rfl | hy, hyx⟩)
      · exact .inr (.inl rfl)
      · exact .inl hy
      · exact (hyx rfl).elim
      · exact .inr (.inr hy)

/-- A new node in front of the list. -/
theorem cons [DecidableEq α] (d : DList next prev h xs) (hx : x ∉ xs)
    (hnx : next' x = h) (hpx : prev' x = none) (hn : ∀ y ∈ xs, next' y = next y)
    (hp : ∀ y ∈ xs, prev' y = if h = some y then some x else prev y) :
    DList next' prev' (some x) (x :: xs) := by
  refine ⟨⟨rfl, hnx ▸ d.forth.congr hn⟩, hpx, ?_⟩
  have hnd := d.nodup
  have hb := d.back
  have hh := d.head_eq
  cases xs with
  | nil => trivial
  | cons y ys =>
    refine ⟨?_, hb.2.congr fun z hz => ?_⟩
    · rw [hp y (by simp), if_pos (by simpa using hh)]
    · rw [hp z (by simp [hz]), if_neg]
      rw [hh]
      rintro ⟨rfl⟩
      exact (List.nodup_cons.mp hnd).1 hz

/-- The last node after `x` has been taken out. -/
theorem getLast?_erase [DecidableEq α] (d : DList next prev h xs) (hx : x ∈ xs) :
    (xs.erase x).getLast? = if next x = none then prev x else xs.getLast? := by
  obtain ⟨l, r, rfl⟩ := List.append_of_mem hx
  rw [List.erase_append_right _ d.sides.1, List.erase_cons_head, d.next_eq, d.prev_eq]
  cases r with
  | nil => simp
  | cons z r => simp [List.getLast?_append, List.getLast?_cons]

/-- A new node behind the last one. -/
theorem concat [DecidableEq α] (d : DList next prev h xs) (hx : x ∉ xs)
    (hnx : next' x = none) (hpx : prev' x = xs.getLast?)
    (hn : ∀ y ∈ xs, next' y = if xs.getLast? = some y then some x else next y)
    (hp : ∀ y ∈ xs, prev' y = prev y) :
    DList next' prev' (if xs.getLast? = none then some x else h) (xs ++ [x]) := by
  have hnd := d.nodup
  refine ⟨?_, back_append.mpr ⟨d.back.congr hp, by simpa [Back] using hpx⟩⟩
  rcases List.eq_nil_or_concat' xs with rfl | ⟨l, z, rfl⟩
  · simp [Seg, hnx]
  · obtain ⟨m, hl, hz⟩ := seg_append.mp d.forth
    rw [if_neg (by simp), List.append_assoc]
    refine seg_append.mpr ⟨m, hl.congr fun y hy => ?_, hz.1, ?_, ?_⟩
    · rw [hn y (by simp [hy]), if_neg]
      simp only [List.getLast?_concat]
      rintro ⟨rfl⟩
      simp [List.nodup_append] at hnd
      exact hnd.2 z hy rfl
    · rw [hn z (by simp), if_pos (by simp)]
    · exact hnx

end DList

section Families
variable [DecidableEq α] [DecidableEq κ] {K : κ → Prop} {head head' : κ → Option α}
  {L : κ → List α} {k : κ}

/-- Lists in one store, one for each key in `K`: well formed, and no node in two. -/
structure Family (K : κ → Prop) (next prev : α → Option α) (head : κ → Option α)
    (L : κ → List α) : Prop where
  dlist : ∀ k, K k → DList next prev (head k) (L k)
  disjoint : ∀ k j, K k → K j → ∀ x, x ∈ L k → x ∈ L j → k = j

namespace Family

omit [DecidableEq α] in
/-- No node is in two lists when one list gets at most one node more, from outside. -/
theorem disjoint_update {z : α} {ys : List α} (f : Family K next prev head L) (hk : K k)
    (hz : ∀ j, K j → z ∉ L j) (hys : ∀ y ∈ ys, y = z ∨ y ∈ L k) (i j : κ) (hi : K i) (hj : K j)
    (y : α) (hyi : y ∈ Function.update L k ys i) (hyj : y ∈ Function.update L k ys j) : i = j := by
  have hcases : ∀ j, K j → y ∈ Function.update L k ys j → (y = z ∧ j = k) ∨ (y ≠ z ∧ y ∈ L j) := by
    intro j hj hy
    have hne : ∀ i, K i → y ∈ L i → y ≠ z := fun i hi hy he => hz i hi (he ▸ hy)
    by_cases hjk : j = k
    · subst j
      rw [Function.update_self] at hy
      rcases hys y hy with he | hyk
      · exact .inl ⟨he, rfl⟩
      · exact .inr ⟨hne k hk hyk, hyk⟩
    · rw [Function.update_of_ne hjk] at hy
      exact .inr ⟨hne j hj hy, hy⟩
  rcases hcases i hi hyi with ⟨he, hik⟩ | ⟨hne, hyi⟩ <;>
    rcases hcases j hj hyj with ⟨he', hjk⟩ | ⟨hne', hyj⟩
  · rw [hik, hjk]
  · exact (hne' he).elim
  · exact (hne he').elim
  · exact f.disjoint i j hi hj y hyi hyj

theorem unlink (f : Family K next prev head L) (hk : K k) (hx : x ∈ L k)
    (hn : ∀ y, y ≠ x → next' y = if prev x = some y then next x else next y)
    (hp : ∀ y, y ≠ x → prev' y = if next x = some y then prev x else prev y)
    (hh : head' k = if prev x = none then next x else head k)
    (ho : ∀ j, j ≠ k → head' j = head j) :
    Family K next' prev' head' (Function.update L k ((L k).erase x)) := by
  have d := f.dlist k hk
  constructor
  · intro j hj
    by_cases hjk : j = k
    · subst j
      rw [Function.update_self, hh]
      exact d.unlink hx (fun y _ => hn y) (fun y _ => hp y)
    · rw [Function.update_of_ne hjk, ho j hjk]
      have hout : ∀ y ∈ L j, y ∉ L k := fun y hy hy' => hjk (f.disjoint j k hj hk y hy hy')
      refine (f.dlist j hj).congr (fun y hy => ?_) (fun y hy => ?_)
      · rw [hn y (fun he => hout y hy (he ▸ hx)), if_neg]
        exact fun he => hout y hy (d.prev_mem hx he).1
      · rw [hp y (fun he => hout y hy (he ▸ hx)), if_neg]
        exact fun he => hout y hy (d.next_mem hx he).1
  · have hsub : ∀ j y, y ∈ Function.update L k ((L k).erase x) j → y ∈ L j := by
      intro j y hy
      by_cases hjk : j = k
      · subst j
        rw [Function.update_self] at hy
        exact List.mem_of_mem_erase hy
      · rwa [Function.update_of_ne hjk] at hy
    exact fun i j hi hj y hy hy' => f.disjoint i j hi hj y (hsub i y hy) (hsub j y hy')

theorem replace {z : α} (f : Family K next prev head L) (hk : K k) (hx : x ∈ L k)
    (hz : ∀ j, K j → z ∉ L j) (hnz : next' z = next x) (hpz : prev' z = prev x)
    (hn : ∀ y, y ≠ x → y ≠ z → next' y = if prev x = some y then some z else next y)
    (hp : ∀ y, y ≠ x → y ≠ z → prev' y = if next x = some y then some z else prev y)
    (hh : head' k = if prev x = none then some z else head k)
    (ho : ∀ j, j ≠ k → head' j = head j) :
    ∃ ys, Family K next' prev' head' (Function.update L k ys) ∧
      ∀ y, y ∈ ys ↔ y = z ∨ (y ∈ L k ∧ y ≠ x) := by
  have d := f.dlist k hk
  have hne : ∀ j, K j → ∀ y ∈ L j, y ≠ z := fun j hj y hy he => hz j hj (he ▸ hy)
  obtain ⟨ys, hys, hmem⟩ := d.replace hx hnz hpz (fun y hy hyx => hn y hyx (hne k hk y hy))
    (fun y hy hyx => hp y hyx (hne k hk y hy))
  refine ⟨ys, ⟨fun j hj => ?_, ?_⟩, hmem⟩
  · by_cases hjk : j = k
    · subst j
      rw [Function.update_self, hh]
      exact hys
    · rw [Function.update_of_ne hjk, ho j hjk]
      have hout : ∀ y ∈ L j, y ∉ L k := fun y hy hy' => hjk (f.disjoint j k hj hk y hy hy')
      refine (f.dlist j hj).congr (fun y hy => ?_) (fun y hy => ?_)
      · rw [hn y (fun he => hout y hy (he ▸ hx)) (hne j hj y hy), if_neg]
        exact fun he => hout y hy (d.prev_mem hx he).1
      · rw [hp y (fun he => hout y hy (he ▸ hx)) (hne j hj y hy), if_neg]
        exact fun he => hout y hy (d.next_mem hx he).1
  · refine f.disjoint_update hk hz fun y hy => ?_
    rcases (hmem y).mp hy with he | ⟨hyk, _⟩
    · exact .inl he
    · exact .inr hyk

theorem cons (f : Family K next prev head L) (hk : K k) (hx : ∀ j, K j → x ∉ L j)
    (hnx : next' x = head k) (hpx : prev' x = none) (hn : ∀ y, y ≠ x → next' y = next y)
    (hp : ∀ y, y ≠ x → prev' y = if head k = some y then some x else prev y)
    (hh : head' k = some x) (ho : ∀ j, j ≠ k → head' j = head j) :
    Family K next' prev' head' (Function.update L k (x :: L k)) := by
  have d := f.dlist k hk
  have hne : ∀ j, K j → ∀ y ∈ L j, y ≠ x := fun j hj y hy he => hx j hj (he ▸ hy)
  constructor
  · intro j hj
    by_cases hjk : j = k
    · subst j
      rw [Function.update_self, hh]
      exact d.cons (hx k hk) hnx hpx (fun y hy => hn y (hne k hk y hy))
        (fun y hy => hp y (hne k hk y hy))
    · rw [Function.update_of_ne hjk, ho j hjk]
      refine (f.dlist j hj).congr (fun y hy => hn y (hne j hj y hy)) (fun y hy => ?_)
      rw [hp y (hne j hj y hy), if_neg]
      intro he
      have hyk : y ∈ L k := List.mem_of_head? (d.head_eq.symm.trans he)
      exact hjk (f.disjoint j k hj hk y hy hyk)
  · exact f.disjoint_update hk hx fun y hy => List.mem_cons.mp hy

theorem concat (f : Family K next prev head L) (hk : K k) (hx : ∀ j, K j → x ∉ L j)
    (hnx : next' x = none) (hpx : prev' x = (L k).getLast?)
    (hn : ∀ y, y ≠ x → next' y = if (L k).getLast? = some y then some x else next y)
    (hp : ∀ y, y ≠ x → prev' y = prev y)
    (hh : head' k = if (L k).getLast? = none then some x else head k)
    (ho : ∀ j, j ≠ k → head' j = head j) :
    Family K next' prev' head' (Function.update L k (L k ++ [x])) := by
  have d := f.dlist k hk
  have hne : ∀ j, K j → ∀ y ∈ L j, y ≠ x := fun j hj y hy he => hx j hj (he ▸ hy)
  constructor
  · intro j hj
    by_cases hjk : j = k
    · subst j
      rw [Function.update_self, hh]
      exact d.concat (hx k hk) hnx hpx (fun y hy => hn y (hne k hk y hy))
        (fun y hy => hp y (hne k hk y hy))
    · rw [Function.update_of_ne hjk, ho j hjk]
      refine (f.dlist j hj).congr (fun y hy => ?_) (fun y hy => hp y (hne j hj y hy))
      rw [hn y (hne j hj y hy), if_neg]
      exact fun he => hjk (f.disjoint j k hj hk y hy (List.mem_of_getLast? he))
  · refine f.disjoint_update hk hx fun y hy => ?_
    rcases List.mem_append.mp hy with hy | hy
    · exact .inr hy
    · exact .inl (List.mem_singleton.mp hy)

end Family
end Families

section Search
variable {A ρ β : Type} {load : A → Option ρ} {link : ρ → Option A} {f : ρ → Option β}
  {n : Nat} {h : Option A} {zs : List A} {res : Option (A × β)}

/-- Walk the chain from a pointer, loading each node, up to the first one that `f`
accepts. A walk over more than `n` nodes has come back to one it already refused. -/
def search (load : A → Option ρ) (link : ρ → Option A) (f : ρ → Option β) :
    Nat → Option A → Call (Option (A × β))
  | _, none => .ok none
  | 0, some _ => .error .loops
  | n + 1, some a =>
    match load a with
    | none => .error .fault
    | some v =>
      match f v with
      | some b => .ok (some (a, b))
      | none => search load link f n (link v)

/-- The first node of the chain from a pointer with the property `c`. -/
def find (load : A → Option ρ) (link : ρ → Option A) (c : ρ → Bool) (n : Nat) (h : Option A) :
    Call (Option A) := do
  let found ← search load link (fun v => if c v then some () else none) n h
  .ok (found.map Prod.fst)

/-- The nodes of the chain from a pointer with their contents, under the same bound. -/
def walk (load : A → Option ρ) (link : ρ → Option A) : Nat → Option A → Call (List (A × ρ))
  | _, none => .ok []
  | 0, some _ => .error .loops
  | n + 1, some a =>
    match load a with
    | none => .error .fault
    | some v => do
      let rest ← walk load link n (link v)
      .ok ((a, v) :: rest)

/-- What a search over the list `zs` returns: the first node that `f` accepts. -/
def firstHit (load : A → Option ρ) (f : ρ → Option β) (zs : List A) : Option (A × β) :=
  zs.findSome? fun a => ((load a).bind f).map (a, ·)

theorem search_eq_firstHit (hc : Chain (fun a => (load a).bind link) h zs)
    (hs : search load link f n h = .ok res) : res = firstHit load f zs := by
  induction zs generalizing n h with
  | nil =>
    obtain rfl : h = none := hc
    cases n <;> cases hs <;> rfl
  | cons a zs ih =>
    obtain ⟨rfl, hc⟩ := hc
    cases n with
    | zero => cases hs
    | succ n =>
      rw [search] at hs
      cases hv : load a with
      | none => simp [hv] at hs
      | some v =>
        simp only [hv, Option.bind_some] at hs hc
        simp only [firstHit, List.findSome?_cons, hv, Option.bind_some]
        cases hb : f v with
        | some b =>
          simp only [hb] at hs
          cases hs
          rfl
        | none =>
          simp only [hb] at hs
          exact ih hc hs

/-- What a search finds lies in every set that holds its start and is closed under the links. -/
theorem search_mem {P : A → Prop} {a : A} {b : β} (hstart : ∀ x, h = some x → P x)
    (hlink : ∀ x v y, P x → load x = some v → link v = some y → P y)
    (hs : search load link f n h = .ok (some (a, b))) : P a ∧ ∃ v, load a = some v ∧ f v = some b := by
  induction n generalizing h with
  | zero => cases h <;> cases hs
  | succ n ih =>
    cases h with
    | none => cases hs
    | some x =>
      rw [search] at hs
      cases hv : load x with
      | none => simp [hv] at hs
      | some v =>
        simp only [hv] at hs
        cases hb : f v with
        | some c =>
          simp only [hb] at hs
          cases hs
          exact ⟨hstart _ rfl, v, hv, hb⟩
        | none =>
          simp only [hb] at hs
          exact ih (fun y hy => hlink x v y (hstart x rfl) hv hy) hs

theorem search_ok (hc : Chain (fun a => (load a).bind link) h zs)
    (hl : ∀ a ∈ zs, (load a).isSome) (hn : zs.length ≤ n) :
    search load link f n h = .ok (firstHit load f zs) := by
  have hok : ∃ res, search load link f n h = .ok res := by
    induction zs generalizing n h with
    | nil =>
      obtain rfl : h = none := hc
      exact ⟨none, by cases n <;> rfl⟩
    | cons a zs ih =>
      obtain ⟨rfl, hc⟩ := hc
      cases n with
      | zero => simp at hn
      | succ n =>
        obtain ⟨v, hv⟩ := Option.isSome_iff_exists.mp (hl a (by simp))
        simp only [hv, Option.bind_some] at hc
        simp only [search, hv]
        cases hb : f v with
        | some b => exact ⟨_, rfl⟩
        | none => exact ih hc (fun a ha => hl a (by simp [ha])) (by simpa using hn)
  obtain ⟨res, hres⟩ := hok
  rw [hres, search_eq_firstHit hc hres]

/-- A search passes what it refuses, up to a node that it accepts. -/
theorem search_found {xs : List A} {a : A} {b : β}
    (hs : Seg (fun a => (load a).bind link) h xs (some a)) (hl : ∀ x ∈ xs, (load x).isSome)
    (hx : ∀ x ∈ xs, (load x).bind f = none) (ha : (load a).bind f = some b)
    (hn : xs.length < n) : search load link f n h = .ok (some (a, b)) := by
  induction xs generalizing n h with
  | nil =>
    obtain rfl : h = some a := hs
    obtain ⟨k, rfl⟩ := Nat.exists_eq_succ_of_ne_zero (Nat.ne_of_gt hn)
    obtain ⟨v, hv, hb⟩ := Option.bind_eq_some_iff.mp ha
    simp [search, hv, hb]
  | cons x xs ih =>
    obtain ⟨rfl, hs⟩ := hs
    obtain ⟨k, rfl⟩ := Nat.exists_eq_succ_of_ne_zero (Nat.ne_of_gt (Nat.zero_lt_of_lt hn))
    obtain ⟨v, hv⟩ := Option.isSome_iff_exists.mp (hl x (by simp))
    have hno : f v = none := by simpa [hv] using hx x (by simp)
    simp only [hv, Option.bind_some] at hs
    simp only [search, hv, hno]
    exact ih hs (fun y hy => hl y (by simp [hy])) (fun y hy => hx y (by simp [hy]))
      (Nat.lt_of_succ_lt_succ hn)

/-- What a search finds is reached by following the links. -/
theorem seg_of_search {a : A} {b : β} (hs : search load link f n h = .ok (some (a, b))) :
    ∃ xs, Seg (fun a => (load a).bind link) h xs (some a) := by
  induction n generalizing h with
  | zero => cases h <;> cases hs
  | succ n ih =>
    cases h with
    | none => cases hs
    | some x =>
      rw [search] at hs
      cases hv : load x with
      | none => simp [hv] at hs
      | some v =>
        simp only [hv] at hs
        cases hb : f v with
        | some c =>
          simp only [hb] at hs
          cases hs
          exact ⟨[], rfl⟩
        | none =>
          simp only [hb] at hs
          obtain ⟨xs, hxs⟩ := ih hs
          exact ⟨x :: xs, rfl, by simpa [hv] using hxs⟩

/-- A search that finds nothing has come to the end of the chain. -/
theorem chain_of_search (hs : search load link f n h = .ok none) :
    ∃ xs, Chain (fun a => (load a).bind link) h xs := by
  induction n generalizing h with
  | zero =>
    cases h with
    | none => exact ⟨[], rfl⟩
    | some x => cases hs
  | succ n ih =>
    cases h with
    | none => exact ⟨[], rfl⟩
    | some x =>
      rw [search] at hs
      cases hv : load x with
      | none => simp [hv] at hs
      | some v =>
        simp only [hv] at hs
        cases hb : f v with
        | some c => simp [hb] at hs
        | none =>
          simp only [hb] at hs
          obtain ⟨xs, hxs⟩ := ih hs
          exact ⟨x :: xs, rfl, by simpa [hv] using hxs⟩

/-- The same for a search that looks at the addresses of the nodes too. -/
theorem searchAt_ok {g : A × ρ → Option β} (hc : Chain (fun a => (load a).bind link) h zs)
    (hl : ∀ a ∈ zs, (load a).isSome) (hn : zs.length ≤ n) :
    search (fun a => (load a).map (a, ·)) (fun v => link v.2) g n h =
      .ok (firstHit (fun a => (load a).map (a, ·)) g zs) := by
  refine search_ok (hc.congr fun a _ => ?_) (fun a ha => ?_) hn
  · cases load a <;> rfl
  · simpa using hl a ha

theorem mem_of_firstHit {a : A} {b : β} (hh : firstHit load f zs = some (a, b)) :
    a ∈ zs ∧ (load a).bind f = some b := by
  obtain ⟨c, hc, hb⟩ := List.exists_of_findSome?_eq_some hh
  obtain ⟨b', hb', he⟩ := Option.map_eq_some_iff.mp hb
  cases he
  exact ⟨hc, hb'⟩

theorem firstHit_eq_none_iff :
    firstHit load f zs = none ↔ ∀ a ∈ zs, (load a).bind f = none := by
  simp [firstHit]

theorem firstHit_all {b : β} (hall : ∀ a ∈ zs, (load a).bind f = some b) :
    firstHit load f zs = zs.head?.map (·, b) := by
  cases zs with
  | nil => rfl
  | cons a zs =>
    rw [firstHit, List.findSome?_cons, hall a (by simp)]
    rfl

/-- The nodes `zs` with their contents. -/
def records (load : A → Option ρ) (zs : List A) : List (A × ρ) :=
  zs.filterMap fun a => (load a).map (a, ·)

theorem records_append {xs ys : List A} :
    records load (xs ++ ys) = records load xs ++ records load ys := List.filterMap_append

theorem records_singleton {a : A} {v : ρ} (hv : load a = some v) :
    records load [a] = [(a, v)] := by
  simp [records, hv]

theorem mem_records {a : A} {v : ρ} : (a, v) ∈ records load zs ↔ a ∈ zs ∧ load a = some v := by
  simp only [records, List.mem_filterMap, Option.map_eq_some_iff]
  constructor
  · rintro ⟨b, hb, w, hw, he⟩
    cases he
    exact ⟨hb, hw⟩
  · rintro ⟨ha, hv⟩
    exact ⟨a, ha, v, hv, rfl⟩

theorem length_records_le : (records load zs).length ≤ zs.length := List.length_filterMap_le _ _

theorem map_records {γ : Type*} {f : A × ρ → γ} {g : A → γ} (hl : ∀ a ∈ zs, (load a).isSome)
    (hfg : ∀ a ∈ zs, ∀ v, load a = some v → f (a, v) = g a) :
    (records load zs).map f = zs.map g := by
  induction zs with
  | nil => rfl
  | cons a zs ih =>
    obtain ⟨v, hv⟩ := Option.isSome_iff_exists.mp (hl a (by simp))
    have hrest := ih (fun b hb => hl b (by simp [hb])) fun b hb => hfg b (by simp [hb])
    rw [records] at hrest ⊢
    simp [hv, hfg a (by simp) v hv, hrest]

/-- A walk along a chain that is allocated ends, and has seen every node. -/
theorem walk_ok (hc : Chain (fun a => (load a).bind link) h zs)
    (hl : ∀ a ∈ zs, (load a).isSome) (hn : zs.length ≤ n) :
    walk load link n h = .ok (records load zs) := by
  induction zs generalizing n h with
  | nil =>
    obtain rfl : h = none := hc
    cases n <;> rfl
  | cons a zs ih =>
    obtain ⟨rfl, hc⟩ := hc
    cases n with
    | zero => simp at hn
    | succ n =>
      obtain ⟨v, hv⟩ := Option.isSome_iff_exists.mp (hl a (by simp))
      simp only [hv, Option.bind_some] at hc
      simp only [walk, hv, ih hc (fun b hb => hl b (by simp [hb])) (Nat.le_of_succ_le_succ hn)]
      simp [records, hv]
      rfl

theorem find_ok {c : ρ → Bool} (hc : Chain (fun a => (load a).bind link) h zs)
    (hl : ∀ a ∈ zs, (load a).isSome) (hn : zs.length ≤ n) :
    find load link c n h = .ok (zs.find? fun a => (load a).any c) := by
  rw [find, search_ok hc hl hn]
  refine congrArg Except.ok ?_
  induction zs generalizing n h with
  | nil => rfl
  | cons a zs ih =>
    obtain ⟨v, hv⟩ := Option.isSome_iff_exists.mp (hl a (by simp))
    have hrest := ih hc.2 (fun b hb => hl b (by simp [hb])) (Nat.le_refl _)
    rw [firstHit] at hrest ⊢
    cases hcv : c v with
    | true => simp [hv, hcv]
    | false => simpa [hv, hcv] using hrest

end Search
end Csc469.Linked
