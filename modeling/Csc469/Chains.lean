import Csc469.Linked

/-! Several chains that share one link field: nodes are pushed, popped, taken out and moved. -/
namespace Csc469.Linked

variable {α κ : Type*} [DecidableEq κ] {next next' : α → Option α} {head : κ → Option α}
  {L : κ → List α} {k : κ} {x : α} {xs l r : List α} {h : Option α}

/-- Chains in one store, one for each key, and no node in two. -/
structure Chains (next : α → Option α) (head : κ → Option α) (L : κ → List α) : Prop where
  chain : ∀ k, Chain next (head k) (L k)
  disjoint : ∀ k j x, x ∈ L k → x ∈ L j → k = j

namespace Chains

/-- One list is replaced. -/
theorem set (c : Chains next head L) (hc : Chain next' h xs)
    (hother : ∀ j, j ≠ k → ∀ y ∈ L j, next' y = next y) (hx : ∀ y ∈ xs, ∀ j, j ≠ k → y ∉ L j) :
    Chains next' (Function.update head k h) (Function.update L k xs) := by
  refine ⟨fun j => ?_, fun i j y hi hj => ?_⟩
  · by_cases hj : j = k
    · subst hj
      simpa using hc
    · simpa [hj] using (c.chain j).congr (hother j hj)
  · by_cases hik : i = k <;> by_cases hjk : j = k
    · rw [hik, hjk]
    · subst hik
      simp only [Function.update_self, Function.update_of_ne hjk] at hi hj
      exact (hx y hi j hjk hj).elim
    · subst hjk
      simp only [Function.update_self, Function.update_of_ne hik] at hi hj
      exact (hx y hj i hik hi).elim
    · simp only [Function.update_of_ne hik, Function.update_of_ne hjk] at hi hj
      exact c.disjoint i j y hi hj

/-- The first node is taken off a list. -/
theorem pop (c : Chains next head L) (hk : L k = x :: xs) :
    Chains next (Function.update head k (next x)) (Function.update L k xs) := by
  have hc := c.chain k
  rw [hk] at hc
  refine c.set hc.2 (fun _ _ _ _ => rfl) fun y hy j hj hyj => hj ?_
  exact c.disjoint j k y hyj (by simp [hk, hy])

/-- A node that is in no list is put in front of one. -/
theorem push (c : Chains next head L) (hx : ∀ j, x ∉ L j) (hn : next' x = head k)
    (hother : ∀ y, y ≠ x → next' y = next y) :
    Chains next' (Function.update head k (some x)) (Function.update L k (x :: L k)) := by
  have hne : ∀ j, ∀ y ∈ L j, y ≠ x := fun j y hy he => hx j (he ▸ hy)
  refine c.set ⟨rfl, ?_⟩ (fun j _ y hy => hother y (hne j y hy)) fun y hy j hj => ?_
  · rw [hn]
    exact (c.chain k).congr fun y hy => hother y (hne k y hy)
  · rcases List.mem_cons.mp hy with rfl | hy
    · exact hx j
    · exact fun hyj => hj (c.disjoint j k y hyj hy)

/-- The node after `z` is taken out of a list. -/
theorem skip {z : α} (c : Chains next head L) (hk : L k = l ++ z :: x :: r)
    (hz : next' z = next x) (hother : ∀ y, y ≠ z → next' y = next y) :
    Chains next' head (Function.update L k (l ++ z :: r)) := by
  have hc := c.chain k
  have hnd := hc.nodup
  rw [hk] at hc hnd
  have hl : ∀ y ∈ l, y ≠ z := fun y hy => (List.nodup_append.mp hnd).2.2 y hy z (by simp)
  have hr : ∀ y ∈ r, y ≠ z := by
    rintro y hy rfl
    exact (List.nodup_cons.mp (List.nodup_append.mp hnd).2.1).1 (by simp [hy])
  have hset := c.set (hc.skip hz (fun y hy => hother y (hl y hy)) fun y hy => hother y (hr y hy))
    (k := k) (fun j hj y hy => hother y ?_) fun y hy j hj hyj => ?_
  · rwa [Function.update_eq_self] at hset
  · rintro rfl
    exact hj (c.disjoint j k y hy (by simp [hk]))
  · refine hj (c.disjoint j k y hyj ?_)
    rw [hk]
    rcases List.mem_append.mp hy with hy | hy
    · simp [hy]
    · rcases List.mem_cons.mp hy with rfl | hy <;> simp [*]

end Chains
end Csc469.Linked
