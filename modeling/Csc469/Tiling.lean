import Mathlib.Algebra.Order.Ring.Nat
import Mathlib.Data.List.Basic

/-! Ranges of addresses partitioned into pieces. -/
namespace Csc469.Tiling

variable {P Q : Nat → Prop} {len len' : Nat → Nat} {chunks : List (Nat × Nat)} {a b k : Nat}

/-- The pieces `[a, a + len a)` with `P a` partition the ranges `chunks`, given by their start
and length, and none crosses from one into another. -/
structure Tiles (P : Nat → Prop) (len : Nat → Nat) (chunks : List (Nat × Nat)) : Prop where
  pos : ∀ a, P a → 0 < len a
  within : ∀ a, P a → ∃ r ∈ chunks, r.1 ≤ a ∧ a + len a ≤ r.1 + r.2
  covers : ∀ r ∈ chunks, ∀ x, r.1 ≤ x → x < r.1 + r.2 → ∃ a, P a ∧ a ≤ x ∧ x < a + len a
  apart : ∀ a b, P a → P b → a ≠ b → a + len a ≤ b ∨ b + len b ≤ a

namespace Tiles

theorem nil (hP : ∀ a, ¬P a) : Tiles P len [] :=
  ⟨fun a h => (hP a h).elim, fun a h => (hP a h).elim, by simp, fun a _ h => (hP a h).elim⟩

theorem congr (ht : Tiles P len chunks) (hP : ∀ a, Q a ↔ P a)
    (hl : ∀ a, P a → len' a = len a) : Tiles Q len' chunks := by
  obtain ⟨h1, h2, h3, h4⟩ := ht
  refine ⟨fun a ha => ?_, fun a ha => ?_, fun r hr x hlo hhi => ?_, fun a b ha hb hne => ?_⟩
  · rw [hP] at ha
    rw [hl a ha]
    exact h1 a ha
  · rw [hP] at ha
    rw [hl a ha]
    exact h2 a ha
  · obtain ⟨a, ha, hlo, hhi⟩ := h3 r hr x hlo hhi
    exact ⟨a, (hP a).mpr ha, hlo, by rwa [hl a ha]⟩
  · rw [hP] at ha hb
    rw [hl a ha, hl b hb]
    exact h4 a b ha hb hne

theorem inner (ht : Tiles P len chunks) (ha : P a) (hk : 0 < k) (hlt : k < len a) :
    ¬P (a + k) := by
  intro hb
  have hpos := ht.pos _ hb
  rcases ht.apart a (a + k) ha hb (by omega) with h | h <;> omega

/-- A piece cut in two. -/
theorem split (ht : Tiles P len chunks) (len' : Nat → Nat) (ha : P a) (hk : 0 < k) (hlt : k < len a)
    (hla : len' a = k) (hlb : len' (a + k) = len a - k)
    (hl : ∀ x, P x → x ≠ a → len' x = len x) :
    Tiles (fun x => x = a + k ∨ P x) len' chunks := by
  have hinner := ht.inner ha hk hlt
  obtain ⟨h1, h2, h3, h4⟩ := ht
  -- every new piece lies in an old one
  have hold : ∀ x, x = a + k ∨ P x → ∃ y, P y ∧ y ≤ x ∧ x + len' x ≤ y + len y ∧
      0 < len' x ∧ (y ≠ a → x = y ∧ len' x = len x) := by
    rintro x (rfl | hx)
    · exact ⟨a, ha, by omega, by omega, by omega, fun h => (h rfl).elim⟩
    · rcases eq_or_ne x a with rfl | hne
      · exact ⟨x, hx, Nat.le_refl x, by omega, by omega, fun h => (h rfl).elim⟩
      · have := h1 x hx
        rw [hl x hx hne]
        exact ⟨x, hx, Nat.le_refl x, Nat.le_refl _, this, fun _ => ⟨rfl, rfl⟩⟩
  refine ⟨fun x hx => ?_, fun x hx => ?_, fun r hr x hlo hhi => ?_, fun x y hx hy hne => ?_⟩
  · obtain ⟨_, _, _, _, hpos, _⟩ := hold x hx
    exact hpos
  · obtain ⟨y, hy, hyx, hend, _, _⟩ := hold x hx
    obtain ⟨r, hr, hlo, hhi⟩ := h2 y hy
    exact ⟨r, hr, by omega, by omega⟩
  · obtain ⟨y, hy, hyx, hend⟩ := h3 r hr x hlo hhi
    rcases eq_or_ne y a with rfl | hne
    · rcases Nat.lt_or_ge x (y + k) with hxk | hxk
      · exact ⟨y, .inr hy, hyx, by omega⟩
      · exact ⟨y + k, .inl rfl, hxk, by omega⟩
    · exact ⟨y, .inr hy, hyx, by rwa [hl y hy hne]⟩
  · obtain ⟨u, hu, hux, huend, _, hueq⟩ := hold x hx
    obtain ⟨v, hv, hvy, hvend, _, hveq⟩ := hold y hy
    rcases eq_or_ne u v with rfl | huv
    · rcases eq_or_ne u a with rfl | hua
      · -- both are parts of the piece that was cut
        have hpart : ∀ z, z = u + k ∨ P z → u ≤ z → z + len' z ≤ u + len u →
            0 < len' z → z = u ∨ z = u + k := by
          rintro z (rfl | hz) hlo hhi hpos
          · exact .inr rfl
          · by_contra hno
            have := hl z hz (by omega)
            rcases h4 u z hu hz (by omega) with h | h <;> omega
        have hx' := hpart x hx hux huend (by assumption)
        have hy' := hpart y hy hvy hvend (by assumption)
        rcases hx' with rfl | rfl <;> rcases hy' with rfl | rfl <;> omega
      · exact (hne ((hueq hua).1.trans (hveq hua).1.symm)).elim
    · rcases h4 u v hu hv huv with h | h
      · left
        omega
      · right
        omega

/-- A range of its own behind all others. -/
theorem extend (ht : Tiles P len chunks) (hk : 0 < k) (hb : ∀ r ∈ chunks, r.1 + r.2 ≤ b)
    (hlb : len' b = k) (hl : ∀ x, P x → len' x = len x) :
    Tiles (fun x => x = b ∨ P x) len' ((b, k) :: chunks) := by
  obtain ⟨h1, h2, h3, h4⟩ := ht
  have hbelow : ∀ x, P x → x + len x ≤ b := by
    intro x hx
    obtain ⟨r, hr, _, hhi⟩ := h2 x hx
    exact Nat.le_trans hhi (hb r hr)
  have hin : ∀ x, x = b ∨ P x → (x = b ∧ len' x = k) ∨ (P x ∧ len' x = len x ∧ x + len x ≤ b) := by
    rintro x (rfl | hx)
    · exact .inl ⟨rfl, hlb⟩
    · exact .inr ⟨hx, hl x hx, hbelow x hx⟩
  refine ⟨fun x hx => ?_, fun x hx => ?_, fun r hr x hlo hhi => ?_, fun x y hx hy hne => ?_⟩
  · rcases hin x hx with ⟨_, h⟩ | ⟨hx, h, _⟩
    · omega
    · have := h1 x hx
      omega
  · rcases hin x hx with ⟨rfl, h⟩ | ⟨hx, h, _⟩
    · exact ⟨(x, k), by simp, Nat.le_refl x, by simp only; omega⟩
    · obtain ⟨r, hr, hlo, hhi⟩ := h2 x hx
      exact ⟨r, by simp [hr], hlo, by omega⟩
  · rcases List.mem_cons.mp hr with rfl | hr
    · exact ⟨b, .inl rfl, hlo, by simp only at *; omega⟩
    · obtain ⟨y, hy, hyx, hend⟩ := h3 r hr x hlo hhi
      exact ⟨y, .inr hy, hyx, by rwa [hl y hy]⟩
  · rcases hin x hx with ⟨hxb, hlx⟩ | ⟨hx, hlx, hxe⟩ <;>
      rcases hin y hy with ⟨hyb, hly⟩ | ⟨hy, hly, hye⟩
    · omega
    · right
      omega
    · left
      omega
    · rw [hlx, hly]
      exact h4 x y hx hy hne

end Tiles

section Rows
variable {l : List (Nat × Nat)}

/-- Bytes of a list of ranges. -/
def total (l : List (Nat × Nat)) : Nat := (l.map Prod.snd).sum

@[simp] theorem total_nil : total [] = 0 := rfl

@[simp] theorem total_append {r : List (Nat × Nat)} : total (l ++ r) = total l + total r := by
  simp [total]

@[simp] theorem total_cons {r : Nat × Nat} : total (r :: l) = r.2 + total l := by simp [total]

/-- The first range begins at `a`, and each other one where the one before it ends. -/
def Consecutive : Nat → List (Nat × Nat) → Prop
  | _, [] => True
  | a, r :: rest => r.1 = a ∧ Consecutive (a + r.2) rest

theorem consecutive_concat : Consecutive a (l ++ [(b, k)]) ↔ Consecutive a l ∧ b = a + total l := by
  induction l generalizing a with
  | nil => simp [Consecutive]
  | cons r l ih => simp [Consecutive, ih, and_assoc, Nat.add_assoc]

theorem Consecutive.within (h : Consecutive a l) : ∀ r ∈ l, a ≤ r.1 ∧ r.1 + r.2 ≤ a + total l := by
  induction l generalizing a with
  | nil => simp
  | cons r l ih =>
    obtain ⟨rfl, h⟩ := h
    intro q hq
    rcases List.mem_cons.mp hq with rfl | hq
    · simp
    · have := ih h q hq
      rw [total_cons]
      omega

theorem Consecutive.ordered (h : Consecutive a l) : l.Pairwise fun x y => x.1 + x.2 ≤ y.1 := by
  induction l generalizing a with
  | nil => exact .nil
  | cons r l ih =>
    obtain ⟨rfl, h⟩ := h
    exact List.pairwise_cons.mpr ⟨fun q hq => (h.within q hq).1, ih h⟩

end Rows
end Csc469.Tiling
