import Mathlib.Data.Nat.Basic
import Mathlib.Tactic.Ring

/-! Memory as bytes, with little-endian words of any width. -/
namespace Csc469.ByteMemory

abbrev Memory := Nat → UInt8

/-- The `k` bytes at `a` become those of `v`, the lowest first. -/
def store (m : Memory) (a k v : Nat) : Memory := fun x =>
  if a ≤ x ∧ x < a + k then UInt8.ofNat (v / 256 ^ (x - a)) else m x

/-- The `k` bytes at `a` all become `b`. -/
def fill (m : Memory) (a k : Nat) (b : UInt8) : Memory := fun x =>
  if a ≤ x ∧ x < a + k then b else m x

/-- The value of the `k` bytes at `a`. -/
def load (m : Memory) (a : Nat) : Nat → Nat
  | 0 => 0
  | k + 1 => load m a k + 256 ^ k * (m (a + k)).toNat

variable {m m' : Memory} {a j k v x : Nat} {b : UInt8}

theorem store_outside (h : x < a ∨ a + k ≤ x) : store m a k v x = m x := if_neg (by omega)

theorem store_inside (h : j < k) : store m a k v (a + j) = UInt8.ofNat (v / 256 ^ j) := by
  rw [store, if_pos (by omega), Nat.add_sub_cancel_left]

/-- The bytes of zero. -/
theorem store_zero : store m a k 0 = fill m a k 0 := by
  funext x
  simp [store, fill]

/-- Two adjacent areas are filled one after the other. -/
theorem fill_fill : fill (fill m a j b) (a + j) k b = fill m a (j + k) b := by
  funext x
  simp only [fill]
  split_ifs <;> first | rfl | omega

theorem load_congr (h : ∀ i < k, m (a + i) = m' (a + i)) : load m a k = load m' a k := by
  induction k with
  | zero => rfl
  | succ k ih =>
    rw [load, load, ih fun i hi => h i (by omega), h k (by omega)]

theorem load_lt : load m a k < 256 ^ k := by
  induction k with
  | zero => simp [load]
  | succ k ih =>
    have hb := UInt8.toNat_lt (m (a + k))
    have hle : 256 ^ k * (m (a + k)).toNat ≤ 256 ^ k * 255 := Nat.mul_le_mul_left _ (by omega)
    rw [load, Nat.pow_succ]
    omega

theorem load_store : load (store m a k v) a k = v % 256 ^ k := by
  suffices h : ∀ j ≤ k, load (store m a k v) a j = v % 256 ^ j from h k (Nat.le_refl k)
  intro j hj
  induction j with
  | zero => simp [load, Nat.mod_one]
  | succ j ih =>
    rw [load, ih (by omega), store_inside (by omega), Nat.pow_succ, Nat.mod_mul]
    simp

theorem load_eq_zero : load m a k = 0 ↔ ∀ i < k, m (a + i) = 0 := by
  induction k with
  | zero => simp [load]
  | succ k ih =>
    rw [load, Nat.add_eq_zero_iff, ih, Nat.mul_eq_zero, Nat.forall_lt_succ_right]
    simp [← UInt8.toNat_inj]

/-- A word whose `j` low bytes are cleared. -/
theorem load_clear (hlow : ∀ i < j, m' (a + i) = 0)
    (hhigh : ∀ i, j ≤ i → i < k → m' (a + i) = m (a + i)) :
    load m' a k = load m a k / 256 ^ j * 256 ^ j := by
  induction k with
  | zero => simp [load]
  | succ k ih =>
    have ih := ih fun i hj hi => hhigh i hj (by omega)
    rcases Nat.lt_or_ge k j with hkj | hkj
    · have hzero : load m' a (k + 1) = 0 := load_eq_zero.mpr fun i hi => hlow i (by omega)
      have hlt : load m a (k + 1) < 256 ^ j :=
        Nat.lt_of_lt_of_le load_lt (Nat.pow_le_pow_right (by omega) hkj)
      rw [hzero, Nat.div_eq_of_lt hlt, Nat.zero_mul]
    · obtain ⟨i, rfl⟩ := Nat.exists_eq_add_of_le hkj
      rw [load, load, hhigh (j + i) hkj (by omega), ih, Nat.pow_add, Nat.mul_assoc,
        Nat.add_mul_div_left _ _ (Nat.pow_pos (by decide)), Nat.add_mul]
      ring

end Csc469.ByteMemory
