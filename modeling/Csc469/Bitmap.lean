import Mathlib.Algebra.Group.Int.Defs
import Mathlib.Algebra.Group.Nat.Defs
import Mathlib.Data.Finset.Card
import Mathlib.Logic.Function.Basic

/-! Sets of bit positions in an array of `w`-bit signed cells, changed by adding and
subtracting powers of two modulo `2 ^ w`. -/
namespace Csc469.Bitmap

variable {w : Nat} {m : Nat → BitVec w} {i k n : Nat} {c : BitVec w}

theorem ofInt_two_pow (hk : k < w) : BitVec.ofInt w (2 ^ k) = BitVec.twoPow w k := by
  have hlt : 2 ^ k < 2 ^ w := Nat.pow_lt_pow_right (by omega) hk
  apply BitVec.eq_of_toNat_eq
  rw [BitVec.toNat_twoPow_eq_ite, if_pos hk, BitVec.toNat_ofInt]
  have hpow : ((2 : Int) ^ k) = ((2 ^ k : Nat) : Int) := by simp
  rw [hpow]
  norm_cast
  exact Nat.mod_eq_of_lt hlt

/-- Adding `2 ^ k` to a cell whose bit `k` is clear sets that bit and carries nowhere. -/
theorem getLsbD_add_pow (hk : k < w) (hc : c.getLsbD k = false) :
    (BitVec.ofInt w (c.toInt + 2 ^ k)).getLsbD i = (decide (i = k) || c.getLsbD i) := by
  have hand : c &&& BitVec.twoPow w k = 0#w := by
    apply BitVec.eq_of_getLsbD_eq
    intro j hj
    by_cases hjk : k = j
    · subst hjk
      simp [hc]
    · simp [BitVec.getLsbD_twoPow, hjk]
  rw [BitVec.ofInt_add, BitVec.ofInt_toInt, ofInt_two_pow hk,
    BitVec.add_eq_or_of_and_eq_zero _ _ hand, BitVec.getLsbD_or, BitVec.getLsbD_twoPow,
    Bool.or_comm]
  simp [hk, eq_comm]

/-- Subtracting `2 ^ k` from a cell whose bit `k` is set clears that bit and borrows nowhere. -/
theorem getLsbD_sub_pow (hk : k < w) (hc : c.getLsbD k = true) :
    (BitVec.ofInt w (c.toInt - 2 ^ k)).getLsbD i = (!decide (i = k) && c.getLsbD i) := by
  have hand : (c &&& ~~~BitVec.twoPow w k) &&& BitVec.twoPow w k = 0#w := by
    apply BitVec.eq_of_getLsbD_eq
    intro j hj
    simp [hj]
  have hsub : c - BitVec.twoPow w k = c &&& ~~~BitVec.twoPow w k := by
    rw [BitVec.sub_eq_iff_eq_add, BitVec.add_eq_or_of_and_eq_zero _ _ hand]
    apply BitVec.eq_of_getLsbD_eq
    intro j hj
    by_cases hjk : j = k
    · subst hjk
      simp [hc, hk]
    · simp [hj, hjk]
  have hof : BitVec.ofInt w (c.toInt - 2 ^ k) = c - BitVec.twoPow w k := by
    rw [eq_comm, BitVec.sub_eq_iff_eq_add, ← ofInt_two_pow hk, ← BitVec.ofInt_add,
      Int.sub_add_cancel, BitVec.ofInt_toInt]
  rw [hof, hsub, BitVec.getLsbD_and, BitVec.getLsbD_not, BitVec.getLsbD_twoPow, Bool.and_comm]
  by_cases hi : i < w
  · by_cases hik : i = k <;> simp [hi, hk, hik, eq_comm]
  · simp [BitVec.getLsbD_of_ge c i (by omega)]

/-- Bit `id` of the array. -/
def bit (m : Nat → BitVec w) (id : Nat) : Bool := (m (id / w)).getLsbD (id % w)

/-- `m[id / w] += 2 ^ (id % w)`. -/
def addBit (m : Nat → BitVec w) (id : Nat) : Nat → BitVec w :=
  Function.update m (id / w) (BitVec.ofInt w ((m (id / w)).toInt + 2 ^ (id % w)))

/-- `m[id / w] -= 2 ^ (id % w)`. -/
def subBit (m : Nat → BitVec w) (id : Nat) : Nat → BitVec w :=
  Function.update m (id / w) (BitVec.ofInt w ((m (id / w)).toInt - 2 ^ (id % w)))

theorem eq_iff_div_mod : i = k ↔ i / w = k / w ∧ i % w = k % w := by
  refine ⟨fun h => by simp [h], fun ⟨hd, hm⟩ => ?_⟩
  rw [← Nat.div_add_mod i w, ← Nat.div_add_mod k w, hd, hm]

theorem bit_addBit (hw : 0 < w) (hk : bit m k = false) :
    bit (addBit m k) i = (decide (i = k) || bit m i) := by
  by_cases hd : i / w = k / w
  · have := getLsbD_add_pow (i := i % w) (Nat.mod_lt k hw) hk
    have hik : i = k ↔ i % w = k % w := by rw [eq_iff_div_mod (w := w)]; simp [hd]
    simp only [bit, addBit, hd, Function.update_self, this, hik]
  · simp [bit, addBit, Function.update_of_ne hd, show i ≠ k from fun h => hd (by rw [h])]

theorem bit_subBit (hw : 0 < w) (hk : bit m k = true) :
    bit (subBit m k) i = (!decide (i = k) && bit m i) := by
  by_cases hd : i / w = k / w
  · have := getLsbD_sub_pow (i := i % w) (Nat.mod_lt k hw) hk
    have hik : i = k ↔ i % w = k % w := by rw [eq_iff_div_mod (w := w)]; simp [hd]
    simp only [bit, subBit, hd, Function.update_self, this, hik]
  · simp [bit, subBit, Function.update_of_ne hd, show i ≠ k from fun h => hd (by rw [h])]

/-- The positions below `n` whose bit is set. -/
def ones (m : Nat → BitVec w) (n : Nat) : Finset Nat := (Finset.range n).filter (bit m ·)

@[simp] theorem mem_ones : i ∈ ones m n ↔ i < n ∧ bit m i = true := by
  simp [ones]

theorem card_ones_addBit (hw : 0 < w) (hn : k < n) (hk : bit m k = false) :
    (ones (addBit m k) n).card = (ones m n).card + 1 := by
  have : ones (addBit m k) n = insert k (ones m n) := by
    ext i
    by_cases hi : i = k <;> simp [bit_addBit hw hk, hi, hn]
  rw [this, Finset.card_insert_of_notMem (by simp [hk])]

theorem card_ones_subBit (hw : 0 < w) (hn : k < n) (hk : bit m k = true) :
    (ones (subBit m k) n).card + 1 = (ones m n).card := by
  have : ones (subBit m k) n = (ones m n).erase k := by
    ext i
    by_cases hi : i = k <;> simp [bit_subBit hw hk, hi]
  rw [this, Finset.card_erase_add_one (by simp [hk, hn])]

/-- Fewer than `n` set bits leave one of the first `n` clear. -/
theorem exists_clear (h : (ones m n).card < n) : ∃ i < n, bit m i = false := by
  by_contra hno
  push Not at hno
  have : ones m n = Finset.range n := by
    ext i
    simp only [mem_ones, Finset.mem_range]
    exact ⟨fun hi => hi.1, fun hi => ⟨hi, by simpa using hno i hi⟩⟩
  rw [this, Finset.card_range] at h
  omega

end Csc469.Bitmap
