import Mathlib.Algebra.Group.Nat.Defs
import Mathlib.Algebra.Order.Ring.Nat
import Mathlib.Tactic.Linarith
import Mathlib.Tactic.Ring

/-! Integers rounded to a number of significant bits, and then up to a multiple. -/
namespace Csc469.Rounding

variable {p n c k m x : Nat}

/-- The distance of the numbers with `p` significant bits next to `n`. -/
def unit (p n : Nat) : Nat := 2 ^ (n.log2 + 1 - p)

/-- The number with `p` significant bits that is nearest to `n`; halfway between two, the even
multiple of their distance. -/
def roundEven (p n : Nat) : Nat :=
  let q := n / unit p n
  let r := n % unit p n
  if unit p n < 2 * r ∨ (2 * r = unit p n ∧ q % 2 = 1) then (q + 1) * unit p n
  else q * unit p n

theorem unit_pos : 0 < unit p n := Nat.two_pow_pos _

/-- An even multiple of the unit takes what is at most half a unit above it. -/
theorem roundEven_le_iff (hd : 2 * unit p n ∣ m) :
    roundEven p n ≤ m ↔ 2 * n ≤ 2 * m + unit p n := by
  have hu := unit_pos (p := p) (n := n)
  simp only [roundEven]
  obtain ⟨w, rfl⟩ := hd
  have hn := Nat.div_add_mod n (unit p n)
  have hr := Nat.mod_lt n hu
  generalize n / unit p n = q at hn ⊢
  generalize n % unit p n = r at hn hr ⊢
  generalize unit p n = u at hu hn hr ⊢
  rw [← hn]
  rcases lt_trichotomy q (2 * w) with hlt | rfl | hgt
  · -- the next multiple is not beyond `m` either
    have hle := Nat.mul_le_mul_right u (Nat.succ_le_of_lt hlt)
    refine iff_of_true ?_ ?_
    · split <;> nlinarith
    · nlinarith
  · split
    · next hup =>
      refine iff_of_false ?_ ?_
      · nlinarith
      · rcases hup with h | ⟨-, h⟩
        · nlinarith
        · omega
    · next hdown =>
      refine iff_of_true (by nlinarith) ?_
      have : 2 * r ≤ u := by omega
      nlinarith
  · have hle := Nat.mul_le_mul_right u (Nat.succ_le_of_lt hgt)
    refine iff_of_false ?_ ?_
    · split <;> nlinarith
    · nlinarith

theorem ceil_le_iff (hc : 0 < c) : (x + c - 1) / c ≤ k ↔ x ≤ k * c := by
  rw [Nat.div_le_iff_le_mul_add_pred hc, Nat.mul_comm c k]
  omega

/-- Rounding up to a multiple of `c` does not need more multiples for the rounded number. -/
theorem ceil_roundEven_le (hc : 0 < c) (hd : 2 * unit p n ∣ c) :
    (roundEven p n + c - 1) / c ≤ (n + c - 1) / c := by
  rw [ceil_le_iff hc, roundEven_le_iff (hd.mul_left _)]
  have := (ceil_le_iff hc (x := n)).mp (Nat.le_refl _)
  omega

/-- The multiple of `c` is at least `n` itself, unless `n` is less than half a unit, or half a unit,
above a multiple. -/
theorem le_ceil_roundEven (hc : 0 < c) (hd : 2 * unit p n ∣ c) :
    n ≤ (roundEven p n + c - 1) / c * c ↔ n % c = 0 ∨ unit p n < 2 * (n % c) := by
  have hu := unit_pos (p := p) (n := n)
  have hn := Nat.div_add_mod n c
  have hle := Nat.le_of_dvd hc hd
  constructor
  · intro hcover
    by_contra hno
    rw [not_or, Nat.not_lt] at hno
    have hdown : roundEven p n ≤ n / c * c := by
      rw [roundEven_le_iff (hd.mul_left _)]
      linarith [Nat.mul_comm c (n / c)]
    have hmul := Nat.mul_le_mul_right c ((ceil_le_iff hc).mpr hdown)
    have hpos : 0 < n % c := Nat.pos_of_ne_zero hno.1
    linarith [Nat.mul_comm c (n / c)]
  · intro hfit
    by_contra hno
    rw [Nat.not_le] at hno
    have hround := (roundEven_le_iff (hd.mul_left _)).mp ((ceil_le_iff hc).mp (Nat.le_refl
      ((roundEven p n + c - 1) / c)))
    generalize (roundEven p n + c - 1) / c = j at hno hround
    rcases lt_trichotomy j (n / c) with hlt | rfl | hgt
    · have hnext := Nat.mul_le_mul_right c (Nat.succ_le_of_lt hlt)
      rw [Nat.succ_mul, Nat.mul_comm (n / c) c] at hnext
      omega
    · rw [Nat.mul_comm (n / c) c] at hno hround
      omega
    · have hnext := Nat.mul_le_mul_right c (Nat.succ_le_of_lt hgt)
      rw [Nat.succ_mul, Nat.mul_comm (n / c) c] at hnext
      have hlt := Nat.mod_lt n hc
      omega

end Csc469.Rounding
