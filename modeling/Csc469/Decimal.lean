import Mathlib.Algebra.Order.Ring.Int
import Mathlib.Data.List.TakeWhile

/-! Decimal numbers in a text: how they are written, and how they are read. -/
namespace Csc469.Decimal

variable {n : Nat} {c : UInt8} {s digits : List UInt8}

/-- `isspace` -/
def isSpace (c : UInt8) : Bool := c = 32 ∨ 9 ≤ c ∧ c ≤ 13

def isDigit (c : UInt8) : Bool := 48 ≤ c ∧ c ≤ 57

def digitsValue (digits : List UInt8) : Nat :=
  digits.foldl (fun n c => 10 * n + (c.toNat - 48)) 0

/-- `%u`: a number in decimal. -/
def decimal (n : Nat) : List UInt8 := (Nat.toDigits 10 n).map fun c => UInt8.ofNat c.toNat

/-- `%d`: blanks, a sign and digits, unless there is no digit. The number is as large as its digits
say: it is what `%d` stores when it fits into an `int`. -/
def scanInt (s : List UInt8) : Option Int :=
  let s := s.dropWhile isSpace
  let unsigned := if s.head? = some 45 ∨ s.head? = some 43 then s.drop 1 else s
  let digits := unsigned.takeWhile isDigit
  if digits = [] then none
  else some (if s.head? = some 45 then -(digitsValue digits : Int) else digitsValue digits)

/-- `strtol` with base 10. -/
def strtol (s : List UInt8) : Int := max (-2 ^ 63) (min (2 ^ 63 - 1) ((scanInt s).getD 0))

theorem digit_toNat {c : Char} (h : c.isDigit) :
    (UInt8.ofNat c.toNat).toNat = c.toNat ∧ isDigit (UInt8.ofNat c.toNat) := by
  have hrange : 48 ≤ c.toNat ∧ c.toNat ≤ 57 := by
    simp only [Char.isDigit, Bool.and_eq_true, decide_eq_true_eq, UInt32.le_iff_toNat_le] at h
    exact h
  have hnat : (UInt8.ofNat c.toNat).toNat = c.toNat := by
    rw [UInt8.toNat_ofNat']
    exact Nat.mod_eq_of_lt (by omega)
  refine ⟨hnat, ?_⟩
  simp only [isDigit, UInt8.le_iff_toNat_le, hnat, decide_eq_true_eq]
  exact hrange

theorem isDigit_of_mem_decimal (h : c ∈ decimal n) : isDigit c := by
  obtain ⟨d, hd, rfl⟩ := List.mem_map.mp h
  exact (digit_toNat (Nat.isDigit_of_mem_toDigits (by decide) (by decide) hd)).2

theorem decimal_ne_nil : decimal n ≠ [] := by simp [decimal, Nat.toDigits_ne_nil]

/-- A number is read as it was written. -/
theorem digitsValue_decimal : digitsValue (decimal n) = n := by
  have hfold : ∀ (l : List Char) (i : Nat), (∀ c ∈ l, c.isDigit) →
      (l.map fun c => UInt8.ofNat c.toNat).foldl (fun n c => 10 * n + (c.toNat - 48)) i =
        Nat.ofDigitChars 10 l i := by
    intro l
    induction l with
    | nil => intro i _; exact Nat.ofDigitChars_nil.symm
    | cons c l ih =>
      intro i h
      rw [List.forall_mem_cons] at h
      rw [List.map_cons, List.foldl_cons, Nat.ofDigitChars_cons, (digit_toNat h.1).1, ih _ h.2]
      rfl
  rw [digitsValue, decimal, hfold _ _ fun c hc =>
    Nat.isDigit_of_mem_toDigits (by decide) (by decide) hc, Nat.ofDigitChars_ten_toDigits]

theorem digitsValue_concat :
    digitsValue (digits ++ [c]) = 10 * digitsValue digits + (c.toNat - 48) := by
  rw [digitsValue, List.foldl_append]
  rfl

theorem not_isSpace_of_isDigit (h : isDigit c) : isSpace c = false := by
  simp only [isDigit, decide_eq_true_eq, UInt8.le_iff_toNat_le] at h
  simp only [isSpace, decide_eq_false_iff_not, ← UInt8.toNat_inj, UInt8.le_iff_toNat_le]
  simp at h ⊢
  omega

theorem scanInt_blank (h : isSpace c) : scanInt (c :: s) = scanInt s := by
  rw [scanInt, List.dropWhile_cons_of_pos h]
  rfl

/-- The digits that follow a number are read with it. -/
theorem scanInt_decimal : scanInt (decimal n ++ s) =
    some (digitsValue (decimal n ++ s.takeWhile isDigit) : Int) := by
  obtain ⟨c, rest, hcons⟩ := List.exists_cons_of_ne_nil (decimal_ne_nil (n := n))
  have hc : isDigit c := isDigit_of_mem_decimal (n := n) (by simp [hcons])
  have hblank : (decimal n ++ s).dropWhile isSpace = decimal n ++ s := by
    rw [hcons, List.cons_append, List.dropWhile_cons_of_neg (by simp [not_isSpace_of_isDigit hc])]
  have hsign : (decimal n ++ s).head? ≠ some 45 ∧ (decimal n ++ s).head? ≠ some 43 := by
    rw [hcons, List.cons_append, List.head?_cons]
    constructor <;> rintro ⟨⟩ <;> exact absurd hc (by decide)
  have htake : (decimal n ++ s).takeWhile isDigit = decimal n ++ s.takeWhile isDigit :=
    List.takeWhile_append_of_pos fun c hc => isDigit_of_mem_decimal hc
  simp only [scanInt, hblank, hsign, htake, or_self, if_false]
  rw [if_neg (by simp [decimal_ne_nil])]

theorem strtol_of_lt {k : Nat} (h : scanInt s = some (k : Int)) (hk : k < 2 ^ 63) :
    strtol s = k := by
  rw [strtol, h, Option.getD_some]
  omega

end Csc469.Decimal
