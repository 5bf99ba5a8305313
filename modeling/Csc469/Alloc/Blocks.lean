import Csc469.Alloc.Malloc
import Mathlib.Data.List.Find
import Mathlib.Tactic.IntervalCases
import Mathlib.Tactic.Linarith
import Mathlib.Tactic.Positivity

/-! Size classes, block maps, and what `find_block` finds. -/
namespace Csc469.Alloc

open Bitmap

variable {sz cls id k : Nat} {m : Nat → BitVec 8} {used : Int}

/-- The number of blocks of a superblock. -/
abbrev blocks (cls : Nat) : Nat := sbSize / cls

theorem mem_blockSizes : cls ∈ blockSizes ↔ cls = 8 ∨ cls = 16 ∨ cls = 32 ∨ cls = 64 ∨
    cls = 128 ∨ cls = 256 ∨ cls = 512 ∨ cls = 1024 ∨ cls = 2048 := by
  simp [blockSizes]

theorem blocks_mul (hc : cls ∈ blockSizes) : blocks cls * cls = 4096 := by
  rcases mem_blockSizes.mp hc with rfl | rfl | rfl | rfl | rfl | rfl | rfl | rfl | rfl <;> rfl

theorem blocks_bounds (hc : cls ∈ blockSizes) :
    8 ≤ cls ∧ cls ≤ 2048 ∧ 2 ≤ blocks cls ∧ blocks cls ≤ 512 := by
  rcases mem_blockSizes.mp hc with rfl | rfl | rfl | rfl | rfl | rfl | rfl | rfl | rfl <;> decide

theorem sizeId_cases (h : sz ≤ 2048) :
    (sz ≤ 8 ∧ sizeId sz = 0) ∨ (8 < sz ∧ sz ≤ 16 ∧ sizeId sz = 1) ∨
    (16 < sz ∧ sz ≤ 32 ∧ sizeId sz = 2) ∨ (32 < sz ∧ sz ≤ 64 ∧ sizeId sz = 3) ∨
    (64 < sz ∧ sz ≤ 128 ∧ sizeId sz = 4) ∨ (128 < sz ∧ sz ≤ 256 ∧ sizeId sz = 5) ∨
    (256 < sz ∧ sz ≤ 512 ∧ sizeId sz = 6) ∨ (512 < sz ∧ sz ≤ 1024 ∧ sizeId sz = 7) ∨
    (1024 < sz ∧ sizeId sz = 8) := by
  simp only [sizeId, blockSizes, List.findIdx_cons, List.findIdx_nil, Bool.cond_decide]
  split_ifs <;> omega

/-- The class of a small request: the smallest block size that holds it. -/
theorem sizeClass_cases (h : sz ≤ 2048) :
    (sz ≤ 8 ∧ sizeClass sz = 8) ∨ (8 < sz ∧ sz ≤ 16 ∧ sizeClass sz = 16) ∨
    (16 < sz ∧ sz ≤ 32 ∧ sizeClass sz = 32) ∨ (32 < sz ∧ sz ≤ 64 ∧ sizeClass sz = 64) ∨
    (64 < sz ∧ sz ≤ 128 ∧ sizeClass sz = 128) ∨ (128 < sz ∧ sz ≤ 256 ∧ sizeClass sz = 256) ∨
    (256 < sz ∧ sz ≤ 512 ∧ sizeClass sz = 512) ∨
    (512 < sz ∧ sz ≤ 1024 ∧ sizeClass sz = 1024) ∨ (1024 < sz ∧ sizeClass sz = 2048) := by
  have hid := sizeId_cases h
  simp only [sizeClass]
  rcases hid with ⟨h1, h3⟩ | ⟨h1, h2, h3⟩ | ⟨h1, h2, h3⟩ | ⟨h1, h2, h3⟩ | ⟨h1, h2, h3⟩ |
    ⟨h1, h2, h3⟩ | ⟨h1, h2, h3⟩ | ⟨h1, h2, h3⟩ | ⟨h1, h3⟩ <;>
  simp [h3, blockSizes] <;> omega

theorem sizeClass_mem (h : sz ≤ 2048) : sizeClass sz ∈ blockSizes := by
  rw [mem_blockSizes]
  have := sizeClass_cases h
  omega

theorem le_sizeClass (h : sz ≤ 2048) : sz ≤ sizeClass sz := by
  have := sizeClass_cases h
  omega

theorem sizeId_sizeClass (h : sz ≤ 2048) : sizeId (sizeClass sz) = sizeId sz := by
  have hid := sizeId_cases h
  rcases sizeClass_cases h with ⟨_, h⟩ | ⟨_, _, h⟩ | ⟨_, _, h⟩ | ⟨_, _, h⟩ | ⟨_, _, h⟩ |
    ⟨_, _, h⟩ | ⟨_, _, h⟩ | ⟨_, _, h⟩ | ⟨_, h⟩ <;>
  rw [h] <;> simp only [show sizeId 8 = 0 from rfl, show sizeId 16 = 1 from rfl,
    show sizeId 32 = 2 from rfl, show sizeId 64 = 3 from rfl, show sizeId 128 = 4 from rfl,
    show sizeId 256 = 5 from rfl, show sizeId 512 = 6 from rfl, show sizeId 1024 = 7 from rfl,
    show sizeId 2048 = 8 from rfl] <;> omega

theorem sizeId_lt (hc : cls ∈ blockSizes) : sizeId cls < 9 := by
  rcases mem_blockSizes.mp hc with rfl | rfl | rfl | rfl | rfl | rfl | rfl | rfl | rfl <;> decide

theorem sizeId_inj {cls' : Nat} (hc : cls ∈ blockSizes) (hc' : cls' ∈ blockSizes)
    (h : sizeId cls = sizeId cls') : cls = cls' := by
  have h1 := sizeId_cases (blocks_bounds hc).2.1
  have h2 := sizeId_cases (blocks_bounds hc').2.1
  rw [mem_blockSizes] at hc hc'
  omega

/-- Four times the share of used blocks, rounded down, plus one. -/
theorem fullness_eq (hu : 0 ≤ used) : fullness used k = 4 * used.toNat / k + 1 := by
  obtain ⟨u, rfl⟩ := Int.eq_ofNat_of_zero_le hu
  rw [fullness, fullnessDenominator, Int.toNat_natCast]
  have : ((4 : Nat) * (u : Int)).tdiv k = ((4 * u / k : Nat) : Int) := by
    push_cast
    rw [Int.tdiv_eq_ediv_of_nonneg (by positivity)]
  rw [this]
  generalize 4 * u / k = q
  omega

theorem fullness_bounds (hc : cls ∈ blockSizes) (hu : 0 ≤ used) (hn : used ≤ blocks cls) :
    1 ≤ fullness used (blocks cls) ∧ fullness used (blocks cls) ≤ 5 := by
  have hb := blocks_bounds hc
  rw [fullness_eq hu]
  refine ⟨Nat.le_add_left .., ?_⟩
  have : 4 * used.toNat / blocks cls ≤ 4 := by
    apply Nat.div_le_of_le_mul
    have : used.toNat ≤ blocks cls := by omega
    nlinarith
  exact Nat.add_le_add_right this 1

theorem blocksUsed_lt (hc : cls ∈ blockSizes) : blocksUsed cls < blocks cls := by
  rcases mem_blockSizes.mp hc with rfl | rfl | rfl | rfl | rfl | rfl | rfl | rfl | rfl <;> decide

theorem fullness_blocksUsed (hc : cls ∈ blockSizes) :
    fullness (blocksUsed cls) (blocks cls) = 1 := by
  rcases mem_blockSizes.mp hc with rfl | rfl | rfl | rfl | rfl | rfl | rfl | rfl | rfl <;> rfl

/-- A new superblock reserves exactly the blocks its header lies in. -/
theorem bit_headerMap (hc : cls ∈ blockSizes) :
    bit (headerMap cls) id = decide (id < blocksUsed cls) := by
  by_cases hid : id < 16
  · rcases mem_blockSizes.mp hc with rfl | rfl | rfl | rfl | rfl | rfl | rfl | rfl | rfl <;>
      interval_cases id <;> rfl
  · have hj : 2 ≤ id / 8 := by omega
    have hused : blocksUsed cls ≤ 13 := by
      rcases mem_blockSizes.mp hc with rfl | rfl | rfl | rfl | rfl | rfl | rfl | rfl | rfl <;>
        decide
    have hzero : headerMap cls (id / 8) = 0 := by
      unfold headerMap
      split
      · split <;> simp [Function.update, show id / 8 ≠ 0 by omega, show id / 8 ≠ 1 by omega]
      · rfl
    simp [bit, hzero]
    omega

theorem ones_headerMap (hc : cls ∈ blockSizes) :
    ones (headerMap cls) 512 = Finset.range (blocksUsed cls) := by
  have hlt := blocksUsed_lt hc
  have hb := blocks_bounds hc
  ext id
  simp [bit_headerMap hc]
  omega

theorem clearAt_eq : ∀ c : BitVec 8, ∀ k : Fin 8, clearAt c k = !c.getLsbD k := by
  decide +kernel

theorem first_block_clear : ∀ c : BitVec 8, c.toInt.tmod 2 = 0 ↔ c.getLsbD 0 = false := by
  decide +kernel

theorem char_lt_255 : ∀ c : BitVec 8, c.toInt < 255 := by
  decide +kernel

/-- The nested loops of `find_block` look for the first clear bit. -/
theorem nested_find (n : Nat) :
    ((List.range n).findSome? fun j => if (m j).toInt < 255 then
        ((List.range 8).find? (clearAt (m j))).map (j * 8 + ·) else none) =
      (List.range (n * 8)).find? (fun id => !bit m id) := by
  induction n with
  | zero => rfl
  | succ n ih =>
    have hsplit : List.range ((n + 1) * 8) =
        List.range (n * 8) ++ (List.range 8).map (n * 8 + ·) := by
      rw [Nat.add_mul, Nat.one_mul, List.range_add]
    rw [List.range_succ (n := n), List.findSome?_append, ih, hsplit, List.find?_append]
    congr 1
    rw [List.findSome?_singleton, if_pos (char_lt_255 _), List.find?_map]
    congr 1
    apply List.find?_congr
    intro k hk
    have hk8 : k < 8 := List.mem_range.mp hk
    have := clearAt_eq (m n) ⟨k, hk8⟩
    simp only [Function.comp, bit, show (n * 8 + k) / 8 = n by omega,
      show (n * 8 + k) % 8 = k by omega]
    exact this

/-- The early branch of `find_block`, for the two largest classes, only ever answers 1, and
only when the whole first char is clear. -/
theorem early_find (hc : cls ∈ blockSizes) (c : BitVec 8) :
    (if sbSize < cls * 8 then
      (List.range (sbSize / cls)).find? fun k => cNot c % 2 ^ k ≠ 0 else none) =
      if 1024 ≤ cls ∧ c = 0 then some 1 else none := by
  have hnone : ∀ n, (List.range n).find? (fun k => decide (0 % 2 ^ k ≠ 0)) = none := by
    intro n
    simp
  by_cases h0 : c = 0
  · subst h0
    rcases mem_blockSizes.mp hc with rfl | rfl | rfl | rfl | rfl | rfl | rfl | rfl | rfl <;> rfl
  · simp only [cNot, hnone, h0, and_false, if_false, ite_self]

theorem findBlock_eq (hc : cls ∈ blockSizes) :
    findBlock m cls = if 1024 ≤ cls ∧ m 0 = 0 then some 1
      else (List.range (max (blocks cls) 8)).find? (fun id => !bit m id) := by
  have hchars : (sbSize + cls * 8 - 1) / (cls * 8) * 8 = max (blocks cls) 8 := by
    rcases mem_blockSizes.mp hc with rfl | rfl | rfl | rfl | rfl | rfl | rfl | rfl | rfl <;> rfl
  unfold findBlock
  simp only [nested_find, early_find hc, hchars]
  by_cases h : 1024 ≤ cls ∧ m 0 = 0
  · simp only [if_pos h]
  · simp only [if_neg h]

/-- The map makes `find_block` pass over block 0. -/
def skipsFirst (m : Nat → BitVec 8) (cls : Nat) : Prop :=
  bit m 0 = true ∨ (1024 ≤ cls ∧ m 0 = 0)

theorem findBlock_clear (hc : cls ∈ blockSizes) (h : findBlock m cls = some id) :
    bit m id = false := by
  rw [findBlock_eq hc] at h
  split at h
  · next hz =>
    cases h
    simp [bit, hz.2]
  · simpa using List.find?_some h

/-- With a block of the superblock clear, `find_block` finds one of the superblock. -/
theorem findBlock_lt (hc : cls ∈ blockSizes) (hk : k < blocks cls) (hclear : bit m k = false)
    (h : findBlock m cls = some id) : id < blocks cls := by
  have hb := blocks_bounds hc
  rw [findBlock_eq hc] at h
  split at h
  · cases h
    omega
  · by_contra hge
    have := (List.find?_range_eq_some.mp h).2.2 k (by omega)
    simp [hclear] at this

theorem findBlock_isSome (hc : cls ∈ blockSizes) (hk : k < blocks cls)
    (hclear : bit m k = false) : (findBlock m cls).isSome := by
  rw [findBlock_eq hc]
  split
  · rfl
  · rw [List.find?_isSome]
    exact ⟨k, List.mem_range.mpr (by omega), by simp [hclear]⟩

theorem findBlock_ne_zero (hc : cls ∈ blockSizes) (hs : skipsFirst m cls)
    (h : findBlock m cls = some id) : id ≠ 0 := by
  rintro rfl
  rw [findBlock_eq hc] at h
  split at h
  · cases h
  · next hz =>
    rcases hs with hs | hs
    · have := List.find?_some h
      simp [hs] at this
    · exact hz hs

theorem findBlock_zero (hc : cls ∈ blockSizes) (hs : ¬ skipsFirst m cls) :
    findBlock m cls = some 0 := by
  rw [skipsFirst, not_or] at hs
  rw [findBlock_eq hc, if_neg hs.2, List.find?_range_eq_some]
  exact ⟨by simpa using hs.1, by simp, by simp⟩

end Csc469.Alloc
