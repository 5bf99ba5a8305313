import Csc469.Alloc.SmallRuns

/-! When small requests are served outside the superblock headers. -/
namespace Csc469.Alloc

open Linked Bitmap Execution

variable {n cpu sz id i k : Nat} {s t u : State} {S : Finset Nat} {c d : Config} {e : Event}
  {L : Bin → List Nat} {a p sb : Nat} {live : List Nat} {useFirst : Bool} {m : Nat → BitVec 8}
  {run : List (Event × Config)}

/-- The `sz` bytes at `p` lie in its superblock, behind the header. -/
def BehindHeader (p sz : Nat) : Prop :=
  pageOf p + sizeofSuperblock ≤ p ∧ p + sz ≤ pageOf p + sbSize

def Event.HeaderSafe : Event → Prop
  | .malloc _ sz (some p) => BehindHeader p sz
  | _ => True

/-- The call cannot be given block 0 of a superblock whose header lies in that block: no new
superblock for a request of 129 to 512 bytes, and no superblock for one of 921 to 1024 bytes
in which other blocks but not block 0 are taken. -/
def FirstBlockKept (n : Nat) (s : State) : Event → Prop
  | .malloc cpu sz _ =>
    (128 < sz ∧ sz ≤ 512 → s.dsegHi + pgSize > s.dsegLo + s.dsegSize) ∧
    (920 < sz ∧ sz ≤ 1024 →
      (∃ a ∈ superblocks n s, (s.superblock a).heapId = cpu + 1 ∧
        (s.superblock a).blockSize = 1024 ∧ (s.superblock a).usedBlocks = 3 ∧
        bit (s.superblock a).blockMap 0 = true) ∨
      ∀ a, (s.bin ⟨cpu + 1, 7, 3⟩).or (s.bin ⟨cpu + 1, 7, 2⟩) = some a →
        bit (s.superblock a).blockMap 0 = true)
  | .free _ => True

/-- A block handed out is behind the header unless it is block 0 of one of the larger classes,
given out by `find_block`. -/
theorem Given.behind_iff (hg : Given n s t live sz sb useFirst m p) (hsz : sz ≤ 2048) :
    BehindHeader p sz ↔
      useFirst = true ∨ sizeClass sz ≤ 128 ∨ skipsFirst m (sizeClass sz) := by
  obtain ⟨u, id, rfl, hd⟩ := hg.handed
  have hmem := sizeClass_mem hsz
  have hle := le_sizeClass hsz
  obtain ⟨hpage, hpid⟩ := hd.page hg.aligned hsz
  have hmul := blocks_mul hmem
  have hlt := hd.lt
  have hge := hd.ge
  have hfound := hd.found
  rw [BehindHeader, hpage]
  cases useFirst with
  | true =>
    obtain ⟨rfl, rfl, hfit⟩ := by simpa using hfound
    have hb := blocks_bounds hmem
    simp only [sbSize] at *
    simp only [true_or, iff_true]
    omega
  | false =>
    obtain ⟨hfind, rfl⟩ := by simpa using hfound
    have hend : id * sizeClass sz + sz ≤ 4096 := by
      have : (id + 1) * sizeClass sz ≤ blocks (sizeClass sz) * sizeClass sz :=
        Nat.mul_le_mul_right _ hlt
      rw [hmul, Nat.succ_mul] at this
      omega
    have hstart : sizeofSuperblock ≤ id * sizeClass sz ↔
        sizeClass sz ≤ 128 ∨ skipsFirst (u.superblock sb).blockMap (sizeClass sz) := by
      by_cases hsmall : sizeClass sz ≤ 128
      · simp only [hsmall, true_or, iff_true]
        refine le_trans ?_ (Nat.mul_le_mul_right _ hge)
        rcases mem_blockSizes.mp hmem with h | h | h | h | h | h | h | h | h <;>
          rw [h] at hsmall ⊢ <;> revert hsmall <;> decide
      · simp only [hsmall, false_or]
        constructor
        · intro h
          by_contra hs
          rw [findBlock_zero hmem hs] at hfind
          cases hfind
          simp [sizeofSuperblock] at h
        · intro hs
          have h0 := findBlock_ne_zero hmem hs hfind
          have : 1 * sizeClass sz ≤ id * sizeClass sz := Nat.mul_le_mul_right _ (by omega)
          simp only [sizeofSuperblock]
          have := mem_blockSizes.mp hmem
          omega
    rw [← hstart]
    simp only [sbSize, Bool.false_eq_true, false_or]
    omega

theorem blocks_le_four (hk : k ∈ blockSizes) (hbig : 1024 ≤ k) : blocks k ≤ 4 := by
  rcases mem_blockSizes.mp hk with rfl | rfl | rfl | rfl | rfl | rfl | rfl | rfl | rfl <;>
    revert hbig <;> decide

/-- Where block 0 is bigger than the header, the first char is clear only when all is. -/
theorem Books.first_char_iff (hc : Books n s S live) (ha : a ∈ S)
    (hcls : 1024 ≤ (s.superblock a).blockSize) :
    (s.superblock a).blockMap 0 = 0 ↔ (s.superblock a).usedBlocks = 0 := by
  have hok := hc.blocksOk a ha
  have hb := blocks_bounds hok.cls
  have hfew := blocks_le_four hok.cls hcls
  constructor
  · intro h0
    have hnone : ones (s.superblock a).blockMap 512 = ∅ := by
      rw [Finset.eq_empty_iff_forall_notMem]
      intro i hi
      rw [mem_ones] at hi
      have hlt := hc.lt_of_set ha hi.1 hi.2
      have hbit := hi.2
      rw [bit, Nat.div_eq_of_lt (by omega), h0] at hbit
      simp at hbit
    rw [hok.used, hnone]
    rfl
  · intro h0
    have hcard : (ones (s.superblock a).blockMap 512).card = 0 := by
      have := hok.used
      omega
    rw [Finset.card_eq_zero] at hcard
    apply BitVec.eq_of_getLsbD_eq
    intro i hi
    have hout : i ∉ ones (s.superblock a).blockMap 512 := by simp [hcard]
    rw [mem_ones, not_and] at hout
    have hbit := hout (by omega)
    rw [bit, Nat.div_eq_of_lt hi, Nat.mod_eq_of_lt hi] at hbit
    simpa using hbit

theorem Books.skipsFirst_iff (hc : Books n s S live) (ha : a ∈ S)
    (hcls : (s.superblock a).blockSize = k) (hk : 1024 ≤ k) :
    skipsFirst (s.superblock a).blockMap k ↔
      bit (s.superblock a).blockMap 0 = true ∨ (s.superblock a).usedBlocks = 0 := by
  rw [skipsFirst, hc.first_char_iff ha (hcls ▸ hk)]
  simp [hk]

/-- What comes from the global heap or from `mem_sbrk` is empty, in the two largest classes. -/
theorem supply_skips (hi : SmallInv n s live L) (hsz : sz ≤ 2048) (hbig : 512 < sz)
    (hs : supply s sz = some (sb, m)) : skipsFirst m (sizeClass sz) := by
  have hcls := sizeClass_cases hsz
  have hk : 1024 ≤ sizeClass sz := by omega
  simp only [supply] at hs
  split at hs
  · next hb =>
    cases hs
    obtain ⟨ha, hbin⟩ := hi.shelved.of_bin (o := ⟨0, sizeId sz, 1⟩) (Nat.zero_le n) hb
    have hlt := blockSize_of_bin hi.shelved.toBooks ha hsz hbin
    rw [hi.shelved.skipsFirst_iff ha hlt hk]
    obtain ⟨hu0, -⟩ := hi.shelved.used_bounds ha
    simp only [binOf, Bin.mk.injEq, fullness_eq hu0, hlt] at hbin
    have hb2 := (blocks_bounds (sizeClass_mem hsz)).2.2.1
    have hq := (Nat.div_eq_zero_iff_lt (by omega)).mp (Nat.succ.inj hbin.2.2)
    have hfew := blocks_le_four (sizeClass_mem hsz) hk
    right
    omega
  · split at hs
    · cases hs
    · cases hs
      have hno : ¬sizeClass sz < sizeofSuperblock * 2 := by
        simp only [sizeofSuperblock]
        omega
      exact .inr ⟨hk, by simp [headerMap, hno]⟩

/-- No superblock has blocks of 256 or 512 bytes: its block 0 would have been given out. -/
def NoMiddle (n : Nat) (s : State) : Prop :=
  ∀ a ∈ superblocks n s, (s.superblock a).blockSize ≠ 256 ∧ (s.superblock a).blockSize ≠ 512

theorem NoMiddle.same (hno : NoMiddle n s) (hk : SameSizes s t) : NoMiddle n t := by
  intro a ha
  rw [superblocks_congr hk.dsegLo hk.dsegHi] at ha
  rw [hk.size]
  exact hno a ha

theorem NoMiddle.kept (hno : NoMiddle n s) (hk : SizesKept n sz s t)
    (hsz : sizeClass sz ≠ 256 ∧ sizeClass sz ≠ 512) : NoMiddle n t := by
  intro a ha
  by_cases has : a ∈ superblocks n s
  · rw [(hk.old a has).2]
    exact hno a has
  · rw [hk.new a ha has]
    exact hsz

/-- For 129 to 512 bytes there is nothing but new superblocks. -/
theorem source_middle (hi : SmallInv n s live L) (hno : NoMiddle n s) (hcpu : cpu < n)
    (hlo : 128 < sz) (hhi : sz ≤ 512) :
    source s L cpu sz = if s.dsegHi + pgSize > s.dsegLo + s.dsegSize then none
      else some (s.dsegHi + 1, false, headerMap (sizeClass sz)) := by
  have hsz : sz ≤ 2048 := by omega
  have hcls := sizeClass_cases hsz
  have hnone : ∀ h ≤ n, ∀ a j, a ∈ superblocks n s →
      binOf (s.superblock a) ≠ ⟨h, sizeId sz, j⟩ := by
    intro h hh a j ha hb
    have hsize := blockSize_of_bin hi.shelved.toBooks ha hsz hb
    have := hno a ha
    omega
  have hhit : hit s L (cpu + 1) sz = none := by
    cases hh : hit s L (cpu + 1) sz with
    | none => rfl
    | some x =>
      obtain ⟨ha, hb, -⟩ := hi.shelved.of_hit hcpu hh
      exact (hnone _ hcpu _ _ ha hb).elim
  have hbin : s.bin ⟨0, sizeId sz, 1⟩ = none := by
    cases hb : s.bin ⟨0, sizeId sz, 1⟩ with
    | none => rfl
    | some a =>
      obtain ⟨ha, hb⟩ := hi.shelved.of_bin (o := ⟨0, sizeId sz, 1⟩) (Nat.zero_le n) hb
      exact (hnone 0 (Nat.zero_le n) _ _ ha hb).elim
  simp only [source, hhit, supply, hbin]
  split <;> rfl

theorem not_skips_middle (hlo : 128 < sz) (hhi : sz ≤ 512) :
    ¬skipsFirst (headerMap (sizeClass sz)) (sizeClass sz) := by
  have hsz : sz ≤ 2048 := by omega
  have hcls := sizeClass_cases hsz
  have hused : blocksUsed (sizeClass sz) = 0 := by
    rw [blocksUsed, if_neg]
    simp only [sizeofSuperblock]
    omega
  rw [skipsFirst, bit_headerMap (sizeClass_mem hsz), hused]
  simp
  omega

/-- A superblock of one of the two largest classes that the search takes with `sz` bytes that
fit behind its header, or with no more than one block left to it. -/
theorem hit_skips (hi : SmallInv n s live L) (hcpu : cpu < n) (hsz : sz ≤ 2048)
    (hbig : 512 < sz) (hout : sz ≤ 920 ∨ 1024 < sz)
    (hh : hit s L (cpu + 1) sz = some (sb, useFirst, i)) :
    useFirst = true ∨ skipsFirst (s.superblock sb).blockMap (sizeClass sz) := by
  obtain ⟨ha, hb, htry⟩ := hi.shelved.of_hit hcpu hh
  have hsize := blockSize_of_bin hi.shelved.toBooks ha hsz hb
  have hcls := sizeClass_cases hsz
  obtain ⟨hu0, hun⟩ := hi.shelved.used_bounds ha
  have hfew := blocks_le_four (sizeClass_mem hsz) (by omega)
  rw [hsize] at hun
  rw [hi.shelved.skipsFirst_iff ha hsize (by omega)]
  have hheader : sizeofSuperblock ≤ sizeClass sz := by
    simp only [sizeofSuperblock]
    omega
  rw [tryBlock_eq hsz hu0 (by omega) fun _ => hheader] at htry
  split at htry
  · next hset => exact .inr (.inl hset)
  · split at htry
    · cases htry
      exact .inl rfl
    · next hfit =>
      split at htry
      · next hlt =>
        have hc : sizeClass sz = 2048 := by
          simp only [sizeofSuperblock] at hfit
          omega
        rw [hc] at hlt
        have : blocks 2048 = 2 := rfl
        exact .inr (.inr (by omega))
      · cases htry

/-- The bins of the 1024-byte class hold superblocks by their number of used blocks. -/
theorem SmallInv.mem_bin_1024 (hi : SmallInv n s live L) (hcpu : cpu < n) :
    a ∈ L ⟨cpu + 1, 7, i⟩ ↔ a ∈ superblocks n s ∧ (s.superblock a).heapId = cpu + 1 ∧
      (s.superblock a).blockSize = 1024 ∧ (s.superblock a).usedBlocks + 1 = i := by
  rw [hi.shelved.mem_list (o := ⟨cpu + 1, 7, i⟩) hcpu, binOf, Bin.mk.injEq]
  refine and_congr_right fun ha => and_congr_right fun _ => ?_
  have hmem := (hi.blocksOk a ha).cls
  have hsize : sizeId (s.superblock a).blockSize = 7 ↔ (s.superblock a).blockSize = 1024 :=
    ⟨fun h => sizeId_inj hmem (by simp [blockSizes]) h, fun h => by rw [h]; rfl⟩
  rw [hsize]
  refine and_congr_right fun hb => ?_
  obtain ⟨hu0, -⟩ := hi.shelved.used_bounds ha
  rw [hb, fullness_eq hu0, show blocks 1024 = 4 from rfl, Nat.mul_div_cancel_left _ (by omega)]
  omega

theorem sizeClass_1024 (hlo : 920 < sz) (hhi : sz ≤ 1024) : sizeClass sz = 1024 := by
  have := sizeClass_cases (show sz ≤ 2048 by omega)
  omega

/-- Behind its header such a superblock has no room for them in block 0, which is then kept back
from the search. -/
theorem SmallInv.tryBlock_1024 (hi : SmallInv n s live L) (hcpu : cpu < n) (hlo : 920 < sz)
    (hhi : sz ≤ 1024) (ha : a ∈ L ⟨cpu + 1, 7, i⟩) (hi4 : i ≤ 4) :
    tryBlock sz 1024 (s.superblock a) =
      if bit (s.superblock a).blockMap 0 = true then some false
      else if i < 4 then some false else none := by
  have hcl := sizeClass_1024 hlo hhi
  obtain ⟨haS, -, hsize, hu⟩ := (hi.mem_bin_1024 hcpu).mp ha
  obtain ⟨hu0, -⟩ := hi.shelved.used_bounds haS
  have hlt : (s.superblock a).usedBlocks < 4 := by omega
  have hlt' : (s.superblock a).usedBlocks + 1 < 4 ↔ i < 4 := by omega
  have hfit : ¬sz + sizeofSuperblock ≤ 1024 := by
    simp only [sizeofSuperblock]
    omega
  have hheader : sizeofSuperblock ≤ sizeClass sz := by
    rw [hcl]
    decide
  rw [← hcl, tryBlock_eq (by omega) hu0 (by omega) fun _ => hheader, hcl,
    show ((blocks 1024 : Nat) : Int) = 4 from rfl]
  simp only [hlt, hlt', hfit, if_true, if_false]

theorem SmallInv.skips_1024 (hi : SmallInv n s live L) (hcpu : cpu < n)
    (ha : a ∈ L ⟨cpu + 1, 7, i⟩) : skipsFirst (s.superblock a).blockMap 1024 ↔
      bit (s.superblock a).blockMap 0 = true ∨ i = 1 := by
  obtain ⟨haS, -, hsize, hu⟩ := (hi.mem_bin_1024 hcpu).mp ha
  rw [hi.shelved.skipsFirst_iff haS hsize (by omega)]
  exact or_congr_right (by omega)

/-- The search for 921 to 1024 bytes: the first superblock with three blocks taken, block 0
among them; else the first with two, one or none. -/
theorem hit_1024 (hi : SmallInv n s live L) (hcpu : cpu < n) (hlo : 920 < sz) (hhi : sz ≤ 1024) :
    (∃ x ∈ L ⟨cpu + 1, 7, 4⟩, bit (s.superblock x).blockMap 0 = true ∧
      hit s L (cpu + 1) sz = some (x, false, 4)) ∨
    ((∀ x ∈ L ⟨cpu + 1, 7, 4⟩, bit (s.superblock x).blockMap 0 = false) ∧
      hit s L (cpu + 1) sz =
        ((s.bin ⟨cpu + 1, 7, 3⟩).map (·, false, 3)).or
          (((s.bin ⟨cpu + 1, 7, 2⟩).map (·, false, 2)).or
            ((s.bin ⟨cpu + 1, 7, 1⟩).map (·, false, 1)))) := by
  have hsz : sz ≤ 2048 := by omega
  have hcl := sizeClass_1024 hlo hhi
  have hid : sizeId sz = 7 := by
    have := sizeId_cases hsz
    omega
  have hall : ∀ i < 4, firstHit (fun a => some (s.superblock a)) (tryBlock sz 1024)
      (L ⟨cpu + 1, 7, i⟩) = (s.bin ⟨cpu + 1, 7, i⟩).map (·, false) := by
    intro i hi4
    rw [hi.shelved.bin_eq (o := ⟨cpu + 1, 7, i⟩) hcpu]
    refine firstHit_all fun a ha => ?_
    rw [Option.bind_some, hi.tryBlock_1024 hcpu hlo hhi ha (by omega)]
    simp [hi4]
  have hempty := hi.shelved.empty_bin (h := cpu + 1) hcpu 7
  have hhit : hit s L (cpu + 1) sz = ((firstHit (fun a => some (s.superblock a))
      (tryBlock sz 1024) (L ⟨cpu + 1, 7, 4⟩)).map fun x => (x.1, x.2, 4)).or
        (((s.bin ⟨cpu + 1, 7, 3⟩).map (·, false, 3)).or
          (((s.bin ⟨cpu + 1, 7, 2⟩).map (·, false, 2)).or
            ((s.bin ⟨cpu + 1, 7, 1⟩).map (·, false, 1)))) := by
    simp only [hit, hid, hcl, List.findSome?_cons, List.findSome?_nil, hall 3 (by omega),
      hall 2 (by omega), hall 1 (by omega), hall 0 (by omega), hempty]
    cases firstHit (fun a => some (s.superblock a)) (tryBlock sz 1024) (L ⟨cpu + 1, 7, 4⟩) <;>
      cases s.bin ⟨cpu + 1, 7, 3⟩ <;> cases s.bin ⟨cpu + 1, 7, 2⟩ <;>
      cases s.bin ⟨cpu + 1, 7, 1⟩ <;> rfl
  cases hf : firstHit (fun a => some (s.superblock a)) (tryBlock sz 1024)
      (L ⟨cpu + 1, 7, 4⟩) with
  | none =>
    right
    refine ⟨fun x hx => ?_, by rw [hhit, hf]; rfl⟩
    have hnone := firstHit_eq_none_iff.mp hf x hx
    rw [Option.bind_some, hi.tryBlock_1024 hcpu hlo hhi hx (by omega)] at hnone
    simpa using hnone
  | some x =>
    left
    obtain ⟨x, u⟩ := x
    obtain ⟨hx, hu⟩ := mem_of_firstHit hf
    rw [Option.bind_some, hi.tryBlock_1024 hcpu hlo hhi hx (by omega)] at hu
    by_cases hset : bit (s.superblock x).blockMap 0 = true
    · rw [if_pos hset] at hu
      cases hu
      exact ⟨x, hx, hset, by rw [hhit, hf]; rfl⟩
    · simp [hset] at hu

theorem source_1024 (hi : SmallInv n s live L) (hcpu : cpu < n) (hlo : 920 < sz)
    (hhi : sz ≤ 1024) {r : Option Nat} :
    (∀ sb u m, source s L cpu sz = some (sb, u, m) → u = true ∨ skipsFirst m 1024) ↔
      FirstBlockKept n s (.malloc cpu sz r) := by
  have hvac : ¬(128 < sz ∧ sz ≤ 512) := by omega
  have hin : 920 < sz ∧ sz ≤ 1024 := ⟨hlo, hhi⟩
  simp only [FirstBlockKept, hvac, hin, false_implies, true_and, true_implies, and_self]
  have hhead : ∀ {x i}, s.bin ⟨cpu + 1, 7, i⟩ = some x → x ∈ L ⟨cpu + 1, 7, i⟩ := by
    intro x i hb
    exact List.mem_of_head? ((hi.shelved.bin_eq (o := ⟨cpu + 1, 7, i⟩) hcpu).symm.trans hb)
  rcases hit_1024 hi hcpu hlo hhi with ⟨x, hx, hset, hh⟩ | ⟨hclear, hh⟩
  · obtain ⟨hxS, hheap, hsize, hu⟩ := (hi.mem_bin_1024 hcpu).mp hx
    refine iff_of_true ?_ (.inl ⟨x, hxS, hheap, hsize, by omega, hset⟩)
    intro sb u m hs
    simp only [source, hh] at hs
    cases hs
    exact .inr (.inl hset)
  · have hnot : ¬∃ a ∈ superblocks n s, (s.superblock a).heapId = cpu + 1 ∧
        (s.superblock a).blockSize = 1024 ∧ (s.superblock a).usedBlocks = 3 ∧
        bit (s.superblock a).blockMap 0 = true := by
      rintro ⟨a, haS, hheap, hsize, hu, hset⟩
      have ha := (hi.mem_bin_1024 (i := 4) hcpu).mpr ⟨haS, hheap, hsize, by omega⟩
      rw [hclear a ha] at hset
      cases hset
    rw [or_iff_right hnot]
    cases hb3 : s.bin ⟨cpu + 1, 7, 3⟩ with
    | some x =>
      simp only [source, hh, hb3, Option.map_some, Option.some_or]
      simpa using hi.skips_1024 hcpu (hhead hb3)
    | none =>
      cases hb2 : s.bin ⟨cpu + 1, 7, 2⟩ with
      | some x =>
        simp only [source, hh, hb3, hb2, Option.map_some, Option.map_none, Option.none_or,
          Option.some_or]
        simpa using hi.skips_1024 hcpu (hhead hb2)
      | none =>
        refine iff_of_true ?_ (by simp)
        intro sb u m hs
        cases hb1 : s.bin ⟨cpu + 1, 7, 1⟩ with
        | some x =>
          simp only [source, hh, hb3, hb2, hb1, Option.map_some, Option.map_none,
            Option.none_or] at hs
          cases hs
          exact .inr ((hi.skips_1024 hcpu (hhead hb1)).mpr (.inr rfl))
        | none =>
          simp only [source, hh, hb3, hb2, hb1, Option.map_none, Option.none_or] at hs
          obtain ⟨⟨x, m'⟩, hsup, he⟩ := Option.map_eq_some_iff.mp hs
          cases he
          rw [← sizeClass_1024 hlo hhi]
          exact .inr (supply_skips hi (by omega) (by omega) hsup)

/-- Whatever the class, block 0 is kept back exactly when the source of the block skips it. -/
theorem source_skips_iff (hi : SmallInv n s live L) (hno : NoMiddle n s) (hcpu : cpu < n)
    (hsz : sz ≤ 2048) {r : Option Nat} :
    (∀ sb u m, source s L cpu sz = some (sb, u, m) →
      u = true ∨ sizeClass sz ≤ 128 ∨ skipsFirst m (sizeClass sz)) ↔
      FirstBlockKept n s (.malloc cpu sz r) := by
  have hcls := sizeClass_cases hsz
  rcases Nat.lt_or_ge 128 sz with hlo | hsmall
  swap
  · -- the header takes whole blocks
    refine iff_of_true (fun _ _ _ _ => .inr (.inl (by omega))) ?_
    exact ⟨fun h => by omega, fun h => by omega⟩
  have hbig : ¬sizeClass sz ≤ 128 := by omega
  rcases Nat.lt_or_ge 512 sz with hlo' | hhi
  swap
  · have hin : 128 < sz ∧ sz ≤ 512 := ⟨hlo, hhi⟩
    have hvac : ¬(920 < sz ∧ sz ≤ 1024) := by omega
    simp only [FirstBlockKept, hin, hvac, false_implies, and_true, true_implies,
      source_middle hi hno hcpu hlo hhi]
    split
    · next hroom => simp [hroom]
    · next hroom => simp [hroom, hbig, not_skips_middle hlo hhi]
  by_cases hin : 920 < sz ∧ sz ≤ 1024
  · have hcl : sizeClass sz = 1024 := by omega
    rw [← source_1024 hi hcpu hin.1 hin.2, hcl]
    simp
  · refine iff_of_true ?_ ⟨fun h => by omega, fun h => (hin h).elim⟩
    intro sb u m hs
    simp only [source] at hs
    split at hs
    · next hh =>
      cases hs
      rcases hit_skips hi hcpu hsz hlo' (by omega) hh with hu | hskip
      · exact .inl hu
      · exact .inr (.inr hskip)
    · obtain ⟨⟨x, m'⟩, hsup, he⟩ := Option.map_eq_some_iff.mp hs
      cases he
      exact .inr (.inr (supply_skips hi hsz hlo' hsup))

/-- A small request is served behind the header exactly when block 0 is kept back. -/
theorem mallocSmall_safe_iff (hi : SmallInv n s live L) (hno : NoMiddle n s) (hcpu : cpu < n)
    (hsz : sz ≤ 2048) {r : Option Nat} (hm : mallocSmall s cpu sz = .ok (t, r)) :
    ((Event.malloc cpu sz r).HeaderSafe ↔ FirstBlockKept n s (.malloc cpu sz r)) ∧
      (FirstBlockKept n s (.malloc cpu sz r) → NoMiddle n t) := by
  have hsrc := source_skips_iff hi hno hcpu hsz (r := r)
  rcases mallocSmall_spec hi hsz hcpu hm with ⟨rfl, hnone, _, hk⟩ | ⟨p, sb, u, m, rfl, hsome, hg⟩
  · constructor
    · rw [← hsrc, hnone]
      simp [Event.HeaderSafe]
    · exact fun _ => hno.same hk
  · have hiff : (Event.malloc cpu sz (some p)).HeaderSafe ↔
        FirstBlockKept n s (.malloc cpu sz (some p)) := by
      rw [← hsrc, Event.HeaderSafe, hg.behind_iff hsz, hsome]
      simp
    refine ⟨hiff, fun hkept => hno.kept hg.sizes ?_⟩
    have hcls := sizeClass_cases hsz
    by_cases hmid : 128 < sz ∧ sz ≤ 512
    · have hroom := hkept.1 hmid
      rw [source_middle hi hno hcpu hmid.1 hmid.2, if_pos hroom] at hsome
      cases hsome
    · omega

/-- The invariant of runs that have kept block 0 back so far. -/
def KeptBack (n : Nat) (c : Config) : Prop := SmallOk n c ∧ NoMiddle n c.state

theorem keptBack_step (hc : KeptBack n c) (hs : SmallStep n c e d) :
    (e.HeaderSafe ↔ FirstBlockKept n c.state e) ∧ (FirstBlockKept n c.state e → KeptBack n d) := by
  have hok := smallOk_step hc.1 hs
  obtain ⟨⟨L, hi⟩, hno⟩ := hc
  obtain ⟨hstep, hsmall⟩ := hs
  cases hstep with
  | malloc hcpu hsz hm =>
    rw [mmMalloc_small hsmall] at hm
    obtain ⟨hiff, hkeep⟩ := mallocSmall_safe_iff hi hno hcpu hsmall hm
    exact ⟨hiff, fun hk => ⟨hok, hkeep hk⟩⟩
  | free hp hf =>
    rw [hi.mmFree_eq hp] at hf
    have hk := (freeSmall_spec hi hp hf).2
    exact ⟨Iff.rfl, fun _ => ⟨hok, hno.same hk⟩⟩

/-- In a run of small requests every block handed out lies behind its superblock's header
exactly when every request keeps block 0 back. -/
theorem headers_safe_iff (hc : Started n c) (hr : Along (SmallStep n) c run) :
    Along (fun _ e _ => e.HeaderSafe) c run ↔ Along (fun c e _ => FirstBlockKept n c.state e) c run := by
  have hno : NoMiddle n c.state := by
    intro a ha
    have := (mem_superblocks.mp ha).1
    have := hc.fresh.hi
    omega
  exact along_iff (I := KeptBack n) (fun _ _ _ hk hs => keptBack_step hk hs)
    ⟨smallOk_started hc, hno⟩ hr

theorem headers_safe_iff_oneCpu :
    ∃ run, calls 1 oneCpu [.malloc 0 100, .malloc 0 1000, .free 16512] = .ok run ∧
      (Along (fun _ e _ => e.HeaderSafe) oneCpu run ↔
        Along (fun c e _ => FirstBlockKept 1 c.state e) oneCpu run) := by
  obtain ⟨run, hrun, -, hr⟩ := along_of_trace (P := Event.Small) (n := 1) (c := oneCpu)
    [.malloc 0 100, .malloc 0 1000, .free 16512]
    [.malloc 0 100 (some 16512), .malloc 0 1000 (some 21504), .free 16512]
    (by decide +kernel) (by simp [Event.Small, sbSize])
  exact ⟨run, hrun, headers_safe_iff oneCpu_started hr⟩

/-- The first request for 256 bytes is given the header of its new superblock. -/
theorem header_given_away : Started 1 oneCpu ∧ ∃ d,
    Along (SmallStep 1) oneCpu [(.malloc 0 256 (some 16384), d)] ∧
      ¬(Event.malloc 0 256 (some 16384)).HeaderSafe := by
  obtain ⟨⟨e, d⟩, hx, rfl⟩ := ok_of_map (c := call 1 oneCpu (.malloc 0 256)) (f := Prod.fst)
    (b := .malloc 0 256 (some 16384)) (by decide +kernel)
  refine ⟨oneCpu_started, d, ⟨⟨call_step hx, ?_⟩, trivial⟩, ?_⟩
  · simp [Event.Small, sbSize]
  · simp [Event.HeaderSafe, BehindHeader, pageOf, pgSize, sizeofSuperblock]

end Csc469.Alloc
