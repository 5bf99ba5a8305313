import Csc469.Alloc.SmallFree

/-! The emptiness threshold: which superblock `mm_free` hands back, and when one is enough. -/
namespace Csc469.Alloc

open Execution Linked Bitmap

variable {n h : Nat} {s t : State} {c d : Config} {p : Nat} {L : Bin → List Nat}

/-- A heap that has become too empty has a superblock in bin 1 of some class, and `mm_free`, if it
gets the lock, moves it: less than a quarter of its blocks are in use. -/
theorem handBack_candidate (hc : Started n c) (hr : Reaches (SmallStep n) c d) (hp : p ∈ d.live)
    (hh : (d.state.superblock (pageOf p)).heapId = h) (hlow : TooEmpty (released d.state p) h) :
    ∃ sb i, handBack (released d.state p) h = some (sb, ⟨h, i, 1⟩) ∧
      (released d.state p).bin ⟨h, i, 1⟩ = some sb ∧
      ((released d.state p).superblock sb).heapId = h ∧
      4 * ((released d.state p).superblock sb).usedBlocks <
        blocks ((released d.state p).superblock sb).blockSize ∧
      mmFree d.state p = if (d.state.heapTable h).lock then .error .blocked
        else .ok (unlockHeap (transferBins (released d.state p) sb ⟨h, i, 1⟩ ⟨0, i, 1⟩) h) := by
  subst hh
  obtain ⟨L, hi⟩ := smallOk_reaches hc hr
  obtain ⟨L', hrel⟩ := hi.shelved.released hp
  have hle : (d.state.superblock (pageOf p)).heapId ≤ n :=
    hi.placed.le _ (hi.live.page p hp)
  obtain ⟨sb, i, hb, hbin, -, hheap, hquarter⟩ := hrel.candidate hle hlow
  refine ⟨sb, i, hb, hbin, hheap, hquarter, ?_⟩
  rw [hi.mmFree_eq hp]
  split
  · next hlock => rw [freeSmall, lockHeap, if_pos hlock]; rfl
  · next hlock =>
    rw [Bool.not_eq_true] at hlock
    rw [freeSmall_released hlock, trimHeap_empty hlow hb]

instance : Decidable (TooEmpty s h) := inferInstanceAs (Decidable (_ ∧ _))

/-- One block of each of the smaller classes and seven of the largest, two of them freed. -/
def halfEmpty : List Op :=
  [.malloc 0 8, .malloc 0 16, .malloc 0 32, .malloc 0 64, .malloc 0 128, .malloc 0 256,
    .malloc 0 512, .malloc 0 1024, .malloc 0 1900, .malloc 0 1900, .malloc 0 1900, .malloc 0 1900,
    .malloc 0 1900, .malloc 0 1900, .malloc 0 1900, .free 51200, .free 55296]

theorem halfEmpty_small : ∀ op ∈ halfEmpty, op.Small := by decide

theorem handBack_candidate_oneCpu : ∃ d, Reaches (SmallStep 1) oneCpu d ∧
    TooEmpty (released d.state 59392) 1 ∧
    ∃ sb i, handBack (released d.state 59392) 1 = some (sb, ⟨1, i, 1⟩) ∧
      (released d.state 59392).bin ⟨1, i, 1⟩ = some sb ∧
      ((released d.state 59392).superblock sb).heapId = 1 ∧
      4 * ((released d.state 59392).superblock sb).usedBlocks <
        blocks ((released d.state 59392).superblock sb).blockSize ∧
      mmFree d.state 59392 = if (d.state.heapTable 1).lock then .error .blocked
        else .ok (unlockHeap (transferBins (released d.state 59392) sb ⟨1, i, 1⟩ ⟨0, i, 1⟩) 1) := by
  obtain ⟨run, hrun, hlast⟩ := ok_of_map (c := calls 1 oneCpu halfEmpty)
    (f := fun run => decide (59392 ∈ (lastState oneCpu run).live ∧
      ((lastState oneCpu run).state.superblock (pageOf 59392)).heapId = 1 ∧
      TooEmpty (released (lastState oneCpu run).state 59392) 1)) (b := true) (by decide +kernel)
  obtain ⟨hp, hh, hlow⟩ := of_decide_eq_true hlast
  have hr := (calls_small hrun halfEmpty_small).reaches_last
  exact ⟨_, hr, hlow, handBack_candidate oneCpu_started hr hp hh hlow⟩

/-! One superblock, or none. -/

/-- A quarter of what the heap holds is in use, or all but eight superblocks of it. -/
def Balanced (s : State) (h : Nat) : Prop :=
  (s.heapTable h).allocated.tdiv fullnessDenominator ≤ (s.heapTable h).used ∨
    (s.heapTable h).allocated - minSuperblocks * sbSize ≤ (s.heapTable h).used

/-- Superblock `sb` of heap `h` has gone to the global heap, and no other has moved. -/
structure OnlyMoved (s t : State) (h sb : Nat) : Prop where
  before : (s.superblock sb).heapId = h
  after : (t.superblock sb).heapId = 0
  other : ∀ a, a ≠ sb → (t.superblock a).heapId = (s.superblock a).heapId

/-- Heap `h` after the free of a block of `b` bytes: balanced with no superblock moved, or one
has been moved, of which `w` bytes are in use. Then the heap is balanced when `b + w` is at most
a quarter of a superblock, or when all but eight superblocks were in use before. Else the block
counts for what it may lack. -/
def BalanceKept (s t : State) (h b : Nat) : Prop :=
  (∀ a, (t.superblock a).heapId = (s.superblock a).heapId) ∧ Balanced t h ∨
  ∃ sb, OnlyMoved s t h sb ∧ usedBytes (t.superblock sb) < 1024 ∧
    (b + usedBytes (t.superblock sb) ≤ 1024 ∨
      (s.heapTable h).allocated - minSuperblocks * sbSize ≤ (s.heapTable h).used →
        Balanced t h) ∧
    (Balanced t h ∨
      (t.heapTable h).allocated.tdiv fullnessDenominator ≤ (t.heapTable h).used + b)

instance : Decidable (Balanced s h) := inferInstanceAs (Decidable (_ ∨ _))

theorem tdiv_allocated {k : Int} : (sbSize * k).tdiv fullnessDenominator = 1024 * k := by
  have hfour : (sbSize : Int) * k = fullnessDenominator * (1024 * k) := by
    simp only [sbSize, fullnessDenominator]
    push_cast
    ring
  rw [hfour]
  exact Int.mul_tdiv_cancel_left _ (by decide)

/-- A superblock that is less than a quarter full. -/
theorem usedBytes_lt {b : Superblock} (hcls : b.blockSize ∈ blockSizes)
    (hquarter : 4 * b.usedBlocks < blocks b.blockSize) : usedBytes b < 1024 := by
  have hmul : ((blocks b.blockSize : Nat) : Int) * b.blockSize = 4096 := by
    exact_mod_cast blocks_mul hcls
  have hpos : (8 : Int) ≤ b.blockSize := by
    exact_mod_cast (blocks_bounds hcls).1
  rw [usedBytes]
  nlinarith

theorem Freed.onlyMoved {S : Finset Nat} {sb : Nat} (hf : Freed S s t p)
    (hm : Moves s (pageOf p) sb) : OnlyMoved s t (s.superblock (pageOf p)).heapId sb := by
  obtain ⟨-, hafter, hbefore, -⟩ := hf.moved sb hm
  refine ⟨hbefore, hafter, fun a ha => hf.kept a fun hma => ha (hma.unique hm)⟩

/-- The arithmetic of one free and one transfer: `k` superblocks before, `b` bytes freed, `w`
moved. -/
theorem balanced_after {k used b w : Int} (hb : b ≤ 2048) (hw : w < 1024)
    (hbal : 1024 * k ≤ used ∨ sbSize * k - minSuperblocks * sbSize ≤ used) :
    (b + w ≤ 1024 ∨ sbSize * k - minSuperblocks * sbSize ≤ used →
      1024 * (k - 1) ≤ used - b - w ∨
        sbSize * (k - 1) - minSuperblocks * sbSize ≤ used - b - w) ∧
    ((1024 * (k - 1) ≤ used - b - w ∨
        sbSize * (k - 1) - minSuperblocks * sbSize ≤ used - b - w) ∨
      1024 * (k - 1) ≤ used - b - w + b) := by
  simp only [sbSize, minSuperblocks] at *
  omega

/-- When `mm_free` returns, the heap of its block has lost one superblock at most, and is
balanced again, unless the block and what is in use of that superblock make up more than a quarter
of a superblock. -/
theorem balance_kept (hc : Started n c) (hr : Reaches (SmallStep n) c d) (hp : p ∈ d.live)
    (hh : (d.state.superblock (pageOf p)).heapId = h) (h0 : h ≠ 0) (hb : Balanced d.state h)
    (hf : mmFree d.state p = .ok t) :
    BalanceKept d.state t h (d.state.superblock (pageOf p)).blockSize := by
  subst hh
  obtain ⟨L, hi⟩ := smallOk_reaches hc hr
  rw [hi.mmFree_eq hp] at hf
  obtain ⟨u, hlocked, -⟩ := ok_of_bind hf
  have hlock := (lockHeap_ok hlocked).1
  obtain ⟨t', hf', hfreed⟩ := hi.shelved.freed hp hlock
  cases hf.symm.trans hf'
  by_cases hback : HandsBack d.state (pageOf p)
  · obtain ⟨sb, hm, hcount⟩ := hfreed.trimmed hback
    obtain ⟨hsb, -, -, hquarter⟩ := hfreed.moved sb hm
    have hcls := (hi.blocksOk _ (hi.live.page p hp)).cls
    have hw : usedBytes (t.superblock sb) < 1024 := by
      refine usedBytes_lt ?_ hquarter
      rw [(freeSmall_spec hi hp hf).2.size]
      exact (hi.blocksOk sb hsb).cls
    refine .inr ⟨sb, hfreed.onlyMoved hm, hw, ?_⟩
    obtain ⟨hused, hall⟩ := hcount
    obtain ⟨k, hk⟩ : ∃ k : Int, (d.state.heapTable (d.state.superblock (pageOf p)).heapId).allocated =
        sbSize * k := ⟨_, hi.binsExact.allocated _ (hi.placed.le _ (hi.live.page p hp))⟩
    have hk' : (t.heapTable (d.state.superblock (pageOf p)).heapId).allocated =
        sbSize * (k - 1) := by
      rw [hall, hk, Option.map_some, Option.getD_some]
      ring
    rw [Balanced, hk, tdiv_allocated] at hb
    simp only [Balanced, hk, hk', tdiv_allocated, hused, Option.map_some, Option.getD_some]
    exact balanced_after (by exact_mod_cast (blocks_bounds hcls).2.1) hw hb
  · left
    refine ⟨fun a => hfreed.kept a fun hm => hback hm.1, ?_⟩
    obtain ⟨hused, hall⟩ := hfreed.quiet hback
    rw [Balanced, hused, hall]
    simp only [HandsBack, hlock, true_and, not_and] at hback
    have hno := hback h0
    simp only [Option.map_none, Option.getD_none, Int.sub_zero]
    omega

theorem halfEmpty_run : ∃ d t, Reaches (SmallStep 1) oneCpu d ∧ 59392 ∈ d.live ∧
    (d.state.superblock (pageOf 59392)).heapId = 1 ∧ Balanced d.state 1 ∧
    mmFree d.state 59392 = .ok t ∧ ¬Balanced t 1 := by
  obtain ⟨run, hrun, hlast⟩ := ok_of_map (c := calls 1 oneCpu halfEmpty)
    (f := fun run => decide (59392 ∈ (lastState oneCpu run).live ∧
      ((lastState oneCpu run).state.superblock (pageOf 59392)).heapId = 1 ∧
      Balanced (lastState oneCpu run).state 1) &&
      (mmFree (lastState oneCpu run).state 59392).toOption.any fun t => !decide (Balanced t 1))
    (b := true) (by decide +kernel)
  rw [Bool.and_eq_true] at hlast
  obtain ⟨hp, hh, hb⟩ := of_decide_eq_true hlast.1
  have hr := (calls_small hrun halfEmpty_small).reaches_last
  cases hf : mmFree (lastState oneCpu run).state 59392 with
  | error e => simp [hf, Except.toOption] at hlast
  | ok t => exact ⟨_, t, hr, hp, hh, hb, hf, by simpa [hf, Except.toOption] using hlast.2⟩

theorem balance_kept_oneCpu : ∃ d t, Reaches (SmallStep 1) oneCpu d ∧
    mmFree d.state 59392 = .ok t ∧
    BalanceKept d.state t 1 (d.state.superblock (pageOf 59392)).blockSize := by
  obtain ⟨d, t, hr, hp, hh, hb, hf, -⟩ := halfEmpty_run
  exact ⟨d, t, hr, hf, balance_kept oneCpu_started hr hp hh (by decide) hb hf⟩

/-- Of a heap with 12880 bytes of 49152 in use, a block of 2048 is freed, and a superblock with 112
bytes in use goes: 10720 of 45056 are too few. -/
theorem one_not_enough : ∃ d t, Started 1 oneCpu ∧ Reaches (SmallStep 1) oneCpu d ∧
    59392 ∈ d.live ∧ (d.state.superblock (pageOf 59392)).heapId = 1 ∧ Balanced d.state 1 ∧
    mmFree d.state 59392 = .ok t ∧ ¬Balanced t 1 := by
  obtain ⟨d, t, hr, h⟩ := halfEmpty_run
  exact ⟨d, t, oneCpu_started, hr, h⟩

end Csc469.Alloc
