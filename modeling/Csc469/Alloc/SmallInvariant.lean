import Csc469.Alloc.Bins
import Csc469.Alloc.Runs
import Mathlib.Algebra.BigOperators.Group.Finset.Basic
import Mathlib.Order.Interval.Finset.Nat

/-! The invariant of small traffic: where each superblock is linked, what the heaps count,
and which blocks are taken. -/
namespace Csc469.Alloc

open Linked Bitmap Execution

variable {n h : Nat} {s t : State} {S : Finset Nat} {loc : Nat → Bin} {L : Bin → List Nat}
  {a p sb : Nat} {o d : Bin} {live : List Nat}

/-- The pages obtained from `mem_sbrk` since `mm_init`. -/
def superblocks (n : Nat) (s : State) : Finset Nat :=
  (Finset.Icc (firstPage n s) s.dsegHi).filter (pgSize ∣ ·)

/-- The bin a superblock belongs in. -/
def binOf (b : Superblock) : Bin :=
  ⟨b.heapId, sizeId b.blockSize, fullness b.usedBlocks (blocks b.blockSize)⟩

/-- The block of a pointer, as `mm_free` computes it. -/
def blockId (s : State) (p : Nat) : Nat := p % pgSize / (s.superblock (pageOf p)).blockSize

structure Segment (n : Nat) (s : State) : Prop where
  lo_pos : 0 < s.dsegLo
  lo_aligned : pgSize ∣ s.dsegLo
  hi_aligned : pgSize ∣ s.dsegHi + 1
  heaps : firstPage n s ≤ s.dsegHi + 1

/-- The superblocks of `S` are linked as `L` says, each in the list of `loc`, and the heaps
count them. -/
structure Placed (n : Nat) (s : State) (S : Finset Nat) (loc : Nat → Bin)
    (L : Bin → List Nat) : Prop where
  family : Family (fun b => b.heap ≤ n) s.next s.prev s.bin L
  mem : ∀ b, b.heap ≤ n → ∀ a, a ∈ L b ↔ a ∈ S ∧ loc a = b
  heapId : ∀ a ∈ S, (s.superblock a).heapId = (loc a).heap
  le : ∀ a ∈ S, (loc a).heap ≤ n
  allocated : ∀ h ≤ n, (s.heapTable h).allocated =
    ∑ a ∈ S, if (loc a).heap = h then (sbSize : Int) else 0
  used : ∀ h ≤ n, (s.heapTable h).used =
    ∑ a ∈ S, if (loc a).heap = h then usedBytes (s.superblock a) else 0

/-- The block map of a superblock records its header and its live blocks, and nothing else. -/
structure BlocksOk (s : State) (live : List Nat) (a : Nat) : Prop where
  cls : (s.superblock a).blockSize ∈ blockSizes
  bits : ∀ id < 512, bit (s.superblock a).blockMap id = true ↔
    id < blocksUsed (s.superblock a).blockSize ∨ ∃ p ∈ live, pageOf p = a ∧ blockId s p = id
  used : (s.superblock a).usedBlocks = (ones (s.superblock a).blockMap 512).card

/-- Live pointers are blocks of superblocks, outside the headers, all different. -/
structure LiveOk (s : State) (S : Finset Nat) (live : List Nat) : Prop where
  page : ∀ p ∈ live, pageOf p ∈ S
  id : ∀ p ∈ live, blocksUsed (s.superblock (pageOf p)).blockSize ≤ blockId s p ∧
    blockId s p < blocks (s.superblock (pageOf p)).blockSize
  apart : live.Pairwise fun p q => pageOf p = pageOf q → blockId s p ≠ blockId s q

/-- What holds whatever bins the superblocks are linked in. -/
structure Contents (n : Nat) (s : State) (live : List Nat) : Prop where
  segment : Segment n s
  type : ∀ a ∈ superblocks n s, s.type a = 0
  blocksOk : ∀ a ∈ superblocks n s, BlocksOk s live a
  live : LiveOk s (superblocks n s) live

structure SmallInv (n : Nat) (s : State) (live : List Nat) (L : Bin → List Nat) : Prop
    extends Contents n s live where
  placed : Placed n s (superblocks n s) (fun a => binOf (s.superblock a)) L

/-- The same for the superblocks in `S` alone, where other pages may be parts of large chunks. -/
structure Books (n : Nat) (s : State) (S : Finset Nat) (live : List Nat) : Prop where
  segment : Segment n s
  page : S ⊆ superblocks n s
  type : ∀ a ∈ S, s.type a = 0
  blocksOk : ∀ a ∈ S, BlocksOk s live a
  live : LiveOk s S live

structure Shelved (n : Nat) (s : State) (S : Finset Nat) (live : List Nat) (L : Bin → List Nat) :
    Prop extends Books n s S live where
  placed : Placed n s S (fun a => binOf (s.superblock a)) L

theorem SmallInv.shelved (hi : SmallInv n s live L) : Shelved n s (superblocks n s) live L :=
  ⟨⟨hi.segment, Finset.Subset.refl _, hi.type, hi.blocksOk, hi.live⟩, hi.placed⟩

theorem Shelved.smallInv (hi : Shelved n s (superblocks n s) live L) : SmallInv n s live L :=
  ⟨⟨hi.segment, hi.type, hi.blocksOk, hi.live⟩, hi.placed⟩

theorem mem_superblocks : a ∈ superblocks n s ↔
    (firstPage n s ≤ a ∧ a ≤ s.dsegHi) ∧ pgSize ∣ a := by
  simp [superblocks]

theorem sum_change {f g : Nat → Int} (ha : a ∈ S) (hfg : ∀ b ∈ S, b ≠ a → g b = f b) :
    ∑ b ∈ S, g b = ∑ b ∈ S, f b + (g a - f a) := by
  have hrest : ∑ b ∈ S.erase a, g b = ∑ b ∈ S.erase a, f b :=
    Finset.sum_congr rfl fun b hb =>
      hfg b (Finset.mem_of_mem_erase hb) (Finset.ne_of_mem_erase hb)
  rw [← Finset.add_sum_erase S g ha, ← Finset.add_sum_erase S f ha, hrest]
  omega

theorem superblocks_congr (hlo : t.dsegLo = s.dsegLo) (hhi : t.dsegHi = s.dsegHi) :
    superblocks n t = superblocks n s := by
  simp [superblocks, firstPage, hlo, hhi]

theorem superblocks_mono (hlo : t.dsegLo = s.dsegLo) (hhi : s.dsegHi ≤ t.dsegHi) :
    superblocks n s ⊆ superblocks n t := by
  intro a ha
  rw [mem_superblocks] at ha ⊢
  rw [firstPage, hlo]
  exact ⟨⟨ha.1.1, ha.1.2.trans hhi⟩, ha.2⟩

/-! Steps that leave the blocks, or all the books, alone. -/

/-- The two states have the same blocks taken in the same superblocks. -/
structure SameBlocks (s t : State) : Prop where
  blocks : ∀ a, (t.superblock a).blockSize = (s.superblock a).blockSize ∧
    (t.superblock a).blockMap = (s.superblock a).blockMap ∧
    (t.superblock a).usedBlocks = (s.superblock a).usedBlocks
  dsegLo : t.dsegLo = s.dsegLo
  dsegHi : t.dsegHi = s.dsegHi
  type : t.type = s.type

/-- The two states have the same superblocks, of the same sizes. -/
structure SameSizes (s t : State) : Prop where
  size : ∀ a, (t.superblock a).blockSize = (s.superblock a).blockSize
  dsegLo : t.dsegLo = s.dsegLo
  dsegHi : t.dsegHi = s.dsegHi

theorem SameSizes.trans {u : State} (h : SameSizes s t) (h' : SameSizes t u) : SameSizes s u :=
  ⟨fun a => (h'.size a).trans (h.size a), h'.dsegLo.trans h.dsegLo, h'.dsegHi.trans h.dsegHi⟩

theorem SameBlocks.sameSizes (hs : SameBlocks s t) : SameSizes s t :=
  ⟨fun a => (hs.blocks a).1, hs.dsegLo, hs.dsegHi⟩

theorem setSb_sizes {f : Superblock → Superblock} (hf : ∀ b, (f b).blockSize = b.blockSize) :
    SameSizes s (s.setSb a f) := by
  refine ⟨fun c => ?_, rfl, rfl⟩
  by_cases hc : c = a <;> simp [hc, hf]

theorem setHeap_blocks {f : Heap → Heap} : SameBlocks s (s.setHeap h f) :=
  ⟨fun _ => ⟨rfl, rfl, rfl⟩, rfl, rfl, rfl⟩

/-- More pages may come behind the superblocks in `S`, of whatever type. -/
theorem Books.beside (hc : Books n s S live)
    (hb : ∀ a, (t.superblock a).blockSize = (s.superblock a).blockSize ∧
      (t.superblock a).blockMap = (s.superblock a).blockMap ∧
      (t.superblock a).usedBlocks = (s.superblock a).usedBlocks)
    (hlo : t.dsegLo = s.dsegLo) (hhi : s.dsegHi ≤ t.dsegHi) (hal : pgSize ∣ t.dsegHi + 1)
    (ht : ∀ a ∈ S, t.type a = s.type a) : Books n t S live := by
  have hid : blockId t = blockId s := by
    funext p
    simp [blockId, hb]
  refine ⟨?_, hc.page.trans (superblocks_mono hlo hhi), fun a ha => ?_, fun a ha => ?_, ?_⟩
  · obtain ⟨h1, h2, -, h4⟩ := hc.segment
    refine ⟨?_, ?_, hal, ?_⟩
    · rwa [hlo]
    · rwa [hlo]
    · rw [firstPage, hlo]
      exact h4.trans (by omega)
  · rw [ht a ha]
    exact hc.type a ha
  · obtain ⟨h1, h2, h3⟩ := hc.blocksOk a ha
    refine ⟨?_, ?_, ?_⟩ <;> simpa only [hb, hid]
  · obtain ⟨h1, h2, h3⟩ := hc.live
    refine ⟨h1, ?_, ?_⟩ <;> simpa only [hb, hid]

theorem Books.congr (hc : Books n s S live) (hs : SameBlocks s t) : Books n t S live := by
  refine hc.beside hs.blocks hs.dsegLo hs.dsegHi.ge ?_ fun a _ => by rw [hs.type]
  rw [hs.dsegHi]
  exact hc.segment.hi_aligned

theorem Transferred.sameBlocks (ht : Transferred s t sb o d) : SameBlocks s t := by
  have hr := ht.rest
  simp only [State.rest, Prod.mk.injEq] at hr
  exact ⟨ht.content, hr.1, hr.2.1, hr.2.2.2.2.1⟩

/-- The two states have the same superblocks in the same bins. -/
structure SameShelves (s t : State) : Prop where
  superblock : t.superblock = s.superblock
  binFirst : ∀ h, (t.heapTable h).binFirst = (s.heapTable h).binFirst
  allocated : ∀ h, (t.heapTable h).allocated = (s.heapTable h).allocated
  used : ∀ h, (t.heapTable h).used = (s.heapTable h).used
  dsegLo : t.dsegLo = s.dsegLo

theorem SameShelves.of_heaps (hs : t.superblock = s.superblock) (hh : t.heapTable = s.heapTable)
    (hlo : t.dsegLo = s.dsegLo) : SameShelves s t :=
  ⟨hs, fun _ => by rw [hh], fun _ => by rw [hh], fun _ => by rw [hh], hlo⟩

theorem SameShelves.trans {u : State} (h : SameShelves s t) (h' : SameShelves t u) :
    SameShelves s u :=
  ⟨h'.superblock.trans h.superblock, fun i => (h'.binFirst i).trans (h.binFirst i),
    fun i => (h'.allocated i).trans (h.allocated i), fun i => (h'.used i).trans (h.used i),
    h'.dsegLo.trans h.dsegLo⟩

theorem setHeap_shelves {f : Heap → Heap}
    (hf : ∀ x, (f x).binFirst = x.binFirst ∧ (f x).allocated = x.allocated ∧ (f x).used = x.used) :
    SameShelves s (s.setHeap h f) := by
  refine ⟨rfl, fun i => ?_, fun i => ?_, fun i => ?_, rfl⟩ <;>
    by_cases hi : i = h <;> simp [hi, hf]

theorem Placed.congr (hp : Placed n s S (fun a => binOf (s.superblock a)) L)
    (hs : SameShelves s t) : Placed n t S (fun a => binOf (t.superblock a)) L := by
  obtain ⟨h1, h2, h3, h4, h5, h6⟩ := hp
  have hn : t.next = s.next := by
    funext a
    simp [State.next, hs.superblock]
  have hp : t.prev = s.prev := by
    funext a
    simp [State.prev, hs.superblock]
  have hb : t.bin = s.bin := by
    funext b
    simp [State.bin, hs.binFirst]
  refine ⟨?_, ?_, ?_, ?_, ?_, ?_⟩
  · rwa [hn, hp, hb]
  all_goals simpa only [hs.superblock, hs.allocated, hs.used]

/-- The two states may differ in their locks and in large chunks only. -/
structure SameBooks (s t : State) : Prop where
  superblock : t.superblock = s.superblock
  binFirst : ∀ h, (t.heapTable h).binFirst = (s.heapTable h).binFirst
  allocated : ∀ h, (t.heapTable h).allocated = (s.heapTable h).allocated
  used : ∀ h, (t.heapTable h).used = (s.heapTable h).used
  dsegLo : t.dsegLo = s.dsegLo
  dsegHi : t.dsegHi = s.dsegHi
  dsegSize : t.dsegSize = s.dsegSize
  type : t.type = s.type

theorem SameBooks.bin (hs : SameBooks s t) : t.bin = s.bin := by
  funext b
  simp [State.bin, hs.binFirst]

theorem SameBooks.sameBlocks (hs : SameBooks s t) : SameBlocks s t :=
  ⟨fun a => by simp [hs.superblock], hs.dsegLo, hs.dsegHi, hs.type⟩

theorem SameBooks.trans {u : State} (h : SameBooks s t) (h' : SameBooks t u) : SameBooks s u :=
  ⟨h'.superblock.trans h.superblock, fun i => (h'.binFirst i).trans (h.binFirst i),
    fun i => (h'.allocated i).trans (h.allocated i), fun i => (h'.used i).trans (h.used i),
    h'.dsegLo.trans h.dsegLo, h'.dsegHi.trans h.dsegHi, h'.dsegSize.trans h.dsegSize,
    h'.type.trans h.type⟩

theorem setLock_same {v : Bool} : SameBooks s (s.setHeap h fun hp => { hp with lock := v }) := by
  constructor <;> (try intro i; by_cases hi : i = h <;> simp [hi]) <;> rfl

theorem lockHeap_same (hl : lockHeap s h = .ok t) : SameBooks s t := by
  unfold lockHeap at hl
  split at hl
  · cases hl
  · cases hl
    exact setLock_same

theorem lockHeap_ok (hl : lockHeap s h = .ok t) :
    (s.heapTable h).lock = false ∧ (t.heapTable h).lock = true := by
  unfold lockHeap at hl
  split at hl
  · cases hl
  · next hlock =>
    cases hl
    exact ⟨by simpa using hlock, by simp⟩

theorem unlockHeap_same : SameBooks s (unlockHeap s h) := setLock_same

theorem SameBooks.shelves (hs : SameBooks s t) : SameShelves s t :=
  ⟨hs.superblock, hs.binFirst, hs.allocated, hs.used, hs.dsegLo⟩

theorem lockHeap_shelves (hl : lockHeap s h = .ok t) : SameShelves s t := (lockHeap_same hl).shelves

theorem unlockHeap_shelves : SameShelves s (unlockHeap s h) := unlockHeap_same.shelves

theorem Shelved.congr (hi : Shelved n s S live L) (hs : SameBooks s t) : Shelved n t S live L :=
  ⟨hi.toBooks.congr hs.sameBlocks, hi.placed.congr hs.shelves⟩

/-- Whatever happens on other pages. -/
theorem Shelved.beside (hi : Shelved n s S live L) (hs : SameShelves s t)
    (hhi : s.dsegHi ≤ t.dsegHi) (hal : pgSize ∣ t.dsegHi + 1) (ht : ∀ a ∈ S, t.type a = s.type a) :
    Shelved n t S live L :=
  ⟨hi.toBooks.beside (fun a => by simp [hs.superblock]) hs.dsegLo hhi hal ht, hi.placed.congr hs⟩

/-! Moving superblocks. -/

theorem Placed.congr_loc {loc' : Nat → Bin} (hp : Placed n s S loc L)
    (hl : ∀ a ∈ S, loc' a = loc a) : Placed n s S loc' L := by
  refine ⟨hp.family, fun b hb a => ?_, fun a ha => ?_, fun a ha => ?_, fun h hh => ?_, fun h hh => ?_⟩
  · rw [hp.mem b hb a]
    exact and_congr_right fun ha => by rw [hl a ha]
  · rw [hl a ha, hp.heapId a ha]
  · rw [hl a ha]
    exact hp.le a ha
  · rw [hp.allocated h hh]
    exact Finset.sum_congr rfl fun a ha => by rw [hl a ha]
  · rw [hp.used h hh]
    exact Finset.sum_congr rfl fun a ha => by rw [hl a ha]

theorem Placed.mem_list (hp : Placed n s S loc L) (ha : a ∈ S) : a ∈ L (loc a) :=
  (hp.mem _ (hp.le a ha) a).mpr ⟨ha, rfl⟩

theorem Placed.spec (hp : Placed n s S loc L) (ha : sb ∈ S) :
    Transferred s (transferBins s sb (loc sb) d) sb (loc sb) d :=
  (transferBins_spec (hp.heapId sb ha)).1

/-- `transfer_bins` called with the bin the superblock really is in. -/
theorem Placed.transfer (hp : Placed n s S loc L) (ha : sb ∈ S) (hd : d.heap ≤ n) :
    Placed n (transferBins s sb (loc sb) d) S (Function.update loc sb d) (move L sb (loc sb) d) := by
  obtain ⟨htr, hn, hpv, hb⟩ := transferBins_spec (d := d) (hp.heapId sb ha)
  have ho := hp.le sb ha
  have hx := hp.mem_list ha
  have hsum : ∀ (f : Nat → Int) (k : Nat),
      (∑ c ∈ S, if (Function.update loc sb d c).heap = k then f c else 0) =
      (∑ c ∈ S, if (loc c).heap = k then f c else 0) +
        ((if d.heap = k then f sb else 0) - (if (loc sb).heap = k then f sb else 0)) := by
    intro f k
    rw [sum_change ha (f := fun c => if (loc c).heap = k then f c else 0)]
    · simp
    · intro c _ hc
      simp [hc]
  refine ⟨?_, fun b hb' c => ?_, fun c hc => ?_, fun c hc => ?_, fun k hk => ?_, fun k hk => ?_⟩
  · rw [hn, hpv, hb]
    exact family_relink hp.family ho hd hx rfl
  · rw [mem_move hp.family ho hx hb', hp.mem b hb' c]
    by_cases hc : c = sb
    · subst hc
      simp [ha, eq_comm]
    · simp [hc]
  · rw [htr.heapId]
    by_cases he : c = sb
    · simp [he]
    · simp [he, hp.heapId c hc]
  · by_cases he : c = sb
    · simpa [he] using hd
    · simpa [he] using hp.le c hc
  · rw [htr.allocated, hp.allocated k hk, hsum (fun _ => (sbSize : Int)) k]
    simp only [eq_comm (a := k)]
    omega
  · have hu : ∀ c, usedBytes ((transferBins s sb (loc sb) d).superblock c) =
        usedBytes (s.superblock c) := by
      intro c
      simp [usedBytes, htr.content c]
    simp only [hu]
    rw [htr.used, hp.used k hk, hsum (fun c => usedBytes (s.superblock c)) k]
    simp only [eq_comm (a := k)]
    omega

/-- A write to one superblock that leaves its links and heap, with its heap's `used`
adjusted to match. -/
theorem Placed.adjust (hp : Placed n s S loc L) (ha : sb ∈ S) {f : Superblock → Superblock}
    {δ : Int} (hf : ∀ b, (f b).next = b.next ∧ (f b).prev = b.prev ∧ (f b).heapId = b.heapId)
    (hu : usedBytes (f (s.superblock sb)) = usedBytes (s.superblock sb) + δ) :
    Placed n ((s.setSb sb f).setHeap (loc sb).heap fun h => { h with used := h.used + δ })
      S loc L := by
  generalize ht : ((s.setSb sb f).setHeap (loc sb).heap fun h => { h with used := h.used + δ }) = t
  have hn : t.next = s.next := by
    funext c
    by_cases hc : c = sb <;> simp [← ht, State.next, hc, hf]
  have hpv : t.prev = s.prev := by
    funext c
    by_cases hc : c = sb <;> simp [← ht, State.prev, hc, hf]
  have hb : t.bin = s.bin := by
    funext b
    by_cases hh : b.heap = (loc sb).heap <;> simp [← ht, State.bin, hh]
  refine ⟨?_, hp.mem, fun c hc => ?_, hp.le, fun k hk => ?_, fun k hk => ?_⟩
  · rw [hn, hpv, hb]
    exact hp.family
  · rw [← hp.heapId c hc]
    by_cases he : c = sb <;> simp [← ht, he, hf]
  · rw [← hp.allocated k hk]
    by_cases hk' : k = (loc sb).heap <;> simp [← ht, hk']
  · rw [sum_change ha (f := fun c => if (loc c).heap = k then usedBytes (s.superblock c) else 0)]
    · rw [← hp.used k hk]
      by_cases hk' : k = (loc sb).heap
      · subst hk'
        simp [← ht, hu]
      · simp [← ht, hk', Ne.symm hk']
    · intro c _ hc
      simp [← ht, hc]

theorem rebin_spec {i old : Nat} (new : Nat) (hp : Placed n s S loc L) (ha : sb ∈ S)
    (hl : loc sb = ⟨h, i, old⟩) :
    (∃ L', Placed n (rebin s sb h i old new) S (Function.update loc sb ⟨h, i, new⟩) L') ∧
    SameBlocks s (rebin s sb h i old new) ∧
    ∀ c ∈ S, ((rebin s sb h i old new).superblock c).heapId = (s.superblock c).heapId := by
  unfold rebin
  by_cases hne : new = old
  · subst hne
    rw [if_neg (by simp)]
    refine ⟨⟨L, hp.congr_loc fun c _ => ?_⟩, ⟨fun _ => ⟨rfl, rfl, rfl⟩, rfl, rfl, rfl⟩,
      fun _ _ => rfl⟩
    by_cases hc : c = sb <;> simp [hc, hl]
  · rw [if_pos hne, ← hl]
    have hle : h ≤ n := by simpa [hl] using hp.le sb ha
    have htr := hp.spec (d := ⟨h, i, new⟩) ha
    refine ⟨⟨_, hp.transfer ha hle⟩, htr.sameBlocks, fun c _ => ?_⟩
    rw [htr.heapId]
    split
    · next he => rw [he, hp.heapId sb ha, hl]
    · rfl

theorem binOf_congr {b c : Superblock} (hs : b.blockSize = c.blockSize)
    (hu : b.usedBlocks = c.usedBlocks) (hh : b.heapId = c.heapId) : binOf b = binOf c := by
  simp [binOf, hs, hu, hh]

/-- After a change to the blocks of `sb`, moving it to the bin of its new fullness restores
the invariant. -/
theorem Books.settle {i old : Nat} (hc : Books n s S live) (hp : Placed n s S loc L) (ha : sb ∈ S)
    (hl : loc sb = ⟨h, i, old⟩) (hloc : ∀ c ∈ S, c ≠ sb → loc c = binOf (s.superblock c))
    (hi : sizeId (s.superblock sb).blockSize = i) :
    (∃ L', Shelved n (rebin s sb h i old
      (fullness (s.superblock sb).usedBlocks (blocks (s.superblock sb).blockSize))) S live L') ∧
    SameBlocks s (rebin s sb h i old
      (fullness (s.superblock sb).usedBlocks (blocks (s.superblock sb).blockSize))) := by
  obtain ⟨⟨L', hp'⟩, hsame, hheap⟩ := rebin_spec
    (fullness (s.superblock sb).usedBlocks (blocks (s.superblock sb).blockSize)) hp ha hl
  refine ⟨⟨L', hc.congr hsame, ?_⟩, hsame⟩
  refine hp'.congr_loc fun c hcS => ?_
  obtain ⟨h1, _, h3⟩ := hsame.blocks c
  rw [binOf_congr h1 h3 (hheap c hcS)]
  by_cases he : c = sb
  · subst he
    rw [Function.update_self, binOf, hi, hp.heapId c ha, hl]
  · rw [Function.update_of_ne he, hloc c hcS he]

/-- Handing a superblock to another heap, class and fullness unchanged. -/
theorem Shelved.handOver (hi : Shelved n s S live L) (ha : sb ∈ S)
    (hb : binOf (s.superblock sb) = o) (hh : h ≤ n) :
    ∃ L', Shelved n (transferBins s sb o ⟨h, o.cls, o.full⟩) S live L' := by
  subst hb
  generalize hd : Bin.mk h (binOf (s.superblock sb)).cls (binOf (s.superblock sb)).full = d
  have htr := hi.placed.spec (d := d) ha
  have hsame := htr.sameBlocks
  refine ⟨move L sb (binOf (s.superblock sb)) d, hi.toBooks.congr hsame, ?_⟩
  refine (hi.placed.transfer ha (by simpa [← hd] using hh)).congr_loc fun c hcS => ?_
  obtain ⟨h1, _, h3⟩ := hsame.blocks c
  by_cases he : c = sb
  · subst he
    have hheap := htr.heapId c
    rw [if_pos rfl] at hheap
    rw [Function.update_self, binOf, h1, h3, hheap, ← hd]
    rfl
  · rw [Function.update_of_ne he, binOf_congr h1 h3]
    rw [htr.heapId, if_neg he]

end Csc469.Alloc
