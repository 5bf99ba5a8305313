import Csc469.Alloc.MixedRuns
import Csc469.Alloc.Selection
import Csc469.Rounding

/-! When a large `mm_malloc` returns a block that is large enough. -/
namespace Csc469.Alloc

open Execution Linked Rounding

variable {n cpu sz pages h a : Nat} {s t u : State} {S H : Finset Nat} {L : Bin → List Nat}
  {live xs : List Nat} {c d : Config} {p q r newNext newPrev : Option Nat}

/-! The number of pages. -/

/-- How many pages the request and its header take. -/
def pagesFor (sz : Nat) : Nat := (sz + sizeofNode + sbSize - 1) / sbSize

/-- What is on the last page is not rounded away: it is the whole page, or more than half the
distance of the floats next to the sum. -/
def Fits (sz : Nat) : Prop :=
  (sz + sizeofNode) % sbSize = 0 ∨ unit 24 (sz + sizeofNode) < 2 * ((sz + sizeofNode) % sbSize)

theorem toFloat_eq {m : Nat} : toFloat m = roundEven 24 m := by
  have hunit : 2 ^ (m.log2 - 23) = unit 24 m := congrArg (2 ^ ·) (by omega)
  rw [toFloat, roundEven, hunit]

theorem unit_dvd {m : Nat} (hm : m < 2 ^ 35) : 2 * unit 24 m ∣ sbSize := by
  have hlog : m.log2 < 35 := by
    rcases Nat.eq_zero_or_pos m with rfl | hpos
    · decide
    · exact (Nat.log2_lt hpos.ne').mpr hm
  rw [unit, ← Nat.pow_succ', show sbSize = 2 ^ 12 from rfl]
  exact Nat.pow_dvd_pow 2 (by omega)

theorem numPages_eq (hsz : sz + sizeofNode < 2 ^ 35) :
    numPages sz = (roundEven 24 (sz + sizeofNode) + sbSize - 1) / sbSize := by
  rw [numPages, toFloat_eq, Nat.mod_eq_of_lt (hsz.trans (by decide))]

theorem numPages_le (hsz : sz + sizeofNode < 2 ^ 35) : numPages sz ≤ pagesFor sz := by
  rw [numPages_eq hsz]
  exact ceil_roundEven_le (by decide) (unit_dvd hsz)

theorem fits_iff (hsz : sz + sizeofNode < 2 ^ 35) :
    sz + sizeofNode ≤ numPages sz * sbSize ↔ Fits sz := by
  rw [numPages_eq hsz]
  exact le_ceil_roundEven (by decide) (unit_dvd hsz)

theorem le_pagesFor : sz + sizeofNode ≤ pagesFor sz * sbSize :=
  (ceil_le_iff (by decide)).mp (Nat.le_refl _)

theorem pos_of_cover (hc : sz + sizeofNode ≤ pages * sbSize) : 0 < pages := by
  rcases Nat.eq_zero_or_pos pages with rfl | hpos
  · simp [sizeofNode] at hc
  · exact hpos

theorem Fits.numPages (hf : Fits sz) (hsz : sz + sizeofNode < 2 ^ 35) :
    numPages sz = pagesFor sz := by
  refine Nat.le_antisymm (numPages_le hsz) ?_
  exact (ceil_le_iff (by decide)).mpr ((fits_iff hsz).mpr hf)

/-- Below `2 ^ 24` every number is a `float`. -/
theorem fits_of_lt (hsz : sz + sizeofNode < 2 ^ 24) : Fits sz := by
  have hlog : (sz + sizeofNode).log2 < 24 :=
    (Nat.log2_lt (by simp [sizeofNode])).mpr hsz
  have hunit : unit 24 (sz + sizeofNode) = 1 := by
    rw [unit, show (sz + sizeofNode).log2 + 1 - 24 = 0 by omega, Nat.pow_zero]
  rw [Fits, hunit]
  omega

/-! The search of the free list. -/

/-- `bin_large` of the global heap, followed from its start, leads to `a`. -/
def OnFreeList (s : State) (a : Nat) : Prop := ∃ xs, Seg s.nextChunk (s.largeBin 0) xs (some a)

def FreeListEnds (s : State) : Prop := ∃ xs, Chain s.nextChunk (s.largeBin 0) xs

theorem Mixed.free_list (hi : Mixed n s live S H L) (hs : Seg s.nextChunk (s.largeBin 0) xs q) :
    (∀ x ∈ xs, x ∈ H) ∧ ∀ a, q = some a → a ∈ H :=
  hs.closed (hi.chunks.bin 0 (Nat.zero_le n)) fun x y hx => hi.chunks.next x hx y

theorem Mixed.free_length (hi : Mixed n s live S H L) (hw : Within s)
    (hs : Seg s.nextChunk (s.largeBin 0) xs q) (hnd : xs.Nodup) : xs.length ≤ maxPages s := by
  have hsub : xs.toFinset ⊆ superblocks n s := by
    intro x hx
    have hH := (hi.free_list hs).1 x (List.mem_toFinset.mp hx)
    exact (Finset.mem_sdiff.mp (hi.chunks.page hH)).1
  rw [← List.toFinset_card_of_nodup hnd]
  exact (Finset.card_le_card hsub).trans (card_superblocks hw)

theorem Mixed.findLarge_some (hi : Mixed n s live S H L) (hw : Within s) :
    (∃ x, findLarge s pages = .ok (some x)) ↔
      ∃ a, OnFreeList s a ∧ pages ≤ (s.node a).numPages := by
  constructor
  · rintro ⟨⟨a, _⟩, hf⟩
    exact ⟨a, seg_of_search hf, (hi.chunks.findLarge hf).2⟩
  · rintro ⟨a, ⟨xs, hxs⟩, ha⟩
    obtain ⟨ys, y, hys, hy, hno, hnd⟩ :=
      hxs.first (P := fun a => pages ≤ (s.node a).numPages) ha
    have hpath : Seg s.nextChunk (s.largeBin 0) (ys ++ [y]) (s.nextChunk y) :=
      seg_append.mpr ⟨_, hys, rfl, rfl⟩
    have hlen := hi.free_length hw hpath hnd
    rw [List.length_append] at hlen
    refine ⟨(y, ()), search_found hys (by simp) (fun x hx => ?_) ?_ hlen⟩
    · simpa using hno x hx
    · simpa using hy

theorem Mixed.findLarge_none (hi : Mixed n s live S H L) (hw : Within s) :
    findLarge s pages = .ok none ↔
      FreeListEnds s ∧ ¬∃ a, OnFreeList s a ∧ pages ≤ (s.node a).numPages := by
  constructor
  · intro hf
    refine ⟨chain_of_search hf, fun hfit => ?_⟩
    obtain ⟨x, hx⟩ := (hi.findLarge_some hw).mpr hfit
    rw [hf] at hx
    cases hx
  · rintro ⟨⟨xs, hxs⟩, hno⟩
    refine (search_ok hxs (by simp) (hi.free_length hw hxs hxs.nodup)).trans ?_
    refine congrArg Except.ok (firstHit_eq_none_iff.mpr fun a ha => ?_)
    have hsmall : ¬pages ≤ (s.node a).numPages := fun hle => hno ⟨a, hxs.mem_iff.mp ha, hle⟩
    simp [hsmall]

/-! The chunk that a request takes. -/

/-- A chunk of the free list has enough pages; or none has, and `mem_sbrk` grants them. -/
def Available (s : State) (pages : Nat) : Prop :=
  (∃ a, OnFreeList s a ∧ pages ≤ (s.node a).numPages) ∨
    (FreeListEnds s ∧ s.sbrkLock = false ∧ s.dsegHi + pages * pgSize ≤ s.dsegLo + s.dsegSize)

theorem locked_large : SameLarge s (locked s h) := setLock_large

theorem locked_findLarge : findLarge (locked s 0) pages = findLarge s pages := by
  have hbin := congrFun (locked_large (s := s) (h := 0)).largeBin 0
  exact congrArg (search _ _ _ (maxPages s)) hbin

theorem memSbrk_grants {increment : Nat} (hpos : 0 < increment) :
    (∃ t a, memSbrk s increment = .ok (t, some a)) ↔
      s.dsegHi + increment ≤ s.dsegLo + s.dsegSize := by
  simp only [memSbrk]
  rw [if_neg hpos.ne']
  split
  · next hfull => simp [Nat.not_le_of_lt hfull]
  · next hroom => simp [Nat.le_of_not_lt hroom]

theorem takeLarge_some (hpos : 0 < pages) : (∃ t a, takeLarge s pages = .ok (t, some a)) ↔
    (s.heapTable 0).lock = false ∧ ((∃ x, findLarge s pages = .ok (some x)) ∨
      (findLarge s pages = .ok none ∧ s.sbrkLock = false ∧
        s.dsegHi + pages * pgSize ≤ s.dsegLo + s.dsegSize)) := by
  have hmul : 0 < pages * pgSize := Nat.mul_pos hpos (by decide)
  rw [takeLarge, lockHeap_eq]
  cases (s.heapTable 0).lock with
  | true => simp [bind, Except.bind]
  | false =>
    rw [if_neg (by decide), Recorded.ok_bind, locked_findLarge]
    cases findLarge s pages with
    | error e => simp [bind, Except.bind]
    | ok hit =>
      cases hit with
      | some x => simp [Recorded.ok_bind]
      | none =>
        have hsbrk : (unlockHeap (locked s 0) 0).sbrkLock = s.sbrkLock := rfl
        simp only [Recorded.ok_bind, lockSbrk, hsbrk]
        cases s.sbrkLock with
        | true => simp [bind, Except.bind]
        | false =>
          have hgrants := memSbrk_grants
            (s := { unlockHeap (locked s 0) 0 with sbrkLock := true }) hmul
          replace hgrants : _ ↔ s.dsegHi + pages * pgSize ≤ s.dsegLo + s.dsegSize := hgrants
          rw [← hgrants]
          simp only [bind_eq_ok]
          simpa using exists_comm

theorem Mixed.available_iff (hi : Mixed n s live S H L) (hw : Within s) :
    Available s pages ↔ (∃ x, findLarge s pages = .ok (some x)) ∨
      (findLarge s pages = .ok none ∧ s.sbrkLock = false ∧
        s.dsegHi + pages * pgSize ≤ s.dsegLo + s.dsegSize) := by
  rw [Available, hi.findLarge_some hw, hi.findLarge_none hw]
  generalize (∃ a, OnFreeList s a ∧ pages ≤ (s.node a).numPages) = fits
  tauto

/-- Where the chunk comes from. -/
theorem Mixed.takeLarge_from (hi : Mixed n s live S H L)
    (ht : Alloc.takeLarge s pages = .ok (t, some a)) :
    (OnFreeList s a ∧ pages ≤ (s.node a).numPages ∧ t.dsegHi = s.dsegHi) ∨
      (a = s.dsegHi + 1 ∧ t.dsegHi = s.dsegHi + pages * pgSize) := by
  obtain ⟨s1, hlock, ht⟩ := ok_of_bind ht
  obtain ⟨-, rfl⟩ := lockHeap_locked hlock
  obtain ⟨hit, hfind, ht⟩ := ok_of_bind ht
  rw [locked_findLarge] at hfind
  cases hit with
  | some x =>
    cases ht
    refine .inl ⟨seg_of_search hfind, (hi.chunks.findLarge hfind).2, ?_⟩
    rw [unlockHeap_large.dsegHi, carve_hi]
    rfl
  | none =>
    obtain ⟨s2, hlock', ht⟩ := ok_of_bind ht
    obtain ⟨⟨s3, q⟩, hsb, ht⟩ := ok_of_bind ht
    cases ht
    have hsame := (lockSbrk_large hlock').dsegHi
    obtain ⟨rfl, rfl⟩ := memSbrk_some hsb
    refine .inr ⟨?_, ?_⟩
    · rw [hsame]
      rfl
    · exact congrArg (· + pages * pgSize) hsame

theorem onNode_locks {f : Node → Node} : (s.onNode p f).locks = s.locks := by
  cases p <;> rfl

theorem setNextChunk_locks : (s.setNextChunk p h r).locks = s.locks := by
  cases p with
  | none => exact setHeap_locks (f := fun hp => { hp with binLarge := r }) fun _ => rfl
  | some a => rfl

theorem relink_locks : (relink s h a newNext newPrev).locks = s.locks :=
  onNode_locks.trans setNextChunk_locks

theorem carve_locks : (carve s a pages).locks = s.locks := by
  unfold carve
  split
  · exact relink_locks
  · exact relink_locks

theorem takeLarge_locks (ht : takeLarge s pages = .ok (t, r)) : t.locks = s.locks := by
  obtain ⟨s1, hlock, ht⟩ := ok_of_bind ht
  obtain ⟨hfree, rfl⟩ := lockHeap_locked hlock
  have hback : (unlockHeap (locked s 0) 0).locks = s.locks := by
    rw [unlockHeap_locks, locked_locks, Function.update_idem,
      Function.update_eq_self_iff.mpr hfree.symm]
  obtain ⟨hit, -, ht⟩ := ok_of_bind ht
  cases hit with
  | some x =>
    cases ht
    rw [← hback, unlockHeap_locks, unlockHeap_locks, carve_locks]
  | none =>
    obtain ⟨s2, hlock', ht⟩ := ok_of_bind ht
    obtain ⟨⟨s3, q⟩, hsb, ht⟩ := ok_of_bind ht
    cases ht
    exact (sbrk_locks hlock' hsb).trans hback

/-! The whole call. -/

theorem mallocLarge_eq_ok : mallocLarge s cpu sz = .ok (t, r) ↔ numPages sz < 2 ^ 31 ∧
    (s.heapTable (cpu + 1)).lock = false ∧ ∃ u a, takeLarge s (numPages sz) = .ok (u, some a) ∧
      t = unlockHeap (handOutLarge (locked u (cpu + 1)) cpu (numPages sz) a) (cpu + 1) ∧
        r = some (a + sizeofNode) := by
  simp only [mallocLarge]
  rw [← Nat.not_le]
  split
  · next hbig => exact iff_of_false (by rintro ⟨⟩) fun h => h.1 hbig
  · next hint =>
    simp only [hint, not_false_eq_true, true_and]
    constructor
    · intro hm
      obtain ⟨⟨u, target⟩, ht, hm⟩ := ok_of_bind hm
      obtain ⟨v, hl, hm⟩ := ok_of_bind hm
      obtain ⟨hfree, rfl⟩ := lockHeap_locked hl
      cases target with
      | none => cases hm
      | some a =>
        cases hm
        refine ⟨?_, u, a, ht, rfl, rfl⟩
        rw [← hfree]
        exact (congrFun (congrArg Prod.fst (takeLarge_locks ht)) (cpu + 1)).symm
    · rintro ⟨hfree, u, a, ht, rfl, rfl⟩
      have hlock : (u.heapTable (cpu + 1)).lock = false :=
        (congrFun (congrArg Prod.fst (takeLarge_locks ht)) (cpu + 1)).trans hfree
      rw [ht, Recorded.ok_bind, lockHeap_eq, hlock]
      rfl

/-- The chunk at `a`, which a request has taken, lies in the segment: on pages that `mem_sbrk` has
just granted, or in a chunk that was free. -/
structure Taken (s t : State) (a : Nat) : Prop where
  start : t.dsegLo ≤ a
  used : a + (t.node a).numPages * pgSize ≤ t.dsegHi + 1
  segment : t.dsegHi < t.dsegLo + t.dsegSize
  source : (OnFreeList s a ∧ (t.node a).numPages ≤ (s.node a).numPages) ∨ a = s.dsegHi + 1

/-- The request returns, and a block that it returns has a chunk that covers it. -/
def LargeServed (s : State) (cpu sz : Nat) : Prop :=
  ∃ t r, mallocLarge s cpu sz = .ok (t, r) ∧ ∀ p, r = some p → ∃ a, p = a + sizeofNode ∧
    sizeofNode + sz ≤ (t.node a).numPages * sbSize ∧ Taken s t a

/-- The locks are free, the rounding keeps what is on the last page, and there is space. -/
structure LargeServable (s : State) (cpu sz : Nat) : Prop where
  globalLock : (s.heapTable 0).lock = false
  heapLock : (s.heapTable (cpu + 1)).lock = false
  fits : Fits sz
  available : Available s (pagesFor sz)

theorem Mixed.chunk_le (hi : Mixed n s live S H L) (ha : a ∈ H) :
    s.dsegLo ≤ a ∧ a + (s.node a).numPages * pgSize ≤ s.dsegHi + 1 := by
  have hpage := mem_superblocks.mp (Finset.mem_sdiff.mp (hi.chunks.page ha)).1
  have hal := hi.shelved.segment.hi_aligned
  rw [firstPage] at hpage
  refine ⟨by omega, ?_⟩
  cases hk : (s.node a).numPages with
  | zero => omega
  | succ k =>
    have hlast := hi.chunks.pages a ha k (by omega)
    have hlast := mem_superblocks.mp (Finset.mem_sdiff.mp hlast).1
    simp only [pgSize] at *
    omega

/-- `mem_sbrk` compares with an address that is one too high, but the end of a page cannot lie
there. -/
theorem segment_lt {lo hi : Nat} (hlo : pgSize ∣ lo) (hhi : pgSize ∣ hi + 1)
    (hle : hi ≤ lo + dsegMax) : hi < lo + dsegMax := by
  simp only [pgSize, dsegMax] at *
  omega

theorem Mixed.available_le (hi : Mixed n s live S H L) (hw : Within s) (ha : Available s pages) :
    pages * pgSize ≤ dsegMax := by
  have hseg := hi.shelved.segment
  have hsize := hw.size
  have hhi := hw.hi
  rw [hsize] at hhi
  have hlt := segment_lt hseg.lo_aligned hseg.hi_aligned hhi
  have hheaps := hseg.heaps
  rw [firstPage] at hheaps
  rcases ha with ⟨a, ⟨xs, hxs⟩, hle⟩ | ⟨-, -, hroom⟩
  · obtain ⟨hlo, hend⟩ := hi.chunk_le ((hi.free_list hxs).2 a rfl)
    have hmul := Nat.mul_le_mul_right pgSize hle
    omega
  · simp only [pgSize] at *
    omega

/-- A request with that many pages has a sum that the wrapping and the rounding leave alone, up to
what `Fits` says. -/
theorem Mixed.sum_lt (hi : Mixed n s live S H L) (hw : Within s) (ha : Available s pages)
    (hc : sz + sizeofNode ≤ pages * sbSize) : sz + sizeofNode < 2 ^ 35 := by
  have hle := hi.available_le hw ha
  simp only [sbSize, pgSize, dsegMax] at *
  omega

theorem handOut_pages :
    ((unlockHeap (handOutLarge s cpu pages a) h).node a).numPages = pages := by
  simp [handOutLarge, unlockHeap]

/-- Whatever its size, a request takes a chunk of the segment. -/
theorem Mixed.taken (hi : Mixed n s live S H L) (hw : Within s)
    (hm : Alloc.mallocLarge s cpu sz = .ok (t, some (a + sizeofNode))) :
    (t.node a).numPages = numPages sz ∧ Taken s t a := by
  have hlo := (mallocLarge_extends hm).dsegLo
  obtain ⟨-, -, u, b, ht, htu, he⟩ := mallocLarge_eq_ok.mp hm
  obtain rfl : a = b := Nat.add_right_cancel (Option.some.inj he)
  have hpages : (t.node a).numPages = numPages sz := by rw [htu, handOut_pages]
  have hhi : t.dsegHi = u.dsegHi := by
    rw [htu, unlockHeap_large.dsegHi, handOutLarge_hi]
    rfl
  have hwt := hw.extends (mallocLarge_extends hm)
  have hlt : pgSize ∣ t.dsegHi + 1 → t.dsegHi < t.dsegLo + t.dsegSize := by
    intro hal
    have hle := hwt.hi
    rw [hwt.size, hlo] at hle ⊢
    exact segment_lt hi.shelved.segment.lo_aligned hal hle
  have hal := hi.shelved.segment.hi_aligned
  refine ⟨hpages, ?_⟩
  rcases hi.takeLarge_from ht with ⟨hfree, hle, hsame⟩ | ⟨rfl, hgrown⟩
  · obtain ⟨xs, hxs⟩ := hfree
    obtain ⟨hstart, hend⟩ := hi.chunk_le ((hi.free_list hxs).2 a rfl)
    have hmul := Nat.mul_le_mul_right pgSize hle
    refine ⟨?_, ?_, ?_, .inl ⟨⟨xs, hxs⟩, ?_⟩⟩
    · rwa [hlo]
    · rw [hpages, hhi, hsame]
      exact (Nat.add_le_add_left hmul a).trans hend
    · exact hlt (by rwa [hhi, hsame])
    · rwa [hpages]
  · have hstart := hi.shelved.segment.heaps
    rw [firstPage] at hstart
    refine ⟨?_, ?_, ?_, .inr rfl⟩
    · rw [hlo]
      omega
    · rw [hpages, hhi, hgrown]
      omega
    · refine hlt ?_
      rw [hhi, hgrown, Nat.add_right_comm]
      exact Nat.dvd_add hal (Nat.dvd_mul_left _ _)

/-- A large request is served exactly when the rounding to a `float` does not cut off the end of
the block, and there are locks and space. -/
theorem large_served_iff (hc : Started n c) (hr : Reaches (Step n) c d) :
    LargeServed d.state cpu sz ↔ LargeServable d.state cpu sz := by
  obtain ⟨S, H, L, hi⟩ := mixedOk_reaches hc hr
  have hw := within_reaches hc hr
  generalize d.state = s at hi hw
  constructor
  · rintro ⟨t, r, hm, hall⟩
    obtain ⟨hint, hown, u, a, ht, htu, rfl⟩ := mallocLarge_eq_ok.mp hm
    obtain ⟨b, he, hcover, -⟩ := hall _ rfl
    obtain rfl : a = b := Nat.add_right_cancel he
    obtain ⟨hpages, htaken⟩ := hi.taken hw hm
    rw [hpages] at hcover
    rw [Nat.add_comm] at hcover
    obtain ⟨hglobal, hfrom⟩ := (takeLarge_some (pos_of_cover hcover)).mp ⟨u, a, ht⟩
    have havail := (hi.available_iff hw).mpr hfrom
    have hsz := hi.sum_lt hw havail hcover
    have hfits : Fits sz := (fits_iff hsz).mp hcover
    rw [hfits.numPages hsz] at havail
    exact ⟨hglobal, hown, hfits, havail⟩
  · rintro ⟨hglobal, hown, hfits, havail⟩
    have hcover : sz + sizeofNode ≤ pagesFor sz * sbSize := le_pagesFor
    have hpages := hfits.numPages (hi.sum_lt hw havail hcover)
    rw [← hpages] at havail hcover
    obtain ⟨u, a, ht⟩ :=
      (takeLarge_some (pos_of_cover hcover)).mpr ⟨hglobal, (hi.available_iff hw).mp havail⟩
    have hint : numPages sz < 2 ^ 31 := by
      have hle := hi.available_le hw havail
      simp only [pgSize, dsegMax] at hle
      omega
    have hm := mallocLarge_eq_ok.mpr ⟨hint, hown, u, a, ht, rfl, rfl⟩
    obtain ⟨hcount, htaken⟩ := hi.taken hw hm
    refine ⟨_, _, hm, fun p hp => ⟨a, (Option.some.inj hp).symm, ?_, htaken⟩⟩
    rw [hcount]
    omega

/-- A request that is served from a chunk that has been freed. -/
theorem large_served_iff_freed : ∃ d, Reaches (Step 1) oneCpu d ∧
    (∃ t, mmMalloc d.state 0 8000 = .ok (t, some 20512)) ∧
    (LargeServed d.state 0 8000 ↔ LargeServable d.state 0 8000) := by
  obtain ⟨⟨run, t, r⟩, hh, rfl⟩ := ok_of_map
    (c := do
      let run ← calls 1 oneCpu [.malloc 0 100, .malloc 0 20000, .malloc 0 9000, .free 20512]
      let x ← mmMalloc (lastState oneCpu run).state 0 8000
      .ok (run, x))
    (f := fun x => x.2.2) (b := some 20512) (by decide +kernel)
  obtain ⟨run, hrun, hh⟩ := ok_of_bind hh
  obtain ⟨x, hm, hh⟩ := ok_of_bind hh
  cases hh
  have hr := (calls_along hrun).reaches_last
  exact ⟨_, hr, ⟨t, hm⟩, large_served_iff oneCpu_started hr⟩

/-- The sum with the header is `2 ^ 24 + 1`; its last byte gets no page. -/
theorem last_byte_cut : Started 1 oneCpu ∧ (∃ t, mmMalloc oneCpu.state 0 16777185 =
    .ok (t, some 16416) ∧ (t.node 16384).numPages = 4096) ∧
      ¬LargeServed oneCpu.state 0 16777185 := by
  obtain ⟨⟨t, r⟩, hm, he⟩ := ok_of_map (c := mmMalloc oneCpu.state 0 16777185)
    (f := fun x => (x.2, (x.1.node 16384).numPages)) (b := (some 16416, 4096)) (by decide +kernel)
  obtain ⟨rfl, hpages⟩ := Prod.mk.inj he
  refine ⟨oneCpu_started, ⟨t, hm, hpages⟩, ?_⟩
  rintro ⟨u, r, hu, hall⟩
  rw [mmMalloc_large (by decide), hu] at hm
  cases hm
  obtain ⟨a, ha, hcover, -⟩ := hall _ rfl
  obtain rfl : a = 16384 := by
    simp only [sizeofNode] at ha
    omega
  rw [hpages] at hcover
  exact absurd hcover (by decide)

end Csc469.Alloc
