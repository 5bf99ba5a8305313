import Csc469.Alloc.Selection

/-! A block that is freed and asked for again on the same processor. -/
namespace Csc469.Alloc

open Execution Linked Bitmap

variable {n cpu sz h sb : Nat} {s t u : State} {S : Finset Nat} {L : Bin → List Nat} {o : Bin}
  {live : List Nat} {c d : Config} {a p : Nat} {run : List (Event × Config)} {e : Event}

/-! Where a pointer comes from. -/

/-- `p` was returned for a request of `sz` bytes, and has not been freed since. -/
def Obtained (sz p : Nat) (c : Config) (run : List (Event × Config)) : Prop :=
  Since (fun _ e _ => ∃ cpu, e = .malloc cpu sz (some p)) (fun _ e _ => e ≠ .free p) c run

theorem mallocSmall_class (hi : Shelved n s S live L) (hsz : sz ≤ 2048) (hcpu : cpu < n)
    (hm : mallocSmall s cpu sz = .ok (t, some p)) :
    (t.superblock (pageOf p)).blockSize = sizeClass sz := by
  rw [mallocSmall_eq, map_eq_ok] at hm
  obtain ⟨⟨u, found⟩, hsel, hm⟩ := hm
  rcases hi.selectSuperblock hsz hcpu hsel with ⟨rfl, -⟩ | ⟨S', x, rfl, hx⟩
  · cases hm
  · obtain ⟨L', hinv⟩ := hx.inv
    obtain ⟨q, id, he, hd, hsizes, -⟩ := takeBlock_inv hinv hsz hx.mem hx.bin hx.free hx.first hm
    cases he
    have hpage := (hd.page (mem_superblocks.mp (hinv.page hx.mem)).2 hsz).1
    rw [hpage, hsizes.size]
    exact hd.cls

/-- The pointer is one of the program's, and its superblock is of the class of the request. -/
theorem obtained_class (hc : Started n c) (hr : Along (SmallStep n) c run)
    (ho : Obtained sz p c run) : p ∈ (lastState c run).live ∧ sz ≤ 2048 ∧
      ((lastState c run).state.superblock (pageOf p)).blockSize = sizeClass sz := by
  have hinv : SmallOk n (lastState c run) ∧ (Obtained sz p c run →
      p ∈ (lastState c run).live ∧ sz ≤ 2048 ∧
        ((lastState c run).state.superblock (pageOf p)).blockSize = sizeClass sz) := by
    refine hr.history (I := fun run => SmallOk n (lastState c run) ∧ (Obtained sz p c run →
      p ∈ (lastState c run).live ∧ sz ≤ 2048 ∧
        ((lastState c run).state.superblock (pageOf p)).blockSize = sizeClass sz)) ?_ ?_
    · exact ⟨smallOk_started hc, fun h => (not_since_nil h).elim⟩
    · rintro l e d ⟨hok, ih⟩ hs
      have hlast : lastState c (l ++ [(e, d)]) = d := by rw [lastState_append]; rfl
      rw [hlast]
      refine ⟨smallOk_step hok hs, fun ho => ?_⟩
      obtain ⟨L, hi⟩ := hok
      rcases since_concat.mp ho with ⟨cpu, rfl⟩ | ⟨hne, hold⟩
      · obtain ⟨hstep, hsmall⟩ := hs
        cases hstep with
        | malloc hcpu hsz hm =>
          rw [mmMalloc_small hsmall] at hm
          exact ⟨by simp, hsmall, mallocSmall_class hi.shelved hsmall hcpu hm⟩
      · obtain ⟨hp, hsz, hcls⟩ := ih hold
        obtain ⟨_, hk⟩ := smallStep_sizes hi hs
        refine ⟨?_, hsz, ((hk.old _ (hi.live.page p hp)).2).trans hcls⟩
        have hlive := step_live hs.1
        rcases e with ⟨_, _, r⟩ | q
        · rw [show d.live = r.toList ++ (lastState c l).live from hlive]
          exact List.mem_append_right _ hp
        · have hpq : p ≠ q := by
            rintro rfl
            exact hne rfl
          rw [hlive.2]
          exact (List.mem_erase_of_ne hpq).mpr hp
  exact hinv.2 ho

/-! The superblocks once the block is free. -/

/-- Once the block of `p` is free, superblock `a` has a block for `sz` bytes. That of `p` itself
has one, unless it was full and `p` is its first block, which is too short behind the header. -/
def UsableAfter (s : State) (sz p a : Nat) : Prop :=
  if a = pageOf p then ¬((s.superblock a).usedBlocks = blocks (sizeClass sz) ∧ blockId s p = 0 ∧
    sizeClass sz < sz + sizeofSuperblock)
  else (tryBlock sz (sizeClass sz) (s.superblock a)).isSome

/-- Superblock `a` is in heap `h`, of the class of `sz`, and usable once `p` is free. -/
def RoomAfter (n : Nat) (s : State) (h sz p a : Nat) : Prop :=
  a ∈ superblocks n s ∧ (s.superblock a).heapId = h ∧
    (s.superblock a).blockSize = sizeClass sz ∧ UsableAfter s sz p a

theorem tryBlock_congr {cls : Nat} {b b' : Superblock} (hm : b'.blockMap = b.blockMap)
    (hu : b'.usedBlocks = b.usedBlocks) : tryBlock sz cls b' = tryBlock sz cls b := by
  simp only [tryBlock, hm, hu]

/-- A superblock that has two free blocks is taken, and one whose first block is taken needs one
only. -/
theorem Shelved.tryBlock_isSome (hi : Shelved n s S live L) (ha : a ∈ S) (hsz : sz ≤ 2048)
    (hcls : (s.superblock a).blockSize = sizeClass sz) :
    (tryBlock sz (sizeClass sz) (s.superblock a)).isSome ↔
      if bit (s.superblock a).blockMap 0 = true
      then (s.superblock a).usedBlocks < blocks (sizeClass sz)
      else sz + sizeofSuperblock ≤ sizeClass sz ∨
        (s.superblock a).usedBlocks + 1 < blocks (sizeClass sz) := by
  obtain ⟨hu0, hun⟩ := hi.used_bounds ha
  have hbd := blocks_bounds (sizeClass_mem hsz)
  have hfirst := hi.header_lt ha
  rw [hcls] at hun hfirst
  rw [tryBlock_eq hsz hu0 (by omega) fun h => (hfirst h).le]
  generalize (blocks (sizeClass sz) : Int) = k
  split
  · split <;> simp [*]
  · split
    · simp [*]
    · split <;> simp [*]

/-- Less than a quarter full. -/
theorem Shelved.tryBlock_quarter (hi : Shelved n s S live L) (ha : a ∈ S) (hsz : sz ≤ 2048)
    (hcls : (s.superblock a).blockSize = sizeClass sz)
    (hquarter : 4 * (s.superblock a).usedBlocks < blocks (s.superblock a).blockSize) :
    (tryBlock sz (sizeClass sz) (s.superblock a)).isSome := by
  have hu0 := (hi.used_bounds ha).1
  have hbd := blocks_bounds (sizeClass_mem hsz)
  rw [hcls] at hquarter
  rw [hi.tryBlock_isSome ha hsz hcls]
  split <;> omega

/-- What the search sees in a superblock after the free of `p`. -/
theorem Freed.usable (hf : Freed S s t p) (hi : Shelved n s S live L) {L' : Bin → List Nat}
    (ht : Shelved n t S (live.erase p) L') (hp : p ∈ live) (ha : a ∈ S) (hsz : sz ≤ 2048)
    (hcls : (s.superblock a).blockSize = sizeClass sz) :
    (tryBlock sz (sizeClass sz) (t.superblock a)).isSome ↔ UsableAfter s sz p a := by
  unfold UsableAfter
  by_cases he : a = pageOf p
  · subst he
    have hpage := hf.page
    simp only [State.content, Prod.mk.injEq] at hpage
    obtain ⟨hsize, hmap, hused⟩ := hpage
    rw [if_pos rfl, ht.tryBlock_isSome ha hsz (hsize.trans hcls), hmap, hused]
    have hset := hi.set_of_live hp
    have hlt := (hi.live.id p hp).2
    have hbd := blocks_bounds (hi.blocksOk _ ha).cls
    obtain ⟨hu0, hun⟩ := hi.used_bounds ha
    have hzero := hi.used_lt ha (k := 0) (by omega)
    rw [bit_subBit (by omega) hset]
    rw [hcls] at hlt hun hzero
    generalize blocks (sizeClass sz) = k at hlt hun hzero ⊢
    simp only [Bool.and_eq_true, Bool.not_eq_true', decide_eq_false_iff_not]
    cases h0 : bit (s.superblock (pageOf p)).blockMap 0 with
    | false =>
      have hlt0 := hzero h0
      rw [if_neg (by simp)]
      omega
    | true =>
      by_cases hid : blockId s p = 0
      · rw [if_neg (by simp [hid])]
        omega
      · rw [if_pos ⟨Ne.symm hid, rfl⟩]
        omega
  · have hother := hf.other a he
    simp only [State.content, Prod.mk.injEq] at hother
    rw [if_neg he, tryBlock_congr hother.2.1 hother.2.2]

theorem Freed.size (hf : Freed S s t p) (a : Nat) :
    (t.superblock a).blockSize = (s.superblock a).blockSize := by
  by_cases he : a = pageOf p
  · rw [he]
    exact congrArg Prod.fst hf.page
  · exact congrArg Prod.fst (hf.other a he)

/-- The superblocks of the heap of `p` with a block for the request once `p` is free. -/
theorem Freed.hasRoom (hf : Freed (superblocks n s) s t p)
    (hi : Shelved n s (superblocks n s) live L) {L' : Bin → List Nat}
    (ht : Shelved n t (superblocks n s) (live.erase p) L')
    (hS : superblocks n t = superblocks n s) (hp : p ∈ live) (hsz : sz ≤ 2048) (hh : h ≠ 0) :
    HasRoom n t h sz ↔ ∃ a, RoomAfter n s h sz p a ∧ ¬Moves s (pageOf p) a := by
  rw [HasRoom, hS]
  constructor
  · rintro ⟨a, ha, hheap, hcls, htry⟩
    have hno : ¬Moves s (pageOf p) a := by
      intro hm
      exact hh (hheap.symm.trans (hf.moved a hm).2.1)
    rw [hf.size] at hcls
    rw [hf.kept a hno] at hheap
    exact ⟨a, ⟨ha, hheap, hcls, (hf.usable hi ht hp ha hsz hcls).mp htry⟩, hno⟩
  · rintro ⟨a, ⟨ha, hheap, hcls, huse⟩, hno⟩
    refine ⟨a, ha, (hf.kept a hno).trans hheap, (hf.size a).trans hcls, ?_⟩
    exact (hf.usable hi ht hp ha hsz hcls).mpr huse

theorem Shelved.bin_isSome (hi : Shelved n s S live L) (hh : o.heap ≤ n) :
    (s.bin o).isSome ↔ ∃ a ∈ S, binOf (s.superblock a) = o := by
  rw [hi.bin_eq hh, List.isSome_head?]
  constructor
  · intro hne
    obtain ⟨a, ha⟩ := List.exists_mem_of_ne_nil _ hne
    exact ⟨a, (hi.mem_list hh).mp ha⟩
  · rintro ⟨a, ha⟩
    exact List.ne_nil_of_mem ((hi.mem_list hh).mpr ha)

/-- A superblock of another heap stays where it is. -/
theorem Freed.binOf_other (hf : Freed S s t p)
    (ha : (s.superblock a).heapId ≠ (s.superblock (pageOf p)).heapId) :
    binOf (t.superblock a) = binOf (s.superblock a) := by
  have hne : a ≠ pageOf p := by
    rintro rfl
    exact ha rfl
  have hno : ¬Moves s (pageOf p) a := fun hm => ha (hf.moved a hm).2.2.1
  have hother := hf.other a hne
  simp only [State.content, Prod.mk.injEq] at hother
  exact binOf_congr hother.1 hother.2.2 (hf.kept a hno)

/-- The superblock that has been moved is in bin 1 of the global heap. -/
theorem Freed.binOf_moved (hf : Freed S s t p) (ht : Shelved n t S live L)
    (hm : Moves s (pageOf p) a) :
    binOf (t.superblock a) = ⟨0, sizeId (t.superblock a).blockSize, 1⟩ := by
  obtain ⟨ha, hheap, -, hquarter⟩ := hf.moved a hm
  have hu0 := (ht.used_bounds ha).1
  rw [binOf, hheap, fullness_eq hu0, Nat.div_eq_of_lt (by omega)]

/-- Bin 1 of the global heap holds what it held, and the superblock that has been moved. -/
theorem Freed.bin_isSome (hf : Freed (superblocks n s) s t p)
    (hi : Shelved n s (superblocks n s) live L) {L' : Bin → List Nat}
    (ht : Shelved n t (superblocks n s) (live.erase p) L') (hsz : sz ≤ 2048)
    (hown : (s.superblock (pageOf p)).heapId ≠ 0) :
    (t.bin ⟨0, sizeId sz, 1⟩).isSome ↔ (s.bin ⟨0, sizeId sz, 1⟩).isSome ∨
      ∃ a, Moves s (pageOf p) a ∧ (s.superblock a).blockSize = sizeClass sz := by
  rw [ht.bin_isSome (o := ⟨0, sizeId sz, 1⟩) (Nat.zero_le n),
    hi.bin_isSome (o := ⟨0, sizeId sz, 1⟩) (Nat.zero_le n)]
  have hglobal : ∀ {b : Superblock}, binOf b = ⟨0, sizeId sz, 1⟩ → b.heapId = 0 :=
    fun hb => congrArg Bin.heap hb
  constructor
  · rintro ⟨a, ha, hb⟩
    by_cases hm : Moves s (pageOf p) a
    · refine .inr ⟨a, hm, ?_⟩
      rw [← hf.size]
      exact blockSize_of_bin ht.toBooks ha hsz hb
    · refine .inl ⟨a, ha, ?_⟩
      have hheap := hglobal hb
      rw [hf.kept a hm] at hheap
      rwa [← hf.binOf_other (by rw [hheap]; exact hown.symm)]
  · rintro (⟨a, ha, hb⟩ | ⟨a, hm, hcls⟩)
    · refine ⟨a, ha, ?_⟩
      rwa [hf.binOf_other (by rw [hglobal hb]; exact hown.symm)]
    · refine ⟨a, (hf.moved a hm).1, ?_⟩
      rw [hf.binOf_moved ht hm, hf.size, hcls, sizeId_sizeClass hsz]

/-! Free and ask again. -/

/-- `mm_free` of `p` and then `mm_malloc` of `sz` bytes on `cpu` return a block, and do not call
`mem_sbrk` for it. -/
def Reused (s : State) (cpu sz p : Nat) : Prop :=
  ∃ u, mmFree s p = .ok u ∧ (∃ t q, mmMalloc u cpu sz = .ok (t, some q)) ∧
    ∀ v, Access.sbrk v ∉ accesses u (.malloc cpu sz)

/-- With the block of `p` free, a superblock that stays in the heap of `cpu` has room, or the
global heap can be asked, and one that goes there has room, or one in its bin 1. -/
def Reusable (n : Nat) (s : State) (cpu sz p : Nat) : Prop :=
  (s.heapTable (cpu + 1)).lock = false ∧
    ((∃ a, RoomAfter n s (cpu + 1) sz p a ∧ ¬Moves s (pageOf p) a) ∨
      (s.heapTable 0).lock = false ∧
        ((∃ a, RoomAfter n s (cpu + 1) sz p a) ∨ (s.bin ⟨0, sizeId sz, 1⟩).isSome))

theorem freeSmall_lock {page offset : Nat} (hf : freeSmall s page offset = .ok t) :
    (s.heapTable (s.superblock page).heapId).lock = false := by
  obtain ⟨u, hl, -⟩ := ok_of_bind hf
  exact (lockHeap_ok hl).1

/-- What is moved has room for a request of its class. -/
theorem Freed.roomAfter (hf : Freed (superblocks n s) s t p)
    (hi : Shelved n s (superblocks n s) live L) {L' : Bin → List Nat}
    (ht : Shelved n t (superblocks n s) (live.erase p) L') (hp : p ∈ live) (hsz : sz ≤ 2048)
    (hm : Moves s (pageOf p) a) (hcls : (s.superblock a).blockSize = sizeClass sz) :
    RoomAfter n s (s.superblock (pageOf p)).heapId sz p a := by
  obtain ⟨ha, -, hheap, hquarter⟩ := hf.moved a hm
  refine ⟨ha, hheap, hcls, (hf.usable hi ht hp ha hsz hcls).mp ?_⟩
  exact ht.tryBlock_quarter ha hsz ((hf.size a).trans hcls) hquarter

/-- A block that is freed is reused, unless it is the first block of a full superblock and too
short for the request behind the header, or the global heap, where its superblock went, is
locked. -/
theorem reuse_iff (hc : Started n c) (hr : Along (SmallStep n) c run) (ho : Obtained sz p c run)
    (hcpu : cpu < n)
    (hown : ((lastState c run).state.superblock (pageOf p)).heapId = cpu + 1) :
    Reused (lastState c run).state cpu sz p ↔ Reusable n (lastState c run).state cpu sz p := by
  have hreach := hr.reaches_last
  obtain ⟨hp, hsz, hcls⟩ := obtained_class hc hr ho
  generalize lastState c run = d at hreach hp hcls hown ⊢
  obtain ⟨L, hi⟩ := smallOk_reaches hc hreach
  rw [Reused, Reusable, hi.mmFree_eq hp]
  by_cases hlock : (d.state.heapTable (cpu + 1)).lock = false
  swap
  · refine iff_of_false ?_ fun h => hlock h.1
    rintro ⟨u, hf, -⟩
    exact hlock (hown ▸ freeSmall_lock hf)
  obtain ⟨t, hf, hfreed⟩ := hi.shelved.freed hp (by rwa [hown])
  obtain ⟨⟨L', ht⟩, hsizes⟩ := freeSmall_spec hi hp hf
  have hS := superblocks_congr (n := n) hsizes.dsegLo hsizes.dsegHi
  have hshelved := ht.shelved
  rw [hS] at hshelved
  have hw : Within t := (within_small hc hreach).extends (.of_seg (freeSmall_seg hf))
  have hown0 : (d.state.superblock (pageOf p)).heapId ≠ 0 := by omega
  have hserved := served_iff ht hw hcpu hsz
  rw [hfreed.lock, hfreed.lock, hfreed.hasRoom hi.shelved hshelved hS hp hsz (Nat.succ_ne_zero cpu),
    hfreed.bin_isSome hi.shelved hshelved hsz hown0] at hserved
  have hreused : (∃ u, freeSmall d.state (pageOf p) (p % pgSize) = .ok u ∧
      (∃ t q, mmMalloc u cpu sz = .ok (t, some q)) ∧
        ∀ v, Access.sbrk v ∉ accesses u (.malloc cpu sz)) ↔
      (∃ t' q, mmMalloc t cpu sz = .ok (t', some q)) ∧
        ∀ v, Access.sbrk v ∉ accesses t (.malloc cpu sz) := by
    simp [hf]
  rw [hreused, hserved]
  refine and_congr_right fun _ => ?_
  by_cases hstay : ∃ a, RoomAfter n d.state (cpu + 1) sz p a ∧ ¬Moves d.state (pageOf p) a
  · simp [hstay]
  · simp only [hstay, false_or]
    refine and_congr_right fun _ => ?_
    rw [or_comm]
    refine or_congr_left ?_
    constructor
    · rintro ⟨a, hm, hac⟩
      exact ⟨a, hown ▸ hfreed.roomAfter hi.shelved hshelved hp hsz hm hac⟩
    · rintro ⟨a, ha⟩
      refine ⟨a, ?_, ha.2.2.1⟩
      by_contra hno
      exact hstay ⟨a, ha, hno⟩

/-- A pointer that the first request has returned, and that no later call frees. -/
theorem obtained_first (hfirst : run.head?.map Prod.fst = some (.malloc cpu sz (some p)))
    (hkept : ∀ x ∈ run, x.1 ≠ .free p) : Obtained sz p c run := by
  cases run with
  | nil => simp at hfirst
  | cons x rest =>
    obtain ⟨e, d⟩ := x
    simp only [List.head?_cons, Option.map_some, Option.some.injEq] at hfirst
    exact ⟨[], e, d, rest, rfl, ⟨cpu, hfirst⟩, along_labels fun y hy => hkept y (by simp [hy])⟩

theorem reuse_iff_oneCpu : ∃ run, calls 1 oneCpu [.malloc 0 100] = .ok run ∧
    (Reused (lastState oneCpu run).state 0 100 16512 ↔
      Reusable 1 (lastState oneCpu run).state 0 100 16512) := by
  obtain ⟨run, hrun, hlast⟩ := ok_of_map (c := calls 1 oneCpu [.malloc 0 100])
    (f := fun run => (run.map Prod.fst, decide
      (((lastState oneCpu run).state.superblock (pageOf 16512)).heapId = 1)))
    (b := ([.malloc 0 100 (some 16512)], true)) (by decide +kernel)
  obtain ⟨hlabels, hown⟩ := Prod.mk.inj hlast
  have hsmall : ∀ op ∈ [Op.malloc 0 100], op.Small := by decide
  refine ⟨run, hrun, reuse_iff oneCpu_started (calls_small hrun hsmall) ?_ (by decide)
    (of_decide_eq_true hown)⟩
  have hfirst : run.head?.map Prod.fst = some (.malloc 0 100 (some 16512)) := by
    rw [← List.head?_map, hlabels]
    rfl
  refine obtained_first hfirst fun x hx he => ?_
  have := List.mem_map_of_mem (f := Prod.fst) hx
  simp [hlabels, he] at this

/-- Sixteen requests of 200 bytes fill a superblock, the first with its first block. That block is
free again, and a request of 200 bytes calls `mem_sbrk`. -/
theorem first_block_lost : Started 1 oneCpu ∧ ∃ run, Along (SmallStep 1) oneCpu run ∧
    Obtained 200 16384 oneCpu run ∧
    ((lastState oneCpu run).state.superblock (pageOf 16384)).heapId = 1 ∧
    ¬Reused (lastState oneCpu run).state 0 200 16384 := by
  obtain ⟨run, hrun, hlast⟩ := ok_of_map (c := calls 1 oneCpu (List.replicate 16 (.malloc 0 200)))
    (f := fun run => (run.head?.map Prod.fst, run.all fun x => decide (x.1 ≠ .free 16384),
      decide (((lastState oneCpu run).state.superblock (pageOf 16384)).heapId = 1),
      (mmFree (lastState oneCpu run).state 16384).toOption.any fun u =>
        decide (Access.sbrk (some 20480) ∈ accesses u (.malloc 0 200))))
    (b := (some (.malloc 0 200 (some 16384)), true, true, true)) (by decide +kernel)
  simp only [Prod.mk.injEq] at hlast
  obtain ⟨hfirst, hkept, hown, hsbrk⟩ := hlast
  have hsmall : ∀ op ∈ List.replicate 16 (Op.malloc 0 200), op.Small := by decide
  refine ⟨oneCpu_started, run, calls_small hrun hsmall,
    obtained_first hfirst fun x hx => of_decide_eq_true (List.all_eq_true.mp hkept x hx),
    of_decide_eq_true hown, ?_⟩
  rintro ⟨u, hf, -, hno⟩
  rw [hf] at hsbrk
  exact hno _ (of_decide_eq_true hsbrk)

end Csc469.Alloc
