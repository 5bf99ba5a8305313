import Csc469.Alloc.Reuse

/-! Bin 0, which is named 'Empty', and the superblocks without a block in use. -/
namespace Csc469.Alloc

open Execution Linked Bitmap

variable {n cpu sz : Nat} {s t u : State} {S S' : Finset Nat} {L : Bin → List Nat} {o : Bin}
  {live : List Nat} {c d : Config} {a p : Nat} {run : List (Event × Config)} {e : Event}

/-- Superblock `a` is in the list of bin `o`. -/
def InBin (s : State) (o : Bin) (a : Nat) : Prop :=
  ∃ xs, DList s.next s.prev (s.bin o) xs ∧ a ∈ xs

/-- Bin 0 of a class in a heap holds the superblocks of which no block is in use; and while the
global heap owns one, a small request that finds no room in its own heap is served from such a
superblock, without `mem_sbrk`. -/
structure EmptyBins (n : Nat) (s : State) : Prop where
  holds : ∀ a ∈ superblocks n s, (s.superblock a).usedBlocks = 0 →
    InBin s ⟨(s.superblock a).heapId, sizeId (s.superblock a).blockSize, 0⟩ a
  only : ∀ h ≤ n, ∀ i a, InBin s ⟨h, i, 0⟩ a → (s.superblock a).usedBlocks = 0
  reused : ∀ a ∈ superblocks n s, (s.superblock a).heapId = 0 → (s.superblock a).usedBlocks = 0 →
    ∀ cpu < n, ∀ sz ≤ 2048, scan s (cpu + 1) sz = .ok none →
      (∀ v, Access.sbrk v ∉ accesses s (.malloc cpu sz)) ∧
      ∃ t p, mmMalloc s cpu sz = .ok (t, some p) ∧
        (s.superblock (pageOf p)).heapId = 0 ∧ (s.superblock (pageOf p)).usedBlocks = 0

/-- Every superblock has a block in use. -/
def NoneEmpty (n : Nat) (s : State) : Prop :=
  ∀ a ∈ superblocks n s, (s.superblock a).usedBlocks ≠ 0

theorem not_inBin (hb : s.bin o = none) : ¬InBin s o a := by
  rintro ⟨xs, hd, ha⟩
  have hnil : xs = [] := by
    have := hd.head_eq
    rwa [hb, eq_comm, List.head?_eq_none_iff] at this
  simp [hnil] at ha

/-- Nothing is ever in bin 0: the law holds as long as there is nothing to be in it. -/
theorem SmallInv.emptyBins_iff_none (hi : SmallInv n s live L) : EmptyBins n s ↔ NoneEmpty n s := by
  constructor
  · intro hlaw a ha hused
    exact not_inBin (hi.shelved.empty_bin (hi.placed.le a ha) _) (hlaw.holds a ha hused)
  · intro hno
    refine ⟨fun a ha hused => (hno a ha hused).elim, fun h hh i a hin => ?_,
      fun a ha _ hused => (hno a ha hused).elim⟩
    exact (not_inBin (hi.shelved.empty_bin hh i) hin).elim

/-- Nothing in use: no block belongs to the header, and none to the program. -/
theorem Books.used_zero (hc : Books n s S live) (ha : a ∈ S) :
    (s.superblock a).usedBlocks = 0 ↔
      blocksUsed (s.superblock a).blockSize = 0 ∧ ∀ q ∈ live, pageOf q ≠ a := by
  have hok := hc.blocksOk a ha
  have hbd := blocks_bounds hok.cls
  rw [hok.used]
  norm_cast
  rw [Finset.card_eq_zero, Finset.eq_empty_iff_forall_notMem]
  constructor
  · intro hnone
    have hclear : ∀ id < 512, ¬bit (s.superblock a).blockMap id = true :=
      fun id hid hset => hnone id (mem_ones.mpr ⟨hid, hset⟩)
    refine ⟨?_, fun q hq hqa => ?_⟩
    · by_contra hpos
      exact hclear 0 (by omega) ((hok.bits 0 (by omega)).mpr (.inl (by omega)))
    · have hlt := (hc.live.id q hq).2
      rw [hqa] at hlt
      exact hclear (blockId s q) (by omega) ((hok.bits _ (by omega)).mpr (.inr ⟨q, hq, hqa, rfl⟩))
  · rintro ⟨hheader, hno⟩ id hid
    obtain ⟨hlt, hset⟩ := mem_ones.mp hid
    rcases (hok.bits id hlt).mp hset with h | ⟨q, hq, hqa, -⟩
    · omega
    · exact hno q hq hqa

/-- A superblock that comes in has the block that is returned. -/
theorem mallocSmall_new (hi : SmallInv n s live L) (hsz : sz ≤ 2048) (hcpu : cpu < n)
    (hm : mallocSmall s cpu sz = .ok (t, some p)) (ha : a ∈ superblocks n t)
    (hnew : a ∉ superblocks n s) : pageOf p = a := by
  rw [mallocSmall_eq, map_eq_ok] at hm
  obtain ⟨⟨u, found⟩, hsel, hm⟩ := hm
  rcases hi.shelved.selectSuperblock hsz hcpu hsel with ⟨rfl, -⟩ | ⟨S', x, rfl, hx⟩
  · cases hm
  · obtain ⟨L', hinv⟩ := hx.inv
    obtain ⟨q, id, he, hd, hsizes, -⟩ := takeBlock_inv hinv hsz hx.mem hx.bin hx.free hx.first hm
    cases he
    have hpage := (hd.page (mem_superblocks.mp (hinv.page hx.mem)).2 hsz).1
    have hS := (hx.grew.after hsizes (takeBlock_large hm).type).sizesKept hi.segment
    rw [hpage]
    rw [← hS.1] at ha
    rcases hx.grew.page with ⟨rfl, -⟩ | ⟨rfl, -⟩
    · exact (hnew ha).elim
    · have hne : insert (s.dsegHi + 1) (superblocks n s) ≠ superblocks n s := by
        intro he
        rw [he] at ha
        exact hnew ha
      rw [hx.fresh.resolve_left hne]
      exact ((Finset.mem_insert.mp ha).resolve_right hnew).symm

theorem NoneEmpty.malloc (hno : NoneEmpty n s) (hi : SmallInv n s live L) (hsz : sz ≤ 2048)
    (hcpu : cpu < n) {r : Option Nat} (hm : mallocSmall s cpu sz = .ok (t, r)) :
    NoneEmpty n t := by
  rcases hi.shelved.mallocSmall hsz hcpu hm with ⟨rfl, -, hsame⟩ | ⟨_, p, _, _, _, rfl, -, hg⟩
  · intro a ha
    rw [superblocks_congr hsame.dsegLo hsame.dsegHi] at ha
    rw [hsame.superblock]
    exact hno a ha
  · obtain ⟨hS, hk⟩ := hg.grew.sizesKept hi.segment
    obtain ⟨L', ht⟩ := hg.inv
    rw [hS] at ht
    intro a ha
    rw [Ne, ht.used_zero ha]
    rintro ⟨hheader, hnone⟩
    by_cases hold : a ∈ superblocks n s
    · refine hno a hold ((hi.shelved.used_zero hold).mpr ⟨?_, fun q hq => ?_⟩)
      · rwa [← (hk.old a hold).2]
      · exact hnone q (List.mem_cons_of_mem _ hq)
    · exact hnone p (List.mem_cons_self ..) (mallocSmall_new hi hsz hcpu hm ha hold)

/-- The call frees the last block in use of a superblock. -/
def Empties (c : Config) : Event → Prop
  | .malloc .. => False
  | .free p => (c.state.superblock (pageOf p)).usedBlocks = 1

theorem NoneEmpty.free (hno : NoneEmpty n s) (hi : SmallInv n s live L) (hp : p ∈ live)
    (hf : freeSmall s (pageOf p) (p % pgSize) = .ok t) :
    NoneEmpty n t ↔ (s.superblock (pageOf p)).usedBlocks ≠ 1 := by
  obtain ⟨t', hf', hfreed⟩ := hi.shelved.freed hp (freeSmall_lock hf)
  cases hf.symm.trans hf'
  have hsizes := (freeSmall_spec hi hp hf).2
  have hpage := hfreed.page
  simp only [State.content, Prod.mk.injEq] at hpage
  rw [NoneEmpty, superblocks_congr hsizes.dsegLo hsizes.dsegHi]
  constructor
  · intro hafter hone
    refine hafter _ (hi.live.page p hp) ?_
    rw [hpage.2.2, hone]
    rfl
  · intro hone a ha
    by_cases he : a = pageOf p
    · rw [he, hpage.2.2]
      omega
    · have hother := hfreed.other a he
      simp only [State.content, Prod.mk.injEq] at hother
      rw [hother.2.2]
      exact hno a ha

theorem noneEmpty_step (hok : SmallOk n c) (hno : NoneEmpty n c.state) (hs : SmallStep n c e d) :
    NoneEmpty n d.state ↔ ¬Empties c e := by
  obtain ⟨L, hi⟩ := hok
  obtain ⟨hstep, hsmall⟩ := hs
  cases hstep with
  | malloc hcpu hsz hm =>
    rw [mmMalloc_small hsmall] at hm
    exact iff_of_true (hno.malloc hi hsmall hcpu hm) id
  | free hp hf =>
    rw [hi.mmFree_eq hp] at hf
    exact hno.free hi hp hf

/-- The law of bin 0 holds after every call of a run exactly as long as no superblock becomes
empty. -/
theorem emptyBins_iff (hc : Started n c) (hr : Along (SmallStep n) c run) :
    Along (fun _ _ d => EmptyBins n d.state) c run ↔ Along (fun c e _ => ¬Empties c e) c run := by
  refine along_iff (I := fun c => SmallOk n c ∧ NoneEmpty n c.state) ?_ ⟨smallOk_started hc, ?_⟩ hr
  · rintro s e t ⟨hok, hno⟩ hs
    have ht := smallOk_step hok hs
    have hiff := noneEmpty_step hok hno hs
    obtain ⟨L, hi⟩ := ht
    rw [hi.emptyBins_iff_none]
    exact ⟨hiff, fun h => ⟨⟨L, hi⟩, hiff.mpr h⟩⟩
  · intro a ha
    simp [superblocks_started hc] at ha

theorem emptyBins_iff_oneCpu : ∃ run, calls 1 oneCpu [.malloc 0 200, .free 16384] = .ok run ∧
    (Along (fun _ _ d => EmptyBins 1 d.state) oneCpu run ↔
      Along (fun c e _ => ¬Empties c e) oneCpu run) := by
  obtain ⟨run, hrun, -⟩ := ok_of_map (c := calls 1 oneCpu [.malloc 0 200, .free 16384])
    (f := fun _ => ()) (b := ()) (by decide +kernel)
  have hsmall : ∀ op ∈ [Op.malloc 0 200, .free 16384], op.Small := by decide
  exact ⟨run, hrun, emptyBins_iff oneCpu_started (calls_small hrun hsmall)⟩

/-- Nine requests of 2000 bytes, one superblock each; all but the last are freed, with the eighth
a superblock without a block in use goes to the global heap. -/
def eightFreed : List Op :=
  List.replicate 9 (.malloc 0 2000) ++ (List.range 8).map fun k => .free (18432 + 4096 * k)

/-- That superblock is in no bin 0, and a request of 8 bytes calls `mem_sbrk`. -/
theorem empty_not_reused : Started 1 oneCpu ∧ ∃ d, Reaches (SmallStep 1) oneCpu d ∧
    ¬EmptyBins 1 d.state ∧ (∃ a ∈ superblocks 1 d.state,
      (d.state.superblock a).heapId = 0 ∧ (d.state.superblock a).usedBlocks = 0) ∧
    scan d.state 1 8 = .ok none ∧ Access.sbrk (some 53248) ∈ accesses d.state (.malloc 0 8) := by
  obtain ⟨run, hrun, hlast⟩ := ok_of_map (c := calls 1 oneCpu eightFreed)
    (f := fun run => decide (((firstPage 1 (lastState oneCpu run).state ≤ 45056 ∧
        45056 ≤ (lastState oneCpu run).state.dsegHi) ∧ pgSize ∣ 45056) ∧
      ((lastState oneCpu run).state.superblock 45056).heapId = 0 ∧
      ((lastState oneCpu run).state.superblock 45056).usedBlocks = 0 ∧
      (scan (lastState oneCpu run).state 1 8).toOption.map (Option.map Prod.fst) = some none ∧
      Access.sbrk (some 53248) ∈ accesses (lastState oneCpu run).state (.malloc 0 8)))
    (b := true) (by decide +kernel)
  obtain ⟨hmem, hheap, hused, hscan, hsbrk⟩ := of_decide_eq_true hlast
  have hsmall : ∀ op ∈ eightFreed, op.Small := by decide
  have hr := (calls_small hrun hsmall).reaches_last
  have ha := mem_superblocks.mpr hmem
  obtain ⟨found, hfound, hnone⟩ := ok_of_map hscan
  rw [Option.map_eq_none_iff] at hnone
  subst hnone
  refine ⟨oneCpu_started, _, hr, fun hlaw => ?_, ⟨45056, ha, hheap, hused⟩, hfound, hsbrk⟩
  obtain ⟨L, hi⟩ := smallOk_reaches oneCpu_started hr
  exact hi.emptyBins_iff_none.mp hlaw 45056 ha hused

end Csc469.Alloc
