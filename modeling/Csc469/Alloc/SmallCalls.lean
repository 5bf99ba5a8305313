import Csc469.Alloc.Frames
import Csc469.Alloc.SmallSteps
import Mathlib.Algebra.BigOperators.Ring.Finset
import Mathlib.Algebra.Order.BigOperators.Group.Finset

/-! Small `mm_malloc` and `mm_free`, call by call. -/
namespace Csc469.Alloc

open Linked Bitmap Execution

variable {n h cpu sz id k old : Nat} {s t u : State} {S S' : Finset Nat} {L : Bin → List Nat}
  {a p sb : Nat} {o d : Bin} {live : List Nat} {useFirst : Bool} {r : Option Nat}

/-! The global heap. -/

theorem newSuperblock_bin : (newSuperblock s a k).bin o = s.bin o :=
  State.setHeap_bin (s := s.setType a 0) (h := 0)
    (f := fun h => { h with used := h.used + blocksUsed k * k }) fun _ => rfl

/-- One page further, with a new superblock in the 'Empty' bin of the global heap. -/
structure Grown (s u : State) (sb cls : Nat) : Prop where
  page : sb = s.dsegHi + 1
  dsegLo : u.dsegLo = s.dsegLo
  dsegHi : u.dsegHi = s.dsegHi + pgSize
  type : ∀ a, u.type a = if a = sb then 0 else s.type a
  old : ∀ a, a ≠ sb → u.superblock a = s.superblock a
  new : u.superblock sb = ⟨cls, headerMap cls, blocksUsed cls, 0, none, none⟩
  bin : ∀ b, u.bin b = if b = ⟨0, sizeId cls, 0⟩ then some sb else s.bin b
  allocated : ∀ h, (u.heapTable h).allocated =
    (s.heapTable h).allocated + if h = 0 then (sbSize : Int) else 0
  used : ∀ h, (u.heapTable h).used =
    (s.heapTable h).used + if h = 0 then (blocksUsed cls * cls : Int) else 0

theorem superblocks_insert (hs : Segment n s) (hlo : t.dsegLo = s.dsegLo)
    (hhi : t.dsegHi = s.dsegHi + pgSize) :
    superblocks n t = insert (s.dsegHi + 1) (superblocks n s) ∧
      s.dsegHi + 1 ∉ superblocks n s := by
  obtain ⟨h1, h2, h3, h4⟩ := hs
  refine ⟨?_, fun hm => ?_⟩
  · ext c
    simp only [Finset.mem_insert, mem_superblocks, firstPage, hlo, hhi]
    simp only [firstPage] at h4
    constructor
    · rintro ⟨⟨hlo, hhi⟩, hd⟩
      rcases Nat.lt_or_ge c (s.dsegHi + 1) with hlt | hge
      · exact .inr ⟨⟨hlo, by omega⟩, hd⟩
      · left
        simp only [pgSize] at *
        omega
    · rintro (rfl | ⟨⟨hlo, hhi⟩, hd⟩)
      · exact ⟨⟨h4, by simp [pgSize]⟩, h3⟩
      · exact ⟨⟨hlo, by omega⟩, hd⟩
  · have := (mem_superblocks.mp hm).1.2
    omega

theorem Grown.pages (hg : Grown s u sb k) (hs : Segment n s) :
    superblocks n u = insert sb (superblocks n s) ∧ sb ∉ superblocks n s := by
  rw [hg.page]
  exact superblocks_insert hs hg.dsegLo hg.dsegHi

theorem Grown.not_mem (hg : Grown s u sb k) (hc : Books n s S live) : sb ∉ S :=
  fun hm => (hg.pages hc.segment).2 (hc.page hm)

theorem Grown.books (hg : Grown s u sb k) (hk : k ∈ blockSizes) (hc : Books n s S live) :
    Books n u (insert sb S) live := by
  have hS := (hg.pages hc.segment).1
  have hnew := hg.not_mem hc
  obtain ⟨g1, g2, g3, g4⟩ := hc.segment
  obtain ⟨l1, l2, l3⟩ := hc.live
  have hpage : ∀ q ∈ live, pageOf q ≠ sb := fun q hq he => hnew (he ▸ l1 q hq)
  have hblock : ∀ q ∈ live, blockId u q = blockId s q := by
    intro q hq
    rw [blockId, blockId, hg.old _ (hpage q hq)]
  refine ⟨⟨?_, ?_, ?_, ?_⟩, ?_, fun c hcS => ?_, fun c hcS => ?_, fun q hq => ?_, fun q hq => ?_, ?_⟩
  · rwa [hg.dsegLo]
  · rwa [hg.dsegLo]
  · rw [hg.dsegHi, Nat.add_right_comm]
    exact Nat.dvd_add g3 (Nat.dvd_refl _)
  · rw [firstPage, hg.dsegLo, hg.dsegHi]
    exact g4.trans (by omega)
  · rw [hS]
    exact Finset.insert_subset_insert sb hc.page
  · rw [hg.type]
    split
    · rfl
    · next hne => exact hc.type c ((Finset.mem_insert.mp hcS).resolve_left hne)
  · by_cases he : c = sb
    · subst he
      have hb := blocks_bounds hk
      have hlt := blocksUsed_lt hk
      refine ⟨?_, fun i hi => ?_, ?_⟩
      · simpa [hg.new] using hk
      · simp only [hg.new, bit_headerMap hk, decide_eq_true_eq]
        refine ⟨.inl, fun hor => hor.resolve_right ?_⟩
        rintro ⟨q, hq, hqc, _⟩
        exact hpage q hq hqc
      · simp [hg.new, ones_headerMap hk]
    · obtain ⟨k1, k2, k3⟩ := hc.blocksOk c ((Finset.mem_insert.mp hcS).resolve_left he)
      refine ⟨?_, fun i hi => ?_, ?_⟩
      · rwa [hg.old c he]
      · rw [hg.old c he, k2 i hi]
        refine or_congr_right (exists_congr fun q => and_congr_right fun hq => ?_)
        rw [hblock q hq]
      · rwa [hg.old c he]
  · exact Finset.mem_insert_of_mem (l1 q hq)
  · rw [hblock q hq, hg.old _ (hpage q hq)]
    exact l2 q hq
  · refine l3.imp_of_mem fun {q q'} hq hq' hne => ?_
    rwa [hblock q hq, hblock q' hq']

theorem Grown.placed (hg : Grown s u sb k) (hi : Shelved n s S live L) :
    Placed n u (insert sb S)
      (Function.update (fun a => binOf (s.superblock a)) sb ⟨0, sizeId k, 0⟩)
      (Function.update L ⟨0, sizeId k, 0⟩ (sb :: L ⟨0, sizeId k, 0⟩)) := by
  have hnew := hg.not_mem hi.toBooks
  have hp := hi.placed
  have hempty := hi.empty_bin (Nat.zero_le n) (sizeId k)
  have hnone : L ⟨0, sizeId k, 0⟩ = [] := by
    have hb := hi.bin_eq (o := ⟨0, sizeId k, 0⟩) (Nat.zero_le n)
    rw [hempty, eq_comm, List.head?_eq_none_iff] at hb
    exact hb
  have hsub : ∀ b, b.heap ≤ n → ∀ c, c ∈ L b → c ∈ S :=
    fun b hb c hcL => ((hp.mem b hb c).mp hcL).1
  have hold : ∀ c ∈ S, c ≠ sb := fun c hcS he => hnew (he ▸ hcS)
  refine ⟨?_, fun b hb c => ?_, fun c hcS => ?_, fun c hcS => ?_, fun h hh => ?_, fun h hh => ?_⟩
  · refine hp.family.cons (Nat.zero_le n) (fun b hb hm => hnew (hsub b hb sb hm)) ?_ ?_
      (fun y hy => by simp [State.next, hg.old y hy]) (fun y hy => ?_) (by simp [hg.bin])
      (fun b hb => by simp [hg.bin, hb])
    · simp [State.next, hg.new, hempty]
    · simp [State.prev, hg.new]
    · simp [State.prev, hg.old y hy, hempty]
  · by_cases hc : c = sb
    · subst hc
      by_cases hb0 : b = ⟨0, sizeId k, 0⟩
      · simp [hb0]
      · simp [Function.update_of_ne hb0, Ne.symm hb0, mt (hsub b hb c) hnew]
    · by_cases hb0 : b = ⟨0, sizeId k, 0⟩
      · subst hb0
        have := hp.mem _ hb c
        simp_all
      · rw [Function.update_of_ne hb0, Function.update_of_ne hc, hp.mem b hb c]
        simp [hc]
  · rcases Finset.mem_insert.mp hcS with rfl | hcS
    · simp [hg.new]
    · rw [hg.old c (hold c hcS), Function.update_of_ne (hold c hcS)]
      exact hp.heapId c hcS
  · rcases Finset.mem_insert.mp hcS with rfl | hcS
    · simp
    · rw [Function.update_of_ne (hold c hcS)]
      exact hp.le c hcS
  · have hrest : ∑ c ∈ S, (if (Function.update
        (fun a => binOf (s.superblock a)) sb ⟨0, sizeId k, 0⟩ c).heap = h then (sbSize : Int)
        else 0) = (s.heapTable h).allocated := by
      rw [hp.allocated h hh]
      exact Finset.sum_congr rfl fun c hcS => by rw [Function.update_of_ne (hold c hcS)]
    rw [Finset.sum_insert hnew, hg.allocated, hrest, Function.update_self]
    simp only [eq_comm (a := h)]
    omega
  · have hrest : ∑ c ∈ S, (if (Function.update
        (fun a => binOf (s.superblock a)) sb ⟨0, sizeId k, 0⟩ c).heap = h then
        usedBytes (u.superblock c) else 0) = (s.heapTable h).used := by
      rw [hp.used h hh]
      refine Finset.sum_congr rfl fun c hcS => ?_
      rw [Function.update_of_ne (hold c hcS), hg.old c (hold c hcS)]
    rw [Finset.sum_insert hnew, hg.used, hrest, Function.update_self, hg.new]
    simp only [eq_comm (a := h), usedBytes]
    omega

/-- The superblock that `mm_malloc` gets beyond its own heap, with its block map: one of the
global heap, or a new one unless the segment is used up. -/
def supply (s : State) (sz : Nat) : Option (Nat × (Nat → BitVec 8)) :=
  match s.bin ⟨0, sizeId sz, 1⟩ with
  | some sb => some (sb, (s.superblock sb).blockMap)
  | none =>
    if s.dsegHi + pgSize > s.dsegLo + s.dsegSize then none
    else some (s.dsegHi + 1, headerMap (sizeClass sz))

/-- The superblocks keep their sizes, and those that come in are for requests of `sz` bytes. -/
structure SizesKept (n sz : Nat) (s t : State) : Prop where
  old : ∀ a ∈ superblocks n s,
    a ∈ superblocks n t ∧ (t.superblock a).blockSize = (s.superblock a).blockSize
  new : ∀ a ∈ superblocks n t, a ∉ superblocks n s → (t.superblock a).blockSize = sizeClass sz

theorem SameSizes.sizesKept (hs : SameSizes s t) : SizesKept n sz s t := by
  have hS := superblocks_congr (n := n) hs.dsegLo hs.dsegHi
  refine ⟨fun a ha => ⟨?_, hs.size a⟩, fun a ha hno => ?_⟩
  · rwa [hS]
  · rw [hS] at ha
    exact (hno ha).elim

theorem SizesKept.trans (h : SizesKept n sz s t) (h' : SizesKept n sz t u) :
    SizesKept n sz s u := by
  refine ⟨fun a ha => ?_, fun a ha hno => ?_⟩
  · obtain ⟨hat, hst⟩ := h.old a ha
    obtain ⟨hau, htu⟩ := h'.old a hat
    exact ⟨hau, htu.trans hst⟩
  · by_cases hat : a ∈ superblocks n t
    · rw [(h'.old a hat).2]
      exact h.new a hat hno
    · exact h'.new a ha hat

/-- From `S` to `S'` superblocks keep their sizes, and no page comes in but the next one, for
requests of `sz` bytes. -/
structure Grew (sz : Nat) (s t : State) (S S' : Finset Nat) : Prop where
  size : ∀ a ∈ S, (t.superblock a).blockSize = (s.superblock a).blockSize
  dsegLo : t.dsegLo = s.dsegLo
  page : (S' = S ∧ t.dsegHi = s.dsegHi) ∨ (S' = insert (s.dsegHi + 1) S ∧
    t.dsegHi = s.dsegHi + pgSize ∧ (t.superblock (s.dsegHi + 1)).blockSize = sizeClass sz)
  type : ∀ a ∉ S', t.type a = s.type a

theorem SameBlocks.grew (hs : SameBlocks s t) : Grew sz s t S S :=
  ⟨fun a _ => (hs.blocks a).1, hs.dsegLo, .inl ⟨rfl, hs.dsegHi⟩, fun a _ => by rw [hs.type]⟩

theorem Grew.before (hs : SameBlocks s t) (hg : Grew sz t u S S') : Grew sz s u S S' := by
  obtain ⟨h1, h2, h3, h4⟩ := hg
  rw [hs.dsegHi] at h3
  refine ⟨fun a ha => (h1 a ha).trans (hs.blocks a).1, h2.trans hs.dsegLo, h3, fun a ha => ?_⟩
  rw [h4 a ha, hs.type]

theorem Grew.after (hg : Grew sz s t S S') (hs : SameSizes t u) (ht : u.type = t.type) :
    Grew sz s u S S' := by
  obtain ⟨h1, h2, h3, h4⟩ := hg
  refine ⟨fun a ha => (hs.size a).trans (h1 a ha), hs.dsegLo.trans h2, ?_, fun a ha => ?_⟩
  · rwa [hs.dsegHi, hs.size]
  · rw [ht, h4 a ha]

/-- Where all pages are superblocks, they are so afterwards. -/
theorem Grew.sizesKept (hg : Grew sz s t (superblocks n s) S') (hs : Segment n s) :
    S' = superblocks n t ∧ SizesKept n sz s t := by
  rcases hg.page with ⟨rfl, hhi⟩ | ⟨rfl, hhi, hnew⟩
  · have hS := superblocks_congr (n := n) hg.dsegLo hhi
    refine ⟨hS.symm, fun a ha => ⟨by rwa [hS], hg.size a ha⟩, fun a ha hno => ?_⟩
    rw [hS] at ha
    exact (hno ha).elim
  · obtain ⟨hS, -⟩ := superblocks_insert hs hg.dsegLo hhi
    refine ⟨hS.symm, fun a ha => ⟨?_, hg.size a ha⟩, fun a ha hno => ?_⟩
    · rw [hS]
      exact Finset.mem_insert_of_mem ha
    · rw [hS, Finset.mem_insert] at ha
      rwa [ha.resolve_right hno]

/-- A superblock with block map `m` has come to the heap of `cpu`. -/
structure Acquired (n : Nat) (s t : State) (S S' : Finset Nat) (live : List Nat)
    (cpu sz sb : Nat) (m : Nat → BitVec 8) : Prop where
  inv : ∃ L, Shelved n t S' live L
  mem : sb ∈ S'
  bin : binOf (t.superblock sb) = ⟨cpu + 1, sizeId sz, 1⟩
  map : (t.superblock sb).blockMap = m
  grew : Grew sz s t S S'

theorem Grown.acquired (hg : Grown s u sb (sizeClass sz)) (hi : Shelved n s S live L)
    (hsz : sz ≤ 2048) (hcpu : cpu < n) :
    Acquired n s (transferBins u sb ⟨0, sizeId sz, 0⟩ ⟨cpu + 1, sizeId sz, 1⟩) S (insert sb S)
      live cpu sz sb (headerMap (sizeClass sz)) := by
  have hk := sizeClass_mem hsz
  have hid := sizeId_sizeClass hsz
  have hnew := hg.not_mem hi.toBooks
  have hmem : sb ∈ insert sb S := Finset.mem_insert_self sb S
  have hc := hg.books hk hi.toBooks
  have hp := hg.placed hi
  rw [hid] at hp
  generalize hd : Bin.mk (cpu + 1) (sizeId sz) 1 = d
  have hdn : d.heap ≤ n := by rw [← hd]; exact hcpu
  have hpt := hp.transfer hmem hdn
  have htr := hp.spec (d := d) hmem
  simp only [Function.update_self] at hpt htr
  generalize move _ _ _ _ = L' at hpt
  have hsame := htr.sameBlocks
  have hbin : binOf ((transferBins u sb ⟨0, sizeId sz, 0⟩ d).superblock sb) = d := by
    obtain ⟨h1, _, h3⟩ := hsame.blocks sb
    rw [binOf, h1, h3, htr.heapId, if_pos rfl, hg.new, hid, fullness_blocksUsed hk, ← hd]
  refine ⟨⟨L', hc.congr hsame, ?_⟩, hmem, hbin.trans hd.symm, ?_, ?_⟩
  · refine hpt.congr_loc fun c hcS => ?_
    by_cases he : c = sb
    · subst he
      rw [Function.update_self, hbin]
    · obtain ⟨h1, _, h3⟩ := hsame.blocks c
      rw [Function.update_of_ne he, Function.update_of_ne he, binOf_congr h1 h3]
      · rw [hg.old c he]
      · rw [htr.heapId, if_neg he]
  · rw [(hsame.blocks sb).2.1, hg.new]
  · refine ⟨fun a ha => ?_, hsame.dsegLo.trans hg.dsegLo, .inr ⟨?_, ?_, ?_⟩, fun a ha => ?_⟩
    · rw [(hsame.blocks a).1, hg.old a fun he => hnew (he ▸ ha)]
    · rw [hg.page]
    · rw [hsame.dsegHi, hg.dsegHi]
    · rw [← hg.page, (hsame.blocks sb).1, hg.new]
    · have hne : a ≠ sb := by
        rintro rfl
        exact ha hmem
      rw [hsame.type, hg.type, if_neg hne]

theorem Shelved.acquired (hi : Shelved n s S live L) (hcpu : cpu < n)
    (hb : s.bin ⟨0, sizeId sz, 1⟩ = some sb) :
    Acquired n s (transferBins s sb ⟨0, sizeId sz, 1⟩ ⟨cpu + 1, sizeId sz, 1⟩) S S live cpu sz sb
      (s.superblock sb).blockMap := by
  obtain ⟨ha, hbin⟩ := hi.of_bin (o := ⟨0, sizeId sz, 1⟩) (Nat.zero_le n) hb
  have hsp := hi.placed.spec (d := ⟨cpu + 1, sizeId sz, 1⟩) ha
  rw [hbin] at hsp
  have hsame := hsp.sameBlocks
  obtain ⟨L', hL'⟩ := hi.handOver ha hbin (h := cpu + 1) hcpu
  refine ⟨⟨L', hL'⟩, ha, ?_, (hsame.blocks sb).2.1, hsame.grew⟩
  obtain ⟨h1, _, h3⟩ := hsame.blocks sb
  simp only [binOf, Bin.mk.injEq] at hbin ⊢
  rw [h1, h3, hsp.heapId, if_pos rfl]
  exact ⟨rfl, hbin.2.1, hbin.2.2⟩

theorem Shelved.no_empty (hi : Shelved n s S live L) :
    ((List.range 9).findSome? fun i => (s.bin ⟨0, i, 0⟩).map (i, ·)) = none := by
  rw [List.findSome?_eq_none_iff]
  intro i _
  rw [hi.empty_bin (Nat.zero_le n) i]
  rfl

/-- Where `mm_malloc` gets a superblock when its own heap has none for the request: nowhere, from
the global heap, or from `mem_sbrk`. -/
theorem takeGlobal_cases (hi : Shelved n s S live L) (hsz : sz ≤ 2048)
    {target : Option (Nat × Bin)} (ht : takeGlobal s sz = .ok (t, target)) :
    (target = none ∧ supply s sz = none ∧ SameBooks s t) ∨
    (∃ sb, s.bin ⟨0, sizeId sz, 1⟩ = some sb ∧ target = some (sb, ⟨0, sizeId sz, 1⟩) ∧ t = s) ∨
    (supply s sz = some (s.dsegHi + 1, headerMap (sizeClass sz)) ∧
      target = some (s.dsegHi + 1, ⟨0, sizeId sz, 0⟩) ∧
      Grown s t (s.dsegHi + 1) (sizeClass sz)) := by
  simp only [takeGlobal, hi.no_empty] at ht
  simp only [supply]
  cases hb : s.bin ⟨0, sizeId sz, 1⟩ with
  | some sb =>
    simp only [hb] at ht
    cases ht
    exact .inr (.inl ⟨sb, rfl, rfl, rfl⟩)
  | none =>
    simp only [hb] at ht
    obtain ⟨s1, hl, ht⟩ := ok_of_bind ht
    obtain ⟨⟨s2, tmp⟩, hm, ht⟩ := ok_of_bind ht
    unfold lockSbrk at hl
    split at hl
    · cases hl
    cases hl
    simp only [memSbrk, if_neg (show ¬pgSize = 0 by decide)] at hm
    split at hm
    · next hroom =>
      cases hm
      cases ht
      exact .inl ⟨rfl, if_pos hroom, ⟨rfl, fun _ => rfl, fun _ => rfl, fun _ => rfl, rfl, rfl,
        rfl, rfl⟩⟩
    · next hroom =>
      cases hm
      cases ht
      refine .inr (.inr ⟨if_neg hroom, rfl, ?_⟩)
      have hid := sizeId_sizeClass hsz
      refine ⟨rfl, rfl, rfl, fun a => ?_, fun a ha => ?_, ?_, fun b => ?_, fun h => ?_, fun h => ?_⟩
      · simp [newSuperblock, unlockSbrk, State.setBin, Function.update_apply]
      · simp [newSuperblock, unlockSbrk, State.setBin, ha]
      · simp [newSuperblock, unlockSbrk, State.setBin]
      · rw [State.setHeap_bin (by intro; rfl), State.setBin_bin, hid]
        split
        · rfl
        · exact newSuperblock_bin
      · by_cases hh : h = 0 <;> simp [newSuperblock, unlockSbrk, State.setBin, hh]
      · by_cases hh : h = 0 <;> simp [newSuperblock, unlockSbrk, State.setBin, hh]

/-- What `mm_malloc` does when its own heap has no superblock for the request. -/
theorem takeGlobal_spec (hi : Shelved n s S live L) (hsz : sz ≤ 2048) (hcpu : cpu < n)
    {target : Option (Nat × Bin)} (ht : takeGlobal s sz = .ok (t, target)) :
    (target = none ∧ supply s sz = none ∧ SameBooks s t) ∨
    ∃ S' sb o m, target = some (sb, o) ∧ supply s sz = some (sb, m) ∧
      (S' = S ∨ sb = s.dsegHi + 1) ∧
      Acquired n s (transferBins t sb o ⟨cpu + 1, sizeId sz, 1⟩) S S' live cpu sz sb m := by
  rcases takeGlobal_cases hi hsz ht with hnone | ⟨sb, hb, rfl, rfl⟩ | ⟨hsup, rfl, hg⟩
  · exact .inl hnone
  · exact .inr ⟨S, sb, _, _, rfl, by simp only [supply, hb], .inl rfl, hi.acquired hcpu hb⟩
  · exact .inr ⟨_, _, _, _, rfl, hsup, .inr rfl, hg.acquired hi hsz hcpu⟩

/-! `mm_malloc`. -/

/-- The superblock `mm_malloc` takes a block from, `use_first`, and its block map then. -/
def source (s : State) (L : Bin → List Nat) (cpu sz : Nat) :
    Option (Nat × Bool × (Nat → BitVec 8)) :=
  match hit s L (cpu + 1) sz with
  | some (sb, useFirst, _) => some (sb, useFirst, (s.superblock sb).blockMap)
  | none => (supply s sz).map fun (sb, m) => (sb, false, m)

theorem SameBooks.hit (hs : SameBooks s t) : hit t L h sz = hit s L h sz := by
  simp only [Alloc.hit, hs.superblock]

/-- The scan of a locked heap finds what its lists say before it is locked. -/
theorem Shelved.scan_locked {found : Option (Nat × Bool × Nat)} (hi : Shelved n s S live L)
    (hs : SameBooks s t) (hh : h ≤ n) (hscan : scan t h sz = .ok found) :
    found = Alloc.hit s L h sz := by
  rw [← hs.hit]
  exact scan_eq (hi.congr hs) hh hscan

theorem SameBooks.supply (hs : SameBooks s t) : supply t sz = supply s sz := by
  simp only [Alloc.supply, hs.superblock, hs.bin, hs.dsegLo, hs.dsegHi, hs.dsegSize]

/-- A block of `sb`, whose map was `m`, has been handed out, among the superblocks of `S'`. -/
structure HandedOut (n : Nat) (s t : State) (S S' : Finset Nat) (live : List Nat) (sz sb : Nat)
    (useFirst : Bool) (m : Nat → BitVec 8) (p : Nat) : Prop where
  inv : ∃ L, Shelved n t S' (p :: live) L
  handed : ∃ u id, (u.superblock sb).blockMap = m ∧ Handed u sb sz useFirst p id
  aligned : pgSize ∣ sb
  grew : Grew sz s t S S'

theorem takeBlock_given (hi : Shelved n u S' live L) (hg : Grew sz s u S S') (hsz : sz ≤ 2048)
    (ha : sb ∈ S') (hb : binOf (u.superblock sb) = ⟨cpu + 1, sizeId sz, old⟩)
    (hfree : (u.superblock sb).usedBlocks < blocks (u.superblock sb).blockSize)
    (huf : useFirst = true →
      bit (u.superblock sb).blockMap 0 = false ∧ sz + sizeofSuperblock ≤ sizeClass sz)
    (ht : takeBlock u cpu sz sb useFirst old = (t, r)) :
    ∃ p, r = some p ∧
      HandedOut n s t S S' live sz sb useFirst (u.superblock sb).blockMap p := by
  obtain ⟨p, id, rfl, hd, hsizes, hinv⟩ := takeBlock_inv hi hsz ha hb hfree huf ht
  exact ⟨p, rfl, hinv, ⟨u, id, rfl, hd⟩, (mem_superblocks.mp (hi.page ha)).2,
    hg.after hsizes (takeBlock_large ht).type⟩

/-- A superblock in bin 1 is not full. -/
theorem Shelved.used_lt_of_bin (hi : Shelved n s S live L) (ha : sb ∈ S)
    (hb : binOf (s.superblock sb) = ⟨h, id, 1⟩) :
    (s.superblock sb).usedBlocks < blocks (s.superblock sb).blockSize := by
  obtain ⟨hu0, hun⟩ := hi.used_bounds ha
  have hbd := blocks_bounds (hi.blocksOk sb ha).cls
  simp only [binOf, Bin.mk.injEq] at hb
  obtain ⟨-, -, hf⟩ := hb
  rw [fullness_eq hu0] at hf
  have hlt := (Nat.div_eq_zero_iff_lt (by omega)).mp (Nat.succ.inj hf)
  omega

/-- The first part of a small `mm_malloc`: the superblock it takes a block of, with `use_first`
and its fullness bin; none when there is no more space. -/
def selectSuperblock (s : State) (cpu sz : Nat) : Call (State × Option (Nat × Bool × Nat)) := do
  let s ← lockHeap s (cpu + 1)
  match ← scan s (cpu + 1) sz with
  | some x => .ok (s, some x)
  | none =>
    let s ← lockHeap s 0
    let (s, target) ← takeGlobal s sz
    match target with
    | none => .ok (s, none)
    | some (sb, origin) =>
      .ok (unlockHeap (transferBins s sb origin ⟨cpu + 1, sizeId sz, 1⟩) 0, some (sb, false, 1))

/-- The second part: take a block of that superblock, if there is one. -/
def takeSelected (cpu sz : Nat) : State × Option (Nat × Bool × Nat) → State × Option Nat
  | (s, none) => (s, none)
  | (s, some (sb, useFirst, oldFullness)) => takeBlock s cpu sz sb useFirst oldFullness

theorem mallocSmall_eq :
    mallocSmall s cpu sz = (selectSuperblock s cpu sz).map (takeSelected cpu sz) := by
  rw [Alloc.mallocSmall, selectSuperblock]
  cases lockHeap s (cpu + 1) with
  | error e => rfl
  | ok s1 =>
    simp only [bind, Except.bind]
    cases scan s1 (cpu + 1) sz with
    | error e => rfl
    | ok found =>
      cases found with
      | some x => rfl
      | none =>
        simp only
        cases lockHeap s1 0 with
        | error e => rfl
        | ok s2 =>
          simp only
          cases takeGlobal s2 sz with
          | error e => rfl
          | ok y => obtain ⟨s3, _ | x⟩ := y <;> rfl

/-- Superblock `x.1` is in bin `x.2.2` of its class in the heap of `cpu`, and has a free block;
its block 0, big enough behind the header, if `use_first` is set. -/
structure Selected (n : Nat) (s u : State) (S S' : Finset Nat) (live : List Nat)
    (L : Bin → List Nat) (cpu sz : Nat) (x : Nat × Bool × Nat) : Prop where
  inv : ∃ L', Shelved n u S' live L'
  mem : x.1 ∈ S'
  bin : binOf (u.superblock x.1) = ⟨cpu + 1, sizeId sz, x.2.2⟩
  free : (u.superblock x.1).usedBlocks < blocks (u.superblock x.1).blockSize
  first : x.2.1 = true →
    bit (u.superblock x.1).blockMap 0 = false ∧ sz + sizeofSuperblock ≤ sizeClass sz
  source : source s L cpu sz = some (x.1, x.2.1, (u.superblock x.1).blockMap)
  grew : Grew sz s u S S'
  fresh : S' = S ∨ x.1 = s.dsegHi + 1

theorem Shelved.selectSuperblock {found : Option (Nat × Bool × Nat)} (hi : Shelved n s S live L)
    (hsz : sz ≤ 2048) (hcpu : cpu < n) (hs : selectSuperblock s cpu sz = .ok (u, found)) :
    (found = none ∧ source s L cpu sz = none ∧ SameBooks s u) ∨
    ∃ S' x, found = some x ∧ Selected n s u S S' live L cpu sz x := by
  obtain ⟨s1, hlock, hs⟩ := ok_of_bind hs
  have hsame := lockHeap_same hlock
  have hi1 := hi.congr hsame
  obtain ⟨scanned, hscan, hs⟩ := ok_of_bind hs
  have hhit := hi.scan_locked hsame hcpu hscan
  cases scanned with
  | some x =>
    cases hs
    obtain ⟨ha, hb, htry⟩ := hi1.of_hit hcpu (scan_eq hi1 hcpu hscan).symm
    have hcls := blockSize_of_bin hi1.toBooks ha hsz hb
    obtain ⟨hfree, huf⟩ := tryBlock_spec hi1.toBooks ha hsz hcls htry
    refine .inr ⟨S, x, rfl, ⟨L, hi1⟩, ha, hb, hfree, huf, ?_, hsame.sameBlocks.grew, .inl rfl⟩
    simp [Alloc.source, ← hhit, hsame.superblock]
  | none =>
    obtain ⟨s2, hlock', hs⟩ := ok_of_bind hs
    have hsame' := hsame.trans (lockHeap_same hlock')
    obtain ⟨⟨s3, target⟩, htake, hs⟩ := ok_of_bind hs
    rcases takeGlobal_spec (hi.congr hsame') hsz hcpu htake with
      ⟨rfl, hsup, hbooks⟩ | ⟨S', sb, o, m, rfl, hsup, hfresh, hacq⟩
    · cases hs
      refine .inl ⟨rfl, ?_, hsame'.trans hbooks⟩
      rw [hsame'.supply] at hsup
      simp [Alloc.source, ← hhit, hsup]
    · cases hs
      obtain ⟨⟨L', hinv⟩, ha, hb, rfl, hgrew⟩ := hacq
      rw [hsame'.supply] at hsup
      generalize transferBins s3 sb o ⟨cpu + 1, sizeId sz, 1⟩ = v at hinv ha hb hsup hgrew ⊢
      have hv : SameBooks v (unlockHeap v 0) := unlockHeap_same
      refine .inr ⟨S', (sb, false, 1), rfl, ⟨L', hinv.congr hv⟩, ha, ?_, ?_, by simp, ?_,
        (hgrew.before hsame'.sameBlocks).after hv.sameBlocks.sameSizes hv.type, ?_⟩
      · rwa [hv.superblock]
      · rw [hv.superblock]
        exact hinv.used_lt_of_bin ha hb
      · simp [Alloc.source, ← hhit, hsup, hv.superblock]
      · rwa [hsame'.dsegHi] at hfresh

theorem Shelved.mallocSmall (hi : Shelved n s S live L) (hsz : sz ≤ 2048) (hcpu : cpu < n)
    (hm : mallocSmall s cpu sz = .ok (t, r)) :
    (r = none ∧ source s L cpu sz = none ∧ SameBooks s t) ∨
    ∃ S' p sb useFirst m, r = some p ∧ source s L cpu sz = some (sb, useFirst, m) ∧
      HandedOut n s t S S' live sz sb useFirst m p := by
  rw [mallocSmall_eq, map_eq_ok] at hm
  obtain ⟨⟨u, found⟩, hsel, hm⟩ := hm
  rcases hi.selectSuperblock hsz hcpu hsel with ⟨rfl, hsrc, hsame⟩ | ⟨S', x, rfl, hx⟩
  · cases hm
    exact .inl ⟨rfl, hsrc, hsame⟩
  · obtain ⟨L', hinv⟩ := hx.inv
    obtain ⟨p, rfl, hg⟩ := takeBlock_given hinv hx.grew hsz hx.mem hx.bin hx.free hx.first hm
    exact .inr ⟨S', p, _, _, _, rfl, hx.source, hg⟩

/-- A block of `sb`, whose map was `m`, has been handed out. -/
structure Given (n : Nat) (s t : State) (live : List Nat) (sz sb : Nat) (useFirst : Bool)
    (m : Nat → BitVec 8) (p : Nat) : Prop where
  inv : ∃ L, SmallInv n t (p :: live) L
  handed : ∃ u id, (u.superblock sb).blockMap = m ∧ Handed u sb sz useFirst p id
  aligned : pgSize ∣ sb
  sizes : SizesKept n sz s t

theorem mallocSmall_spec (hi : SmallInv n s live L) (hsz : sz ≤ 2048) (hcpu : cpu < n)
    (hm : mallocSmall s cpu sz = .ok (t, r)) :
    (r = none ∧ source s L cpu sz = none ∧ SmallInv n t live L ∧ SameSizes s t) ∨
    ∃ p sb useFirst m, r = some p ∧ source s L cpu sz = some (sb, useFirst, m) ∧
      Given n s t live sz sb useFirst m p := by
  rcases hi.shelved.mallocSmall hsz hcpu hm with
    ⟨hr, hsrc, hsame⟩ | ⟨S', p, sb, useFirst, m, hr, hsrc, hg⟩
  · have hS := superblocks_congr (n := n) hsame.dsegLo hsame.dsegHi
    have ht := hi.shelved.congr hsame
    rw [← hS] at ht
    exact .inl ⟨hr, hsrc, ht.smallInv, hsame.sameBlocks.sameSizes⟩
  · obtain ⟨rfl, hk⟩ := hg.grew.sizesKept hi.segment
    obtain ⟨L', hL'⟩ := hg.inv
    exact .inr ⟨p, sb, useFirst, m, hr, hsrc, ⟨L', hL'.smallInv⟩, hg.handed, hg.aligned, hk⟩

/-! `mm_free`. -/

theorem handBack_some {x : Nat × Bin} (hb : handBack s h = some x) :
    ∃ i j, x.2 = ⟨h, i, j⟩ ∧ s.bin ⟨h, i, j⟩ = some x.1 := by
  obtain ⟨j, -, hj⟩ := List.exists_of_findSome?_eq_some hb
  obtain ⟨i, -, hi⟩ := List.exists_of_findSome?_eq_some hj
  obtain ⟨sb, hsb, rfl⟩ := Option.map_eq_some_iff.mp hi
  exact ⟨i, j, rfl, hsb⟩

/-- A heap that is less than a quarter full has a superblock that is. -/
theorem Shelved.handBack_isSome (hi : Shelved n s S live L) (hh : h ≤ n)
    (hlow : (s.heapTable h).used < (s.heapTable h).allocated.tdiv fullnessDenominator) :
    ∃ sb i j, handBack s h = some (sb, ⟨h, i, j⟩) ∧ sb ∈ S ∧ (s.superblock sb).heapId = h := by
  have hquarter : (s.heapTable h).allocated.tdiv fullnessDenominator =
      ∑ a ∈ S, if (binOf (s.superblock a)).heap = h then (1024 : Int) else 0 := by
    have hfour : ∀ a, (if (binOf (s.superblock a)).heap = h then (sbSize : Int) else 0) =
        4 * if (binOf (s.superblock a)).heap = h then (1024 : Int) else 0 := by
      intro a
      split <;> rfl
    rw [hi.placed.allocated h hh, Finset.sum_congr rfl fun a _ => hfour a, ← Finset.mul_sum]
    exact Int.mul_tdiv_cancel_left _ (by decide)
  rw [hquarter, hi.placed.used h hh] at hlow
  obtain ⟨a, ha, hlt⟩ := Finset.exists_lt_of_sum_lt hlow
  have hah : (s.superblock a).heapId = h := by
    by_contra hne
    simp [binOf, hne] at hlt
  simp only [binOf, hah, if_true] at hlt
  obtain ⟨hu0, -⟩ := hi.used_bounds ha
  have hcls := (hi.blocksOk a ha).cls
  have hmul := blocks_mul hcls
  have hfull : fullness (s.superblock a).usedBlocks (blocks (s.superblock a).blockSize) = 1 := by
    obtain ⟨u, hu⟩ := Int.eq_ofNat_of_zero_le hu0
    rw [usedBytes, hu] at hlt
    rw [fullness_eq hu0, hu, Int.toNat_natCast, Nat.div_eq_of_lt]
    have : u * (s.superblock a).blockSize < 1024 := by exact_mod_cast hlt
    by_contra hle
    have := Nat.mul_le_mul_right (s.superblock a).blockSize (Nat.le_of_not_lt hle)
    rw [hmul, Nat.mul_assoc] at this
    omega
  have hmem := (hi.mem_list (o := ⟨h, sizeId (s.superblock a).blockSize, 1⟩) hh).mpr
    ⟨ha, by simp [binOf, hah, hfull]⟩
  have hbin : (s.bin ⟨h, sizeId (s.superblock a).blockSize, 1⟩).isSome := by
    rw [hi.bin_eq (o := ⟨h, sizeId (s.superblock a).blockSize, 1⟩) hh]
    exact List.isSome_head?.mpr (List.ne_nil_of_mem hmem)
  have hsome : (handBack s h).isSome := by
    rw [handBack, List.findSome?_isSome_iff]
    refine ⟨1, by simp, ?_⟩
    rw [List.findSome?_isSome_iff]
    exact ⟨_, List.mem_range.mpr (sizeId_lt hcls), by simpa using hbin⟩
  obtain ⟨⟨sb, o⟩, hb⟩ := Option.isSome_iff_exists.mp hsome
  obtain ⟨i, j, rfl, hbin'⟩ := handBack_some hb
  obtain ⟨hsb, hof⟩ := hi.of_bin (o := ⟨h, i, j⟩) hh hbin'
  simp only [binOf, Bin.mk.injEq] at hof
  exact ⟨sb, i, j, hb, hsb, hof.1⟩

theorem releaseBlock_spec (hi : Shelved n s S live L) (hp : p ∈ live) :
    (∃ L', Shelved n (releaseBlock s (pageOf p) (p % pgSize)) S (live.erase p) L') ∧
      SameSizes s (releaseBlock s (pageOf p) (p % pgSize)) := by
  have ha := hi.live.page p hp
  have hc := hi.subBlock hp
  have hpl := hi.placed.adjust (δ := -((s.superblock (pageOf p)).blockSize : Int)) ha
    (f := fun b => { b with
      blockMap := subBit b.blockMap (blockId s p), usedBlocks := b.usedBlocks - 1 })
    (fun _ => ⟨rfl, rfl, rfl⟩) (by simp only [usedBytes]; ring)
  have hsu := (setSb_sizes (s := s) (a := pageOf p) (f := fun b => { b with
    blockMap := subBit b.blockMap (blockId s p), usedBlocks := b.usedBlocks - 1 })
      fun _ => rfl).trans (setHeap_blocks (h := (binOf (s.superblock (pageOf p))).heap)
        (f := fun h =>
          { h with used := h.used + -((s.superblock (pageOf p)).blockSize : Int) })).sameSizes
  have hrel : ∃ u, u = (s.setSb (pageOf p) fun b => { b with
      blockMap := subBit b.blockMap (blockId s p), usedBlocks := b.usedBlocks - 1 }).setHeap
        (binOf (s.superblock (pageOf p))).heap (fun h =>
          { h with used := h.used + -((s.superblock (pageOf p)).blockSize : Int) }) ∧
      releaseBlock s (pageOf p) (p % pgSize) =
        rebin u (pageOf p) (binOf (s.superblock (pageOf p))).heap
          (sizeId (s.superblock (pageOf p)).blockSize)
          (fullness (s.superblock (pageOf p)).usedBlocks
            (blocks (s.superblock (pageOf p)).blockSize))
          (fullness ((s.superblock (pageOf p)).usedBlocks - 1)
            (blocks (s.superblock (pageOf p)).blockSize)) := ⟨_, rfl, rfl⟩
  obtain ⟨u, hu, hrel⟩ := hrel
  rw [← hu] at hpl hsu
  rw [hrel]
  have hc' : Books n u S (live.erase p) := by
    rw [hu]
    exact hc.congr setHeap_blocks
  have hused : (u.superblock (pageOf p)).usedBlocks =
      (s.superblock (pageOf p)).usedBlocks - 1 := by simp [hu]
  have hset := hc'.settle hpl ha rfl (fun c _ hne => by simp [hu, hne]) (by rw [hsu.size])
  rw [hused, hsu.size] at hset
  exact ⟨hset.1, hsu.trans hset.2.sameSizes⟩

theorem trimHeap_spec (hi : Shelved n s S live L) (hf : trimHeap s h = .ok t) (hh : h ≤ n) :
    (∃ L', Shelved n t S live L') ∧ SameSizes s t := by
  have hunlock : ∀ j, (∃ L', Shelved n (unlockHeap s j) S live L') ∧
      SameSizes s (unlockHeap s j) := fun j =>
    ⟨⟨L, hi.congr unlockHeap_same⟩, unlockHeap_same.sameBlocks.sameSizes⟩
  simp only [trimHeap] at hf
  split at hf
  · cases hf
    exact hunlock 0
  · split at hf
    · cases hb : handBack s h with
      | none =>
        rw [hb] at hf
        cases hf
      | some x =>
        obtain ⟨sb, o⟩ := x
        rw [hb] at hf
        cases hf
        obtain ⟨i, j, rfl, hbin⟩ := handBack_some hb
        obtain ⟨ha, hof⟩ := hi.of_bin (o := ⟨h, i, j⟩) hh hbin
        have hsp := hi.placed.spec (d := ⟨0, i, j⟩) ha
        rw [hof] at hsp
        obtain ⟨L', hL'⟩ := hi.handOver ha hof (Nat.zero_le n)
        exact ⟨⟨L', hL'.congr unlockHeap_same⟩,
          hsp.sameBlocks.sameSizes.trans unlockHeap_same.sameBlocks.sameSizes⟩
    · cases hf
      exact hunlock h

theorem Shelved.freeSmall (hi : Shelved n s S live L) (hp : p ∈ live)
    (hf : freeSmall s (pageOf p) (p % pgSize) = .ok t) :
    (∃ L', Shelved n t S (live.erase p) L') ∧ SameSizes s t := by
  obtain ⟨s1, hlock, hf⟩ := ok_of_bind hf
  have hsame := lockHeap_same hlock
  have hle := hi.placed.le _ (hi.live.page p hp)
  obtain ⟨⟨L1, h1⟩, hs1⟩ := releaseBlock_spec (hi.congr hsame) hp
  obtain ⟨h2, hs2⟩ := trimHeap_spec h1 hf hle
  exact ⟨h2, (hsame.sameBlocks.sameSizes.trans hs1).trans hs2⟩

theorem freeSmall_spec (hi : SmallInv n s live L) (hp : p ∈ live)
    (hf : freeSmall s (pageOf p) (p % pgSize) = .ok t) :
    (∃ L', SmallInv n t (live.erase p) L') ∧ SameSizes s t := by
  obtain ⟨⟨L', hL'⟩, hs⟩ := hi.shelved.freeSmall hp hf
  rw [← superblocks_congr hs.dsegLo hs.dsegHi] at hL'
  exact ⟨⟨L', hL'.smallInv⟩, hs⟩

end Csc469.Alloc
