import Csc469.Alloc.SmallInvariant
import Mathlib.Tactic.Ring

/-! Each small `mm_malloc` and `mm_free` keeps the invariant. -/
namespace Csc469.Alloc

open Linked Bitmap Execution

variable {n h cpu sz id k old : Nat} {s t : State} {S : Finset Nat} {L : Bin → List Nat}
  {a p sb : Nat} {o : Bin} {live : List Nat} {useFirst : Bool} {r : Option Nat}

/-! The blocks of one superblock. -/

theorem Books.clear_of_clear (hc : Books n s S live) (ha : sb ∈ S)
    (hid : id < 512) (hclear : bit (s.superblock sb).blockMap id = false) :
    blocksUsed (s.superblock sb).blockSize ≤ id ∧
      ∀ q ∈ live, pageOf q = sb → blockId s q ≠ id := by
  have hb := (hc.blocksOk sb ha).bits id hid
  rw [hclear] at hb
  have hno := not_or.mp (mt hb.mpr (by simp))
  exact ⟨by omega, fun q hq hpq he => hno.2 ⟨q, hq, hpq, he⟩⟩

theorem Books.set_of_live (hc : Books n s S live) (hp : p ∈ live) :
    bit (s.superblock (pageOf p)).blockMap (blockId s p) = true := by
  have hpS := hc.live.page p hp
  have hb := blocks_bounds (hc.blocksOk _ hpS).cls
  have hid := hc.live.id p hp
  exact ((hc.blocksOk _ hpS).bits _ (by omega)).mpr (.inr ⟨p, hp, rfl, rfl⟩)

theorem Books.lt_of_set (hc : Books n s S live) (ha : sb ∈ S)
    (hid : id < 512) (hset : bit (s.superblock sb).blockMap id = true) :
    id < blocks (s.superblock sb).blockSize := by
  have hcls := (hc.blocksOk sb ha).cls
  rcases ((hc.blocksOk sb ha).bits id hid).mp hset with hlt | ⟨p, hp, hps, hpid⟩
  · exact hlt.trans (blocksUsed_lt hcls)
  · rw [← hpid, ← hps]
    exact (hc.live.id p hp).2

/-- Fewer used blocks than blocks: one of them is clear. -/
theorem Books.exists_clear (hc : Books n s S live) (ha : sb ∈ S)
    (hu : (s.superblock sb).usedBlocks < blocks (s.superblock sb).blockSize) :
    ∃ k < blocks (s.superblock sb).blockSize, bit (s.superblock sb).blockMap k = false := by
  apply Bitmap.exists_clear
  have hok := hc.blocksOk sb ha
  have hb := blocks_bounds hok.cls
  have hsub : ones (s.superblock sb).blockMap (blocks (s.superblock sb).blockSize) ⊆
      ones (s.superblock sb).blockMap 512 := by
    intro i hi
    rw [mem_ones] at hi ⊢
    exact ⟨by omega, hi.2⟩
  have := Finset.card_le_card hsub
  have := hok.used
  omega

theorem Books.used_bounds (hc : Books n s S live) (ha : sb ∈ S) :
    0 ≤ (s.superblock sb).usedBlocks ∧
      (s.superblock sb).usedBlocks ≤ blocks (s.superblock sb).blockSize := by
  have hok := hc.blocksOk sb ha
  have hsub : ones (s.superblock sb).blockMap 512 ⊆
      Finset.range (blocks (s.superblock sb).blockSize) := by
    intro i hi
    rw [mem_ones] at hi
    exact Finset.mem_range.mpr (hc.lt_of_set ha hi.1 hi.2)
  have := Finset.card_le_card hsub
  rw [Finset.card_range] at this
  have := hok.used
  omega

/-- The block map of `sb` is written, and only blocks of `sb` are taken or given up. -/
theorem Books.setBlocks {f : Superblock → Superblock} {live' : List Nat} (hc : Books n s S live)
    (hf : ∀ b, (f b).blockSize = b.blockSize)
    (hbits : ∀ i < 512, bit (f (s.superblock sb)).blockMap i = true ↔
      i < blocksUsed (s.superblock sb).blockSize ∨ ∃ p ∈ live', pageOf p = sb ∧ blockId s p = i)
    (hused : (f (s.superblock sb)).usedBlocks = (ones (f (s.superblock sb)).blockMap 512).card)
    (hother : ∀ c, c ≠ sb → ∀ i, (∃ p ∈ live', pageOf p = c ∧ blockId s p = i) ↔
      ∃ p ∈ live, pageOf p = c ∧ blockId s p = i)
    (hlive : LiveOk s S live') : Books n (s.setSb sb f) S live' := by
  have hsize : ∀ c, ((s.setSb sb f).superblock c).blockSize = (s.superblock c).blockSize := by
    intro c
    by_cases he : c = sb <;> simp [he, hf]
  have hblock : blockId (s.setSb sb f) = blockId s := by
    funext q
    simp only [blockId, hsize]
  obtain ⟨g1, g2, g3, g4⟩ := hc.segment
  refine ⟨⟨g1, g2, g3, g4⟩, hc.page, hc.type, fun c hcS => ?_, ?_⟩
  · obtain ⟨k1, k2, k3⟩ := hc.blocksOk c hcS
    refine ⟨by rwa [hsize], fun i hi => ?_, ?_⟩
    · rw [hsize, hblock]
      by_cases he : c = sb
      · subst he
        rw [State.setSb_superblock, Function.update_self]
        exact hbits i hi
      · rw [State.setSb_superblock, Function.update_of_ne he, hother c he]
        exact k2 i hi
    · by_cases he : c = sb
      · subst he
        rw [State.setSb_superblock, Function.update_self]
        exact hused
      · rw [State.setSb_superblock, Function.update_of_ne he]
        exact k3
  · obtain ⟨l1, l2, l3⟩ := hlive
    refine ⟨l1, ?_, ?_⟩ <;> simpa only [hsize, hblock]

/-- Taking a clear block of `sb` for a new live pointer. -/
theorem Books.addBlock (hc : Books n s S live) (ha : sb ∈ S)
    (hid : id < blocks (s.superblock sb).blockSize)
    (hclear : bit (s.superblock sb).blockMap id = false) (hp : pageOf p = sb)
    (hpid : blockId s p = id) :
    Books n (s.setSb sb fun b =>
      { b with blockMap := addBit b.blockMap id, usedBlocks := b.usedBlocks + 1 }) S (p :: live) := by
  have hok := hc.blocksOk sb ha
  have hb := blocks_bounds hok.cls
  obtain ⟨hused, hapart⟩ := hc.clear_of_clear ha (by omega) hclear
  refine hc.setBlocks (fun _ => rfl) (fun i hi => ?_) ?_ (fun c he i => ?_) ?_
  · rw [bit_addBit (by omega) hclear]
    simp only [Bool.or_eq_true, decide_eq_true_eq, hok.bits i hi, List.mem_cons, exists_eq_or_imp,
      hp, hpid, true_and]
    rw [or_left_comm, eq_comm (a := i)]
  · rw [card_ones_addBit (by omega) (by omega) hclear, hok.used]
    push_cast
    rfl
  · have hpc : pageOf p ≠ c := fun hpc => he (hpc.symm.trans hp)
    simp [hpc]
  · obtain ⟨l1, l2, l3⟩ := hc.live
    refine ⟨fun q hq => ?_, fun q hq => ?_, ?_⟩
    · rcases List.mem_cons.mp hq with rfl | hq
      · rwa [hp]
      · exact l1 q hq
    · rcases List.mem_cons.mp hq with rfl | hq
      · rw [hp, hpid]
        exact ⟨hused, hid⟩
      · exact l2 q hq
    · refine List.pairwise_cons.mpr ⟨fun q hq hpq => ?_, l3⟩
      rw [hpid]
      exact (hapart q hq (hpq.symm.trans hp)).symm

/-- Giving up a pointer takes exactly its block from the blocks of the live ones. -/
theorem LiveOk.exists_erase (hl : LiveOk s S live) (hp : p ∈ live) :
    (∃ q ∈ live.erase p, pageOf q = a ∧ blockId s q = id) ↔
      (∃ q ∈ live, pageOf q = a ∧ blockId s q = id) ∧ ¬(pageOf p = a ∧ blockId s p = id) := by
  have hnd : live.Nodup := hl.apart.imp fun {x y} hxy he => by subst he; exact hxy rfl rfl
  have hsymm : Std.Symm fun p q => pageOf p = pageOf q → blockId s p ≠ blockId s q :=
    ⟨fun x y hxy hpg => (hxy hpg.symm).symm⟩
  constructor
  · rintro ⟨q, hq, hqa, hqi⟩
    obtain ⟨hne, hq⟩ := hnd.mem_erase_iff.mp hq
    refine ⟨⟨q, hq, hqa, hqi⟩, ?_⟩
    rintro ⟨hpa, hpi⟩
    exact hl.apart.forall hq hp hne (hqa.trans hpa.symm) (hqi.trans hpi.symm)
  · rintro ⟨⟨q, hq, hqa, hqi⟩, hnot⟩
    refine ⟨q, hnd.mem_erase_iff.mpr ⟨?_, hq⟩, hqa, hqi⟩
    rintro rfl
    exact hnot ⟨hqa, hqi⟩

/-- Giving up the block of a live pointer. -/
theorem Books.subBlock (hc : Books n s S live) (hp : p ∈ live) :
    Books n (s.setSb (pageOf p) fun b =>
      { b with blockMap := subBit b.blockMap (blockId s p), usedBlocks := b.usedBlocks - 1 })
      S (live.erase p) := by
  have hset := hc.set_of_live hp
  obtain ⟨hidge, hidlt⟩ := hc.live.id p hp
  have hok := hc.blocksOk _ (hc.live.page p hp)
  have hb := blocks_bounds hok.cls
  refine hc.setBlocks (fun _ => rfl) (fun i hi => ?_) ?_ (fun c he i => ?_) ?_
  · rw [bit_subBit (by omega) hset]
    simp only [Bool.and_eq_true, Bool.not_eq_true', decide_eq_false_iff_not, hok.bits i hi,
      hc.live.exists_erase hp, true_and, eq_comm (a := blockId s p)]
    constructor
    · rintro ⟨hne, hlt | hex⟩
      · exact .inl hlt
      · exact .inr ⟨hex, hne⟩
    · rintro (hlt | ⟨hex, hne⟩)
      · exact ⟨by omega, .inl hlt⟩
      · exact ⟨hne, .inr hex⟩
  · have hcard := card_ones_subBit (n := 512) (by omega : 0 < 8) (by omega) hset
    rw [hok.used, ← hcard]
    push_cast
    omega
  · rw [hc.live.exists_erase hp]
    simp [Ne.symm he]
  · obtain ⟨l1, l2, l3⟩ := hc.live
    exact ⟨fun q hq => l1 q (List.mem_of_mem_erase hq), fun q hq => l2 q (List.mem_of_mem_erase hq),
      l3.sublist List.erase_sublist⟩

theorem Books.used_lt (hc : Books n s S live) (ha : sb ∈ S)
    (hk : k < blocks (s.superblock sb).blockSize)
    (hclear : bit (s.superblock sb).blockMap k = false) :
    (s.superblock sb).usedBlocks < blocks (s.superblock sb).blockSize := by
  have hok := hc.blocksOk sb ha
  have hsub : ones (s.superblock sb).blockMap 512 ⊆
      (Finset.range (blocks (s.superblock sb).blockSize)).erase k := by
    intro i hi
    rw [mem_ones] at hi
    refine Finset.mem_erase.mpr ⟨?_, Finset.mem_range.mpr (hc.lt_of_set ha hi.1 hi.2)⟩
    rintro rfl
    rw [hclear] at hi
    cases hi.2
  have hle := Finset.card_le_card hsub
  rw [Finset.card_erase_of_mem (Finset.mem_range.mpr hk), Finset.card_range] at hle
  have := hok.used
  omega

theorem Shelved.bin_eq (hi : Shelved n s S live L) (hh : o.heap ≤ n) : s.bin o = (L o).head? :=
  (hi.placed.family.dlist o hh).head_eq

theorem Shelved.mem_list (hi : Shelved n s S live L) (hh : o.heap ≤ n) :
    a ∈ L o ↔ a ∈ S ∧ binOf (s.superblock a) = o :=
  hi.placed.mem o hh a

theorem Shelved.of_bin (hi : Shelved n s S live L) (hh : o.heap ≤ n) (hb : s.bin o = some a) :
    a ∈ S ∧ binOf (s.superblock a) = o :=
  (hi.mem_list hh).mp (List.mem_of_head? ((hi.bin_eq hh).symm.trans hb))

/-- No superblock is ever in an 'Empty' bin: its fullness is at least 1. -/
theorem Shelved.empty_bin (hi : Shelved n s S live L) (hh : h ≤ n) (i : Nat) :
    s.bin ⟨h, i, 0⟩ = none := by
  cases hb : s.bin ⟨h, i, 0⟩ with
  | none => rfl
  | some a =>
    obtain ⟨ha, hbin⟩ := hi.of_bin hh hb
    obtain ⟨hu0, hun⟩ := hi.used_bounds ha
    have hf := (fullness_bounds (hi.blocksOk a ha).cls hu0 hun).1
    simp only [binOf, Bin.mk.injEq] at hbin
    omega

theorem blockSize_of_bin (hc : Books n s S live) (ha : sb ∈ S) (hsz : sz ≤ 2048)
    (hb : binOf (s.superblock sb) = ⟨h, sizeId sz, old⟩) :
    (s.superblock sb).blockSize = sizeClass sz := by
  simp only [binOf, Bin.mk.injEq] at hb
  exact sizeId_inj (hc.blocksOk sb ha).cls (sizeClass_mem hsz)
    (hb.2.1.trans (sizeId_sizeClass hsz).symm)

/-! Taking a block. -/

/-- Pointer `p` is block `id` of `sb`: the free one behind the header that `use_first` takes,
or the one `find_block` finds. -/
structure Handed (s : State) (sb : Nat) (sz : Nat) (useFirst : Bool) (p id : Nat) : Prop where
  cls : (s.superblock sb).blockSize = sizeClass sz
  lt : id < blocks (sizeClass sz)
  ge : blocksUsed (sizeClass sz) ≤ id
  clear : bit (s.superblock sb).blockMap id = false
  found : if useFirst then id = 0 ∧ p = sb + sizeofSuperblock ∧
      sz + sizeofSuperblock ≤ sizeClass sz
    else findBlock (s.superblock sb).blockMap (sizeClass sz) = some id ∧ p = sb + id * sizeClass sz

theorem Handed.page (hd : Handed s sb sz useFirst p id) (ha : pgSize ∣ sb) (hsz : sz ≤ 2048) :
    pageOf p = sb ∧ blockId s p = id := by
  have hb := blocks_bounds (sizeClass_mem hsz)
  have hmul := blocks_mul (sizeClass_mem hsz)
  have hf := hd.found
  cases useFirst with
  | true =>
    obtain ⟨rfl, rfl, hle⟩ := by simpa using hf
    obtain ⟨hp, hm⟩ := pageOf_add ha (k := sizeofSuperblock) (by decide)
    refine ⟨hp, ?_⟩
    have hc := mem_blockSizes.mp (sizeClass_mem hsz)
    rw [blockId, hp, hm, hd.cls]
    exact Nat.div_eq_of_lt (by simp only [sizeofSuperblock] at *; omega)
  | false =>
    obtain ⟨_, rfl⟩ := by simpa using hf
    have hlt : id * sizeClass sz < pgSize := by
      have := Nat.mul_lt_mul_of_pos_right hd.lt (by omega : 0 < sizeClass sz)
      rwa [hmul] at this
    obtain ⟨hp, hm⟩ := pageOf_add ha hlt
    refine ⟨hp, ?_⟩
    rw [blockId, hp, hm, hd.cls, Nat.mul_div_cancel _ (by omega)]

theorem takeBlock_inv (hi : Shelved n s S live L) (hsz : sz ≤ 2048) (ha : sb ∈ S)
    (hb : binOf (s.superblock sb) = ⟨cpu + 1, sizeId sz, old⟩)
    (hfree : (s.superblock sb).usedBlocks < blocks (s.superblock sb).blockSize)
    (huf : useFirst = true →
      bit (s.superblock sb).blockMap 0 = false ∧ sz + sizeofSuperblock ≤ sizeClass sz)
    (ht : takeBlock s cpu sz sb useFirst old = (t, r)) :
    ∃ p id, r = some p ∧ Handed s sb sz useFirst p id ∧ SameSizes s t ∧
      ∃ L', Shelved n t S (p :: live) L' := by
  have hcls := blockSize_of_bin hi.toBooks ha hsz hb
  have hmem := sizeClass_mem hsz
  have hbd := blocks_bounds hmem
  have hfound : ∃ p id, Handed s sb sz useFirst p id ∧ (if useFirst then
      some (sb + sizeofSuperblock, 0) else (findBlock (s.superblock sb).blockMap
        (sizeClass sz)).map fun id => (sb + id * sizeClass sz, id)) = some (p, id) := by
    cases useFirst with
    | true =>
      obtain ⟨hclear, hle⟩ := huf rfl
      have hge := (hi.clear_of_clear ha (by omega) hclear).1
      rw [hcls] at hge
      exact ⟨_, 0, ⟨hcls, by omega, hge, hclear, by simpa using hle⟩, rfl⟩
    | false =>
      obtain ⟨k, hk, hclear⟩ := hi.exists_clear ha hfree
      rw [hcls] at hk
      obtain ⟨id, hid⟩ := Option.isSome_iff_exists.mp (findBlock_isSome hmem hk hclear)
      have hlt := findBlock_lt hmem hk hclear hid
      have hge := (hi.clear_of_clear ha (by omega) (findBlock_clear hmem hid)).1
      rw [hcls] at hge
      exact ⟨sb + id * sizeClass sz, id, ⟨hcls, hlt, hge, findBlock_clear hmem hid,
        by simp [hid]⟩, by simp [hid]⟩
  obtain ⟨p, id, hd, hsome⟩ := hfound
  obtain ⟨hpage, hpid⟩ := hd.page (mem_superblocks.mp (hi.page ha)).2 hsz
  refine ⟨p, id, ?_⟩
  simp only [takeBlock, hsome, Prod.mk.injEq] at ht
  obtain ⟨rfl, rfl⟩ := ht
  refine ⟨rfl, hd, ?_⟩
  have hsu := (setSb_sizes (s := s) (a := sb) (f := fun b => { b with
    blockMap := addBit b.blockMap id, usedBlocks := b.usedBlocks + 1 }) fun _ => rfl).trans
      (setHeap_blocks (h := cpu + 1) (f := fun h =>
        { h with used := h.used + (sizeClass sz : Int) })).sameSizes
  have hidlt : id < blocks (s.superblock sb).blockSize := hcls ▸ hd.lt
  have hc := hi.addBlock ha hidlt hd.clear hpage hpid
  have hp := hi.placed.adjust (δ := (sizeClass sz : Int)) ha
    (f := fun b => { b with blockMap := addBit b.blockMap id, usedBlocks := b.usedBlocks + 1 })
    (fun _ => ⟨rfl, rfl, rfl⟩) (by simp only [usedBytes, hcls]; ring)
  simp only [hb] at hp
  generalize hu : (s.setSb sb fun b => { b with
    blockMap := addBit b.blockMap id, usedBlocks := b.usedBlocks + 1 }).setHeap (cpu + 1) (fun h =>
      { h with used := h.used + (sizeClass sz : Int) }) = u at hp hsu ⊢
  have hc' : Books n u S (p :: live) := by
    rw [← hu]
    exact hc.congr setHeap_blocks
  have husb : ∀ c, c ≠ sb → u.superblock c = s.superblock c := by
    intro c hne
    simp [← hu, hne]
  have hucls : (u.superblock sb).blockSize = sizeClass sz := by simp [← hu, hcls]
  obtain ⟨⟨L', hL'⟩, hsame⟩ := hc'.settle hp ha hb
    (fun c _ hne => by rw [husb c hne]) (by rw [hucls, sizeId_sizeClass hsz])
  rw [hucls] at hL' hsame
  exact ⟨(hsu.trans hsame.sameSizes).trans unlockHeap_same.sameBlocks.sameSizes,
    L', hL'.congr unlockHeap_same⟩

/-! The search of `mm_malloc`. -/

theorem scanBins_eq (hi : Shelved n s S live L) (hh : h ≤ n) {is : List Nat}
    {res : Option (Nat × Bool × Nat)} (hs : scanBins s h sz is = .ok res) :
    res = is.findSome? fun i =>
      (firstHit (fun a => some (s.superblock a)) (tryBlock sz (sizeClass sz))
        (L ⟨h, sizeId sz, i⟩)).map fun (a, u) => (a, u, i) := by
  induction is with
  | nil =>
    cases hs
    rfl
  | cons i is ih =>
    obtain ⟨hit, hhit, hs⟩ := ok_of_bind hs
    have hchain := (hi.placed.family.dlist ⟨h, sizeId sz, i⟩ hh).forth
    have hfirst := search_eq_firstHit hchain hhit
    rw [List.findSome?_cons, ← hfirst]
    cases hit with
    | some x =>
      cases hs
      rfl
    | none => exact ih hs

/-- What the search of `mm_malloc` finds in the lists `L`. -/
def hit (s : State) (L : Bin → List Nat) (h sz : Nat) : Option (Nat × Bool × Nat) :=
  [4, 3, 2, 1, 0].findSome? fun i =>
    (firstHit (fun a => some (s.superblock a)) (tryBlock sz (sizeClass sz))
      (L ⟨h, sizeId sz, i⟩)).map fun (a, u) => (a, u, i)

theorem scan_eq (hi : Shelved n s S live L) (hh : h ≤ n) {res : Option (Nat × Bool × Nat)}
    (hs : scan s h sz = .ok res) : res = hit s L h sz := scanBins_eq hi hh hs

theorem Shelved.of_hit (hi : Shelved n s S live L) (hh : h ≤ n) {i : Nat}
    (hs : hit s L h sz = some (sb, useFirst, i)) :
    sb ∈ S ∧ binOf (s.superblock sb) = ⟨h, sizeId sz, i⟩ ∧
      tryBlock sz (sizeClass sz) (s.superblock sb) = some useFirst := by
  obtain ⟨j, -, hj⟩ := List.exists_of_findSome?_eq_some hs
  obtain ⟨⟨a, u⟩, hhit, he⟩ := Option.map_eq_some_iff.mp hj
  cases he
  obtain ⟨hmem, htry⟩ := mem_of_firstHit hhit
  obtain ⟨ha, hb⟩ := (hi.mem_list hh).mp hmem
  exact ⟨ha, hb, by simpa using htry⟩

/-- The test of one superblock in the search, with the source's unsigned arithmetic resolved. -/
theorem tryBlock_eq {b : Superblock} (hsz : sz ≤ 2048) (hb0 : 0 ≤ b.usedBlocks)
    (hb1 : b.usedBlocks ≤ 512)
    (hfirst : bit b.blockMap 0 = false → sizeofSuperblock ≤ sizeClass sz) :
    tryBlock sz (sizeClass sz) b =
      if bit b.blockMap 0 = true then
        if b.usedBlocks < blocks (sizeClass sz) then some false else none
      else if sz + sizeofSuperblock ≤ sizeClass sz then some true
      else if b.usedBlocks + 1 < blocks (sizeClass sz) then some false else none := by
  have hcls := sizeClass_cases hsz
  have hwrap : ∀ x : Int, 0 ≤ x → x ≤ 513 → x % 2 ^ 64 = x := by
    intro x h0 h1
    exact Int.emod_eq_of_lt h0 (by omega)
  have hbit : (b.blockMap 0).toInt.tmod 2 = 0 ↔ ¬bit b.blockMap 0 = true := by
    rw [Bool.not_eq_true]
    exact first_block_clear _
  rw [tryBlock, hwrap _ (by omega) (by omega), hwrap _ (by omega) (by omega)]
  by_cases hset : bit b.blockMap 0 = true
  · simp only [hbit, hset, not_true_eq_false, if_false, if_true]
  · have hle := hfirst (by simpa using hset)
    have hsub : (sizeClass sz + 2 ^ 64 - sizeofSuperblock) % 2 ^ 64 =
        sizeClass sz - sizeofSuperblock := by
      simp only [sizeofSuperblock] at *
      omega
    have hfit : sz > sizeClass sz - sizeofSuperblock ↔
        ¬sz + sizeofSuperblock ≤ sizeClass sz := by
      omega
    simp only [hsub, hbit, hfit, hset, ite_not]

/-- Block 0 is only free in the classes whose header takes no block. -/
theorem Books.header_lt (hc : Books n s S live) (ha : sb ∈ S)
    (hbit : bit (s.superblock sb).blockMap 0 = false) :
    sizeofSuperblock < (s.superblock sb).blockSize := by
  have hmem := (hc.blocksOk sb ha).cls
  have hbd := blocks_bounds hmem
  have hcl := (hc.clear_of_clear ha (by omega) hbit).1
  rcases mem_blockSizes.mp hmem with hm | hm | hm | hm | hm | hm | hm | hm | hm <;>
    rw [hm] at hcl ⊢ <;> revert hcl <;> decide

/-- A superblock of the right class that the search takes has a free block, and `use_first`
means that its block 0 is free and big enough behind the header. -/
theorem tryBlock_spec (hc : Books n s S live) (ha : sb ∈ S) (hsz : sz ≤ 2048)
    (hcls : (s.superblock sb).blockSize = sizeClass sz)
    (ht : tryBlock sz (sizeClass sz) (s.superblock sb) = some useFirst) :
    (s.superblock sb).usedBlocks < blocks (s.superblock sb).blockSize ∧
    (useFirst = true →
      bit (s.superblock sb).blockMap 0 = false ∧ sz + sizeofSuperblock ≤ sizeClass sz) := by
  obtain ⟨hu0, hun⟩ := hc.used_bounds ha
  have hbd := blocks_bounds (sizeClass_mem hsz)
  have hfirst := hc.header_lt ha
  have hfree := hc.used_lt ha (k := 0)
  rw [hcls] at hun hfirst hfree ⊢
  rw [tryBlock_eq hsz hu0 (by omega) fun h => (hfirst h).le] at ht
  split at ht
  · split at ht
    · next hlt =>
      cases ht
      exact ⟨hlt, by simp⟩
    · cases ht
  · next hclear =>
    rw [Bool.not_eq_true] at hclear
    split at ht
    · next hle => exact ⟨hfree (by omega) hclear, fun _ => ⟨hclear, hle⟩⟩
    · split at ht
      · next hlt =>
        cases ht
        exact ⟨by omega, by simp⟩
      · cases ht

end Csc469.Alloc
