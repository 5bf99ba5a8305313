import Csc469.Alloc.LargeSizes
import Csc469.Alloc.Reuse
import Csc469.Blocks

/-! The small blocks that a program has lie apart from each other and from its large ones. -/
namespace Csc469.Alloc

open Execution Linked Bitmap Blocks

/-- The blocks that the program has after a call, with the sizes that it asked for. -/
def heldAfter (bs : List Block) : Event → List Block
  | .malloc _ sz r => (r.map (⟨·, sz⟩)).toList ++ bs
  | .free p => bs.eraseP (·.base = p)

def held (run : List (Event × Config)) : List Block := run.foldl (fun bs x => heldAfter bs x.1) []

def Small (b : Block) : Prop := b.size ≤ sbSize / 2

instance (b : Block) : Decidable (Small b) := inferInstanceAs (Decidable (_ ≤ _))

/-- The memory that is set aside for a block: for a large one the pages from its node on. -/
def span (b : Block) : Block :=
  if Small b then b else ⟨pageOf b.base, numPages b.size * pgSize⟩

variable {n cpu sz : Nat} {s t : State} {S S' H : Finset Nat} {L L' : Bin → List Nat}
  {a p q : Nat} {live live' : List Nat} {bs : List Block} {b b' : Block} {c d : Config} {e : Event}
  {r : Option Nat} {run : List (Event × Config)}

/-- A small block lies in a block of a superblock, a large one on pages that are none. -/
structure Isolated (n : Nat) (s : State) (S : Finset Nat) (bs : List Block) : Prop where
  small : ∀ b ∈ bs, pageOf b.base ∈ S → Small b ∧
    b.base % pgSize + b.size ≤ (blockId s b.base + 1) * (s.superblock (pageOf b.base)).blockSize
  large : ∀ b ∈ bs, pageOf b.base ∉ S → ¬Small b ∧
    ∀ k < numPages b.size, pageOf b.base + k * pgSize ∈ superblocks n s \ S
  apart : bs.Pairwise fun b c => Small b ∨ Small c → Apart (span b) (span c)

section Bases

theorem map_eraseP : (bs.eraseP (·.base = p)).map Block.base = (bs.map Block.base).erase p := by
  induction bs with
  | nil => rfl
  | cons b bs ih =>
    by_cases hb : b.base = p
    · simp [hb]
    · simp [hb, ih]

theorem heldAfter_bases (hs : Step n c e d) (h : c.live = bs.map Block.base) :
    d.live = (heldAfter bs e).map Block.base := by
  have hlive := step_live hs
  cases e with
  | malloc cpu sz r =>
    have hlive : d.live = r.toList ++ c.live := hlive
    rw [hlive, h]
    cases r <;> rfl
  | free p =>
    rw [hlive.2, h, heldAfter, map_eraseP]

end Bases

section Cells

/-- A small block ends in the cell in which it begins, and that on the page. -/
theorem cell_end (hb : Books n s S live) (hp : p ∈ live)
    (hcell : p % pgSize + sz ≤ (blockId s p + 1) * (s.superblock (pageOf p)).blockSize) :
    p + sz ≤ pageOf p + pgSize := by
  have hmul := blocks_mul (hb.blocksOk _ (hb.live.page p hp)).cls
  have hle := Nat.mul_le_mul_right (s.superblock (pageOf p)).blockSize (hb.live.id p hp).2
  have hpage : pageOf p + p % pgSize = p := Nat.sub_add_cancel (Nat.mod_le ..)
  simp only [Nat.succ_eq_add_one, pgSize] at *
  omega

/-- Two of them on one page in different cells. -/
theorem cells_apart {k o o' sz' : Nat} (hne : o / k ≠ o' / k) (hend : o + sz ≤ (o / k + 1) * k)
    (hend' : o' + sz' ≤ (o' / k + 1) * k) : o + sz ≤ o' ∨ o' + sz' ≤ o := by
  rcases Nat.lt_or_gt_of_ne hne with hlt | hlt
  · have hle := Nat.mul_le_mul_right k hlt
    have hdiv := Nat.div_mul_le_self o' k
    left
    simp only [Nat.succ_eq_add_one] at hle
    omega
  · have hle := Nat.mul_le_mul_right k hlt
    have hdiv := Nat.div_mul_le_self o k
    right
    simp only [Nat.succ_eq_add_one] at hle
    omega

theorem pageOf_dvd : pgSize ∣ pageOf p := Nat.dvd_sub_mod p

theorem pageOf_page : pageOf (pageOf p) = pageOf p :=
  (pageOf_add (k := 0) pageOf_dvd (by decide)).1

/-- Two small blocks, on different pages or in different cells. -/
theorem small_apart {sz' : Nat} (hb : Books n s S live) (hp : p ∈ live) (hq : q ∈ live)
    (hne : pageOf p = pageOf q → blockId s p ≠ blockId s q)
    (hcell : p % pgSize + sz ≤ (blockId s p + 1) * (s.superblock (pageOf p)).blockSize)
    (hcell' : q % pgSize + sz' ≤ (blockId s q + 1) * (s.superblock (pageOf q)).blockSize) :
    Apart ⟨p, sz⟩ ⟨q, sz'⟩ := by
  have hpage : pageOf p + p % pgSize = p := Nat.sub_add_cancel (Nat.mod_le ..)
  have hpage' : pageOf q + q % pgSize = q := Nat.sub_add_cancel (Nat.mod_le ..)
  constructor
  · rintro (rfl : p = q)
    exact hne rfl rfl
  · show p + sz ≤ q ∨ q + sz' ≤ p
    by_cases hsame : pageOf p = pageOf q
    · have hid := hne hsame
      simp only [blockId, hsame] at hid hcell hcell'
      rcases cells_apart hid hcell hcell' with h | h
      · left
        omega
      · right
        omega
    · obtain ⟨k, hk⟩ := pageOf_dvd (p := p)
      obtain ⟨k', hk'⟩ := pageOf_dvd (p := q)
      have hend := cell_end hb hp hcell
      have hend' := cell_end hb hq hcell'
      simp only [pgSize] at *
      omega

/-- A small block, and pages that do not hold it. -/
theorem page_apart {m : Nat} (hend : p + sz ≤ pageOf p + pgSize) (hne : pageOf p ≠ pageOf q)
    (hpages : ∀ k < m, pageOf q + k * pgSize ≠ pageOf p) :
    Apart ⟨p, sz⟩ ⟨pageOf q, m * pgSize⟩ := by
  constructor
  · intro he
    have hpq : p = pageOf q := he
    exact hne (by rw [hpq, pageOf_page])
  · show p + sz ≤ pageOf q ∨ pageOf q + m * pgSize ≤ p
    obtain ⟨i, hi⟩ := pageOf_dvd (p := p)
    obtain ⟨j, hj⟩ := pageOf_dvd (p := q)
    have hle : pageOf p ≤ p := Nat.sub_le ..
    by_contra hover
    apply hpages (i - j)
    · simp only [pgSize] at *
      omega
    · simp only [pgSize] at *
      omega

end Cells

section Steps

/-- Which pages are superblocks is told by the bins. -/
theorem Shelved.subset (h : Shelved n s S live L) (h' : Shelved n s S' live' L') : S ⊆ S' := by
  intro a ha
  have hle := h.placed.le a ha
  have hmem := (h.placed.mem _ hle a).mpr ⟨ha, rfl⟩
  have heq : L (binOf (s.superblock a)) = L' (binOf (s.superblock a)) :=
    Chain.unique (h.placed.family.dlist _ hle).forth (h'.placed.family.dlist _ hle).forth
  rw [heq] at hmem
  exact ((h'.placed.mem _ hle a).mp hmem).1

theorem Shelved.unique (h : Shelved n s S live L) (h' : Shelved n s S' live' L') : S = S' :=
  Finset.Subset.antisymm (h.subset h') (h'.subset h)

theorem Isolated.congr (h : Isolated n s S bs)
    (hsizes : ∀ a ∈ S, (t.superblock a).blockSize = (s.superblock a).blockSize)
    (hpages : superblocks n s \ S ⊆ superblocks n t \ S) : Isolated n t S bs where
  small b hb hS := by
    rw [blockId, hsizes _ hS]
    exact h.small b hb hS
  large b hb hS := ⟨(h.large b hb hS).1, fun k hk => hpages ((h.large b hb hS).2 k hk)⟩
  apart := h.apart

/-- The cell that a small request is given. -/
theorem Handed.cell {sb id : Nat} {useFirst : Bool} (hd : Handed s sb sz useFirst p id)
    (ha : pgSize ∣ sb) (hsz : sz ≤ 2048) : p % pgSize + sz ≤ (id + 1) * sizeClass sz := by
  have hle := le_sizeClass hsz
  have hmul := blocks_mul (sizeClass_mem hsz)
  have hf := hd.found
  cases useFirst with
  | true =>
    obtain ⟨rfl, rfl, hfit⟩ := by simpa using hf
    rw [(pageOf_add ha (k := sizeofSuperblock) (by decide)).2, Nat.zero_add, Nat.one_mul]
    omega
  | false =>
    obtain ⟨_, rfl⟩ := by simpa using hf
    have hlt : id * sizeClass sz < pgSize := by
      have hpos := (blocks_bounds (sizeClass_mem hsz)).1
      have hlt := Nat.mul_lt_mul_of_pos_right hd.lt (by omega : 0 < sizeClass sz)
      rwa [hmul] at hlt
    rw [(pageOf_add ha hlt).2, Nat.succ_mul]
    omega

theorem Isolated.mallocSmall (hb : Isolated n s S bs) (hi : Mixed n s (bs.map Block.base) S H L)
    (hsz : sz ≤ 2048) (hcpu : cpu < n) (hm : mallocSmall s cpu sz = .ok (t, r))
    (hi' : Mixed n t (r.toList ++ bs.map Block.base) S' H L') :
    Isolated n t S' ((r.map (⟨·, sz⟩)).toList ++ bs) := by
  have hchunks := mallocSmall_chunks hm
  rcases hi.shelved.mallocSmall hsz hcpu hm with
    ⟨rfl, -, hsame⟩ | ⟨S'', p, sb, useFirst, m, rfl, -, hg⟩
  · obtain rfl := (hi.shelved.congr hsame).unique hi'.shelved
    apply hb.congr
    · intro a _
      rw [hsame.superblock]
    · rw [superblocks_congr hsame.dsegLo hsame.dsegHi]
  · obtain ⟨L'', hinv⟩ := hg.inv
    obtain rfl := hinv.unique hi'.shelved
    obtain ⟨-, hpage⟩ := hi.grown hg.grew hchunks
    have hothers := hg.grew.others hi.shelved.segment
    have hcls := mallocSmall_class hi.shelved hsz hcpu hm
    obtain ⟨u, id, -, hd⟩ := hg.handed
    obtain ⟨hsb, hid⟩ := hd.page hg.aligned hsz
    have hid' : blockId t p = id := by
      rw [← hid, blockId, blockId, hcls, hsb, hd.cls]
    have hcell : p % pgSize + sz ≤ (blockId t p + 1) * (t.superblock (pageOf p)).blockSize := by
      rw [hid', hcls]
      exact hd.cell hg.aligned hsz
    have hp := hinv.live.page p List.mem_cons_self
    have hkept : ∀ b ∈ bs, (pageOf b.base ∈ S'' ↔ pageOf b.base ∈ S) := fun b hb =>
      hpage _ (List.mem_map_of_mem hb)
    have hcells : ∀ b ∈ bs, pageOf b.base ∈ S → b.base % pgSize + b.size ≤
        (blockId t b.base + 1) * (t.superblock (pageOf b.base)).blockSize := by
      intro b hbs hS
      rw [blockId, hg.grew.size _ hS]
      exact (hb.small b hbs hS).2
    refine ⟨fun b hbs hS => ?_, fun b hbs hS => ?_, List.pairwise_cons.mpr ⟨?_, hb.apart⟩⟩
    · rcases List.mem_cons.mp hbs with rfl | hbs
      · exact ⟨hsz, hcell⟩
      · have hS := (hkept b hbs).mp hS
        exact ⟨(hb.small b hbs hS).1, hcells b hbs hS⟩
    · rcases List.mem_cons.mp hbs with rfl | hbs
      · exact (hS hp).elim
      · rw [hothers]
        exact hb.large b hbs (mt (hkept b hbs).mpr hS)
    · rintro b hbs -
      have hspan : span ⟨p, sz⟩ = ⟨p, sz⟩ := if_pos hsz
      rw [hspan]
      by_cases hS : pageOf b.base ∈ S
      · have hsmall := (hb.small b hbs hS).1
        rw [span, if_pos hsmall]
        have hmem : b.base ∈ (bs.map Block.base).filter (pageOf · ∈ S) :=
          List.mem_filter.mpr ⟨List.mem_map_of_mem hbs, by simpa using hS⟩
        exact small_apart hinv.toBooks List.mem_cons_self (List.mem_cons_of_mem _ hmem)
          ((List.pairwise_cons.mp hinv.live.apart).1 _ hmem) hcell (hcells b hbs hS)
      · obtain ⟨hlarge, hpages⟩ := hb.large b hbs hS
        rw [span, if_neg hlarge]
        apply page_apart (cell_end hinv.toBooks List.mem_cons_self hcell)
        · intro he
          exact hS ((hkept b hbs).mp (he ▸ hp))
        · intro k hk he
          have hno := hpages k hk
          rw [← hothers, he] at hno
          exact (Finset.mem_sdiff.mp hno).2 hp

theorem mallocLarge_shelves (hm : mallocLarge s cpu sz = .ok (t, r)) : SameShelves s t := by
  obtain ⟨-, -, u, a, ht, rfl, -⟩ := mallocLarge_eq_ok.mp hm
  have hout : SameShelves (locked u (cpu + 1))
      (handOutLarge (locked u (cpu + 1)) cpu (numPages sz) a) :=
    pushLarge_shelves.trans (.of_heaps rfl rfl rfl)
  exact ((takeLarge_shelves ht).trans locked_same.shelves).trans (hout.trans unlockHeap_shelves)

theorem Isolated.mallocLarge (hb : Isolated n s S bs) (hi : Mixed n s (bs.map Block.base) S H L)
    (hlarge : sbSize / 2 < sz) (hm : mallocLarge s cpu sz = .ok (t, r)) :
    Isolated n t S ((r.map (⟨·, sz⟩)).toList ++ bs) := by
  have hsb := (mallocLarge_shelves hm).superblock
  have hext := mallocLarge_extends hm
  obtain ⟨-, -, u, a, ht, htu, rfl⟩ := mallocLarge_eq_ok.mp hm
  obtain ⟨H', -, -, ha, hpages, -⟩ := hi.takeLarge ht
  have hgrown : superblocks n t = superblocks n u := by
    apply superblocks_congr
    · rw [hext.dsegLo, (takeLarge_extends ht).dsegLo]
    · rw [htu, unlockHeap_large.dsegHi, handOutLarge_hi]
      rfl
  have hpage : pageOf (a + sizeofNode) = a :=
    (pageOf_add (mem_superblocks.mp (Finset.mem_sdiff.mp ha).1).2 (by decide)).1
  have haS : a ∉ S := (Finset.mem_sdiff.mp ha).2
  have hbig : ¬Small ⟨a + sizeofNode, sz⟩ := Nat.not_le.mpr hlarge
  have hold : Isolated n t S bs := hb.congr (fun b _ => by rw [hsb])
    (Finset.sdiff_subset_sdiff (superblocks_mono hext.dsegLo hext.le) subset_rfl)
  refine ⟨fun b hbs hS => ?_, fun b hbs hS => ?_, List.pairwise_cons.mpr ⟨?_, hold.apart⟩⟩
  · rcases List.mem_cons.mp hbs with rfl | hbs
    · rw [hpage] at hS
      exact (haS hS).elim
    · exact hold.small b hbs hS
  · rcases List.mem_cons.mp hbs with rfl | hbs
    · refine ⟨hbig, fun k hk => ?_⟩
      rw [hpage, hgrown]
      exact hpages k hk
    · exact hold.large b hbs hS
  · intro b hbs hsmall
    have hsmall := hsmall.resolve_left hbig
    have hbS : pageOf b.base ∈ S := by
      by_contra hno
      exact (hb.large b hbs hno).1 hsmall
    have hmem : b.base ∈ (bs.map Block.base).filter (pageOf · ∈ S) :=
      List.mem_filter.mpr ⟨List.mem_map_of_mem hbs, by simpa using hbS⟩
    rw [span, if_neg hbig, span, if_pos hsmall]
    apply Apart.symm
    apply page_apart (cell_end hi.shelved.toBooks hmem (hb.small b hbs hbS).2)
    · rw [hpage]
      rintro he
      exact haS (he ▸ hbS)
    · intro k hk he
      have hno := hpages k hk
      rw [hpage] at he
      rw [he] at hno
      exact (Finset.mem_sdiff.mp hno).2 hbS

theorem Isolated.sublist {bs' : List Block} (hb : Isolated n s S bs) (hsub : bs'.Sublist bs) :
    Isolated n s S bs' where
  small b h := hb.small b (hsub.subset h)
  large b h := hb.large b (hsub.subset h)
  apart := hb.apart.sublist hsub

theorem Isolated.free (hb : Isolated n s S bs) (hi : Mixed n s (bs.map Block.base) S H L)
    (hp : p ∈ bs.map Block.base) (hf : mmFree s p = .ok t) :
    Isolated n t S (bs.eraseP (·.base = p)) := by
  refine Isolated.sublist ?_ List.eraseP_sublist
  simp only [mmFree] at hf
  split at hf
  · have hseg := Extends.of_seg (freeLarge_seg hf)
    apply hb.congr
    · intro a _
      rw [(freeLarge_shelves hf).superblock]
    · exact Finset.sdiff_subset_sdiff (superblocks_mono hseg.dsegLo hseg.le) subset_rfl
  · next h0 =>
    obtain ⟨-, hsizes⟩ := hi.shelved.freeSmall (hi.mem_small hp (not_not.mp h0)) hf
    apply hb.congr
    · intro a _
      exact hsizes.size a
    · rw [superblocks_congr hsizes.dsegLo hsizes.dsegHi]

theorem isolated_step (hi : Mixed n c.state (bs.map Block.base) S H L)
    (hb : Isolated n c.state S bs) (hl : c.live = bs.map Block.base) (hs : Step n c e d) :
    ∃ S' H' L', Mixed n d.state ((heldAfter bs e).map Block.base) S' H' L' ∧
      Isolated n d.state S' (heldAfter bs e) := by
  have hbases := heldAfter_bases hs hl
  cases hs with
  | @malloc cpu sz t r hcpu hsz hm =>
    rcases Nat.lt_or_ge (sbSize / 2) sz with hlarge | hsmall
    · rw [mmMalloc_large hlarge] at hm
      obtain ⟨H', hi'⟩ := hi.mallocLarge hcpu hm
      refine ⟨S, H', L, ?_, hb.mallocLarge hi hlarge hm⟩
      rwa [← hbases, hl]
    · rw [mmMalloc_small hsmall] at hm
      obtain ⟨S', L', hi'⟩ := hi.mallocSmall hsmall hcpu hm
      refine ⟨S', H, L', ?_, hb.mallocSmall hi hsmall hcpu hm hi'⟩
      rwa [← hbases, hl]
  | @free p t hp hf =>
    rw [hl] at hp
    have hb' := hb.free hi hp hf
    simp only [mmFree] at hf
    split at hf
    · next h1 =>
      refine ⟨S, H, L, ?_, hb'⟩
      rw [← hbases, hl]
      exact hi.freeLarge hp h1 hf
    · next h0 =>
      obtain ⟨L', hi'⟩ := hi.freeSmall hp (not_not.mp h0) hf
      refine ⟨S, H, L', ?_, hb'⟩
      rwa [← hbases, hl]

end Steps

section Runs

theorem held_concat : held (run ++ [(e, d)]) = heldAfter (held run) e := by
  rw [held, List.foldl_append]
  rfl

theorem isolated_along (hc : Started n c) (hr : Along (Step n) c run) :
    (lastState c run).live = (held run).map Block.base ∧
    ∃ S H L, Mixed n (lastState c run).state ((held run).map Block.base) S H L ∧
      Isolated n (lastState c run).state S (held run) := by
  apply hr.history
  · obtain ⟨S, H, L, hi⟩ := mixedOk_started hc
    have hlive := hc.live
    refine ⟨hlive, S, H, L, ?_, by simp [held], by simp [held], .nil⟩
    rw [hlive] at hi
    exact hi
  · rintro l e d ⟨hl, S, H, L, hi, hb⟩ hs
    rw [lastState_append, held_concat]
    exact ⟨heldAfter_bases hs hl, isolated_step hi hb hl hs⟩

/-- Whatever blocks a program asks for and frees, a small one that it has lies on one page behind
those of the heaps, and has no address in common with any other block that it has, nor with the
pages of a large one. -/
theorem small_blocks_apart (hc : Started n c) (hr : Along (Step n) c run) :
    (lastState c run).live = (held run).map Block.base ∧
      ((held run).Pairwise fun b c => Small b ∨ Small c → Apart (span b) (span c)) ∧
      ∀ b ∈ held run, Small b → firstPage n (lastState c run).state ≤ pageOf b.base ∧
        b.base + b.size ≤ pageOf b.base + pgSize ∧
        pageOf b.base + pgSize ≤ (lastState c run).state.dsegHi + 1 := by
  obtain ⟨hl, S, H, L, hi, hb⟩ := isolated_along hc hr
  refine ⟨hl, hb.apart, fun b hbs hsmall => ?_⟩
  have hbS : pageOf b.base ∈ S := by
    by_contra hno
    exact (hb.large b hbs hno).1 hsmall
  have hmem : b.base ∈ ((held run).map Block.base).filter (pageOf · ∈ S) :=
    List.mem_filter.mpr ⟨List.mem_map_of_mem hbs, by simpa using hbS⟩
  obtain ⟨hlo, hhi⟩ := (mem_superblocks.mp (hi.shelved.page hbS)).1
  refine ⟨hlo, cell_end hi.shelved.toBooks hmem (hb.small b hbs hbS).2, ?_⟩
  obtain ⟨i, hi'⟩ := hi.shelved.segment.hi_aligned
  obtain ⟨j, hj⟩ := pageOf_dvd (p := b.base)
  simp only [pgSize] at *
  omega

/-- Two small blocks and a large one, and the first is freed. -/
theorem small_blocks_apart_oneCpu : ∃ run, Along (Step 1) oneCpu run ∧
    held run = [⟨16640, 100⟩, ⟨20512, 5000⟩] ∧
    (held run).Pairwise fun b c => Small b ∨ Small c → Apart (span b) (span c) := by
  obtain ⟨run, hrun, hheld⟩ := ok_of_map
    (c := calls 1 oneCpu [.malloc 0 100, .malloc 0 5000, .malloc 0 100, .free 16512]) (f := held)
    (b := [⟨16640, 100⟩, ⟨20512, 5000⟩]) (by decide +kernel)
  have hr := calls_along hrun
  exact ⟨run, hr, hheld, (small_blocks_apart oneCpu_started hr).2.1⟩

end Runs
end Csc469.Alloc
