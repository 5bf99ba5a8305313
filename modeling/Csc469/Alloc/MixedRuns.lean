import Csc469.Alloc.ChunkPages
import Csc469.Alloc.LargeRuns
import Csc469.Alloc.SmallRuns

/-! Every run, of requests of any size: the superblocks are linked and counted as they are
where all requests are small. -/
namespace Csc469.Alloc

open Linked Bitmap Execution

variable {n cpu sz : Nat} {s t : State} {S S' H : Finset Nat} {L : Bin → List Nat}
  {a p : Nat} {live : List Nat} {c d : Config} {e : Event} {r : Option Nat}

/-- The pages of `S` are superblocks, those of `H` head large chunks on other pages, and the
program holds pointers into both. -/
structure Mixed (n : Nat) (s : State) (live : List Nat) (S H : Finset Nat) (L : Bin → List Nat) :
    Prop where
  shelved : Shelved n s S (live.filter (pageOf · ∈ S)) L
  chunks : ChunksIn n s (superblocks n s \ S) H
  live : ∀ p ∈ live, pageOf p ∈ S ∨ pageOf p ∈ H

def MixedOk (n : Nat) (c : Config) : Prop := ∃ S H L, Mixed n c.state c.live S H L

theorem mixedOk_started (hc : Started n c) : MixedOk n c := by
  obtain ⟨L, hi⟩ := smallOk_started hc
  refine ⟨superblocks n c.state, ∅, L, ?_, ?_, ?_⟩
  · rw [hc.live]
    have hs := hi.shelved
    rwa [hc.live] at hs
  · refine ⟨by simp, by simp, by simp, by simp, by simp, fun h hh => ?_⟩
    rw [State.largeBin, (hc.fresh.heap h hh).2.2.1]
    exact into_none
  · simp [hc.live]

/-- Superblocks and large chunks are told apart by the type word of the page. -/
theorem Mixed.type_iff (hi : Mixed n s live S H L) (hp : p ∈ live) :
    s.type (pageOf p) = 0 ↔ pageOf p ∈ S := by
  constructor
  · intro h0
    rcases hi.live p hp with hS | hH
    · exact hS
    · exact (hi.chunks.type _ hH h0).elim
  · exact hi.shelved.type _

theorem Mixed.mem_small (hi : Mixed n s live S H L) (hp : p ∈ live) (h0 : s.type (pageOf p) = 0) :
    p ∈ live.filter (pageOf · ∈ S) := by
  rw [List.mem_filter]
  exact ⟨hp, by simpa using (hi.type_iff hp).mp h0⟩

/-- A page that comes in is none of the pages there were. -/
theorem Grew.mem_iff (hg : Grew sz s t S S') (ha : a ∈ superblocks n s) : a ∈ S' ↔ a ∈ S := by
  rcases hg.page with ⟨rfl, -⟩ | ⟨rfl, -⟩
  · exact Iff.rfl
  · have hne : a ≠ s.dsegHi + 1 := by
      have := (mem_superblocks.mp ha).1.2
      omega
    simp [hne]

/-- The pages that are not superblocks stay the same. -/
theorem Grew.others (hg : Grew sz s t S S') (hs : Segment n s) :
    superblocks n t \ S' = superblocks n s \ S := by
  rcases hg.page with ⟨rfl, hhi⟩ | ⟨rfl, hhi, -⟩
  · rw [superblocks_congr hg.dsegLo hhi]
  · obtain ⟨hS, hnew⟩ := superblocks_insert hs hg.dsegLo hhi
    rw [hS, Finset.insert_sdiff_insert, Finset.sdiff_insert_of_notMem hnew]

theorem Mixed.grown (hi : Mixed n s live S H L) (hg : Grew sz s t S S') (hc : SameChunks s t) :
    ChunksIn n t (superblocks n t \ S') H ∧ ∀ q ∈ live, pageOf q ∈ S' ↔ pageOf q ∈ S := by
  constructor
  · rw [hg.others hi.shelved.segment]
    refine hi.chunks.congr hc.node hc.largeBin fun a ha => hg.type a ?_
    have ha := Finset.mem_sdiff.mp (hi.chunks.page ha)
    rw [hg.mem_iff ha.1]
    exact ha.2
  · intro q hq
    refine hg.mem_iff (n := n) ?_
    rcases hi.live q hq with hS | hH
    · exact hi.shelved.page hS
    · exact (Finset.mem_sdiff.mp (hi.chunks.page hH)).1

theorem Mixed.mallocSmall (hi : Mixed n s live S H L) (hsz : sz ≤ 2048) (hcpu : cpu < n)
    (hm : mallocSmall s cpu sz = .ok (t, r)) :
    ∃ S' L', Mixed n t (r.toList ++ live) S' H L' := by
  have hchunks := mallocSmall_chunks hm
  rcases hi.shelved.mallocSmall hsz hcpu hm with
    ⟨rfl, -, hsame⟩ | ⟨S', p, sb, useFirst, m, rfl, -, hg⟩
  · have hgrew : Grew sz s t S S := hsame.sameBlocks.grew
    exact ⟨S, L, hi.shelved.congr hsame, (hi.grown hgrew hchunks).1, hi.live⟩
  · obtain ⟨hin, hpage⟩ := hi.grown hg.grew hchunks
    obtain ⟨L', hL'⟩ := hg.inv
    have hp := hL'.live.page p (List.mem_cons_self ..)
    refine ⟨S', L', ?_, hin, fun q hq => ?_⟩
    · have hfilter : (p :: live).filter (pageOf · ∈ S') = p :: live.filter (pageOf · ∈ S) := by
        rw [List.filter_cons_of_pos (by simpa using hp)]
        exact congrArg (p :: ·) (List.filter_congr fun q hq => by simp [hpage q hq])
      rwa [Option.toList_some, List.singleton_append, hfilter]
    · rcases List.mem_cons.mp hq with rfl | hq
      · exact .inl hp
      · rw [hpage q hq]
        exact hi.live q hq

theorem Mixed.freeSmall (hi : Mixed n s live S H L) (hp : p ∈ live)
    (h0 : s.type (pageOf p) = 0) (hf : freeSmall s (pageOf p) (p % pgSize) = .ok t) :
    ∃ L', Mixed n t (live.erase p) S H L' := by
  obtain ⟨⟨L', hL'⟩, hs⟩ := hi.shelved.freeSmall (hi.mem_small hp h0) hf
  have hlarge := freeSmall_large hf
  refine ⟨L', ?_, ?_, fun q hq => hi.live q (List.mem_of_mem_erase hq)⟩
  · rwa [List.erase_filter] at hL'
  · rw [superblocks_congr hs.dsegLo hs.dsegHi]
    exact hlarge.chunksIn hi.chunks

/-- The chunk that `malloc_large` finds or gets lies on pages that are not superblocks. -/
theorem Mixed.takeLarge {pages : Nat} (hi : Mixed n s live S H L)
    (ht : takeLarge s pages = .ok (t, some a)) :
    ∃ H', H ⊆ H' ∧ ChunksIn n t (superblocks n t \ S) H' ∧ a ∈ superblocks n t \ S ∧
      (∀ k < pages, a + k * pgSize ∈ superblocks n t \ S) ∧
      Shelved n t S (live.filter (pageOf · ∈ S)) L := by
  have hs := takeLarge_shelves ht
  have hseg := hi.shelved.segment
  rcases hi.chunks.takeLarge ht with
    ⟨H', hsub, hc, ha, hpages, hhi, htype⟩ | ⟨hpos, hc, rfl, hhi, htype⟩
  · have hS := superblocks_congr (n := n) hs.dsegLo hhi
    rw [hS]
    refine ⟨H', hsub, hc, hc.page ha, hpages, ?_⟩
    refine hi.shelved.beside hs hhi.ge (by rw [hhi]; exact hseg.hi_aligned) fun b hb => htype b ?_
    simp [hb]
  · have hle : s.dsegHi ≤ t.dsegHi := by omega
    have hsub := superblocks_mono (n := n) hs.dsegLo hle
    have hnew : ∀ k < pages, s.dsegHi + 1 + k * pgSize ∈ superblocks n t \ S := by
      intro k hk
      rw [Finset.mem_sdiff, mem_superblocks, firstPage, hs.dsegLo]
      refine ⟨⟨⟨hseg.heaps.trans (Nat.le_add_right _ _), ?_⟩, ?_⟩, fun hS => ?_⟩
      · have := Nat.mul_le_mul_right pgSize hk
        simp only [pgSize] at *
        omega
      · exact Nat.dvd_add hseg.hi_aligned (Nat.dvd_mul_left _ _)
      · have := (mem_superblocks.mp (hi.shelved.page hS)).1.2
        omega
    refine ⟨H, Finset.Subset.refl H, hc.mono (Finset.sdiff_subset_sdiff hsub subset_rfl), ?_, hnew,
      hi.shelved.beside hs hle ?_ fun b _ => by rw [htype]⟩
    · simpa using hnew 0 hpos
    · rw [hhi, Nat.add_right_comm]
      exact Nat.dvd_add hseg.hi_aligned (Nat.dvd_mul_left _ _)

theorem Mixed.mallocLarge (hi : Mixed n s live S H L) (hcpu : cpu < n)
    (hm : mallocLarge s cpu sz = .ok (t, r)) :
    ∃ H', Mixed n t (r.toList ++ live) S H' L := by
  simp only [Alloc.mallocLarge] at hm
  split at hm
  · cases hm
  obtain ⟨⟨u, target⟩, htake, hm⟩ := ok_of_bind hm
  obtain ⟨v, hlock, hm⟩ := ok_of_bind hm
  cases target with
  | none => cases hm
  | some a =>
    cases hm
    obtain ⟨H', hsub, hc, ha, hpages, hshelved⟩ := hi.takeLarge htake
    have hlo := (lockHeap_shelves hlock).dsegLo
    have hhi : (handOutLarge v cpu (numPages sz) a).dsegHi = u.dsegHi :=
      handOutLarge_hi.trans (lockHeap_large hlock).dsegHi
    have hout := ((lockHeap_large hlock).chunksIn hc).handOut hcpu ha hpages
    have hshelves : SameShelves u (unlockHeap (handOutLarge v cpu (numPages sz) a) (cpu + 1)) := by
      refine SameShelves.trans ?_ unlockHeap_shelves
      exact (lockHeap_shelves hlock).trans (pushLarge_shelves.trans (.of_heaps rfl rfl rfl))
    have hS := superblocks_congr (n := n) (s := u)
      (t := unlockHeap (handOutLarge v cpu (numPages sz) a) (cpu + 1)) hshelves.dsegLo hhi
    have hpage : pageOf (a + sizeofNode) = a :=
      (pageOf_add (mem_superblocks.mp (Finset.mem_sdiff.mp ha).1).2 (by decide)).1
    have haS : a ∉ S := (Finset.mem_sdiff.mp ha).2
    refine ⟨insert a H', ?_, ?_, fun q hq => ?_⟩
    · have hfilter : ((a + sizeofNode) :: live).filter (pageOf · ∈ S) =
          live.filter (pageOf · ∈ S) := List.filter_cons_of_neg (by simpa [hpage] using haS)
      rw [Option.toList_some, List.singleton_append, hfilter]
      refine hshelved.beside hshelves hhi.ge ?_ fun b hb => ?_
      · have hal := hshelved.segment.hi_aligned
        rwa [← hhi] at hal
      · have hne : b ≠ a := by
          rintro rfl
          exact haS hb
        rw [unlockHeap_large.type, ← (lockHeap_large hlock).type, handOutLarge]
        simp [hne, (pushLarge_spec (s := v) (h := cpu + 1) (x := a) rfl).2.2.2.type]
    · rw [hS]
      exact unlockHeap_large.chunksIn hout
    · rcases List.mem_cons.mp hq with rfl | hq
      · rw [hpage]
        exact .inr (Finset.mem_insert_self a H')
      · exact (hi.live q hq).imp_right fun h => Finset.mem_insert_of_mem (hsub h)

theorem Mixed.freeLarge (hi : Mixed n s live S H L) (hp : p ∈ live)
    (h1 : s.type (pageOf p) ≠ 0) (hf : freeLarge s (pageOf p) = .ok t) :
    Mixed n t (live.erase p) S H L := by
  have hS : pageOf p ∉ S := fun hS => h1 ((hi.type_iff hp).mpr hS)
  have hH : pageOf p ∈ H := (hi.live p hp).resolve_left hS
  have hshelves := freeLarge_shelves hf
  obtain ⟨u, hlock, hf⟩ := ok_of_bind hf
  obtain ⟨v, hlock', hf⟩ := ok_of_bind hf
  have hc := (lockHeap_large hlock).chunksIn hi.chunks
  have hrelink := hc.relink (h := (s.node (pageOf p)).heapId) (x := pageOf p)
    (hc.next _ hH) (hc.prev _ hH)
  have hpush := ((unlockHeap_large.trans (lockHeap_large hlock')).chunksIn hrelink).pushLarge
    (h := 0) (Nat.zero_le n) hH
  have hsame : t.dsegHi = s.dsegHi ∧ t.type = s.type := by
    cases hf
    obtain ⟨-, -, -, hs1⟩ := relink_writes (s := u) (h := (s.node (pageOf p)).heapId)
      (x := pageOf p) (u.node (pageOf p)).next (u.node (pageOf p)).prev rfl
    have hs2 := (pushLarge_spec (s := v) (h := 0) (x := pageOf p) rfl).2.2.2
    have hs3 := (unlockHeap_large (h := (s.node (pageOf p)).heapId)).trans (lockHeap_large hlock')
    constructor
    · rw [unlockHeap_large.dsegHi, hs2.dsegHi, hs3.dsegHi, hs1.dsegHi, (lockHeap_large hlock).dsegHi]
    · rw [unlockHeap_large.type, hs2.type, hs3.type, hs1.type, (lockHeap_large hlock).type]
  refine ⟨?_, ?_, fun q hq => hi.live q (List.mem_of_mem_erase hq)⟩
  · have hfilter : (live.erase p).filter (pageOf · ∈ S) = live.filter (pageOf · ∈ S) := by
      rw [← List.erase_filter, List.erase_of_not_mem]
      simp [hS]
    rw [hfilter]
    refine hi.shelved.beside hshelves hsame.1.ge ?_ fun b _ => by rw [hsame.2]
    rw [hsame.1]
    exact hi.shelved.segment.hi_aligned
  · rw [superblocks_congr hshelves.dsegLo hsame.1]
    cases hf
    exact unlockHeap_large.chunksIn hpush

theorem mixedOk_step (hc : MixedOk n c) (hs : Step n c e d) : MixedOk n d := by
  obtain ⟨S, H, L, hi⟩ := hc
  cases hs with
  | @malloc cpu sz t r hcpu hsz hm =>
    rcases Nat.lt_or_ge (sbSize / 2) sz with hlarge | hsmall
    · rw [mmMalloc_large hlarge] at hm
      obtain ⟨H', hi'⟩ := hi.mallocLarge hcpu hm
      exact ⟨S, H', L, hi'⟩
    · rw [mmMalloc_small hsmall] at hm
      obtain ⟨S', L', hi'⟩ := hi.mallocSmall hsmall hcpu hm
      exact ⟨S', H, L', hi'⟩
  | free hp hf =>
    simp only [mmFree] at hf
    split at hf
    · next h1 => exact ⟨S, H, L, hi.freeLarge hp h1 hf⟩
    · next h0 =>
      obtain ⟨L', hi'⟩ := hi.freeSmall hp (not_not.mp h0) hf
      exact ⟨S, H, L', hi'⟩

theorem mixedOk_reaches (hc : Started n c) (hr : Reaches (Step n) c d) : MixedOk n d :=
  Reaches.invariant (fun _ _ _ => mixedOk_step) (mixedOk_started hc) hr

end Csc469.Alloc
