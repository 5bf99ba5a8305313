import Csc469.Alloc.Bins
import Csc469.Alloc.LargeBins

/-! What the steps of small requests leave alone, whatever the state: large chunks, and the
heaps of the superblocks that are not handed over. -/
namespace Csc469.Alloc

open Execution Bitmap

variable {s t u : State} {sb a h id old new cpu sz k page offset : Nat} {o d : Bin}
  {r : Option Nat} {useFirst : Bool}

/-- Chunk headers and the heads of the large bins are the same. -/
structure SameChunks (s t : State) : Prop where
  node : t.node = s.node
  largeBin : t.largeBin = s.largeBin

theorem SameChunks.trans (h : SameChunks s t) (h' : SameChunks t u) : SameChunks s u :=
  ⟨h'.node.trans h.node, h'.largeBin.trans h.largeBin⟩

theorem SameLarge.refl : SameLarge s s := ⟨rfl, rfl, rfl, rfl⟩

theorem SameLarge.sameChunks (h : SameLarge s t) : SameChunks s t := ⟨h.node, h.largeBin⟩

theorem SameContent.sameLarge (hs : SameContent s t) : SameLarge s t := by
  have hr := hs.rest
  simp only [State.rest, Prod.mk.injEq] at hr
  refine ⟨hr.2.2.2.2.2, ?_, hr.2.2.2.2.1, hr.2.1⟩
  funext h
  exact (heap_core_eq (hs.heap h)).2.2.2

theorem setHeap_large {f : Heap → Heap} (hf : ∀ x, (f x).binLarge = x.binLarge) :
    SameLarge s (s.setHeap h f) := by
  refine ⟨rfl, ?_, rfl, rfl⟩
  funext i
  by_cases hi : i = h <;> simp [State.largeBin, hi, hf]

theorem setHeap_chunks {f : Heap → Heap} (hf : ∀ x, (f x).binLarge = x.binLarge) :
    SameChunks s (s.setHeap h f) := (setHeap_large hf).sameChunks

theorem setSb_large {f : Superblock → Superblock} : SameLarge s (s.setSb a f) :=
  ⟨rfl, rfl, rfl, rfl⟩

theorem relinked_same (s : State) (sb : Nat) (o d : Bin) :
    SameContent s (pushSb (unlinkSb s sb o) sb d) :=
  unlinkSb_same.trans pushSb_same

theorem transferBins_large : SameLarge s (transferBins s sb o d) := by
  have hr := (relinked_same s sb o d).sameLarge
  unfold transferBins
  split
  · refine SameLarge.trans ?_ (setHeap_large fun _ => rfl)
    refine SameLarge.trans ?_ (setHeap_large fun _ => rfl)
    exact hr.trans setSb_large
  · exact hr

theorem transferBins_heapId : ((transferBins s sb o d).superblock a).heapId =
    if a = sb ∧ d.heap ≠ o.heap then d.heap else (s.superblock a).heapId := by
  have hc := (core_eq ((relinked_same s sb o d).core a)).2.2.2
  unfold transferBins
  by_cases hd : d.heap = o.heap
  · simp [hd, hc]
  · by_cases ha : a = sb <;> simp [hd, ha, hc]

theorem rebin_large : SameLarge s (rebin s sb h id old new) := by
  unfold rebin
  split
  · exact transferBins_large
  · exact .refl

theorem rebin_heapId : ((rebin s sb h id old new).superblock a).heapId =
    (s.superblock a).heapId := by
  unfold rebin
  split
  · simp [transferBins_heapId]
  · rfl

/-- Moving a superblock within its heap counts nothing. -/
theorem rebin_counters : ((rebin s sb h id old new).heapTable k).used = (s.heapTable k).used ∧
    ((rebin s sb h id old new).heapTable k).allocated = (s.heapTable k).allocated := by
  have hh := heap_core_eq ((relinked_same s sb ⟨h, id, old⟩ ⟨h, id, new⟩).heap k)
  unfold rebin transferBins
  split
  · simpa using ⟨hh.2.2.1, hh.2.1⟩
  · exact ⟨rfl, rfl⟩

theorem releaseBlock_counters (offset : Nat) (hk : (s.superblock page).heapId = h) :
    ((releaseBlock s page offset).heapTable h).used =
      (s.heapTable h).used - (s.superblock page).blockSize ∧
    ((releaseBlock s page offset).heapTable h).allocated = (s.heapTable h).allocated := by
  subst hk
  simp [releaseBlock, rebin_counters]

theorem takeBlock_large (ht : takeBlock s cpu sz sb useFirst old = (t, r)) : SameLarge s t := by
  simp only [takeBlock] at ht
  split at ht
  · cases ht
    exact .refl
  · cases ht
    refine SameLarge.trans ?_ unlockHeap_large
    refine SameLarge.trans ?_ rebin_large
    refine SameLarge.trans ?_ (setHeap_large fun _ => rfl)
    exact setSb_large

theorem takeBlock_heapId (ht : takeBlock s cpu sz sb useFirst old = (t, r)) :
    (t.superblock a).heapId = (s.superblock a).heapId := by
  simp only [takeBlock] at ht
  split at ht
  · cases ht
    rfl
  · cases ht
    simp only [unlockHeap, State.setHeap_superblock, rebin_heapId]
    by_cases ha : a = sb <;> simp [ha]

theorem newSuperblock_chunks : SameChunks s (newSuperblock s a k) := by
  refine ⟨rfl, ?_⟩
  funext i
  by_cases hi : i = 0 <;> simp [newSuperblock, State.largeBin, hi]

theorem takeGlobal_chunks {target : Option (Nat × Bin)} (ht : takeGlobal s sz = .ok (t, target)) :
    SameChunks s t := by
  simp only [takeGlobal] at ht
  split at ht
  · cases ht
    refine SameChunks.trans ?_ setSb_large.sameChunks
    refine SameChunks.trans ?_ newSuperblock_chunks
    exact setHeap_chunks fun _ => rfl
  · split at ht
    · cases ht
      exact SameLarge.refl.sameChunks
    · obtain ⟨s1, hl, ht⟩ := ok_of_bind ht
      obtain ⟨⟨s2, tmp⟩, hm, ht⟩ := ok_of_bind ht
      have hs : SameChunks s (unlockSbrk s2) := by
        unfold lockSbrk at hl
        split at hl <;> cases hl
        simp only [memSbrk] at hm
        split at hm
        · cases hm
        · split at hm <;> cases hm <;> exact ⟨rfl, rfl⟩
      cases tmp with
      | none =>
        cases ht
        exact hs
      | some sb =>
        cases ht
        refine SameChunks.trans ?_ (setHeap_chunks fun _ => rfl)
        refine SameChunks.trans ?_ (setHeap_chunks fun _ => rfl)
        exact hs.trans newSuperblock_chunks

theorem mallocSmall_chunks (hm : mallocSmall s cpu sz = .ok (t, r)) : SameChunks s t := by
  obtain ⟨s1, hl, hm⟩ := ok_of_bind hm
  obtain ⟨found, -, hm⟩ := ok_of_bind hm
  have h1 := (lockHeap_large hl).sameChunks
  cases found with
  | some x =>
    exact h1.trans (takeBlock_large (Except.ok.inj hm)).sameChunks
  | none =>
    obtain ⟨s2, hl', hm⟩ := ok_of_bind hm
    obtain ⟨⟨s3, target⟩, ht, hm⟩ := ok_of_bind hm
    have h3 := (h1.trans (lockHeap_large hl').sameChunks).trans (takeGlobal_chunks ht)
    cases target with
    | none =>
      cases hm
      exact h3
    | some x =>
      have h4 := (transferBins_large.trans unlockHeap_large).trans
        (takeBlock_large (Except.ok.inj hm))
      exact h3.trans h4.sameChunks

theorem releaseBlock_large : SameLarge s (releaseBlock s page offset) := by
  refine SameLarge.trans ?_ rebin_large
  refine SameLarge.trans ?_ (setHeap_large fun _ => rfl)
  exact setSb_large

theorem releaseBlock_heapId : ((releaseBlock s page offset).superblock a).heapId =
    (s.superblock a).heapId := by
  simp only [releaseBlock, rebin_heapId, State.setHeap_superblock]
  by_cases ha : a = page <;> simp [ha]

theorem trimHeap_large (ht : trimHeap s h = .ok t) : SameLarge s t := by
  simp only [trimHeap] at ht
  split at ht
  · cases ht
    exact unlockHeap_large
  · split at ht
    · split at ht
      · cases ht
      · cases ht
        exact transferBins_large.trans unlockHeap_large
    · cases ht
      exact unlockHeap_large

theorem freeSmall_large (hf : freeSmall s page offset = .ok t) : SameLarge s t := by
  obtain ⟨s1, hl, hf⟩ := ok_of_bind hf
  exact (lockHeap_large hl).trans (releaseBlock_large.trans (trimHeap_large hf))

end Csc469.Alloc
