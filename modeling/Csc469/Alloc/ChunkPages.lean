import Csc469.Alloc.LargeBins
import Csc469.Alloc.SmallInvariant

/-! Large chunks keep to their own pages, however their lists are tangled, and leave
superblocks alone. -/
namespace Csc469.Alloc

open Execution Linked

variable {n h j k cpu pages : Nat} {s t u : State} {P H : Finset Nat} {a b x y : Nat}
  {newNext newPrev p : Option Nat} {r : Option Nat}

/-- The pointer is null or leads into `H`. -/
def Into (H : Finset Nat) (p : Option Nat) : Prop := ∀ b, p = some b → b ∈ H

/-- `H` holds headers of chunks with pages in `P`, and what they and the bins link to. -/
structure ChunksIn (n : Nat) (s : State) (P H : Finset Nat) : Prop where
  page : H ⊆ P
  type : ∀ a ∈ H, s.type a ≠ 0
  pages : ∀ a ∈ H, ∀ k < (s.node a).numPages, a + k * pgSize ∈ P
  next : ∀ a ∈ H, Into H (s.nextChunk a)
  prev : ∀ a ∈ H, Into H (s.prevChunk a)
  bin : ∀ h ≤ n, Into H (s.largeBin h)

theorem into_none : Into H none := by
  rintro b ⟨⟩

theorem into_some : Into H (some a) ↔ a ∈ H := by
  constructor
  · exact fun h => h a rfl
  · rintro h b ⟨⟩
    exact h

theorem Into.mono {H' : Finset Nat} (hp : Into H p) (hs : H ⊆ H') : Into H' p :=
  fun b hb => hs (hp b hb)

theorem ChunksIn.mono {P' : Finset Nat} (hc : ChunksIn n s P H) (hs : P ⊆ P') :
    ChunksIn n s P' H :=
  { hc with
    page := hc.page.trans hs
    pages := fun a ha k hk => hs (hc.pages a ha k hk) }

/-- Only what a header's page holds matters, and what the bins do. -/
theorem ChunksIn.congr (hc : ChunksIn n s P H) (hn : t.node = s.node)
    (hb : t.largeBin = s.largeBin) (ht : ∀ a ∈ H, t.type a = s.type a) : ChunksIn n t P H := by
  have hnext : t.nextChunk = s.nextChunk := by
    funext y
    simp [State.nextChunk, hn]
  have hprev : t.prevChunk = s.prevChunk := by
    funext y
    simp [State.prevChunk, hn]
  refine ⟨hc.page, fun a ha => ?_, ?_, ?_, ?_, ?_⟩
  · rw [ht a ha]
    exact hc.type a ha
  · rw [hn]
    exact hc.pages
  · rw [hnext]
    exact hc.next
  · rw [hprev]
    exact hc.prev
  · rw [hb]
    exact hc.bin

theorem SameLarge.chunksIn (hs : SameLarge s t) (hc : ChunksIn n s P H) : ChunksIn n t P H :=
  hc.congr hs.node hs.largeBin fun a _ => by rw [hs.type]

/-! Taking a chunk out of its list, and putting one in front of another. -/

/-- Whatever the links of `x` are, only the two new values are written. -/
theorem relink_writes (newNext newPrev : Option Nat) (ht : t = relink s h x newNext newPrev) :
    (∀ y, t.nextChunk y = newNext ∨ t.nextChunk y = s.nextChunk y) ∧
    (∀ y, t.prevChunk y = newPrev ∨ t.prevChunk y = s.prevChunk y) ∧
    (∀ j, t.largeBin j = newNext ∨ t.largeBin j = s.largeBin j) ∧ SameNodes s t := by
  subst ht
  simp only [relink]
  generalize hu : s.setNextChunk (s.node x).prev h newNext = u
  have hnode : ∀ y, u.node y =
      if (s.node x).prev = some y then { s.node y with next := newNext } else s.node y := by
    intro y
    rw [← hu]
    exact setNextChunk_node
  have hbin : ∀ j, u.largeBin j = newNext ∨ u.largeBin j = s.largeBin j := by
    intro j
    rw [← hu, setNextChunk_bin]
    split
    · exact .inl rfl
    · exact .inr rfl
  have hrest : u.type = s.type ∧ u.dsegHi = s.dsegHi := by
    rw [← hu]
    cases (s.node x).prev <;> exact ⟨rfl, rfl⟩
  have hnext : ∀ y, (u.node y).next = newNext ∨ (u.node y).next = s.nextChunk y := by
    intro y
    rw [hnode]
    split
    · exact .inl rfl
    · exact .inr rfl
  have hprev : ∀ y, (u.node y).prev = s.prevChunk y := by
    intro y
    rw [hnode]
    split <;> rfl
  generalize (u.node x).next = q
  refine ⟨fun y => ?_, fun y => ?_, fun j => ?_, ⟨fun y => ?_, fun y => ?_, ?_, ?_⟩⟩
  · rw [State.nextChunk, State.onNode_node]
    simp only [apply_ite Node.next, ite_self]
    exact hnext y
  · rw [State.prevChunk, State.onNode_node]
    split
    · exact .inl rfl
    · exact .inr (hprev y)
  · rw [State.largeBin, State.onNode_heapTable]
    exact hbin j
  · simp [hnode, apply_ite Node.numPages]
  · simp [hnode, apply_ite Node.heapId]
  · rw [onNode_rest.1, hrest.1]
  · rw [onNode_rest.2, hrest.2]

theorem ChunksIn.relink (hc : ChunksIn n s P H) (hn : Into H newNext) (hp : Into H newPrev) :
    ChunksIn n (relink s h x newNext newPrev) P H := by
  obtain ⟨hnext, hprev, hbin, hs⟩ := relink_writes (s := s) (h := h) (x := x) newNext newPrev rfl
  refine ⟨hc.page, fun a ha => ?_, fun a ha k hk => ?_, fun a ha => ?_, fun a ha => ?_,
    fun j hj => ?_⟩
  · rw [hs.type]
    exact hc.type a ha
  · rw [hs.numPages] at hk
    exact hc.pages a ha k hk
  · rcases hnext a with he | he <;> rw [he]
    · exact hn
    · exact hc.next a ha
  · rcases hprev a with he | he <;> rw [he]
    · exact hp
    · exact hc.prev a ha
  · rcases hbin j with he | he <;> rw [he]
    · exact hn
    · exact hc.bin j hj

/-- Chunk `a` comes to the front of bin `h`. -/
theorem ChunksIn.push (hc : ChunksIn n s P H) (hh : h ≤ n) (ha : a ∈ P)
    (hnext : ∀ y, t.nextChunk y = if y = a then s.largeBin h else s.nextChunk y)
    (hprev : ∀ y, t.prevChunk y =
      if y = a then none else if s.largeBin h = some y then some a else s.prevChunk y)
    (hbin : ∀ j, t.largeBin j = if j = h then some a else s.largeBin j)
    (hsize : ∀ y, y ≠ a → (t.node y).numPages = (s.node y).numPages)
    (hpages : ∀ k < (t.node a).numPages, a + k * pgSize ∈ P)
    (htype : ∀ y, y ≠ a → t.type y = s.type y) (ht : t.type a ≠ 0) :
    ChunksIn n t P (insert a H) := by
  have hsub : H ⊆ insert a H := Finset.subset_insert a H
  have hself : a ∈ insert a H := Finset.mem_insert_self a H
  refine ⟨Finset.insert_subset ha hc.page, fun y hy => ?_, fun y hy k hk => ?_, fun y hy => ?_,
    fun y hy => ?_, fun j hj => ?_⟩
  · by_cases he : y = a
    · rwa [he]
    · rw [htype y he]
      exact hc.type y ((Finset.mem_insert.mp hy).resolve_left he)
  · by_cases he : y = a
    · subst he
      exact hpages k hk
    · rw [hsize y he] at hk
      exact hc.pages y ((Finset.mem_insert.mp hy).resolve_left he) k hk
  · rw [hnext]
    split
    · exact (hc.bin h hh).mono hsub
    · next he => exact (hc.next y ((Finset.mem_insert.mp hy).resolve_left he)).mono hsub
  · rw [hprev]
    split
    · exact into_none
    · next he =>
      split
      · exact into_some.mpr hself
      · exact (hc.prev y ((Finset.mem_insert.mp hy).resolve_left he)).mono hsub
  · rw [hbin]
    split
    · exact into_some.mpr hself
    · exact (hc.bin j hj).mono hsub

theorem ChunksIn.pushLarge (hc : ChunksIn n s P H) (hh : h ≤ n) (ha : a ∈ H) :
    ChunksIn n (pushLarge s h a) P H := by
  obtain ⟨hnext, hprev, hbin, hs⟩ := pushLarge_spec (s := s) (h := h) (x := a) rfl
  have ht := hc.push hh (hc.page ha) hnext hprev hbin (fun y _ => hs.numPages y)
    (by rw [hs.numPages]; exact hc.pages a ha) (fun y _ => by rw [hs.type])
    (by rw [hs.type]; exact hc.type a ha)
  rwa [Finset.insert_eq_of_mem ha] at ht

theorem ChunksIn.handOut (hc : ChunksIn n s P H) (hcpu : cpu < n) (ha : a ∈ P)
    (hpages : ∀ k < pages, a + k * pgSize ∈ P) :
    ChunksIn n (handOutLarge s cpu pages a) P (insert a H) := by
  obtain ⟨hnext, hprev, hbin, hs⟩ := pushLarge_spec (s := s) (h := cpu + 1) (x := a) rfl
  refine hc.push (h := cpu + 1) hcpu ha (fun y => ?_) (fun y => ?_) hbin (fun y hy => ?_) ?_
    (fun y hy => ?_) ?_
  · rw [← hnext y]
    by_cases hy : y = a <;> simp [State.nextChunk, handOutLarge, hy]
  · rw [← hprev y]
    by_cases hy : y = a <;> simp [State.prevChunk, handOutLarge, hy]
  · simp [handOutLarge, hy, hs.numPages]
  · simpa [handOutLarge] using hpages
  · simp [handOutLarge, hy, hs.type]
  · simp [handOutLarge]

/-! Taking the first pages of a free chunk. -/

theorem ChunksIn.carve (pages : Nat) (hc : ChunksIn n s P H) (ha : a ∈ H) :
    ∃ H', H ⊆ H' ∧ ChunksIn n (carve s a pages) P H' ∧
      ∀ y, y ∉ P → (carve s a pages).type y = s.type y := by
  unfold Alloc.carve
  split
  swap
  · refine ⟨H, Finset.Subset.refl H, hc.relink (hc.next a ha) (hc.prev a ha), fun y _ => ?_⟩
    rw [(relink_writes _ _ rfl).2.2.2.type]
  next hlt =>
  generalize hbdef : a + pages * pgSize = b
  have hb : b ∈ P := hbdef ▸ hc.pages a ha pages hlt
  have hsub : H ⊆ insert b H := Finset.subset_insert b H
  have hself : Into (insert b H) (some b) := into_some.mpr (Finset.mem_insert_self b H)
  refine ⟨insert b H, hsub, ChunksIn.relink ?_ hself hself, fun y hy => ?_⟩
  swap
  · have hne : y ≠ b := by
      rintro rfl
      exact hy hb
    rw [(relink_writes _ _ rfl).2.2.2.type]
    simp [hne]
  refine ⟨Finset.insert_subset hb hc.page, fun y hy => ?_, fun y hy k hk => ?_, fun y hy => ?_,
    fun y hy => ?_, fun j hj => (hc.bin j hj).mono hsub⟩
  · by_cases he : y = b
    · simp [he]
    · simpa [he] using hc.type y ((Finset.mem_insert.mp hy).resolve_left he)
  · by_cases he : y = b
    · subst he
      have hk' : pages + k < (s.node a).numPages := by
        simp at hk
        omega
      have := hc.pages a ha _ hk'
      rwa [Nat.add_mul, ← Nat.add_assoc, hbdef] at this
    · simp [he] at hk
      exact hc.pages y ((Finset.mem_insert.mp hy).resolve_left he) k hk
  · by_cases he : y = b
    · simpa [State.nextChunk, he] using (hc.next a ha).mono hsub
    · simpa [State.nextChunk, he] using
        (hc.next y ((Finset.mem_insert.mp hy).resolve_left he)).mono hsub
  · by_cases he : y = b
    · simpa [State.prevChunk, he] using (hc.prev a ha).mono hsub
    · simpa [State.prevChunk, he] using
        (hc.prev y ((Finset.mem_insert.mp hy).resolve_left he)).mono hsub

/-- What the search finds is a header, of enough pages. -/
theorem ChunksIn.findLarge (hc : ChunksIn n s P H) {x : Nat × Unit}
    (hf : findLarge s pages = .ok (some x)) : x.1 ∈ H ∧ pages ≤ (s.node x.1).numPages := by
  obtain ⟨a, _⟩ := x
  obtain ⟨ha, v, hv, hfit⟩ := search_mem (P := (· ∈ H)) (hc.bin 0 (Nat.zero_le n))
    (fun x v y hx hv hy => by
      cases hv
      exact hc.next x hx y hy) hf
  cases hv
  refine ⟨ha, ?_⟩
  by_contra hno
  simp [hno] at hfit

/-- A chunk taken from the free list, or new pages. -/
theorem ChunksIn.takeLarge (hc : ChunksIn n s P H) (ht : takeLarge s pages = .ok (t, some a)) :
    (∃ H', H ⊆ H' ∧ ChunksIn n t P H' ∧ a ∈ H' ∧ (∀ k < pages, a + k * pgSize ∈ P) ∧
      t.dsegHi = s.dsegHi ∧ ∀ y, y ∉ P → t.type y = s.type y) ∨
    (0 < pages ∧ ChunksIn n t P H ∧ a = s.dsegHi + 1 ∧ t.dsegHi = s.dsegHi + pages * pgSize ∧
      t.type = s.type) := by
  obtain ⟨s1, hlock, ht⟩ := ok_of_bind ht
  have hsame := lockHeap_large hlock
  have hc1 := hsame.chunksIn hc
  obtain ⟨hit, hfind, ht⟩ := ok_of_bind ht
  cases hit with
  | some x =>
    cases ht
    obtain ⟨ha, hle⟩ := hc1.findLarge hfind
    obtain ⟨H', hsub, hc2, htype⟩ := hc1.carve pages ha
    refine .inl ⟨H', hsub, unlockHeap_large.chunksIn hc2, hsub ha, fun k hk => ?_, ?_, fun y hy => ?_⟩
    · exact hc1.pages x.1 ha k (by omega)
    · rw [unlockHeap_large.dsegHi, carve_hi, hsame.dsegHi]
    · rw [unlockHeap_large.type, htype y hy, hsame.type]
  | none =>
    obtain ⟨s2, hlock', ht⟩ := ok_of_bind ht
    obtain ⟨⟨s3, q⟩, hsb, ht⟩ := ok_of_bind ht
    cases ht
    have hsame2 := (hsame.trans unlockHeap_large).trans (lockSbrk_large hlock')
    have hpos : 0 < pages := by
      rcases Nat.eq_zero_or_pos pages with rfl | h
      · simp [memSbrk] at hsb
      · exact h
    obtain ⟨rfl, rfl⟩ := memSbrk_some hsb
    refine .inr ⟨hpos, (hsame2.chunksIn hc).congr rfl rfl fun _ _ => rfl, ?_, ?_, hsame2.type⟩
    · rw [hsame2.dsegHi]
    · exact congrArg (· + pages * pgSize) hsame2.dsegHi

/-! Superblocks are not touched. -/

theorem onNode_shelves {f : Node → Node} : SameShelves s (s.onNode p f) := by
  cases p <;> exact .of_heaps rfl rfl rfl

theorem setNextChunk_shelves {v : Option Nat} : SameShelves s (s.setNextChunk p h v) := by
  cases p with
  | none => exact setHeap_shelves (f := fun hp => { hp with binLarge := v }) fun _ => ⟨rfl, rfl, rfl⟩
  | some a => exact .of_heaps rfl rfl rfl

theorem relink_shelves : SameShelves s (relink s h x newNext newPrev) :=
  setNextChunk_shelves.trans onNode_shelves

theorem carve_shelves : SameShelves s (carve s a pages) := by
  unfold carve
  split
  · refine SameShelves.trans ?_ relink_shelves
    exact .of_heaps rfl rfl rfl
  · exact relink_shelves

theorem pushLarge_shelves : SameShelves s (pushLarge s h a) := by
  unfold pushLarge
  refine SameShelves.trans ?_ (setHeap_shelves fun _ => ⟨rfl, rfl, rfl⟩)
  exact onNode_shelves.trans (.of_heaps rfl rfl rfl)

theorem takeLarge_shelves (ht : takeLarge s pages = .ok (t, r)) : SameShelves s t := by
  obtain ⟨s1, hlock, ht⟩ := ok_of_bind ht
  have h1 := lockHeap_shelves hlock
  obtain ⟨hit, -, ht⟩ := ok_of_bind ht
  cases hit with
  | some x =>
    cases ht
    exact h1.trans (carve_shelves.trans unlockHeap_shelves)
  | none =>
    obtain ⟨s2, hlock', ht⟩ := ok_of_bind ht
    obtain ⟨⟨s3, q⟩, hsb, ht⟩ := ok_of_bind ht
    cases ht
    have h2 : SameShelves (unlockHeap s1 0) s3 := by
      unfold lockSbrk at hlock'
      split at hlock' <;> cases hlock'
      simp only [memSbrk] at hsb
      split at hsb
      · cases hsb
      · split at hsb <;> cases hsb <;> exact .of_heaps rfl rfl rfl
    exact (h1.trans unlockHeap_shelves).trans (h2.trans (.of_heaps rfl rfl rfl))

theorem freeLarge_shelves (hf : freeLarge s a = .ok t) : SameShelves s t := by
  obtain ⟨s1, hlock, hf⟩ := ok_of_bind hf
  obtain ⟨s2, hlock', hf⟩ := ok_of_bind hf
  cases hf
  refine SameShelves.trans ?_ (pushLarge_shelves.trans unlockHeap_shelves)
  refine SameShelves.trans ?_ (lockHeap_shelves hlock')
  exact (lockHeap_shelves hlock).trans (relink_shelves.trans unlockHeap_shelves)

end Csc469.Alloc
