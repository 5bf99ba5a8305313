import Csc469.Alloc.Interleaving

/-! What one small `mm_free` does to superblocks, heaps and locks. -/
namespace Csc469.Alloc

open Execution Linked Bitmap

variable {n h id old new page offset hid : Nat} {s t u : State} {S : Finset Nat} {L : Bin → List Nat}
  {a p sb : Nat} {o d : Bin} {live : List Nat}

/-- The blocks of superblock `a`: their size, which are taken, and how many. -/
def State.content (s : State) (a : Nat) : Nat × (Nat → BitVec 8) × Int :=
  ((s.superblock a).blockSize, (s.superblock a).blockMap, (s.superblock a).usedBlocks)

theorem SameContent.content (hs : SameContent s t) (a : Nat) : t.content a = s.content a := by
  obtain ⟨h1, h2, h3, -⟩ := core_eq (hs.core a)
  simp only [State.content, h1, h2, h3]

@[simp] theorem setHeap_content {f : Heap → Heap} : (s.setHeap h f).content a = s.content a := rfl

theorem transferBins_content : (transferBins s sb o d).content a = s.content a := by
  have hc := (relinked_same s sb o d).content a
  unfold transferBins
  split
  · rw [← hc]
    by_cases ha : a = sb <;> simp [State.content, ha]
  · exact hc

theorem setHeap_lock {k : Nat} {f : Heap → Heap} (hf : ∀ x, (f x).lock = x.lock) :
    ((s.setHeap h f).heapTable k).lock = (s.heapTable k).lock := by
  by_cases hk : k = h <;> simp [hk, hf]

theorem transferBins_lock : ((transferBins s sb o d).heapTable h).lock = (s.heapTable h).lock := by
  have hh := (heap_core_eq ((relinked_same s sb o d).heap h)).1
  unfold transferBins
  split
  · simp only
    rw [setHeap_lock (by intro; rfl), setHeap_lock (by intro; rfl)]
    exact hh
  · exact hh

theorem rebin_content : (rebin s sb h id old new).content a = s.content a := by
  unfold rebin
  split
  · exact transferBins_content
  · rfl

theorem rebin_lock {k : Nat} :
    ((rebin s sb h id old new).heapTable k).lock = (s.heapTable k).lock := by
  unfold rebin
  split
  · exact transferBins_lock
  · rfl

theorem releaseBlock_content : (releaseBlock s page offset).content a =
    if a = page then ((s.superblock page).blockSize,
      subBit (s.superblock page).blockMap (offset / (s.superblock page).blockSize),
      (s.superblock page).usedBlocks - 1)
    else s.content a := by
  rw [releaseBlock, rebin_content, setHeap_content]
  by_cases ha : a = page <;> simp [State.content, ha]

theorem releaseBlock_lock {k : Nat} :
    ((releaseBlock s page offset).heapTable k).lock = (s.heapTable k).lock := by
  rw [releaseBlock, rebin_lock, setHeap_lock (by intro; rfl)]
  rfl

/-- The free of a block of `page` moves superblock `a` to the global heap. -/
def Moves (s : State) (page a : Nat) : Prop := HandsBack s page ∧ handedBack s page = some a

theorem Moves.unique {b : Nat} (ha : Moves s page a) (hb : Moves s page b) : a = b :=
  Option.some.inj (ha.2.symm.trans hb.2)

/-- The counters of the heap of the block, with superblock `a` moved, or none. -/
structure Counted (s t : State) (p : Nat) (a : Option Nat) : Prop where
  used : (t.heapTable (s.superblock (pageOf p)).heapId).used =
    (s.heapTable (s.superblock (pageOf p)).heapId).used - (s.superblock (pageOf p)).blockSize -
      (a.map fun a => usedBytes (t.superblock a)).getD 0
  allocated : (t.heapTable (s.superblock (pageOf p)).heapId).allocated =
    (s.heapTable (s.superblock (pageOf p)).heapId).allocated -
      (a.map fun _ => (sbSize : Int)).getD 0

/-- What a small `mm_free` of `p` does: it clears the bit of the block, and may move one
superblock of the same heap, less than a quarter full, to the global heap. -/
structure Freed (S : Finset Nat) (s t : State) (p : Nat) : Prop where
  other : ∀ a, a ≠ pageOf p → t.content a = s.content a
  page : t.content (pageOf p) = ((s.superblock (pageOf p)).blockSize,
    subBit (s.superblock (pageOf p)).blockMap (blockId s p),
    (s.superblock (pageOf p)).usedBlocks - 1)
  lock : ∀ k, (t.heapTable k).lock = (s.heapTable k).lock
  kept : ∀ a, ¬Moves s (pageOf p) a → (t.superblock a).heapId = (s.superblock a).heapId
  moved : ∀ a, Moves s (pageOf p) a → a ∈ S ∧ (t.superblock a).heapId = 0 ∧
    (s.superblock a).heapId = (s.superblock (pageOf p)).heapId ∧
    4 * (t.superblock a).usedBlocks < blocks (t.superblock a).blockSize
  quiet : ¬HandsBack s (pageOf p) → Counted s t p none
  trimmed : HandsBack s (pageOf p) → ∃ a, Moves s (pageOf p) a ∧ Counted s t p (some a)

/-- The state in which `mm_free` of `p` looks whether its heap has become too empty. -/
def released (s : State) (p : Nat) : State :=
  releaseBlock (s.setHeap (s.superblock (pageOf p)).heapId fun hp => { hp with lock := true })
    (pageOf p) (p % pgSize)

theorem Shelved.released (hi : Shelved n s S live L) (hp : p ∈ live) :
    ∃ L', Shelved n (released s p) S (live.erase p) L' :=
  (releaseBlock_spec (hi.congr setLock_same) hp).1

theorem released_content : (released s p).content a = if a = pageOf p then
    ((s.superblock (pageOf p)).blockSize,
      subBit (s.superblock (pageOf p)).blockMap (blockId s p),
      (s.superblock (pageOf p)).usedBlocks - 1)
    else s.content a := by
  rw [released, releaseBlock_content, setHeap_content]
  rfl

theorem released_heapId : ((released s p).superblock a).heapId = (s.superblock a).heapId :=
  releaseBlock_heapId

theorem released_counters :
    ((released s p).heapTable (s.superblock (pageOf p)).heapId).used =
      (s.heapTable (s.superblock (pageOf p)).heapId).used - (s.superblock (pageOf p)).blockSize ∧
    ((released s p).heapTable (s.superblock (pageOf p)).heapId).allocated =
      (s.heapTable (s.superblock (pageOf p)).heapId).allocated := by
  have hsame : SameBooks s (s.setHeap (s.superblock (pageOf p)).heapId fun hp =>
    { hp with lock := true }) := setLock_same
  rw [released]
  generalize s.setHeap _ _ = t at hsame ⊢
  have hheap : (t.superblock (pageOf p)).heapId = (s.superblock (pageOf p)).heapId := by
    rw [hsame.superblock]
  obtain ⟨hused, hall⟩ := releaseBlock_counters (p % pgSize) hheap
  rw [hused, hall, hsame.used, hsame.allocated, hsame.superblock]
  exact ⟨rfl, rfl⟩

theorem released_lock (k : Nat) : ((released s p).heapTable k).lock =
    if k = (s.superblock (pageOf p)).heapId then true else (s.heapTable k).lock := by
  rw [released, releaseBlock_lock]
  by_cases hk : k = (s.superblock (pageOf p)).heapId <;> simp [hk]

/-- The lock of its heap being free, `mm_free` looks at that heap in the state `released`. -/
theorem freeSmall_released (hlock : (s.heapTable (s.superblock (pageOf p)).heapId).lock = false) :
    freeSmall s (pageOf p) (p % pgSize) =
      trimHeap (released s p) (s.superblock (pageOf p)).heapId := by
  simp only [freeSmall, lockHeap, hlock]
  rfl

theorem handsBack_iff (hlock : (s.heapTable (s.superblock (pageOf p)).heapId).lock = false) :
    HandsBack s (pageOf p) ↔ TooEmpty (released s p) (s.superblock (pageOf p)).heapId := by
  obtain ⟨hused, hall⟩ := released_counters (s := s) (p := p)
  simp only [HandsBack, TooEmpty, hused, hall, hlock, true_and]

/-- A heap that is less than a quarter full has a superblock that is, in a bin where `mm_free`
looks. -/
theorem Shelved.candidate (hi : Shelved n s S live L) (hh : h ≤ n) (hlow : TooEmpty s h) :
    ∃ sb i, handBack s h = some (sb, ⟨h, i, 1⟩) ∧ s.bin ⟨h, i, 1⟩ = some sb ∧ sb ∈ S ∧
      (s.superblock sb).heapId = h ∧
      4 * (s.superblock sb).usedBlocks < blocks (s.superblock sb).blockSize := by
  obtain ⟨sb, i, j, hb, hsb, hheap⟩ := hi.handBack_isSome hh hlow.2.1
  obtain ⟨i', j', he, hbin⟩ := handBack_some hb
  cases he
  obtain ⟨-, hof⟩ := hi.of_bin (o := ⟨h, i, j⟩) hh hbin
  obtain ⟨hu0, hun⟩ := hi.used_bounds hsb
  have hcls := (hi.blocksOk sb hsb).cls
  simp only [binOf, Bin.mk.injEq] at hof
  have hj : j = 1 := by
    obtain ⟨k, hk, hfind⟩ := List.exists_of_findSome?_eq_some hb
    obtain ⟨i', -, hfind⟩ := List.exists_of_findSome?_eq_some hfind
    obtain ⟨x, -, hx⟩ := Option.map_eq_some_iff.mp hfind
    cases hx
    have := (fullness_bounds hcls hu0 hun).1
    simp only [List.mem_cons, List.not_mem_nil, or_false] at hk
    omega
  subst hj
  refine ⟨sb, i, hb, hbin, hsb, hheap, ?_⟩
  have hfull := hof.2.2
  rw [fullness_eq hu0] at hfull
  have hbd := blocks_bounds hcls
  have hlt := (Nat.div_eq_zero_iff_lt (by omega)).mp (Nat.succ.inj hfull)
  omega

/-- What `mm_free` hands back is what `handedBack` says before the call. -/
theorem Shelved.handBack_released (hi : Shelved n s S live L) (hp : p ∈ live) :
    (handBack (Alloc.released s p) (s.superblock (pageOf p)).heapId).map Prod.fst =
      handedBack s (pageOf p) := by
  obtain ⟨L', hr⟩ := hi.released hp
  have hle : (s.superblock (pageOf p)).heapId ≤ n := hi.placed.le _ (hi.live.page p hp)
  refine handBack_front hr hle fun i => ?_
  have hsame : SameBooks s (s.setHeap (s.superblock (pageOf p)).heapId fun hp =>
    { hp with lock := true }) := setLock_same
  rw [Alloc.released]
  generalize s.setHeap _ _ = t at hsame ⊢
  have hheap : (t.superblock (pageOf p)).heapId = (s.superblock (pageOf p)).heapId := by
    rw [hsame.superblock]
  rw [← hheap, releaseBlock_front (hi.congr hsame) hp]
  simp only [frontAfter, hsame.superblock, hsame.bin]

theorem trimHeap_full (hno : ¬TooEmpty s h) : trimHeap s h = .ok (unlockHeap s h) := by
  simp only [TooEmpty, not_and] at hno
  simp only [trimHeap]
  by_cases h0 : h = 0
  · subst h0
    rfl
  · rw [if_neg h0, if_neg fun hlow => hno h0 hlow.1 hlow.2]

theorem trimHeap_empty {sb i : Nat} (hlow : TooEmpty s h)
    (hb : handBack s h = some (sb, ⟨h, i, 1⟩)) :
    trimHeap s h = .ok (unlockHeap (transferBins s sb ⟨h, i, 1⟩ ⟨0, i, 1⟩) h) := by
  simp only [trimHeap]
  rw [if_neg hlow.1, if_pos hlow.2, hb]

theorem unlockHeap_lock {k : Nat} : ((unlockHeap s h).heapTable k).lock =
    if k = h then false else (s.heapTable k).lock := by
  by_cases hk : k = h <;> simp [unlockHeap, hk]

/-- A small `mm_free` that gets the lock and finds its heap full enough. -/
theorem freed_full (hlock : (s.heapTable (s.superblock (pageOf p)).heapId).lock = false)
    (hno : ¬HandsBack s (pageOf p)) :
    Freed S s (unlockHeap (released s p) (s.superblock (pageOf p)).heapId) p := by
  obtain ⟨hused, hall⟩ := released_counters (s := s) (p := p)
  refine ⟨fun a ha => ?_, ?_, fun k => ?_, fun a _ => released_heapId,
    fun a hm => (hno hm.1).elim, fun _ => ⟨?_, ?_⟩, fun hh => (hno hh).elim⟩
  · rw [unlockHeap, setHeap_content, released_content, if_neg ha]
  · rw [unlockHeap, setHeap_content, released_content, if_pos rfl]
  · rw [unlockHeap_lock, released_lock]
    split
    · next he => rw [he, hlock]
    · rfl
  · simp [unlockHeap, hused]
  · simp [unlockHeap, hall]

/-- A small `mm_free` that gets the lock and finds its heap too empty. -/
theorem freed_empty {sb i : Nat}
    (hlock : (s.heapTable (s.superblock (pageOf p)).heapId).lock = false)
    (h0 : (s.superblock (pageOf p)).heapId ≠ 0) (hm : Moves s (pageOf p) sb) (hsb : sb ∈ S)
    (hheap : ((released s p).superblock sb).heapId = (s.superblock (pageOf p)).heapId)
    (hquarter : 4 * ((released s p).superblock sb).usedBlocks <
      blocks ((released s p).superblock sb).blockSize) :
    Freed S s (unlockHeap (transferBins (released s p) sb ⟨(s.superblock (pageOf p)).heapId, i, 1⟩
      ⟨0, i, 1⟩) (s.superblock (pageOf p)).heapId) p := by
  obtain ⟨hused, hall⟩ := released_counters (s := s) (p := p)
  have htr := (transferBins_spec (d := ⟨0, i, 1⟩)
    (o := ⟨(s.superblock (pageOf p)).heapId, i, 1⟩) hheap).1
  obtain ⟨hsize, -, hcount⟩ := htr.content sb
  generalize htrans : transferBins _ _ _ _ = v at htr hsize hcount ⊢
  have hcontent : ∀ a, v.content a = (released s p).content a := by
    intro a
    rw [← htrans, transferBins_content]
  refine ⟨fun a ha => ?_, ?_, fun k => ?_, fun a hno => ?_, fun a ha => ?_,
    fun hno => (hno hm.1).elim, fun _ => ⟨sb, hm, ?_, ?_⟩⟩
  · rw [unlockHeap, setHeap_content, hcontent, released_content, if_neg ha]
  · rw [unlockHeap, setHeap_content, hcontent, released_content, if_pos rfl]
  · rw [unlockHeap_lock, htr.lock, released_lock]
    split
    · next he => rw [he, hlock]
    · rfl
  · have hne : a ≠ sb := by
      rintro rfl
      exact hno hm
    rw [unlockHeap, State.setHeap_superblock, htr.heapId, if_neg hne, released_heapId]
  · obtain rfl := hm.unique ha
    refine ⟨hsb, ?_, ?_, ?_⟩
    · rw [unlockHeap, State.setHeap_superblock, htr.heapId, if_pos rfl]
    · rw [← hheap, released_heapId]
    · rw [unlockHeap, State.setHeap_superblock, hsize, hcount]
      exact hquarter
  · simp [unlockHeap, htr.used, hused, h0, usedBytes, hsize, hcount]
  · simp [unlockHeap, htr.allocated, hall, h0]

/-- A small `mm_free` that gets the lock returns. -/
theorem Shelved.freed (hi : Shelved n s S live L) (hp : p ∈ live)
    (hlock : (s.heapTable (s.superblock (pageOf p)).heapId).lock = false) :
    ∃ t, Alloc.freeSmall s (pageOf p) (p % pgSize) = .ok t ∧ Freed S s t p := by
  rw [freeSmall_released hlock]
  by_cases hlow : TooEmpty (Alloc.released s p) (s.superblock (pageOf p)).heapId
  · obtain ⟨L', hr⟩ := hi.released hp
    have hle : (s.superblock (pageOf p)).heapId ≤ n := hi.placed.le _ (hi.live.page p hp)
    obtain ⟨sb, i, hb, -, hsb, hheap, hquarter⟩ := hr.candidate hle hlow
    have hm : Moves s (pageOf p) sb := by
      refine ⟨(handsBack_iff hlock).mpr hlow, ?_⟩
      rw [← hi.handBack_released hp, hb]
      rfl
    exact ⟨_, trimHeap_empty hlow hb, freed_empty hlock hlow.1 hm hsb hheap hquarter⟩
  · exact ⟨_, trimHeap_full hlow, freed_full hlock (mt (handsBack_iff hlock).mp hlow)⟩

end Csc469.Alloc
