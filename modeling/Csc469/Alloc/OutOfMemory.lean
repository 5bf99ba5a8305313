import Csc469.Alloc.LockDiscipline

/-! What `mm_malloc` does when `mem_sbrk` returns a null pointer. -/
namespace Csc469.Alloc

open Execution Traced

variable {cpu sz sb a h id old pages : Nat} {s t : State} {o d : Bin} {useFirst : Bool}
  {v r : Option Nat}

namespace Recorded

/-! Only the two allocation paths call `mem_sbrk`. -/

@[simp] theorem sbrk_lock : Access.sbrk v ∉ (lock h).trace s := by
  simp [lock, mem_trace_act]

@[simp] theorem sbrk_unlock : Access.sbrk v ∉ (unlock h).trace s := by
  simp [unlock, mem_trace_act]

@[simp] theorem sbrk_setHeap {f : Heap → Heap} : Access.sbrk v ∉ (setHeap h f).trace s := by
  simp [setHeap, mem_trace_act]

@[simp] theorem sbrk_setBin {p : Option Nat} : Access.sbrk v ∉ (setBin o p).trace s := by
  simp [setBin, mem_trace_act]

@[simp] theorem sbrk_setSb {f : Superblock → Superblock} : Access.sbrk v ∉ (setSb a f).trace s := by
  simp [setSb, mem_trace_act]

@[simp] theorem sbrk_onSb {p : Option Nat} {f : Superblock → Superblock} :
    Access.sbrk v ∉ (onSb p f).trace s := by
  cases p <;> simp [onSb]

@[simp] theorem sbrk_setNextOf {p w : Option Nat} : Access.sbrk v ∉ (setNextOf p o w).trace s := by
  cases p <;> simp [setNextOf]

@[simp] theorem sbrk_read : Access.sbrk v ∉ read.trace s := by simp [read]

@[simp] theorem sbrk_newSuperblock {before : Option Nat} {k : Nat} :
    Access.sbrk v ∉ (newSuperblock before a k).trace s := by
  unfold newSuperblock
  by_cases hk : k < sizeofSuperblock * 2 <;> simp [hk, mem_trace_bind, mem_trace_act]

@[simp] theorem sbrk_transferBins : Access.sbrk v ∉ (transferBins sb o d).trace s := by
  by_cases hd : d.heap = o.heap <;> simp [transferBins, hd, mem_trace_bind]

@[simp] theorem sbrk_takeBlock : Access.sbrk v ∉ (takeBlock cpu sz sb useFirst old).trace s := by
  have hrebin : ∀ {t new}, Access.sbrk v ∉ (rebin sb (cpu + 1) (sizeId sz) old new).trace t := by
    intro t new
    unfold rebin
    split <;> simp
  simp only [takeBlock, mem_trace_bind, sbrk_read, false_or, not_exists, not_and]
  rintro t u -
  generalize (if useFirst = true then some (sb + sizeofSuperblock, 0) else
    (findBlock (u.superblock sb).blockMap (sizeClass sz)).map fun id =>
      (sb + id * sizeClass sz, id)) = found
  cases found with
  | none => simp
  | some x => simp [mem_trace_bind, hrebin]

theorem sbrk_read_bind {α : Type} {f : State → Recorded α} :
    Access.sbrk v ∈ (read >>= f).trace s ↔ Access.sbrk v ∈ (f s).trace s := by
  simp [mem_trace_bind]

theorem sbrk_lock_bind {α : Type} {f : Unit → Recorded α} :
    Access.sbrk v ∈ (lock h >>= f).trace s ↔
      ∃ t, lockHeap s h = .ok t ∧ Access.sbrk v ∈ (f ()).trace t := by
  rw [mem_trace_bind, result_lock]
  cases lockHeap s h with
  | error e => simp [Except.map]
  | ok t =>
    simp only [sbrk_lock, Except.map, Except.ok.injEq, Prod.mk.injEq, false_or]
    constructor
    · rintro ⟨t', x, ⟨rfl, -⟩, h⟩
      exact ⟨_, rfl, h⟩
    · rintro ⟨t', rfl, h⟩
      exact ⟨_, (), ⟨rfl, trivial⟩, h⟩

theorem result_lock_bind {α : Type} {f : Unit → Recorded α} (hl : lockHeap s h = .ok t) :
    (lock h >>= f).result s = (f ()).result t := by
  simp [hl, Except.map]

/-- When `mem_sbrk` has no space the segment stays as it was. -/
theorem sbrk_none {increment : Nat} (h : Access.sbrk none ∈ (sbrk increment).trace s) :
    (sbrk increment).result s = .ok (s, none) := by
  simp only [sbrk, mem_trace_bind, mem_trace_act, not_mem_trace_silent, not_mem_trace_pure,
    List.not_mem_nil, and_false, exists_const, exists_false, false_or, or_false,
    List.mem_singleton, Access.sbrk.injEq] at h
  obtain ⟨t, x, hl, u, r, hm, rfl⟩ := h
  rw [result_act] at hl
  rw [result_sbrk]
  by_cases hlock : s.sbrkLock = true
  · simp [lockSbrk, hlock, Except.map] at hl
  · simp only [lockSbrk, if_neg hlock, Except.map, Except.ok.injEq, Prod.mk.injEq] at hl
    obtain ⟨rfl, -⟩ := hl
    simp only [lockSbrk, if_neg hlock, ok_bind, hm]
    simp only [memSbrk] at hm
    split at hm
    · cases hm
    · split at hm <;> cases hm
      rw [Bool.not_eq_true] at hlock
      simp [unlockSbrk, ← hlock]

theorem takeGlobal_none (h : Access.sbrk none ∈ (takeGlobal sz).trace s) :
    Alloc.takeGlobal s sz = .ok (s, none) := by
  rw [← result_takeGlobal]
  simp only [takeGlobal, sbrk_read_bind, result_bind, result_read, ok_bind] at h ⊢
  cases hg : (List.range 9).findSome? fun i => (s.bin ⟨0, i, 0⟩).map (i, ·) with
  | some x =>
    rw [hg] at h
    simp [mem_trace_bind] at h
  | none =>
    simp only [hg] at h ⊢
    cases hb : s.bin ⟨0, sizeId sz, 1⟩ with
    | some sb =>
      rw [hb] at h
      simp at h
    | none =>
      simp only [hb, mem_trace_bind, result_bind] at h ⊢
      rcases h with h | ⟨t, tmp, ht, h⟩
      · rw [sbrk_none h]
        rfl
      · cases tmp <;> simp [mem_trace_bind] at h

/-- A small request returns a null pointer with both heaps locked. -/
theorem mallocSmall_none (h : Access.sbrk none ∈ (mallocSmall cpu sz).trace s) :
    ∃ t u, lockHeap s (cpu + 1) = .ok t ∧ lockHeap t 0 = .ok u ∧
      Alloc.mallocSmall s cpu sz = .ok (u, none) := by
  rw [mallocSmall, sbrk_lock_bind] at h
  obtain ⟨t, hl, h⟩ := h
  rw [← result_mallocSmall, mallocSmall, result_lock_bind hl]
  rw [mem_trace_bind] at h
  obtain ⟨t', found, hscan, h⟩ := h.resolve_left not_mem_trace_ask
  rw [result_ask] at hscan
  cases hfound : scan t (cpu + 1) sz with
  | error e => simp [hfound, Except.map] at hscan
  | ok x =>
    simp only [hfound, Except.map, Except.ok.injEq, Prod.mk.injEq] at hscan
    obtain ⟨rfl, rfl⟩ := hscan
    cases x with
    | some y => simp at h
    | none =>
      rw [sbrk_lock_bind] at h
      obtain ⟨u, hl', h⟩ := h
      refine ⟨t, u, hl, hl', ?_⟩
      rw [mem_trace_bind] at h
      rcases h with h | ⟨w, target, -, h⟩
      · simp [hfound, Except.map, hl', takeGlobal_none h]
      · cases target <;> simp [mem_trace_bind] at h

@[simp] theorem sbrk_setNextChunk {p w : Option Nat} :
    Access.sbrk v ∉ (setNextChunk p h w).trace s := by
  cases p <;> simp [setNextChunk]

@[simp] theorem sbrk_relink {newNext newPrev : Option Nat} :
    Access.sbrk v ∉ (relink h a newNext newPrev).trace s := by
  simp [relink, mem_trace_bind]

@[simp] theorem sbrk_carve : Access.sbrk v ∉ (carve a pages).trace s := by
  by_cases hp : pages < (s.node a).numPages <;> simp [carve, hp, mem_trace_bind]

@[simp] theorem sbrk_handOutLarge : Access.sbrk v ∉ (handOutLarge cpu pages a).trace s := by
  simp [handOutLarge, pushLarge, mem_trace_bind]

theorem takeLarge_none (h : Access.sbrk none ∈ (takeLarge pages).trace s) :
    ∃ t, Alloc.takeLarge s pages = .ok (t, none) := by
  rw [takeLarge, sbrk_lock_bind] at h
  obtain ⟨t, hl, h⟩ := h
  rw [← result_takeLarge, takeLarge, result_lock_bind hl]
  rw [mem_trace_bind] at h
  obtain ⟨t', found, hfind, h⟩ := h.resolve_left not_mem_trace_ask
  rw [result_ask] at hfind
  cases hfound : findLarge t pages with
  | error e => simp [hfound, Except.map] at hfind
  | ok x =>
    simp only [hfound, Except.map, Except.ok.injEq, Prod.mk.injEq] at hfind
    obtain ⟨rfl, rfl⟩ := hfind
    cases x with
    | some y => simp [mem_trace_bind] at h
    | none =>
      rw [mem_trace_bind] at h
      obtain ⟨u, x, hu, h⟩ := h.resolve_left sbrk_unlock
      rw [result_unlock] at hu
      cases hu
      refine ⟨unlockHeap t 0, ?_⟩
      rw [result_bind, result_ask, hfound]
      simp only [Except.map, ok_bind, result_bind, result_unlock]
      exact sbrk_none h

/-- A large request writes its header to the null pointer. -/
theorem mallocLarge_none (h : Access.sbrk none ∈ (mallocLarge cpu sz).trace s) :
    ∃ e, Alloc.mallocLarge s cpu sz = .error e := by
  simp only [mallocLarge] at h
  split at h
  · simp at h
  next hpages =>
  simp only [Alloc.mallocLarge, if_neg hpages]
  rw [mem_trace_bind] at h
  rcases h with h | ⟨t, target, -, h⟩
  · obtain ⟨t, ht⟩ := takeLarge_none h
    rw [ht, ok_bind]
    cases lockHeap t (cpu + 1) with
    | error e => exact ⟨e, rfl⟩
    | ok u => exact ⟨.fault, rfl⟩
  · rw [sbrk_lock_bind] at h
    obtain ⟨u, -, h⟩ := h
    cases target <;> simp [mem_trace_bind] at h

end Recorded

/-- `mm_malloc` returns a null pointer, and every list, counter and superblock is as it was,
as is every lock. -/
def ReturnsNull (s : State) (cpu sz : Nat) : Prop :=
  ∃ t, mmMalloc s cpu sz = .ok (t, none) ∧ t.heapTable = s.heapTable ∧
    t.superblock = s.superblock ∧ t.node = s.node ∧ t.sbrkLock = s.sbrkLock

theorem lockHeap_other {i : Nat} (hl : lockHeap s h = .ok t) (hi : (t.heapTable i).lock = false) :
    (s.heapTable i).lock = false := by
  unfold lockHeap at hl
  split at hl <;> cases hl
  by_cases he : i = h
  · simp [he] at hi
  · simpa [he] using hi

/-- A small request leaves its heap and the global heap locked. -/
theorem small_not_returnsNull (h : Access.sbrk none ∈ (Recorded.mallocSmall cpu sz).trace s)
    (hsz : sz ≤ sbSize / 2) : ¬ReturnsNull s cpu sz := by
  rintro ⟨t, hm, hheaps, -⟩
  obtain ⟨u, v, hu, hv, he⟩ := Recorded.mallocSmall_none h
  rw [mmMalloc_small hsz, he] at hm
  cases hm
  have hzero := lockHeap_other hu (lockHeap_ok hv).1
  rw [← hheaps, (lockHeap_ok hv).2] at hzero
  cases hzero

/-- A large request does not return. -/
theorem large_not_returnsNull (h : Access.sbrk none ∈ (Recorded.mallocLarge cpu sz).trace s)
    (hsz : sbSize / 2 < sz) : ¬ReturnsNull s cpu sz := by
  rintro ⟨t, hm, -⟩
  obtain ⟨e, he⟩ := Recorded.mallocLarge_none h
  rw [mmMalloc_large hsz, he] at hm
  cases hm

/-- No call at which `mem_sbrk` returns a null pointer ends as it should. -/
theorem noMemory_mishandled (h : Access.sbrk none ∈ accesses s (.malloc cpu sz)) :
    ¬ReturnsNull s cpu sz := by
  simp only [accesses, Recorded.mmMalloc] at h
  split at h
  · next hlarge => exact large_not_returnsNull h hlarge
  · next hsmall => exact small_not_returnsNull h (Nat.le_of_not_lt hsmall)

theorem noMemory_mishandled_oneCpu :
    Access.sbrk none ∈ accesses oneCpu.state (.malloc 0 268435456) ∧
      ¬ReturnsNull oneCpu.state 0 268435456 := by
  have h : Access.sbrk none ∈ accesses oneCpu.state (.malloc 0 268435456) := by decide +kernel
  exact ⟨h, noMemory_mishandled h⟩

/-- After a small request that `mem_sbrk` refused, no request of its processor returns any
more, and no large request at all. -/
theorem noMemory_blocks (hsz : sz ≤ sbSize / 2)
    (h : Access.sbrk none ∈ accesses s (.malloc cpu sz)) :
    ∃ t, mmMalloc s cpu sz = .ok (t, none) ∧
      ∀ cpu' sz', cpu' = cpu ∨ sbSize / 2 < sz' → ∃ e, mmMalloc t cpu' sz' = .error e := by
  simp only [accesses, Recorded.mmMalloc, if_neg (Nat.not_lt.mpr hsz)] at h
  obtain ⟨u, t, hu, ht, he⟩ := Recorded.mallocSmall_none h
  refine ⟨t, by rw [mmMalloc_small hsz, he], fun cpu' sz' hwhere => ?_⟩
  have hglobal : lockHeap t 0 = .error .blocked := if_pos (lockHeap_ok ht).2
  rcases Nat.lt_or_ge (sbSize / 2) sz' with hlarge | hsmall
  · rw [mmMalloc_large hlarge, mallocLarge]
    split
    · exact ⟨_, rfl⟩
    · exact ⟨.blocked, by rw [takeLarge, hglobal]; rfl⟩
  · obtain rfl := hwhere.resolve_right (Nat.not_lt.mpr hsmall)
    have hown : (t.heapTable (cpu' + 1)).lock = true := by
      unfold lockHeap at ht
      split at ht <;> cases ht
      simpa using (lockHeap_ok hu).2
    refine ⟨.blocked, ?_⟩
    rw [mmMalloc_small hsmall, mallocSmall, lockHeap, if_pos hown]
    rfl

/-- With the segment used up by one large chunk, the first small request keeps two locks; a
large request that the segment cannot hold is not answered at all. -/
theorem segment_used_up : Started 1 oneCpu ∧
    (∃ c, Reaches (Step 1) oneCpu c ∧ Access.sbrk none ∈ accesses c.state (.malloc 0 8) ∧
      ¬ReturnsNull c.state 0 8) ∧
    Access.sbrk none ∈ accesses oneCpu.state (.malloc 0 268435456) ∧
      ¬ReturnsNull oneCpu.state 0 268435456 := by
  have hlarge : Access.sbrk none ∈ accesses oneCpu.state (.malloc 0 268435456) := by
    decide +kernel
  obtain ⟨run, hrun, hlast⟩ := ok_of_map (c := calls 1 oneCpu [.malloc 0 268423136])
    (f := fun run => decide (Access.sbrk none ∈
      accesses (lastState oneCpu run).state (.malloc 0 8))) (b := true) (by decide +kernel)
  have hsmall := of_decide_eq_true hlast
  exact ⟨oneCpu_started, ⟨_, (calls_along hrun).reaches_last, hsmall,
    small_not_returnsNull hsmall (by decide)⟩, hlarge, large_not_returnsNull hlarge (by decide)⟩

end Csc469.Alloc
