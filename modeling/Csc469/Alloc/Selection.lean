import Csc469.Alloc.Balance
import Csc469.Alloc.OutOfMemory
import Csc469.Alloc.Segment

/-! When a small `mm_malloc` returns, and what it has asked `mem_sbrk` for. -/
namespace Csc469.Alloc

open Execution Linked Bitmap Traced

variable {n cpu sz h sb : Nat} {s t u : State} {S : Finset Nat} {L : Bin → List Nat} {o : Bin}
  {live : List Nat} {c d : Config} {v r : Option Nat}

/-! The search ends. -/

theorem card_superblocks (hw : Within s) : (superblocks n s).card ≤ maxPages s := by
  obtain ⟨-, hhi⟩ := hw
  have hcard : ((superblocks n s).image fun a => (a - s.dsegLo) / pgSize).card =
      (superblocks n s).card := by
    refine Finset.card_image_of_injOn fun a ha b hb he => ?_
    have ha := mem_superblocks.mp ha
    have hb := mem_superblocks.mp hb
    simp only [firstPage, pgSize] at ha hb he
    omega
  have hsub : (superblocks n s).image (fun a => (a - s.dsegLo) / pgSize) ⊆
      Finset.range (maxPages s) := by
    intro k hk
    obtain ⟨a, ha, rfl⟩ := Finset.mem_image.mp hk
    have ha := mem_superblocks.mp ha
    rw [Finset.mem_range, maxPages, Nat.lt_succ_iff]
    exact Nat.div_le_div_right (by omega)
  rw [← hcard]
  simpa using Finset.card_le_card hsub

theorem Shelved.length_le (hi : Shelved n s S live L) (hw : Within s) (hh : o.heap ≤ n) :
    (L o).length ≤ maxPages s := by
  have hsub : (L o).toFinset ⊆ superblocks n s := by
    intro a ha
    exact hi.page ((hi.mem_list hh).mp (List.mem_toFinset.mp ha)).1
  rw [← List.toFinset_card_of_nodup (hi.placed.family.dlist o hh).nodup]
  exact (Finset.card_le_card hsub).trans (card_superblocks hw)

theorem Shelved.scanBins_ok (hi : Shelved n s S live L) (hw : Within s) (hh : h ≤ n)
    (is : List Nat) : ∃ res, scanBins s h sz is = .ok res := by
  induction is with
  | nil => exact ⟨_, rfl⟩
  | cons i is ih =>
    have hd := (hi.placed.family.dlist ⟨h, sizeId sz, i⟩ hh).forth
    have hsearch : search (fun a => some (s.superblock a)) Superblock.next
        (tryBlock sz (sizeClass sz)) (maxPages s) (s.bin ⟨h, sizeId sz, i⟩) = .ok _ :=
      search_ok hd (fun _ _ => rfl) (hi.length_le (o := ⟨h, sizeId sz, i⟩) hw hh)
    rw [scanBins, hsearch, Recorded.ok_bind]
    cases firstHit (fun a => some (s.superblock a)) (tryBlock sz (sizeClass sz))
      (L ⟨h, sizeId sz, i⟩) with
    | some x => exact ⟨_, rfl⟩
    | none => exact ih

theorem Shelved.scan_ok (hi : Shelved n s S live L) (hw : Within s) (hh : h ≤ n) :
    scan s h sz = .ok (hit s L h sz) := by
  obtain ⟨res, hres⟩ : ∃ res, scan s h sz = .ok res := hi.scanBins_ok hw hh _
  rw [hres, ← scan_eq hi hh hres]

/-- A superblock of heap `h` has a block for the request. -/
def HasRoom (n : Nat) (s : State) (h sz : Nat) : Prop :=
  ∃ a ∈ superblocks n s, (s.superblock a).heapId = h ∧
    (s.superblock a).blockSize = sizeClass sz ∧
      (tryBlock sz (sizeClass sz) (s.superblock a)).isSome

theorem hit_isSome (hi : Shelved n s (superblocks n s) live L) (hh : h ≤ n) (hsz : sz ≤ 2048) :
    (hit s L h sz).isSome ↔ HasRoom n s h sz := by
  constructor
  · intro hsome
    obtain ⟨⟨a, useFirst, i⟩, hhit⟩ := Option.isSome_iff_exists.mp hsome
    obtain ⟨ha, hb, htry⟩ := hi.of_hit hh hhit
    have hcls := blockSize_of_bin hi.toBooks ha hsz hb
    simp only [binOf, Bin.mk.injEq] at hb
    exact ⟨a, ha, hb.1, hcls, by rw [htry]; rfl⟩
  · rintro ⟨a, ha, hah, has, htry⟩
    by_contra hno
    rw [Option.not_isSome_iff_eq_none] at hno
    rw [no_block_of_hit hi hh hsz hno ha hah has] at htry
    cases htry

/-! Locks. -/

/-- Heap `h` with its lock taken. -/
def locked (s : State) (h : Nat) : State := s.setHeap h fun hp => { hp with lock := true }

theorem locked_same : SameBooks s (locked s h) := setLock_same

theorem lockHeap_eq : lockHeap s h = if (s.heapTable h).lock then .error .blocked
    else .ok (locked s h) := rfl

theorem locked_lock {k : Nat} :
    ((locked s h).heapTable k).lock = if k = h then true else (s.heapTable k).lock := by
  by_cases hk : k = h <;> simp [locked, hk]

theorem Within.locked (hw : Within s) : Within (locked s h) := hw.extends (.of_seg rfl)

theorem Shelved.takeGlobal_ok (hi : Shelved n s S live L) :
    (∃ x, takeGlobal s sz = .ok x) ↔ (s.bin ⟨0, sizeId sz, 1⟩).isSome ∨ s.sbrkLock = false := by
  simp only [takeGlobal, hi.no_empty]
  cases hb : s.bin ⟨0, sizeId sz, 1⟩ with
  | some sb => simp
  | none =>
    cases hl : s.sbrkLock with
    | true => simp [lockSbrk, hl, bind, Except.bind]
    | false =>
      simp only [lockSbrk, hl, memSbrk]
      rw [if_neg (by decide), Recorded.ok_bind, if_neg (by decide)]
      split <;> simp [Recorded.ok_bind]

/-- The request is served from its own heap, or from the global heap or `mem_sbrk`, whatever
they answer; otherwise it waits for a lock that nobody will release. -/
def Opens (n : Nat) (s : State) (cpu sz : Nat) : Prop :=
  (s.heapTable (cpu + 1)).lock = false ∧ (HasRoom n s (cpu + 1) sz ∨
    (s.heapTable 0).lock = false ∧
      ((s.bin ⟨0, sizeId sz, 1⟩).isSome ∨ s.sbrkLock = false))

/-- The request has nowhere to go but `mem_sbrk`. -/
def AsksSbrk (n : Nat) (s : State) (cpu sz : Nat) : Prop :=
  ((s.heapTable (cpu + 1)).lock = false ∧ ¬HasRoom n s (cpu + 1) sz) ∧
    (s.heapTable 0).lock = false ∧ s.bin ⟨0, sizeId sz, 1⟩ = none ∧ s.sbrkLock = false

theorem selectSuperblock_ok (hi : Shelved n s (superblocks n s) live L) (hw : Within s)
    (hcpu : cpu < n) (hsz : sz ≤ 2048) :
    (∃ x, selectSuperblock s cpu sz = .ok x) ↔ Opens n s cpu sz := by
  rw [selectSuperblock, Opens, ← hit_isSome hi hcpu hsz, lockHeap_eq]
  cases (s.heapTable (cpu + 1)).lock with
  | true => simp [bind, Except.bind]
  | false =>
    have hi1 := hi.congr (locked_same (h := cpu + 1))
    rw [if_neg (by decide), Recorded.ok_bind, hi1.scan_ok hw.locked hcpu, Recorded.ok_bind,
      (locked_same (s := s)).hit, lockHeap_eq, locked_lock, if_neg (Nat.succ_ne_zero cpu).symm]
    cases hit s L (cpu + 1) sz with
    | some x => simp
    | none =>
      cases (s.heapTable 0).lock with
      | true => simp [bind, Except.bind]
      | false =>
        have hi2 := hi1.congr (locked_same (h := 0))
        have htake : (∃ x, takeGlobal (locked (locked s (cpu + 1)) 0) sz = .ok x) ↔
            _ ∨ s.sbrkLock = false := hi2.takeGlobal_ok
        rw [locked_same.bin, locked_same.bin] at htake
        rw [if_neg (by decide), Recorded.ok_bind]
        generalize takeGlobal (locked (locked s (cpu + 1)) 0) sz = out at htake ⊢
        cases out with
        | error e => simpa [bind, Except.bind] using htake
        | ok y => obtain ⟨w, _ | x⟩ := y <;> simpa [Recorded.ok_bind] using htake

theorem mallocSmall_ok (hi : Shelved n s (superblocks n s) live L) (hw : Within s) (hcpu : cpu < n)
    (hsz : sz ≤ 2048) : (∃ x, mallocSmall s cpu sz = .ok x) ↔ Opens n s cpu sz := by
  rw [← selectSuperblock_ok hi hw hcpu hsz, mallocSmall_eq]
  cases selectSuperblock s cpu sz <;> simp [Except.map]

/-! Calls of `mem_sbrk`. -/

/-- What `mem_sbrk` returns for one more superblock. -/
def nextPage (s : State) : Option Nat :=
  if s.dsegHi + pgSize > s.dsegLo + s.dsegSize then none else some (s.dsegHi + 1)

theorem memSbrk_page : ∃ t, memSbrk s pgSize = .ok (t, nextPage s) := by
  simp only [memSbrk, nextPage]
  rw [if_neg (by decide)]
  split
  · exact ⟨_, rfl⟩
  · exact ⟨_, rfl⟩

namespace Recorded

theorem sbrk_locked_bind {α : Type} {f : Unit → Recorded α} :
    Access.sbrk v ∈ (lock h >>= f).trace s ↔
      (s.heapTable h).lock = false ∧ Access.sbrk v ∈ (f ()).trace (locked s h) := by
  rw [sbrk_lock_bind, lockHeap_eq]
  cases (s.heapTable h).lock <;> simp

theorem sbrk_ask_bind {α β : Type} {g : State → Call α} {f : α → Recorded β} {a : α}
    (hg : g s = .ok a) :
    Access.sbrk v ∈ ((ask g : Recorded α) >>= f).trace s ↔ Access.sbrk v ∈ (f a).trace s := by
  simp [mem_trace_bind, hg, Except.map]

theorem sbrk_sbrk : Access.sbrk v ∈ (sbrk pgSize).trace s ↔
    s.sbrkLock = false ∧ v = nextPage s := by
  simp only [sbrk, mem_trace_bind, mem_trace_act, not_mem_trace_silent, not_mem_trace_pure,
    List.not_mem_nil, and_false, exists_const, exists_false, false_or, or_false,
    List.mem_singleton, Access.sbrk.injEq, result_act, lockSbrk]
  cases s.sbrkLock with
  | true => simp [Except.map]
  | false =>
    obtain ⟨t, ht⟩ := memSbrk_page (s := { s with sbrkLock := true })
    simp [Except.map, ht, nextPage, eq_comm]

theorem sbrk_takeGlobal
    (hno : ((List.range 9).findSome? fun i => (s.bin ⟨0, i, 0⟩).map (i, ·)) = none) :
    Access.sbrk v ∈ (takeGlobal sz).trace s ↔
      s.bin ⟨0, sizeId sz, 1⟩ = none ∧ s.sbrkLock = false ∧ v = nextPage s := by
  rw [takeGlobal, sbrk_read_bind, hno]
  cases s.bin ⟨0, sizeId sz, 1⟩ with
  | some sb => simp
  | none =>
    simp only [true_and]
    rw [mem_trace_bind, sbrk_sbrk, or_iff_left]
    rintro ⟨t, _ | a, -, h⟩ <;> simp [mem_trace_bind] at h

theorem sbrk_mallocSmall (hi : Shelved n s (superblocks n s) live L) (hw : Within s)
    (hcpu : cpu < n) (hsz : sz ≤ 2048) : Access.sbrk v ∈ (mallocSmall cpu sz).trace s ↔
      AsksSbrk n s cpu sz ∧ v = nextPage s := by
  have hi1 := hi.congr (locked_same (h := cpu + 1))
  have hscan : scan (locked s (cpu + 1)) (cpu + 1) sz = .ok _ := hi1.scan_ok hw.locked hcpu
  rw [locked_same.hit] at hscan
  rw [mallocSmall, sbrk_locked_bind, sbrk_ask_bind hscan, AsksSbrk, ← hit_isSome hi hcpu hsz,
    Option.not_isSome_iff_eq_none]
  simp only [and_assoc]
  refine and_congr_right fun _ => ?_
  cases hit s L (cpu + 1) sz with
  | some x => simp
  | none =>
    simp only [true_and]
    rw [sbrk_locked_bind, locked_lock, if_neg (Nat.succ_ne_zero cpu).symm]
    refine and_congr_right fun _ => ?_
    have hi2 := hi1.congr (locked_same (h := 0))
    rw [mem_trace_bind, sbrk_takeGlobal hi2.no_empty, or_iff_left, locked_same.bin,
      locked_same.bin]
    · rfl
    · rintro ⟨t, _ | x, -, h⟩ <;> simp [mem_trace_bind] at h

end Recorded

theorem sbrk_small (hi : Shelved n s (superblocks n s) live L) (hw : Within s) (hcpu : cpu < n)
    (hsz : sz ≤ 2048) : Access.sbrk v ∈ accesses s (.malloc cpu sz) ↔
      AsksSbrk n s cpu sz ∧ v = nextPage s := by
  have hsmall : ¬sz > sbSize / 2 := Nat.not_lt.mpr hsz
  rw [accesses, Recorded.mmMalloc, if_neg hsmall]
  exact Recorded.sbrk_mallocSmall hi hw hcpu hsz

theorem AsksSbrk.opens (ha : AsksSbrk n s cpu sz) : Opens n s cpu sz :=
  ⟨ha.1.1, .inr ⟨ha.2.1, .inr ha.2.2.2⟩⟩

theorem source_none (hi : Shelved n s (superblocks n s) live L) (hcpu : cpu < n) (hsz : sz ≤ 2048)
    (hs : source s L cpu sz = none) : ¬HasRoom n s (cpu + 1) sz ∧
      s.bin ⟨0, sizeId sz, 1⟩ = none ∧ nextPage s = none := by
  rw [source] at hs
  cases hhit : hit s L (cpu + 1) sz with
  | some x => simp [hhit] at hs
  | none =>
    rw [← hit_isSome hi hcpu hsz, hhit]
    simp only [hhit, Option.map_eq_none_iff, supply] at hs
    cases hb : s.bin ⟨0, sizeId sz, 1⟩ with
    | some sb => simp [hb] at hs
    | none =>
      refine ⟨by simp, rfl, ?_⟩
      simp only [hb] at hs
      rw [nextPage]
      split
      · rfl
      · next hroom => simp [hroom] at hs

/-- What `mem_sbrk` does not refuse is granted. -/
theorem mallocSmall_some (hi : SmallInv n s live L) (hw : Within s) (hcpu : cpu < n)
    (hsz : sz ≤ 2048) (ho : Opens n s cpu sz)
    (hv : AsksSbrk n s cpu sz → nextPage s ≠ none) :
    ∃ t p, mallocSmall s cpu sz = .ok (t, some p) := by
  obtain ⟨⟨t, r⟩, hm⟩ := (mallocSmall_ok hi.shelved hw hcpu hsz).mpr ho
  rcases hi.shelved.mallocSmall hsz hcpu hm with ⟨-, hsrc, -⟩ | ⟨S', p, _, _, _, rfl, -⟩
  · obtain ⟨hno, hbin, hnext⟩ := source_none hi.shelved hcpu hsz hsrc
    obtain ⟨hlock, hroom | ⟨hlock', hb | hb⟩⟩ := ho
    · exact (hno hroom).elim
    · simp [hbin] at hb
    · exact (hv ⟨⟨hlock, hno⟩, hlock', hbin, hb⟩ hnext).elim
  · exact ⟨t, p, hm⟩

/-- A block without `mem_sbrk`: from its own heap, or from bin 1 of the global one. -/
theorem served_iff (hi : SmallInv n s live L) (hw : Within s) (hcpu : cpu < n) (hsz : sz ≤ 2048) :
    ((∃ t p, mmMalloc s cpu sz = .ok (t, some p)) ∧
      ∀ v, Access.sbrk v ∉ accesses s (.malloc cpu sz)) ↔
    (s.heapTable (cpu + 1)).lock = false ∧ (HasRoom n s (cpu + 1) sz ∨
      (s.heapTable 0).lock = false ∧ (s.bin ⟨0, sizeId sz, 1⟩).isSome) := by
  simp only [mmMalloc_small hsz, sbrk_small hi.shelved hw hcpu hsz]
  constructor
  · rintro ⟨⟨t, p, hm⟩, hno⟩
    obtain ⟨hown, hwhere⟩ := (mallocSmall_ok hi.shelved hw hcpu hsz).mp ⟨_, hm⟩
    refine ⟨hown, ?_⟩
    by_contra hnot
    simp only [not_or, not_and, Option.not_isSome_iff_eq_none] at hnot
    obtain ⟨hglobal, hb | hsbrk⟩ := hwhere.resolve_left hnot.1
    · simp [hnot.2 hglobal] at hb
    · exact hno _ ⟨⟨⟨hown, hnot.1⟩, hglobal, hnot.2 hglobal, hsbrk⟩, rfl⟩
  · rintro ⟨hown, hwhere⟩
    have hno : ¬AsksSbrk n s cpu sz := by
      rintro ⟨⟨-, hroom⟩, -, hnone, -⟩
      rcases hwhere with h | ⟨-, hb⟩
      · exact hroom h
      · simp [hnone] at hb
    refine ⟨?_, fun v hv => hno hv.1⟩
    exact mallocSmall_some hi hw hcpu hsz
      ⟨hown, hwhere.imp_right fun h => ⟨h.1, .inl h.2⟩⟩ fun ha => (hno ha).elim

/-! Small requests succeed. -/

/-- Whenever `mm_malloc` calls `find_block`, the superblock has a clear bit, and `find_block`
returns one. -/
def FindsBlock (s : State) (cpu sz : Nat) : Prop :=
  ∀ u sb old, selectSuperblock s cpu sz = .ok (u, some (sb, false, old)) →
    (∃ k < sbSize / (u.superblock sb).blockSize, bit (u.superblock sb).blockMap k = false) ∧
    ∃ id < sbSize / (u.superblock sb).blockSize,
      findBlock (u.superblock sb).blockMap (sizeClass sz) = some id ∧
        bit (u.superblock sb).blockMap id = false

theorem SmallInv.findsBlock (hi : SmallInv n s live L) (hcpu : cpu < n) (hsz : sz ≤ 2048) :
    FindsBlock s cpu sz := by
  intro u sb old hsel
  rcases hi.shelved.selectSuperblock hsz hcpu hsel with ⟨hno, -⟩ | ⟨S', x, he, hx⟩
  · cases hno
  · cases he
    obtain ⟨L', hinv⟩ := hx.inv
    have hcls := blockSize_of_bin hinv.toBooks hx.mem hsz hx.bin
    obtain ⟨k, hk, hclear⟩ := hinv.exists_clear hx.mem hx.free
    refine ⟨⟨k, hk, hclear⟩, ?_⟩
    rw [hcls] at hk ⊢
    have hmem := sizeClass_mem hsz
    obtain ⟨id, hid⟩ := Option.isSome_iff_exists.mp (findBlock_isSome hmem hk hclear)
    exact ⟨id, findBlock_lt hmem hk hclear hid, hid, findBlock_clear hmem hid⟩

/-- Unless `mem_sbrk` fails, the request returns a block; and `find_block` does not fail. -/
def Succeeds (s : State) (cpu sz : Nat) : Prop :=
  (Access.sbrk none ∉ accesses s (.malloc cpu sz) →
    ∃ t p, mmMalloc s cpu sz = .ok (t, some p)) ∧ FindsBlock s cpu sz

theorem within_small (hc : Started n c) (hr : Reaches (SmallStep n) c d) : Within d.state :=
  hr.invariant (I := fun c => Within c.state)
    (fun _ _ _ hi hs => hi.extends (step_extends hs.1)) (within_started hc)

theorem SmallInv.succeeds (hi : SmallInv n s live L) (hw : Within s) (hcpu : cpu < n)
    (hsz : sz ≤ 2048) : Succeeds s cpu sz ↔ Opens n s cpu sz := by
  rw [Succeeds, and_iff_left (hi.findsBlock hcpu hsz), mmMalloc_small hsz,
    sbrk_small hi.shelved hw hcpu hsz]
  constructor
  · intro hgranted
    by_contra hno
    obtain ⟨t, p, hm⟩ := hgranted fun ha => hno ha.1.opens
    exact hno ((mallocSmall_ok hi.shelved hw hcpu hsz).mp ⟨_, hm⟩)
  · intro ho hv
    exact mallocSmall_some hi hw hcpu hsz ho fun ha hnone => hv ⟨ha, hnone.symm⟩

/-- A small request succeeds exactly when it waits for no lock that an earlier request has left
held. -/
theorem small_succeeds_iff (hc : Started n c) (hr : Reaches (SmallStep n) c d) (hcpu : cpu < n)
    (hsz : sz ≤ 2048) : Succeeds d.state cpu sz ↔ Opens n d.state cpu sz := by
  obtain ⟨L, hi⟩ := smallOk_reaches hc hr
  exact hi.succeeds (within_small hc hr) hcpu hsz

/-- A request that is served with a block that has been freed. -/
theorem small_succeeds_iff_halfEmpty : ∃ d, Reaches (SmallStep 1) oneCpu d ∧
    (∃ t, mmMalloc d.state 0 2000 = .ok (t, some 55296)) ∧
    (Succeeds d.state 0 2000 ↔ Opens 1 d.state 0 2000) := by
  obtain ⟨⟨run, t, r⟩, hh, rfl⟩ := ok_of_map
    (c := do
      let run ← calls 1 oneCpu halfEmpty
      let x ← mmMalloc (lastState oneCpu run).state 0 2000
      .ok (run, x))
    (f := fun x => x.2.2) (b := some 55296) (by decide +kernel)
  obtain ⟨run, hrun, hh⟩ := ok_of_bind hh
  obtain ⟨x, hm, hh⟩ := ok_of_bind hh
  cases hh
  have hr := (calls_small hrun halfEmpty_small).reaches_last
  exact ⟨_, hr, ⟨t, hm⟩, small_succeeds_iff oneCpu_started hr (by decide) (by decide)⟩

/-! The segment is used up in the end. -/

/-- The program holds at most 512 blocks of each superblock. -/
theorem live_le (hi : SmallInv n s live L) (hw : Within s) : live.length ≤ maxPages s * 512 := by
  have hmem : ∀ p ∈ live, (pageOf p, blockId s p) ∈ superblocks n s ×ˢ Finset.range 512 := by
    intro p hp
    have hb := blocks_bounds (hi.blocksOk _ (hi.live.page p hp)).cls
    have hid := (hi.live.id p hp).2
    have hlt : blockId s p < 512 := by omega
    rw [Finset.mem_product]
    exact ⟨hi.live.page p hp, Finset.mem_range.mpr hlt⟩
  have hcard : (superblocks n s ×ˢ Finset.range 512).card ≤ maxPages s * 512 := by
    rw [Finset.card_product, Finset.card_range]
    exact Nat.mul_le_mul_right 512 (card_superblocks hw)
  generalize superblocks n s ×ˢ Finset.range 512 = T at hmem hcard
  have hnd : (live.map fun p => (pageOf p, blockId s p)).Nodup := by
    refine List.pairwise_map.mpr (hi.live.apart.imp fun {p q} hapart he => ?_)
    obtain ⟨hpage, hid⟩ := Prod.mk.inj he
    exact hapart hpage hid
  have hsub : (live.map fun p => (pageOf p, blockId s p)).toFinset ⊆ T := by
    intro x hx
    obtain ⟨p, hp, rfl⟩ := List.mem_map.mp (List.mem_toFinset.mp hx)
    exact hmem p hp
  rw [← List.length_map (fun p => (pageOf p, blockId s p)), ← List.toFinset_card_of_nodup hnd]
  exact (Finset.card_le_card hsub).trans hcard

/-- Which locks are held. -/
def State.locks (s : State) : (Nat → Bool) × Bool := (fun h => (s.heapTable h).lock, s.sbrkLock)

theorem setHeap_locks {f : Heap → Heap} (hf : ∀ x, (f x).lock = x.lock) :
    (s.setHeap h f).locks = s.locks := by
  refine Prod.ext ?_ rfl
  funext k
  exact setHeap_lock hf

theorem transferBins_locks {d : Bin} : (transferBins s sb o d).locks = s.locks := by
  have hr := (relinked_same s sb o d).rest
  simp only [State.rest, Prod.mk.injEq] at hr
  refine Prod.ext (funext fun k => transferBins_lock) ?_
  unfold transferBins
  split
  · exact hr.2.2.2.1
  · exact hr.2.2.2.1

theorem rebin_locks {id old new : Nat} : (rebin s sb h id old new).locks = s.locks := by
  unfold rebin
  split
  · exact transferBins_locks
  · rfl

theorem newSuperblock_locks {k : Nat} : (newSuperblock s sb k).locks = s.locks :=
  setHeap_locks (s := s.setType sb 0) (h := 0)
    (f := fun h => { h with used := h.used + blocksUsed k * k }) fun _ => rfl

/-- A call of `mem_sbrk` with its lock gives the lock back. -/
theorem sbrk_locks {increment : Nat} (hl : lockSbrk s = .ok t)
    (hm : memSbrk t increment = .ok (u, r)) : (unlockSbrk u).locks = s.locks := by
  unfold lockSbrk at hl
  split at hl <;> cases hl
  next hfree =>
  rw [Bool.not_eq_true] at hfree
  simp only [memSbrk] at hm
  split at hm
  · cases hm
  · split at hm <;> cases hm <;> simp [State.locks, unlockSbrk, hfree]

theorem takeGlobal_locks {target : Option (Nat × Bin)} (ht : takeGlobal s sz = .ok (t, target)) :
    t.locks = s.locks := by
  simp only [takeGlobal] at ht
  split at ht
  · cases ht
    exact newSuperblock_locks.trans (setHeap_locks fun _ => rfl)
  · split at ht
    · cases ht
      rfl
    · obtain ⟨s1, hl, ht⟩ := ok_of_bind ht
      obtain ⟨⟨s2, tmp⟩, hm, ht⟩ := ok_of_bind ht
      have hs := sbrk_locks hl hm
      cases tmp with
      | none =>
        cases ht
        exact hs
      | some a =>
        cases ht
        refine (setHeap_locks (by intro; rfl)).trans ?_
        refine (setHeap_locks (by intro; rfl)).trans ?_
        exact newSuperblock_locks.trans hs

theorem locked_locks : (locked s h).locks = (Function.update s.locks.1 h true, s.locks.2) := by
  refine Prod.ext (funext fun k => ?_) rfl
  simp only [State.locks, locked_lock, Function.update_apply]

theorem unlockHeap_locks :
    (unlockHeap s h).locks = (Function.update s.locks.1 h false, s.locks.2) := by
  refine Prod.ext (funext fun k => ?_) rfl
  simp only [State.locks, unlockHeap_lock, Function.update_apply]

theorem takeBlock_locks {p old : Nat} {useFirst : Bool}
    (ht : takeBlock s cpu sz sb useFirst old = (t, some p)) :
    t.locks = (Function.update s.locks.1 (cpu + 1) false, s.locks.2) := by
  simp only [takeBlock] at ht
  split at ht <;> cases ht
  rw [unlockHeap_locks, rebin_locks, setHeap_locks (by intro; rfl)]
  rfl

theorem lockHeap_locked (hl : lockHeap s h = .ok t) :
    (s.heapTable h).lock = false ∧ t = locked s h := by
  rw [lockHeap_eq] at hl
  split at hl
  · cases hl
  · next hfree =>
    cases hl
    exact ⟨by simpa using hfree, rfl⟩

/-- A small request that returns a block has given back every lock. -/
theorem mallocSmall_locks {p : Nat} (hm : mallocSmall s cpu sz = .ok (t, some p)) :
    t.locks = s.locks := by
  rw [mallocSmall_eq, map_eq_ok] at hm
  obtain ⟨⟨u, found⟩, hsel, hm⟩ := hm
  cases found with
  | none => cases hm
  | some x =>
    have hout := takeBlock_locks hm
    obtain ⟨s1, hl, hsel⟩ := ok_of_bind hsel
    obtain ⟨hfree, rfl⟩ := lockHeap_locked hl
    have hback : Function.update s.locks.1 (cpu + 1) false = s.locks.1 :=
      Function.update_eq_self_iff.mpr hfree.symm
    obtain ⟨scanned, -, hsel⟩ := ok_of_bind hsel
    cases scanned with
    | some y =>
      cases hsel
      rw [hout, locked_locks, Function.update_idem, hback]
    | none =>
      obtain ⟨s2, hl', hsel⟩ := ok_of_bind hsel
      obtain ⟨hfree', rfl⟩ := lockHeap_locked hl'
      obtain ⟨⟨s3, target⟩, htake, hsel⟩ := ok_of_bind hsel
      cases target with
      | none => cases hsel
      | some y =>
        cases hsel
        have hback' : Function.update (locked s (cpu + 1)).locks.1 0 false =
            (locked s (cpu + 1)).locks.1 := Function.update_eq_self_iff.mpr hfree'.symm
        rw [hout, unlockHeap_locks, transferBins_locks, takeGlobal_locks htake, locked_locks,
          Function.update_idem, hback', locked_locks, Function.update_idem, hback]

theorem Opens.of_free (hown : (s.heapTable (cpu + 1)).lock = false)
    (hglobal : (s.heapTable 0).lock = false) (hsbrk : s.sbrkLock = false) : Opens n s cpu sz :=
  ⟨hown, .inr ⟨hglobal, .inr hsbrk⟩⟩

/-- As long as `mem_sbrk` grants pages, one request after another returns a block. -/
theorem granted_run (hc : Started n c) (hcpu : cpu < n) (hsz : sz ≤ 2048)
    (hown : (c.state.heapTable (cpu + 1)).lock = false)
    (hglobal : (c.state.heapTable 0).lock = false) (hsbrk : c.state.sbrkLock = false)
    (hgrant : ∀ d, Reaches (SmallStep n) c d → AsksSbrk n d.state cpu sz →
      nextPage d.state ≠ none) (k : Nat) :
    ∃ d, Reaches (SmallStep n) c d ∧ d.live.length = k ∧ d.state.locks = c.state.locks := by
  induction k with
  | zero => exact ⟨c, .refl, by simp [hc.live], rfl⟩
  | succ k ih =>
    obtain ⟨d, hr, hlen, hlocks⟩ := ih
    obtain ⟨L, hi⟩ := smallOk_reaches hc hr
    have hheap : ∀ h, (d.state.heapTable h).lock = (c.state.heapTable h).lock := by
      intro h
      exact congrFun (congrArg Prod.fst hlocks) h
    have hopens : Opens n d.state cpu sz :=
      .of_free ((hheap _).trans hown) ((hheap 0).trans hglobal)
        ((congrArg Prod.snd hlocks).trans hsbrk)
    obtain ⟨t, p, hm⟩ := mallocSmall_some hi (within_small hc hr) hcpu hsz hopens (hgrant d hr)
    have hstep : SmallStep n d (.malloc cpu sz (some p))
        ⟨t, p :: d.live, newChunk d.state t ++ d.chunks⟩ := by
      refine ⟨.malloc hcpu (by omega) ?_, hsz⟩
      rwa [mmMalloc_small hsz]
    refine ⟨_, hr.tail ⟨_, hstep⟩, ?_, (mallocSmall_locks hm).trans hlocks⟩
    simp [hlen]

/-- The same request, made again and again, is refused in the end. -/
theorem out_of_memory (hc : Started n c) (hcpu : cpu < n) (hsz : sz ≤ 2048)
    (hown : (c.state.heapTable (cpu + 1)).lock = false)
    (hglobal : (c.state.heapTable 0).lock = false) (hsbrk : c.state.sbrkLock = false) :
    ∃ d, Reaches (SmallStep n) c d ∧ AsksSbrk n d.state cpu sz ∧ nextPage d.state = none := by
  by_contra hno
  have hgrant : ∀ d, Reaches (SmallStep n) c d → AsksSbrk n d.state cpu sz →
      nextPage d.state ≠ none := fun d hr ha hnone => hno ⟨d, hr, ha, hnone⟩
  obtain ⟨d, hr, hlen, -⟩ := granted_run hc hcpu hsz hown hglobal hsbrk hgrant
    (maxPages c.state * 512 + 1)
  obtain ⟨L, hi⟩ := smallOk_reaches hc hr
  have hw := within_small hc hr
  have hle := live_le hi hw
  rw [hlen, maxPages, maxPages, hw.size, (within_started hc).size] at hle
  omega

/-- Requests of 2000 bytes until one is refused; then a request of 8 bytes waits for ever. -/
theorem refused_then_blocked : Started 1 oneCpu ∧ ∃ d, Reaches (SmallStep 1) oneCpu d ∧
    mmMalloc d.state 0 8 = .error .blocked ∧ ¬Succeeds d.state 0 8 := by
  refine ⟨oneCpu_started, ?_⟩
  obtain ⟨d, hr, hasks, hnext⟩ : ∃ d, Reaches (SmallStep 1) oneCpu d ∧
      AsksSbrk 1 d.state 0 2000 ∧ nextPage d.state = none :=
    out_of_memory oneCpu_started (by decide) (by decide) (by decide +kernel) (by decide +kernel)
      (by decide +kernel)
  obtain ⟨L, hi⟩ := smallOk_reaches oneCpu_started hr
  have hsb := (Recorded.sbrk_mallocSmall hi.shelved (within_small oneCpu_started hr) (by decide)
    (by decide)).mpr ⟨hasks, hnext.symm⟩
  obtain ⟨t, u, ht, hu, hm⟩ := Recorded.mallocSmall_none hsb
  obtain ⟨-, rfl⟩ := lockHeap_locked ht
  obtain ⟨-, rfl⟩ := lockHeap_locked hu
  have hstep : SmallStep 1 d (.malloc 0 2000 none) ⟨locked (locked d.state 1) 0, d.live,
      newChunk d.state (locked (locked d.state 1) 0) ++ d.chunks⟩ := by
    refine ⟨.malloc (by decide) (by decide) ?_, by simp [Event.Small, sbSize]⟩
    rwa [mmMalloc_small (by decide)]
  have hheld : ((locked (locked d.state 1) 0).heapTable 1).lock = true := by
    simp [locked_lock]
  have hr' := hr.tail ⟨_, hstep⟩
  refine ⟨_, hr', ?_, ?_⟩
  · rw [mmMalloc_small (by decide), mallocSmall, lockHeap_eq, if_pos hheld]
    rfl
  · obtain ⟨L', hi'⟩ := smallOk_reaches oneCpu_started hr'
    rw [hi'.succeeds (within_small oneCpu_started hr') (by decide) (by decide)]
    intro ho
    have hfree := ho.1
    rw [hheld] at hfree
    cases hfree

end Csc469.Alloc
