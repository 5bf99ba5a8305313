import Csc469.Alloc.LockDiscipline

/-! `mm_free` reads the heap of a superblock before it locks that heap: any number of threads,
with other calls between the two. -/
namespace Csc469.Alloc

open Execution Linked Bitmap

variable {n cpu sz i h page offset hid : Nat} {s t : State} {S : Finset Nat} {L : Bin → List Nat}
  {a p sb : Nat} {o d : Bin} {live : List Nat} {r : Option Nat}

/-- The first part of `mm_free` on a superblock under the lock of heap `hid`. -/
def releaseAs (s : State) (hid page offset : Nat) : State :=
  let b := s.superblock page
  let blocks := sbSize / b.blockSize
  let oldFullness := fullness b.usedBlocks blocks
  let newFullness := fullness (b.usedBlocks - 1) blocks
  let s := s.setSb page fun b =>
    { b with blockMap := subBit b.blockMap (offset / b.blockSize), usedBlocks := b.usedBlocks - 1 }
  let s := s.setHeap hid fun h => { h with used := h.used - b.blockSize }
  rebin s page hid (sizeId b.blockSize) oldFullness newFullness

/-- `mm_free` on a superblock page, after `HID = sb->heap_id`. -/
def freeRest (s : State) (hid page offset : Nat) : Call State := do
  let s ← lockHeap s hid
  trimHeap (releaseAs s hid page offset) hid

/-- With nothing in between, the two steps are one call. -/
theorem freeRest_current (hh : hid = (s.superblock page).heapId) :
    freeRest s hid page offset = freeSmall s page offset := by
  subst hh
  rw [freeRest, freeSmall]
  cases hl : lockHeap s (s.superblock page).heapId with
  | error e => rfl
  | ok t =>
    have hid : (t.superblock page).heapId = (s.superblock page).heapId := by
      rw [(lockHeap_same hl).superblock]
    simp only [Recorded.ok_bind, releaseAs, releaseBlock, hid]

/-- A small `mm_free` between its two steps. -/
structure Pending where
  thread : Nat
  ptr : Nat
  hid : Nat
  deriving DecidableEq

/-- The allocator, the pointers the program holds, and the calls of `mm_free` under way. -/
structure Shared where
  state : State
  live : List Nat
  pending : List Pending

inductive Action where
  | malloc (thread cpu sz : Nat) (ret : Option Nat)
  | read (thread ptr : Nat)
  | finish (q : Pending)
  deriving DecidableEq

/-- One atomic step of one thread: the locked section of a small `mm_malloc`, or one of the two
steps of `mm_free` on a pointer the program holds. -/
inductive ThreadStep (n : Nat) : Shared → Action → Shared → Prop
  | malloc {c : Shared} {thread cpu sz : Nat} {t : State} {r : Option Nat}
      (hidle : ∀ q ∈ c.pending, q.thread ≠ thread) (hcpu : cpu < n) (hsz : sz ≤ sbSize / 2)
      (hm : mmMalloc c.state cpu sz = .ok (t, r)) :
      ThreadStep n c (.malloc thread cpu sz r) ⟨t, r.toList ++ c.live, c.pending⟩
  | read {c : Shared} {thread p : Nat} (hidle : ∀ q ∈ c.pending, q.thread ≠ thread)
      (hp : p ∈ c.live) (ht : c.state.type (pageOf p) = 0) :
      ThreadStep n c (.read thread p)
        ⟨c.state, c.live.erase p, ⟨thread, p, (c.state.superblock (pageOf p)).heapId⟩ :: c.pending⟩
  | finish {c : Shared} {q : Pending} {t : State} (hq : q ∈ c.pending)
      (hf : freeRest c.state q.hid (pageOf q.ptr) (q.ptr % pgSize) = .ok t) :
      ThreadStep n c (.finish q) ⟨t, c.live, c.pending.erase q⟩

/-! The superblock that a call moves from one heap to another. -/

/-- `mm_malloc` finds no block in its own heap, and takes `a` from the global heap. -/
def Takes (n : Nat) (s : State) (cpu sz a : Nat) : Prop :=
  (∀ x ∈ superblocks n s, (s.superblock x).heapId = cpu + 1 →
    (s.superblock x).blockSize = sizeClass sz →
      tryBlock sz (sizeClass sz) (s.superblock x) = none) ∧
  s.bin ⟨0, sizeId sz, 1⟩ = some a

/-- The first superblock of size class `i` in the heap of `page` that is less than a quarter
full once a block of `page` is free. -/
def frontAfter (s : State) (page i : Nat) : Option Nat :=
  let b := s.superblock page
  let blocks := sbSize / b.blockSize
  if i = sizeId b.blockSize ∧ fullness b.usedBlocks blocks ≠ 1 ∧
      fullness (b.usedBlocks - 1) blocks = 1 then some page
  else s.bin ⟨b.heapId, i, 1⟩

/-- The superblock that goes back to the global heap once a block of `page` is free. -/
def handedBack (s : State) (page : Nat) : Option Nat := (List.range 9).findSome? (frontAfter s page)

theorem fullness_mono {u v : Int} {k : Nat} (hu : 0 ≤ u) (huv : u ≤ v) :
    fullness u k ≤ fullness v k := by
  rw [fullness_eq hu, fullness_eq (hu.trans huv)]
  exact Nat.succ_le_succ (Nat.div_le_div_right (by omega))

theorem rebin_bin {id old new : Nat} :
    (rebin s sb h id old new).bin = fun b => if new = old then s.bin b
      else if b = ⟨h, id, new⟩ then some sb
      else if s.prev sb = none ∧ b = ⟨h, id, old⟩ then s.next sb else s.bin b := by
  funext b
  unfold rebin
  by_cases hne : new = old
  · simp [hne]
  · rw [if_pos hne, if_neg hne, transferBins, if_neg (by simp), pushSb_bin, unlinkSb_bin]

/-- The bins of the nearly empty superblocks after a block has been freed. -/
theorem releaseBlock_front (hi : Shelved n s S live L) (hp : p ∈ live) :
    (releaseBlock s (pageOf p) offset).bin ⟨(s.superblock (pageOf p)).heapId, i, 1⟩ =
      frontAfter s (pageOf p) i := by
  have ha := hi.live.page p hp
  have hu0 : 0 ≤ (s.superblock (pageOf p)).usedBlocks - 1 := by
    simpa using ((hi.toBooks.subBlock hp).used_bounds ha).1
  have hmono : fullness ((s.superblock (pageOf p)).usedBlocks - 1)
      (sbSize / (s.superblock (pageOf p)).blockSize) ≤
      fullness (s.superblock (pageOf p)).usedBlocks
        (sbSize / (s.superblock (pageOf p)).blockSize) := fullness_mono hu0 (by omega)
  have hpos : 1 ≤ fullness ((s.superblock (pageOf p)).usedBlocks - 1)
      (sbSize / (s.superblock (pageOf p)).blockSize) := by
    rw [fullness_eq hu0]
    exact Nat.le_add_left ..
  simp only [releaseBlock, rebin_bin, frontAfter, Bin.mk.injEq, true_and]
  generalize fullness ((s.superblock (pageOf p)).usedBlocks - 1)
    (sbSize / (s.superblock (pageOf p)).blockSize) = new at *
  generalize fullness (s.superblock (pageOf p)).usedBlocks
    (sbSize / (s.superblock (pageOf p)).blockSize) = old at *
  have hbin : ∀ b, ((s.setSb (pageOf p) fun b => { b with
      blockMap := subBit b.blockMap (offset / b.blockSize)
      usedBlocks := b.usedBlocks - 1 }).setHeap (s.superblock (pageOf p)).heapId fun h =>
        { h with used := h.used - (s.superblock (pageOf p)).blockSize }).bin b = s.bin b :=
    fun b => State.setHeap_bin fun _ => rfl
  rw [hbin]
  by_cases hne : new = old
  · rw [if_pos hne, if_neg]
    omega
  · rw [if_neg hne]
    by_cases hfront : i = sizeId (s.superblock (pageOf p)).blockSize ∧ 1 = new
    · rw [if_pos hfront, if_pos ⟨hfront.1, by omega, hfront.2.symm⟩]
    · rw [if_neg hfront, if_neg, if_neg]
      · omega
      · rintro ⟨-, -, rfl⟩
        omega

/-- What is handed back is the first superblock that is less than a quarter full. -/
theorem handBack_front (hi : Shelved n s S live L) (hh : h ≤ n) {front : Nat → Option Nat}
    (hf : ∀ i, s.bin ⟨h, i, 1⟩ = front i) :
    (handBack s h).map Prod.fst = (List.range 9).findSome? front := by
  have hempty : ((List.range 9).findSome? fun i => (s.bin ⟨h, i, 0⟩).map (·, (⟨h, i, 0⟩ : Bin))) =
      none := by
    rw [List.findSome?_eq_none_iff]
    intro i _
    rw [hi.empty_bin hh i]
    rfl
  rw [handBack, List.findSome?_cons, hempty]
  simp only [List.findSome?_cons, List.findSome?_nil, hf]
  cases hq : (List.range 9).findSome? fun i => (front i).map (·, (⟨h, i, 1⟩ : Bin)) with
  | none =>
    rw [List.findSome?_eq_none_iff] at hq
    rw [Option.map_none, eq_comm, List.findSome?_eq_none_iff]
    intro i hi
    exact by simpa using hq i hi
  | some x =>
    have hx := congrArg (Option.map Prod.fst) hq
    rw [List.map_findSome?] at hx
    simpa [Function.comp_def] using hx.symm

/-- The call of `mm_free` that goes through changes the heap of at most one superblock. -/
theorem freeSmall_owner (hi : Shelved n s S live L) (hp : p ∈ live)
    (hf : freeSmall s (pageOf p) offset = .ok t) (hoff : offset = p % pgSize) :
    (t.superblock a).heapId = (s.superblock a).heapId ∨
      (HandsBack s (pageOf p) ∧ handedBack s (pageOf p) = some a) := by
  subst hoff
  obtain ⟨u, hlock, hf⟩ := ok_of_bind hf
  have hsame := lockHeap_same hlock
  have hi1 := hi.congr hsame
  have hle : (s.superblock (pageOf p)).heapId ≤ n := hi.placed.le _ (hi.live.page p hp)
  obtain ⟨⟨L', hi2⟩, -⟩ := releaseBlock_spec hi1 hp
  have hh : (u.superblock (pageOf p)).heapId = (s.superblock (pageOf p)).heapId := by
    rw [hsame.superblock]
  have hkept : ∀ a, ((releaseBlock u (pageOf p) (p % pgSize)).superblock a).heapId =
      (s.superblock a).heapId := fun a => by rw [releaseBlock_heapId, hsame.superblock]
  simp only [trimHeap] at hf
  split at hf
  · cases hf
    exact .inl (hkept a)
  · next h0 =>
    split at hf
    · next hlow =>
      cases hb : handBack (releaseBlock u (pageOf p) (p % pgSize))
          (s.superblock (pageOf p)).heapId with
      | none =>
        rw [hb] at hf
        cases hf
      | some x =>
        rw [hb] at hf
        cases hf
        by_cases ha : a = x.1
        swap
        · left
          rw [unlockHeap, State.setHeap_superblock, transferBins_heapId, if_neg (by simp [ha]),
            hkept]
        · right
          constructor
          · obtain ⟨hused, hall⟩ := releaseBlock_counters (p % pgSize) hh
            rw [hused, hall, hsame.used, hsame.allocated, hsame.superblock] at hlow
            have hfree : (s.heapTable (s.superblock (pageOf p)).heapId).lock = false := by
              unfold lockHeap at hlock
              split at hlock
              · cases hlock
              · next hfree => simpa using hfree
            exact ⟨h0, hfree, hlow⟩
          · have hfront : ∀ i, (releaseBlock u (pageOf p) (p % pgSize)).bin
                ⟨(s.superblock (pageOf p)).heapId, i, 1⟩ = frontAfter s (pageOf p) i := by
              intro i
              rw [← hh, releaseBlock_front hi1 hp]
              simp only [frontAfter, hsame.superblock, hsame.bin]
            rw [handedBack, ← handBack_front hi2 hle hfront]
            simp [hb, ha]
    · cases hf
      exact .inl (hkept a)

/-- No superblock of the heap that the search has passed over has a block for the request. -/
theorem no_block_of_hit (hi : Shelved n s (superblocks n s) live L) (hh : h ≤ n)
    (hsz : sz ≤ 2048) (hhit : hit s L h sz = none) {x : Nat} (hx : x ∈ superblocks n s)
    (hxh : (s.superblock x).heapId = h) (hxs : (s.superblock x).blockSize = sizeClass sz) :
    tryBlock sz (sizeClass sz) (s.superblock x) = none := by
  obtain ⟨hu0, hun⟩ := hi.used_bounds hx
  have hcls := sizeClass_mem hsz
  obtain ⟨hf1, hf5⟩ := fullness_bounds (hi.blocksOk x hx).cls hu0 hun
  rcases Nat.lt_or_ge (fullness (s.superblock x).usedBlocks
    (blocks (s.superblock x).blockSize)) 5 with hlt | hge
  · have hmem : x ∈ L ⟨h, sizeId sz, fullness (s.superblock x).usedBlocks
        (blocks (s.superblock x).blockSize)⟩ := by
      rw [hi.mem_list hh, binOf, hxh, hxs, sizeId_sizeClass hsz]
      exact ⟨hx, rfl⟩
    generalize fullness (s.superblock x).usedBlocks
      (blocks (s.superblock x).blockSize) = i at hlt hf1 hmem
    rw [hit, List.findSome?_eq_none_iff] at hhit
    have hi' : i ∈ [4, 3, 2, 1, 0] := by
      simp only [List.mem_cons, List.not_mem_nil, or_false]
      omega
    have hnone := hhit i hi'
    rw [Option.map_eq_none_iff] at hnone
    simpa using firstHit_eq_none_iff.mp hnone x hmem
  · -- a full superblock
    have hbd := blocks_bounds hcls
    have hfull : (s.superblock x).usedBlocks = blocks (sizeClass sz) := by
      rw [hxs, fullness_eq hu0] at hge
      rw [hxs] at hun
      have := (Nat.le_div_iff_mul_le (by omega)).mp (Nat.le_of_succ_le_succ hge)
      omega
    have hfirst : bit (s.superblock x).blockMap 0 = true := by
      by_contra hclear
      rw [Bool.not_eq_true] at hclear
      have := hi.used_lt hx (by rw [hxs]; omega) hclear
      rw [hxs] at this
      omega
    rw [tryBlock_eq hsz hu0 (by omega) (by simp [hfirst]), if_pos hfirst, if_neg (by omega)]

/-- A small `mm_malloc` changes the heap of no superblock but the one it takes from the global
heap. -/
theorem mallocSmall_owner (hi : SmallInv n s live L) (hsz : sz ≤ 2048) (hcpu : cpu < n)
    (hm : mallocSmall s cpu sz = .ok (t, r)) (ha : a ∈ superblocks n s) :
    (t.superblock a).heapId = (s.superblock a).heapId ∨ Takes n s cpu sz a := by
  obtain ⟨s1, hlock, hm⟩ := ok_of_bind hm
  have hsame := lockHeap_same hlock
  obtain ⟨found, hscan, hm⟩ := ok_of_bind hm
  have hhit := hi.shelved.scan_locked hsame hcpu hscan
  cases found with
  | some x =>
    left
    rw [takeBlock_heapId (Except.ok.inj hm), hsame.superblock]
  | none =>
    obtain ⟨s2, hlock', hm⟩ := ok_of_bind hm
    have hsame' := hsame.trans (lockHeap_same hlock')
    obtain ⟨⟨s3, target⟩, htake, hout⟩ := ok_of_bind hm
    rcases takeGlobal_cases (hi.shelved.congr hsame') hsz htake with
      ⟨rfl, -, hbooks⟩ | ⟨sb, hb, rfl, rfl⟩ | ⟨-, rfl, hg⟩
    · cases hout
      left
      rw [hbooks.superblock, hsame'.superblock]
    · by_cases he : a = sb
      · right
        rw [hsame'.bin] at hb
        rw [he]
        exact ⟨fun x hx hxh hxs => no_block_of_hit hi.shelved hcpu hsz hhit.symm hx hxh hxs, hb⟩
      · left
        rw [takeBlock_heapId (Except.ok.inj hout), unlockHeap, State.setHeap_superblock,
          transferBins_heapId, if_neg (by simp [he]), hsame'.superblock]
    · have hne : a ≠ s2.dsegHi + 1 := by
        rw [hsame'.dsegHi]
        have := (mem_superblocks.mp ha).1.2
        omega
      left
      rw [takeBlock_heapId (Except.ok.inj hout), unlockHeap, State.setHeap_superblock,
        transferBins_heapId, if_neg (by simp [hne]), hg.old a hne, hsame'.superblock]

/-! Any interleaving. -/

/-- The order of the pointers held does not matter. -/
theorem SmallInv.perm {live' : List Nat} (hi : SmallInv n s live L) (hp : live.Perm live') :
    SmallInv n s live' L := by
  obtain ⟨l1, l2, l3⟩ := hi.live
  refine ⟨⟨hi.segment, hi.type, fun a ha => ?_, ⟨?_, ?_, ?_⟩⟩, hi.placed⟩
  · obtain ⟨k1, k2, k3⟩ := hi.blocksOk a ha
    refine ⟨k1, fun id hid => ?_, k3⟩
    rw [k2 id hid]
    exact or_congr_right (exists_congr fun q => and_congr_left fun _ => hp.mem_iff)
  · intro q hq
    exact l1 q (hp.mem_iff.mpr hq)
  · intro q hq
    exact l2 q (hp.mem_iff.mpr hq)
  · exact (hp.pairwise_iff fun {x y} hxy hpg => (hxy hpg.symm).symm).mp l3

/-- The pointers whose blocks are taken: those of the program, and those being freed. -/
def Shared.held (c : Shared) : List Nat := c.live ++ c.pending.map Pending.ptr

/-- Every `mm_free` under way has read the heap that still owns its superblock. -/
def OwnersRead (c : Shared) : Prop :=
  ∀ q ∈ c.pending, q.hid = (c.state.superblock (pageOf q.ptr)).heapId

/-- The second step of `mm_free` finds the heap it has read. -/
def HidCurrent (c : Shared) : Action → Prop
  | .finish q => q.hid = (c.state.superblock (pageOf q.ptr)).heapId
  | _ => True

/-- The step moves no superblock to another heap while another thread is freeing a block of it. -/
def Undisturbed (n : Nat) (c : Shared) : Action → Prop
  | .malloc _ cpu sz _ => ∀ a, Takes n c.state cpu sz a → ∀ q ∈ c.pending, pageOf q.ptr ≠ a
  | .read _ _ => True
  | .finish q => HandsBack c.state (pageOf q.ptr) →
      ∀ a, handedBack c.state (pageOf q.ptr) = some a → ∀ q' ∈ c.pending.erase q, pageOf q'.ptr ≠ a

/-- After `mm_init`, with no call under way. -/
structure SharedStart (n : Nat) (c : Shared) : Prop where
  started : Started n ⟨c.state, c.live, []⟩
  pending : c.pending = []

theorem Started.shared {c : Config} (hc : Started n c) : SharedStart n ⟨c.state, [], []⟩ :=
  ⟨⟨hc.init, rfl, rfl⟩, rfl⟩

def SharedOk (n : Nat) (c : Shared) : Prop :=
  (∃ L, SmallInv n c.state c.held L) ∧ OwnersRead c

theorem sharedOk_start {c : Shared} (hc : SharedStart n c) : SharedOk n c := by
  obtain ⟨L, hi⟩ := smallOk_started hc.started
  refine ⟨⟨L, ?_⟩, ?_⟩
  · simpa [Shared.held, hc.pending] using hi
  · simp [OwnersRead, hc.pending]

theorem held_mem {c : Shared} {q : Pending} (hi : SmallInv n c.state c.held L)
    (hq : q ∈ c.pending) : pageOf q.ptr ∈ superblocks n c.state := by
  refine hi.live.page q.ptr ?_
  exact List.mem_append_right _ (List.mem_map_of_mem hq)

theorem sharedOk_step {c d : Shared} {e : Action} (hc : SharedOk n c) (hs : ThreadStep n c e d)
    (hu : Undisturbed n c e) : HidCurrent c e ∧ SharedOk n d := by
  obtain ⟨⟨L, hi⟩, hown⟩ := hc
  cases hs with
  | malloc hidle hcpu hsz hm =>
    rw [mmMalloc_small hsz] at hm
    refine ⟨trivial, ?_, fun q hq => ?_⟩
    · rcases mallocSmall_spec hi hsz hcpu hm with ⟨rfl, -, hinv, -⟩ | ⟨p, _, _, _, rfl, -, hg⟩
      · exact ⟨L, hinv⟩
      · exact hg.inv
    · rcases mallocSmall_owner hi hsz hcpu hm (held_mem hi hq) with hkept | htakes
      · rw [hkept]
        exact hown q hq
      · exact (hu _ htakes q hq rfl).elim
  | @read thread p hidle hp ht =>
    refine ⟨trivial, ⟨L, hi.perm ?_⟩, fun q hq => ?_⟩
    · have hperm := (List.perm_cons_erase hp).append_right (c.pending.map Pending.ptr)
      exact hperm.trans List.perm_middle.symm
    · rcases List.mem_cons.mp hq with rfl | hq
      · rfl
      · exact hown q hq
  | @finish q t hq hf =>
    have hcur := hown q hq
    rw [freeRest_current hcur] at hf
    -- the pointer being freed, in front of the others
    have hperm : c.held.Perm (q.ptr :: (c.live ++ (c.pending.erase q).map Pending.ptr)) := by
      have hq' := (List.perm_cons_erase hq).map Pending.ptr
      exact (hq'.append_left c.live).trans List.perm_middle
    have hi' := hi.perm hperm
    have hmem : q.ptr ∈ q.ptr :: (c.live ++ (c.pending.erase q).map Pending.ptr) :=
      List.mem_cons_self ..
    obtain ⟨hinv, -⟩ := freeSmall_spec hi' hmem hf
    rw [List.erase_cons_head] at hinv
    refine ⟨hcur, hinv, fun q' hq' => ?_⟩
    rcases freeSmall_owner (a := pageOf q'.ptr) hi'.shelved hmem hf rfl with hkept | ⟨hb, ha⟩
    · rw [hkept]
      exact hown q' (List.mem_of_mem_erase hq')
    · exact (hu hb _ ha q' hq' rfl).elim

/-- In every interleaving in which no superblock changes its heap while a thread is freeing one
of its blocks, the second step of every `mm_free` finds the heap that its first step read. -/
theorem hid_current {c : Shared} {run : List (Action × Shared)} (hc : SharedStart n c)
    (hr : Along (ThreadStep n) c run) (hu : Along (fun c e _ => Undisturbed n c e) c run) :
    Along (fun c e d => HidCurrent c e ∧ OwnersRead d) c run := by
  have hinv := Along.invariant (I := SharedOk n)
    (fun s e t hs hst => (sharedOk_step hs hst.1 hst.2).2) (sharedOk_start hc) (hr.and hu)
  refine ((hr.and hu).and hinv).mono ?_
  rintro s e t ⟨⟨hst, hut⟩, hs, ht⟩
  exact ⟨(sharedOk_step hs hst hut).1, ht.2⟩

/-- Take one step, unless it is not the thread's to take or ends otherwise. -/
def stepTo (n : Nat) (c : Shared) : Action → Call Shared
  | .malloc thread cpu sz ret =>
    if (∀ q ∈ c.pending, q.thread ≠ thread) ∧ cpu < n ∧ sz ≤ sbSize / 2 then do
      let (t, r) ← mmMalloc c.state cpu sz
      if r = ret then .ok ⟨t, r.toList ++ c.live, c.pending⟩ else .error .fault
    else .error .fault
  | .read thread p =>
    if (∀ q ∈ c.pending, q.thread ≠ thread) ∧ p ∈ c.live ∧ c.state.type (pageOf p) = 0 then
      .ok ⟨c.state, c.live.erase p,
        ⟨thread, p, (c.state.superblock (pageOf p)).heapId⟩ :: c.pending⟩
    else .error .fault
  | .finish q =>
    if q ∈ c.pending then do
      let t ← freeRest c.state q.hid (pageOf q.ptr) (q.ptr % pgSize)
      .ok ⟨t, c.live, c.pending.erase q⟩
    else .error .fault

def schedule (n : Nat) : Shared → List Action → Call (List (Action × Shared))
  | _, [] => .ok []
  | c, e :: es => do
    let d ← stepTo n c e
    let rest ← schedule n d es
    .ok ((e, d) :: rest)

theorem stepTo_step {c d : Shared} {e : Action} (h : stepTo n c e = .ok d) :
    ThreadStep n c e d := by
  cases e with
  | malloc thread cpu sz ret =>
    simp only [stepTo] at h
    split at h
    · next hl =>
      obtain ⟨⟨t, r⟩, hm, h⟩ := ok_of_bind h
      simp only at h
      split at h
      · next hr =>
        cases h
        subst hr
        exact .malloc hl.1 hl.2.1 hl.2.2 hm
      · cases h
    · cases h
  | read thread p =>
    simp only [stepTo] at h
    split at h
    · next hl =>
      cases h
      exact .read hl.1 hl.2.1 hl.2.2
    · cases h
  | finish q =>
    simp only [stepTo] at h
    split at h
    · next hq =>
      obtain ⟨t, hf, h⟩ := ok_of_bind h
      cases h
      exact .finish hq hf
    · cases h

theorem schedule_along {c : Shared} {es : List Action} {run : List (Action × Shared)}
    (h : schedule n c es = .ok run) : Along (ThreadStep n) c run := by
  induction es generalizing c run with
  | nil =>
    cases h
    trivial
  | cons e es ih =>
    obtain ⟨d, hd, h⟩ := ok_of_bind h
    obtain ⟨rest, hrest, h⟩ := ok_of_bind h
    cases h
    exact ⟨stepTo_step hd, ih hrest⟩

instance (c : Shared) : (e : Action) → Decidable (HidCurrent c e)
  | .malloc .. | .read .. => inferInstanceAs (Decidable True)
  | .finish q => inferInstanceAs (Decidable (q.hid = (c.state.superblock (pageOf q.ptr)).heapId))

/-- One processor after `mm_init`, whatever threads run on it. -/
def oneCpuShared : Shared := ⟨oneCpu.state, [], []⟩

theorem oneCpuShared_start : SharedStart 1 oneCpuShared := oneCpu_started.shared

/-- Thread 0 reads the heap of its pointer's superblock; thread 1 frees a pointer, which hands
that superblock back to the global heap; thread 0 goes on with the heap it has read. -/
def lateFree : List Action :=
  [.malloc 1 0 8 (some 16488), .malloc 1 0 16 (some 20592), .malloc 1 0 32 (some 24704),
    .malloc 1 0 64 (some 28800), .malloc 1 0 128 (some 32896), .malloc 1 0 256 (some 36864),
    .malloc 1 0 512 (some 40960), .malloc 1 0 1024 (some 46080), .malloc 1 0 2048 (some 51200),
    .read 0 16488, .read 1 51200, .finish ⟨1, 51200, 1⟩, .finish ⟨0, 16488, 1⟩]

/-- The step takes nothing from the global heap while blocks are being freed, and hands back the
superblock of none of them. -/
def Spares (c : Shared) : Action → Prop
  | .malloc _ _ sz _ => c.pending = [] ∨ c.state.bin ⟨0, sizeId sz, 1⟩ = none
  | .read _ _ => True
  | .finish q =>
    ∀ q' ∈ c.pending.erase q, handedBack c.state (pageOf q.ptr) ≠ some (pageOf q'.ptr)

instance Spares.decidable (c : Shared) : (e : Action) → Decidable (Spares c e)
  | .malloc .. => inferInstanceAs (Decidable (_ ∨ _))
  | .read .. => .isTrue trivial
  | .finish _ => inferInstanceAs (Decidable (∀ q' ∈ _, _))

theorem Spares.undisturbed {c : Shared} {e : Action} (h : Spares c e) : Undisturbed n c e := by
  cases e with
  | malloc thread cpu sz ret =>
    rintro a ⟨-, hbin⟩ q hq
    rcases h with hnone | hnone
    · rw [hnone] at hq
      cases hq
    · cases hnone.symm.trans hbin
  | read => trivial
  | finish q =>
    rintro - a ha q' hq' rfl
    exact h q' hq' ha

/-- Thread 0 reads the heap of another superblock than the one that thread 1 then hands back to the
global heap, after one more call of its own. -/
def sparedFree : List Action :=
  lateFree.take 9 ++ [.read 0 20592, .malloc 1 0 8 (some 16496), .read 1 51200,
    .finish ⟨1, 51200, 1⟩, .finish ⟨0, 20592, 1⟩]

theorem hid_current_sparedFree : ∃ run : List (Action × Shared),
    run.map Prod.fst = sparedFree ∧ Along (ThreadStep 1) oneCpuShared run ∧
    ((lastState oneCpuShared run).state.superblock 16384).heapId = 0 ∧
    Along (fun c e d => HidCurrent c e ∧ OwnersRead d) oneCpuShared run := by
  obtain ⟨run, hrun, hb⟩ := ok_of_map (c := schedule 1 oneCpuShared sparedFree)
    (f := fun run => (run.map Prod.fst,
      ((lastState oneCpuShared run).state.superblock 16384).heapId,
      decide (Along (fun c e _ => Spares c e) oneCpuShared run)))
    (b := (sparedFree, 0, true)) (by decide +kernel)
  simp only [Prod.mk.injEq] at hb
  obtain ⟨hlabels, hback, hspares⟩ := hb
  have hr := schedule_along hrun
  have hu := (of_decide_eq_true hspares).mono
    (Q := fun c e _ => Undisturbed 1 c e) fun _ _ _ h => h.undisturbed
  exact ⟨run, hlabels, hr, hback, hid_current oneCpuShared_start hr hu⟩

theorem stale_hid : SharedStart 1 oneCpuShared ∧ ∃ run : List (Action × Shared),
    run.map Prod.fst = lateFree ∧ Along (ThreadStep 1) oneCpuShared run ∧
      ¬Along (fun c e _ => HidCurrent c e) oneCpuShared run := by
  obtain ⟨run, hrun, hb⟩ := ok_of_map (c := schedule 1 oneCpuShared lateFree)
    (f := fun run => (run.map Prod.fst,
      decide (Along (fun c e _ => HidCurrent c e) oneCpuShared run)))
    (b := (lateFree, false)) (by decide +kernel)
  obtain ⟨hlabels, hstale⟩ := Prod.mk.inj hb
  exact ⟨oneCpuShared_start, run, hlabels, schedule_along hrun, of_decide_eq_false hstale⟩

end Csc469.Alloc
