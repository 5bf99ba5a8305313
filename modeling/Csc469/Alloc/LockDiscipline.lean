import Csc469.Alloc.Accesses
import Csc469.Alloc.MixedRuns

/-! Which locks `mm_malloc` and `mm_free` hold when they write. -/
namespace Csc469.Alloc

open Execution Monitor Linked Bitmap

variable {n h k cpu sz id old : Nat} {s t : State} {S H : Finset Nat} {loc : Nat → Bin}
  {L : Bin → List Nat} {a b p sb y : Nat} {o d : Bin} {live held : List Nat} {useFirst : Bool}
  {r : Option Nat}

/-- The locks the calling thread holds. A heap is written under its own lock, and a superblock
under the locks of the heaps it belongs to before and after the write. -/
def lockMonitor : Monitor Access (List Nat) where
  allows held
    | .heap h => h ∈ held
    | .superblock _ before after => (∀ h, before = some h → h ∈ held) ∧ after ∈ held
    | _ => True
  next held
    | .lock h => h :: held
    | .unlock h => held.filter (· ≠ h)
    | _ => held

instance : (held : List Nat) → (e : Access) → Decidable (lockMonitor.allows held e)
  | held, .heap h => inferInstanceAs (Decidable (h ∈ held))
  | held, .superblock _ none after =>
    decidable_of_iff (after ∈ held) ⟨fun h => ⟨by rintro h ⟨⟩, h⟩, fun h => h.2⟩
  | held, .superblock _ (some before) after =>
    decidable_of_iff (before ∈ held ∧ after ∈ held)
      ⟨fun h => ⟨by rintro b ⟨⟩; exact h.1, h.2⟩, fun h => ⟨h.1 before rfl, h.2⟩⟩
  | _, .lock _ | _, .unlock _ | _, .sbrk _ => inferInstanceAs (Decidable True)

/-- What makes `mm_free` hand a superblock of heap `h` back. -/
def TooEmpty (s : State) (h : Nat) : Prop :=
  h ≠ 0 ∧ (s.heapTable h).used < (s.heapTable h).allocated.tdiv fullnessDenominator ∧
    (s.heapTable h).used < (s.heapTable h).allocated - minSuperblocks * sbSize

/-- Freeing a block of superblock `page` makes its heap, whose lock is free, too empty. -/
def HandsBack (s : State) (page : Nat) : Prop :=
  let b := s.superblock page
  let h := s.heapTable b.heapId
  b.heapId ≠ 0 ∧ h.lock = false ∧
    h.used - b.blockSize < h.allocated.tdiv fullnessDenominator ∧
    h.used - b.blockSize < h.allocated - minSuperblocks * sbSize

namespace Recorded

section Rules
variable {Q : State → Unit → List Nat → Prop}

theorem meets_read {Q : State → State → List Nat → Prop} :
    lockMonitor.Meets held read s Q ↔ Q s s held := by
  rw [read, meets_ask]
  constructor
  · exact fun h => h s rfl
  · rintro h a ⟨⟩
    exact h

theorem meets_lock : lockMonitor.Meets held (lock h) s Q ↔
    ∀ t, lockHeap s h = .ok t → Q t () (h :: held) := by
  cases hl : lockHeap s h with
  | error e => simp [lock, meets_act, hl, Except.map]
  | ok t =>
    rw [lock, meets_act_ok (t := t) (a := ()) (by rw [hl]; rfl)]
    simp [Accepts, lockMonitor, after]

theorem meets_unlock : lockMonitor.Meets held (unlock h) s Q ↔
    Q (unlockHeap s h) () (held.filter (· ≠ h)) := by
  rw [unlock, meets_act_ok rfl]
  simp [Accepts, lockMonitor, after]

theorem meets_setHeap {f : Heap → Heap} : lockMonitor.Meets held (setHeap h f) s Q ↔
    h ∈ held ∧ Q (s.setHeap h f) () held := by
  rw [setHeap, meets_act_ok rfl]
  simp [Accepts, lockMonitor, after]

theorem meets_setBin {v : Option Nat} : lockMonitor.Meets held (setBin o v) s Q ↔
    o.heap ∈ held ∧ Q (s.setBin o v) () held := by
  rw [setBin, meets_act_ok rfl]
  simp [Accepts, lockMonitor, after]

theorem meets_setSb {f : Superblock → Superblock} : lockMonitor.Meets held (setSb a f) s Q ↔
    ((s.superblock a).heapId ∈ held ∧ (f (s.superblock a)).heapId ∈ held) ∧
      Q (s.setSb a f) () held := by
  rw [setSb, meets_act_ok rfl]
  simp [Accepts, lockMonitor, after]

theorem meets_onSb {v : Option Nat} {f : Superblock → Superblock}
    (hf : ∀ b, (f b).heapId = b.heapId) :
    lockMonitor.Meets held (onSb v f) s Q ↔
      (∀ y, v = some y → (s.superblock y).heapId ∈ held) ∧ Q (s.onSb v f) () held := by
  cases v with
  | none => simp [onSb, meets_pure, State.onSb]
  | some a => simp [onSb, meets_setSb, State.onSb, hf]

theorem meets_setNextOf {v w : Option Nat} : lockMonitor.Meets held (setNextOf v o w) s Q ↔
    ((∀ y, v = some y → (s.superblock y).heapId ∈ held) ∧ (v = none → o.heap ∈ held)) ∧
      Q (s.setNextOf v o w) () held := by
  cases v with
  | none => simp [setNextOf, meets_setBin, State.setNextOf]
  | some a => simp [setNextOf, meets_setSb, State.setNextOf]

end Rules

/-! Superblocks lead to superblocks of the same heap. -/

/-- What superblocks of heap `h` are linked to, and what its bins hold, belongs to `h` too. -/
structure Kept (s : State) (S : Finset Nat) (h : Nat) : Prop where
  next : ∀ a ∈ S, (s.superblock a).heapId = h → ∀ y, s.next a = some y → (s.superblock y).heapId = h
  prev : ∀ a ∈ S, (s.superblock a).heapId = h → ∀ y, s.prev a = some y → (s.superblock y).heapId = h
  bin : ∀ b : Bin, b.heap = h → ∀ y, s.bin b = some y → (s.superblock y).heapId = h

theorem Kept.congr (hk : Kept s S h) (hn : t.next = s.next) (hp : t.prev = s.prev)
    (hb : t.bin = s.bin) (hi : ∀ a, (t.superblock a).heapId = (s.superblock a).heapId) :
    Kept t S h := by
  obtain ⟨h1, h2, h3⟩ := hk
  refine ⟨?_, ?_, ?_⟩ <;> simpa only [hn, hp, hb, hi]

theorem kept_of_placed (hp : Placed n s S loc L) (hh : h ≤ n) : Kept s S h := by
  have hlist : ∀ a ∈ S, (s.superblock a).heapId = h →
      DList s.next s.prev (s.bin (loc a)) (L (loc a)) ∧ ∀ y ∈ L (loc a),
        (s.superblock y).heapId = h := by
    intro a ha hah
    refine ⟨hp.family.dlist _ (hp.le a ha), fun y hy => ?_⟩
    obtain ⟨hyS, hloc⟩ := (hp.mem _ (hp.le a ha) y).mp hy
    rw [hp.heapId y hyS, hloc, ← hp.heapId a ha, hah]
  refine ⟨fun a ha hah y hy => ?_, fun a ha hah y hy => ?_, fun b hb y hy => ?_⟩
  · obtain ⟨hd, hall⟩ := hlist a ha hah
    exact hall y (hd.next_mem (hp.mem_list ha) hy).1
  · obtain ⟨hd, hall⟩ := hlist a ha hah
    exact hall y (hd.prev_mem (hp.mem_list ha) hy).1
  · have hle : b.heap ≤ n := by rwa [hb]
    rw [(hp.family.dlist b hle).head_eq] at hy
    obtain ⟨hyS, hloc⟩ := (hp.mem b hle y).mp (List.mem_of_head? hy)
    rw [hp.heapId y hyS, hloc, hb]

theorem meets_transferBins (ha : sb ∈ S) (hsb : (s.superblock sb).heapId = o.heap)
    (ho : o.heap ∈ held) (hd : d.heap ∈ held) (hko : Kept s S o.heap) (hkd : Kept s S d.heap) :
    lockMonitor.Meets held (transferBins sb o d) s fun _ _ k => k = held := by
  simp only [transferBins, meets_bind, meets_read, meets_setNextOf, meets_setSb, meets_setBin]
  rw [meets_onSb (by intro; rfl)]
  generalize hu : s.onSb (s.superblock sb).next
    (fun b => { b with prev := (s.superblock sb).prev }) = u
  have hsame : SameContent s u := hu ▸ onSb_same (by intro; rfl)
  have hnext : (u.superblock sb).next = s.next sb := by
    rw [← hu, State.onSb_superblock]
    split <;> rfl
  have hprev : (u.superblock sb).prev = s.prev sb := by
    rw [← hu, State.onSb_superblock]
    split <;> rfl
  have hbin : u.bin d = s.bin d := by rw [← hu, State.onSb_bin]
  rw [hnext, hprev]
  generalize hv : u.setNextOf (s.prev sb) o (s.next sb) = v
  have hsame' : SameContent s v := hsame.trans (hv ▸ setNextOf_same)
  have hid : ∀ a, (v.superblock a).heapId = (s.superblock a).heapId :=
    fun a => (core_eq (hsame'.core a)).2.2.2
  have hhead : ∀ y, v.bin d = some y → (v.superblock y).heapId ∈ held := by
    intro y hy
    rw [hid]
    rw [← hv, setNextOf_links.2.2, hbin] at hy
    split at hy
    · rwa [hko.next sb ha hsb y hy]
    · rwa [hkd.bin d rfl y hy]
  refine ⟨fun y hy => ?_, ⟨fun y hy => ?_, fun _ => ho⟩, ?_⟩
  · rwa [hko.next sb ha hsb y hy]
  · rwa [(core_eq (hsame.core y)).2.2.2, hko.prev sb ha hsb y hy]
  rw [meets_onSb (by intro; rfl)]
  refine ⟨hhead, ?_⟩
  generalize hw : v.onSb (v.bin d) (fun b => { b with prev := some sb }) = w
  have hsb' : (w.superblock sb).heapId ∈ held := by
    have hsame'' : SameContent v w := hw ▸ onSb_same (by intro; rfl)
    rwa [(core_eq (hsame''.core sb)).2.2.2, hid, hsb]
  refine ⟨⟨hsb', hsb'⟩, hd, ?_⟩
  split
  · simp only [meets_bind, meets_read, meets_setSb, meets_setHeap]
    refine ⟨⟨?_, hd⟩, ho, hd, trivial⟩
    simpa [State.setBin] using hsb'
  · rw [meets_pure]

/-- Moving a superblock to heap `d.heap` takes that heap's lock. -/
theorem mem_of_transferBins {Q : State → Unit → List Nat → Prop}
    (h : lockMonitor.Meets held (transferBins sb o d) s Q) : d.heap ∈ held := by
  simp only [transferBins, meets_bind, meets_read, meets_setNextOf, meets_setSb, meets_setBin] at h
  rw [meets_onSb (by intro; rfl), meets_onSb (by intro; rfl)] at h
  exact h.2.2.2.2.1

theorem meets_rebin {new : Nat} (ha : sb ∈ S) (hsb : (s.superblock sb).heapId = h)
    (hh : h ∈ held) (hk : Kept s S h) :
    lockMonitor.Meets held (rebin sb h id old new) s fun _ _ k => k = held := by
  unfold rebin
  split
  · exact meets_transferBins ha hsb hh hh hk hk
  · rw [meets_pure]

/-- A write to the blocks of `sb` and to its heap's `used` keeps every link. -/
theorem Kept.adjust (hk : Kept s S h) {f : Superblock → Superblock} {g : Heap → Heap}
    (hf : ∀ b, (f b).next = b.next ∧ (f b).prev = b.prev ∧ (f b).heapId = b.heapId)
    (hg : ∀ x, (g x).binFirst = x.binFirst) : Kept ((s.setSb a f).setHeap k g) S h := by
  refine hk.congr ?_ ?_ ?_ fun y => ?_
  · funext y
    by_cases hy : y = a <;> simp [State.next, hy, hf]
  · funext y
    by_cases hy : y = a <;> simp [State.prev, hy, hf]
  · funext b
    exact State.setHeap_bin hg
  · by_cases hy : y = a <;> simp [hy, hf]

theorem meets_takeBlock (hk : Kept s S (cpu + 1)) (ha : sb ∈ S)
    (hsb : (s.superblock sb).heapId = cpu + 1) (hh : cpu + 1 ∈ held) :
    lockMonitor.Meets held (takeBlock cpu sz sb useFirst old) s fun _ _ _ => True := by
  simp only [takeBlock, meets_bind, meets_read]
  split
  · rw [meets_pure]
    trivial
  · simp only [meets_bind, meets_setSb, meets_setHeap, meets_read]
    rw [hsb]
    refine ⟨⟨hh, hh⟩, hh, ?_⟩
    refine (meets_rebin ha ?_ hh ?_).mono ?_
    · simpa using hsb
    · exact hk.adjust (fun _ => ⟨rfl, rfl, rfl⟩) fun _ => rfl
    · rintro t - k rfl
      rw [meets_unlock, meets_pure]
      trivial

theorem meets_releaseBlock {page : Nat} (offset : Nat) (hk : Kept s S (s.superblock page).heapId)
    (ha : page ∈ S) (hh : (s.superblock page).heapId ∈ held) :
    lockMonitor.Meets held (releaseBlock page offset) s fun _ _ k => k = held := by
  simp only [releaseBlock, meets_bind, meets_read, meets_setSb, meets_setHeap]
  refine ⟨⟨hh, hh⟩, hh, ?_⟩
  refine meets_rebin ha ?_ hh (hk.adjust (fun _ => ⟨rfl, rfl, rfl⟩) fun _ => rfl)
  simp

/-- Without the global heap's lock nothing may be handed back. -/
theorem meets_trimHeap (hi : Shelved n s S live L) (hh : h ≤ n) (hheld : h ∈ held) :
    (lockMonitor.Meets held (trimHeap h) s fun _ _ _ => True) ↔ (TooEmpty s h → 0 ∈ held) := by
  simp only [trimHeap, meets_bind, meets_read]
  split
  · next h0 =>
    rw [meets_unlock]
    exact iff_of_true trivial fun hte => (hte.1 h0).elim
  · next h0 =>
    split
    · next hcond =>
      have hte : TooEmpty s h := ⟨h0, hcond⟩
      obtain ⟨sb, i, j, hb, ha, hsb⟩ := hi.handBack_isSome hh hcond.1
      simp only [hb, hte, true_implies, meets_bind]
      constructor
      · exact mem_of_transferBins
      · intro hg
        refine (meets_transferBins ha hsb hheld hg (kept_of_placed hi.placed hh)
          (kept_of_placed hi.placed (Nat.zero_le n))).mono ?_
        rintro t - k rfl
        rw [meets_unlock]
        trivial
    · next hcond =>
      rw [meets_unlock]
      exact iff_of_true trivial fun hte => (hcond hte.2).elim

theorem meets_newSuperblock {before : Option Nat} (h0 : 0 ∈ held)
    (hb : ∀ h, before = some h → h ∈ held) :
    lockMonitor.Meets held (newSuperblock before a k) s fun _ _ k => k = held := by
  have hwrite : ∀ u : State, lockMonitor.Meets held (.act (fun s => .ok (s.setSb a fun _ =>
      { blockSize := k
        blockMap := headerMap k
        usedBlocks := blocksUsed k
        heapId := 0
        prev := none
        next := none }, ())) fun _ _ => [.superblock a before 0]) u fun _ _ k => k = held := by
    intro u
    rw [meets_act_ok rfl]
    exact ⟨⟨⟨hb, h0⟩, trivial⟩, rfl⟩
  unfold newSuperblock
  by_cases hk : k < sizeofSuperblock * 2
  · simp only [hk, if_true, meets_bind, meets_silent, meets_setHeap]
    exact ⟨h0, hwrite _⟩
  · simp only [hk, if_false, meets_bind, meets_silent]
    exact hwrite _

theorem meets_sbrk {increment : Nat} :
    lockMonitor.Meets held (sbrk increment) s fun _ _ k => k = held := by
  simp only [sbrk, meets_bind]
  rw [meets_act]
  rintro u ⟨⟩ -
  refine ⟨trivial, ?_⟩
  rw [meets_act]
  rintro v r -
  refine ⟨⟨trivial, trivial⟩, ?_⟩
  rw [meets_silent, meets_pure]
  rfl

theorem meets_takeGlobal (hi : Shelved n s S live L) (h0 : 0 ∈ held) :
    lockMonitor.Meets held (takeGlobal sz) s fun _ _ k => k = held := by
  simp only [takeGlobal, meets_bind, meets_read, hi.no_empty]
  cases hb : s.bin ⟨0, sizeId sz, 1⟩ with
  | some sb => exact meets_pure.mpr rfl
  | none =>
    simp only [meets_bind]
    refine meets_sbrk.mono ?_
    rintro t r k rfl
    cases r with
    | none => exact meets_pure.mpr rfl
    | some sb =>
      simp only [meets_bind]
      refine (meets_newSuperblock h0 (by simp)).mono ?_
      rintro u - k rfl
      rw [meets_setBin, meets_setHeap, meets_pure]
      exact ⟨h0, h0, rfl⟩

/-- The last part of `mm_malloc`, once a superblock has come to its heap. -/
theorem meets_takeAcquired {S' : Finset Nat} {m : Nat → BitVec 8}
    (hacq : Acquired n s t S S' live cpu sz sb m) (hcpu : cpu < n) (hh : cpu + 1 ∈ held) :
    lockMonitor.Meets held (takeBlock cpu sz sb false 1) (unlockHeap t 0) fun _ _ _ => True := by
  obtain ⟨L, hi⟩ := hacq.inv
  have hbin := hacq.bin
  simp only [binOf, Bin.mk.injEq] at hbin
  exact meets_takeBlock (kept_of_placed (hi.congr unlockHeap_same).placed hcpu) hacq.mem hbin.1 hh

theorem meets_mallocSmall (hi : Shelved n s S live L) (hsz : sz ≤ 2048) (hcpu : cpu < n) :
    lockMonitor.Meets held (mallocSmall cpu sz) s fun _ _ _ => True := by
  simp only [mallocSmall, meets_bind, meets_lock]
  intro u hlock
  have hi1 := hi.congr (lockHeap_same hlock)
  have hown : cpu + 1 ∈ (cpu + 1) :: held := List.mem_cons_self ..
  rw [meets_ask]
  intro found hscan
  cases found with
  | some x =>
    obtain ⟨sb, useFirst, i⟩ := x
    obtain ⟨ha, hb, -⟩ := hi1.of_hit hcpu (scan_eq hi1 hcpu hscan).symm
    simp only [binOf, Bin.mk.injEq] at hb
    exact meets_takeBlock (kept_of_placed hi1.placed hcpu) ha hb.1 hown
  | none =>
    simp only [meets_bind, meets_lock]
    intro v hlock'
    have hi2 := hi1.congr (lockHeap_same hlock')
    have hown' : cpu + 1 ∈ 0 :: (cpu + 1) :: held := List.mem_cons_of_mem 0 hown
    have hglobal : 0 ∈ 0 :: (cpu + 1) :: held := List.mem_cons_self ..
    have hafter : cpu + 1 ∈ (0 :: (cpu + 1) :: held).filter (· ≠ 0) := by simp
    refine (meets_takeGlobal hi2 hglobal).result.mono ?_
    rintro t target k ⟨ht, rfl⟩
    rw [result_takeGlobal] at ht
    -- the superblock comes from heap 0, with both locks held
    have hmove : ∀ {sb o S'} {L' : Bin → List Nat} {loc m}, Placed n t S' loc L' → sb ∈ S' →
        (t.superblock sb).heapId = 0 → o.heap = 0 →
        Acquired n v (Alloc.transferBins t sb o ⟨cpu + 1, sizeId sz, 1⟩) S S' live cpu sz sb m →
        lockMonitor.Meets (0 :: (cpu + 1) :: held) (transferBins sb o ⟨cpu + 1, sizeId sz, 1⟩) t
          fun t _ k => lockMonitor.Meets k (unlock 0) t fun t _ k =>
            lockMonitor.Meets k (takeBlock cpu sz sb false 1) t fun _ _ _ => True := by
      intro sb o S' L' loc m hp ha hsb ho hacq
      refine (meets_transferBins ha (hsb.trans ho.symm) (by rwa [ho]) hown' ?_
        (kept_of_placed (h := cpu + 1) hp hcpu)).result.mono ?_
      · rw [ho]
        exact kept_of_placed hp (Nat.zero_le n)
      · rintro w x k ⟨hw, rfl⟩
        rw [result_transferBins] at hw
        cases hw
        rw [meets_unlock]
        exact meets_takeAcquired hacq hcpu hafter
    rcases takeGlobal_cases hi2 hsz ht with ⟨rfl, -⟩ | ⟨sb, hb, rfl, rfl⟩ | ⟨-, rfl, hg⟩
    · exact meets_pure.mpr trivial
    · obtain ⟨ha, hbin⟩ := hi2.of_bin (o := ⟨0, sizeId sz, 1⟩) (Nat.zero_le n) hb
      simp only [binOf, Bin.mk.injEq] at hbin
      simp only [meets_bind]
      exact hmove hi2.placed ha hbin.1 rfl (hi2.acquired hcpu hb)
    · simp only [meets_bind]
      exact hmove (hg.placed hi2) (Finset.mem_insert_self _ S) (by rw [hg.new]) rfl
        (hg.acquired hi2 hsz hcpu)

theorem meets_freeSmall (hi : Shelved n s S live L) (hp : p ∈ live) :
    (lockMonitor.Meets held (freeSmall (pageOf p) (p % pgSize)) s fun _ _ _ => True) ↔
      (HandsBack s (pageOf p) → 0 ∈ held) := by
  have ha := hi.live.page p hp
  have hle : (s.superblock (pageOf p)).heapId ≤ n := hi.placed.le _ ha
  simp only [freeSmall, meets_bind, meets_read, meets_lock]
  by_cases hl : (s.heapTable (s.superblock (pageOf p)).heapId).lock = true
  · refine iff_of_true (fun t ht => ?_) fun hb => by simp [HandsBack, hl] at hb
    rw [lockHeap, if_pos hl] at ht
    cases ht
  rw [Bool.not_eq_true] at hl
  generalize ht : s.setHeap (s.superblock (pageOf p)).heapId (fun hp => { hp with lock := true }) = t
  have hlock : lockHeap s (s.superblock (pageOf p)).heapId = .ok t := by simp [lockHeap, hl, ht]
  have hsame := lockHeap_same hlock
  have hi1 := hi.congr hsame
  generalize hh : (s.superblock (pageOf p)).heapId = h at *
  have hth : (t.superblock (pageOf p)).heapId = h := by rw [hsame.superblock, hh]
  have hown : h ∈ h :: held := List.mem_cons_self ..
  obtain ⟨⟨L', hi2⟩, -⟩ := releaseBlock_spec hi1 hp
  have hrel := meets_releaseBlock (p % pgSize) (hth ▸ kept_of_placed hi1.placed hle) ha
    (by rwa [hth] : (t.superblock (pageOf p)).heapId ∈ h :: held)
  have hiff : (∀ u, lockHeap s h = .ok u → lockMonitor.Meets (h :: held)
      (releaseBlock (pageOf p) (p % pgSize)) u fun u _ k =>
        lockMonitor.Meets k (trimHeap h) u fun _ _ _ => True) ↔
      lockMonitor.Meets (h :: held) (trimHeap h) (Alloc.releaseBlock t (pageOf p) (p % pgSize))
        fun _ _ _ => True := by
    rw [← hrel.bind_iff (f := fun _ => trimHeap h) result_releaseBlock, meets_bind, hlock]
    simp
  rw [hiff, meets_trimHeap hi2 hle hown]
  obtain ⟨hused, hall⟩ := releaseBlock_counters (p % pgSize) hth
  rw [TooEmpty, hused, hall, hsame.used, hsame.allocated, hsame.superblock]
  simp only [HandsBack, hh, hl, true_and]
  constructor
  · rintro hte ⟨h0, hcond⟩
    exact (List.mem_cons.mp (hte ⟨h0, hcond⟩)).resolve_left (Ne.symm h0)
  · rintro hb ⟨h0, hcond⟩
    exact List.mem_cons_of_mem _ (hb ⟨h0, hcond⟩)

/-! Large chunks are linked under the lock of the heap whose bin is written, whatever their
lists look like. -/

theorem meets_setNextChunk {v w : Option Nat} (hh : h ∈ held) :
    lockMonitor.Meets held (setNextChunk v h w) s fun _ _ k => k = held := by
  cases v with
  | none => exact meets_setHeap.mpr ⟨hh, rfl⟩
  | some a => exact meets_silent.mpr rfl

theorem meets_relink {newNext newPrev : Option Nat} (hh : h ∈ held) :
    lockMonitor.Meets held (relink h a newNext newPrev) s fun _ _ k => k = held := by
  simp only [relink, meets_bind, meets_read]
  refine (meets_setNextChunk hh).mono ?_
  rintro t - k rfl
  rw [meets_silent]

theorem meets_carve {pages : Nat} (h0 : 0 ∈ held) :
    lockMonitor.Meets held (carve a pages) s fun _ _ k => k = held := by
  simp only [carve, meets_bind, meets_read]
  split
  · simp only [meets_bind, meets_silent]
    exact meets_relink h0
  · exact meets_relink h0

theorem meets_pushLarge (hh : h ∈ held) :
    lockMonitor.Meets held (pushLarge h a) s fun _ _ k => k = held := by
  simp only [pushLarge, meets_bind, meets_silent, meets_setHeap]
  exact ⟨hh, trivial⟩

theorem meets_takeLarge {pages : Nat} :
    lockMonitor.Meets held (takeLarge pages) s fun _ _ _ => True := by
  simp only [takeLarge, meets_bind, meets_lock]
  rintro t -
  rw [meets_ask]
  rintro found -
  cases found with
  | some x =>
    simp only [meets_bind]
    refine (meets_carve (List.mem_cons_self ..)).mono ?_
    rintro u - k -
    rw [meets_unlock, meets_pure]
    trivial
  | none =>
    simp only [meets_bind, meets_unlock]
    exact meets_sbrk.mono fun _ _ _ _ => trivial

theorem meets_mallocLarge : lockMonitor.Meets held (mallocLarge cpu sz) s fun _ _ _ => True := by
  simp only [mallocLarge]
  split
  · rw [meets_ask]
    simp
  · simp only [meets_bind]
    refine meets_takeLarge.mono ?_
    rintro t target k -
    rw [meets_lock]
    rintro u -
    cases target with
    | none =>
      rw [meets_ask]
      simp
    | some a =>
      simp only [meets_bind, handOutLarge]
      refine (meets_pushLarge (List.mem_cons_self ..)).mono ?_
      rintro v - k -
      rw [meets_silent, meets_silent, meets_unlock, meets_pure]
      trivial

theorem meets_freeLarge : lockMonitor.Meets held (freeLarge a) s fun _ _ _ => True := by
  simp only [freeLarge, meets_bind, meets_read, meets_lock]
  rintro t -
  refine (meets_relink (List.mem_cons_self ..)).mono ?_
  rintro u - k -
  rw [meets_unlock]
  rintro v -
  refine (meets_pushLarge (List.mem_cons_self ..)).mono ?_
  rintro w - k -
  rw [meets_unlock]
  trivial

end Recorded

/-- What a call does, in order, also when it never returns. -/
def accesses (s : State) : Op → List Access
  | .malloc cpu sz => (Recorded.mmMalloc cpu sz).trace s
  | .free p => (Recorded.mmFree p).trace s

/-- The call is the program's to make. -/
def Op.Legal (n : Nat) (c : Config) : Op → Prop
  | .malloc cpu _ => cpu < n
  | .free p => p ∈ c.live

/-- The call hands a superblock back to the global heap. -/
def Op.HandsBack (s : State) : Op → Prop
  | .malloc _ _ => False
  | .free p => s.type (pageOf p) = 0 ∧ Alloc.HandsBack s (pageOf p)

/-- In every reachable state a call writes under the locks it should hold exactly when it hands
no superblock back, or already holds the global heap's lock. -/
theorem locks_held_iff {c c' : Config} {op : Op} (hc : Started n c) (hr : Reaches (Step n) c c')
    (hop : op.Legal n c') (held : List Nat) :
    lockMonitor.Accepts held (accesses c'.state op) ↔ (op.HandsBack c'.state → 0 ∈ held) := by
  obtain ⟨S, H, L, hi⟩ := mixedOk_reaches hc hr
  cases op with
  | malloc cpu sz =>
    refine iff_of_true ?_ False.elim
    simp only [accesses, Recorded.mmMalloc]
    split
    · exact Recorded.meets_mallocLarge.1
    · next hsmall =>
      have hsz : sz ≤ 2048 := Nat.le_of_not_lt hsmall
      exact (Recorded.meets_mallocSmall hi.shelved hsz hop).1
  | free p =>
    simp only [accesses, Recorded.mmFree, Op.HandsBack]
    have hread : ∀ f : State → Recorded Unit,
        lockMonitor.Accepts held ((Recorded.read >>= f).trace c'.state) ↔
          lockMonitor.Meets held (f c'.state) c'.state fun _ _ _ => True := by
      intro f
      rw [← Recorded.meets_read (Q := fun t s k => lockMonitor.Meets k (f s) t fun _ _ _ => True),
        ← meets_bind]
      simp [Meets]
    rw [hread]
    by_cases h0 : c'.state.type (pageOf p) = 0
    · rw [if_neg (not_not.mpr h0), Recorded.meets_freeSmall hi.shelved (hi.mem_small hop h0)]
      simp [h0]
    · rw [if_pos h0]
      exact iff_of_true Recorded.meets_freeLarge fun hb => (h0 hb.1).elim

theorem locks_held_iff_oneCpu : ∃ run, calls 1 oneCpu [.malloc 0 100, .malloc 0 3000] = .ok run ∧
    ∀ x ∈ run, lockMonitor.Accepts [] (accesses x.2.state (.malloc 0 2000)) ↔
      ((Op.malloc 0 2000).HandsBack x.2.state → 0 ∈ ([] : List Nat)) := by
  obtain ⟨run, hrun, -, hr⟩ := along_of_trace (P := fun _ => True) (n := 1) (c := oneCpu)
    [.malloc 0 100, .malloc 0 3000] [.malloc 0 100 (some 16512), .malloc 0 3000 (some 20512)]
    (by decide +kernel) (fun _ _ => trivial)
  refine ⟨run, hrun, fun x hx => ?_⟩
  have hlegal : (Op.malloc 0 2000).Legal 1 x.2 := Nat.one_pos
  exact locks_held_iff oneCpu_started ((calls_along hrun).reaches x hx) hlegal []

/-- With a superblock of each class in the heap of one processor, freeing the largest block
hands a superblock back, without the global heap's lock. -/
theorem handed_back_unlocked : Started 1 oneCpu ∧ ∃ c, Reaches (Step 1) oneCpu c ∧
    (Op.free 51200).Legal 1 c ∧ ¬lockMonitor.Accepts [] (accesses c.state (.free 51200)) := by
  obtain ⟨run, hrun, hlast⟩ := ok_of_map
    (c := calls 1 oneCpu [.malloc 0 8, .malloc 0 16, .malloc 0 32, .malloc 0 64, .malloc 0 128,
      .malloc 0 256, .malloc 0 512, .malloc 0 1024, .malloc 0 2048])
    (f := fun run => decide (51200 ∈ (lastState oneCpu run).live) &&
      !decide (lockMonitor.Accepts [] (accesses (lastState oneCpu run).state (.free 51200))))
    (b := true) (by decide +kernel)
  simp only [Bool.and_eq_true, decide_eq_true_eq, Bool.not_eq_true', decide_eq_false_iff_not]
    at hlast
  exact ⟨oneCpu_started, _, (calls_along hrun).reaches_last, hlast.1, hlast.2⟩

end Csc469.Alloc
