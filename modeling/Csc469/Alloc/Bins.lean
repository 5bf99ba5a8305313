import Csc469.Alloc.Blocks

/-! What `transfer_bins` does to the bins, their lists, and the heap counters. -/
namespace Csc469.Alloc

open Linked

/-- A header without its links. -/
def Superblock.core (b : Superblock) : Superblock := { b with prev := none, next := none }

/-- A heap without its superblock bins. -/
def Heap.core (h : Heap) : Heap := { h with binFirst := fun _ _ => none }

namespace State

def next (s : State) (a : Nat) : Option Nat := (s.superblock a).next
def prev (s : State) (a : Nat) : Option Nat := (s.superblock a).prev

/-- Everything outside superblocks and heaps. -/
def rest (s : State) : Nat × Nat × Nat × Bool × (Nat → Nat) × (Nat → Node) :=
  (s.dsegLo, s.dsegHi, s.dsegSize, s.sbrkLock, s.type, s.node)

end State

variable {s t : State} {sb a y : Nat} {o d b : Bin} {h : Nat}

/-- The two states differ in superblock links and bin heads only. -/
structure SameContent (s t : State) : Prop where
  core : ∀ a, (t.superblock a).core = (s.superblock a).core
  heap : ∀ h, (t.heapTable h).core = (s.heapTable h).core
  rest : t.rest = s.rest

theorem SameContent.trans {u : State} (h : SameContent s t) (h' : SameContent t u) :
    SameContent s u :=
  ⟨fun a => (h'.core a).trans (h.core a), fun i => (h'.heap i).trans (h.heap i),
    h'.rest.trans h.rest⟩

theorem setSb_same {f : Superblock → Superblock} (hf : ∀ b, (f b).core = b.core) :
    SameContent s (s.setSb a f) := by
  refine ⟨fun c => ?_, fun _ => rfl, rfl⟩
  by_cases hc : c = a
  · subst hc
    simp [hf]
  · simp [hc]

theorem onSb_same {p : Option Nat} {f : Superblock → Superblock}
    (hf : ∀ b, (f b).core = b.core) : SameContent s (s.onSb p f) := by
  cases p with
  | none => exact ⟨fun _ => rfl, fun _ => rfl, rfl⟩
  | some a => exact setSb_same hf

theorem setBin_same {p : Option Nat} : SameContent s (s.setBin b p) := by
  refine ⟨fun _ => rfl, fun i => ?_, rfl⟩
  by_cases hi : i = b.heap
  · subst hi
    simp [State.setBin, Heap.core]
  · simp [State.setBin, hi]

theorem setNextOf_same {p v : Option Nat} : SameContent s (s.setNextOf p b v) := by
  cases p with
  | none => exact setBin_same
  | some a => exact setSb_same (f := fun sb => { sb with next := v }) fun _ => rfl

theorem setNextOf_links {p v : Option Nat} :
    (∀ y, (s.setNextOf p b v).next y = if p = some y then v else s.next y) ∧
    (∀ y, (s.setNextOf p b v).prev y = s.prev y) ∧
    (∀ d, (s.setNextOf p b v).bin d = if p = none ∧ d = b then v else s.bin d) := by
  cases p with
  | none => exact ⟨fun y => rfl, fun y => rfl, fun d => by simp [State.setNextOf, State.setBin_bin]⟩
  | some a =>
    refine ⟨fun y => ?_, fun y => ?_, fun d => by simp [State.setNextOf, State.bin]⟩ <;>
      rcases eq_or_ne y a with rfl | hy <;>
      simp [State.setNextOf, State.next, State.prev, *, Ne.symm]

theorem unlinkSb_same : SameContent s (unlinkSb s sb o) :=
  (onSb_same (by intro; rfl)).trans setNextOf_same

theorem unlinkSb_bin : (unlinkSb s sb o).bin b =
    if s.prev sb = none ∧ b = o then s.next sb else s.bin b := by
  have hlinks : ((s.onSb (s.superblock sb).next fun b =>
      { b with prev := (s.superblock sb).prev }).superblock sb).prev = s.prev sb ∧
      ((s.onSb (s.superblock sb).next fun b =>
      { b with prev := (s.superblock sb).prev }).superblock sb).next = s.next sb := by
    rw [State.onSb_superblock]
    split <;> exact ⟨rfl, rfl⟩
  simp only [unlinkSb, hlinks]
  rw [setNextOf_links.2.2, State.onSb_bin]

theorem unlinkSb_links (hn : s.next sb ≠ some sb) :
    (∀ y, (unlinkSb s sb o).next y = if s.prev sb = some y then s.next sb else s.next y) ∧
    ∀ y, (unlinkSb s sb o).prev y = if s.next sb = some y then s.prev sb else s.prev y := by
  simp only [State.next] at hn
  simp only [unlinkSb]
  obtain ⟨hnx, hpv, -⟩ := setNextOf_links (b := o)
    (s := s.onSb (s.superblock sb).next fun b => { b with prev := (s.superblock sb).prev })
    (p := s.prev sb) (v := s.next sb)
  simp only [State.onSb_superblock, if_neg hn]
  refine ⟨fun y => (hnx y).trans ?_, fun y => (hpv y).trans ?_⟩
  · by_cases h : s.next sb = some y <;> simp_all [State.next]
  · by_cases h : s.next sb = some y <;> simp_all [State.prev, State.next]

theorem pushSb_same : SameContent s (pushSb s sb d) :=
  ((onSb_same (by intro; rfl)).trans (setSb_same (by intro; rfl))).trans setBin_same

theorem pushSb_bin : (pushSb s sb d).bin b = if b = d then some sb else s.bin b := by
  rw [pushSb, State.setBin_bin]
  split
  · rfl
  · exact State.onSb_bin

theorem pushSb_links (hb : s.bin d ≠ some sb) :
    (∀ y, (pushSb s sb d).next y = if y = sb then s.bin d else s.next y) ∧
    ∀ y, (pushSb s sb d).prev y =
      if y = sb then none else if s.bin d = some y then some sb else s.prev y := by
  simp only [State.next, State.prev, pushSb, State.onSb_bin]
  refine ⟨fun y => ?_, fun y => ?_⟩
  · by_cases hy : y = sb <;> simp [State.setBin, hy, hb, apply_ite Superblock.next]
  · by_cases hy : y = sb <;> simp [State.setBin, hy, apply_ite Superblock.prev]

/-- The bytes a superblock adds to its heap's `used`. -/
def usedBytes (b : Superblock) : Int := b.usedBlocks * b.blockSize

/-- The lists after `transfer_bins`. -/
def move (L : Bin → List Nat) (sb : Nat) (o d : Bin) : Bin → List Nat :=
  let L' := Function.update L o ((L o).erase sb)
  Function.update L' d (sb :: L' d)

variable {K : Bin → Prop} {L : Bin → List Nat}

theorem family_relink (f : Family K s.next s.prev s.bin L) (ho : K o) (hd : K d)
    (hx : sb ∈ L o) (ht : t = pushSb (unlinkSb s sb o) sb d) :
    Family K t.next t.prev t.bin (move L sb o d) := by
  have dl := f.dlist o ho
  have hn : s.next sb ≠ some sb := fun he => (dl.next_mem hx he).2 rfl
  obtain ⟨hun, hup⟩ := unlinkSb_links (o := o) hn
  have hub : ∀ b, (unlinkSb s sb o).bin b =
      if s.prev sb = none ∧ b = o then s.next sb else s.bin b := fun _ => unlinkSb_bin
  have f' := f.unlink ho hx (fun y _ => hun y) (fun y _ => hup y)
    (by simpa using hub o) (fun j hj => by simpa [hj] using hub j)
  -- the unlinked superblock is in no list any more, so it heads none
  have hout : ∀ j, K j → sb ∉ Function.update L o ((L o).erase sb) j := by
    intro j hj hm
    by_cases hjo : j = o
    · subst hjo
      rw [Function.update_self] at hm
      exact (List.Nodup.not_mem_erase dl.nodup) hm
    · rw [Function.update_of_ne hjo] at hm
      exact hjo (f.disjoint j o hj ho sb hm hx)
  have hhead : (unlinkSb s sb o).bin d ≠ some sb := by
    intro he
    exact hout d hd (List.mem_of_head? ((f'.dlist d hd).head_eq.symm.trans he))
  obtain ⟨hpn, hpp⟩ := pushSb_links hhead
  have hpb : ∀ b, (pushSb (unlinkSb s sb o) sb d).bin b =
      if b = d then some sb else (unlinkSb s sb o).bin b := fun _ => pushSb_bin
  subst ht
  exact f'.cons hd hout (by simpa using hpn sb) (by simpa using hpp sb)
    (fun y hy => by simpa [hy] using hpn y) (fun y hy => by simpa [hy] using hpp y)
    (by simpa using hpb d) (fun j hj => by simpa [hj] using hpb j)

theorem mem_move (f : Family K s.next s.prev s.bin L) (ho : K o) (hx : sb ∈ L o) (hb : K b) :
    a ∈ move L sb o d b ↔ (a = sb ∧ b = d) ∨ (a ≠ sb ∧ a ∈ L b) := by
  have hnd := (f.dlist o ho).nodup
  have hL' : a ∈ Function.update L o ((L o).erase sb) b ↔ a ≠ sb ∧ a ∈ L b := by
    by_cases hbo : b = o
    · subst hbo
      rw [Function.update_self, hnd.mem_erase_iff]
    · rw [Function.update_of_ne hbo]
      refine ⟨fun hm => ⟨?_, hm⟩, fun hm => hm.2⟩
      rintro rfl
      exact hbo (f.disjoint b o hb ho a hm hx)
  simp only [move]
  by_cases hbd : b = d
  · subst hbd
    rw [Function.update_self, List.mem_cons, hL']
    simp
  · rw [Function.update_of_ne hbd, hL']
    simp [hbd]

theorem core_eq {b c : Superblock} (h : b.core = c.core) :
    b.blockSize = c.blockSize ∧ b.blockMap = c.blockMap ∧ b.usedBlocks = c.usedBlocks ∧
      b.heapId = c.heapId := by
  simp only [Superblock.core, Superblock.mk.injEq] at h
  exact ⟨h.1, h.2.1, h.2.2.1, h.2.2.2.1⟩

theorem heap_core_eq {b c : Heap} (h : b.core = c.core) :
    b.lock = c.lock ∧ b.allocated = c.allocated ∧ b.used = c.used ∧ b.binLarge = c.binLarge := by
  simp only [Heap.core, Heap.mk.injEq] at h
  exact ⟨h.1, h.2.1, h.2.2.1, h.2.2.2.1⟩

/-- `transfer_bins` keeps every superblock's blocks, sets the heap of `sb`, and moves its
bytes from one heap's counters to the other's. -/
structure Transferred (s t : State) (sb : Nat) (o d : Bin) : Prop where
  content : ∀ a, (t.superblock a).blockSize = (s.superblock a).blockSize ∧
    (t.superblock a).blockMap = (s.superblock a).blockMap ∧
    (t.superblock a).usedBlocks = (s.superblock a).usedBlocks
  heapId : ∀ a, (t.superblock a).heapId = if a = sb then d.heap else (s.superblock a).heapId
  used : ∀ h, (t.heapTable h).used = (s.heapTable h).used
    + (if h = d.heap then usedBytes (s.superblock sb) else 0)
    - (if h = o.heap then usedBytes (s.superblock sb) else 0)
  allocated : ∀ h, (t.heapTable h).allocated = (s.heapTable h).allocated
    + (if h = d.heap then (sbSize : Int) else 0) - (if h = o.heap then (sbSize : Int) else 0)
  lock : ∀ h, (t.heapTable h).lock = (s.heapTable h).lock
  binLarge : ∀ h, (t.heapTable h).binLarge = (s.heapTable h).binLarge
  rest : t.rest = s.rest

theorem transferBins_spec (ho : (s.superblock sb).heapId = o.heap) :
    Transferred s (transferBins s sb o d) sb o d ∧
    (transferBins s sb o d).next = (pushSb (unlinkSb s sb o) sb d).next ∧
    (transferBins s sb o d).prev = (pushSb (unlinkSb s sb o) sb d).prev ∧
    (transferBins s sb o d).bin = (pushSb (unlinkSb s sb o) sb d).bin := by
  have hsame : SameContent s (pushSb (unlinkSb s sb o) sb d) := unlinkSb_same.trans pushSb_same
  have hc := fun a => core_eq (hsame.core a)
  have hh := fun h => heap_core_eq (hsame.heap h)
  unfold transferBins
  generalize pushSb (unlinkSb s sb o) sb d = u at hsame hc hh ⊢
  by_cases hd : d.heap = o.heap
  · rw [if_neg (not_not.mpr hd)]
    refine ⟨⟨fun a => ⟨(hc a).1, (hc a).2.1, (hc a).2.2.1⟩, fun a => ?_, fun h => ?_, fun h => ?_,
      fun h => (hh h).1, fun h => (hh h).2.2.2, hsame.rest⟩, rfl, rfl, rfl⟩
    · rw [(hc a).2.2.2]
      split
      · next he => rw [he, ho, hd]
      · rfl
    · rw [(hh h).2.2.1, hd]
      omega
    · rw [(hh h).2.1, hd]
      omega
  · rw [if_pos hd]
    have hbytes : ((u.setSb sb fun b => { b with heapId := d.heap }).superblock sb).usedBlocks *
        ((u.setSb sb fun b => { b with heapId := d.heap }).superblock sb).blockSize =
        usedBytes (s.superblock sb) := by
      simp [usedBytes, (hc sb).1, (hc sb).2.2.1]
    simp only [hbytes]
    refine ⟨⟨fun a => ?_, fun a => ?_, fun h => ?_, fun h => ?_, fun h => ?_, fun h => ?_,
      hsame.rest⟩, ?_, ?_, ?_⟩
    · by_cases ha : a = sb <;> simp [ha, hc]
    · by_cases ha : a = sb <;> simp [ha, hc]
    · by_cases h1 : h = d.heap <;> by_cases h2 : h = o.heap <;>
        simp_all
    · by_cases h1 : h = d.heap <;> by_cases h2 : h = o.heap <;>
        simp_all
    · by_cases h1 : h = d.heap <;> by_cases h2 : h = o.heap <;> simp_all
    · by_cases h1 : h = d.heap <;> by_cases h2 : h = o.heap <;> simp_all
    · funext y
      by_cases hy : y = sb <;> simp [State.next, hy]
    · funext y
      by_cases hy : y = sb <;> simp [State.prev, hy]
    · funext b
      by_cases h1 : b.heap = d.heap <;> by_cases h2 : b.heap = o.heap <;>
        simp_all [State.bin]

end Csc469.Alloc
