import Csc469.Alloc.SmallCalls

/-! Every run of small requests: block maps, bins and counters. -/
namespace Csc469.Alloc

open Linked Bitmap Execution

variable {n : Nat} {c d : Config} {e : Event} {L : Bin → List Nat}

/-- The invariant of small traffic, for some lists. -/
def SmallOk (n : Nat) (c : Config) : Prop := ∃ L, SmallInv n c.state c.live L

theorem superblocks_started (hc : Started n c) : superblocks n c.state = ∅ := by
  rw [superblocks, Finset.filter_eq_empty_iff]
  intro a ha
  have := Finset.mem_Icc.mp ha
  have := hc.fresh.hi
  omega

theorem smallOk_started (hc : Started n c) : SmallOk n c := by
  have hf := hc.fresh
  have hS := superblocks_started hc
  have hdvd : pgSize ∣ firstPage n c.state := by
    exact Nat.dvd_add hf.lo_aligned (Nat.dvd_mul_right _ _)
  refine ⟨fun _ => [], ⟨⟨hf.lo_pos, hf.lo_aligned, by rwa [hf.hi], by rw [hf.hi]⟩, ?_, ?_, ?_⟩, ?_⟩
  · simp [hS]
  · simp [hS]
  · rw [hc.live]
    exact ⟨by simp, by simp, List.Pairwise.nil⟩
  · refine ⟨⟨fun b hb => ?_, by simp⟩, by simp [hS], by simp [hS], by simp [hS],
      fun h hh => by simp [hS, (hf.heap h hh).1], fun h hh => by simp [hS, (hf.heap h hh).2.1]⟩
    have hb0 : c.state.bin b = none := (hf.heap b.heap hb).2.2.2 b.cls b.full
    rw [hb0]
    exact DList.nil

theorem mmMalloc_small {s : State} {cpu sz : Nat} (hsz : sz ≤ sbSize / 2) :
    mmMalloc s cpu sz = mallocSmall s cpu sz := if_neg (Nat.not_lt.mpr hsz)

theorem SmallInv.mmFree_eq {s : State} {live : List Nat} {p : Nat} (hi : SmallInv n s live L)
    (hp : p ∈ live) : mmFree s p = freeSmall s (pageOf p) (p % pgSize) :=
  if_neg (not_not.mpr (hi.type _ (hi.live.page p hp)))

theorem smallOk_step (hc : SmallOk n c) (hs : SmallStep n c e d) : SmallOk n d := by
  obtain ⟨L, hi⟩ := hc
  obtain ⟨hstep, hsmall⟩ := hs
  cases hstep with
  | malloc hcpu hsz hm =>
    rw [mmMalloc_small hsmall] at hm
    rcases mallocSmall_spec hi hsmall hcpu hm with ⟨rfl, _, hinv, _⟩ | ⟨p, _, _, _, rfl, _, hg⟩
    · exact ⟨L, hinv⟩
    · exact hg.inv
  | free hp hf =>
    rw [hi.mmFree_eq hp] at hf
    exact (freeSmall_spec hi hp hf).1

/-- A small request that the program makes. -/
def Op.Small : Op → Prop
  | .malloc _ sz => sz ≤ sbSize / 2
  | .free _ => True

instance : (op : Op) → Decidable op.Small
  | .malloc _ sz => inferInstanceAs (Decidable (sz ≤ sbSize / 2))
  | .free _ => inferInstanceAs (Decidable True)

theorem call_small {op : Op} (h : call n c op = .ok (e, d)) (hs : op.Small) :
    SmallStep n c e d := by
  refine ⟨call_step h, ?_⟩
  cases op with
  | malloc cpu sz =>
    simp only [call] at h
    split at h
    · obtain ⟨⟨t, r⟩, -, h⟩ := ok_of_bind h
      cases h
      exact hs
    · cases h
  | free p =>
    simp only [call] at h
    split at h
    · obtain ⟨t, -, h⟩ := ok_of_bind h
      cases h
      trivial
    · cases h

theorem calls_small {ops : List Op} {run : List (Event × Config)} (h : calls n c ops = .ok run)
    (hs : ∀ op ∈ ops, op.Small) : Along (SmallStep n) c run := by
  induction ops generalizing c run with
  | nil =>
    cases h
    trivial
  | cons op ops ih =>
    obtain ⟨x, hx, h⟩ := ok_of_bind h
    obtain ⟨rest, hrest, h⟩ := ok_of_bind h
    cases h
    exact ⟨call_small hx (hs op (by simp)), ih hrest fun op' h' => hs op' (by simp [h'])⟩

theorem smallOk_reaches (hc : Started n c) (hr : Reaches (SmallStep n) c d) : SmallOk n d :=
  Reaches.invariant (fun _ _ _ => smallOk_step) (smallOk_started hc) hr

/-! Block maps and live pointers. -/

/-- The set bits of every superblock are its header's blocks and its live pointers' blocks. -/
structure MapsExact (n : Nat) (c : Config) : Prop where
  bits : ∀ a ∈ superblocks n c.state, ∀ id < 512,
    bit (c.state.superblock a).blockMap id = true ↔
      id < blocksUsed (c.state.superblock a).blockSize ∨
        ∃ p ∈ c.live, pageOf p = a ∧ blockId c.state p = id
  inside : ∀ a ∈ superblocks n c.state, ∀ id < 512,
    bit (c.state.superblock a).blockMap id = true →
      id < sbSize / (c.state.superblock a).blockSize
  used : ∀ a ∈ superblocks n c.state, (c.state.superblock a).usedBlocks =
    (ones (c.state.superblock a).blockMap 512).card
  page : ∀ p ∈ c.live, pageOf p ∈ superblocks n c.state
  distinct : c.live.Pairwise fun p q => pageOf p = pageOf q → blockId c.state p ≠ blockId c.state q

/-- What a call changes in the block map of superblock `a`: the bit of the pointer it returns
or takes back. -/
def BitChange (c : Config) (e : Event) (d : Config) (a id : Nat) : Prop :=
  match e with
  | .malloc _ _ none =>
    bit (d.state.superblock a).blockMap id = bit (c.state.superblock a).blockMap id
  | .malloc _ _ (some p) => bit (d.state.superblock a).blockMap id = true ↔
      bit (c.state.superblock a).blockMap id = true ∨ (pageOf p = a ∧ blockId d.state p = id)
  | .free p => bit (d.state.superblock a).blockMap id = true ↔
      bit (c.state.superblock a).blockMap id = true ∧ ¬(pageOf p = a ∧ blockId c.state p = id)

theorem SmallInv.mapsExact (hi : SmallInv n c.state c.live L) : MapsExact n c :=
  ⟨fun a ha => (hi.blocksOk a ha).bits, fun _ ha _ hid => hi.shelved.lt_of_set ha hid,
    fun a ha => (hi.blocksOk a ha).used, hi.live.page, hi.live.apart⟩

theorem smallStep_sizes (hi : SmallInv n c.state c.live L) (hs : SmallStep n c e d) :
    ∃ sz, SizesKept n sz c.state d.state := by
  obtain ⟨hstep, hsmall⟩ := hs
  cases hstep with
  | malloc hcpu hsz hm =>
    rw [mmMalloc_small hsmall] at hm
    rcases mallocSmall_spec hi hsmall hcpu hm with ⟨_, _, _, hk⟩ | ⟨_, _, _, _, _, _, hg⟩
    · exact ⟨0, hk.sizesKept⟩
    · exact ⟨_, hg.sizes⟩
  | free hp hf =>
    rw [hi.mmFree_eq hp] at hf
    exact ⟨0, (freeSmall_spec hi hp hf).2.sizesKept⟩

theorem blockId_kept {s t : State} {sz q : Nat} (hk : SizesKept n sz s t)
    (hq : pageOf q ∈ superblocks n s) : blockId t q = blockId s q := by
  rw [blockId, blockId, (hk.old _ hq).2]

theorem bitChange (hc : SmallOk n c) (hs : SmallStep n c e d) {a id : Nat}
    (ha : a ∈ superblocks n c.state) (hid : id < 512) : BitChange c e d a id := by
  obtain ⟨L', hd⟩ := smallOk_step hc hs
  obtain ⟨L, hi⟩ := hc
  obtain ⟨sz, hk⟩ := smallStep_sizes hi hs
  obtain ⟨had, hsize⟩ := hk.old a ha
  have hbefore := (hi.blocksOk a ha).bits id hid
  have hafter := (hd.blocksOk a had).bits id hid
  have hkept : ∀ q ∈ c.live, blockId d.state q = blockId c.state q :=
    fun q hq => blockId_kept hk (hi.live.page q hq)
  have hold : (∃ q ∈ c.live, pageOf q = a ∧ blockId d.state q = id) ↔
      ∃ q ∈ c.live, pageOf q = a ∧ blockId c.state q = id :=
    exists_congr fun q => and_congr_right fun hq => by rw [hkept q hq]
  rw [hsize] at hafter
  have hlive := step_live hs.1
  rcases e with ⟨_, _, _ | p⟩ | p
  · rw [show d.live = c.live from hlive, hold, ← hbefore] at hafter
    exact Bool.eq_iff_iff.mpr hafter
  · rw [show d.live = p :: c.live from hlive] at hafter
    simp only [List.mem_cons, exists_eq_or_imp, hold] at hafter
    rw [or_left_comm, ← hbefore] at hafter
    exact hafter.trans or_comm
  · obtain ⟨hp, hlive⟩ := hlive
    have hback : (∃ q ∈ c.live.erase p, pageOf q = a ∧ blockId d.state q = id) ↔
        ∃ q ∈ c.live.erase p, pageOf q = a ∧ blockId c.state q = id :=
      exists_congr fun q => and_congr_right fun hq => by
        rw [hkept q (List.mem_of_mem_erase hq)]
    rw [hlive, hback, hi.live.exists_erase hp] at hafter
    refine hafter.trans ?_
    rw [hbefore]
    constructor
    · rintro (hlt | ⟨hex, hne⟩)
      · refine ⟨.inl hlt, ?_⟩
        rintro ⟨rfl, rfl⟩
        have := (hi.live.id p hp).1
        omega
      · exact ⟨.inr hex, hne⟩
    · rintro ⟨hlt | hex, hne⟩
      · exact .inl hlt
      · exact .inr ⟨hex, hne⟩

/-- In every reachable state the block maps are exact, a call changes only its own pointer's
bit, and that pointer's block was no live one's; the others keep their blocks. -/
theorem blockMaps_exact (hc : Started n c) (hr : Reaches (SmallStep n) c d) :
    MapsExact n d ∧ ∀ e f, SmallStep n d e f →
      (∀ a ∈ superblocks n d.state, ∀ id < 512, BitChange d e f a id) ∧
      (∀ q ∈ d.live, blockId f.state q = blockId d.state q) ∧
      ∀ cpu sz p, e = .malloc cpu sz (some p) →
        ∀ q ∈ d.live, pageOf q = pageOf p → blockId f.state q ≠ blockId f.state p := by
  have hd := smallOk_reaches hc hr
  obtain ⟨L, hi⟩ := hd
  refine ⟨hi.mapsExact, fun e f hs => ⟨fun a ha id hid => bitChange ⟨L, hi⟩ hs ha hid, ?_, ?_⟩⟩
  · intro q hq
    obtain ⟨sz, hk⟩ := smallStep_sizes hi hs
    exact blockId_kept hk (hi.live.page q hq)
  · rintro cpu sz p rfl q hq hpage
    obtain ⟨L', hf⟩ := smallOk_step ⟨L, hi⟩ hs
    have hlive : f.live = p :: d.live := step_live hs.1
    have hapart := hf.live.apart
    rw [hlive] at hapart
    exact ((List.pairwise_cons.mp hapart).1 q hq hpage.symm).symm

theorem blockMaps_exact_oneCpu :
    ∃ run, calls 1 oneCpu [.malloc 0 100, .malloc 0 100, .free 16512] = .ok run ∧
      ∀ x ∈ run, MapsExact 1 x.2 ∧ ∀ e f, SmallStep 1 x.2 e f →
        (∀ a ∈ superblocks 1 x.2.state, ∀ id < 512, BitChange x.2 e f a id) ∧
        (∀ q ∈ x.2.live, blockId f.state q = blockId x.2.state q) ∧
        ∀ cpu sz p, e = .malloc cpu sz (some p) →
          ∀ q ∈ x.2.live, pageOf q = pageOf p → blockId f.state q ≠ blockId f.state p := by
  obtain ⟨run, hrun, -, hr⟩ := along_of_trace (P := Event.Small) (n := 1) (c := oneCpu)
    [.malloc 0 100, .malloc 0 100, .free 16512]
    [.malloc 0 100 (some 16512), .malloc 0 100 (some 16640), .free 16512]
    (by decide +kernel) (by simp [Event.Small, sbSize])
  exact ⟨run, hrun, fun x hx => blockMaps_exact oneCpu_started (hr.reaches x hx)⟩

/-! Bins and counters. -/

/-- Every superblock is in one list, that of its heap, class and fullness, and the heaps count
what they hold. -/
structure BinsExact (n : Nat) (c : Config) : Prop where
  lists : ∃ L : Bin → List Nat,
    (∀ b, b.heap ≤ n → DList c.state.next c.state.prev (c.state.bin b) (L b)) ∧
    ∀ b, b.heap ≤ n → ∀ a, a ∈ L b ↔ a ∈ superblocks n c.state ∧
      b.heap = (c.state.superblock a).heapId ∧
      b.cls = sizeId (c.state.superblock a).blockSize ∧
      (b.full : Int) = 4 * (c.state.superblock a).usedBlocks /
        (sbSize / (c.state.superblock a).blockSize : Nat) + 1
  heap : ∀ a ∈ superblocks n c.state, (c.state.superblock a).heapId ≤ n
  allocated : ∀ h ≤ n, (c.state.heapTable h).allocated = sbSize *
    ((superblocks n c.state).filter fun a => (c.state.superblock a).heapId = h).card
  used : ∀ h ≤ n, (c.state.heapTable h).used =
    ∑ a ∈ (superblocks n c.state).filter fun a => (c.state.superblock a).heapId = h,
      (c.state.superblock a).usedBlocks * (c.state.superblock a).blockSize

theorem SmallInv.binsExact (hi : SmallInv n c.state c.live L) : BinsExact n c := by
  have hp := hi.placed
  refine ⟨⟨L, hp.family.dlist, fun b hb a => ?_⟩, hp.le, fun h hh => ?_, fun h hh => ?_⟩
  · rw [hp.mem b hb a]
    refine and_congr_right fun ha => ?_
    obtain ⟨hu0, hun⟩ := hi.shelved.used_bounds ha
    have hfull : (fullness (c.state.superblock a).usedBlocks
        (blocks (c.state.superblock a).blockSize) : Int) =
        4 * (c.state.superblock a).usedBlocks /
          (sbSize / (c.state.superblock a).blockSize : Nat) + 1 := by
      rw [fullness_eq hu0]
      push_cast
      rw [Int.toNat_of_nonneg hu0]
    obtain ⟨h, i, j⟩ := b
    rw [← hfull, binOf, Bin.mk.injEq, Nat.cast_inj]
    simp only [eq_comm]
  · rw [hp.allocated h hh, ← Finset.sum_filter, Finset.sum_const, nsmul_eq_mul, mul_comm]
    rfl
  · rw [hp.used h hh, ← Finset.sum_filter]
    rfl

theorem bins_exact (hc : Started n c) (hr : Reaches (SmallStep n) c d) : BinsExact n d := by
  obtain ⟨L, hi⟩ := smallOk_reaches hc hr
  exact hi.binsExact

theorem bins_exact_oneCpu :
    ∃ run, calls 1 oneCpu [.malloc 0 100, .malloc 0 2000, .free 16512] = .ok run ∧
      ∀ x ∈ run, BinsExact 1 x.2 := by
  obtain ⟨run, hrun, -, hr⟩ := along_of_trace (P := Event.Small) (n := 1) (c := oneCpu)
    [.malloc 0 100, .malloc 0 2000, .free 16512]
    [.malloc 0 100 (some 16512), .malloc 0 2000 (some 22528), .free 16512]
    (by decide +kernel) (by simp [Event.Small, sbSize])
  exact ⟨run, hrun, fun x hx => bins_exact oneCpu_started (hr.reaches x hx)⟩

end Csc469.Alloc
