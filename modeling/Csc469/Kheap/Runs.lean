import Csc469.Kheap.Free

/-! Every run of small requests: pagerefs, lists and free lists. -/
namespace Csc469.Kheap

open Execution Linked

/-- The heap, and the blocks that the program has and not yet freed with the sizes it asked for. -/
structure Session where
  heap : State
  live : List (Nat × Nat)

inductive Event where
  | malloc (sz : Nat) (refGranted pageGranted : Bool)
  | free (ptr : Nat)
  | write (a : Nat) (word : Option Nat)

section Calls
variable (bigKmalloc : State → Nat → Call (State × Option Nat)) (bigKfree : State → Nat → Call State)

/-- `mm_malloc` below the size of a large block, `mm_free` of a live pointer, and the program's
own writes to its blocks. -/
inductive Step : Session → Event → Session → Prop
  | malloc {s : Session} {t : State} {sz p : Nat} {rg pg : Bool} (hsz : sz < largestSubpageSize)
      (h : mmMalloc bigKmalloc s.heap sz rg pg = .ok (t, some p)) :
      Step s (.malloc sz rg pg) ⟨t, (p, sz) :: s.live⟩
  | failed {s : Session} {t : State} {sz : Nat} {rg pg : Bool} (hsz : sz < largestSubpageSize)
      (h : mmMalloc bigKmalloc s.heap sz rg pg = .ok (t, none)) :
      Step s (.malloc sz rg pg) ⟨t, s.live⟩
  | free {s : Session} {t : State} {p sz : Nat} (hp : (p, sz) ∈ s.live)
      (h : mmFree bigKfree s.heap (some p) = .ok t) : Step s (.free p) ⟨t, without s.live p⟩
  | write {s : Session} {p sz a : Nat} {word : Option Nat} (hp : (p, sz) ∈ s.live) (hle : p ≤ a)
      (hlt : a < p + sz) : Step s (.write a word) ⟨s.heap.setLink a word, s.live⟩

end Calls

/-- After `mm_init`, in a segment below 4 GB that is aligned to pages. -/
structure Started (s : Session) : Prop where
  lo_pos : 0 < s.heap.dsegLo
  lo_aligned : s.heap.dsegLo % pageSize = 0
  hi : s.heap.dsegHi + 1 = s.heap.dsegLo
  below : s.heap.dsegLo + s.heap.dsegSize ≤ 2 ^ 32
  fresh : s.heap.freshRefs = none
  recycled : s.heap.recycledRefs = none
  sizebases : ∀ i, s.heap.sizebases i = none
  refs : s.heap.refs = []
  live : s.live = []

variable {s t : Session} {e : Event} {L : Place → List Nat}
  {bigKmalloc : State → Nat → Call (State × Option Nat)} {bigKfree : State → Nat → Call State}

/-- What holds of the heap, with `L` for what is in the lists. -/
structure Law (s : State) (live : List (Nat × Nat)) (L : Place → List Nat) : Prop where
  chain : ∀ pl, Chain s.next (s.head pl) (L pl)
  known : ∀ pl, ∀ r ∈ L pl, r ∈ s.refs
  once : ∀ r ∈ s.refs, ∃! pl, r ∈ L pl
  kind : ∀ i, ∀ r ∈ L (.base i), i < nsizes ∧ s.kind r = i
  owner : ∀ r ∈ s.refs, ∀ q ∈ s.refs, s.page r ≠ 0 → s.page r = s.page q → r = q
  page : ∀ i, ∀ r ∈ L (.base i), s.page r ≠ 0 ∧ s.IsPage (s.page r)
  free : ∀ i, ∀ r ∈ L (.base i), ∃ free, Chain s.link (s.ref r).flist free ∧
    (s.ref r).nfree = free.length ∧ free.Nodup ∧
    (∀ b ∈ free, b ∈ blocks (s.page r) i ∧ b ∉ live.map Prod.fst) ∧
    (free ++ (live.map Prod.fst).filter (OnPage (s.page r) ·)).Perm (blocks (s.page r) i)
  busy : ∀ i, ∀ r ∈ L (.base i), ∃ x ∈ live, OnPage (s.page r) x.1

theorem PageOk.perm {s : State} {ptrs free : List Nat} {i r : Nat} (h : PageOk s ptrs i r free)
    (hi : i < nsizes) (hnd : ptrs.Nodup) :
    (free ++ ptrs.filter (OnPage (s.page r) ·)).Perm (blocks (s.page r) i) := by
  refine (List.perm_ext_iff_of_nodup ?_ (blocks_nodup hi)).mpr fun b => ?_
  · refine List.nodup_append.mpr ⟨h.nodup, hnd.filter _, fun b hb c hc he => ?_⟩
    exact ((h.free b).mp hb).2 (he ▸ (List.mem_filter.mp hc).1)
  · simp only [List.mem_append, List.mem_filter, decide_eq_true_eq]
    constructor
    · rintro (hb | ⟨hb, hon⟩)
      · exact ((h.free b).mp hb).1
      · exact h.used b hb hon
    · intro hb
      by_cases hu : b ∈ ptrs
      · exact .inr ⟨hu, onPage_of_blocks hi hb⟩
      · exact .inl ((h.free b).mpr ⟨hb, hu⟩)

theorem Inv.law {s : State} {live : List (Nat × Nat)} (h : Inv s live L) : Law s live L := by
  obtain ⟨hl, hp, hb⟩ := h
  refine ⟨hl.chains.chain, hp.mem, fun r hr => ?_, fun i r hr => ?_, hp.unique, fun i r hr => ?_,
    fun i r hr => ?_, hb⟩
  · obtain ⟨pl, hpl⟩ := ((hl.refs r).mp hr).resolve_left (by simp)
    exact ⟨pl, hpl, fun pl' hpl' => hl.chains.disjoint pl' pl r hpl' hpl⟩
  · exact ⟨(hp.kinds i r hr).1, (hp.kinds i r hr).2.1⟩
  · exact ⟨(hp.kinds i r hr).2.2, hp.isPage hr⟩
  · obtain ⟨free, hok⟩ := hp.filled i r hr
    exact ⟨free, hok.chain, hok.nfree, hok.nodup, fun b hb => (hok.free b).mp hb,
      hok.perm (hp.kinds i r hr).1 hp.nodup⟩

/-- What the program writes to its own blocks is in no free list. -/
theorem Inv.write {s : State} {live : List (Nat × Nat)} {p sz a : Nat} {word : Option Nat}
    (h : Inv s live L) (hp : (p, sz) ∈ live) (hle : p ≤ a) (hlt : a < p + sz) :
    Inv (s.setLink a word) live L := by
  obtain ⟨hl, hpages, hb⟩ := h
  obtain ⟨i, r, hr, (hon : OnPage (s.page r) p), htype⟩ := hpages.held _ hp
  have hsz := (le_of_blocktype htype).2
  have hi := (hpages.kinds i r hr).1
  have hptr : p ∈ live.map Prod.fst := List.mem_map.mpr ⟨_, hp, rfl⟩
  obtain ⟨free, hok⟩ := hpages.filled i r hr
  have hblock := hok.used p hptr hon
  have hrange := blocks_range hi hblock
  refine ⟨hl.congr rfl rfl rfl, ?_, hb⟩
  have hok' : PageOk (s.setLink a word) (live.map Prod.fst) i r free := by
    refine ⟨?_, hok.nfree, hok.free, hok.used⟩
    refine hok.chain.congr fun b hb => Function.update_of_ne (fun he => ?_) _ _
    obtain ⟨hfree, hunused⟩ := (hok.free b).mp hb
    have hapart := blocks_apart hfree hblock fun he => hunused (he ▸ hptr)
    have := size_pos hi
    omega
  refine hpages.update hr ⟨rfl, rfl, rfl, rfl, fun _ _ => rfl, fun b hb => ?_⟩ rfl rfl hok'
    (fun _ _ => Iff.rfl) (fun x hx => .inl hx) hpages.nodup
  refine Function.update_of_ne (fun he => hb ?_) _ _
  simp only [OnPage]
  omega

/-- No page is in use yet. -/
theorem inv_initial {s : State} (hpos : 0 < s.dsegLo) (hlo : s.dsegLo % pageSize = 0)
    (hhi : s.dsegHi + 1 = s.dsegLo) (hfresh : s.freshRefs = none) (hrecycled : s.recycledRefs = none)
    (hbases : ∀ i, s.sizebases i = none) (hrefs : s.refs = []) : Inv s [] fun _ => [] := by
  have hsegment : Segment s := by
    refine ⟨hpos, hlo, by rw [hhi]; exact hlo, Nat.le_of_eq hhi.symm, ?_⟩
    omega
  refine ⟨⟨⟨fun pl => ?_, by simp⟩, by simp [hrefs], by simp⟩, ?_, by simp [Busy]⟩
  · cases pl with
    | fresh => exact hfresh
    | recycled => exact hrecycled
    | base i => exact hbases i
  · constructor <;> simp [hrefs, hsegment]

theorem inv_started (h : Started s) : Inv s.heap s.live fun _ => [] := by
  rw [h.live]
  exact inv_initial h.lo_pos h.lo_aligned h.hi h.fresh h.recycled h.sizebases h.refs

theorem mmMalloc_small {s : State} {sz : Nat} {rg pg : Bool} (hsz : sz < largestSubpageSize) :
    mmMalloc bigKmalloc s sz rg pg = subpageKmalloc s sz rg pg := if_neg (Nat.not_le.mpr hsz)

/-- A live pointer is never taken for a big allocation. -/
theorem mmFree_live {s : State} {live : List (Nat × Nat)} {p sz : Nat} (h : Inv s live L)
    (hp : (p, sz) ∈ live) :
    ∃ u L', mmFree bigKfree s (some p) = .ok u ∧ Frame s u ∧ Inv u (without live p) L' := by
  obtain ⟨r, u, L', hfreed, hinv⟩ := subpageKfree_ok h hp
  exact ⟨u, L', by simp [mmFree, hfreed.call, bind, Except.bind], hfreed.frame, hinv⟩

/-- What holds between two calls, in a segment below 4 GB. -/
structure Kept (s : State) (live : List (Nat × Nat)) : Prop where
  inv : ∃ L, Inv s live L
  below : s.dsegLo + s.dsegSize ≤ 2 ^ 32

theorem Kept.frame {s u : State} {live live' : List (Nat × Nat)} (h : Kept s live) (hf : Frame s u)
    (hinv : ∃ L, Inv u live' L) : Kept u live' := by
  refine ⟨hinv, ?_⟩
  rw [hf.dsegLo, hf.dsegSize]
  exact h.below

/-- Every page that `mem_sbrk` gives lies in the segment. -/
theorem page_below {s u : State} {live : List (Nat × Nat)} {r p : Nat} {rg pg : Bool}
    (h : Inv s live L) (hbelow : s.dsegLo + s.dsegSize ≤ 2 ^ 32)
    (halloc : allocpageref s rg = (some r, u)) (hp : (memSbrk u pg).1 = some p) : p < 2 ^ 32 := by
  obtain ⟨L', hf⟩ : ∃ L', RefOut s u live L L' r := by
    rcases allocpageref_ok h.lists h.pages rg with he | ⟨r', u', L', he, ho⟩
    · cases he.symm.trans halloc
    · cases he.symm.trans halloc
      exact ⟨L', ho⟩
  rcases memSbrk_cases u pg with he | ⟨he, hgrow⟩ <;> rw [he] at hp <;> cases hp
  rw [hf.frame.dsegLo, hf.frame.dsegSize] at hgrow
  simp only [pageSize] at hgrow
  omega

theorem pageBelow_of_segment {s : State} {live : List (Nat × Nat)} (h : Inv s live L)
    (hbelow : s.dsegLo + s.dsegSize ≤ 2 ^ 32) (sz : Nat) (rg pg : Bool) : PageBelow s sz rg pg :=
  fun _ _ _ _ _ _ halloc _ hp => page_below h hbelow halloc hp

theorem kept_step (h : Kept s.heap s.live) (hs : Step bigKmalloc bigKfree s e t) :
    Kept t.heap t.live := by
  obtain ⟨L, hinv⟩ := h.inv
  cases hs with
  | malloc hsz hm =>
    rw [mmMalloc_small hsz] at hm
    obtain ⟨u, L', hf, ⟨p, heq, hinv⟩ | ⟨heq, -⟩⟩ :=
      subpageKmalloc_ok hinv (Nat.le_of_lt hsz) (pageBelow_of_segment hinv h.below _ _ _)
    · cases heq.symm.trans hm
      exact h.frame hf ⟨L', hinv⟩
    · cases heq.symm.trans hm
  | failed hsz hm =>
    rw [mmMalloc_small hsz] at hm
    obtain ⟨u, L', hf, ⟨p, heq, -⟩ | ⟨heq, hinv, -⟩⟩ :=
      subpageKmalloc_ok hinv (Nat.le_of_lt hsz) (pageBelow_of_segment hinv h.below _ _ _)
    · cases heq.symm.trans hm
    · cases heq.symm.trans hm
      exact h.frame hf ⟨L', hinv⟩
  | free hp hfree =>
    obtain ⟨u, L', heq, hf, hinv⟩ := mmFree_live hinv hp
    cases heq.symm.trans hfree
    exact h.frame hf ⟨L', hinv⟩
  | write hp hle hlt => exact ⟨⟨L, hinv.write hp hle hlt⟩, h.below⟩

theorem kept_reaches (hs : Started s) (hr : Reaches (Step bigKmalloc bigKfree) s t) :
    Kept t.heap t.live :=
  Reaches.invariant (I := fun u => Kept u.heap u.live) (fun _ _ _ => kept_step)
    ⟨⟨_, inv_started hs⟩, hs.below⟩ hr

/-- In every state that requests of less than a large block lead to, the law that `checksubpage`
samples holds, and the next call returns, a failed one with the lists in use as they were. The
paths of large blocks are never taken. -/
theorem subpage_law (hs : Started s) (hr : Reaches (Step bigKmalloc bigKfree) s t) :
    ∃ L, Law t.heap t.live L ∧
      (∀ sz < largestSubpageSize, ∀ rg pg, ∃ u p, mmMalloc bigKmalloc t.heap sz rg pg = .ok (u, p) ∧
        (p = none → ∃ L', Law u t.live L' ∧ Untouched t.heap u L L')) ∧
      ∀ x ∈ t.live, ∃ u, mmFree bigKfree t.heap (some x.1) = .ok u := by
  obtain ⟨⟨L, h⟩, hbelow⟩ := kept_reaches hs hr
  refine ⟨L, h.law, fun sz hsz rg pg => ?_, fun x hx => ?_⟩
  · rw [mmMalloc_small hsz]
    obtain ⟨u, L', -, ⟨p, heq, -⟩ | ⟨heq, hinv, hsame⟩⟩ :=
      subpageKmalloc_ok h (Nat.le_of_lt hsz) (pageBelow_of_segment h hbelow sz rg pg)
    · exact ⟨u, some p, heq, by simp⟩
    · exact ⟨u, none, heq, fun _ => ⟨L', hinv.law, hsame⟩⟩
  · obtain ⟨u, -, heq, -, -⟩ := mmFree_live h (show (x.1, x.2) ∈ t.live from hx)
    exact ⟨u, heq⟩

/-- A heap of 256 MB from the first page on. -/
def started : Session where
  heap :=
    { dsegLo := pageSize
      dsegHi := pageSize - 1
      dsegSize := 2 ^ 28
      freshRefs := none
      recycledRefs := none
      sizebases := fun _ => none
      ref := fun _ => ⟨none, none, 0, 0⟩
      link := fun _ => none
      refs := [] }
  live := []

theorem started_started : Started started := by
  constructor <;> first | rfl | decide | exact fun _ => rfl

/-- No large block is asked for. -/
def noBig {α : Type} : State → Nat → Call α := fun _ _ => .error .fault

/-- A block of 1024, and then no page for one of 2048. -/
theorem subpage_law_twoCalls : ∃ t : Session, t.live = [(11264, 1000)] ∧ ∃ L, Law t.heap t.live L ∧
    (∀ sz < largestSubpageSize, ∀ rg pg, ∃ u p, mmMalloc noBig t.heap sz rg pg = .ok (u, p) ∧
      (p = none → ∃ L', Law u t.live L' ∧ Untouched t.heap u L L')) ∧
    ∀ x ∈ t.live, ∃ u, mmFree noBig t.heap (some x.1) = .ok u := by
  have h1 : (mmMalloc noBig started.heap 1000 true true).toOption.map Prod.snd =
      some (some 11264) := by decide +kernel
  obtain ⟨⟨u, -⟩, hu, rfl⟩ := ok_of_map h1
  have h2 : (mmMalloc noBig started.heap 1000 true true >>= fun x =>
      mmMalloc noBig x.1 2000 true false).toOption.map Prod.snd = some none := by decide +kernel
  obtain ⟨⟨v, -⟩, hv, rfl⟩ := ok_of_map h2
  rw [hu] at hv
  have hv' : mmMalloc noBig u 2000 true false = .ok (v, none) := hv
  have hr : Reaches (Step noBig noBig) started ⟨v, [(11264, 1000)]⟩ :=
    .head ⟨_, .malloc (by decide) hu⟩ (.head ⟨_, .failed (by decide) hv'⟩ .refl)
  exact ⟨_, rfl, subpage_law started_started hr⟩

end Csc469.Kheap
