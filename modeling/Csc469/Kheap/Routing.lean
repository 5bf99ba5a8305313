import Csc469.Kheap.Chunks
import Csc469.Kheap.Runs

/-! Every run of requests of all sizes: `mm_free` tells blocks of pages from large chunks. -/
namespace Csc469.Kheap.Routing

open Execution Linked Tiling

/-- The heap, and the blocks that the program has and not yet freed with the sizes it asked for. -/
structure Session where
  heap : Heap
  live : List (Nat × Nat)

inductive Event where
  | malloc (sz : Nat)
  | free (ptr : Nat)
  | write (a : Nat) (word : Option Nat)

/-- `mm_malloc`, `mm_free` of a live pointer, and the program's own writes to its blocks, in a
large one no further than its chunk goes. -/
inductive Step : Session → Event → Session → Prop
  | malloc {s : Session} {t : Heap} {n sz p : Nat} (h : s.heap.mmMalloc n sz = .ok (t, some p)) :
      Step s (.malloc sz) ⟨t, (p, sz) :: s.live⟩
  | failed {s : Session} {t : Heap} {n sz : Nat} (h : s.heap.mmMalloc n sz = .ok (t, none)) :
      Step s (.malloc sz) ⟨t, s.live⟩
  | free {s : Session} {t : Heap} {p sz : Nat} (hp : (p, sz) ∈ s.live)
      (h : s.heap.mmFree (some p) = .ok t) : Step s (.free p) ⟨t, without s.live p⟩
  | write {s : Session} {p sz a : Nat} {word : Option Nat} (hp : (p, sz) ∈ s.live) (hle : p ≤ a)
      (hlt : a < p + sz)
      (hin : largestSubpageSize ≤ sz → a < header p + s.heap.npages (header p) * pageSize) :
      Step s (.write a word) ⟨s.heap.write a word, s.live⟩

/-- After `mm_init`, wherever the segment lies. -/
structure Started (s : Session) : Prop where
  lo_pos : 0 < s.heap.sub.dsegLo
  lo_aligned : s.heap.sub.dsegLo % pageSize = 0
  hi : s.heap.sub.dsegHi + 1 = s.heap.sub.dsegLo
  fresh : s.heap.sub.freshRefs = none
  recycled : s.heap.sub.recycledRefs = none
  sizebases : ∀ i, s.heap.sub.sizebases i = none
  refs : s.heap.sub.refs = []
  bigchunks : s.heap.bigchunks = none
  live : s.live = []

/-- The search finds the pageref of the block's page, with the block type of its size, and the
block goes in front of the free list of that page. -/
def RoutedSmall (h : Heap) (p sz : Nat) : Prop :=
  ∃ r t, Release.findOwner h.sub p (List.range nsizes) = .ok (some r) ∧
    prPageaddr (h.sub.ref r) = p / pageSize * pageSize ∧
    blocktype sz = .ok (prBlocktype (h.sub.ref r)) ∧
    Release.subpageKfree h.sub p = .ok (t, 0) ∧ FreedOn h.sub t r p ∧
    h.mmFree (some p) = .ok { h with sub := t }

/-- The block is on none of the pages, and the chunk that begins before it, and that it lies in,
goes in front of `bigchunks`. -/
def RoutedLarge (h : Heap) (p : Nat) : Prop :=
  Release.subpageKfree h.sub p = .ok (h.sub, -1) ∧ header p + smallestSubpageSize = p ∧
    p < header p + h.npages (header p) * pageSize ∧
    h.mmFree (some p) = .ok (h.bigKfree p) ∧ (h.bigKfree p).bigchunks = some (header p) ∧
    (h.bigKfree p).next (header p) = h.bigchunks ∧ (h.bigKfree p).npages = h.npages ∧
    ∀ c, c ≠ header p → (h.bigKfree p).next c = h.next c

/-- A free of any live pointer acts on the page or the chunk that the pointer came from. -/
structure Routed (s : Session) : Prop where
  small : ∀ x ∈ s.live, x.2 < largestSubpageSize → RoutedSmall s.heap x.1 x.2
  large : ∀ x ∈ s.live, largestSubpageSize ≤ x.2 → RoutedLarge s.heap x.1

/-- Where the next page for blocks begins: when no pageref is left, a page of them comes first. -/
def nextPage (s : State) : Nat :=
  if s.recycledRefs = none ∧ s.freshRefs = none then s.dsegHi + 1 + pageSize else s.dsegHi + 1

/-- No page of the size has a free block, there is no recycled page, and the segment has room for
a new one. -/
def TakesPage (s : State) (sz : Nat) : Prop :=
  (∃ i, blocktype sz = .ok i ∧
    Release.findPage s s.refs.length (s.sizebases i) = .ok none) ∧
  (∀ r, s.recycledRefs = some r → prPageaddr (s.ref r) = 0) ∧
  nextPage s + pageSize ≤ s.dsegLo + s.dsegSize + 1

/-- A new page for small blocks begins below 4 GB, and a large request comes to at least one
page. -/
def Supported (s : Session) : Event → Prop
  | .malloc sz =>
    if largestSubpageSize ≤ sz then 1 ≤ pagesFor sz
    else TakesPage s.heap.sub sz → nextPage s.heap.sub < 2 ^ 32
  | _ => True

def smalls (live : List (Nat × Nat)) : List (Nat × Nat) := live.filter (·.2 < largestSubpageSize)

def larges (live : List (Nat × Nat)) : List (Nat × Nat) := live.filter (largestSubpageSize ≤ ·.2)

variable {s u : Session} {e : Event} {run : List (Event × Session)} {L L' : Place → List Nat}
  {free : List Nat} {got got' : List (Nat × Nat)} {live live' : List (Nat × Nat)} {h : Heap}
  {t : State}
  {a b c n p q sz : Nat} {result : Option Nat}

/-- Small blocks are on pages, large ones in chunks, and the two lie apart: a write to one is none
to the other. -/
structure Inv (s : Session) (L : Place → List Nat) (free : List Nat) (got : List (Nat × Nat)) :
    Prop where
  sub : Kheap.Inv s.heap.sub (smalls s.live) L
  large : Large s.heap ((larges s.live).map fun x => header x.1) free got
  apart : ∀ r ∈ got, ∀ p, s.heap.sub.Uses p → p + pageSize ≤ r.1 ∨ r.1 + r.2 ≤ p

section Live

theorem mem_smalls {x : Nat × Nat} : x ∈ smalls live ↔ x ∈ live ∧ x.2 < largestSubpageSize := by
  simp [smalls]

theorem mem_larges {x : Nat × Nat} : x ∈ larges live ↔ x ∈ live ∧ largestSubpageSize ≤ x.2 := by
  simp [larges]

theorem smalls_without : smalls (without live p) = without (smalls live) p := by
  simp only [smalls, without, List.filter_filter, Bool.and_comm]

theorem larges_without : larges (without live p) = without (larges live) p := by
  simp only [larges, without, List.filter_filter, Bool.and_comm]

theorem without_eq_self (hp : ∀ x ∈ live, x.1 ≠ p) : without live p = live :=
  List.filter_eq_self.mpr fun x hx => decide_eq_true (hp x hx)

theorem smalls_cons (live : List (Nat × Nat)) (p : Nat) (hsz : sz < largestSubpageSize) :
    smalls ((p, sz) :: live) = (p, sz) :: smalls live ∧ larges ((p, sz) :: live) = larges live := by
  simp [smalls, larges, hsz]

theorem larges_cons (live : List (Nat × Nat)) (p : Nat) (hsz : largestSubpageSize ≤ sz) :
    smalls ((p, sz) :: live) = smalls live ∧ larges ((p, sz) :: live) = (p, sz) :: larges live := by
  simp [smalls, larges, hsz]

end Live

namespace Inv

theorem lo_pos (hi : Inv s L free got) : 0 < s.heap.sub.dsegLo := hi.sub.pages.segment.pos

/-- No chunk is on a page in use. -/
theorem off_chunk (hi : Inv s L free got)
    (hc : c ∈ (larges s.live).map (fun x => header x.1) ++ free) (hu : s.heap.sub.Uses p)
    (hb : OnPage p b) : b < c ∨ c + s.heap.bytes c ≤ b := by
  obtain ⟨r, hr, hlo, hhi⟩ := hi.large.chunks.tiles.within c hc
  simp only [OnPage] at hb
  rcases hi.apart r hr p hu with hapart | hapart
  · left
    omega
  · right
    omega

theorem uses (hi : Inv s L free got) {i r : Nat} (hr : r ∈ L (.base i)) :
    s.heap.sub.Uses (s.heap.sub.page r) :=
  .inr ⟨r, hi.sub.pages.mem _ r hr, (hi.sub.pages.kinds i r hr).2.2, rfl⟩

/-- A small block is on a page in use. -/
theorem small_page (hi : Inv s L free got) (hx : (p, sz) ∈ smalls s.live) :
    ∃ q, s.heap.sub.Uses q ∧ OnPage q p := by
  obtain ⟨i, r, hr, hon, -⟩ := hi.sub.pages.held _ hx
  exact ⟨_, hi.uses hr, hon⟩

/-- A large block is on none. -/
theorem large_off (hi : Inv s L free got) (hx : (p, sz) ∈ larges s.live) (hle : header p ≤ b)
    (hlt : b < header p + s.heap.bytes (header p)) (hu : s.heap.sub.Uses q) : ¬OnPage q b := by
  intro hon
  have hc := List.mem_append_left free (mem_headers hx)
  rcases hi.off_chunk hc hu hon with hout | hout <;> omega

theorem ptr_in_chunk (hi : Inv s L free got) (hx : (p, sz) ∈ larges s.live) :
    header p + smallestSubpageSize = p ∧ p < header p + s.heap.bytes (header p) := by
  have hptr := hi.large.ptr_eq hi.lo_pos hx
  have hbytes := hi.large.chunks.pageSize_le (List.mem_append_left free (mem_headers hx))
  simp only [smallestSubpageSize, pageSize] at hptr hbytes
  exact ⟨hptr, by omega⟩

/-- A pointer is of one kind. -/
theorem small_ne_large (hi : Inv s L free got) (hx : (p, sz) ∈ smalls s.live) {x : Nat × Nat}
    (hy : x ∈ larges s.live) : x.1 ≠ p := by
  rintro rfl
  obtain ⟨q, hu, hon⟩ := hi.small_page hx
  have hin := hi.ptr_in_chunk (show (x.1, x.2) ∈ larges s.live from hy)
  exact hi.large_off (show (x.1, x.2) ∈ larges s.live from hy) (by omega) hin.2 hu hon

/-- A call of the subpage allocator leaves the chunks alone. -/
theorem of_frame (hi : Inv s L free got) (hf : Frame s.heap.sub t)
    (hsub : Kheap.Inv t (smalls live') L') (hlive : larges live' = larges s.live) :
    Inv ⟨{ s.heap with sub := t }, live'⟩ L' free got := by
  refine ⟨hsub, ?_, fun r hr p hu => ?_⟩
  · rw [hlive]
    exact hi.large.congr (fun _ _ => rfl) (fun _ _ => rfl) rfl hf.dsegLo hf.dsegHi
  · rcases hf.uses p hu with hu | hnew
    · exact hi.apart r hr p hu
    · have := (hi.large.chunks.obtained r hr).2
      right
      omega

end Inv

section Small

/-- What the program writes off the pages is in no free list. -/
theorem sub_write_off (hs : Kheap.Inv t live L) (word : Option Nat)
    (hoff : ∀ i, ∀ r ∈ L (.base i), ¬OnPage (t.page r) a) : Kheap.Inv (t.setLink a word) live L := by
  obtain ⟨hl, hp, hb⟩ := hs
  refine ⟨hl.congr rfl rfl rfl, ?_, hb⟩
  constructor
  · exact hp.segment.congr rfl rfl rfl
  · exact hp.refPage
  · exact hp.owned
  · exact hp.apart
  · exact hp.unique
  · exact hp.mem
  · exact hp.fresh
  · exact hp.kinds
  · intro i r hr
    obtain ⟨blocks, hok⟩ := hp.filled i r hr
    refine ⟨blocks, hok.congr (hp.kinds i r hr).1 rfl rfl rfl (fun b hb => ?_) fun _ _ => Iff.rfl⟩
    refine Function.update_of_ne (fun he => hoff i r hr ?_) _ _
    rwa [← he]
  · exact hp.held
  · exact hp.nodup

theorem sub_widened (hs : Kheap.Inv t live L) (hn : n % pageSize = 0)
    (hle : t.dsegHi + n ≤ t.dsegLo + t.dsegSize) : Kheap.Inv (t.widened n) live L :=
  ⟨hs.lists.congr rfl rfl rfl, hs.pages.widened hn hle, hs.busy⟩

theorem uses_widened : (t.widened n).Uses p ↔ t.Uses p := Iff.rfl

theorem mmMalloc_small (hsz : sz < largestSubpageSize) : h.mmMalloc n sz =
    (Release.subpageKmalloc h.sub sz).map fun x => ({ h with sub := x.1 }, x.2) := by
  rw [Heap.mmMalloc, if_neg (Nat.not_le.mpr hsz)]
  cases Release.subpageKmalloc h.sub sz <;> rfl

/-- The pageref comes from a list or is the first of a new page of them: then a page behind that. -/
theorem nextPage_iff (hs : Kheap.Inv t live L) :
    (∃ r u, allocpageref t true = (some r, u) ∧ prPageaddr (u.ref r) = 0 ∧
        (memSbrk u true).1 = some p) ↔
      (∀ r, t.recycledRefs = some r → prPageaddr (t.ref r) = 0) ∧
        nextPage t + pageSize ≤ t.dsegLo + t.dsegSize + 1 ∧ p = nextPage t := by
  cases hrec : t.recycledRefs with
  | some r => simp [allocpageref, nextPage, hrec, memSbrk_page]
  | none =>
    cases hfresh : t.freshRefs with
    | some r =>
      have hpage : prPageaddr (t.ref r) = 0 := by
        refine hs.pages.fresh r (List.mem_of_head? ?_)
        rw [← (hs.lists.chains.chain .fresh).head_eq]
        exact hfresh
      simp [allocpageref, nextPage, hrec, hfresh, memSbrk_page, hpage]
    | none =>
      by_cases hroom : t.dsegHi + pageSize ≤ t.dsegLo + t.dsegSize
      · obtain ⟨u, halloc, (h0 : prPageaddr _ = 0), hlo, hhi, hsize⟩ :=
          allocpageref_new hs.pages hrec hfresh hroom
        simp [nextPage, hrec, hfresh, halloc, h0, memSbrk_page, hlo, hhi, hsize, Nat.add_right_comm]
      · have hnone : allocpageref t true = (none, t) := by
          simp [allocpageref, memSbrk, hrec, hfresh, hroom]
        have hfull : ¬nextPage t + pageSize ≤ t.dsegLo + t.dsegSize + 1 := by
          simp only [nextPage, hrec, hfresh, and_self, if_true]
          omega
        simp [hnone, hfull]

theorem pageBelow_of_supported (hs : Kheap.Inv s.heap.sub live L) (hsz : sz < largestSubpageSize)
    (hf : Supported s (.malloc sz)) : PageBelow s.heap.sub sz true true := by
  rw [Supported, if_neg (Nat.not_le.mpr hsz)] at hf
  intro i r t p htype hfind halloc h0 hp
  obtain ⟨hrec, hroom, rfl⟩ := (nextPage_iff hs).mp ⟨r, t, halloc, h0, hp⟩
  exact hf ⟨⟨i, htype, Release.findPage_of_ok hfind⟩, hrec, hroom⟩

/-- A small block ends on its page. -/
theorem written_page (hs : Kheap.Inv t live L) (hx : (p, sz) ∈ live) (hle : p ≤ a) (hlt : a < p + sz) :
    ∃ i, ∃ r ∈ L (.base i), OnPage (t.page r) a := by
  obtain ⟨i, r, hr, (hon : OnPage (t.page r) p), htype⟩ := hs.pages.held _ hx
  obtain ⟨hi, hsz⟩ := le_of_blocktype htype
  obtain ⟨blocks, hok⟩ := hs.pages.filled i r hr
  have hrange := blocks_range hi (hok.used p (List.mem_map.mpr ⟨_, hx, rfl⟩) hon)
  refine ⟨i, r, hr, ?_⟩
  simp only [OnPage]
  simp only at hsz
  omega

/-- A small request under the condition. -/
theorem inv_small {v : Heap} (hi : Inv s L free got) (hsz : sz < largestSubpageSize)
    (hf : Supported s (.malloc sz)) (hok : s.heap.mmMalloc n sz = .ok (v, result)) :
    (∃ p L', result = some p ∧ Inv ⟨v, (p, sz) :: s.live⟩ L' free got) ∨
      ∃ L', result = none ∧ Inv ⟨v, s.live⟩ L' free got := by
  rw [mmMalloc_small hsz] at hok
  obtain ⟨x, hx, hv⟩ := map_eq_ok.mp hok
  cases hv
  obtain ⟨t, L', hframe, ⟨p, heq, hinv⟩ | ⟨heq, hinv, -⟩⟩ :=
    subpageKmalloc_ok hi.sub (Nat.le_of_lt hsz) (pageBelow_of_supported hi.sub hsz hf)
  · cases (Release.subpageKmalloc_of_ok heq).symm.trans hx
    obtain ⟨hsmalls, hlarges⟩ := smalls_cons s.live p hsz
    exact .inl ⟨p, L', rfl, hi.of_frame hframe (hsmalls ▸ hinv) hlarges⟩
  · cases (Release.subpageKmalloc_of_ok heq).symm.trans hx
    exact .inr ⟨L', rfl, hi.of_frame hframe hinv rfl⟩

end Small

section Large

theorem supported_large (hsz : largestSubpageSize ≤ sz) :
    Supported s (.malloc sz) ↔ 1 ≤ pagesFor sz := by
  rw [Supported, if_pos hsz]

/-- A large request of at least one page. -/
theorem inv_large {v : Heap} (hi : Inv s L free got) (hsz : largestSubpageSize ≤ sz)
    (hm : 1 ≤ pagesFor sz) (hok : s.heap.bigKmalloc n sz = .ok (v, result)) :
    (result = none ∧ v = s.heap) ∨
      ∃ p free' got', result = some p ∧ Inv ⟨v, (p, sz) :: s.live⟩ L free' got' := by
  have hseg := hi.sub.pages.segment
  rcases hi.large.kmalloc hseg.le hm hok with hnone | ⟨c, got', hres, hg⟩
  · exact .inl hnone
  · refine .inr ⟨_, free.erase c, got', hres, ?_⟩
    obtain ⟨hsmalls, hlarges⟩ := larges_cons s.live (c + smallestSubpageSize) hsz
    have hlarge : Large v ((larges ((c + smallestSubpageSize, sz) :: s.live)).map
        fun x => header x.1) (free.erase c) got' := by
      rw [hlarges, List.map_cons, header_add]
      exact hg.large
    rcases hg.memory with ⟨hsub, hgot⟩ | ⟨hsub, hroom, hgot⟩
    · refine ⟨?_, hlarge, ?_⟩
      · simp only [hsub, hsmalls]
        exact hi.sub
      · simp only [hsub, hgot]
        exact hi.apart
    · -- the pages in use end where the new memory begins
      have hbytes : (pagesFor sz * (pageSize : Int)).toNat % pageSize = 0 := by
        simp only [pageSize]
        omega
      have hle : s.heap.sub.dsegHi + (pagesFor sz * (pageSize : Int)).toNat ≤
          s.heap.sub.dsegLo + s.heap.sub.dsegSize := by
        have hroom := Int.not_lt.mp hroom
        simp only [pageSize] at hroom ⊢
        omega
      refine ⟨?_, hlarge, fun r hr p hu => ?_⟩
      · simp only [hsub, hsmalls]
        exact sub_widened hi.sub hbytes hle
      · simp only [hsub, uses_widened] at hu
        rw [hgot] at hr
        rcases List.mem_cons.mp hr with rfl | hr
        · exact .inl (hi.sub.pages.isPage_of_uses hu).2.2
        · exact hi.apart r hr p hu

/-- A block that is on no page in use. -/
theorem subpageKfree_off (hs : Kheap.Inv t live L)
    (hoff : ∀ i, ∀ r ∈ L (.base i), ¬OnPage (t.page r) p) : Release.subpageKfree t p = .ok (t, -1) := by
  have hfind : findOwner t p (List.range nsizes) = .ok none := by
    rw [findOwner_eq hs.lists hs.pages]
    refine congrArg Except.ok (List.findSome?_eq_none_iff.mpr fun j _ => ?_)
    exact List.find?_eq_none.mpr fun r hr => by simpa using hoff j r hr
  rw [Release.subpageKfree, Release.findOwner_of_ok hfind]
  rfl

theorem mmFree_large (hi : Inv s L free got) (hx : (p, sz) ∈ larges s.live) :
    Release.subpageKfree s.heap.sub p = .ok (s.heap.sub, -1) ∧
      s.heap.mmFree (some p) = .ok (s.heap.bigKfree p) := by
  obtain ⟨hptr, hin⟩ := hi.ptr_in_chunk hx
  have hnone : Release.subpageKfree s.heap.sub p = .ok (s.heap.sub, -1) :=
    subpageKfree_off hi.sub fun i r hr => hi.large_off hx (by omega) hin (hi.uses hr)
  refine ⟨hnone, ?_⟩
  rw [Heap.mmFree, hnone]
  rfl

end Large

section Routes

theorem routedLarge (hi : Inv s L free got) (hx : (p, sz) ∈ larges s.live) :
    RoutedLarge s.heap p := by
  obtain ⟨hnone, hfree⟩ := mmFree_large hi hx
  obtain ⟨hptr, hin⟩ := hi.ptr_in_chunk hx
  have hbytes := hi.large.chunks.bytes_eq (List.mem_append_left free (mem_headers hx))
  have hnext : ∀ c, (s.heap.bigKfree p).next c =
      if c = header p then s.heap.bigchunks else s.heap.next c := by
    intro c
    show (s.heap.setChunk (header p) fun v => { v with next := s.heap.bigchunks }).next c = _
    rw [setChunk_next]
  refine ⟨hnone, hptr, by omega, hfree, rfl, ?_, setNext_npages, fun c hc => ?_⟩
  · rw [hnext, if_pos rfl]
  · rw [hnext, if_neg hc]

theorem mmFree_small {r : Nat} (hf : Freed h.sub t r p sz) :
    Release.subpageKfree h.sub p = .ok (t, 0) ∧ h.mmFree (some p) = .ok { h with sub := t } := by
  have hcall := Release.subpageKfree_of_ok hf.call
  refine ⟨hcall, ?_⟩
  rw [Heap.mmFree, hcall]
  rfl

theorem routedSmall (hi : Inv s L free got) (hx : (p, sz) ∈ smalls s.live) :
    RoutedSmall s.heap p sz := by
  obtain ⟨r, t, L', hf, -⟩ := subpageKfree_ok hi.sub hx
  obtain ⟨hcall, hfree⟩ := mmFree_small hf
  obtain ⟨⟨haligned, -⟩, hon⟩ := hf.page
  have hpage : s.heap.sub.page r = p / pageSize * pageSize := by
    simp only [OnPage, pageSize] at *
    omega
  exact ⟨r, t, Release.findOwner_of_ok hf.owner, hpage, hf.kind, hcall, hf.acts, hfree⟩

theorem Inv.routed (hi : Inv s L free got) : Routed s where
  small _ hx hsz := routedSmall hi (mem_smalls.mpr ⟨hx, hsz⟩)
  large x hx hsz := routedLarge hi (show (x.1, x.2) ∈ larges s.live from mem_larges.mpr ⟨hx, hsz⟩)

end Routes

section Steps

theorem inv_free {v : Heap} (hi : Inv s L free got) (hx : (p, sz) ∈ s.live)
    (hok : s.heap.mmFree (some p) = .ok v) :
    ∃ L' free', Inv ⟨v, without s.live p⟩ L' free' got := by
  rcases Nat.lt_or_ge sz largestSubpageSize with hsz | hsz
  · have hx := mem_smalls.mpr ⟨hx, hsz⟩
    obtain ⟨r, t, L', hf, hinv⟩ := subpageKfree_ok hi.sub hx
    cases (mmFree_small hf).2.symm.trans hok
    refine ⟨L', free, hi.of_frame hf.frame (smalls_without ▸ hinv) ?_⟩
    rw [larges_without]
    exact without_eq_self fun y hy => hi.small_ne_large hx hy
  · have hx := mem_larges.mpr ⟨hx, hsz⟩
    cases (mmFree_large hi hx).2.symm.trans hok
    obtain ⟨hl, -⟩ := hi.large.kfree_block hi.lo_pos hx
    refine ⟨L, header p :: free, ?_, ?_, hi.apart⟩
    · have hsmalls : without (smalls s.live) p = smalls s.live := without_eq_self fun y hy he =>
        hi.small_ne_large (show (p, y.2) ∈ smalls s.live from he ▸ hy) hx rfl
      rw [smalls_without, hsmalls]
      exact hi.sub
    · rw [larges_without]
      exact hl

theorem inv_write (hi : Inv s L free got) (word : Option Nat) (hx : (p, sz) ∈ s.live) (hle : p ≤ a)
    (hlt : a < p + sz)
    (hin : largestSubpageSize ≤ sz → a < header p + s.heap.npages (header p) * pageSize) :
    Inv ⟨s.heap.write a word, s.live⟩ L free got := by
  rcases Nat.lt_or_ge sz largestSubpageSize with hsz | hsz
  · have hx := mem_smalls.mpr ⟨hx, hsz⟩
    obtain ⟨i, r, hr, hon⟩ := written_page hi.sub hx hle hlt
    have hout : ∀ c ∈ (larges s.live).map (fun x => header x.1) ++ free,
        a < c ∨ c + pageSize ≤ a := fun c hc => by
      have := hi.large.chunks.pageSize_le hc
      rcases hi.off_chunk hc (hi.uses hr) hon with h | h
      · exact .inl h
      · right
        omega
    have hhdr : ∀ c ∈ (larges s.live).map (fun x => header x.1) ++ free, a ≠ c := by
      intro c hc he
      have := hout c hc
      simp only [pageSize] at this
      omega
    have hlink : ∀ c ∈ free, a ≠ c + smallestSubpageSize := by
      intro c hc he
      have := hout c (List.mem_append_right _ hc)
      simp only [smallestSubpageSize, pageSize] at he this
      omega
    exact ⟨hi.sub.write hx hle hlt, (hi.large.write word hhdr hlink).1, hi.apart⟩
  · have hx := mem_larges.mpr ⟨hx, hsz⟩
    have hbytes := hi.large.chunks.bytes_eq (List.mem_append_left free (mem_headers hx))
    have hlt' : a < header p + s.heap.bytes (header p) := by
      have := hin hsz
      omega
    have hptr := hi.ptr_in_chunk hx
    obtain ⟨hl, -⟩ := hi.large.write_block word hi.lo_pos hx hle hlt'
    refine ⟨sub_write_off hi.sub word fun i r hr => ?_, hl, hi.apart⟩
    exact hi.large_off hx (by omega) hlt' (hi.uses hr)

/-- Wherever the page lies, the first block that is taken from it is not below it. -/
theorem newPage_ge {v w : State} {i r : Nat} (hok : Release.newPage v r p i = .ok (w, result)) :
    ∃ b, result = some b ∧ p ≤ b := by
  simp only [Release.newPage, Release.doalloc, setRef_ref_self] at hok
  cases hok
  exact ⟨_, rfl, Nat.le_add_right _ _⟩

/-- A request that takes a page from 4 GB on gets a block of it. -/
theorem block_ge (hs : Kheap.Inv s.heap.sub live L) (hsz : sz < largestSubpageSize)
    (hf : ¬Supported s (.malloc sz)) {v : Heap} (hok : s.heap.mmMalloc n sz = .ok (v, result)) :
    ∃ b, result = some b ∧ 2 ^ 32 ≤ b := by
  rw [Supported, if_neg (Nat.not_le.mpr hsz)] at hf
  push Not at hf
  obtain ⟨⟨⟨i, htype, hfind⟩, hrec, hroom⟩, hge⟩ := hf
  obtain ⟨r, t, halloc, h0, hp⟩ := (nextPage_iff hs).mpr ⟨hrec, hroom, rfl⟩
  rw [mmMalloc_small hsz] at hok
  obtain ⟨x, hx, hv⟩ := map_eq_ok.mp hok
  obtain ⟨w, hw⟩ : ∃ w, memSbrk t true = (some (nextPage s.heap.sub), w) := ⟨_, Prod.ext hp rfl⟩
  rw [Release.subpageKmalloc, htype] at hx
  obtain ⟨j, hj, hx⟩ := ok_of_bind hx
  cases hj
  rw [hfind] at hx
  obtain ⟨k, hk, hx⟩ := ok_of_bind hx
  cases hk
  simp only [halloc, h0, if_true, hw] at hx
  obtain ⟨b, hb, hle⟩ := newPage_ge hx
  cases hv
  exact ⟨b, hb, Nat.le_trans hge hle⟩

/-- No page has an address from 4 GB on. -/
theorem not_routed_high (hp : 2 ^ 32 ≤ p) : ¬RoutedSmall h p sz := by
  rintro ⟨r, t, -, hpage, -⟩
  have hlt : prPageaddr (h.sub.ref r) < 2 ^ 32 := page_lt h.sub r
  rw [hpage] at hlt
  simp only [pageSize] at hlt
  omega

/-- A step keeps the invariant under the condition, and otherwise the pointer is lost at once. -/
theorem step_iff (hi : ∃ L free got, Inv s L free got) (hs : Step s e u) :
    (Routed u ↔ Supported s e) ∧ (Supported s e → ∃ L free got, Inv u L free got) := by
  obtain ⟨L, free, got, hi⟩ := hi
  have hiff : (Routed u → Supported s e) → (Supported s e → ∃ L free got, Inv u L free got) →
      (Routed u ↔ Supported s e) ∧ (Supported s e → ∃ L free got, Inv u L free got) := by
    refine fun hto hfrom => ⟨⟨hto, fun hf => ?_⟩, hfrom⟩
    obtain ⟨L', free', got', hinv⟩ := hfrom hf
    exact hinv.routed
  cases hs with
  | @malloc v n sz p hok =>
    rcases Nat.lt_or_ge sz largestSubpageSize with hsz | hsz
    · refine hiff (fun hr => ?_) fun hf => ?_
      · by_contra hf
        obtain ⟨b, hb, hge⟩ := block_ge hi.sub hsz hf hok
        cases hb
        exact not_routed_high hge (hr.small (p, sz) List.mem_cons_self hsz)
      · rcases inv_small hi hsz hf hok with ⟨q, L', hq, hinv⟩ | ⟨L', hq, -⟩
        · cases hq
          exact ⟨_, _, _, hinv⟩
        · cases hq
    · have hok' : s.heap.bigKmalloc n sz = .ok (v, some p) := by rwa [Heap.mmMalloc, if_pos hsz] at hok
      refine hiff (fun hr => (supported_large hsz).mpr ?_) fun hf => ?_
      · have hheader := (outcome_of_ok hi.large.chain hok').header rfl
        obtain ⟨-, hptr, hin, -⟩ := hr.large (p, sz) List.mem_cons_self hsz
        simp only at hheader hin hptr
        rw [hheader] at hin
        simp only [smallestSubpageSize, pageSize] at hptr hin
        omega
      · rcases inv_large hi hsz ((supported_large hsz).mp hf) hok' with
          ⟨hq, -⟩ | ⟨q, free', got', hq, hinv⟩
        · cases hq
        · cases hq
          exact ⟨_, _, _, hinv⟩
  | @failed v n sz hok =>
    rcases Nat.lt_or_ge sz largestSubpageSize with hsz | hsz
    · refine hiff (fun _ => ?_) fun hf => ?_
      · by_contra hf
        obtain ⟨b, hb, -⟩ := block_ge hi.sub hsz hf hok
        cases hb
      · rcases inv_small hi hsz hf hok with ⟨q, L', hq, -⟩ | ⟨L', -, hinv⟩
        · cases hq
        · exact ⟨_, _, _, hinv⟩
    · have hok' : s.heap.bigKmalloc n sz = .ok (v, none) := by rwa [Heap.mmMalloc, if_pos hsz] at hok
      obtain ⟨hv, -, hpos, -⟩ := (outcome_of_ok hi.large.chain hok').refused_of_none rfl
      have hf : Supported s (.malloc sz) := (supported_large hsz).mpr hpos
      refine hiff (fun _ => hf) fun _ => ⟨L, free, got, ?_⟩
      simp only at hv
      rw [hv]
      exact hi
  | @free v p sz hx hok =>
    obtain ⟨L', free', hinv⟩ := inv_free hi hx hok
    exact hiff (fun _ => trivial) fun _ => ⟨_, _, _, hinv⟩
  | @write p sz a word hx hle hlt hin =>
    exact hiff (fun _ => trivial) fun _ => ⟨_, _, _, inv_write hi word hx hle hlt hin⟩

end Steps

theorem inv_started (hs : Started s) : Inv s (fun _ => []) [] [] := by
  refine ⟨?_, ?_, by simp⟩
  · rw [hs.live]
    exact inv_initial hs.lo_pos hs.lo_aligned hs.hi hs.fresh hs.recycled hs.sizebases hs.refs
  · rw [hs.live]
    exact .initial hs.bigchunks

/-- In a run of requests of all sizes a free of any live pointer acts on the page or the chunk that
the pointer came from, as long as each new page of blocks begins below 4 GB and each large request
comes to at least one page. -/
theorem free_routing_iff (hs : Started s) (hr : Along Step s run) :
    (∀ x ∈ run, Routed x.2) ↔ Along (fun u e _ => Supported u e) s run := by
  rw [← along_states (P := Routed)]
  exact along_iff (fun _ _ _ hi hs => step_iff hi hs) ⟨_, _, _, inv_started hs⟩ hr

/-- A heap of 256 MB from `lo` on. -/
def startedAt (lo : Nat) : Session where
  heap :=
    { sub :=
        { dsegLo := lo
          dsegHi := lo - 1
          dsegSize := 2 ^ 28
          freshRefs := none
          recycledRefs := none
          sizebases := fun _ => none
          ref := fun _ => ⟨none, none, 0, 0⟩
          link := fun _ => none
          refs := [] }
      chunk := fun _ => ⟨0, none⟩
      bigchunks := none }
  live := []

theorem startedAt_started (hpos : 0 < a) (ha : a % pageSize = 0) : Started (startedAt a) :=
  ⟨hpos, ha, Nat.sub_add_cancel hpos, rfl, rfl, fun _ => rfl, rfl, rfl, rfl⟩

/-- A block of a page and one of two pages, and the first is freed. -/
theorem free_routing_iff_twoKinds : ∃ run, Started (startedAt 4096) ∧ Along Step (startedAt 4096) run ∧
    run.map (fun x => x.2.live) =
      [[(11264, 1000)], [(12296, 5000), (11264, 1000)], [(12296, 5000)]] ∧
    ∀ x ∈ run, Routed x.2 := by
  have hs : Started (startedAt 4096) := startedAt_started (by decide) (by decide)
  have h1 : ((startedAt 4096).heap.mmMalloc 0 1000).toOption.map Prod.snd = some (some 11264) := by
    decide +kernel
  obtain ⟨⟨u, -⟩, hu, rfl⟩ := ok_of_map h1
  have h2 : ((startedAt 4096).heap.mmMalloc 0 1000 >>= fun x =>
      x.1.mmMalloc 0 5000).toOption.map Prod.snd = some (some 12296) := by
    decide +kernel
  obtain ⟨⟨v, -⟩, hv, rfl⟩ := ok_of_map h2
  rw [hu] at hv
  have hv : u.mmMalloc 0 5000 = .ok (v, some 12296) := hv
  have h3 : ((startedAt 4096).heap.mmMalloc 0 1000 >>= fun x => x.1.mmMalloc 0 5000 >>= fun y =>
      y.1.mmFree (some 11264)).toOption.map (fun _ => ()) = some () := by
    decide +kernel
  obtain ⟨w, hw, -⟩ := ok_of_map h3
  rw [hu] at hw
  have hw : (u.mmMalloc 0 5000 >>= fun y => y.1.mmFree (some 11264)) = .ok w := hw
  rw [hv] at hw
  have hw : v.mmFree (some 11264) = .ok w := hw
  let run : List (Event × Session) := [(.malloc 1000, ⟨u, [(11264, 1000)]⟩),
    (.malloc 5000, ⟨v, [(12296, 5000), (11264, 1000)]⟩), (.free 11264, ⟨w, [(12296, 5000)]⟩)]
  have hlive : (11264, 1000) ∈ [(12296, 5000), (11264, 1000)] := by simp
  have hr : Along Step (startedAt 4096) run := ⟨.malloc hu, .malloc hv, .free hlive hw, trivial⟩
  have hf : Along (fun u e _ => Supported u e) (startedAt 4096) run := by
    refine ⟨?_, ?_, trivial, trivial⟩
    · exact fun _ => by decide
    · exact (supported_large (by decide)).mpr (by decide)
  exact ⟨run, hs, hr, rfl, (free_routing_iff hs hr).mpr hf⟩

/-- In a segment that begins at 4 GB the first block is lost at once. -/
theorem high_block_lost : ∃ run, Started (startedAt (2 ^ 32)) ∧
    Along Step (startedAt (2 ^ 32)) run ∧
    run.map (fun x => (x.1, x.2.live)) = [(.malloc 2000, [(2 ^ 32 + 6144, 2000)])] ∧
    ¬∀ x ∈ run, Routed x.2 := by
  have h1 : ((startedAt (2 ^ 32)).heap.mmMalloc 0 2000).toOption.map Prod.snd =
      some (some (2 ^ 32 + 6144)) := by
    decide +kernel
  obtain ⟨⟨u, -⟩, hu, rfl⟩ := ok_of_map h1
  refine ⟨[(.malloc 2000, ⟨u, [(2 ^ 32 + 6144, 2000)]⟩)],
    startedAt_started (by decide) (by decide), ⟨.malloc hu, trivial⟩, rfl, fun hr => ?_⟩
  have hsmall := (hr _ List.mem_cons_self).small (2 ^ 32 + 6144, 2000) List.mem_cons_self (by decide)
  exact not_routed_high (by decide) hsmall

end Csc469.Kheap.Routing
