import Csc469.Kheap.Subpage
import Mathlib.Data.List.Nodup
import Mathlib.Data.List.Perm.Subperm

/-! What holds of the pagerefs, their lists and their free lists. -/
namespace Csc469.Kheap

open Execution Linked

/-- The lists of pagerefs. -/
inductive Place where
  | fresh
  | recycled
  | base (blktype : Nat)
  deriving DecidableEq

namespace State

def next (s : State) (r : Nat) : Option Nat := (s.ref r).next

def head (s : State) : Place → Option Nat
  | .fresh => s.freshRefs
  | .recycled => s.recycledRefs
  | .base i => s.sizebases i

/-- The page of a pageref, 0 for none. -/
def page (s : State) (r : Nat) : Nat := prPageaddr (s.ref r)

def kind (s : State) (r : Nat) : Nat := prBlocktype (s.ref r)

/-- A page that `mem_sbrk` has returned. -/
def IsPage (s : State) (p : Nat) : Prop :=
  p % pageSize = 0 ∧ s.dsegLo ≤ p ∧ p + pageSize ≤ s.dsegHi + 1

end State

/-- The address is on the page. -/
def OnPage (p b : Nat) : Prop := p ≤ b ∧ b < p + pageSize

instance (p b : Nat) : Decidable (OnPage p b) := inferInstanceAs (Decidable (p ≤ b ∧ _))

/-- The blocks of a page of this type. -/
def blocks (p i : Nat) : List Nat := (List.range (pageSize / size i)).map (p + · * size i)

variable {s s' t : State} {L L' : Place → List Nat} {live live' : List (Nat × Nat)}
  {ptrs ptrs' out free : List Nat} {p q r i b c k x : Nat}

section Addresses

theorem and_offsetMask (x : Nat) : x &&& offsetMask = x % pageSize :=
  Nat.and_two_pow_sub_one_eq_mod x 12

theorem and_pageFrame (h : x < 2 ^ 32) : x &&& pageFrame = x / pageSize * pageSize := by
  have hframe : pageFrame = 2 ^ 12 * (2 ^ 20 - 1) := rfl
  rw [hframe, show pageSize = 2 ^ 12 from rfl]
  apply Nat.eq_of_testBit_eq
  intro i
  rw [Nat.testBit_and, Nat.testBit_two_pow_mul, Nat.testBit_two_pow_sub_one,
    Nat.testBit_mul_two_pow, Nat.testBit_div_two_pow]
  by_cases hi : 12 ≤ i
  · by_cases hi' : i < 32
    · have : i - 12 < 20 := by omega
      simp [hi, this]
    · have hbit : x.testBit i = false :=
        Nat.testBit_lt_two_pow (Nat.lt_of_lt_of_le h (Nat.pow_le_pow_right (by decide) (by omega)))
      simp [hi, hbit]
  · simp [hi]

/-- A page and a block type are packed into one word and read back. -/
theorem mkpab_eq (hp : p % pageSize = 0) (hlt : p < 2 ^ 32) (hi : i < pageSize) :
    mkpab p i = p + i := by
  have hpage : p / pageSize * pageSize = p := Nat.div_mul_cancel (Nat.dvd_of_mod_eq_zero hp)
  rw [mkpab, and_pageFrame hlt, and_offsetMask, hpage, Nat.mod_eq_of_lt hi]
  have hor := Nat.two_pow_add_eq_or_of_lt (i := 12) hi (p / pageSize)
  rw [show 2 ^ 12 * (p / pageSize) = p by rw [Nat.mul_comm]; exact hpage] at hor
  exact hor.symm

theorem prPageaddr_mkpab {pr : Pageref} (hp : p % pageSize = 0) (hlt : p < 2 ^ 32) (hi : i < pageSize)
    (h : pr.pageaddrAndBlocktype = mkpab p i) : prPageaddr pr = p := by
  have hbound : p + i < 2 ^ 32 := by
    simp only [pageSize] at hp hi
    omega
  rw [prPageaddr, h, mkpab_eq hp hlt hi, and_pageFrame hbound]
  simp only [pageSize] at *
  omega

theorem prBlocktype_mkpab {pr : Pageref} (hp : p % pageSize = 0) (hlt : p < 2 ^ 32) (hi : i < pageSize)
    (h : pr.pageaddrAndBlocktype = mkpab p i) : prBlocktype pr = i := by
  rw [prBlocktype, h, mkpab_eq hp hlt hi, and_offsetMask]
  simp only [pageSize] at *
  omega

theorem size_facts (h : i < nsizes) :
    8 ≤ size i ∧ pageSize / size i * size i = pageSize ∧ 2 ≤ pageSize / size i ∧
      size i ≤ largestSubpageSize := by
  revert i
  decide

theorem size_pos (h : i < nsizes) : 0 < size i := by
  have := (size_facts h).1
  omega

theorem mem_blocks : b ∈ blocks p i ↔ ∃ k < pageSize / size i, p + k * size i = b := by
  simp [blocks]

theorem blocks_length : (blocks p i).length = pageSize / size i := by simp [blocks]

theorem blocks_nodup (h : i < nsizes) : (blocks p i).Nodup := by
  refine List.Nodup.map ?_ List.nodup_range
  intro k k' he
  have := Nat.eq_of_mul_eq_mul_right (size_pos h) (Nat.add_left_cancel he)
  exact this

/-- A block lies on its page as a whole. -/
theorem blocks_range (h : i < nsizes) (hb : b ∈ blocks p i) : p ≤ b ∧ b + size i ≤ p + pageSize := by
  obtain ⟨k, hk, rfl⟩ := mem_blocks.mp hb
  have hle : (k + 1) * size i ≤ pageSize / size i * size i := Nat.mul_le_mul_right _ hk
  rw [(size_facts h).2.1, Nat.succ_mul] at hle
  omega

theorem onPage_of_blocks (h : i < nsizes) (hb : b ∈ blocks p i) : OnPage p b := by
  have hrange := blocks_range h hb
  have hpos := size_pos h
  simp only [OnPage]
  omega

/-- Two blocks of a page do not overlap. -/
theorem blocks_apart (hb : b ∈ blocks p i) (hc : c ∈ blocks p i) (hne : b ≠ c) :
    b + size i ≤ c ∨ c + size i ≤ b := by
  obtain ⟨k, -, rfl⟩ := mem_blocks.mp hb
  obtain ⟨l, -, rfl⟩ := mem_blocks.mp hc
  rcases Nat.lt_trichotomy k l with hkl | rfl | hlk
  · have := Nat.mul_le_mul_right (size i) hkl
    rw [Nat.succ_mul] at this
    omega
  · exact absurd rfl hne
  · have := Nat.mul_le_mul_right (size i) hlk
    rw [Nat.succ_mul] at this
    omega

/-- Two pages do not overlap. -/
theorem onPage_unique (hp : p % pageSize = 0) (hq : q % pageSize = 0) (hb : OnPage p b)
    (hb' : OnPage q b) : p = q := by
  simp only [OnPage, pageSize] at *
  omega

end Addresses

/-- The free list of the pageref at `r` has the blocks of its page that are not in use. -/
structure PageOk (s : State) (ptrs : List Nat) (i r : Nat) (free : List Nat) : Prop where
  chain : Chain s.link (s.ref r).flist free
  nfree : (s.ref r).nfree = free.length
  free : ∀ b, b ∈ free ↔ b ∈ blocks (s.page r) i ∧ b ∉ ptrs
  used : ∀ b ∈ ptrs, OnPage (s.page r) b → b ∈ blocks (s.page r) i

/-- The data segment is handed out page by page. -/
structure Segment (s : State) : Prop where
  pos : 0 < s.dsegLo
  lo : s.dsegLo % pageSize = 0
  hi : (s.dsegHi + 1) % pageSize = 0
  le : s.dsegLo ≤ s.dsegHi + 1
  top : s.dsegHi ≤ s.dsegLo + s.dsegSize

/-- The pagerefs are in the lists `L`, but for those in `out`. -/
structure Lists (s : State) (out : List Nat) (L : Place → List Nat) : Prop where
  chains : Chains s.next s.head L
  refs : ∀ r, r ∈ s.refs ↔ r ∈ out ∨ ∃ pl, r ∈ L pl
  out : ∀ r ∈ out, ∀ pl, r ∉ L pl

/-- What the pagerefs say of the pages. The blocks in `live` are in use, each for a request of
this size. -/
structure Pages (s : State) (live : List (Nat × Nat)) (L : Place → List Nat) : Prop where
  segment : Segment s
  refPage : ∀ r ∈ s.refs, s.IsPage (r / pageSize * pageSize)
  owned : ∀ r ∈ s.refs, s.page r ≠ 0 → s.IsPage (s.page r)
  apart : ∀ r ∈ s.refs, ∀ r' ∈ s.refs, s.page r' ≠ r / pageSize * pageSize
  unique : ∀ r ∈ s.refs, ∀ r' ∈ s.refs, s.page r ≠ 0 → s.page r = s.page r' → r = r'
  mem : ∀ pl, ∀ r ∈ L pl, r ∈ s.refs
  fresh : ∀ r ∈ L .fresh, s.page r = 0
  kinds : ∀ i, ∀ r ∈ L (.base i), i < nsizes ∧ s.kind r = i ∧ s.page r ≠ 0
  filled : ∀ i, ∀ r ∈ L (.base i), ∃ free, PageOk s (live.map Prod.fst) i r free
  held : ∀ x ∈ live, ∃ i, ∃ r ∈ L (.base i), OnPage (s.page r) x.1 ∧ blocktype x.2 = .ok i
  nodup : (live.map Prod.fst).Nodup

/-- Every page in use has a block in use. -/
def Busy (s : State) (live : List (Nat × Nat)) (L : Place → List Nat) : Prop :=
  ∀ i, ∀ r ∈ L (.base i), ∃ x ∈ live, OnPage (s.page r) x.1

/-- The heap between two calls. -/
structure Inv (s : State) (live : List (Nat × Nat)) (L : Place → List Nat) : Prop where
  lists : Lists s [] L
  pages : Pages s live L
  busy : Busy s live L

section Pages

theorem Pages.isPage (h : Pages s live L) (hr : r ∈ L (.base i)) : s.IsPage (s.page r) :=
  h.owned r (h.mem _ r hr) (h.kinds i r hr).2.2

/-- A page belongs to one pageref. -/
theorem Pages.owner {j : Nat} (h : Pages s live L) (hr : r ∈ L (.base i)) (hq : q ∈ L (.base j))
    (hb : OnPage (s.page r) b) (hb' : OnPage (s.page q) b) : r = q :=
  h.unique r (h.mem _ r hr) q (h.mem _ q hq) (h.kinds i r hr).2.2
    (onPage_unique (h.isPage hr).1 (h.isPage hq).1 hb hb')

theorem PageOk.nodup (h : PageOk s ptrs i r free) : free.Nodup := h.chain.nodup

/-- The blocks that are free and those that are in use make up the page. -/
theorem PageOk.free_length_iff (h : PageOk s ptrs i r free) (hi : i < nsizes) :
    free.length = pageSize / size i ↔ ∀ b ∈ ptrs, ¬OnPage (s.page r) b := by
  have hsub : free ⊆ blocks (s.page r) i := fun b hb => ((h.free b).mp hb).1
  have hsubperm := List.subperm_of_subset h.nodup hsub
  constructor
  · intro hlen b hb hon
    have hperm := hsubperm.perm_of_length_le (Nat.le_of_eq (by rw [blocks_length, hlen]))
    exact ((h.free b).mp (hperm.symm.subset (h.used b hb hon))).2 hb
  · intro hno
    have hsub' : blocks (s.page r) i ⊆ free := fun b hb =>
      (h.free b).mpr ⟨hb, fun hin => hno b hin (onPage_of_blocks hi hb)⟩
    have hge := (List.subperm_of_subset (blocks_nodup hi) hsub').length_le
    have hle := hsubperm.length_le
    rw [blocks_length] at hge hle
    omega

theorem PageOk.length_le (h : PageOk s ptrs i r free) : free.length ≤ pageSize / size i := by
  have hsub : free ⊆ blocks (s.page r) i := fun b hb => ((h.free b).mp hb).1
  have := (List.subperm_of_subset h.nodup hsub).length_le
  rwa [blocks_length] at this

/-- A page whose blocks, links and uses are the same. -/
theorem PageOk.congr (h : PageOk s ptrs i r free) (hi : i < nsizes)
    (hflist : (s'.ref r).flist = (s.ref r).flist) (hnfree : (s'.ref r).nfree = (s.ref r).nfree)
    (hpage : s'.page r = s.page r)
    (hlink : ∀ b, OnPage (s.page r) b → s'.link b = s.link b)
    (hptrs : ∀ b, OnPage (s.page r) b → (b ∈ ptrs' ↔ b ∈ ptrs)) : PageOk s' ptrs' i r free := by
  have hon : ∀ b ∈ free, OnPage (s.page r) b := fun b hb =>
    onPage_of_blocks hi ((h.free b).mp hb).1
  refine ⟨?_, by rw [hnfree, h.nfree], fun b => ?_, fun b hb hb' => ?_⟩
  · rw [hflist]
    exact h.chain.congr fun b hb => hlink b (hon b hb)
  · rw [h.free, hpage]
    exact and_congr_right fun hb => not_congr (hptrs b (onPage_of_blocks hi hb)).symm
  · rw [hpage] at hb' ⊢
    exact h.used b ((hptrs b hb').mp hb) hb'

theorem Segment.congr (h : Segment s) (hlo : s'.dsegLo = s.dsegLo) (hhi : s'.dsegHi = s.dsegHi)
    (hsize : s'.dsegSize = s.dsegSize) : Segment s' := by
  obtain ⟨hpos, hlo', hhi', hle, htop⟩ := h
  constructor <;> simp only [hlo, hhi, hsize] <;> assumption

theorem State.IsPage.congr (h : s.IsPage p) (hlo : s'.dsegLo = s.dsegLo)
    (hhi : s'.dsegHi = s.dsegHi) : s'.IsPage p := by
  rw [State.IsPage, hlo, hhi]
  exact h

/-- The same pages and blocks: a pageref may be moved, or given up when its page has no block in
use. -/
theorem Pages.congr (h : Pages s live L) (hrefs : s'.refs = s.refs) (hlo : s'.dsegLo = s.dsegLo)
    (hhi : s'.dsegHi = s.dsegHi) (hsize : s'.dsegSize = s.dsegSize) (hlink : s'.link = s.link)
    (hpage : ∀ r, s'.page r = s.page r) (hkind : ∀ r, s'.kind r = s.kind r)
    (hflist : ∀ r, (s'.ref r).flist = (s.ref r).flist)
    (hnfree : ∀ r, (s'.ref r).nfree = (s.ref r).nfree) (hmem : ∀ pl, ∀ r ∈ L' pl, r ∈ s.refs)
    (hfresh : ∀ r ∈ L' .fresh, r ∈ L .fresh) (hbase : ∀ i, ∀ r ∈ L' (.base i), r ∈ L (.base i))
    (hgone : ∀ i, ∀ r ∈ L (.base i), r ∉ L' (.base i) → ∀ x ∈ live, ¬OnPage (s.page r) x.1) :
    Pages s' live L' := by
  have hisPage : ∀ {p}, s.IsPage p → s'.IsPage p := fun h => h.congr hlo hhi
  constructor
  · exact h.segment.congr hlo hhi hsize
  · rw [hrefs]
    exact fun r hr => hisPage (h.refPage r hr)
  · simp only [hrefs, hpage]
    exact fun r hr h0 => hisPage (h.owned r hr h0)
  · simpa only [hrefs, hpage] using h.apart
  · simpa only [hrefs, hpage] using h.unique
  · rwa [hrefs]
  · intro r hr
    rw [hpage]
    exact h.fresh r (hfresh r hr)
  · intro i r hr
    rw [hkind, hpage]
    exact h.kinds i r (hbase i r hr)
  · intro i r hr
    obtain ⟨free, hok⟩ := h.filled i r (hbase i r hr)
    exact ⟨free, hok.congr (h.kinds i r (hbase i r hr)).1 (hflist r) (hnfree r) (hpage r)
      (fun b _ => by rw [hlink]) fun b _ => Iff.rfl⟩
  · intro x hx
    obtain ⟨i, r, hr, hon, htype⟩ := h.held x hx
    refine ⟨i, r, ?_, by rwa [hpage], htype⟩
    by_contra hr'
    exact hgone i r hr hr' x hx hon
  · exact h.nodup

/-- Nothing is written but the pageref at `r` and the page at `p`. -/
structure Elsewhere (s s' : State) (r p : Nat) : Prop where
  refs : s'.refs = s.refs
  dsegLo : s'.dsegLo = s.dsegLo
  dsegHi : s'.dsegHi = s.dsegHi
  dsegSize : s'.dsegSize = s.dsegSize
  ref : ∀ q, q ≠ r → s'.ref q = s.ref q
  link : ∀ b, ¬OnPage p b → s'.link b = s.link b

theorem Elsewhere.page (he : Elsewhere s s' r p) (hq : q ≠ r) : s'.page q = s.page q := by
  rw [State.page, he.ref q hq, State.page]

theorem Elsewhere.kind (he : Elsewhere s s' r p) (hq : q ≠ r) : s'.kind q = s.kind q := by
  rw [State.kind, he.ref q hq, State.kind]

theorem Elsewhere.isPage {a : Nat} (he : Elsewhere s s' r p) (h : s.IsPage a) : s'.IsPage a :=
  h.congr he.dsegLo he.dsegHi

theorem Elsewhere.trans {u : State} (h : Elsewhere s t r p) (h' : Elsewhere t u r p) :
    Elsewhere s u r p where
  refs := h'.refs.trans h.refs
  dsegLo := h'.dsegLo.trans h.dsegLo
  dsegHi := h'.dsegHi.trans h.dsegHi
  dsegSize := h'.dsegSize.trans h.dsegSize
  ref q hq := (h'.ref q hq).trans (h.ref q hq)
  link b hb := (h'.link b hb).trans (h.link b hb)

/-- An address on another page in use is not on this one. -/
theorem Pages.off_page (h : Pages s live L) (hpage : s.IsPage p) (hnew : s.page q ≠ p)
    (hq : q ∈ L (.base i)) (hb : OnPage (s.page q) b) : ¬OnPage p b := fun hb' =>
  hnew (onPage_unique (h.isPage hq).1 hpage.1 hb hb')

theorem Pages.set_unique (h : Pages s live L) (he : Elsewhere s s' r (s'.page r))
    (hnew : ∀ q ∈ s.refs, q ≠ r → s.page q ≠ s'.page r) (hq : q ∈ s.refs) {q' : Nat}
    (hq' : q' ∈ s.refs) (h0 : s'.page q ≠ 0) (heq : s'.page q = s'.page q') : q = q' := by
  by_cases hqr : q = r <;> by_cases hqr' : q' = r
  · rw [hqr, hqr']
  · subst hqr
    rw [he.page hqr'] at heq
    exact (hnew q' hq' hqr' heq.symm).elim
  · subst hqr'
    rw [he.page hqr] at heq
    exact (hnew q hq hqr heq).elim
  · rw [he.page hqr, he.page hqr'] at heq
    rw [he.page hqr] at h0
    exact h.unique q hq q' hq' h0 heq

/-- The other pages are as they were. -/
theorem Pages.set_filled (h : Pages s live L) (he : Elsewhere s s' r (s'.page r)) {j : Nat}
    (hq : q ∈ L (.base j)) (hqr : q ≠ r)
    (hoff : ∀ b, OnPage (s.page q) b → ¬OnPage (s'.page r) b)
    (hsame : ∀ x, ¬OnPage (s'.page r) x.1 → (x ∈ live' ↔ x ∈ live)) :
    ∃ free, PageOk s' (live'.map Prod.fst) j q free := by
  obtain ⟨free, hok⟩ := h.filled j q hq
  refine ⟨free, hok.congr (h.kinds j q hq).1 (by rw [he.ref q hqr]) (by rw [he.ref q hqr])
    (he.page hqr) (fun b hb => he.link b (hoff b hb)) fun b hb => ?_⟩
  simp only [List.mem_map]
  constructor
  · rintro ⟨x, hx, rfl⟩
    exact ⟨x, (hsame x (hoff _ hb)).mp hx, rfl⟩
  · rintro ⟨x, hx, rfl⟩
    exact ⟨x, (hsame x (hoff _ hb)).mpr hx, rfl⟩

/-- The free list of one page changes, and what is in use on it. -/
theorem Pages.set (h : Pages s live L) (he : Elsewhere s s' r (s'.page r)) (hr : r ∈ s.refs)
    (hi : i < nsizes) (hpage : s.IsPage (s'.page r)) (hkind : s'.kind r = i)
    (hnew : ∀ q ∈ s.refs, q ≠ r → s.page q ≠ s'.page r)
    (hapart : ∀ q ∈ s.refs, s'.page r ≠ q / pageSize * pageSize)
    (hmem : ∀ pl, ∀ q ∈ L' pl, q ∈ s.refs) (hfresh : ∀ q ∈ L' .fresh, q ∈ L .fresh ∧ q ≠ r)
    (hbase : ∀ j q, q ∈ L' (.base j) ↔ q ≠ r ∧ q ∈ L (.base j) ∨ q = r ∧ j = i)
    (hok : PageOk s' (live'.map Prod.fst) i r free)
    (hsame : ∀ x, ¬OnPage (s'.page r) x.1 → (x ∈ live' ↔ x ∈ live))
    (hheld : ∀ x ∈ live', OnPage (s'.page r) x.1 → blocktype x.2 = .ok i)
    (hnodup : (live'.map Prod.fst).Nodup) (hpr : ∀ j, r ∈ L (.base j) → s.page r = s'.page r) :
    Pages s' live' L' := by
  have hpos : s'.page r ≠ 0 := by
    have := h.segment.pos
    have := hpage.2.1
    omega
  constructor
  · exact h.segment.congr he.dsegLo he.dsegHi he.dsegSize
  · rw [he.refs]
    exact fun q hq => he.isPage (h.refPage q hq)
  · intro q hq h0
    rw [he.refs] at hq
    by_cases hqr : q = r
    · exact hqr ▸ he.isPage hpage
    · rw [he.page hqr] at h0 ⊢
      exact he.isPage (h.owned q hq h0)
  · intro q hq q' hq'
    rw [he.refs] at hq hq'
    by_cases hqr : q' = r
    · exact hqr ▸ hapart q hq
    · rw [he.page hqr]
      exact h.apart q hq q' hq'
  · rw [he.refs]
    exact fun q hq q' hq' h0 heq => h.set_unique he hnew hq hq' h0 heq
  · rwa [he.refs]
  · intro q hq
    obtain ⟨hq, hqr⟩ := hfresh q hq
    rw [he.page hqr]
    exact h.fresh q hq
  · intro j q hq
    rcases (hbase j q).mp hq with ⟨hqr, hq⟩ | ⟨rfl, rfl⟩
    · rw [he.page hqr, he.kind hqr]
      exact h.kinds j q hq
    · exact ⟨hi, hkind, hpos⟩
  · intro j q hq
    rcases (hbase j q).mp hq with ⟨hqr, hq⟩ | ⟨rfl, rfl⟩
    · exact h.set_filled he hq hqr
        (fun b hb => h.off_page hpage (hnew q (h.mem _ q hq) hqr) hq hb) hsame
    · exact ⟨free, hok⟩
  · intro x hx
    by_cases hon : OnPage (s'.page r) x.1
    · exact ⟨i, r, (hbase i r).mpr (.inr ⟨rfl, rfl⟩), hon, hheld x hx hon⟩
    · obtain ⟨j, q, hq, honq, htype⟩ := h.held x ((hsame x hon).mp hx)
      have hqr : q ≠ r := by
        rintro rfl
        exact hon (hpr j hq ▸ honq)
      exact ⟨j, q, (hbase j q).mpr (.inl ⟨hqr, hq⟩), by rwa [he.page hqr], htype⟩
  · exact hnodup

theorem Pages.kind_unique (h : Pages s live L) (hi : r ∈ L (.base i)) {j : Nat}
    (hj : r ∈ L (.base j)) : j = i := by
  rw [← (h.kinds i r hi).2.1, ← (h.kinds j r hj).2.1]

/-- The free list of a page in use changes, and what is in use on the page. -/
theorem Pages.update (h : Pages s live L) (hr : r ∈ L (.base i))
    (hother : Elsewhere s s' r (s.page r)) (hpage : s'.page r = s.page r)
    (hkind : s'.kind r = s.kind r) (hok : PageOk s' (live'.map Prod.fst) i r free)
    (hsame : ∀ x, ¬OnPage (s.page r) x.1 → (x ∈ live' ↔ x ∈ live))
    (hheld : ∀ x ∈ live', x ∈ live ∨ blocktype x.2 = .ok i) (hnodup : (live'.map Prod.fst).Nodup) :
    Pages s' live' L := by
  obtain ⟨hi, hk, h0⟩ := h.kinds i r hr
  have hmem := h.mem _ r hr
  refine h.set (by rwa [hpage]) hmem hi (by rw [hpage]; exact h.isPage hr) (hkind.trans hk)
    (fun q hq hqr he => ?_) (fun q hq he => ?_) h.mem (fun q hq => ⟨hq, ?_⟩)
    (fun j q => ?_) hok (by rwa [hpage]) (fun x hx hon => ?_) hnodup fun _ _ => hpage.symm
  · rw [hpage] at he
    exact hqr (h.unique q hq r hmem (he ▸ h0) he)
  · rw [hpage] at he
    exact h.apart q hq r hmem he
  · rintro rfl
    exact h0 (h.fresh q hq)
  · constructor
    · intro hq
      by_cases hqr : q = r
      · subst hqr
        exact .inr ⟨rfl, h.kind_unique hr hq⟩
      · exact .inl ⟨hqr, hq⟩
    · rintro (⟨-, hq⟩ | ⟨rfl, rfl⟩)
      · exact hq
      · exact hr
  · rw [hpage] at hon
    rcases hheld x hx with hx | htype
    · obtain ⟨j, q, hq, honq, htype⟩ := h.held x hx
      obtain rfl := h.owner hr hq hon honq
      rwa [h.kind_unique hr hq] at htype
    · exact htype

end Pages
end Csc469.Kheap
