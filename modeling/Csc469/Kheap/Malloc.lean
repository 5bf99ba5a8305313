import Csc469.Kheap.Pagerefs

/-! `subpage_kmalloc` keeps the invariant, and so does its failure. -/
namespace Csc469.Kheap

open Execution Linked

variable {s t : State} {L L' : Place → List Nat} {live : List (Nat × Nat)} {zs : List Nat}
  {p q r i j b n sz : Nat} {h : Option Nat} {refGranted pageGranted : Bool}

theorem assert_pos {c : Prop} [Decidable c] (hc : c) : assert c = .ok () := if_pos hc

theorem le_of_blocktype (h : blocktype sz = .ok i) : i < nsizes ∧ sz ≤ size i := by
  unfold blocktype at h
  cases hfind : sizes.findIdx? (sz ≤ ·) with
  | none => simp [hfind] at h
  | some j =>
    simp only [hfind] at h
    cases h
    obtain ⟨hi, hle, -⟩ := List.findIdx?_eq_some_iff_getElem.mp hfind
    refine ⟨hi, ?_⟩
    simpa [size, List.getD, List.getElem?_eq_getElem hi] using hle

theorem blocktype_ok (hsz : sz ≤ largestSubpageSize) : ∃ i, blocktype sz = .ok i := by
  unfold blocktype
  cases hfind : sizes.findIdx? (sz ≤ ·) with
  | none =>
    have := List.findIdx?_eq_none_iff.mp hfind largestSubpageSize (by decide)
    simp [hsz] at this
  | some i => exact ⟨i, rfl⟩

/-- `freepageref` puts the pageref in front of the recycled ones. -/
theorem freepageref_ok (hl : Lists s [r] L) (hp : Pages s live L) :
    ∃ L', Lists (freepageref s r) [] L' ∧ Pages (freepageref s r) live L' ∧
      ∀ i, L' (.base i) = L (.base i) := by
  have hr : r ∈ s.refs := (hl.refs r).mpr (.inl (by simp))
  have hsame : ∀ i, Function.update L .recycled (r :: L .recycled) (.base i) = L (.base i) :=
    fun i => Function.update_of_ne (by simp) _ _
  refine ⟨Function.update L .recycled (r :: L .recycled), ?_, ?_, hsame⟩
  · refine hl.push (by simp) ?_ (fun q hq => ?_) head_recycledRefs rfl
    · simp [freepageref, State.next, State.setRef, State.head]
    · simp [freepageref, State.next, State.setRef, hq]
  · refine hp.congr rfl rfl rfl rfl rfl (fun q => (setRef_fields q).1)
      (fun q => (setRef_fields q).2.1) (fun q => (setRef_fields q).2.2.1)
      (fun q => (setRef_fields q).2.2.2) (fun pl q hq => ?_) (fun q hq => ?_) (fun i q hq => ?_) ?_
    · by_cases hpl : pl = .recycled
      · subst hpl
        rcases List.mem_cons.mp (by simpa using hq) with rfl | hq
        · exact hr
        · exact hl.mem hq
      · exact hl.mem (show q ∈ L pl by simpa [hpl] using hq)
    · simpa using hq
    · rwa [hsame] at hq
    · intro i q hq hq'
      rw [hsame] at hq'
      exact (hq' hq).elim

theorem freepageref_ref_ne (h : q ≠ r) : (freepageref s r).ref q = s.ref q := by
  simp [freepageref, State.setRef, h]

/-- The first pageref on the list with a free block. -/
theorem findPage_ok (hc : Chain s.next h zs) (hk : ∀ q ∈ zs, s.kind q = i) (hn : zs.length ≤ n) :
    findPage s i n h = .ok (zs.find? fun q => 0 < (s.ref q).nfree) := by
  induction zs generalizing n h with
  | nil =>
    obtain rfl : h = none := hc
    cases n <;> rfl
  | cons q zs ih =>
    obtain ⟨rfl, hc⟩ := hc
    cases n with
    | zero => simp at hn
    | succ n =>
      have hq : prBlocktype (s.ref q) = i := hk q (by simp)
      simp only [findPage, assert, hq, if_true, List.find?_cons]
      by_cases hfree : 0 < (s.ref q).nfree
      · simp [hfree, bind, Except.bind]
      · simp only [hfree, if_false, decide_false]
        exact ih hc (fun q' hq' => hk q' (by simp [hq'])) (by simpa using hn)

section Doalloc

variable {rest : List Nat}

/-- The state in which the first block of the page at `r`, the one at `p`, is no longer free. -/
def popped (s : State) (r p : Nat) : State :=
  s.setRef r fun v => { v with flist := s.link p, nfree := v.nfree - 1 }

theorem popped_ref_self :
    (popped s r p).ref r = { s.ref r with flist := s.link p, nfree := (s.ref r).nfree - 1 } :=
  setRef_ref_self

theorem popped_page (q : Nat) : (popped s r p).page q = s.page q := by
  by_cases hq : q = r
  · simp [State.page, hq, popped_ref_self, prPageaddr]
  · simp only [State.page, popped, setRef_ref_ne hq]

/-- The assertions of `doalloc` hold. -/
theorem doalloc_eq (hok : PageOk s (live.map Prod.fst) i r (p :: rest))
    (hon : OnPage (s.page r) p) : doalloc s r = .ok (popped s r p, some p) := by
  obtain ⟨hflist, hrest⟩ := hok.chain
  have hflistr : ((popped s r p).ref r).flist = s.link p := by rw [popped_ref_self]
  have hnfree : ((popped s r p).ref r).nfree = rest.length := by
    simp [popped_ref_self, hok.nfree]
  have hbound : prPageaddr ((popped s r p).ref r) ≤ p ∧
      p < prPageaddr ((popped s r p).ref r) + pageSize := by
    rw [← popped_page (p := p)] at hon
    exact hon
  have hdo : doalloc s r = (if ((popped s r p).ref r).flist ≠ none then do
      assert (0 < ((popped s r p).ref r).nfree)
      assert (prPageaddr ((popped s r p).ref r) ≤ p ∧
        p < prPageaddr ((popped s r p).ref r) + pageSize)
      .ok (popped s r p, some p)
    else do
      assert (((popped s r p).ref r).nfree = 0)
      .ok (popped s r p, some p)) := by
    simp only [doalloc, hflist]
    rfl
  rw [hdo]
  by_cases hlast : ((popped s r p).ref r).flist = none
  · have hnil : rest = [] :=
      List.head?_eq_none_iff.mp ((Chain.head_eq hrest).symm.trans (hflistr.symm.trans hlast))
    have hzero : ((popped s r p).ref r).nfree = 0 := by simp [hnfree, hnil]
    rw [if_neg (not_not.mpr hlast), assert_pos hzero]
    rfl
  · have hpos : 0 < ((popped s r p).ref r).nfree := by
      rw [hnfree]
      cases rest with
      | nil => exact (hlast (hflistr.trans hrest)).elim
      | cons b rest => simp
    rw [if_pos hlast, assert_pos hpos, assert_pos hbound]
    rfl

/-- The free list of the page after the allocation. -/
theorem PageOk.popped (hok : PageOk s (live.map Prod.fst) i r (p :: rest)) :
    PageOk (popped s r p) (((p, sz) :: live).map Prod.fst) i r rest := by
  have hnd := List.nodup_cons.mp hok.nodup
  refine ⟨?_, ?_, fun b => ?_, ?_⟩
  · rw [popped_ref_self]
    exact hok.chain.2
  · simp [popped_ref_self, hok.nfree]
  · -- `p` is the block that leaves the free list
    have hb := hok.free b
    rw [popped_page, List.map_cons, List.mem_cons, not_or]
    rw [List.mem_cons] at hb
    constructor
    · intro hbr
      have hne : b ≠ p := fun he => hnd.1 (he ▸ hbr)
      exact ⟨(hb.mp (.inr hbr)).1, hne, (hb.mp (.inr hbr)).2⟩
    · rintro ⟨hb1, hne, hb2⟩
      exact (hb.mpr ⟨hb1, hb2⟩).resolve_left hne
  · intro b hb hon'
    rw [popped_page] at hon' ⊢
    rcases List.mem_cons.mp hb with rfl | hb
    · exact ((hok.free b).mp (by simp)).1
    · exact hok.used b hb hon'

/-- The first free block of the page is taken. -/
theorem doalloc_ok (hl : Lists s [] L) (hp : Pages s live L) (hr : r ∈ L (.base i))
    (hfree : 0 < (s.ref r).nfree) (htype : blocktype sz = .ok i) :
    ∃ t p, doalloc s r = .ok (t, some p) ∧ Lists t [] L ∧ Pages t ((p, sz) :: live) L ∧
      OnPage (s.page r) p ∧ Elsewhere s t r (s.page r) ∧ ∀ q, t.page q = s.page q := by
  obtain ⟨free, hok⟩ := hp.filled i r hr
  obtain ⟨p, rest, rfl⟩ : ∃ p rest, free = p :: rest := by
    cases free with
    | nil => simp [hok.nfree] at hfree
    | cons p rest => exact ⟨p, rest, rfl⟩
  obtain ⟨hblock, hunused⟩ := (hok.free p).mp (by simp)
  have hon : OnPage (s.page r) p := onPage_of_blocks (hp.kinds i r hr).1 hblock
  have hkind : (popped s r p).kind r = s.kind r := by
    simp [State.kind, popped_ref_self, prBlocktype]
  have helse : Elsewhere s (popped s r p) r (s.page r) :=
    ⟨rfl, rfl, rfl, rfl, fun q hq => setRef_ref_ne hq, fun _ _ => rfl⟩
  refine ⟨popped s r p, p, doalloc_eq hok hon, hl.congr (setRef_next rfl) rfl rfl, ?_, hon, helse,
    popped_page⟩
  refine hp.update hr helse (popped_page r) hkind hok.popped (fun x hx => ?_) (fun x hx => ?_) ?_
  · rw [List.mem_cons, or_iff_right]
    rintro rfl
    exact hx hon
  · rcases List.mem_cons.mp hx with rfl | hx
    · exact .inr htype
    · exact .inl hx
  · exact List.nodup_cons.mpr ⟨hunused, hp.nodup⟩

end Doalloc

section NewPage

theorem buildFreelist_succ (s : State) (p sz n : Nat) : buildFreelist s p sz (n + 2) =
    (buildFreelist s p sz (n + 1)).setLink (p + (n + 1) * sz) (some (p + n * sz)) := by
  simp only [buildFreelist, Nat.add_sub_cancel, Nat.add_succ_sub_one, List.range'_1_concat,
    List.foldl_append, List.foldl_cons, List.foldl_nil, Nat.add_comm 1 n]

/-- Every block of the page links to the one below it, and nothing else is written. -/
theorem buildFreelist_spec (s : State) (p : Nat) {sz : Nat} (hsz : 0 < sz) (n : Nat) :
    Chain (buildFreelist s p sz (n + 1)).link (some (p + n * sz))
        ((List.range (n + 1)).reverse.map (p + · * sz)) ∧
      buildFreelist s p sz (n + 1) = { s with link := (buildFreelist s p sz (n + 1)).link } ∧
      ∀ b, (∀ k ≤ n, b ≠ p + k * sz) → (buildFreelist s p sz (n + 1)).link b = s.link b := by
  induction n with
  | zero =>
    refine ⟨⟨by simp, ?_⟩, rfl, fun b hb => ?_⟩
    · simp [buildFreelist, State.setLink, Seg]
    · have := hb 0 (Nat.le_refl 0)
      simp only [Nat.zero_mul, Nat.add_zero] at this
      simp [buildFreelist, State.setLink, this]
  | succ n ih =>
    obtain ⟨hchain, heq, hother⟩ := ih
    rw [buildFreelist_succ]
    refine ⟨?_, ?_, fun b hb => ?_⟩
    · rw [List.range_succ, List.reverse_append, List.reverse_singleton, List.singleton_append,
        List.map_cons]
      refine ⟨rfl, ?_⟩
      rw [setLink_link, Function.update_self]
      refine hchain.congr fun b hb => Function.update_of_ne ?_ _ _
      -- the block that is linked last lies above the others
      simp only [List.mem_map, List.mem_reverse, List.mem_range] at hb
      obtain ⟨k, hk, rfl⟩ := hb
      have := Nat.mul_lt_mul_of_pos_right hk hsz
      omega
    · rw [heq]
      rfl
    · rw [setLink_link, Function.update_of_ne (hb (n + 1) (Nat.le_refl _))]
      exact hother b fun k hk => hb k (Nat.le_succ_of_le hk)

/-- All blocks of the page at `p`, which `r` now owns, are free, and nothing else is written. -/
structure Filled (s : State) (r p i : Nat) (t : State) : Prop where
  self : t.ref r = ⟨s.sizebases i, some (p + (pageSize / size i - 1) * size i), mkpab p i,
    (pageSize / size i : Nat)⟩
  other : ∀ q, q ≠ r → t.ref q = s.ref q
  head : t.head = Function.update s.head (.base i) (some r)
  refs : t.refs = s.refs
  dsegLo : t.dsegLo = s.dsegLo
  dsegHi : t.dsegHi = s.dsegHi
  dsegSize : t.dsegSize = s.dsegSize
  chain : Chain t.link (some (p + (pageSize / size i - 1) * size i))
    ((List.range (pageSize / size i)).reverse.map (p + · * size i))
  link : ∀ b, ¬OnPage p b → t.link b = s.link b

theorem Filled.elsewhere (hf : Filled s r p i t) : Elsewhere s t r p :=
  ⟨hf.refs, hf.dsegLo, hf.dsegHi, hf.dsegSize, hf.other, hf.link⟩

theorem newPage_filled (s : State) (r p : Nat) (hi : i < nsizes) :
    ∃ t, newPage s r p i = doalloc t r ∧ Filled s r p i t := by
  obtain ⟨n, hn⟩ : ∃ n, pageSize / size i = n + 2 :=
    ⟨_, (Nat.sub_add_cancel (size_facts hi).2.2.1).symm⟩
  obtain ⟨hchain, hu, hother⟩ := buildFreelist_spec s p (size_pos hi) (n + 1)
  let u := buildFreelist s p (size i) (pageSize / size i)
  rw [show n + 1 + 1 = pageSize / size i from hn.symm] at hchain hu hother
  have hu : u = { s with link := u.link } := hu
  have hsizes : u.sizebases = s.sizebases := (congrArg State.sizebases hu).trans rfl
  let v := u.setRef r fun _ =>
    { next := u.sizebases i
      flist := some (p + (pageSize / size i - 1) * size i)
      pageaddrAndBlocktype := mkpab p i
      nfree := (pageSize / size i : Nat) }
  have hhead : v.head = s.head := (congrArg State.head hu).trans rfl
  refine ⟨{ v with sizebases := Function.update v.sizebases i (some r) }, rfl, ?_, fun q hq => ?_,
    ?_, (congrArg State.refs hu).trans rfl, (congrArg State.dsegLo hu).trans rfl,
    (congrArg State.dsegHi hu).trans rfl, (congrArg State.dsegSize hu).trans rfl, ?_, fun b hb => ?_⟩
  · show v.ref r = _
    rw [← hsizes]
    exact setRef_ref_self
  · show v.ref q = s.ref q
    rw [setRef_ref_ne hq]
    exact congrFun (congrArg State.ref hu) q
  · rw [head_sizebases, hhead]
  · rwa [show pageSize / size i - 1 = n + 1 by omega]
  · refine hother b fun k hk he => hb ?_
    exact onPage_of_blocks hi (mem_blocks.mpr ⟨k, by omega, he.symm⟩)

/-- The masks keep an address below 4 GB. -/
theorem Filled.page (hf : Filled s r p i t) (hpage : s.IsPage p) (hlt : p < 2 ^ 32)
    (hi : i < nsizes) : t.page r = p ∧ t.kind r = i := by
  have hilt : i < pageSize := Nat.lt_trans hi (by decide)
  exact ⟨prPageaddr_mkpab hpage.1 hlt hilt (by rw [hf.self]),
    prBlocktype_mkpab hpage.1 hlt hilt (by rw [hf.self])⟩

theorem Filled.pageOk {ptrs : List Nat} (hf : Filled s r p i t) (hi : i < nsizes)
    (hpage : t.page r = p) (hno : ∀ b, OnPage p b → b ∉ ptrs) :
    PageOk t ptrs i r ((List.range (pageSize / size i)).reverse.map (p + · * size i)) := by
  refine ⟨?_, ?_, fun b => ?_, fun b hb hon => ?_⟩
  · rw [hf.self]
    exact hf.chain
  · simp [hf.self]
  · rw [hpage, show b ∈ (List.range (pageSize / size i)).reverse.map (p + · * size i) ↔
      b ∈ blocks p i by simp [mem_blocks], iff_self_and]
    exact fun hb => hno b (onPage_of_blocks hi hb)
  · rw [hpage] at hon
    exact (hno b hon hb).elim

/-- A page becomes one of blocks of this type, and its last block is taken. -/
theorem newPage_ok (hl : Lists s [r] L) (hp : Pages s live L) (hpage : s.IsPage p)
    (hlt : p < 2 ^ 32) (hnew : ∀ q ∈ s.refs, q ≠ r → s.page q ≠ p)
    (hapart : ∀ q ∈ s.refs, p ≠ q / pageSize * pageSize) (htype : blocktype sz = .ok i) :
    ∃ t b L', newPage s r p i = .ok (t, some b) ∧ Lists t [] L' ∧ Pages t ((b, sz) :: live) L' ∧
      OnPage p b ∧ (∀ j q, q ∈ L' (.base j) ↔ q ∈ L (.base j) ∨ q = r ∧ j = i) ∧ t.page r = p ∧
      Elsewhere s t r p := by
  have hi := (le_of_blocktype htype).1
  obtain ⟨w, hdef, hf⟩ := newPage_filled s r p hi
  obtain ⟨hwpage, hwkind⟩ := hf.page hpage hlt hi
  have hr : r ∈ s.refs := (hl.refs r).mpr (.inl (by simp))
  have hout : ∀ pl, r ∉ L pl := hl.out r (by simp)
  let L' := Function.update L (.base i) (r :: L (.base i))
  have hbase : ∀ j q, q ∈ L' (.base j) ↔ q ∈ L (.base j) ∨ q = r ∧ j = i := by
    intro j q
    by_cases hj : j = i
    · subst hj
      simp [L', or_comm]
    · simp [L', hj]
  have hlists : Lists w [] L' := by
    refine hl.push (by simp) ?_ (fun q hq => ?_) hf.head hf.refs
    · rw [State.next, hf.self]
      rfl
    · rw [State.next, hf.other q hq, State.next]
  -- no block in use is on the page
  have hno : ∀ x ∈ live, ¬OnPage p x.1 := by
    intro x hx hon
    obtain ⟨j, q, hq, honq, -⟩ := hp.held x hx
    have hqr : q ≠ r := by
      rintro rfl
      exact hout _ hq
    exact hnew q (hl.mem hq) hqr (onPage_unique (hp.isPage hq).1 hpage.1 honq hon)
  have hnotin : ∀ b, OnPage p b → b ∉ live.map Prod.fst := by
    intro b hb hmem
    obtain ⟨x, hx, rfl⟩ := List.mem_map.mp hmem
    exact hno x hx hb
  have hpages : Pages w live L' := by
    refine hp.set (hwpage ▸ hf.elsewhere) hr hi (hwpage ▸ hpage) hwkind (hwpage ▸ hnew)
      (hwpage ▸ hapart) (fun pl q hq => ?_) (fun q hq => ?_) (fun j q => ?_)
      (hf.pageOk hi hwpage hnotin) (fun _ _ => Iff.rfl)
      (fun x hx hon => ?_) hp.nodup fun j hj => (hout _ hj).elim
    · by_cases hpl : pl = .base i
      · subst hpl
        rcases (hbase i q).mp hq with hq | ⟨rfl, -⟩
        · exact hl.mem hq
        · exact hr
      · exact hl.mem (show q ∈ L pl by simpa [L', hpl] using hq)
    · have hq' : q ∈ L .fresh := by simpa [L'] using hq
      refine ⟨hq', ?_⟩
      rintro rfl
      exact hout _ hq'
    · rw [hbase]
      refine or_congr_left ⟨fun hq => ⟨?_, hq⟩, And.right⟩
      rintro rfl
      exact hout _ hq
    · rw [hwpage] at hon
      exact (hno x hx hon).elim
  have hfree : 0 < (w.ref r).nfree := by
    have := (size_facts hi).2.2.1
    rw [hf.self]
    simp only
    omega
  obtain ⟨t, b, hdo, hlt, hpt, hon, helse, hpaget⟩ := doalloc_ok hlists hpages
    ((hbase i r).mpr (.inr ⟨rfl, rfl⟩)) hfree htype
  rw [hwpage] at hon helse
  exact ⟨t, b, L', hdef.trans hdo, hlt, hpt, hon, hbase, (hpaget r).trans hwpage,
    hf.elsewhere.trans helse⟩

end NewPage

section Kmalloc

/-- What a failed call leaves alone: the lists by block type, their pagerefs, all free lists and
which pageref owns which page. -/
structure Untouched (s t : State) (L L' : Place → List Nat) : Prop where
  base : ∀ i, L' (.base i) = L (.base i)
  sizebases : t.sizebases = s.sizebases
  link : t.link = s.link
  ref : ∀ i, ∀ q ∈ L (.base i), t.ref q = s.ref q
  page : ∀ q ∈ s.refs, t.page q = s.page q

/-- The same pages are in use. -/
theorem Busy.congr (hb : Busy s live L) (hbase : ∀ i, L' (.base i) = L (.base i))
    (hpage : ∀ i, ∀ q ∈ L (.base i), t.page q = s.page q) : Busy t live L' := by
  intro i q hq
  rw [hbase] at hq
  rw [hpage i q hq]
  exact hb i q hq

theorem RefOut.page (ho : RefOut s t live L L' r) (hp : Pages s live L) :
    ∀ i, ∀ q ∈ L (.base i), t.page q = s.page q := fun i q hq => by
  rw [State.page, ho.old q (hp.mem _ q hq), State.page]

theorem newPage_inv (hl : Lists s [r] L) (hp : Pages s live L) (hb : Busy s live L)
    (hpage : s.IsPage p) (hlt : p < 2 ^ 32) (hnew : ∀ q ∈ s.refs, q ≠ r → s.page q ≠ p)
    (hapart : ∀ q ∈ s.refs, p ≠ q / pageSize * pageSize) (htype : blocktype sz = .ok i) :
    ∃ t b L', newPage s r p i = .ok (t, some b) ∧ Inv t ((b, sz) :: live) L' ∧ t.page r = p ∧
      Elsewhere s t r p := by
  obtain ⟨t, b, L', heq, hlt, hpt, hon, hbase, hpr, helse⟩ :=
    newPage_ok hl hp hpage hlt hnew hapart htype
  refine ⟨t, b, L', heq, ⟨hlt, hpt, fun j q hq => ?_⟩, hpr, helse⟩
  by_cases hqr : q = r
  · rw [hqr, hpr]
    exact ⟨(b, sz), by simp, hon⟩
  · obtain ⟨x, hx, honx⟩ := hb j q (((hbase j q).mp hq).resolve_right fun h => hqr h.1)
    rw [helse.page hqr]
    exact ⟨x, by simp [hx], honx⟩

/-- The page at `p` comes into use. -/
theorem Elsewhere.uses {x : Nat} (he : Elsewhere s t r p) (hpr : t.page r = p) (hu : t.Uses x) :
    s.Uses x ∨ x = p := by
  rcases hu with ⟨q, hq, hx⟩ | ⟨q, hq, h0, hx⟩
  · exact .inl (.inl ⟨q, he.refs ▸ hq, hx⟩)
  · by_cases hqr : q = r
    · exact .inr (by rw [← hx, hqr, hpr])
    · rw [he.page hqr] at h0 hx
      exact .inl (.inr ⟨q, he.refs ▸ hq, h0, hx⟩)

/-- The page at `p` is new, or was in use before. -/
theorem Frame.newPage {u : State} (hf : Frame s t) (he : Elsewhere t u r p) (hpr : u.page r = p)
    (hp : s.Uses p ∨ s.dsegHi < p) : Frame s u where
  dsegLo := he.dsegLo.trans hf.dsegLo
  dsegSize := he.dsegSize.trans hf.dsegSize
  dsegHi := by
    rw [he.dsegHi]
    exact hf.dsegHi
  uses x hu := by
    rcases he.uses hpr hu with hu | rfl
    · exact hf.uses x hu
    · exact hp

/-- Out of memory: the pageref is recycled without a page. -/
theorem RefOut.recycled (ho : RefOut s t live L L' r) (hp : Pages s live L) (hb : Busy t live L') :
    ∃ L'', Frame s (freepageref t r) ∧ Inv (freepageref t r) live L'' ∧
      Untouched s (freepageref t r) L L'' := by
  obtain ⟨L'', hlf, hpf, hbase⟩ := freepageref_ok ho.lists ho.pages
  have hpage : ∀ q, (freepageref t r).page q = t.page q := fun q => (setRef_fields q).1
  refine ⟨L'', ⟨ho.frame.dsegLo, ho.frame.dsegSize, ho.frame.dsegHi,
    fun p hu => ho.frame.uses p (hu.of_same rfl fun q _ => hpage q)⟩,
    ⟨hlf, hpf, hb.congr hbase fun _ q _ => hpage q⟩,
    fun j => (hbase j).trans (ho.base j), ho.sizebases, ho.link, fun j q hq => ?_, fun q hq => ?_⟩
  · have hqr : q ≠ r := by
      rintro rfl
      exact ho.lists.out q (by simp) (.base j) (ho.base j ▸ hq)
    rw [← ho.old q (hp.mem _ q hq)]
    exact freepageref_ref_ne hqr
  · rw [hpage, State.page, ho.old q hq, State.page]

/-- A page that the request takes with `mem_sbrk` lies below 4 GB. -/
def PageBelow (s : State) (sz : Nat) (refGranted pageGranted : Bool) : Prop :=
  ∀ i r t p, blocktype sz = .ok i → findPage s i s.refs.length (s.sizebases i) = .ok none →
    allocpageref s refGranted = (some r, t) → prPageaddr (t.ref r) = 0 →
    (memSbrk t pageGranted).1 = some p → p < 2 ^ 32

theorem page_lt (s : State) (r : Nat) : s.page r < 2 ^ 32 :=
  Nat.lt_of_le_of_lt Nat.and_le_right (by decide)

theorem subpageKmalloc_ok (hs : Inv s live L) (hsz : sz ≤ largestSubpageSize)
    (hbelow : PageBelow s sz refGranted pageGranted) :
    ∃ t L', Frame s t ∧ ((∃ p, subpageKmalloc s sz refGranted pageGranted = .ok (t, some p) ∧
        Inv t ((p, sz) :: live) L') ∨
      subpageKmalloc s sz refGranted pageGranted = .ok (t, none) ∧ Inv t live L' ∧
        Untouched s t L L') := by
  obtain ⟨hl, hp, hb⟩ := hs
  obtain ⟨i, htype⟩ := blocktype_ok hsz
  have hfind := findPage_ok (n := s.refs.length) (hl.chains.chain (.base i))
    (fun q hq => (hp.kinds i q hq).2.1) hl.length_le
  rw [State.head] at hfind
  simp only [subpageKmalloc, htype, hfind, bind, Except.bind]
  cases hf : (L (.base i)).find? fun q => decide (0 < (s.ref q).nfree) with
  | some r =>
    -- a page of this type has a free block
    have hr : r ∈ L (.base i) := List.mem_of_find?_eq_some hf
    have hfree : 0 < (s.ref r).nfree := by simpa using List.find?_some hf
    obtain ⟨t, p, heq, hlt, hpt, hon, helse, hpage⟩ := doalloc_ok hl hp hr hfree htype
    refine ⟨t, L, helse.frame fun q _ => hpage q, .inl ⟨p, heq, hlt, hpt, fun j q hq => ?_⟩⟩
    obtain ⟨x, hx, honx⟩ := hb j q hq
    rw [hpage]
    exact ⟨x, by simp [hx], honx⟩
  | none =>
    rw [hf] at hfind
    rcases allocpageref_ok hl hp refGranted with halloc | ⟨r, t, L', halloc, ho⟩
    · refine ⟨s, L, .refl s, .inr ⟨?_, ⟨hl, hp, hb⟩, fun _ => rfl, rfl, rfl, fun _ _ _ => rfl,
        fun _ _ => rfl⟩⟩
      simp only [halloc]
    · have hbt : Busy t live L' := hb.congr ho.base (ho.page hp)
      have hr : r ∈ t.refs := (ho.lists.refs r).mpr (.inl (by simp))
      by_cases h0 : t.page r = 0
      · have h0' : prPageaddr (t.ref r) = 0 := h0
        simp only [halloc, h0', if_true]
        rcases memSbrk_cases t pageGranted with hsbrk | ⟨hsbrk, hgrow⟩
        · obtain ⟨L'', hframe, hinv, hsame⟩ := ho.recycled hp hbt
          exact ⟨freepageref t r, L'', hframe, .inr ⟨by simp only [hsbrk], hinv, hsame⟩⟩
        · have hpg := ho.pages.grown hgrow
          have hlg : Lists t.grown [r] L' := ho.lists.congr rfl rfl rfl
          have hnewPage : ¬t.IsPage (t.dsegHi + 1) := not_isPage_new
          have hpageNew := ho.pages.segment.isPage_new
          have hnew : ∀ q ∈ t.refs, q ≠ r → t.page q ≠ t.dsegHi + 1 := fun q hq _ he =>
            hnewPage (he ▸ ho.pages.owned q hq (he ▸ hpageNew.pos hpg.segment))
          have hapart : ∀ q ∈ t.refs, t.dsegHi + 1 ≠ q / pageSize * pageSize := fun q hq he =>
            hnewPage (he ▸ ho.pages.refPage q hq)
          have hlt : t.dsegHi + 1 < 2 ^ 32 :=
            hbelow i r t _ htype hfind halloc h0' (by rw [hsbrk])
          have hhi := ho.frame.dsegHi
          obtain ⟨u, b, L'', heq, hinv, hpr, helse⟩ :=
            newPage_inv hlg hpg hbt hpageNew hlt hnew hapart htype
          exact ⟨u, L'', ho.frame.grown.newPage helse hpr (.inr (by omega)),
            .inl ⟨b, by simp only [hsbrk, heq], hinv⟩⟩
      · -- the page is the recycled pageref's already
        have h0' : ¬prPageaddr (t.ref r) = 0 := h0
        simp only [halloc, h0', if_false]
        obtain ⟨u, b, L'', heq, hinv, hpr, helse⟩ := newPage_inv ho.lists ho.pages hbt
          (ho.pages.owned r hr h0) (page_lt t r)
          (fun q hq hqr he => hqr (ho.pages.unique r hr q hq h0 he.symm).symm)
          (fun q hq => ho.pages.apart q hq r hr) htype
        exact ⟨u, L'', ho.frame.newPage helse hpr (ho.frame.uses _ (.inr ⟨r, hr, h0, rfl⟩)),
          .inl ⟨b, heq, hinv⟩⟩

end Kmalloc
end Csc469.Kheap
