import Csc469.Kheap.Invariant

/-! The lists of pagerefs, and where new pagerefs come from. -/
namespace Csc469.Kheap

open Execution Linked

variable {s s' t : State} {L L' : Place → List Nat} {live : List (Nat × Nat)} {out rest : List Nat}
  {pl : Place} {p q r i x : Nat} {granted : Bool} {g : Option Nat}

section Heads

@[simp] theorem head_freshRefs :
    ({ s with freshRefs := g } : State).head = Function.update s.head .fresh g := by
  funext pl
  cases pl <;> rfl

@[simp] theorem head_recycledRefs :
    ({ s with recycledRefs := g } : State).head = Function.update s.head .recycled g := by
  funext pl
  cases pl <;> rfl

@[simp] theorem head_sizebases :
    ({ s with sizebases := Function.update s.sizebases i g } : State).head =
      Function.update s.head (.base i) g := by
  funext pl
  cases pl with
  | fresh => rfl
  | recycled => rfl
  | base j => by_cases hj : j = i <;> simp [State.head, Function.update, hj]

theorem setRef_ref_ne {f : Pageref → Pageref} (h : q ≠ r) : (s.setRef r f).ref q = s.ref q := by
  simp [State.setRef, h]

@[simp] theorem setRef_ref_self {f : Pageref → Pageref} : (s.setRef r f).ref r = f (s.ref r) := by
  simp [State.setRef]

@[simp] theorem setLink_link : (s.setLink r g).link = Function.update s.link r g := rfl

/-- A change of the other fields. -/
theorem setRef_next {f : Pageref → Pageref} (h : (f (s.ref r)).next = (s.ref r).next) :
    (s.setRef r f).next = s.next := by
  funext q
  by_cases hq : q = r
  · simp [State.next, hq, h]
  · simp only [State.next, setRef_ref_ne hq]

/-- A change of the link alone. -/
theorem setRef_fields {n : Option Nat} (q : Nat) :
    let t := s.setRef r fun v => { v with next := n }
    t.page q = s.page q ∧ t.kind q = s.kind q ∧ (t.ref q).flist = (s.ref q).flist ∧
      (t.ref q).nfree = (s.ref q).nfree := by
  by_cases hq : q = r
  · subst hq
    simp [State.page, State.kind, prPageaddr, prBlocktype]
  · simp [State.page, State.kind, setRef_ref_ne hq]

end Heads

namespace Lists

theorem mem (h : Lists s out L) (hr : r ∈ L pl) : r ∈ s.refs := (h.refs r).mpr (.inr ⟨pl, hr⟩)

/-- The walks over a list end within as many steps as there are pagerefs. -/
theorem length_le (h : Lists s out L) : (L pl).length ≤ s.refs.length :=
  (List.subperm_of_subset (h.chains.chain pl).nodup fun _ hr => h.mem hr).length_le

/-- Writes that are not to the lists. -/
theorem congr (h : Lists s out L) (hnext : s'.next = s.next) (hhead : s'.head = s.head)
    (hrefs : s'.refs = s.refs) : Lists s' out L :=
  ⟨by rw [hnext, hhead]; exact h.chains, by rw [hrefs]; exact h.refs, h.out⟩

/-- A pageref is taken out of its list. -/
theorem remove (h : Lists s out L) (hr : r ∈ L pl) (hrest : ∀ q, q ∈ rest ↔ q ∈ L pl ∧ q ≠ r)
    (hc : Chains s'.next s'.head (Function.update L pl rest)) (hrefs : s'.refs = s.refs) :
    Lists s' (r :: out) (Function.update L pl rest) := by
  have hmem : ∀ q pl', q ∈ Function.update L pl rest pl' ↔ q ∈ L pl' ∧ q ≠ r := by
    intro q pl'
    by_cases hpl : pl' = pl
    · subst hpl
      simp [hrest]
    · simp only [ne_eq, hpl, not_false_eq_true, Function.update_of_ne, iff_self_and]
      rintro hq rfl
      exact hpl (h.chains.disjoint pl' pl q hq hr)
  refine ⟨hc, fun q => ?_, fun q hq pl' hq' => ?_⟩
  · rw [hrefs, h.refs]
    simp only [hmem, List.mem_cons]
    constructor
    · rintro (hq | ⟨pl', hq⟩)
      · exact .inl (.inr hq)
      · by_cases hqr : q = r
        · exact .inl (.inl hqr)
        · exact .inr ⟨pl', hq, hqr⟩
    · rintro ((rfl | hq) | ⟨pl', hq, -⟩)
      · exact .inr ⟨pl, hr⟩
      · exact .inl hq
      · exact .inr ⟨pl', hq⟩
  · obtain ⟨hq', hqr⟩ := (hmem q pl').mp hq'
    rcases List.mem_cons.mp hq with rfl | hq
    · exact hqr rfl
    · exact h.out q hq pl' hq'

theorem pop (h : Lists s out L) (hr : L pl = r :: rest) (hnext : s'.next = s.next)
    (hhead : s'.head = Function.update s.head pl (s.next r)) (hrefs : s'.refs = s.refs) :
    Lists s' (r :: out) (Function.update L pl rest) := by
  have hnd := (h.chains.chain pl).nodup
  rw [hr] at hnd
  refine h.remove (by simp [hr]) (fun q => ?_) ?_ hrefs
  · rw [hr, List.mem_cons]
    constructor
    · exact fun hq => ⟨.inr hq, fun he => (List.nodup_cons.mp hnd).1 (he ▸ hq)⟩
    · rintro ⟨rfl | hq, hqr⟩
      · exact (hqr rfl).elim
      · exact hq
  · rw [hnext, hhead]
    exact h.chains.pop hr

theorem push (h : Lists s (r :: out) L) (hout : r ∉ out) (hr : s'.next r = s.head pl)
    (hother : ∀ q, q ≠ r → s'.next q = s.next q)
    (hhead : s'.head = Function.update s.head pl (some r)) (hrefs : s'.refs = s.refs) :
    Lists s' out (Function.update L pl (r :: L pl)) := by
  have hmem : ∀ q, (∃ pl', q ∈ Function.update L pl (r :: L pl) pl') ↔ q = r ∨ ∃ pl', q ∈ L pl' := by
    intro q
    constructor
    · rintro ⟨pl', hq⟩
      by_cases hpl : pl' = pl
      · subst hpl
        rcases List.mem_cons.mp (by simpa using hq) with rfl | hq
        · exact .inl rfl
        · exact .inr ⟨pl', hq⟩
      · exact .inr ⟨pl', by simpa [hpl] using hq⟩
    · rintro (rfl | ⟨pl', hq⟩)
      · exact ⟨pl, by simp⟩
      · by_cases hpl : pl' = pl
        · subst hpl
          exact ⟨pl', by simp [hq]⟩
        · exact ⟨pl', by simpa [hpl] using hq⟩
  refine ⟨?_, fun q => ?_, fun q hq pl' hq' => ?_⟩
  · rw [hhead]
    exact h.chains.push (h.out r (by simp)) hr hother
  · rw [hrefs, h.refs, hmem, List.mem_cons, ← or_assoc, or_comm (a := q = r)]
  · rcases (hmem q).mp ⟨pl', hq'⟩ with rfl | ⟨pl'', hq''⟩
    · exact hout hq
    · exact h.out q (by simp [hq]) pl'' hq''

end Lists

section NewPages

/-- The data segment after `n` more bytes. -/
def State.widened (s : State) (n : Nat) : State := { s with dsegHi := s.dsegHi + n }

/-- The data segment after one more page. -/
def State.grown (s : State) : State := { s with dsegHi := s.dsegHi + pageSize }

theorem memSbrk_cases (s : State) (granted : Bool) : memSbrk s granted = (none, s) ∨
    memSbrk s granted = (some (s.dsegHi + 1), s.grown) ∧
      s.dsegHi + pageSize ≤ s.dsegLo + s.dsegSize := by
  unfold memSbrk
  split
  · exact .inr ⟨rfl, (by assumption : _ ∧ _).2⟩
  · exact .inl rfl

theorem memSbrk_page : (memSbrk t true).1 = some p ↔
    t.dsegHi + 1 + pageSize ≤ t.dsegLo + t.dsegSize + 1 ∧ p = t.dsegHi + 1 := by
  by_cases hroom : t.dsegHi + pageSize ≤ t.dsegLo + t.dsegSize
  · simp only [memSbrk, hroom, and_self, if_true, Option.some.injEq]
    omega
  · simp only [memSbrk, hroom, and_false, if_false, reduceCtorEq, false_iff]
    omega

theorem State.IsPage.widened (h : s.IsPage p) (n : Nat) : (s.widened n).IsPage p :=
  ⟨h.1, h.2.1, Nat.le_trans h.2.2 (by simp [State.widened])⟩

theorem State.IsPage.pos (h : s.IsPage p) (hs : Segment s) : p ≠ 0 := by
  have := hs.pos
  have := h.2.1
  omega

/-- The page that `mem_sbrk` returns is none of the earlier ones. -/
theorem not_isPage_new : ¬s.IsPage (s.dsegHi + 1) := by
  rintro ⟨-, -, h⟩
  simp only [pageSize] at h
  omega

theorem Segment.isPage_new (h : Segment s) : s.grown.IsPage (s.dsegHi + 1) := by
  refine ⟨h.hi, h.le, ?_⟩
  simp only [State.grown]
  omega

theorem Segment.widened {n : Nat} (h : Segment s) (hn : n % pageSize = 0)
    (hle : s.dsegHi + n ≤ s.dsegLo + s.dsegSize) : Segment (s.widened n) := by
  obtain ⟨hpos, hlo, hhi, hge, -⟩ := h
  refine ⟨hpos, hlo, ?_, ?_, hle⟩
  · rw [State.widened, Nat.add_right_comm, Nat.add_mod, hhi, hn]
    rfl
  · exact Nat.le_trans hge (by simp [State.widened])

theorem Pages.widened {n : Nat} (h : Pages s live L) (hn : n % pageSize = 0)
    (hle : s.dsegHi + n ≤ s.dsegLo + s.dsegSize) : Pages (s.widened n) live L :=
  { segment := h.segment.widened hn hle
    refPage := fun r hr => (h.refPage r hr).widened n
    owned := fun r hr h0 => (h.owned r hr h0).widened n
    apart := h.apart
    unique := h.unique
    mem := h.mem
    fresh := h.fresh
    kinds := h.kinds
    filled := fun i r hr => by
      obtain ⟨free, hok⟩ := h.filled i r hr
      exact ⟨free, hok.congr (h.kinds i r hr).1 rfl rfl rfl (fun _ _ => rfl) fun _ _ => Iff.rfl⟩
    held := h.held
    nodup := h.nodup }

theorem Segment.grown (h : Segment s) (hle : s.dsegHi + pageSize ≤ s.dsegLo + s.dsegSize) :
    Segment s.grown := h.widened (Nat.mod_self _) hle

theorem Pages.grown (h : Pages s live L) (hle : s.dsegHi + pageSize ≤ s.dsegLo + s.dsegSize) :
    Pages s.grown live L := h.widened (Nat.mod_self _) hle

/-- `linkRefs` writes the links of the pagerefs it goes over, which become one list. -/
theorem linkRefs_spec (n tmp : Nat) (s : State) :
    Chain (linkRefs n tmp s).next (some tmp) (List.range' tmp (n + 1) sizeofPageref) ∧
      linkRefs n tmp s = { s with ref := (linkRefs n tmp s).ref } ∧
      (∀ q ∉ List.range' tmp (n + 1) sizeofPageref, (linkRefs n tmp s).ref q = s.ref q) ∧
      ∀ q, ∃ nx, (linkRefs n tmp s).ref q = { s.ref q with next := nx } := by
  induction n generalizing tmp s with
  | zero =>
    refine ⟨⟨rfl, ?_⟩, rfl, fun q hq => setRef_ref_ne (by simpa using hq), fun q => ?_⟩
    · simp [linkRefs, State.next, Seg]
    · by_cases hq : q = tmp
      · exact ⟨none, by simp [linkRefs, hq]⟩
      · exact ⟨(s.ref q).next, by simp [linkRefs, setRef_ref_ne hq]⟩
  | succ n ih =>
    obtain ⟨hchain, heq, hother, hfields⟩ := ih (tmp + sizeofPageref)
      (s.setRef tmp fun r => { r with next := some (tmp + sizeofPageref) })
    have htmp : tmp ∉ List.range' (tmp + sizeofPageref) (n + 1) sizeofPageref := by
      simp only [List.mem_range', sizeofPageref]
      omega
    refine ⟨?_, heq, fun q hq => ?_, fun q => ?_⟩
    · rw [List.range'_succ]
      refine ⟨rfl, ?_⟩
      rw [State.next, linkRefs, hother tmp htmp, setRef_ref_self]
      exact hchain
    · rw [List.range'_succ, List.mem_cons, not_or] at hq
      rw [linkRefs, hother q hq.2, setRef_ref_ne hq.1]
    · obtain ⟨nx, hnx⟩ := hfields q
      rw [linkRefs, hnx]
      by_cases hq : q = tmp
      · exact ⟨nx, by simp [hq]⟩
      · exact ⟨nx, by rw [setRef_ref_ne hq]⟩

/-- The pagerefs on the page at `a`. -/
theorem mem_newRefs {a : Nat} (ha : a % pageSize = 0)
    (hq : q ∈ List.range' a (pageSize / sizeofPageref) sizeofPageref) :
    OnPage a q ∧ q / pageSize * pageSize = a := by
  simp only [List.mem_range', OnPage, pageSize, sizeofPageref] at *
  omega

/-- A page of pagerefs that own no page. -/
theorem Pages.addRefs (h : Pages s live L) {a : Nat} {xs : List Nat} (hseg : Segment t)
    (hisPage : ∀ p, s.IsPage p → t.IsPage p) (ha : t.IsPage a) (hnew : ¬s.IsPage a)
    (hrefs : ∀ q, q ∈ t.refs ↔ q ∈ s.refs ∨ q ∈ xs)
    (hxs : ∀ q ∈ xs, q / pageSize * pageSize = a ∧ t.page q = 0)
    (hold : ∀ q ∈ s.refs, t.ref q = s.ref q) (hlink : t.link = s.link)
    (hfresh : ∀ q ∈ L' .fresh, q ∈ xs) (hmem : ∀ pl, ∀ q ∈ L' pl, q ∈ t.refs)
    (hbase : ∀ i, L' (.base i) = L (.base i)) : Pages t live L' := by
  have hpage : ∀ q ∈ s.refs, t.page q = s.page q := fun q hq => by
    rw [State.page, hold q hq, State.page]
  have hpos : a ≠ 0 := ha.pos hseg
  have hold' : ∀ q ∈ t.refs, t.page q ≠ 0 → q ∈ s.refs := fun q hq h0 =>
    ((hrefs q).mp hq).resolve_right fun hx => h0 (hxs q hx).2
  have hmemBase : ∀ i, ∀ q ∈ L' (.base i), q ∈ L (.base i) ∧ q ∈ s.refs := fun i q hq =>
    ⟨hbase i ▸ hq, h.mem _ q (hbase i ▸ hq)⟩
  constructor
  · exact hseg
  · intro q hq
    rcases (hrefs q).mp hq with hq | hq
    · exact hisPage _ (h.refPage q hq)
    · rwa [(hxs q hq).1]
  · intro q hq h0
    have hq' := hold' q hq h0
    rw [hpage q hq'] at h0 ⊢
    exact hisPage _ (h.owned q hq' h0)
  · intro q hq q' hq' he
    by_cases h0 : t.page q' = 0
    · -- no page of pagerefs is at address 0
      rcases (hrefs q).mp hq with hq | hq
      · exact (h.refPage q hq).pos h.segment (he.symm.trans h0)
      · exact hpos ((hxs q hq).1.symm.trans (he.symm.trans h0))
    · have hq'' := hold' q' hq' h0
      rw [hpage q' hq''] at he h0
      rcases (hrefs q).mp hq with hq | hq
      · exact h.apart q hq q' hq'' he
      · rw [(hxs q hq).1] at he
        exact hnew (he ▸ h.owned q' hq'' h0)
  · intro q hq q' hq' h0 he
    have h0' : t.page q' ≠ 0 := he ▸ h0
    have hq := hold' q hq h0
    have hq' := hold' q' hq' h0'
    rw [hpage q hq, hpage q' hq'] at he
    rw [hpage q hq] at h0
    exact h.unique q hq q' hq' h0 he
  · exact hmem
  · exact fun q hq => (hxs q (hfresh q hq)).2
  · intro i q hq
    obtain ⟨hq, hqr⟩ := hmemBase i q hq
    rw [hpage q hqr, State.kind, hold q hqr]
    exact h.kinds i q hq
  · intro i q hq
    obtain ⟨hq, hqr⟩ := hmemBase i q hq
    obtain ⟨free, hok⟩ := h.filled i q hq
    exact ⟨free, hok.congr (h.kinds i q hq).1 (by rw [hold q hqr]) (by rw [hold q hqr])
      (hpage q hqr) (fun b _ => by rw [hlink]) fun b _ => Iff.rfl⟩
  · intro x hx
    obtain ⟨i, q, hq, hon, htype⟩ := h.held x hx
    exact ⟨i, q, by rwa [hbase], by rwa [hpage q (h.mem _ q hq)], htype⟩
  · exact h.nodup

/-- The page has pagerefs on it, or belongs to one. -/
def State.Uses (s : State) (p : Nat) : Prop :=
  (∃ r ∈ s.refs, r / pageSize * pageSize = p) ∨ ∃ r ∈ s.refs, s.page r ≠ 0 ∧ s.page r = p

theorem State.Uses.of_same (h : t.Uses p) (hrefs : t.refs = s.refs)
    (hpage : ∀ q ∈ s.refs, t.page q = s.page q) : s.Uses p := by
  rcases h with ⟨r, hr, hp⟩ | ⟨r, hr, h0, hp⟩
  · exact .inl ⟨r, hrefs ▸ hr, hp⟩
  · have hr' : r ∈ s.refs := hrefs ▸ hr
    rw [hpage r hr'] at h0 hp
    exact .inr ⟨r, hr', h0, hp⟩

theorem Pages.isPage_of_uses (h : Pages s live L) (hu : s.Uses p) : s.IsPage p := by
  rcases hu with ⟨r, hr, rfl⟩ | ⟨r, hr, h0, rfl⟩
  · exact h.refPage r hr
  · exact h.owned r hr h0

/-- What a call keeps: the data segment only grows, and a page that comes into use is new. -/
structure Frame (s t : State) : Prop where
  dsegLo : t.dsegLo = s.dsegLo
  dsegSize : t.dsegSize = s.dsegSize
  dsegHi : s.dsegHi ≤ t.dsegHi
  uses : ∀ p, t.Uses p → s.Uses p ∨ s.dsegHi < p

theorem Frame.of_same (hlo : t.dsegLo = s.dsegLo) (hsize : t.dsegSize = s.dsegSize)
    (hhi : t.dsegHi = s.dsegHi) (hrefs : t.refs = s.refs)
    (hpage : ∀ q ∈ s.refs, t.page q = s.page q) : Frame s t :=
  ⟨hlo, hsize, Nat.le_of_eq hhi.symm, fun _ hu => .inl (hu.of_same hrefs hpage)⟩

theorem Elsewhere.frame (he : Elsewhere s t r p) (hpage : ∀ q ∈ s.refs, t.page q = s.page q) :
    Frame s t := .of_same he.dsegLo he.dsegSize he.dsegHi he.refs hpage

theorem Frame.grown (hf : Frame s t) : Frame s t.grown :=
  ⟨hf.dsegLo, hf.dsegSize, Nat.le_trans hf.dsegHi (Nat.le_add_right _ _), hf.uses⟩

theorem Frame.refl (s : State) : Frame s s := .of_same rfl rfl rfl rfl fun _ _ => rfl

/-- What `allocpageref` leaves: a pageref that is in no list. -/
structure RefOut (s t : State) (live : List (Nat × Nat)) (L L' : Place → List Nat) (r : Nat) :
    Prop where
  lists : Lists t [r] L'
  pages : Pages t live L'
  base : ∀ i, L' (.base i) = L (.base i)
  sizebases : t.sizebases = s.sizebases
  link : t.link = s.link
  old : ∀ q ∈ s.refs, t.ref q = s.ref q
  frame : Frame s t

/-- A pageref that was recycled or is fresh. -/
theorem RefOut.pop (pl : Place) (hl : Lists s [] L) (hp : Pages s live L) (hbase : ∀ i, pl ≠ .base i)
    (hr : s.head pl = some r) (href : t.ref = s.ref) (hlink : t.link = s.link)
    (hrefs : t.refs = s.refs) (hsizes : t.sizebases = s.sizebases) (hlo : t.dsegLo = s.dsegLo)
    (hhi : t.dsegHi = s.dsegHi) (hsize : t.dsegSize = s.dsegSize)
    (hhead : t.head = Function.update s.head pl (s.next r)) : ∃ L', RefOut s t live L L' r := by
  obtain ⟨rest, hrest⟩ : ∃ rest, L pl = r :: rest :=
    List.head?_eq_some_iff.mp ((hl.chains.chain pl).head_eq.symm.trans hr)
  have hnext : t.next = s.next := by
    funext q
    simp only [State.next, href]
  have hsub : ∀ pl', ∀ q ∈ Function.update L pl rest pl', q ∈ L pl' := by
    intro pl' q hq
    by_cases hpl : pl' = pl
    · subst hpl
      rw [hrest]
      exact List.mem_cons_of_mem _ (by simpa using hq)
    · simpa [hpl] using hq
  have hsame : ∀ i, Function.update L pl rest (.base i) = L (.base i) := fun i =>
    Function.update_of_ne (fun he => hbase i he.symm) _ _
  refine ⟨Function.update L pl rest, ?_⟩
  constructor
  · exact hl.pop hrest hnext hhead hrefs
  · refine hp.congr hrefs hlo hhi hsize hlink ?_ ?_ ?_ ?_ ?_ ?_ ?_ ?_
    · simp [State.page, href]
    · simp [State.kind, href]
    · simp [href]
    · simp [href]
    · exact fun pl' q hq => hp.mem pl' q (hsub pl' q hq)
    · exact fun q hq => hsub .fresh q hq
    · exact fun i q hq => hsub (.base i) q hq
    · intro i q hq hq'
      rw [hsame] at hq'
      exact (hq' hq).elim
  · exact hsame
  · exact hsizes
  · exact hlink
  · simp [href]
  · exact .of_same hlo hsize hhi hrefs fun q _ => by rw [State.page, href, State.page]

/-- A new page of pagerefs before they are linked. -/
def State.withRefs (s : State) (a : Nat) : State :=
  { zeroPage s.grown a with freshRefs := some (a + sizeofPageref) }

theorem withRefs_ref {a : Nat} :
    (s.withRefs a).ref q = if OnPage a q then ⟨none, none, 0, 0⟩ else s.ref q := rfl

theorem withRefs_head {a : Nat} : (s.withRefs a).head =
    Function.update s.head .fresh (some (a + sizeofPageref)) := head_freshRefs

/-- A new page at `a` of `n + 2` pagerefs that own no page: all but the first are linked. -/
structure RefsAdded (s t : State) (a n : Nat) : Prop where
  refs : ∀ q, q ∈ t.refs ↔ q ∈ s.refs ∨ q ∈ List.range' a (n + 2) sizeofPageref
  onPage : ∀ q ∈ List.range' a (n + 2) sizeofPageref, OnPage a q ∧ q / pageSize * pageSize = a
  apart : ∀ q ∈ s.refs, ¬OnPage a q
  chain : Chain t.next (some (a + sizeofPageref))
    (List.range' (a + sizeofPageref) (n + 1) sizeofPageref)
  head : t.head = Function.update s.head .fresh (some (a + sizeofPageref))
  old : ∀ q ∈ s.refs, t.ref q = s.ref q
  noPage : ∀ q ∈ List.range' a (n + 2) sizeofPageref, t.page q = 0
  same : t = { s.withRefs a with ref := t.ref }

theorem mem_range'_tail {a n : Nat} (hq : q ∈ List.range' (a + sizeofPageref) (n + 1) sizeofPageref) :
    q ∈ List.range' a (n + 2) sizeofPageref := by
  rw [List.range'_succ]
  exact List.mem_cons_of_mem _ hq

theorem linkRefs_added {a n : Nat} (hp : Pages s live L) (ha : a = s.dsegHi + 1)
    (hn : n + 2 = pageSize / sizeofPageref) :
    RefsAdded s (linkRefs n (a + sizeofPageref) (s.withRefs a)) a n := by
  obtain ⟨hchain, heq, hother, hfields⟩ := linkRefs_spec n (a + sizeofPageref) (s.withRefs a)
  generalize linkRefs n (a + sizeofPageref) (s.withRefs a) = t at hchain heq hother hfields
  have haPage : s.grown.IsPage a := ha ▸ hp.segment.isPage_new
  have hnew : ¬s.IsPage a := ha ▸ not_isPage_new
  have hon : ∀ q ∈ List.range' a (n + 2) sizeofPageref, OnPage a q ∧ q / pageSize * pageSize = a :=
    fun q hq => mem_newRefs haPage.1 (hn ▸ hq)
  have hapart : ∀ q ∈ s.refs, ¬OnPage a q := by
    intro q hq hqa
    have hdiv := hp.refPage q hq
    have : q / pageSize * pageSize = a := by
      have := haPage.1
      simp only [OnPage, pageSize] at *
      omega
    exact hnew (this ▸ hdiv)
  refine ⟨fun q => ?_, hon, hapart, hchain, (congrArg State.head heq).trans withRefs_head,
    fun q hq => ?_, fun q hq => ?_, heq⟩
  · rw [heq, hn]
    exact List.mem_append
  · rw [hother q fun hq' => hapart q hq (hon q (mem_range'_tail hq')).1]
    exact if_neg (hapart q hq)
  · obtain ⟨nx, hnx⟩ := hfields q
    simp [State.page, hnx, withRefs_ref, if_pos (hon q hq).1, prPageaddr]

theorem RefsAdded.uses {a n : Nat} (h : RefsAdded s t a n) (ha : a = s.dsegHi + 1) (hu : t.Uses p) :
    s.Uses p ∨ s.dsegHi < p := by
  rcases hu with ⟨q, hq, rfl⟩ | ⟨q, hq, h0, rfl⟩
  · rcases (h.refs q).mp hq with hq | hq
    · exact .inl (.inl ⟨q, hq, rfl⟩)
    · rw [(h.onPage q hq).2]
      omega
  · rcases (h.refs q).mp hq with hq | hq
    · rw [State.page, h.old q hq] at h0 ⊢
      exact .inl (.inr ⟨q, hq, h0, rfl⟩)
    · exact (h0 (h.noPage q hq)).elim

/-- The first of the new pagerefs is in no list, the others are fresh. -/
theorem RefsAdded.lists {a n : Nat} (h : RefsAdded s t a n) (hl : Lists s [] L)
    (hfresh : s.freshRefs = none) :
    Lists t [a] (Function.update L .fresh
      (List.range' (a + sizeofPageref) (n + 1) sizeofPageref)) := by
  have hempty : L .fresh = [] :=
    List.head?_eq_none_iff.mp ((hl.chains.chain .fresh).head_eq.symm.trans hfresh)
  have hrange : List.range' a (n + 2) sizeofPageref =
      a :: List.range' (a + sizeofPageref) (n + 1) sizeofPageref := List.range'_succ
  have hnodup : (List.range' a (n + 2) sizeofPageref).Nodup :=
    List.nodup_range' _ (by simp [sizeofPageref])
  have hnext : ∀ q ∈ s.refs, t.next q = s.next q := fun q hq => by
    rw [State.next, h.old q hq, State.next]
  refine ⟨?_, fun q => ?_, fun q hq pl hq' => ?_⟩
  · rw [h.head]
    refine hl.chains.set h.chain (fun j _ q hq => hnext q (hl.mem hq)) fun q hq j _ hq' => ?_
    exact h.apart q (hl.mem hq') (h.onPage q (mem_range'_tail hq)).1
  · rw [h.refs, hl.refs, hrange]
    simp only [List.mem_cons, List.not_mem_nil, or_false, false_or]
    constructor
    · rintro (⟨pl, hq⟩ | rfl | hq)
      · by_cases hpl : pl = .fresh
        · simp [hpl, hempty] at hq
        · exact .inr ⟨pl, by simpa [hpl] using hq⟩
      · exact .inl rfl
      · exact .inr ⟨.fresh, by simpa using hq⟩
    · rintro (rfl | ⟨pl, hq⟩)
      · exact .inr (.inl rfl)
      · by_cases hpl : pl = .fresh
        · exact .inr (.inr (by simpa [hpl] using hq))
        · exact .inl ⟨pl, by simpa [hpl] using hq⟩
  · obtain rfl : q = a := by simpa using hq
    by_cases hpl : pl = .fresh
    · rw [hrange] at hnodup
      exact (List.nodup_cons.mp hnodup).1 (by simpa [hpl] using hq')
    · have hqs : q ∈ s.refs := hl.mem (show q ∈ L pl by simpa [hpl] using hq')
      exact h.apart q hqs (h.onPage q (by simp [hrange])).1

/-- The first pageref of a new page of them. -/
theorem RefOut.new {a n : Nat} (hl : Lists s [] L) (hp : Pages s live L)
    (hfresh : s.freshRefs = none) (hle : s.dsegHi + pageSize ≤ s.dsegLo + s.dsegSize)
    (ha : a = s.dsegHi + 1) (hn : n + 2 = pageSize / sizeofPageref)
    (ht : linkRefs n (a + sizeofPageref) (s.withRefs a) = t) : ∃ L', RefOut s t live L L' a := by
  have h : RefsAdded s t a n := ht ▸ linkRefs_added hp ha hn
  have hlo : t.dsegLo = s.grown.dsegLo := (congrArg State.dsegLo h.same).trans rfl
  have hhi : t.dsegHi = s.grown.dsegHi := (congrArg State.dsegHi h.same).trans rfl
  have hsize : t.dsegSize = s.grown.dsegSize := (congrArg State.dsegSize h.same).trans rfl
  have hlink : t.link = s.link := (congrArg State.link h.same).trans rfl
  have hnew : ¬s.IsPage a := ha ▸ not_isPage_new
  have hbase : ∀ i, Function.update L .fresh
      (List.range' (a + sizeofPageref) (n + 1) sizeofPageref) (.base i) = L (.base i) :=
    fun i => Function.update_of_ne (by simp) _ _
  refine ⟨_, h.lists hl hfresh, ?_, hbase, (congrArg State.sizebases h.same).trans rfl, hlink, h.old,
    hlo, hsize, ?_, fun p hu => h.uses ha hu⟩
  swap
  · rw [hhi]
    exact Nat.le_add_right _ _
  refine hp.addRefs ((hp.segment.grown hle).congr hlo hhi hsize)
    (fun p h => (h.widened pageSize).congr hlo hhi)
    ((ha ▸ hp.segment.isPage_new : s.grown.IsPage a).congr hlo hhi) hnew h.refs
    (fun q hq => ⟨(h.onPage q hq).2, h.noPage q hq⟩) h.old hlink (fun q hq => ?_)
    (fun pl q hq => ?_) hbase
  · exact mem_range'_tail (by simpa using hq)
  · rw [h.refs]
    by_cases hpl : pl = .fresh
    · exact .inr (mem_range'_tail (by simpa [hpl] using hq))
    · exact .inl (hl.mem (show q ∈ L pl by simpa [hpl] using hq))

/-- When no pageref is left, the call gets the first of a new page of them. -/
theorem allocpageref_new (hp : Pages s live L) (hrec : s.recycledRefs = none)
    (hfresh : s.freshRefs = none) (hroom : s.dsegHi + pageSize ≤ s.dsegLo + s.dsegSize) :
    ∃ t, allocpageref s true = (some (s.dsegHi + 1), t) ∧ t.page (s.dsegHi + 1) = 0 ∧
      t.dsegLo = s.dsegLo ∧ t.dsegHi = s.dsegHi + pageSize ∧ t.dsegSize = s.dsegSize := by
  have h := linkRefs_added (n := 126) hp rfl rfl
  have hsbrk : memSbrk s true = (some (s.dsegHi + 1), s.grown) := if_pos ⟨rfl, hroom⟩
  refine ⟨_, ?_, h.noPage _ List.mem_cons_self, (congrArg State.dsegLo h.same).trans rfl,
    (congrArg State.dsegHi h.same).trans rfl, (congrArg State.dsegSize h.same).trans rfl⟩
  simp only [allocpageref, hrec, hfresh, hsbrk]
  rfl

theorem allocpageref_ok (hl : Lists s [] L) (hp : Pages s live L) (granted : Bool) :
    allocpageref s granted = (none, s) ∨
      ∃ r t L', allocpageref s granted = (some r, t) ∧ RefOut s t live L L' r := by
  cases hrec : s.recycledRefs with
  | some r =>
    have heq : allocpageref s granted = (some r, { s with recycledRefs := (s.ref r).next }) := by
      simp only [allocpageref, hrec]
    obtain ⟨L', hout⟩ := RefOut.pop (t := { s with recycledRefs := (s.ref r).next }) .recycled hl hp
      (by simp) hrec rfl rfl rfl rfl rfl rfl rfl (by simp [State.next])
    exact .inr ⟨r, _, L', heq, hout⟩
  | none =>
    cases hfresh : s.freshRefs with
    | some r =>
      have heq : allocpageref s granted = (some r, { s with freshRefs := (s.ref r).next }) := by
        simp only [allocpageref, hrec, hfresh]
      obtain ⟨L', hout⟩ := RefOut.pop (t := { s with freshRefs := (s.ref r).next }) .fresh hl hp
        (by simp) hfresh rfl rfl rfl rfl rfl rfl rfl (by simp [State.next])
      exact .inr ⟨r, _, L', heq, hout⟩
    | none =>
      rcases memSbrk_cases s granted with hsbrk | ⟨hsbrk, hle⟩
      · exact .inl (by simp only [allocpageref, hrec, hfresh, hsbrk])
      · obtain ⟨L', hout⟩ := RefOut.new hl hp hfresh hle rfl (n := 126) rfl rfl
        refine .inr ⟨_, _, L', ?_, hout⟩
        simp only [allocpageref, hrec, hfresh, hsbrk]
        rfl

end NewPages
end Csc469.Kheap
