import Csc469.Kheap.Malloc

/-! `subpage_kfree` of a block in use keeps the invariant. -/
namespace Csc469.Kheap

open Execution Linked

variable {s t : State} {L L' : Place → List Nat} {live : List (Nat × Nat)}
  {zs l rest free : List Nat} {p q r x y i j b n ptr : Nat} {h : Option Nat}

section Search

theorem findIn_ok (ptr : Nat) (hc : Chain s.next h zs) (hk : ∀ q ∈ zs, s.kind q < nsizes)
    (hn : zs.length ≤ n) :
    findIn s ptr n h = .ok (zs.find? fun q => OnPage (s.page q) ptr) := by
  induction zs generalizing n h with
  | nil =>
    obtain rfl : h = none := hc
    cases n <;> rfl
  | cons q zs ih =>
    obtain ⟨rfl, hc⟩ := hc
    cases n with
    | zero => simp at hn
    | succ n =>
      have hq : prBlocktype (s.ref q) < nsizes := hk q (by simp)
      simp only [findIn, assert_pos hq, bind, Except.bind, List.find?_cons]
      by_cases hon : OnPage (s.page q) ptr
      · have hon' : prPageaddr (s.ref q) ≤ ptr ∧ ptr < prPageaddr (s.ref q) + pageSize := hon
        rw [if_pos hon']
        simp [hon]
      · have hon' : ¬(prPageaddr (s.ref q) ≤ ptr ∧ ptr < prPageaddr (s.ref q) + pageSize) := hon
        rw [if_neg hon']
        simp only [hon, decide_false]
        exact ih hc (fun q' hq' => hk q' (by simp [hq'])) (by simpa using hn)

theorem findOwner_eq (hl : Lists s [] L) (hp : Pages s live L) (is : List Nat) :
    findOwner s ptr is =
      .ok (is.findSome? fun j => (L (.base j)).find? fun q => OnPage (s.page q) ptr) := by
  induction is with
  | nil => rfl
  | cons j is ih =>
    have hin := findIn_ok (n := s.refs.length) (h := s.sizebases j) ptr
      (hl.chains.chain (.base j)) (fun q hq => (hp.kinds j q hq).2.1 ▸ (hp.kinds j q hq).1)
      hl.length_le
    simp only [findOwner, hin, bind, Except.bind, List.findSome?_cons]
    cases (L (.base j)).find? fun q => decide (OnPage (s.page q) ptr) with
    | none => exact ih
    | some q => rfl

/-- The search ends at the pageref of the page. -/
theorem findOwner_ok (hl : Lists s [] L) (hp : Pages s live L) (hr : r ∈ L (.base i))
    (hon : OnPage (s.page r) ptr) : findOwner s ptr (List.range nsizes) = .ok (some r) := by
  rw [findOwner_eq hl hp]
  cases hfind : (List.range nsizes).findSome? fun j =>
      (L (.base j)).find? fun q => decide (OnPage (s.page q) ptr) with
  | none =>
    have hnone := List.findSome?_eq_none_iff.mp hfind i (by simpa using (hp.kinds i r hr).1)
    simpa [hon] using List.find?_eq_none.mp hnone r hr
  | some q =>
    obtain ⟨j, -, hq⟩ := List.exists_of_findSome?_eq_some hfind
    have honq : OnPage (s.page q) ptr := by simpa using List.find?_some hq
    rw [hp.owner (List.mem_of_find?_eq_some hq) hr honq hon]

end Search

section Remove

/-- The loop of `remove_lists` changes the link of the pageref before this one. -/
theorem removeBehind_ok (hc : Chain s.next (some x) (x :: l ++ r :: rest)) (hr : r ∉ l)
    (hn : l.length < n) : ∃ l' z, x :: l = l' ++ [z] ∧
      removeBehind s r n x = .ok (s.setRef z fun v => { v with next := s.next r }) := by
  induction l generalizing x n with
  | nil =>
    cases n with
    | zero => simp at hn
    | succ n =>
      have hx : (s.ref x).next = some r := hc.2.1
      exact ⟨[], x, rfl, by simp [removeBehind, hx, State.next]⟩
  | cons y l ih =>
    cases n with
    | zero => simp at hn
    | succ n =>
      have hx : (s.ref x).next = some y := hc.2.1
      rw [List.mem_cons, not_or] at hr
      have hc' : Chain s.next (some y) (y :: l ++ r :: rest) := hx ▸ hc.2
      obtain ⟨l', z, heq, hremove⟩ := ih hc' hr.2 (by simpa using hn)
      refine ⟨x :: l', z, by rw [heq]; rfl, ?_⟩
      rw [← hremove]
      simp [removeBehind, hx, Ne.symm hr.1]

/-- `remove_lists` takes the pageref out of its list and changes nothing else. -/
theorem removeLists_ok (hl : Lists s [] L) (hi : i < nsizes) (hr : r ∈ L (.base i)) :
    ∃ t rest, removeLists s r i = .ok t ∧ Lists t [r] (Function.update L (.base i) rest) ∧
      (∀ q, q ∈ rest ↔ q ∈ L (.base i) ∧ q ≠ r) ∧
      t = { s with ref := t.ref, sizebases := t.sizebases } ∧
      ∀ q, ∃ nx, t.ref q = { s.ref q with next := nx } := by
  have hc := hl.chains.chain (.base i)
  have hnd := hc.nodup
  cases hL : L (.base i) with
  | nil => simp [hL] at hr
  | cons x xs =>
    rw [hL] at hc hnd hr
    have hx : s.sizebases i = some x := hc.1
    by_cases hxr : x = r
    · -- the first of the list
      subst hxr
      refine ⟨{ s with sizebases := Function.update s.sizebases i (s.ref x).next }, xs, ?_, ?_,
        fun q => ?_, rfl, fun q => ⟨(s.ref q).next, rfl⟩⟩
      · simp only [removeLists, assert_pos hi, bind, Except.bind, hx, if_true]
      · exact hl.pop hL rfl head_sizebases rfl
      · have := (List.nodup_cons.mp hnd).1
        grind
    · have hrxs : r ∈ xs := (List.mem_cons.mp hr).resolve_left fun he => hxr he.symm
      obtain ⟨l, rest, rfl⟩ := List.append_of_mem hrxs
      have hrl : r ∉ l ∧ r ∉ rest := by
        have hsplit := List.nodup_append.mp (List.nodup_cons.mp hnd).2
        exact ⟨fun hm => hsplit.2.2 r hm r (by simp) rfl, (List.nodup_cons.mp hsplit.2.1).1⟩
      have hlen : l.length < s.refs.length := by
        have : (L (.base i)).length ≤ s.refs.length := hl.length_le
        rw [hL] at this
        simp at this
        omega
      rw [State.head, hx] at hc
      obtain ⟨l', z, hz, hremove⟩ := removeBehind_ok hc hrl.1 hlen
      have hL' : L (.base i) = l' ++ z :: r :: rest := by
        rw [hL, ← List.cons_append, hz]
        simp
      have hnext : ∀ q, q ≠ z → (s.setRef z fun v => { v with next := s.next r }).next q = s.next q :=
        fun q hq => by rw [State.next, setRef_ref_ne hq, State.next]
      have hrest : ∀ q, q ∈ l' ++ z :: rest ↔ q ∈ L (.base i) ∧ q ≠ r := by
        have hmem : ∀ q, q ∈ l' ++ [z] ↔ q = x ∨ q ∈ l := by simp [← hz]
        intro q
        rw [← List.singleton_append, ← List.append_assoc, List.mem_append, hmem, hL]
        simp only [List.mem_cons, List.mem_append]
        constructor
        · rintro ((rfl | hq) | hq)
          · exact ⟨.inl rfl, hxr⟩
          · exact ⟨.inr (.inl hq), fun he => hrl.1 (he ▸ hq)⟩
          · exact ⟨.inr (.inr (.inr hq)), fun he => hrl.2 (he ▸ hq)⟩
        · rintro ⟨rfl | hq | rfl | hq, hqr⟩
          · exact .inl (.inl rfl)
          · exact .inl (.inr hq)
          · exact (hqr rfl).elim
          · exact .inr hq
      refine ⟨s.setRef z fun v => { v with next := s.next r }, l' ++ z :: rest, ?_, ?_, hL ▸ hrest,
        rfl, fun q => ?_⟩
      · simp only [removeLists, assert_pos hi, bind, Except.bind, hx, if_neg hxr, hremove]
      · refine hl.remove (by simp [hL']) hrest ?_ rfl
        exact hl.chains.skip hL' (by simp [State.next]) hnext
      · by_cases hq : q = z
        · exact ⟨s.next r, by simp [hq]⟩
        · exact ⟨(s.ref q).next, by rw [setRef_ref_ne hq]⟩

end Remove

section Kfree

/-- The blocks in use without the one at `p`. -/
def without (live : List (Nat × Nat)) (p : Nat) : List (Nat × Nat) := live.filter (·.1 ≠ p)

theorem mem_without {x : Nat × Nat} : x ∈ without live p ↔ x ∈ live ∧ x.1 ≠ p := by
  simp [without]

theorem mem_ptrs_without : b ∈ (without live p).map Prod.fst ↔ b ∈ live.map Prod.fst ∧ b ≠ p := by
  simp only [List.mem_map, mem_without]
  constructor
  · rintro ⟨x, ⟨hx, hne⟩, rfl⟩
    exact ⟨⟨x, hx, rfl⟩, hne⟩
  · rintro ⟨⟨x, hx, rfl⟩, hne⟩
    exact ⟨x, ⟨hx, hne⟩, rfl⟩

/-- A block and the others. -/
theorem perm_without {sz : Nat} (hnd : (live.map Prod.fst).Nodup)
    (hp : (p, sz) ∈ live) : live.Perm ((p, sz) :: without live p) := by
  have hout : (p, sz) ∉ without live p := fun hx => (mem_without.mp hx).2 rfl
  refine (List.perm_ext_iff_of_nodup hnd.of_map ?_).mpr fun x => ?_
  · exact List.nodup_cons.mpr ⟨hout, hnd.of_map.filter _⟩
  · rw [List.mem_cons, mem_without]
    constructor
    · intro hx
      by_cases he : x.1 = p
      · exact .inl (List.inj_on_of_nodup_map hnd hx hp he)
      · exact .inr ⟨hx, he⟩
    · rintro (rfl | ⟨hx, -⟩)
      · exact hp
      · exact hx

/-- The state in which the block at `p` is in front of the free list of its page. -/
def linked (s : State) (r p sz : Nat) : State :=
  ((fillDeadbeef s p sz).setLink p (s.ref r).flist).setRef r fun v =>
    { v with flist := some p, nfree := v.nfree + 1 }

theorem linked_ref_self {sz : Nat} : (linked s r p sz).ref r =
    { s.ref r with flist := some p, nfree := (s.ref r).nfree + 1 } :=
  Function.update_self ..

theorem linked_ref_ne {sz : Nat} (h : q ≠ r) : (linked s r p sz).ref q = s.ref q :=
  Function.update_of_ne h ..

theorem linked_page {sz : Nat} (q : Nat) : (linked s r p sz).page q = s.page q := by
  by_cases hq : q = r
  · rw [hq, State.page, linked_ref_self]
    rfl
  · rw [State.page, linked_ref_ne hq, State.page]

theorem linked_next {sz : Nat} : (linked s r p sz).next = s.next := by
  funext q
  by_cases hq : q = r
  · rw [hq, State.next, linked_ref_self]
    rfl
  · rw [State.next, linked_ref_ne hq, State.next]

/-- Outside the block nothing is written. -/
theorem linked_link {sz : Nat} (hsz : 0 < sz) (hb : b < p ∨ p + sz ≤ b) :
    (linked s r p sz).link b = s.link b := by
  have hne : b ≠ p := by omega
  have hout : ¬(p ≤ b ∧ b < p + sz) := by omega
  simp [linked, State.setRef, fillDeadbeef, hne, hout]

/-- The free list of the page after a free. -/
theorem PageOk.linked (h : PageOk s (live.map Prod.fst) i r free) (hi : i < nsizes)
    (hon : OnPage (s.page r) p) (hlive : p ∈ live.map Prod.fst) :
    PageOk (linked s r p (size i)) ((without live p).map Prod.fst) i r (p :: free) := by
  have hblock : p ∈ blocks (s.page r) i := h.used p hlive hon
  refine ⟨⟨?_, ?_⟩, ?_, fun b => ?_, fun b hb hb' => ?_⟩
  · rw [linked_ref_self]
  · have hp : (Kheap.linked s r p (size i)).link p = (s.ref r).flist := by
      simp [Kheap.linked, State.setRef]
    rw [hp]
    refine h.chain.congr fun b hb => ?_
    obtain ⟨hb, hunused⟩ := (h.free b).mp hb
    have hne : b ≠ p := fun he => hunused (he ▸ hlive)
    have hpos := size_pos hi
    have hapart := blocks_apart hb hblock hne
    exact linked_link hpos (by omega)
  · rw [linked_ref_self, List.length_cons]
    simp [h.nfree]
  · rw [List.mem_cons, h.free, linked_page, mem_ptrs_without]
    constructor
    · rintro (rfl | ⟨hb, hunused⟩)
      · exact ⟨hblock, fun h => h.2 rfl⟩
      · exact ⟨hb, fun h => hunused h.1⟩
    · rintro ⟨hb, hunused⟩
      by_cases hbp : b = p
      · exact .inl hbp
      · exact .inr ⟨hb, fun h => hunused ⟨h, hbp⟩⟩
  · rw [linked_page] at hb' ⊢
    exact h.used b (mem_ptrs_without.mp hb).1 hb'

theorem Pages.linked (hp : Pages s live L) (hr : r ∈ L (.base i))
    (hok : PageOk (linked s r p (size i)) ((without live p).map Prod.fst) i r free)
    (hon : OnPage (s.page r) p) (hblock : p ∈ blocks (s.page r) i) :
    Pages (linked s r p (size i)) (without live p) L := by
  have hkind : (Kheap.linked s r p (size i)).kind r = s.kind r := by
    rw [State.kind, linked_ref_self]
    rfl
  refine hp.update hr ⟨rfl, rfl, rfl, rfl, fun q hq => linked_ref_ne hq, fun b hb => ?_⟩
    (linked_page r) hkind hok (fun x hx => ?_) (fun x hx => .inl (mem_without.mp hx).1) ?_
  · have hrange := blocks_range (hp.kinds i r hr).1 hblock
    have hpos := size_pos (hp.kinds i r hr).1
    simp only [OnPage] at hb
    exact linked_link hpos (by omega)
  · rw [mem_without, and_iff_left]
    exact fun he => hx (he ▸ hon)
  · exact hp.nodup.sublist (List.filter_sublist.map Prod.fst)

/-- What `subpage_kfree` does once it has found the page of the block. -/
theorem subpageKfree_eq (hfound : findOwner s p (List.range nsizes) = .ok (some r))
    (hkind : s.kind r = i) (hoffset : ¬(pageSize ≤ p - s.page r ∨ (p - s.page r) % size i ≠ 0))
    (hle : ((linked s r p (size i)).ref r).nfree ≤ (pageSize / size i : Nat)) :
    subpageKfree s p =
      if ((linked s r p (size i)).ref r).nfree = (pageSize / size i : Nat) then
        (removeLists (linked s r p (size i)) r i).map fun t => (freepageref t r, 0)
      else .ok (linked s r p (size i), 0) := by
  have hkind' : prBlocktype (s.ref r) = i := hkind
  simp only [subpageKfree, hfound, bind, Except.bind, hkind']
  change (if pageSize ≤ p - s.page r ∨ (p - s.page r) % size i ≠ 0 then _ else _ : Call _) = _
  rw [if_neg hoffset]
  have hlinked : ((fillDeadbeef s p (size i)).setLink p ((fillDeadbeef s p (size i)).ref r).flist).setRef
      r (fun v => { v with flist := some p, nfree := v.nfree + 1 }) = linked s r p (size i) := rfl
  rw [hlinked, assert_pos hle]
  cases removeLists (linked s r p (size i)) r i <;> rfl

/-- Only pagerefs have moved, from one list to another. -/
structure Moved (s t : State) : Prop where
  refs : t.refs = s.refs
  dsegLo : t.dsegLo = s.dsegLo
  dsegHi : t.dsegHi = s.dsegHi
  dsegSize : t.dsegSize = s.dsegSize
  link : t.link = s.link
  ref : ∀ q, ∃ nx, t.ref q = { s.ref q with next := nx }

theorem Moved.page (hm : Moved s t) (q : Nat) : t.page q = s.page q := by
  obtain ⟨nx, hnx⟩ := hm.ref q
  rw [State.page, hnx]
  rfl

theorem Moved.kind (hm : Moved s t) (q : Nat) : t.kind q = s.kind q := by
  obtain ⟨nx, hnx⟩ := hm.ref q
  rw [State.kind, hnx]
  rfl

theorem Moved.fields (hm : Moved s t) (q : Nat) :
    (t.ref q).flist = (s.ref q).flist ∧ (t.ref q).nfree = (s.ref q).nfree := by
  obtain ⟨nx, hnx⟩ := hm.ref q
  rw [hnx]
  exact ⟨rfl, rfl⟩

theorem Moved.freepageref (hm : Moved s t) : Moved s (freepageref t r) where
  refs := hm.refs
  dsegLo := hm.dsegLo
  dsegHi := hm.dsegHi
  dsegSize := hm.dsegSize
  link := hm.link
  ref q := by
    by_cases hq : q = r
    · subst hq
      obtain ⟨nx, hnx⟩ := hm.ref q
      exact ⟨t.recycledRefs, by simp [Kheap.freepageref, State.setRef, hnx]⟩
    · rw [freepageref_ref_ne hq]
      exact hm.ref q

/-- A page without a block in use leaves its list, and its pageref is recycled. -/
theorem removePage_ok (hl : Lists s [] L) (hp : Pages s live L) (hr : r ∈ L (.base i))
    (hno : ∀ x ∈ live, ¬OnPage (s.page r) x.1) :
    ∃ t L', removeLists s r i = .ok t ∧ Lists (freepageref t r) [] L' ∧
      Pages (freepageref t r) live L' ∧
      (∀ j q, q ∈ L' (.base j) ↔ q ∈ L (.base j) ∧ q ≠ r) ∧ Moved s (freepageref t r) := by
  obtain ⟨t, rest, hremove, hlt, hrest, ht, hfields⟩ := removeLists_ok hl (hp.kinds i r hr).1 hr
  have hmoved : Moved s t := ⟨(congrArg State.refs ht).trans rfl, (congrArg State.dsegLo ht).trans rfl,
    (congrArg State.dsegHi ht).trans rfl, (congrArg State.dsegSize ht).trans rfl,
    (congrArg State.link ht).trans rfl, hfields⟩
  have hbase : ∀ j q, q ∈ Function.update L (.base i) rest (.base j) ↔ q ∈ L (.base j) ∧ q ≠ r := by
    intro j q
    by_cases hj : j = i
    · subst hj
      simpa using hrest q
    · have hupdate : Function.update L (.base i) rest (.base j) = L (.base j) :=
        Function.update_of_ne (by simpa using hj) _ _
      rw [hupdate, iff_self_and]
      rintro hq rfl
      exact hj (hp.kind_unique hr hq)
  have hpt : Pages t live (Function.update L (.base i) rest) := by
    refine hp.congr hmoved.refs hmoved.dsegLo hmoved.dsegHi hmoved.dsegSize hmoved.link hmoved.page
      hmoved.kind (fun q => (hmoved.fields q).1) (fun q => (hmoved.fields q).2)
      (fun pl q hq => hmoved.refs ▸ hlt.mem hq) (fun q hq => by simpa using hq)
      (fun j q hq => ((hbase j q).mp hq).1) fun j q hq hq' x hx => ?_
    have hqr : q = r := by
      by_contra hqr
      exact hq' ((hbase j q).mpr ⟨hq, hqr⟩)
    exact hqr ▸ hno x hx
  obtain ⟨L', hlf, hpf, hbase'⟩ := freepageref_ok hlt hpt
  refine ⟨t, L', hremove, hlf, hpf, fun j q => ?_, hmoved.freepageref⟩
  rw [hbase', hbase]

/-- The block goes in front of the free list of its page, and no other free list changes. -/
structure FreedOn (s t : State) (r p : Nat) : Prop where
  flist : (t.ref r).flist = some p
  link : t.link p = (s.ref r).flist
  nfree : (t.ref r).nfree = (s.ref r).nfree + 1
  others : ∀ q, q ≠ r → (t.ref q).flist = (s.ref q).flist ∧ (t.ref q).nfree = (s.ref q).nfree

theorem freedOn_linked {sz : Nat} : FreedOn s (linked s r p sz) r p where
  flist := by rw [linked_ref_self]
  link := by simp [linked, State.setRef]
  nfree := by rw [linked_ref_self]
  others q hq := by
    rw [linked_ref_ne hq]
    exact ⟨rfl, rfl⟩

/-- The page's pageref may move to another list. -/
theorem FreedOn.congr {u : State} (h : FreedOn s t r p) (hlink : u.link = t.link)
    (hfields : ∀ q, (u.ref q).flist = (t.ref q).flist ∧ (u.ref q).nfree = (t.ref q).nfree) :
    FreedOn s u r p where
  flist := (hfields r).1.trans h.flist
  link := by
    rw [hlink]
    exact h.link
  nfree := (hfields r).2.trans h.nfree
  others q hq := ⟨(hfields q).1.trans (h.others q hq).1, (hfields q).2.trans (h.others q hq).2⟩

/-- `subpage_kfree` finds the pageref of the block's page and type. -/
structure Freed (s t : State) (r p sz : Nat) : Prop where
  owner : findOwner s p (List.range nsizes) = .ok (some r)
  page : s.IsPage (s.page r) ∧ OnPage (s.page r) p
  kind : blocktype sz = .ok (s.kind r)
  call : subpageKfree s p = .ok (t, 0)
  acts : FreedOn s t r p
  frame : Frame s t

theorem subpageKfree_ok {sz : Nat} (hs : Inv s live L) (hlive : (p, sz) ∈ live) :
    ∃ r t L', Freed s t r p sz ∧ Inv t (without live p) L' := by
  obtain ⟨hl, hp, hb⟩ := hs
  obtain ⟨i, r, hr, (hon : OnPage (s.page r) p), htype⟩ := hp.held _ hlive
  have hptr : p ∈ live.map Prod.fst := List.mem_map.mpr ⟨_, hlive, rfl⟩
  obtain ⟨hi, hkind, h0⟩ := hp.kinds i r hr
  obtain ⟨free, hok⟩ := hp.filled i r hr
  have hblock := hok.used p hptr hon
  have hok' := hok.linked hi hon hptr
  have hp' := hp.linked hr hok' hon hblock
  have hl' : Lists (linked s r p (size i)) [] L := hl.congr linked_next rfl rfl
  have hfound := findOwner_ok hl hp hr hon
  -- the offset of the block is a multiple of its size
  have hoffset : ¬(pageSize ≤ p - s.page r ∨ (p - s.page r) % size i ≠ 0) := by
    obtain ⟨k, -, hk⟩ := mem_blocks.mp hblock
    have hoff : p - s.page r = k * size i := by omega
    simp only [OnPage] at hon
    rw [hoff, Nat.mul_mod_left]
    omega
  have hnfree : ((linked s r p (size i)).ref r).nfree = ((p :: free).length : Nat) := hok'.nfree
  have heq := subpageKfree_eq hfound hkind hoffset
    (hnfree ▸ Int.ofNat_le.mpr hok'.length_le)
  have hfreed : ∀ {t : State}, subpageKfree s p = .ok (t, 0) → FreedOn s t r p → Frame s t →
      Freed s t r p sz := fun hcall hacts hframe =>
    ⟨hfound, ⟨hp.isPage hr, hon⟩, hkind ▸ htype, hcall, hacts, hframe⟩
  -- the other pages have the blocks in use that they had
  have hothers : ∀ j, ∀ q ∈ L (.base j), q ≠ r → ∃ x ∈ without live p, OnPage (s.page q) x.1 := by
    intro j q hq hqr
    obtain ⟨x, hx, honx⟩ := hb j q hq
    refine ⟨x, mem_without.mpr ⟨hx, ?_⟩, honx⟩
    rintro rfl
    exact hqr (hp.owner hq hr honx hon)
  by_cases hfull : (p :: free).length = pageSize / size i
  · -- the whole page is free
    have hno := (hok'.free_length_iff hi).mp hfull
    obtain ⟨t, L', hremove, hlt, hpt, hbase, hmoved⟩ := removePage_ok hl' hp' hr fun x hx =>
      hno x.1 (List.mem_map.mpr ⟨x, hx, rfl⟩)
    have hpage : ∀ q, (freepageref t r).page q = s.page q := fun q => by
      rw [hmoved.page, linked_page]
    refine ⟨r, freepageref t r, L', hfreed ?_ ?_ ?_, hlt, hpt, fun j q hq => ?_⟩
    · rw [heq, if_pos (by rw [hnfree, hfull]), hremove]
      rfl
    · exact freedOn_linked.congr hmoved.link hmoved.fields
    · exact .of_same hmoved.dsegLo hmoved.dsegSize hmoved.dsegHi hmoved.refs fun q _ => hpage q
    · obtain ⟨hq, hqr⟩ := (hbase j q).mp hq
      rw [hpage]
      exact hothers j q hq hqr
  · refine ⟨r, linked s r p (size i), L, hfreed ?_ freedOn_linked ?_, hl', hp', fun j q hq => ?_⟩
    · rw [heq, if_neg]
      rw [hnfree]
      exact fun he => hfull (Int.ofNat_inj.mp he)
    · exact .of_same rfl rfl rfl rfl fun q _ => linked_page q
    · rw [linked_page]
      by_cases hqr : q = r
      · have hsome := mt (hok'.free_length_iff hi).mpr hfull
        simp only [not_forall, not_not] at hsome
        obtain ⟨b, hb, honb⟩ := hsome
        obtain ⟨x, hx, rfl⟩ := List.mem_map.mp hb
        rw [hqr, ← linked_page r]
        exact ⟨x, hx, honb⟩
      · exact hothers j q hq hqr

end Kfree
end Csc469.Kheap
