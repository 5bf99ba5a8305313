import Csc469.Kheap.Routing

/-! What the calls write: nothing on a page in use but the block that is freed, and of the chunks
only fields of free ones. -/
namespace Csc469.Kheap

open Execution Linked

variable {s t : State} {h u : Heap} {L : Place → List Nat} {live : List (Nat × Nat)}
  {used free : List Nat} {got : List (Nat × Nat)} {result : Option Nat}
  {refGranted pageGranted : Bool} {a b c n p q r i j sz : Nat} {m : Int}

section Links

theorem doalloc_link (h : doalloc s r = .ok (t, result)) : t.link = s.link := by
  unfold doalloc at h
  split at h
  · cases h
  · simp only [ne_eq] at h
    split at h
    · obtain ⟨_, -, h⟩ := ok_of_bind h
      obtain ⟨_, -, h⟩ := ok_of_bind h
      cases h
      rfl
    · obtain ⟨_, -, h⟩ := ok_of_bind h
      cases h
      rfl

/-- The free list is built on the new page. -/
theorem newPage_link (hi : i < nsizes) (h : newPage s r p i = .ok (t, result))
    (ha : ¬OnPage p a) : t.link a = s.link a := by
  obtain ⟨u, hu, hf⟩ := newPage_filled s r p hi
  rw [hu] at h
  rw [doalloc_link h]
  exact hf.link a ha

theorem removeBehind_link {guy : Nat} (h : removeBehind s r n guy = .ok t) : t.link = s.link := by
  induction n generalizing guy with
  | zero => cases h
  | succ n ih =>
    simp only [removeBehind] at h
    split at h
    · cases h
      rfl
    · split at h
      · cases h
        rfl
      · exact ih h

theorem removeLists_link (h : removeLists s r i = .ok t) : t.link = s.link := by
  obtain ⟨_, -, h⟩ := ok_of_bind h
  split at h
  · cases h
    rfl
  · split at h
    · cases h
      rfl
    · exact removeBehind_link h

/-- A request writes on no page that has blocks in use, and nowhere outside of the pages. -/
theorem subpageKmalloc_link (hs : Inv s live L) (hsz : sz ≤ largestSubpageSize)
    (hok : subpageKmalloc s sz refGranted pageGranted = .ok (t, result)) (ha : a ≤ s.dsegHi)
    (hbase : ∀ q, s.Uses q → OnPage q a → ∃ j, ∃ r ∈ L (.base j), s.page r = q) :
    t.link a = s.link a := by
  obtain ⟨hl, hp, -⟩ := hs
  obtain ⟨i, htype⟩ := blocktype_ok hsz
  have hi := (le_of_blocktype htype).1
  have hfind := findPage_ok (n := s.refs.length) (hl.chains.chain (.base i))
    (fun q hq => (hp.kinds i q hq).2.1) hl.length_le
  rw [State.head] at hfind
  simp only [subpageKmalloc, htype, hfind, bind, Except.bind] at hok
  split at hok
  · rw [doalloc_link hok]
  · rcases allocpageref_ok hl hp refGranted with halloc | ⟨q, u, L', halloc, ho⟩
    · simp only [halloc] at hok
      cases hok
      rfl
    · by_cases h0 : prPageaddr (u.ref q) = 0
      · simp only [halloc, h0, if_true] at hok
        rcases memSbrk_cases u pageGranted with hsbrk | ⟨hsbrk, -⟩
        · simp only [hsbrk] at hok
          cases hok
          exact congrFun ho.link a
        · simp only [hsbrk] at hok
          have hoff : ¬OnPage (u.dsegHi + 1) a := by
            have hhi := ho.frame.dsegHi
            simp only [OnPage]
            omega
          rw [newPage_link hi hok hoff]
          exact congrFun ho.link a
      · simp only [halloc, h0, if_false] at hok
        have hq : q ∈ u.refs := (ho.lists.refs q).mpr (.inl (by simp))
        -- the recycled pageref has a page without blocks in use
        have hoff : ¬OnPage (u.page q) a := by
          intro hon
          rcases ho.frame.uses _ (.inr ⟨q, hq, h0, rfl⟩) with huses | hnew
          · obtain ⟨j, r, hr, hpage⟩ := hbase _ huses hon
            have hr' : r ∈ L' (.base j) := by
              rw [ho.base]
              exact hr
            have hqr : q = r := by
              apply ho.pages.unique q hq r (ho.pages.mem _ r hr') h0
              rw [ho.page hp j r hr, hpage]
            rw [hqr] at ho
            exact ho.lists.out r (by simp) (.base j) hr'
          · have hle := hon.1
            omega
        rw [newPage_link hi hok hoff]
        exact congrFun ho.link a

/-- Two blocks that the program has do not overlap. -/
theorem blocks_disjoint {sz' : Nat} (hp : Pages s live L) (hx : (p, sz) ∈ live)
    (hy : (q, sz') ∈ live) (hne : q ≠ p) (hi : blocktype sz = .ok i) :
    q + sz' ≤ p ∨ p + size i ≤ q := by
  obtain ⟨i', r, hr, (hon : OnPage (s.page r) p), htype⟩ := hp.held _ hx
  obtain ⟨j, r', hr', (hon' : OnPage (s.page r') q), htype'⟩ := hp.held _ hy
  cases htype.symm.trans hi
  obtain ⟨hj, hle⟩ := le_of_blocktype htype'
  obtain ⟨free, hok⟩ := hp.filled i r hr
  obtain ⟨free', hok'⟩ := hp.filled j r' hr'
  have hblock := hok.used p (List.mem_map.mpr ⟨_, hx, rfl⟩) hon
  have hblock' := hok'.used q (List.mem_map.mpr ⟨_, hy, rfl⟩) hon'
  have hrange := blocks_range (hp.kinds i r hr).1 hblock
  have hrange' := blocks_range hj hblock'
  simp only at hle
  by_cases hrr : r = r'
  · subst hrr
    have hij : i = j := (hp.kinds i r hr).2.1.symm.trans (hp.kinds j r hr').2.1
    subst hij
    rcases blocks_apart hblock' hblock hne with hlt | hlt
    · left
      omega
    · right
      exact hlt
  · have hpages : s.page r ≠ s.page r' := fun he => hrr
      (hp.unique r (hp.mem _ r hr) r' (hp.mem _ r' hr') (hp.kinds i r hr).2.2 he)
    have h1 := (hp.isPage hr).1
    have h2 := (hp.isPage hr').1
    simp only [OnPage, pageSize] at *
    omega

/-- A free writes nothing outside of the block. -/
theorem subpageKfree_link {x : Int} (hs : Inv s live L) (hx : (p, sz) ∈ live)
    (hok : subpageKfree s p = .ok (t, x)) (htype : blocktype sz = .ok i)
    (ha : a < p ∨ p + size i ≤ a) : t.link a = s.link a := by
  obtain ⟨hl, hp, -⟩ := hs
  obtain ⟨j, r, hr, (hon : OnPage (s.page r) p), htype'⟩ := hp.held _ hx
  cases htype'.symm.trans htype
  obtain ⟨hi, hkind, -⟩ := hp.kinds i r hr
  have hkind' : prBlocktype (s.ref r) = i := hkind
  have hlinked : t.link = (linked s r p (size i)).link := by
    simp only [subpageKfree, findOwner_ok hl hp hr hon, bind, Except.bind, hkind'] at hok
    split at hok
    · cases hok
    · obtain ⟨_, -, hok⟩ := ok_of_bind hok
      split at hok
      · obtain ⟨v, hv, hok⟩ := ok_of_bind hok
        cases hok
        have hlink := removeLists_link hv
        exact hlink
      · cases hok
        rfl
  rw [hlinked]
  exact linked_link (size_pos hi) ha

end Links

section Fields

/-- A large request writes fields of free chunks, and of the new one. -/
theorem Outcome.writes {x : Heap × Option Nat} (hx : Outcome h m free x)
    (hl : Large h used free got) (hm : 1 ≤ m) (hoff : ∀ c ∈ free, a < c ∨ c + h.bytes c ≤ a)
    (hhi : a ≤ h.sub.dsegHi) : x.1.sub.link = h.sub.link ∧ x.1.npages a = h.npages a ∧
      ∀ b, b + smallestSubpageSize = a → x.1.next b = h.next b := by
  cases hx with
  | @carved tmp hmem hlt =>
    have hcs := List.mem_append_right used hmem
    obtain ⟨k, hk⟩ : ∃ k, k = (h.npages tmp - m).toNat * pageSize := ⟨_, rfl⟩
    have hbytes : 0 < h.bytes tmp ∧ k < h.bytes tmp := by
      simp only [Heap.bytes, pageSize] at hk ⊢
      omega
    have hoff := hoff tmp hmem
    refine ⟨rfl, ?_, fun b _ => by rw [carve_next]⟩
    rw [(Chunks.npages_carve (hl.chunks.bound tmp hcs) hm hlt hk).2, if_neg (by omega),
      if_neg (by omega)]
  | @taken l r tmp hfree heq =>
    refine ⟨by rw [take_sub], by rw [take_npages], fun b hb => ?_⟩
    cases hlast : l.getLast? with
    | none => rfl
    | some z =>
      have hz : z ∈ free := by
        rw [hfree]
        exact List.mem_append_left _ (List.mem_of_getLast? hlast)
      have hbytes := hl.chunks.pageSize_le (List.mem_append_right used hz)
      have hoff := hoff z hz
      have hne : b ≠ z := by
        simp only [smallestSubpageSize, pageSize] at hb hbytes
        omega
      show (h.setChunk z fun v => { v with next := (h.chunk tmp).next }).next b = _
      rw [setChunk_next, if_neg hne]
  | grown =>
    have hnext : (h.grow m).1.next = h.next := setNpages_next
    refine ⟨rfl, ?_, fun b _ => by rw [hnext]⟩
    have hne : a ≠ h.sub.dsegHi + 1 := by omega
    rw [Heap.grow, setChunk_npages, if_neg hne]
    rfl
  | refused => exact ⟨rfl, rfl, fun b _ => rfl⟩

theorem bigKfree_next (hb : b ≠ header p) : (h.bigKfree p).next b = h.next b := by
  show (h.setChunk (header p) fun v => { v with next := h.bigchunks }).next b = _
  rw [setChunk_next, if_neg hb]

end Fields
end Csc469.Kheap
