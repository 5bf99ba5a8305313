import Csc469.Kheap.BigChunks
import Csc469.Kheap.Free
import Csc469.Tiling
import Mathlib.Algebra.BigOperators.Group.List.Basic
import Mathlib.Algebra.Order.Ring.Int

/-! The chunks of whole pages tile the ranges that `big_kmalloc` has got from `mem_sbrk`. -/
namespace Csc469.Kheap

open Execution Linked Tiling

namespace Heap

/-- The bytes of the chunk at `a`. -/
def bytes (h : Heap) (a : Nat) : Nat := (h.npages a).toNat * pageSize

/-- The pages of the chunks at `cs`. -/
def pages (h : Heap) (cs : List Nat) : Int := (cs.map h.npages).sum

end Heap

/-- The chunks at `cs` are what the ranges in `got` consist of. -/
structure Chunks (h : Heap) (cs : List Nat) (got : List (Nat × Nat)) : Prop where
  tiles : Tiles (· ∈ cs) h.bytes got
  nodup : cs.Nodup
  bound : ∀ c ∈ cs, h.npages c < 2 ^ 19
  obtained : ∀ r ∈ got, h.sub.dsegLo ≤ r.1 ∧ r.1 + r.2 ≤ h.sub.dsegHi + 1
  pages : h.pages cs * pageSize = total got

variable {h t : Heap} {cs ds used used' free free' : List Nat} {got got' : List (Nat × Nat)} {m : Int}
  {a b c n sz tmp : Nat} {result : Option Nat}

namespace Chunks

theorem npages_pos (hc : Chunks h cs got) (ha : a ∈ cs) : 1 ≤ h.npages a := by
  have hpos := hc.tiles.pos a ha
  simp only [Heap.bytes, pageSize] at hpos
  omega

theorem bytes_eq (hc : Chunks h cs got) (ha : a ∈ cs) : (h.bytes a : Int) = h.npages a * pageSize := by
  have hpos := hc.npages_pos ha
  simp only [Heap.bytes, pageSize]
  omega

/-- A chunk lies in the data segment. -/
theorem within (hc : Chunks h cs got) (ha : a ∈ cs) :
    h.sub.dsegLo ≤ a ∧ a + h.bytes a ≤ h.sub.dsegHi + 1 := by
  obtain ⟨r, hr, hlo, hhi⟩ := hc.tiles.within a ha
  obtain ⟨hlo', hhi'⟩ := hc.obtained r hr
  omega

theorem pageSize_le (hc : Chunks h cs got) (ha : a ∈ cs) : pageSize ≤ h.bytes a := by
  have hpos := hc.npages_pos ha
  simp only [Heap.bytes, pageSize]
  omega

/-- No chunk begins inside another. -/
theorem eq_of_inside (hc : Chunks h cs got) (ha : a ∈ cs) (hb : b ∈ cs) (hlo : a ≤ b)
    (hhi : b < a + h.bytes a) : b = a := by
  by_contra hne
  have hpos := hc.tiles.pos b hb
  rcases hc.tiles.apart b a hb ha hne with hapart | hapart <;> omega

theorem perm (hc : Chunks h cs got) (hp : cs.Perm ds) : Chunks h ds got where
  tiles := hc.tiles.congr (fun _ => hp.mem_iff.symm) fun _ _ => rfl
  nodup := hp.nodup_iff.mp hc.nodup
  bound c hd := hc.bound c (hp.mem_iff.mpr hd)
  obtained := hc.obtained
  pages := by
    have hsum : h.pages ds = h.pages cs := ((hp.map _).sum_eq).symm
    rw [hsum]
    exact hc.pages

/-- Writes that are not to the headers, and a data segment that may have grown. -/
theorem congr (hc : Chunks h cs got) (hn : ∀ c ∈ cs, t.npages c = h.npages c)
    (hlo : t.sub.dsegLo = h.sub.dsegLo) (hhi : h.sub.dsegHi ≤ t.sub.dsegHi) : Chunks t cs got where
  tiles := hc.tiles.congr (fun _ => Iff.rfl) fun c hcs => by rw [Heap.bytes, hn c hcs, Heap.bytes]
  nodup := hc.nodup
  bound c hcs := by
    rw [hn c hcs]
    exact hc.bound c hcs
  obtained r hr := by
    have := hc.obtained r hr
    omega
  pages := by
    have hsum : t.pages cs = h.pages cs := congrArg List.sum (List.map_congr_left hn)
    rw [hsum]
    exact hc.pages

theorem pages_cons : h.pages (c :: cs) = h.npages c + h.pages cs := by
  rw [Heap.pages, List.map_cons, List.sum_cons]
  rfl

/-- The page count of one chunk changes. -/
theorem pages_update (hnd : cs.Nodup) (htmp : tmp ∈ cs)
    (hn : ∀ c ∈ cs, c ≠ tmp → t.npages c = h.npages c) :
    t.pages cs + h.npages tmp = h.pages cs + t.npages tmp := by
  have hperm := List.perm_cons_erase htmp
  have hsum : ∀ u : Heap, u.pages cs = u.npages tmp + u.pages (cs.erase tmp) := fun u => by
    rw [← pages_cons]
    exact (hperm.map _).sum_eq
  have hrest : t.pages (cs.erase tmp) = h.pages (cs.erase tmp) := by
    refine congrArg List.sum (List.map_congr_left fun c hc => ?_)
    obtain ⟨hne, hc⟩ := (hnd.mem_erase_iff).mp hc
    exact hn c hc hne
  rw [hsum t, hsum h, hrest]
  omega

/-- A carved chunk begins behind the pages that are left of the larger one. -/
theorem npages_carve (hbound : h.npages tmp < 2 ^ 19) (hm : 1 ≤ m) (hlt : m < h.npages tmp) {k : Nat}
    (hk : k = (h.npages tmp - m).toNat * pageSize) :
    (h.carve tmp m).2 = some (tmp + k + smallestSubpageSize) ∧ ∀ x, (h.carve tmp m).1.npages x =
      if x = tmp + k then m else if x = tmp then h.npages tmp - m else h.npages x := by
  have hleft : int32 (h.npages tmp - m) = h.npages tmp - m :=
    int32_of_range (by omega) (by omega)
  have hhdr : ((tmp : Int) + int32 (int32 ((h.chunk tmp).npages - m) * pageSize)).toNat = tmp + k := by
    rw [show (h.chunk tmp).npages = h.npages tmp from rfl, hleft,
      int32_pages (by omega) (by omega)]
    simp only [pageSize] at hk ⊢
    omega
  refine ⟨by rw [Heap.carve, hhdr], fun x => ?_⟩
  simp only [Heap.carve, hhdr, setChunk_npages]
  split
  · rfl
  · split
    · exact hleft
    · rfl

/-- The chunk that is carved out of a larger one. -/
theorem carve (hc : Chunks h cs got) (htmp : tmp ∈ cs) (hm : 1 ≤ m) (hlt : m < h.npages tmp) :
    ∃ hdr, (h.carve tmp m).2 = some (hdr + smallestSubpageSize) ∧ hdr ∉ cs ∧
      (h.carve tmp m).1.npages hdr = m ∧ Chunks (h.carve tmp m).1 (hdr :: cs) got ∧
      ∀ c ∈ cs, c ≠ tmp → (h.carve tmp m).1.npages c = h.npages c := by
  have hbound := hc.bound tmp htmp
  obtain ⟨k, hkdef⟩ : ∃ k, k = (h.npages tmp - m).toNat * pageSize := ⟨_, rfl⟩
  have hk : 0 < k ∧ k < h.bytes tmp := by
    simp only [Heap.bytes, pageSize] at hkdef ⊢
    omega
  obtain ⟨hres, hn⟩ := npages_carve hbound hm hlt hkdef
  have hout : tmp + k ∉ cs := hc.tiles.inner htmp hk.1 hk.2
  have hself : (h.carve tmp m).1.npages (tmp + k) = m := by rw [hn, if_pos rfl]
  have htmp' : (h.carve tmp m).1.npages tmp = h.npages tmp - m := by
    rw [hn, if_neg (by omega), if_pos rfl]
  have hother : ∀ c ∈ cs, c ≠ tmp → (h.carve tmp m).1.npages c = h.npages c := by
    intro c hcs hct
    have hne : c ≠ tmp + k := fun he => hout (he ▸ hcs)
    rw [hn, if_neg hne, if_neg hct]
  refine ⟨tmp + k, hres, hout, hself, ?_, hother⟩
  constructor
  · refine (hc.tiles.split (h.carve tmp m).1.bytes htmp hk.1 hk.2 ?_ ?_ ?_).congr
      (fun x => List.mem_cons) fun _ _ => rfl
    · rw [Heap.bytes, htmp', hkdef]
    · rw [Heap.bytes, hself]
      simp only [Heap.bytes, pageSize] at hkdef ⊢
      omega
    · intro x hx hxt
      rw [Heap.bytes, hother x hx hxt, Heap.bytes]
  · exact List.nodup_cons.mpr ⟨hout, hc.nodup⟩
  · intro c hcs
    rcases List.mem_cons.mp hcs with rfl | hcs
    · omega
    · by_cases hct : c = tmp
      · subst hct
        omega
      · rw [hother c hcs hct]
        exact hc.bound c hcs
  · exact hc.obtained
  · have hsum := pages_update hc.nodup htmp hother
    have heq : (h.carve tmp m).1.pages ((tmp + k) :: cs) = h.pages cs := by
      rw [pages_cons, hself]
      omega
    rw [heq]
    exact hc.pages

/-- The chunk that `mem_sbrk` gives. -/
theorem grow (hc : Chunks h cs got) (hle : h.sub.dsegLo ≤ h.sub.dsegHi + 1) (hm : 0 < m)
    (hhi : m < 2 ^ 19) :
    h.sub.dsegHi + 1 ∉ cs ∧ (h.grow m).1.npages (h.sub.dsegHi + 1) = m ∧
      Chunks (h.grow m).1 ((h.sub.dsegHi + 1) :: cs)
        ((h.sub.dsegHi + 1, (m * pageSize).toNat) :: got) ∧
      ∀ c ∈ cs, (h.grow m).1.npages c = h.npages c := by
  have hout : h.sub.dsegHi + 1 ∉ cs := by
    intro hcs
    have hin := hc.within hcs
    have hpos := hc.tiles.pos _ hcs
    omega
  have hn : ∀ x, (h.grow m).1.npages x = if x = h.sub.dsegHi + 1 then m else h.npages x := by
    intro x
    rw [Heap.grow, setChunk_npages]
    rfl
  have hself : (h.grow m).1.npages (h.sub.dsegHi + 1) = m := by rw [hn, if_pos rfl]
  have hother : ∀ c ∈ cs, (h.grow m).1.npages c = h.npages c := by
    intro c hcs
    have hne : c ≠ h.sub.dsegHi + 1 := fun he => hout (he ▸ hcs)
    rw [hn, if_neg hne]
  have hbytes : (h.grow m).1.bytes (h.sub.dsegHi + 1) = (m * pageSize).toNat := by
    rw [Heap.bytes, hself]
    simp only [pageSize]
    omega
  have hk : 0 < (m * pageSize).toNat := by
    simp only [pageSize]
    omega
  refine ⟨hout, hself, ?_, hother⟩
  constructor
  · refine (hc.tiles.extend hk (fun r hr => (hc.obtained r hr).2) hbytes fun x hx => ?_).congr
      (fun x => List.mem_cons) fun _ _ => rfl
    rw [Heap.bytes, hother x hx, Heap.bytes]
  · exact List.nodup_cons.mpr ⟨hout, hc.nodup⟩
  · intro c hcs
    rcases List.mem_cons.mp hcs with rfl | hcs
    · omega
    · rw [hother c hcs]
      exact hc.bound c hcs
  · intro r hr
    have hsub : (h.grow m).1.sub = h.sub.widened (m * pageSize).toNat := rfl
    simp only [hsub, State.widened]
    rcases List.mem_cons.mp hr with rfl | hr
    · simp only
      omega
    · have := hc.obtained r hr
      omega
  · have hsum : (h.grow m).1.pages cs = h.pages cs :=
      congrArg List.sum (List.map_congr_left hother)
    have hpages := hc.pages
    rw [pages_cons, hself, hsum, total_cons]
    simp only [pageSize] at *
    omega

end Chunks
/-- The chunks in use, and those in `bigchunks`. -/
structure Large (h : Heap) (used free : List Nat) (got : List (Nat × Nat)) : Prop where
  chain : Chain h.next h.bigchunks free
  chunks : Chunks h (used ++ free) got

/-- The chunk at `c`, of `m` pages, comes into use: from the list, or from new memory. -/
structure Given (h t : Heap) (used free : List Nat) (got got' : List (Nat × Nat)) (m : Int) (c : Nat) :
    Prop where
  large : Large t (c :: used) (free.erase c) got'
  npages : t.npages c = m
  kept : ∀ x ∈ used, t.npages x = h.npages x
  memory : t.sub = h.sub ∧ got' = got ∨
    t.sub = h.sub.widened (m * pageSize).toNat ∧ ¬h.Full m ∧
      got' = (h.sub.dsegHi + 1, (m * pageSize).toNat) :: got

/-- Of the rest of the heap only the end of the data segment may change. -/
theorem Given.sub (hg : Given h t used free got got' m c) :
    t.sub = { h.sub with dsegHi := t.sub.dsegHi } := by
  rcases hg.memory with ⟨hsub, -⟩ | ⟨hsub, -⟩ <;> rw [hsub]
  rfl

theorem Given.dsegLo (hg : Given h t used free got got' m c) : t.sub.dsegLo = h.sub.dsegLo := by
  rw [hg.sub]

theorem Given.sizebases (hg : Given h t used free got got' m c) :
    t.sub.sizebases = h.sub.sizebases := by
  rw [hg.sub]

namespace Large

/-- No chunk has been asked for yet. -/
theorem initial (hb : h.bigchunks = none) : Large h [] [] [] :=
  ⟨hb, ⟨Tiles.nil (by simp), by simp, by simp, by simp, by simp [Heap.pages]⟩⟩

theorem disjoint (hl : Large h used free got) (hc : c ∈ used) : c ∉ free := fun hf =>
  (List.nodup_append.mp hl.chunks.nodup).2.2 c hc c hf rfl

/-- Writes that are to no field of a chunk. -/
theorem congr (hl : Large h used free got) (hn : ∀ c ∈ used ++ free, t.npages c = h.npages c)
    (hnext : ∀ c ∈ free, t.next c = h.next c) (hhead : t.bigchunks = h.bigchunks)
    (hlo : t.sub.dsegLo = h.sub.dsegLo) (hhi : h.sub.dsegHi ≤ t.sub.dsegHi) :
    Large t used free got where
  chain := by
    rw [hhead]
    exact hl.chain.congr hnext
  chunks := hl.chunks.congr hn hlo hhi

theorem carved (hl : Large h used free got) (htmp : tmp ∈ free) (hm : 1 ≤ m)
    (hlt : m < h.npages tmp) : ∃ c, (h.carve tmp m).2 = some (c + smallestSubpageSize) ∧
      Given h (h.carve tmp m).1 used free got got m c := by
  obtain ⟨c, hres, hout, hself, hchunks, hother⟩ :=
    hl.chunks.carve (List.mem_append_right used htmp) hm hlt
  rw [List.mem_append, not_or] at hout
  refine ⟨c, hres, ⟨?_, ?_⟩, hself, fun x hx => ?_, .inl ⟨rfl, rfl⟩⟩
  · rw [carve_next, List.erase_of_not_mem hout.2]
    exact hl.chain
  · rwa [List.erase_of_not_mem hout.2]
  · exact hother x (List.mem_append_left free hx) fun he => hl.disjoint hx (he ▸ htmp)

theorem taken {l r : List Nat} (hl : Large h used free got) (hfree : free = l ++ tmp :: r) :
    Given h (h.take l.getLast? tmp).1 used free got got (h.npages tmp) tmp := by
  subst hfree
  have hnd := hl.chain.nodup
  have htmp : tmp ∉ l := fun hm => (List.nodup_append.mp hnd).2.2 tmp hm tmp (by simp) rfl
  have herase : (l ++ tmp :: r).erase tmp = l ++ r := by
    rw [List.erase_append_right _ htmp, List.erase_cons_head]
  have hperm : (used ++ (l ++ tmp :: r)).Perm (tmp :: used ++ (l ++ r)) :=
    (List.perm_middle.append_left used).trans List.perm_middle
  have hn : ∀ x, (h.take l.getLast? tmp).1.npages x = h.npages x := fun x => by rw [take_npages]
  refine ⟨⟨?_, ?_⟩, hn tmp, fun x _ => hn x, .inl ⟨take_sub, rfl⟩⟩
  · rw [herase]
    exact take_chain hl.chain
  · rw [herase]
    refine (hl.chunks.perm hperm).congr (fun x _ => hn x) ?_ ?_ <;> rw [take_sub]

theorem grown (hl : Large h used free got) (hle : h.sub.dsegLo ≤ h.sub.dsegHi + 1) (hm : 0 < m)
    (hhi : m < 2 ^ 19) (hroom : ¬h.Full m) : ∃ got',
      Given h (h.grow m).1 used free got got' m (h.sub.dsegHi + 1) := by
  obtain ⟨hout, hself, hchunks, hother⟩ := hl.chunks.grow hle hm hhi
  rw [List.mem_append, not_or] at hout
  refine ⟨_, ⟨?_, ?_⟩, hself, fun x hx => hother x (List.mem_append_left free hx),
    .inr ⟨rfl, hroom, rfl⟩⟩
  · have hnext : (h.grow m).1.next = h.next := setNpages_next
    rw [hnext, List.erase_of_not_mem hout.2]
    exact hl.chain
  · rwa [List.erase_of_not_mem hout.2]

/-- A request of at least one page is refused, or gets a chunk of that many pages. -/
theorem kmalloc (hl : Large h used free got) (hle : h.sub.dsegLo ≤ h.sub.dsegHi + 1)
    (hm : 1 ≤ pagesFor sz) (hok : h.bigKmalloc n sz = .ok (t, result)) :
    (result = none ∧ t = h) ∨ ∃ c got', result = some (c + smallestSubpageSize) ∧
      Given h t used free got got' (pagesFor sz) c := by
  have hhi := (pagesFor_range sz).2
  have hout := outcome_of_ok hl.chain hok
  generalize hx : (t, result) = x at hout
  cases hout with
  | carved hmem hlt =>
    obtain ⟨c, hres, hgiven⟩ := hl.carved hmem hm hlt
    rw [← hx] at hres hgiven
    exact .inr ⟨c, got, hres, hgiven⟩
  | @taken l r tmp hfree heq =>
    have hgiven := hl.taken hfree
    rw [heq, ← hx] at hgiven
    exact .inr ⟨tmp, got, (Prod.ext_iff.mp hx).2, hgiven⟩
  | grown hall hpos hroom =>
    obtain ⟨got', hgiven⟩ := hl.grown hle hpos hhi hroom
    rw [← hx] at hgiven
    exact .inr ⟨_, got', (Prod.ext_iff.mp hx).2, hgiven⟩
  | refused hall hpos hfull =>
    cases hx
    exact .inl ⟨rfl, rfl⟩

/-- `big_kfree` puts the chunk in front of the list. -/
theorem kfree (hl : Large h used free got) (hp : used.Perm (c :: used')) :
    Large (h.bigKfree (c + smallestSubpageSize)) used' (c :: free) got ∧
      (h.bigKfree (c + smallestSubpageSize)).npages = h.npages := by
  have hhdr := header_add c
  have hcu : c ∈ used := hp.mem_iff.mpr (by simp)
  have hn : (h.bigKfree (c + smallestSubpageSize)).npages = h.npages := setNext_npages
  have hnext : ∀ x, (h.bigKfree (c + smallestSubpageSize)).next x =
      if x = c then h.bigchunks else h.next x := by
    intro x
    simp only [Heap.bigKfree, hhdr]
    show (h.setChunk c fun v => { v with next := h.bigchunks }).next x = _
    rw [setChunk_next]
  refine ⟨⟨⟨congrArg some hhdr, ?_⟩, ?_⟩, hn⟩
  · rw [hnext, if_pos rfl]
    refine hl.chain.congr fun x hx => ?_
    have hne : x ≠ c := fun he => hl.disjoint hcu (he ▸ hx)
    rw [hnext, if_neg hne]
  · have hperm : (used ++ free).Perm (used' ++ c :: free) :=
      (hp.append_right free).trans List.perm_middle.symm
    exact (hl.chunks.perm hperm).congr (fun x _ => congrFun hn x) rfl (Nat.le_refl _)

/-- The program writes where no chunk has its fields. -/
theorem write (hl : Large h used free got) (word : Option Nat) (hhdr : ∀ c ∈ used ++ free, a ≠ c)
    (hlink : ∀ c ∈ free, a ≠ c + smallestSubpageSize) : Large (h.write a word) used free got ∧
      ∀ c ∈ used ++ free, (h.write a word).npages c = h.npages c := by
  have hn : ∀ c ∈ used ++ free, (h.write a word).npages c = h.npages c := fun c hc =>
    if_neg (hhdr c hc).symm
  exact ⟨hl.congr hn (fun c hc => if_neg (hlink c hc).symm) rfl rfl (Nat.le_refl _), hn⟩

/-- The program writes behind the header of a chunk in use. -/
theorem write_used (hl : Large h used free got) (word : Option Nat) (hc : c ∈ used)
    (hlo : c + smallestSubpageSize ≤ a) (hhi : a < c + h.bytes c) : Large (h.write a word) used free got ∧
      ∀ c ∈ used ++ free, (h.write a word).npages c = h.npages c := by
  have hcs := List.mem_append_left free hc
  refine hl.write word (fun x hx he => ?_) fun x hx he => ?_
  · have := hl.chunks.eq_of_inside hcs hx (by omega) (by omega)
    simp only [smallestSubpageSize] at hlo
    omega
  · have := hl.chunks.eq_of_inside hcs (List.mem_append_right used hx) (by omega) (by omega)
    exact hl.disjoint hc (this ▸ hx)

end Large

section Blocks

variable {live : List (Nat × Nat)} {p : Nat}

theorem mem_headers (hx : (p, sz) ∈ live) : header p ∈ live.map fun x => header x.1 :=
  List.mem_map.mpr ⟨_, hx, rfl⟩

/-- A live pointer is behind the header of its chunk. -/
theorem Large.ptr_eq (hl : Large h (live.map fun x => header x.1) free got)
    (hpos : 0 < h.sub.dsegLo) (hx : (p, sz) ∈ live) : header p + smallestSubpageSize = p := by
  have hlo := (hl.chunks.within (List.mem_append_left free (mem_headers hx))).1
  simp only [header] at *
  omega

theorem Large.ptrs_nodup (hl : Large h (live.map fun x => header x.1) free got) :
    (live.map Prod.fst).Nodup := by
  have hnd := (List.nodup_append.mp hl.chunks.nodup).1
  have hmap : live.map (fun x => header x.1) = (live.map Prod.fst).map header := by
    rw [List.map_map]
    rfl
  rw [hmap] at hnd
  exact hnd.of_map

theorem Large.kfree_block (hl : Large h (live.map fun x => header x.1) free got)
    (hpos : 0 < h.sub.dsegLo) (hx : (p, sz) ∈ live) :
    Large (h.bigKfree p) ((without live p).map fun x => header x.1) (header p :: free) got ∧
      (h.bigKfree p).npages = h.npages := by
  have hperm := (perm_without hl.ptrs_nodup hx).map fun x => header x.1
  rw [List.map_cons] at hperm
  have hfree := hl.kfree hperm
  rwa [hl.ptr_eq hpos hx] at hfree

theorem Large.write_block {a : Nat} (hl : Large h (live.map fun x => header x.1) free got)
    (word : Option Nat) (hpos : 0 < h.sub.dsegLo) (hx : (p, sz) ∈ live) (hle : p ≤ a)
    (hlt : a < header p + h.bytes (header p)) :
    Large (h.write a word) (live.map fun x => header x.1) free got ∧
      ∀ c ∈ (live.map fun x => header x.1) ++ free, (h.write a word).npages c = h.npages c := by
  have hptr := hl.ptr_eq hpos hx
  exact hl.write_used word (mem_headers hx) (by omega) hlt

end Blocks
end Csc469.Kheap
