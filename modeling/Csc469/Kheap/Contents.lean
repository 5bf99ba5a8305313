import Csc469.Blocks
import Csc469.Kheap.Writes

/-! Seen by the program, the heap is memory that is given out in blocks. -/
namespace Csc469.Kheap.Routing

open Execution Simulation Linked Blocks

/-- `sizeof (void *)` -/
def sizeofWord : Nat := 8

/-- What is at an address: a word of a block, or the fields of a chunk. -/
structure Word where
  link : Option Nat
  npages : Int
  next : Option Nat

/-- What the program leaves there when it stores a word. -/
def Word.of (word : Option Nat) : Word := ⟨word, int32 (word.getD 0), word⟩

def load (h : Heap) (a : Nat) : Word where
  link := h.sub.link a
  npages := h.npages a
  next := if smallestSubpageSize ≤ a then h.next (a - smallestSubpageSize) else none

def memory (s : Session) : Memory Word := ⟨s.live.map fun x => ⟨x.1, x.2⟩, load s.heap⟩

def op : Event → Op Word
  | .malloc sz => .malloc sz
  | .free p => .free p
  | .write a word => .store a (.of word)

/-- The program writes whole words into its blocks, asks for less than 2 GB at a time, and new
pages for small blocks begin below 4 GB. -/
def Sound (s : Session) : Event → Prop
  | .malloc sz =>
    if largestSubpageSize ≤ sz then sz + 4103 < 2 ^ 31
    else TakesPage s.heap.sub sz → nextPage s.heap.sub < 2 ^ 32
  | .write a _ => ∃ b ∈ (memory s).blocks, b.Holds sizeofWord a
  | .free _ => True

/-- The chunks of the large blocks are as long as they should be. -/
def Covers (s : Session) : Prop :=
  ∀ x ∈ larges s.live, x.2 + smallestSubpageSize ≤ s.heap.bytes (header x.1)

/-- The heap after a run whose steps are sound. -/
def Kept (s : Session) : Prop := (∃ L free got, Inv s L free got) ∧ Covers s

variable {s u : Session} {e : Event} {run : List (Event × Session)} {L : Place → List Nat}
  {free : List Nat} {got : List (Nat × Nat)} {h v : Heap} {t : State} {word : Option Nat}
  {a b c n p q sz sz' : Nat} {result : Option Nat}

theorem Sound.supported (h : Sound s e) : Supported s e := by
  cases e with
  | malloc sz =>
    rw [Sound] at h
    rw [Supported]
    split at h
    · next hsz =>
      rw [if_pos hsz]
      exact (fits_iff.mpr h).1
    · next hsz =>
      rw [if_neg hsz]
      exact h
  | free p => trivial
  | write a word => trivial

section Loads

theorem load_write_self (ha : smallestSubpageSize ≤ a) : load (h.write a word) a = .of word := by
  have hadd : a - smallestSubpageSize + smallestSubpageSize = a := Nat.sub_add_cancel ha
  simp [load, Word.of, Heap.write, Heap.npages, Heap.next, State.setLink, ha, hadd]

theorem load_write_ne (hb : b ≠ a) : load (h.write a word) b = load h b := by
  by_cases hle : smallestSubpageSize ≤ b
  · have hne : b - smallestSubpageSize + smallestSubpageSize ≠ a := by omega
    simp [load, Heap.write, Heap.npages, Heap.next, State.setLink, hb, hne]
  · simp [load, Heap.write, Heap.npages, State.setLink, hb, hle]

theorem load_congr (hlink : v.sub.link a = h.sub.link a) (hn : v.npages a = h.npages a)
    (hnext : ∀ b, b + smallestSubpageSize = a → v.next b = h.next b) : load v a = load h a := by
  rw [load, load, hlink, hn]
  split
  · next hle => rw [hnext _ (Nat.sub_add_cancel hle)]
  · rfl

end Loads

section Blocks

theorem mem_blocks : (⟨p, sz⟩ : Block) ∈ (memory s).blocks ↔ (p, sz) ∈ s.live := by
  simp [memory]

/-- A small block ends on its page. -/
theorem small_region (hi : Inv s L free got) (hx : (p, sz) ∈ smalls s.live) :
    ∃ q, s.heap.sub.Uses q ∧ q ≤ p ∧ p + sz ≤ q + pageSize := by
  obtain ⟨i, r, hr, (hon : OnPage (s.heap.sub.page r) p), htype⟩ := hi.sub.pages.held _ hx
  obtain ⟨hlt, hsz⟩ := le_of_blocktype htype
  obtain ⟨blocks, hok⟩ := hi.sub.pages.filled i r hr
  have hrange := blocks_range hlt (hok.used p (List.mem_map.mpr ⟨_, hx, rfl⟩) hon)
  refine ⟨_, hi.uses hr, hrange.1, ?_⟩
  simp only at hsz
  omega

/-- A large one ends in its chunk. -/
theorem large_region (hi : Inv s L free got) (hc : Covers s) (hx : (p, sz) ∈ larges s.live) :
    header p + smallestSubpageSize = p ∧ p + sz ≤ header p + s.heap.bytes (header p) := by
  have hptr := (hi.ptr_in_chunk hx).1
  have hcover := hc _ hx
  refine ⟨hptr, ?_⟩
  simp only at hcover
  omega

theorem in_segment (hi : Inv s L free got) (hc : Covers s) (hx : (p, sz) ∈ s.live) (hle : p ≤ a)
    (hlt : a < p + sz) : s.heap.sub.dsegLo ≤ a ∧ a ≤ s.heap.sub.dsegHi := by
  rcases Nat.lt_or_ge sz largestSubpageSize with hsz | hsz
  · obtain ⟨i, r, hr, hon⟩ := written_page hi.sub (mem_smalls.mpr ⟨hx, hsz⟩) hle hlt
    obtain ⟨-, hlo, hhi⟩ := hi.sub.pages.isPage hr
    simp only [OnPage] at hon
    omega
  · have hx := mem_larges.mpr ⟨hx, hsz⟩
    obtain ⟨hptr, hend⟩ := large_region hi hc hx
    have hin := hi.large.chunks.within (List.mem_append_left free (mem_headers hx))
    omega

/-- No free chunk has an address of a block. -/
theorem off_free (hi : Inv s L free got) (hc : Covers s) (hx : (p, sz) ∈ s.live) (hle : p ≤ a)
    (hlt : a < p + sz) (hfree : c ∈ free) : a < c ∨ c + s.heap.bytes c ≤ a := by
  have hcs := List.mem_append_right ((larges s.live).map fun x => header x.1) hfree
  rcases Nat.lt_or_ge sz largestSubpageSize with hsz | hsz
  · obtain ⟨i, r, hr, hon⟩ := written_page hi.sub (mem_smalls.mpr ⟨hx, hsz⟩) hle hlt
    exact hi.off_chunk hcs (hi.uses hr) hon
  · have hx := mem_larges.mpr ⟨hx, hsz⟩
    obtain ⟨hptr, hend⟩ := large_region hi hc hx
    have hne : header p ≠ c := fun he => hi.large.disjoint (mem_headers hx) (he ▸ hfree)
    rcases hi.large.chunks.tiles.apart _ c (List.mem_append_left free (mem_headers hx)) hcs hne
      with h | h
    · left
      omega
    · right
      omega

/-- It is none of a chunk's header either. -/
theorem ne_header (hi : Inv s L free got) (hc : Covers s) (hx : (p, sz) ∈ s.live) (hle : p ≤ a)
    (hlt : a < p + sz) (hy : (q, sz') ∈ larges s.live) : a ≠ header q := by
  have hcq := List.mem_append_left free (mem_headers hy)
  have hbytes := hi.large.chunks.tiles.pos _ hcq
  rcases Nat.lt_or_ge sz largestSubpageSize with hsz | hsz
  · obtain ⟨i, r, hr, hon⟩ := written_page hi.sub (mem_smalls.mpr ⟨hx, hsz⟩) hle hlt
    rcases hi.off_chunk hcq (hi.uses hr) hon with hout | hout <;> omega
  · have hx := mem_larges.mpr ⟨hx, hsz⟩
    obtain ⟨hptr, hend⟩ := large_region hi hc hx
    rintro rfl
    have heq := hi.large.chunks.eq_of_inside (List.mem_append_left free (mem_headers hx)) hcq
      (by omega) (by omega)
    simp only [smallestSubpageSize] at hptr
    omega

/-- The chunks lie apart from the pages. -/
theorem small_apart_large (hi : Inv s L free got) (hc : Covers s) (hx : (p, sz) ∈ s.live)
    (hsz : sz < largestSubpageSize) (hy : (q, sz') ∈ s.live) (hsz' : largestSubpageSize ≤ sz') :
    p + sz ≤ q ∨ q + sz' ≤ p := by
  have hy := mem_larges.mpr ⟨hy, hsz'⟩
  obtain ⟨page, huses, hle, hend⟩ := small_region hi (mem_smalls.mpr ⟨hx, hsz⟩)
  obtain ⟨hptr, hend'⟩ := large_region hi hc hy
  obtain ⟨r, hr, hlo, hhi⟩ :=
    hi.large.chunks.tiles.within _ (List.mem_append_left free (mem_headers hy))
  rcases hi.apart r hr page huses with h | h
  · left
    omega
  · right
    omega

theorem apart_of_ne (hi : Inv s L free got) (hc : Covers s) (hx : (p, sz) ∈ s.live)
    (hy : (q, sz') ∈ s.live) (hne : p ≠ q) : p + sz ≤ q ∨ q + sz' ≤ p := by
  rcases Nat.lt_or_ge sz largestSubpageSize with hsz | hsz <;>
    rcases Nat.lt_or_ge sz' largestSubpageSize with hsz' | hsz'
  · have hx := mem_smalls.mpr ⟨hx, hsz⟩
    obtain ⟨i, -, -, -, (htype : blocktype sz = .ok i)⟩ := hi.sub.pages.held _ hx
    have hle := (le_of_blocktype htype).2
    rcases blocks_disjoint hi.sub.pages hx (mem_smalls.mpr ⟨hy, hsz'⟩) hne.symm htype with h | h
    · exact .inr h
    · left
      omega
  · exact small_apart_large hi hc hx hsz hy hsz'
  · exact (small_apart_large hi hc hy hsz' hx hsz).symm
  · have hx := mem_larges.mpr ⟨hx, hsz⟩
    have hy := mem_larges.mpr ⟨hy, hsz'⟩
    obtain ⟨hptr, hend⟩ := large_region hi hc hx
    obtain ⟨hptr', hend'⟩ := large_region hi hc hy
    have hheaders : header p ≠ header q := by
      intro heq
      omega
    rcases hi.large.chunks.tiles.apart _ _ (List.mem_append_left free (mem_headers hx))
      (List.mem_append_left free (mem_headers hy)) hheaders with h | h
    · left
      omega
    · right
      omega

/-- The pointer that a request returns is a new one. -/
theorem new_ptr {live : List (Nat × Nat)} (hi : Inv ⟨v, (p, sz) :: live⟩ L free got)
    (hx : (q, sz') ∈ live) : q ≠ p := by
  rcases Nat.lt_or_ge sz largestSubpageSize with hsz | hsz
  · have hp : (p, sz) ∈ smalls ((p, sz) :: live) := mem_smalls.mpr ⟨by simp, hsz⟩
    rcases Nat.lt_or_ge sz' largestSubpageSize with hsz' | hsz'
    · have hnd := hi.sub.pages.nodup
      rw [(smalls_cons live p hsz).1, List.map_cons, List.nodup_cons] at hnd
      rintro rfl
      exact hnd.1 (List.mem_map.mpr ⟨_, mem_smalls.mpr ⟨hx, hsz'⟩, rfl⟩)
    · have hq : (q, sz') ∈ larges ((p, sz) :: live) := mem_larges.mpr ⟨by simp [hx], hsz'⟩
      exact hi.small_ne_large hp hq
  · have hp : (p, sz) ∈ larges ((p, sz) :: live) := mem_larges.mpr ⟨by simp, hsz⟩
    rcases Nat.lt_or_ge sz' largestSubpageSize with hsz' | hsz'
    · have hq : (q, sz') ∈ smalls ((p, sz) :: live) := mem_smalls.mpr ⟨by simp [hx], hsz'⟩
      exact (hi.small_ne_large hq hp).symm
    · have hnd := hi.large.ptrs_nodup
      rw [(larges_cons live p hsz).2, List.map_cons, List.nodup_cons] at hnd
      rintro rfl
      exact hnd.1 (List.mem_map.mpr ⟨_, mem_larges.mpr ⟨hx, hsz'⟩, rfl⟩)

end Blocks

section Calls

/-- A request leaves the words of the blocks alone. -/
theorem malloc_loads (hi : Inv s L free got) (hc : Covers s) (hsound : Sound s (.malloc sz))
    (hok : s.heap.mmMalloc n sz = .ok (v, result)) (hx : (p, sz') ∈ s.live) (hle : p ≤ a)
    (hlt : a < p + sz') : load v a = load s.heap a := by
  have hhi := (in_segment hi hc hx hle hlt).2
  rcases Nat.lt_or_ge sz largestSubpageSize with hsz | hsz
  · rw [mmMalloc_small hsz] at hok
    obtain ⟨x, hx', hv⟩ := map_eq_ok.mp hok
    cases hv
    obtain ⟨y, hy⟩ : ∃ y, subpageKmalloc s.heap.sub sz true true = .ok y := by
      obtain ⟨t, L', -, ⟨p, heq, -⟩ | ⟨heq, -⟩⟩ := subpageKmalloc_ok hi.sub (Nat.le_of_lt hsz)
        (pageBelow_of_supported hi.sub hsz hsound.supported)
      · exact ⟨_, heq⟩
      · exact ⟨_, heq⟩
    cases (Release.subpageKmalloc_of_ok hy).symm.trans hx'
    refine load_congr (subpageKmalloc_link hi.sub (Nat.le_of_lt hsz) hy hhi ?_) rfl fun _ _ => rfl
    intro q huses hon
    rcases Nat.lt_or_ge sz' largestSubpageSize with hsz' | hsz'
    · obtain ⟨j, r, hr, hon'⟩ := written_page hi.sub (mem_smalls.mpr ⟨hx, hsz'⟩) hle hlt
      exact ⟨j, r, hr, onPage_unique (hi.sub.pages.isPage hr).1
        (hi.sub.pages.isPage_of_uses huses).1 hon' hon⟩
    · have hx := mem_larges.mpr ⟨hx, hsz'⟩
      obtain ⟨hptr, hend⟩ := large_region hi hc hx
      exact (hi.large_off hx (by omega) (by omega) huses hon).elim
  · rw [Heap.mmMalloc, if_pos hsz] at hok
    have hm := (supported_large hsz).mp hsound.supported
    obtain ⟨hlink, hn, hnext⟩ := (outcome_of_ok hi.large.chain hok).writes hi.large hm
      (fun c hfree => off_free hi hc hx hle hlt hfree) hhi
    exact load_congr (congrFun hlink a) hn hnext

/-- So it does with the lengths of their chunks, and a large block gets the pages it needs. -/
theorem malloc_covers (hi : Inv s L free got) (hc : Covers s) (hsound : Sound s (.malloc sz))
    (hok : s.heap.mmMalloc n sz = .ok (v, result)) :
    Covers ⟨v, (result.map (·, sz)).toList ++ s.live⟩ := by
  rcases Nat.lt_or_ge sz largestSubpageSize with hsz | hsz
  · rw [mmMalloc_small hsz] at hok
    obtain ⟨x, -, hv⟩ := map_eq_ok.mp hok
    cases hv
    intro y hy
    apply hc y
    cases hx : x.2 with
    | none =>
      rw [hx] at hy
      exact hy
    | some p =>
      rw [hx] at hy
      rw [← (smalls_cons s.live p hsz).2]
      exact hy
  · rw [Heap.mmMalloc, if_pos hsz] at hok
    have hm := (supported_large hsz).mp hsound.supported
    rcases hi.large.kmalloc hi.sub.pages.segment.le hm hok with ⟨rfl, rfl⟩ | ⟨c, got', rfl, hg⟩
    · exact hc
    · intro y hy
      have hy' : y ∈ larges ((c + smallestSubpageSize, sz) :: s.live) := hy
      rw [(larges_cons s.live _ hsz).2] at hy'
      rcases List.mem_cons.mp hy' with rfl | hy'
      · rw [Sound, if_pos hsz] at hsound
        have hfits := (fits_iff.mpr hsound).2
        rw [header_add, Heap.bytes, hg.npages]
        simp only [pageSize, smallestSubpageSize] at *
        omega
      · have hcover := hc y hy'
        rw [Heap.bytes, hg.kept _ (mem_headers (show (y.1, y.2) ∈ larges s.live from hy'))]
        exact hcover

/-- A free leaves the words of the other blocks alone. -/
theorem free_loads (hi : Inv s L free got) (hc : Covers s) (hx : (p, sz) ∈ s.live)
    (hok : s.heap.mmFree (some p) = .ok v) (hy : (q, sz') ∈ s.live) (hne : q ≠ p) (hle : q ≤ a)
    (hlt : a < q + sz') : load v a = load s.heap a := by
  rcases Nat.lt_or_ge sz largestSubpageSize with hsz | hsz
  · have hxs := mem_smalls.mpr ⟨hx, hsz⟩
    obtain ⟨r, t, L', hf, -⟩ := subpageKfree_ok hi.sub hxs
    cases (mmFree_small hf).2.symm.trans hok
    obtain ⟨i, r', hr', (hon : OnPage (s.heap.sub.page r') p), (htype : blocktype sz = .ok i)⟩ :=
      hi.sub.pages.held _ hxs
    refine load_congr (subpageKfree_link hi.sub hxs hf.call htype ?_) rfl fun _ _ => rfl
    rcases Nat.lt_or_ge sz' largestSubpageSize with hsz' | hsz'
    · have hys := mem_smalls.mpr ⟨hy, hsz'⟩
      rcases blocks_disjoint hi.sub.pages hxs hys hne htype with h | h
      · left
        omega
      · right
        omega
    · have hyl := mem_larges.mpr ⟨hy, hsz'⟩
      obtain ⟨hptr, hend⟩ := large_region hi hc hyl
      have hoff := hi.large_off (b := a) hyl (by omega) (by omega) (hi.uses hr')
      obtain ⟨blocks, hok'⟩ := hi.sub.pages.filled i r' hr'
      have hrange := blocks_range (le_of_blocktype htype).1
        (hok'.used p (List.mem_map.mpr ⟨_, hxs, rfl⟩) hon)
      simp only [OnPage, not_and, Nat.not_lt] at hoff
      omega
  · have hxl := mem_larges.mpr ⟨hx, hsz⟩
    cases (mmFree_large hi hxl).2.symm.trans hok
    have hnp := (hi.large.kfree_block hi.lo_pos hxl).2
    have hptr := (hi.ptr_in_chunk hxl).1
    refine load_congr rfl (congrFun hnp a) fun b hb => bigKfree_next ?_
    rintro rfl
    simp only [largestSubpageSize] at hsz
    rcases apart_of_ne hi hc hx hy hne.symm with h | h <;> omega

theorem free_covers (hi : Inv s L free got) (hc : Covers s) (hx : (p, sz) ∈ s.live)
    (hok : s.heap.mmFree (some p) = .ok v) : Covers ⟨v, without s.live p⟩ := by
  have hn : v.npages = s.heap.npages := by
    rcases Nat.lt_or_ge sz largestSubpageSize with hsz | hsz
    · obtain ⟨r, t, L', hf, -⟩ := subpageKfree_ok hi.sub (mem_smalls.mpr ⟨hx, hsz⟩)
      cases (mmFree_small hf).2.symm.trans hok
      rfl
    · have hxl := mem_larges.mpr ⟨hx, hsz⟩
      cases (mmFree_large hi hxl).2.symm.trans hok
      exact (hi.large.kfree_block hi.lo_pos hxl).2
  intro y hy
  rw [larges_without, mem_without] at hy
  have hcover := hc y hy.1
  rw [Heap.bytes, hn]
  exact hcover

theorem write_covers (hi : Inv s L free got) (hc : Covers s) (hx : (p, sz) ∈ s.live) (hle : p ≤ a)
    (hlt : a < p + sz) : Covers ⟨s.heap.write a word, s.live⟩ := by
  intro y hy
  have hne := ne_header hi hc hx hle hlt (show (y.1, y.2) ∈ larges s.live from hy)
  have hn : (s.heap.write a word).npages (header y.1) = s.heap.npages (header y.1) :=
    if_neg hne.symm
  have hcover := hc y hy
  rw [Heap.bytes, hn]
  exact hcover

end Calls

section Refinement

theorem covers_step (hi : Inv s L free got) (hc : Covers s) (hs : Step s e u) (hsound : Sound s e) :
    Covers u := by
  cases hs with
  | malloc hok => exact malloc_covers hi hc hsound hok
  | failed hok => exact malloc_covers hi hc hsound hok
  | free hx hok => exact free_covers hi hc hx hok
  | write hx hle hlt => exact write_covers hi hc hx hle hlt

/-- Each step is one of memory given out in blocks. -/
theorem simulates : Simulates Kept (fun s e u => Step s e u ∧ Sound s e) (Blocks.Step sizeofWord)
    memory (some ∘ op) where
  keeps s e u hk hs := by
    obtain ⟨⟨L, free, got, hi⟩, hc⟩ := hk
    exact ⟨(step_iff ⟨L, free, got, hi⟩ hs.1).2 hs.2.supported, covers_step hi hc hs.1 hs.2⟩
  step s e u d hk hs hd := by
    obtain ⟨⟨L, free, got, hi⟩, hc⟩ := hk
    obtain ⟨hs, hsound⟩ := hs
    obtain ⟨L', free', got', hi'⟩ := (step_iff ⟨L, free, got, hi⟩ hs).2 hsound.supported
    have hc' := covers_step hi hc hs hsound
    cases hd
    cases hs with
    | @malloc v n sz p hok =>
      apply Blocks.Step.malloc (b := ⟨p, sz⟩)
      · intro b hb
        have hb' := mem_blocks.mp hb
        have hne := new_ptr hi' hb'
        exact ⟨hne.symm, apart_of_ne hi' hc' (by simp) (List.mem_cons_of_mem _ hb') hne.symm⟩
      · intro b hb _ a ha
        exact malloc_loads hi hc hsound hok (mem_blocks.mp hb) ha.1 (ha.lt (by decide))
    | failed hok =>
      apply Blocks.Step.refused
      intro b hb _ a ha
      exact malloc_loads hi hc hsound hok (mem_blocks.mp hb) ha.1 (ha.lt (by decide))
    | @free v p sz hx hok =>
      have hstep : Blocks.Step sizeofWord (memory s) (.free p)
          ⟨(memory s).blocks.filter (·.base ≠ p), load v⟩ := by
        apply Blocks.Step.free (mem_blocks.mpr hx)
        intro b hb hne a ha
        exact free_loads hi hc hx hok (mem_blocks.mp hb) hne ha.1 (ha.lt (by decide))
      have hblocks : (memory ⟨v, without s.live p⟩).blocks =
          (memory s).blocks.filter (·.base ≠ p) := by
        simp [memory, without, List.filter_map, Function.comp_def]
      rwa [← hblocks] at hstep
    | @write p sz a word hx hle hlt =>
      obtain ⟨b, hb, ha⟩ := hsound
      obtain ⟨hlo, hhi⟩ := in_segment hi hc hx hle hlt
      have hpos := hi.lo_pos
      have halign := hi.sub.pages.segment.lo
      simp only [pageSize] at halign
      apply Blocks.Step.store hb ha
      · exact load_write_self (show 8 ≤ a by omega)
      · intro x hx
        exact load_write_ne (hx.ne (by decide)).symm
  silent s e u hk hs hd := by cases hd

theorem kept_started (hs : Started s) : Kept s := by
  refine ⟨⟨_, _, _, inv_started hs⟩, ?_⟩
  intro x hx
  rw [hs.live] at hx
  cases hx

/-- Whatever a program asks for, frees and writes, the heap is to it memory that is given out in
blocks: they lie apart, and keep what the program has written there. -/
theorem heap_refines_blocks (hs : Started s) (hr : Along Step s run)
    (hsound : Along (fun u e _ => Sound u e) s run) :
    (memory s).blocks = [] ∧
      Along (Blocks.Step sizeofWord) (memory s) (seen memory (some ∘ op) run) ∧
      lastState (memory s) (seen memory (some ∘ op) run) = memory (lastState s run) ∧
      ∀ x ∈ run, (memory x.2).blocks.Pairwise Apart := by
  have hempty : (memory s).blocks = [] := by
    rw [memory, hs.live]
    rfl
  have hboth := hr.and hsound
  have hseen := simulates.along (kept_started hs) hboth
  refine ⟨hempty, hseen, simulates.last (kept_started hs) hboth, fun x hx => ?_⟩
  have hapart := apart_along (by rw [hempty]; exact .nil) hseen
  apply hapart (op x.1, memory x.2)
  exact List.mem_filterMap.mpr ⟨x, hx, rfl⟩

/-- A word that the program has stored in one of its blocks is there until the block is freed or
another word stored over it, whatever is asked for, freed and written meanwhile. -/
theorem stored_word_stays (hs : Started s) (hr : Along Step s run)
    (hsound : Along (fun u e _ => Sound u e) s run)
    (hstored : Since
      (fun u e _ => (p, sz) ∈ u.live ∧ p ≤ a ∧ a + sizeofWord ≤ p + sz ∧ e = .write a word)
      (fun _ e _ => e ≠ .free p ∧ ∀ x w, e = .write x w → Beside sizeofWord x a) s run) :
    (p, sz) ∈ (lastState s run).live ∧ (lastState s run).heap.sub.link a = word := by
  have hboth := hr.and hsound
  have hkept := kept_started hs
  have hseen : Since (Stores sizeofWord ⟨p, sz⟩ a (.of word)) (Spares sizeofWord ⟨p, sz⟩ a)
      (memory s) (seen memory (some ∘ op) run) := by
    apply simulates.since _ _ hkept hboth hstored
    · rintro u e t ⟨hx, hle, hend, rfl⟩
      exact ⟨_, rfl, mem_blocks.mpr hx, ⟨hle, hend⟩, rfl⟩
    · rintro u e t d ⟨hfree, hstore⟩ hd
      cases hd
      cases e with
      | malloc sz => exact ⟨nofun, nofun⟩
      | free q =>
        refine ⟨?_, nofun⟩
        rintro ⟨⟩
        exact hfree rfl
      | write x w =>
        refine ⟨nofun, ?_⟩
        rintro _ _ ⟨⟩
        exact hstore x w rfl
  have hlast := last_store (simulates.along hkept hboth) hseen
  rw [simulates.last hkept hboth] at hlast
  exact ⟨mem_blocks.mp hlast.1, congrArg Word.link hlast.2⟩

end Refinement

section Runs

/-- A word is stored in a small block and one in a large block, which is then freed. -/
def twoStores : List (Event × List (Nat × Nat)) :=
  [(.malloc 1000, [(11264, 1000)]), (.malloc 5000, [(12296, 5000), (11264, 1000)]),
    (.write 11264 (some 7), [(12296, 5000), (11264, 1000)]),
    (.write 12296 (some 9), [(12296, 5000), (11264, 1000)]), (.free 12296, [(11264, 1000)])]

theorem twoStores_along : ∃ run, run.map (fun x => (x.1, x.2.live)) = twoStores ∧
    Along Step (startedAt 4096) run ∧ Along (fun u e _ => Sound u e) (startedAt 4096) run := by
  have h1 : ((startedAt 4096).heap.mmMalloc 0 1000).toOption.map Prod.snd = some (some 11264) := by
    decide +kernel
  obtain ⟨⟨u, -⟩, hu, rfl⟩ := ok_of_map h1
  have h2 : ((startedAt 4096).heap.mmMalloc 0 1000 >>= fun x =>
      x.1.mmMalloc 0 5000).toOption.map Prod.snd = some (some 12296) := by
    decide +kernel
  obtain ⟨⟨v, -⟩, hv, rfl⟩ := ok_of_map h2
  rw [hu] at hv
  have hv : u.mmMalloc 0 5000 = .ok (v, some 12296) := hv
  have h3 : ((startedAt 4096).heap.mmMalloc 0 1000 >>= fun x => x.1.mmMalloc 0 5000 >>= fun y =>
      ((y.1.write 11264 (some 7)).write 12296 (some 9)).mmFree (some 12296)).toOption.map
        (fun _ => ()) = some () := by
    decide +kernel
  have h4 : ((startedAt 4096).heap.mmMalloc 0 1000 >>= fun x =>
      x.1.mmMalloc 0 5000).toOption.map (fun y => y.1.npages 12288) = some 2 := by
    decide +kernel
  obtain ⟨w, hw, -⟩ := ok_of_map h3
  rw [hu] at hw
  have hw : (u.mmMalloc 0 5000 >>= fun y =>
      ((y.1.write 11264 (some 7)).write 12296 (some 9)).mmFree (some 12296)) = .ok w := hw
  rw [hv] at hw
  have hw : ((v.write 11264 (some 7)).write 12296 (some 9)).mmFree (some 12296) = .ok w := hw
  obtain ⟨_, hy, hn⟩ := ok_of_map h4
  rw [hu] at hy
  cases hv.symm.trans hy
  have hn : v.npages 12288 = 2 := hn
  let run : List (Event × Session) := [(.malloc 1000, ⟨u, [(11264, 1000)]⟩),
    (.malloc 5000, ⟨v, [(12296, 5000), (11264, 1000)]⟩),
    (.write 11264 (some 7), ⟨v.write 11264 (some 7), [(12296, 5000), (11264, 1000)]⟩),
    (.write 12296 (some 9),
      ⟨(v.write 11264 (some 7)).write 12296 (some 9), [(12296, 5000), (11264, 1000)]⟩),
    (.free 12296, ⟨w, [(11264, 1000)]⟩)]
  have hsmall : (11264, 1000) ∈ [(12296, 5000), (11264, 1000)] := by simp
  have hlarge : (12296, 5000) ∈ [(12296, 5000), (11264, 1000)] := by simp
  refine ⟨run, rfl, ⟨.malloc hu, .malloc hv, ?_, ?_, .free hlarge hw, trivial⟩, ?_⟩
  · exact .write hsmall (Nat.le_refl _) (by decide) fun hsz => absurd hsz (by decide)
  · refine .write hlarge (Nat.le_refl _) (by decide) fun _ => ?_
    have hn' : (v.write 11264 (some 7)).npages (header 12296) = 2 := hn
    rw [hn']
    decide
  · refine ⟨fun _ => by decide, (by decide : 5000 + 4103 < 2 ^ 31), ?_, ?_, trivial, trivial⟩
    · exact ⟨⟨11264, 1000⟩, by simp [memory], by decide, by decide⟩
    · exact ⟨⟨12296, 5000⟩, by simp [memory], by decide, by decide⟩

theorem twoStores_since (hrun : run.map (fun x => (x.1, x.2.live)) = twoStores) :
    Since (fun u e _ => (11264, 1000) ∈ u.live ∧ 11264 ≤ 11264 ∧
        11264 + sizeofWord ≤ 11264 + 1000 ∧ e = .write 11264 (some 7))
      (fun _ e _ => e ≠ .free 11264 ∧ ∀ x w, e = .write x w → Beside sizeofWord x 11264)
      (startedAt 4096) run := by
  rcases run with _ | ⟨x1, _ | ⟨⟨e2, s2⟩, _ | ⟨⟨e3, s3⟩, _ | ⟨⟨e4, s4⟩, _ | ⟨⟨e5, s5⟩, _ | x⟩⟩⟩⟩⟩ <;>
    simp [twoStores] at hrun
  obtain ⟨-, ⟨rfl, h2⟩, ⟨rfl, -⟩, ⟨rfl, -⟩, ⟨rfl, -⟩⟩ := hrun
  refine ⟨[x1, (.malloc 5000, s2)], _, s3, _, rfl, ⟨?_, Nat.le_refl _, by decide, rfl⟩,
    ⟨nofun, ?_⟩, ⟨nofun, nofun⟩, trivial⟩
  · show _ ∈ s2.live
    simp [h2]
  · rintro x w ⟨⟩
    exact .inr (by decide)

theorem heap_refines_blocks_twoStores : ∃ run, run.map (fun x => (x.1, x.2.live)) = twoStores ∧
    Along (Blocks.Step sizeofWord) (memory (startedAt 4096)) (seen memory (some ∘ op) run) ∧
    ∀ x ∈ run, (memory x.2).blocks.Pairwise Apart := by
  obtain ⟨run, hrun, hr, hsound⟩ := twoStores_along
  have hrefines := heap_refines_blocks (startedAt_started (by decide) (by decide)) hr hsound
  exact ⟨run, hrun, hrefines.2.1, hrefines.2.2.2⟩

theorem stored_word_stays_twoStores : ∃ run, run.map (fun x => (x.1, x.2.live)) = twoStores ∧
    (11264, 1000) ∈ (lastState (startedAt 4096) run).live ∧
    (lastState (startedAt 4096) run).heap.sub.link 11264 = some 7 := by
  obtain ⟨run, hrun, hr, hsound⟩ := twoStores_along
  exact ⟨run, hrun, stored_word_stays (startedAt_started (by decide) (by decide)) hr hsound
    (twoStores_since hrun)⟩

end Runs
end Csc469.Kheap.Routing
