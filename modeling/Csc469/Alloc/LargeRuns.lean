import Csc469.Alloc.LargeBins
import Csc469.Tiling

/-! Runs of large requests: when no chunk is lost or given out twice. -/
namespace Csc469.Alloc

open Linked Tiling Execution

variable {n h j k cpu sz x y a pages : Nat} {s t : State} {M : Nat → List Nat} {ys : List Nat}
  {chunks : List (Nat × Nat)} {live : List Nat} {c d : Config} {e : Event}
  {run : List (Event × Config)}

/-- Some heap's list has the chunk. -/
def Listed (n : Nat) (M : Nat → List Nat) (a : Nat) : Prop := ∃ h ≤ n, a ∈ M h

/-- The bytes of a chunk. -/
def chunkBytes (s : State) (a : Nat) : Nat := (s.node a).numPages * pgSize

/-- The large bins and the chunks in them. -/
structure LargeLists (n : Nat) (s : State) (M : Nat → List Nat) (chunks : List (Nat × Nat)) :
    Prop where
  family : Family (· ≤ n) s.nextChunk s.prevChunk s.largeBin M
  tiles : Tiles (Listed n M) (chunkBytes s) chunks
  aligned : ∀ a, Listed n M a → pgSize ∣ a
  type : ∀ a, Listed n M a → s.type a = 1
  heapId : ∀ h, h + 1 ≤ n → ∀ a ∈ M (h + 1), (s.node a).heapId = h
  hi_aligned : pgSize ∣ s.dsegHi + 1
  below : ∀ r ∈ chunks, r.1 + r.2 ≤ s.dsegHi + 1

/-- Chunk `a`, or its first `pages` pages, has been taken out of the lists. -/
structure Detached (n : Nat) (s : State) (M : Nat → List Nat) (a pages : Nat)
    (chunks : List (Nat × Nat)) : Prop where
  family : Family (· ≤ n) s.nextChunk s.prevChunk s.largeBin M
  out : ¬Listed n M a
  tiles : Tiles (fun x => x = a ∨ Listed n M x)
    (fun x => if x = a then pages * pgSize else chunkBytes s x) chunks
  aligned : ∀ x, x = a ∨ Listed n M x → pgSize ∣ x
  type : ∀ x, Listed n M x → s.type x = 1
  heapId : ∀ h, h + 1 ≤ n → ∀ x ∈ M (h + 1), (s.node x).heapId = h
  hi_aligned : pgSize ∣ s.dsegHi + 1
  below : ∀ r ∈ chunks, r.1 + r.2 ≤ s.dsegHi + 1

theorem listed_update_erase (f : Family (· ≤ n) s.nextChunk s.prevChunk s.largeBin M)
    (hh : h ≤ n) (hx : x ∈ M h) :
    Listed n (Function.update M h ((M h).erase x)) y ↔ Listed n M y ∧ y ≠ x := by
  have hnd := (f.dlist h hh).nodup
  constructor
  · rintro ⟨j, hj, hy⟩
    by_cases hjh : j = h
    · subst hjh
      rw [Function.update_self, hnd.mem_erase_iff] at hy
      exact ⟨⟨j, hj, hy.2⟩, hy.1⟩
    · rw [Function.update_of_ne hjh] at hy
      refine ⟨⟨j, hj, hy⟩, ?_⟩
      rintro rfl
      exact hjh (f.disjoint j h hj hh y hy hx)
  · rintro ⟨⟨j, hj, hy⟩, hne⟩
    refine ⟨j, hj, ?_⟩
    by_cases hjh : j = h
    · subst hjh
      rw [Function.update_self, hnd.mem_erase_iff]
      exact ⟨hne, hy⟩
    · rwa [Function.update_of_ne hjh]

theorem listed_update_cons (hh : h ≤ n) :
    Listed n (Function.update M h (x :: M h)) y ↔ y = x ∨ Listed n M y := by
  constructor
  · rintro ⟨j, hj, hy⟩
    by_cases hjh : j = h
    · subst hjh
      rw [Function.update_self, List.mem_cons] at hy
      exact hy.imp_right fun hy => ⟨j, hj, hy⟩
    · rw [Function.update_of_ne hjh] at hy
      exact .inr ⟨j, hj, hy⟩
  · rintro (rfl | ⟨j, hj, hy⟩)
    · exact ⟨h, hh, by simp⟩
    · refine ⟨j, hj, ?_⟩
      by_cases hjh : j = h
      · subst hjh
        simp [hy]
      · rwa [Function.update_of_ne hjh]

theorem SameLarge.family (hs : SameLarge s t)
    (f : Family (· ≤ n) s.nextChunk s.prevChunk s.largeBin M) :
    Family (· ≤ n) t.nextChunk t.prevChunk t.largeBin M := by
  have hn : t.nextChunk = s.nextChunk := by
    funext a
    simp [State.nextChunk, hs.node]
  have hp : t.prevChunk = s.prevChunk := by
    funext a
    simp [State.prevChunk, hs.node]
  rwa [hn, hp, hs.largeBin]

theorem SameLarge.chunkBytes (hs : SameLarge s t) : chunkBytes t = chunkBytes s := by
  funext a
  simp [Alloc.chunkBytes, hs.node]

theorem LargeLists.congr (hl : LargeLists n s M chunks) (hs : SameLarge s t) :
    LargeLists n t M chunks := by
  obtain ⟨h1, h2, h3, h4, h5, h6, h7⟩ := hl
  refine ⟨hs.family h1, ?_, h3, ?_, ?_, ?_, ?_⟩
  · rwa [hs.chunkBytes]
  · simpa only [hs.type]
  · simpa only [hs.node]
  · rwa [hs.dsegHi]
  · rwa [hs.dsegHi]

theorem Detached.congr (hd : Detached n s M a pages chunks) (hs : SameLarge s t) :
    Detached n t M a pages chunks := by
  obtain ⟨h1, h2, h3, h4, h5, h6, h7, h8⟩ := hd
  refine ⟨hs.family h1, h2, ?_, h4, ?_, ?_, ?_, ?_⟩
  · rwa [hs.chunkBytes]
  · simpa only [hs.type]
  · simpa only [hs.node]
  · rwa [hs.dsegHi]
  · rwa [hs.dsegHi]

/-- Taking a whole chunk out of the list of heap `h`, with heap `j` named for its head. -/
theorem LargeLists.detach (hl : LargeLists n s M chunks) (hh : h ≤ n) (hx : x ∈ M h)
    (hj : s.prevChunk x = none → j = h) :
    Detached n (relink s j x (s.node x).next (s.node x).prev)
      (Function.update M h ((M h).erase x)) x (s.node x).numPages chunks := by
  have hd := hl.family.dlist h hh
  have hpx : s.prevChunk x ≠ some x := fun he => (hd.prev_mem hx he).2 rfl
  obtain ⟨hn, hp, hb, hs⟩ := relink_spec (h := j) (s.node x).next (s.node x).prev hpx rfl
  generalize relink s j x (s.node x).next (s.node x).prev = t at hn hp hb hs
  have hlisted : ∀ y, Listed n (Function.update M h ((M h).erase x)) y ↔ Listed n M y ∧ y ≠ x :=
    fun y => listed_update_erase hl.family hh hx
  have hLx : Listed n M x := ⟨h, hh, hx⟩
  have hback : ∀ y, (y = x ∨ Listed n (Function.update M h ((M h).erase x)) y) ↔ Listed n M y := by
    intro y
    rw [hlisted]
    by_cases hy : y = x <;> simp [hy, hLx]
  have hhead : ∀ i, t.largeBin i =
      if s.prevChunk x = none ∧ i = h then s.nextChunk x else s.largeBin i := by
    intro i
    rw [hb i]
    by_cases hnone : s.prevChunk x = none
    · rw [hj hnone]
      rfl
    · simp [hnone]
  refine ⟨?_, fun hno => ((hlisted x).mp hno).2 rfl, ?_, ?_, ?_, ?_, ?_, ?_⟩
  · exact hl.family.unlink hh hx (fun y _ => hn y) (fun y _ => hp y) (by simpa using hhead h)
      (fun i hi => by simpa [hi] using hhead i)
  · refine hl.tiles.congr hback fun y hy => ?_
    by_cases hyx : y = x <;> simp [hyx, chunkBytes, hs.numPages]
  · intro y hy
    exact hl.aligned y ((hback y).mp hy)
  · intro y hy
    rw [hs.type]
    exact hl.type y ((hback y).mp (.inr hy))
  · intro i hi y hy
    rw [hs.heapId]
    refine hl.heapId i hi y ?_
    by_cases hih : i + 1 = h
    · subst hih
      rw [Function.update_self] at hy
      exact List.mem_of_mem_erase hy
    · rwa [Function.update_of_ne hih] at hy
  · rw [hs.dsegHi]
    exact hl.hi_aligned
  · rw [hs.dsegHi]
    exact hl.below

/-- Putting the chunk at the front of the list of heap `k`. -/
theorem Detached.attach (hd : Detached n s M a pages chunks) (hk : k ≤ n)
    (hnext : t.nextChunk = (pushLarge s k a).nextChunk)
    (hprev : t.prevChunk = (pushLarge s k a).prevChunk)
    (hbin : t.largeBin = (pushLarge s k a).largeBin)
    (hpages : ∀ x, (t.node x).numPages = if x = a then pages else (s.node x).numPages)
    (hid : ∀ x, x ≠ a → (t.node x).heapId = (s.node x).heapId)
    (hida : ∀ h, k = h + 1 → (t.node a).heapId = h)
    (htype : ∀ x, t.type x = if x = a then 1 else s.type x) (hhi : t.dsegHi = s.dsegHi) :
    LargeLists n t (Function.update M k (a :: M k)) chunks := by
  obtain ⟨hn, hp, hb, -⟩ := pushLarge_spec (s := s) (h := k) (x := a) rfl
  have hlisted : ∀ y, Listed n (Function.update M k (a :: M k)) y ↔ y = a ∨ Listed n M y :=
    fun y => listed_update_cons hk
  have hne : ∀ y, Listed n M y → y ≠ a := by
    rintro y hy rfl
    exact hd.out hy
  refine ⟨?_, ?_, ?_, ?_, ?_, ?_, ?_⟩
  · rw [hnext, hprev, hbin]
    exact hd.family.cons hk (fun i hi hm => hd.out ⟨i, hi, hm⟩) (by simpa using hn a)
      (by simpa using hp a) (fun y hy => by simpa [hy] using hn y)
      (fun y hy => by simpa [hy] using hp y) (by simpa using hb k)
      (fun i hi => by simpa [hi] using hb i)
  · refine hd.tiles.congr hlisted fun y hy => ?_
    by_cases hya : y = a <;> simp [hya, chunkBytes, hpages]
  · intro y hy
    exact hd.aligned y ((hlisted y).mp hy)
  · intro y hy
    rw [htype]
    rcases (hlisted y).mp hy with rfl | hy
    · rw [if_pos rfl]
    · rw [if_neg (hne y hy)]
      exact hd.type y hy
  · intro i hi y hy
    by_cases hik : i + 1 = k
    · subst hik
      rw [Function.update_self, List.mem_cons] at hy
      rcases hy with rfl | hy
      · exact hida i rfl
      · rw [hid y (hne y ⟨_, hi, hy⟩)]
        exact hd.heapId i hi y hy
    · rw [Function.update_of_ne hik] at hy
      rw [hid y (hne y ⟨_, hi, hy⟩)]
      exact hd.heapId i hi y hy
  · rw [hhi]
    exact hd.hi_aligned
  · rw [hhi]
    exact hd.below

theorem listed_update_replace {z : Nat}
    (f : Family (· ≤ n) s.nextChunk s.prevChunk s.largeBin M) (hx : x ∈ M 0)
    (hys : ∀ y, y ∈ ys ↔ y = z ∨ (y ∈ M 0 ∧ y ≠ x)) :
    Listed n (Function.update M 0 ys) y ↔ y = z ∨ (Listed n M y ∧ y ≠ x) := by
  constructor
  · rintro ⟨i, hi, hy⟩
    by_cases hi0 : i = 0
    · subst hi0
      rw [Function.update_self, hys] at hy
      exact hy.imp_right fun hy => ⟨⟨0, hi, hy.1⟩, hy.2⟩
    · rw [Function.update_of_ne hi0] at hy
      refine .inr ⟨⟨i, hi, hy⟩, ?_⟩
      rintro rfl
      exact hi0 (f.disjoint i 0 hi (Nat.zero_le n) y hy hx)
  · rintro (rfl | ⟨⟨i, hi, hy⟩, hyx⟩)
    · exact ⟨0, Nat.zero_le n, by simp [hys]⟩
    · refine ⟨i, hi, ?_⟩
      by_cases hi0 : i = 0
      · subst hi0
        rw [Function.update_self, hys]
        exact .inr ⟨hy, hyx⟩
      · rwa [Function.update_of_ne hi0]

/-- What the cut leaves behind the front of chunk `x`, at `z`, the links apart. -/
structure Carved (s : State) (x pages z : Nat) (t : State) : Prop where
  numPages : ∀ y, (t.node y).numPages =
    if y = z then (s.node x).numPages - pages else (s.node y).numPages
  heapId : ∀ y, y ≠ z → (t.node y).heapId = (s.node y).heapId
  type : ∀ y, t.type y = if y = z then 1 else s.type y
  dsegHi : t.dsegHi = s.dsegHi

/-- The rest of a free chunk takes its place in the list of free chunks. -/
theorem carve_spec {z : Nat} (f : Family (· ≤ n) s.nextChunk s.prevChunk s.largeBin M)
    (hx : x ∈ M 0) (hz : x + pages * pgSize = z) (hne : x ≠ z) (hfree : ¬Listed n M z)
    (hlt : pages < (s.node x).numPages) :
    Carved s x pages z (carve s x pages) ∧ ∃ ys, Family (· ≤ n) (carve s x pages).nextChunk
        (carve s x pages).prevChunk (carve s x pages).largeBin (Function.update M 0 ys) ∧
      ∀ y, y ∈ ys ↔ y = z ∨ (y ∈ M 0 ∧ y ≠ x) := by
  have hd := f.dlist 0 (Nat.zero_le n)
  simp only [carve, if_pos hlt, State.setType_node, hz]
  generalize hs' : ((s.setType z 1).setNode z fun _ =>
    { numPages := (s.node x).numPages - pages
      heapId := 0
      prev := (s.node x).prev
      next := (s.node x).next }) = s'
  have hnode : ∀ y, y ≠ z → s'.node y = s.node y := fun y hy => by simp [← hs', hy]
  have hnew : s'.node z = ⟨(s.node x).numPages - pages, 0, (s.node x).prev, (s.node x).next⟩ := by
    simp [← hs']
  have hprev : s'.prevChunk x = s.prevChunk x := by rw [State.prevChunk, hnode x hne]; rfl
  have hnext : s'.nextChunk x = s.nextChunk x := by rw [State.nextChunk, hnode x hne]; rfl
  have hpx : s'.prevChunk x ≠ some x := by
    rw [hprev]
    exact fun he => (hd.prev_mem hx he).2 rfl
  have hpz : s.prevChunk x ≠ some z := fun he =>
    hfree ⟨0, Nat.zero_le n, (hd.prev_mem hx he).1⟩
  have hnz : s.nextChunk x ≠ some z := fun he =>
    hfree ⟨0, Nat.zero_le n, (hd.next_mem hx he).1⟩
  obtain ⟨hn, hp, hb, hsame⟩ := relink_spec (h := 0) (some z) (some z) hpx rfl
  generalize relink s' 0 x (some z) (some z) = t at hn hp hb hsame
  rw [hprev] at hn hb
  rw [hnext] at hp
  have hbin : s'.largeBin = s.largeBin := by rw [← hs']; rfl
  rw [hbin] at hb
  refine ⟨⟨fun y => ?_, fun y hy => ?_, fun y => ?_, ?_⟩, ?_⟩
  · rw [hsame.numPages]
    by_cases hy : y = z
    · rw [if_pos hy, hy, hnew]
    · rw [if_neg hy, hnode y hy]
  · rw [hsame.heapId, hnode y hy]
  · rw [hsame.type, ← hs']
    by_cases hy : y = z <;> simp [hy]
  · rw [hsame.dsegHi, ← hs']
    rfl
  · exact f.replace (Nat.zero_le n) hx
      (fun i hi hm => hfree ⟨i, hi, hm⟩)
      (by rw [hn, if_neg hpz, State.nextChunk, hnew]; rfl)
      (by rw [hp, if_neg hnz, State.prevChunk, hnew]; rfl)
      (fun y _ hy => by rw [hn y, State.nextChunk, hnode y hy]; rfl)
      (fun y _ hy => by rw [hp y, State.prevChunk, hnode y hy]; rfl)
      (by simpa using hb 0) (fun i hi => by simpa [hi] using hb i)

/-- Taking the front of a bigger free chunk, whose rest stays in its place. -/
theorem LargeLists.detach_front (hl : LargeLists n s M chunks) (hx : x ∈ M 0) (hpos : 0 < pages)
    (hlt : pages < (s.node x).numPages) :
    ∃ ys, Detached n (carve s x pages) (Function.update M 0 ys) x pages chunks := by
  have hLx : Listed n M x := ⟨0, Nat.zero_le n, hx⟩
  have hbytes : 0 < pages * pgSize ∧ pages * pgSize < chunkBytes s x :=
    ⟨Nat.mul_pos hpos (by decide), Nat.mul_lt_mul_of_pos_right hlt (by decide)⟩
  have hfree := hl.tiles.inner hLx hbytes.1 hbytes.2
  have hsplit := hl.tiles.split (fun y => if y = x then pages * pgSize else
    if y = x + pages * pgSize then chunkBytes s x - pages * pgSize else chunkBytes s y)
    hLx hbytes.1 hbytes.2
  generalize hz : x + pages * pgSize = z at hfree hsplit
  have hne : x ≠ z := by omega
  have hout : ∀ y, Listed n M y → y ≠ z := by
    rintro y hy rfl
    exact hfree hy
  obtain ⟨ht, ys, hfam, hys⟩ := carve_spec hl.family hx hz hne hfree hlt
  generalize carve s x pages = t at ht hfam
  have hlisted : ∀ y, Listed n (Function.update M 0 ys) y ↔ y = z ∨ (Listed n M y ∧ y ≠ x) :=
    fun y => listed_update_replace hl.family hx hys
  have hback : ∀ y, (y = x ∨ Listed n (Function.update M 0 ys) y) ↔ y = z ∨ Listed n M y := by
    intro y
    rw [hlisted]
    by_cases hy : y = x <;> simp [hy, hLx]
  refine ⟨ys, hfam, ?_, ?_, ?_, ?_, ?_, ?_, ?_⟩
  · rw [hlisted]
    rintro (he | ⟨-, he⟩)
    · exact hne he
    · exact he rfl
  · refine (hsplit (by simp) (by simp [hne.symm]) fun y hy hyx => ?_).congr hback fun y hy => ?_
    · simp [hyx, hout y hy]
    · by_cases hyx : y = x
      · simp [hyx]
      · rcases hy with rfl | hy
        · simp [hyx, chunkBytes, ht.numPages, Nat.sub_mul]
        · simp [hyx, hout y hy, chunkBytes, ht.numPages]
  · intro y hy
    rcases (hback y).mp hy with rfl | hy
    · rw [← hz]
      exact Nat.dvd_add (hl.aligned x hLx) (Nat.dvd_mul_left _ _)
    · exact hl.aligned y hy
  · intro y hy
    rw [ht.type]
    rcases (hlisted y).mp hy with rfl | ⟨hy, -⟩
    · rw [if_pos rfl]
    · rw [if_neg (hout y hy), hl.type y hy]
  · intro i hi y hy
    rw [Function.update_of_ne (Nat.succ_ne_zero i)] at hy
    rw [ht.heapId y (hout y ⟨_, hi, hy⟩)]
    exact hl.heapId i hi y hy
  · rw [ht.dsegHi]
    exact hl.hi_aligned
  · rw [ht.dsegHi]
    exact hl.below

/-- A new chunk from `mem_sbrk`, in no list yet. -/
theorem LargeLists.detach_new (hl : LargeLists n s M chunks) (hpos : 0 < pages) :
    Detached n { s with dsegHi := s.dsegHi + pages * pgSize } M (s.dsegHi + 1) pages
      ((s.dsegHi + 1, pages * pgSize) :: chunks) := by
  have hbytes : 0 < pages * pgSize := Nat.mul_pos hpos (by decide)
  have hbelow : ∀ y, Listed n M y → y ≠ s.dsegHi + 1 := by
    rintro y hy rfl
    obtain ⟨r, hr, hlo, hhi⟩ := hl.tiles.within _ hy
    have := hl.tiles.pos _ hy
    have := hl.below r hr
    omega
  refine ⟨hl.family, fun hy => hbelow _ hy rfl, ?_, ?_, hl.type, hl.heapId, ?_, ?_⟩
  · refine hl.tiles.extend hbytes hl.below (by simp) fun y hy => ?_
    simp [hbelow y hy, chunkBytes]
  · rintro y (rfl | hy)
    · exact hl.hi_aligned
    · exact hl.aligned y hy
  · rw [Nat.add_right_comm]
    exact Nat.dvd_add hl.hi_aligned (Nat.dvd_mul_left _ _)
  · intro r hr
    rcases List.mem_cons.mp hr with rfl | hr
    · simp only
      omega
    · have := hl.below r hr
      simp only
      omega

/-! The program's pointers. -/

/-- The pointers that the program holds are those of the chunks in the processors' lists. -/
structure LiveLarge (n : Nat) (M : Nat → List Nat) (live : List Nat) : Prop where
  nodup : live.Nodup
  mem : ∀ p, p ∈ live ↔ ∃ h, h + 1 ≤ n ∧ ∃ a ∈ M (h + 1), p = a + sizeofNode

theorem LiveLarge.cons (hv : LiveLarge n M live) (hcpu : cpu + 1 ≤ n) (hout : ¬Listed n M a) :
    LiveLarge n (Function.update M (cpu + 1) (a :: M (cpu + 1))) ((a + sizeofNode) :: live) := by
  constructor
  · refine List.nodup_cons.mpr ⟨fun hm => ?_, hv.nodup⟩
    obtain ⟨h, hh, b, hb, he⟩ := (hv.mem _).mp hm
    obtain rfl : a = b := Nat.add_right_cancel he
    exact hout ⟨h + 1, hh, hb⟩
  · intro p
    rw [List.mem_cons, hv.mem]
    constructor
    · rintro (rfl | ⟨h, hh, b, hb, rfl⟩)
      · exact ⟨cpu, hcpu, a, by simp, rfl⟩
      · refine ⟨h, hh, b, ?_, rfl⟩
        by_cases hk : h + 1 = cpu + 1
        · rw [hk, Function.update_self]
          rw [hk] at hb
          exact List.mem_cons_of_mem a hb
        · rwa [Function.update_of_ne hk]
    · rintro ⟨h, hh, b, hb, rfl⟩
      by_cases hk : h + 1 = cpu + 1
      · rw [hk, Function.update_self, List.mem_cons] at hb
        rcases hb with rfl | hb
        · exact .inl rfl
        · exact .inr ⟨cpu, hcpu, b, hb, rfl⟩
      · rw [Function.update_of_ne hk] at hb
        exact .inr ⟨h, hh, b, hb, rfl⟩

/-- The list of free chunks may be anything. -/
theorem LiveLarge.free_list (hv : LiveLarge n M live) : LiveLarge n (Function.update M 0 ys) live :=
  ⟨hv.nodup, fun p => by simp [hv.mem, Function.update_of_ne]⟩

theorem LiveLarge.erase (hv : LiveLarge n M live)
    (f : Family (· ≤ n) s.nextChunk s.prevChunk s.largeBin M) (hh : h + 1 ≤ n)
    (ha : a ∈ M (h + 1)) :
    LiveLarge n (Function.update M (h + 1) ((M (h + 1)).erase a)) (live.erase (a + sizeofNode)) := by
  refine ⟨hv.nodup.erase _, fun p => ?_⟩
  have hnd := (f.dlist _ hh).nodup
  rw [hv.nodup.mem_erase_iff, hv.mem]
  constructor
  · rintro ⟨hne, j, hj, b, hb, rfl⟩
    refine ⟨j, hj, b, ?_, rfl⟩
    by_cases hk : j + 1 = h + 1
    · rw [hk] at hb ⊢
      rw [Function.update_self, hnd.mem_erase_iff]
      exact ⟨fun he => hne (by rw [he]), hb⟩
    · rwa [Function.update_of_ne hk]
  · rintro ⟨j, hj, b, hb, rfl⟩
    by_cases hk : j + 1 = h + 1
    · rw [hk, Function.update_self, hnd.mem_erase_iff] at hb
      exact ⟨fun he => hb.1 (Nat.add_right_cancel he), h, hh, b, hb.2, rfl⟩
    · rw [Function.update_of_ne hk] at hb
      refine ⟨fun he => ?_, j, hj, b, hb, rfl⟩
      obtain rfl : b = a := Nat.add_right_cancel he
      exact hk (f.disjoint _ _ hj hh b hb ha)

/-! The two calls. -/

theorem toFloat_pos {m : Nat} (hm : 0 < m) : 0 < toFloat m := by
  have hunit : 2 ^ (m.log2 - 23) ≤ m :=
    (Nat.pow_le_pow_right (by omega) (Nat.sub_le _ _)).trans (Nat.log2_self_le (by omega))
  have hpos : 0 < 2 ^ (m.log2 - 23) := Nat.pow_pos (by omega)
  have hq : 0 < m / 2 ^ (m.log2 - 23) := Nat.div_pos hunit hpos
  simp only [toFloat]
  split
  · exact Nat.mul_pos (by omega) hpos
  · exact Nat.mul_pos hq hpos

/-- Only a request whose size with the header wraps around to 0 needs no page. -/
theorem numPages_pos : 0 < numPages sz ↔ (sz + sizeofNode) % 2 ^ 64 ≠ 0 := by
  constructor
  · intro h h0
    rw [numPages, h0] at h
    exact absurd h (by decide)
  · intro h
    have hf := toFloat_pos (Nat.pos_of_ne_zero h)
    rw [numPages]
    exact Nat.div_pos (by simp only [sbSize]; omega) (by decide)

theorem findLarge_eq (hl : LargeLists n s M chunks) {hit : Option (Nat × Unit)}
    (hf : findLarge s pages = .ok hit) : hit = firstHit (fun a => some (s.node a))
      (fun c => if pages ≤ c.numPages then some () else none) (M 0) :=
  search_eq_firstHit (hl.family.dlist 0 (Nat.zero_le n)).forth hf

/-- Handing out a detached chunk on processor `cpu`. -/
theorem Detached.handOut (hd : Detached n s M a pages chunks) (hcpu : cpu + 1 ≤ n) :
    LargeLists n (handOutLarge s cpu pages a) (Function.update M (cpu + 1) (a :: M (cpu + 1)))
      chunks := by
  obtain ⟨-, -, -, hs⟩ := pushLarge_spec (s := s) (h := cpu + 1) (x := a) rfl
  refine hd.attach hcpu ?_ ?_ rfl (fun x => ?_) (fun x hx => ?_) ?_ (fun x => ?_) ?_
  · funext x
    by_cases hx : x = a <;> simp [State.nextChunk, handOutLarge, hx]
  · funext x
    by_cases hx : x = a <;> simp [State.prevChunk, handOutLarge, hx]
  · by_cases hx : x = a <;> simp [handOutLarge, hx, hs.numPages]
  · simp [handOutLarge, hx, hs.heapId]
  · intro h hk
    simpa [handOutLarge] using hk
  · by_cases hx : x = a <;> simp [handOutLarge, hx, hs.type]
  · simp [handOutLarge, hs.dsegHi]

theorem handOutLarge_bin : (handOutLarge s cpu pages a).largeBin j =
    if j = cpu + 1 then some a else s.largeBin j :=
  (pushLarge_spec rfl).2.2.1 j

theorem handOutLarge_hi : (handOutLarge s cpu pages a).dsegHi = s.dsegHi :=
  (pushLarge_spec rfl).2.2.2.dsegHi

/-- Giving a detached chunk back. -/
theorem Detached.giveBack (hd : Detached n s M a pages chunks) (hp : (s.node a).numPages = pages)
    (ht : s.type a = 1) : LargeLists n (pushLarge s 0 a) (Function.update M 0 (a :: M 0)) chunks := by
  obtain ⟨-, -, -, hs⟩ := pushLarge_spec (s := s) (h := 0) (x := a) rfl
  refine hd.attach (Nat.zero_le n) rfl rfl rfl (fun x => ?_) (fun x _ => hs.heapId x)
    (fun h hk => by omega) (fun x => ?_) hs.dsegHi
  · rw [hs.numPages]
    split
    · next he => rw [he, hp]
    · rfl
  · rw [hs.type]
    split
    · next he => rw [he, ht]
    · rfl

/-- What `malloc_large` finds or gets is detached from the lists; only the free list has
changed. -/
theorem takeLarge_spec (hl : LargeLists n s M chunks) (hpos : 0 < pages) {target : Option Nat}
    (hm : takeLarge s pages = .ok (t, target)) : target = none ∨ ∃ a M', target = some a ∧
      Detached n t M' a pages (newChunk s t ++ chunks) ∧ ∃ ys, M' = Function.update M 0 ys := by
  obtain ⟨s1, hlock, hm⟩ := ok_of_bind hm
  have hsame := lockHeap_large hlock
  have hl1 := hl.congr hsame
  obtain ⟨hit, hfind, hm⟩ := ok_of_bind hm
  have hhit := findLarge_eq hl1 hfind
  cases hit with
  | some z =>
    obtain ⟨x, _⟩ := z
    cases hm
    obtain ⟨hx, hfit⟩ := mem_of_firstHit hhit.symm
    have hle : pages ≤ (s1.node x).numPages := by
      by_contra hno
      simp [hno] at hfit
    have hhi : (unlockHeap (carve s1 x pages) 0).dsegHi = s.dsegHi :=
      unlockHeap_large.dsegHi.trans (carve_hi.trans hsame.dsegHi)
    have hchunk : newChunk s (unlockHeap (carve s1 x pages) 0) = [] := if_pos hhi
    rw [hchunk, List.nil_append]
    rcases Nat.lt_or_eq_of_le hle with hlt | heq
    · obtain ⟨ys, hd⟩ := hl1.detach_front hx hpos hlt
      exact .inr ⟨x, _, rfl, hd.congr unlockHeap_large, ys, rfl⟩
    · have hd := hl1.detach (j := 0) (Nat.zero_le n) hx fun _ => rfl
      have hcarve : carve s1 x pages = relink s1 0 x (s1.node x).next (s1.node x).prev :=
        if_neg (by omega)
      rw [hcarve, heq]
      exact .inr ⟨x, _, rfl, hd.congr unlockHeap_large, _, rfl⟩
  | none =>
    obtain ⟨s2, hlock', hm⟩ := ok_of_bind hm
    obtain ⟨⟨s3, q⟩, hsb, hm⟩ := ok_of_bind hm
    cases hm
    have hsame2 := (hsame.trans unlockHeap_large).trans (lockSbrk_large hlock')
    cases target with
    | none => exact .inl rfl
    | some q =>
      obtain ⟨rfl, rfl⟩ := memSbrk_some hsb
      have hbytes : 0 < pages * pgSize := Nat.mul_pos hpos (by decide)
      have hd := (hl.congr hsame2).detach_new hpos
      have hchunk : newChunk s (unlockSbrk { s2 with dsegHi := s2.dsegHi + pages * pgSize }) =
          [(s2.dsegHi + 1, pages * pgSize)] := by
        have hhi : (unlockSbrk { s2 with dsegHi := s2.dsegHi + pages * pgSize }).dsegHi =
            s.dsegHi + pages * pgSize := by rw [← hsame2.dsegHi]; rfl
        rw [newChunk, hhi, if_neg (by omega), Nat.add_sub_cancel_left, hsame2.dsegHi]
      rw [hchunk]
      exact .inr ⟨_, M, rfl, hd.congr unlockSbrk_large, M 0, by simp⟩

theorem mallocLarge_kept (hl : LargeLists n s M chunks) (hv : LiveLarge n M live) (hcpu : cpu < n)
    (hpos : 0 < numPages sz) {r : Option Nat} (hm : mallocLarge s cpu sz = .ok (t, r)) :
    ∃ M', LargeLists n t M' (newChunk s t ++ chunks) ∧ LiveLarge n M' (r.toList ++ live) := by
  simp only [mallocLarge] at hm
  split at hm
  · cases hm
  obtain ⟨⟨s1, target⟩, htake, hm⟩ := ok_of_bind hm
  obtain ⟨s2, hlock, hm⟩ := ok_of_bind hm
  have hsame := lockHeap_large hlock
  rcases takeLarge_spec hl hpos htake with rfl | ⟨a, M', rfl, hd, ys, rfl⟩
  · cases hm
  · cases hm
    have hhi : (unlockHeap (handOutLarge s2 cpu (numPages sz) a) (cpu + 1)).dsegHi = s1.dsegHi :=
      unlockHeap_large.dsegHi.trans (handOutLarge_hi.trans hsame.dsegHi)
    have hchunk : newChunk s (unlockHeap (handOutLarge s2 cpu (numPages sz) a) (cpu + 1)) =
        newChunk s s1 := by simp only [newChunk, hhi]
    rw [hchunk]
    exact ⟨_, ((hd.congr hsame).handOut hcpu).congr unlockHeap_large,
      hv.free_list.cons hcpu hd.out⟩

theorem freeLarge_kept (hl : LargeLists n s M chunks) (hv : LiveLarge n M live) (hh : h + 1 ≤ n)
    (ha : a ∈ M (h + 1)) (hprev : (s.node a).prev ≠ none) (hf : freeLarge s a = .ok t) :
    ∃ M', LargeLists n t M' chunks ∧ LiveLarge n M' (live.erase (a + sizeofNode)) := by
  obtain ⟨s1, hlock, hf⟩ := ok_of_bind hf
  obtain ⟨s2, hlock', hf⟩ := ok_of_bind hf
  cases hf
  have hsame := lockHeap_large hlock
  have hl1 := hl.congr hsame
  have hid : (s.node a).heapId = h := hl.heapId h hh a ha
  have hprev1 : s1.prevChunk a ≠ none := by
    rw [State.prevChunk, hsame.node]
    exact hprev
  -- the chunk has a predecessor, so the heap that is named does not matter
  have hd := hl1.detach (j := h) hh ha fun hno => (hprev1 hno).elim
  have hpa : s1.prevChunk a ≠ some a := fun he => ((hl1.family.dlist _ hh).prev_mem ha he).2 rfl
  obtain ⟨-, -, -, hrel⟩ := relink_spec (h := h) (s1.node a).next (s1.node a).prev hpa rfl
  rw [hid] at hlock'
  have hsame2 := unlockHeap_large.trans (lockHeap_large hlock')
  have hpages : (s2.node a).numPages = (s1.node a).numPages := by
    rw [hsame2.node, hrel.numPages]
  have htype : s2.type a = 1 := by
    rw [hsame2.type, hrel.type]
    exact hl1.type a ⟨_, hh, ha⟩
  refine ⟨_, ((hd.congr hsame2).giveBack hpages htype).congr unlockHeap_large, ?_⟩
  exact (hv.erase hl.family hh ha).free_list

/-! Runs. -/

/-- Every chunk from `mem_sbrk` is partitioned into pieces; the processors' lists hold exactly
those that the program has, the global heap's the others, and no piece is in two lists. -/
def Conserved (n : Nat) (c : Config) : Prop :=
  ∃ M, Family (· ≤ n) c.state.nextChunk c.state.prevChunk c.state.largeBin M ∧
    Tiles (Listed n M) (chunkBytes c.state) c.chunks ∧ LiveLarge n M c.live

/-- The call does not meet the defects: a chunk that is freed is not the first of its list, and
a request with its header does not wrap around to 0 bytes. -/
def UnlinkedRight (s : State) : Event → Prop
  | .malloc _ sz _ => (sz + sizeofNode) % 2 ^ 64 ≠ 0
  | .free p => (s.node (pageOf p)).prev ≠ none

/-- The invariant of large traffic, for some lists. -/
def LargeOk (n : Nat) (c : Config) : Prop :=
  ∃ M, LargeLists n c.state M c.chunks ∧ LiveLarge n M c.live

theorem largeOk_started (hc : Started n c) : LargeOk n c := by
  have hf := hc.fresh
  have hno : ∀ a, ¬Listed n (fun _ => []) a := by
    rintro a ⟨h, -, ha⟩
    cases ha
  refine ⟨fun _ => [], ⟨⟨fun h hh => ?_, fun _ _ _ _ a ha => by cases ha⟩, ?_, ?_, ?_, ?_, ?_, ?_⟩,
    ?_, ?_⟩
  · have hb : c.state.largeBin h = none := (hf.heap h hh).2.2.1
    rw [hb]
    exact DList.nil
  · rw [hc.chunks]
    exact Tiles.nil hno
  · exact fun a ha => (hno a ha).elim
  · exact fun a ha => (hno a ha).elim
  · intro h _ a ha
    cases ha
  · rw [hf.hi]
    exact Nat.dvd_add hf.lo_aligned (Nat.dvd_mul_right _ _)
  · simp [hc.chunks]
  · simp [hc.live]
  · simp [hc.live]

/-- Two lists with one head. -/
theorem not_conserved (h0 : c.state.largeBin 0 = some x) (hk : h + 1 ≤ n)
    (h1 : c.state.largeBin (h + 1) = some x) : ¬Conserved n c := by
  rintro ⟨M, f, -, -⟩
  have hx0 := List.mem_of_head? ((f.dlist 0 (Nat.zero_le n)).head_eq.symm.trans h0)
  have hx1 := List.mem_of_head? ((f.dlist (h + 1) hk).head_eq.symm.trans h1)
  exact absurd (f.disjoint 0 (h + 1) (Nat.zero_le n) hk x hx0 hx1) (by omega)

/-- For 0 pages the first free chunk is handed out and stays where it is. -/
theorem mallocLarge_zero (hl : LargeLists n s M chunks) (h0 : numPages sz = 0) {r : Option Nat}
    (hm : mallocLarge s cpu sz = .ok (t, r)) :
    ∃ x, t.largeBin 0 = some x ∧ t.largeBin (cpu + 1) = some x := by
  simp only [mallocLarge, h0] at hm
  obtain ⟨⟨s1, target⟩, htake, hm⟩ := ok_of_bind hm
  obtain ⟨s2, hlock, hm⟩ := ok_of_bind hm
  obtain ⟨s0, hlock0, htake⟩ := ok_of_bind htake
  have hl0 := hl.congr (lockHeap_large hlock0)
  obtain ⟨hit, hfind, htake⟩ := ok_of_bind htake
  have hhit := findLarge_eq hl0 hfind
  rw [firstHit_all (b := ()) (by simp)] at hhit
  cases hM : M 0 with
  | nil =>
    rw [hM] at hhit
    subst hhit
    obtain ⟨s3, -, htake⟩ := ok_of_bind htake
    obtain ⟨_, hsb, -⟩ := ok_of_bind htake
    simp [memSbrk] at hsb
  | cons x ys =>
    rw [hM] at hhit
    subst hhit
    cases htake
    cases hm
    have hx : x ∈ M 0 := by simp [hM]
    have hd := hl0.family.dlist 0 (Nat.zero_le n)
    rw [hM] at hd
    have hprev : s0.prevChunk x = none := hd.back.1
    have hpages : 0 < (s0.node x).numPages := by
      have := hl0.tiles.pos x ⟨0, Nat.zero_le n, hx⟩
      exact Nat.pos_of_mul_pos_right this
    have hbin0 : (carve s0 x 0).largeBin 0 = some x := by
      simp only [carve, if_pos hpages, Nat.zero_mul, Nat.add_zero]
      generalize hs' : ((s0.setType x 1).setNode x fun _ => _) = s'
      have hp' : s'.prevChunk x = none := by
        rw [← hs', ← hprev]
        simp [State.prevChunk]
      obtain ⟨-, -, hb, -⟩ := relink_spec (h := 0) (some x) (some x) (s := s') (x := x)
        (by simp [hp']) rfl
      rw [hb, if_pos ⟨hp', rfl⟩]
    have hbin2 : s2.largeBin 0 = some x := by
      rw [(lockHeap_large hlock).largeBin, unlockHeap_large.largeBin, hbin0]
    refine ⟨x, ?_, ?_⟩
    · rw [unlockHeap_large.largeBin, handOutLarge_bin, if_neg (by omega), hbin2]
    · rw [unlockHeap_large.largeBin, handOutLarge_bin, if_pos rfl]

/-- The first chunk of a processor's list is freed through the wrong head. -/
theorem freeLarge_first (hl : LargeLists n s M chunks) (hh : h + 1 ≤ n) (ha : a ∈ M (h + 1))
    (hprev : (s.node a).prev = none) (hf : freeLarge s a = .ok t) :
    t.largeBin 0 = some a ∧ t.largeBin (h + 1) = some a := by
  obtain ⟨s1, hlock, hf⟩ := ok_of_bind hf
  obtain ⟨s2, hlock', hf⟩ := ok_of_bind hf
  cases hf
  have hl1 := hl.congr (lockHeap_large hlock)
  have hd := hl1.family.dlist _ hh
  have hprev1 : s1.prevChunk a = none := by
    rw [State.prevChunk, (lockHeap_large hlock).node]
    exact hprev
  have hhead := hd.head_of_prev_none ha hprev1
  rw [hl.heapId h hh a ha] at hlock'
  obtain ⟨-, -, hb, -⟩ := relink_spec (s := s1) (x := a) (h := h) (s1.node a).next
    (s1.node a).prev (by simp [hprev1]) rfl
  have hbin2 : s2.largeBin (h + 1) = some a := by
    rw [(lockHeap_large hlock').largeBin, unlockHeap_large.largeBin, hb, if_neg (by omega)]
    exact hhead
  obtain ⟨-, -, hpush, -⟩ := pushLarge_spec (s := s2) (h := 0) (x := a) rfl
  refine ⟨?_, ?_⟩
  · rw [unlockHeap_large.largeBin, hpush, if_pos rfl]
  · rw [unlockHeap_large.largeBin, hpush, if_neg (by omega), hbin2]

theorem mmMalloc_large (hsz : sbSize / 2 < sz) : mmMalloc s cpu sz = mallocLarge s cpu sz :=
  if_pos hsz

theorem LargeLists.mmFree_eq (hl : LargeLists n s M chunks) (hh : h + 1 ≤ n) (ha : a ∈ M (h + 1)) :
    pageOf (a + sizeofNode) = a ∧ mmFree s (a + sizeofNode) = freeLarge s a := by
  have hLa : Listed n M a := ⟨h + 1, hh, ha⟩
  have hpage := (pageOf_add (hl.aligned a hLa) (k := sizeofNode) (by decide)).1
  refine ⟨hpage, ?_⟩
  rw [mmFree, hpage, if_pos (by rw [hl.type a hLa]; decide)]

theorem LargeOk.conserved (hc : LargeOk n c) : Conserved n c := by
  obtain ⟨M, hl, hv⟩ := hc
  exact ⟨M, hl.family, hl.tiles, hv⟩

theorem largeOk_step (hc : LargeOk n c) (hs : LargeStep n c e d) :
    (Conserved n d ↔ UnlinkedRight c.state e) ∧ (UnlinkedRight c.state e → LargeOk n d) := by
  obtain ⟨M, hl, hv⟩ := hc
  obtain ⟨hstep, hlarge⟩ := hs
  cases hstep with
  | @malloc cpu sz t r hcpu hsz hm =>
    rw [mmMalloc_large hlarge] at hm
    have hkeep : UnlinkedRight c.state (.malloc cpu sz r) →
        LargeOk n ⟨t, r.toList ++ c.live, newChunk c.state t ++ c.chunks⟩ := fun hne =>
      mallocLarge_kept hl hv hcpu (numPages_pos.mpr hne) hm
    refine ⟨⟨fun hcons => ?_, fun hne => (hkeep hne).conserved⟩, hkeep⟩
    intro h0
    have hzero : numPages sz = 0 := by
      have := mt numPages_pos.mp (not_not.mpr h0)
      omega
    obtain ⟨x, hx0, hx1⟩ := mallocLarge_zero hl hzero hm
    exact not_conserved (n := n) hx0 hcpu hx1 hcons
  | @free p t hp hf =>
    obtain ⟨h, hh, a, ha, rfl⟩ := (hv.mem p).mp hp
    obtain ⟨hpage, hfree⟩ := hl.mmFree_eq hh ha
    rw [hfree] at hf
    have hkeep : UnlinkedRight c.state (.free (a + sizeofNode)) →
        LargeOk n ⟨t, c.live.erase (a + sizeofNode), c.chunks⟩ := by
      intro hne
      rw [UnlinkedRight, hpage] at hne
      exact freeLarge_kept hl hv hh ha hne hf
    refine ⟨⟨fun hcons => ?_, fun hne => (hkeep hne).conserved⟩, hkeep⟩
    rw [UnlinkedRight, hpage]
    intro hprev
    obtain ⟨hx0, hx1⟩ := freeLarge_first hl hh ha hprev hf
    exact not_conserved (n := n) hx0 hh hx1 hcons

/-- In a run of large requests no chunk is lost or given out twice exactly when no call meets
the defects. -/
theorem chunks_conserved_iff (hc : Started n c) (hr : Along (LargeStep n) c run) :
    Along (fun _ _ d => Conserved n d) c run ↔
      Along (fun c e _ => UnlinkedRight c.state e) c run :=
  along_iff (I := LargeOk n) (fun _ _ _ hok hs => largeOk_step hok hs) (largeOk_started hc) hr

theorem chunks_conserved_iff_oneCpu :
    ∃ run, calls 1 oneCpu [.malloc 0 3000, .malloc 0 9000, .free 16416] = .ok run ∧
      (Along (fun _ _ d => Conserved 1 d) oneCpu run ↔
        Along (fun c e _ => UnlinkedRight c.state e) oneCpu run) := by
  obtain ⟨run, hrun, -, hr⟩ := along_of_trace (P := Event.Large) (n := 1) (c := oneCpu)
    [.malloc 0 3000, .malloc 0 9000, .free 16416]
    [.malloc 0 3000 (some 16416), .malloc 0 9000 (some 20512), .free 16416]
    (by decide +kernel) (by simp [Event.Large, sbSize])
  exact ⟨run, hrun, chunks_conserved_iff oneCpu_started hr⟩

/-- Freeing the last of two chunks puts the other, still live, behind it in the free list: the
next requests are given both. -/
theorem chunk_given_twice : Started 1 oneCpu ∧ ∃ run : List (Event × Config),
    run.map (fun x => (x.1, x.2.live)) =
      [(.malloc 0 3000 (some 16416), [16416]), (.malloc 0 3000 (some 20512), [20512, 16416]),
        (.free 20512, [16416]), (.malloc 0 3000 (some 20512), [20512, 16416]),
        (.malloc 0 3000 (some 16416), [16416, 20512, 16416])] ∧
    Along (LargeStep 1) oneCpu run ∧ ¬Along (fun _ _ d => Conserved 1 d) oneCpu run := by
  obtain ⟨run, hrun, htrace⟩ := ok_of_map
    (c := calls 1 oneCpu [.malloc 0 3000, .malloc 0 3000, .free 20512, .malloc 0 3000,
      .malloc 0 3000])
    (f := List.map fun x => (x.1, x.2.live))
    (b := [(.malloc 0 3000 (some 16416), [16416]), (.malloc 0 3000 (some 20512), [20512, 16416]),
      (.free 20512, [16416]), (.malloc 0 3000 (some 20512), [20512, 16416]),
      (.malloc 0 3000 (some 16416), [16416, 20512, 16416])]) (by decide +kernel)
  refine ⟨oneCpu_started, run, htrace, (calls_along hrun).and (along_labels ?_), ?_⟩
  · intro x hx
    have hmem : (x.1, x.2.live) ∈ run.map fun x => (x.1, x.2.live) := List.mem_map_of_mem hx
    rw [htrace] at hmem
    simp only [List.mem_cons, Prod.mk.injEq, List.not_mem_nil, or_false] at hmem
    rcases hmem with h | h | h | h | h <;> rw [h.1] <;> simp [Event.Large, sbSize]
  · intro hcons
    have hmem : (Event.malloc 0 3000 (some 16416), [16416, 20512, 16416]) ∈
        run.map fun x => (x.1, x.2.live) := by simp [htrace]
    obtain ⟨x, hx, he⟩ := List.mem_map.mp hmem
    obtain ⟨M, -, -, hv⟩ := along_states.mp hcons x hx
    have hnd := hv.nodup
    rw [(Prod.mk.inj he).2] at hnd
    exact absurd hnd (by decide)

end Csc469.Alloc
