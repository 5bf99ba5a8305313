import Csc469.Alloc.Growth
import Csc469.ByteMemory

/-! `mm_init` on the bytes of the segment: the table of heaps and the pages of the heaps. -/
namespace Csc469.Alloc

open Execution ByteMemory

/-! LP64: a `heap` is a mutex of 40 bytes, two ints, and 55 pointers. -/

def allocatedAt (h : Nat) : Nat := h + 40

def usedAt (h : Nat) : Nat := h + 44

def binLargeAt (h : Nat) : Nat := h + 48

def binFirstAt (h cls full : Nat) : Nat := h + 56 + 8 * (6 * cls + full)

/-- A null pointer is eight zero bytes. -/
def loadPtr (m : Memory) (a : Nat) : Option Nat :=
  if load m a 8 = 0 then none else some (load m a 8)

def loadInt (m : Memory) (a : Nat) : Int := (BitVec.ofNat 32 (load m a 4)).toInt

/-- The body of `mm_init`'s loop on the heap at `h`. `mutex` is what `pthread_mutex_init` writes
into the 40 bytes of the lock. -/
def initBytes (mutex : Nat → UInt8) (h : Nat) (m : Memory) : Memory :=
  let m : Memory := fun x => if h ≤ x ∧ x < h + 40 then mutex (x - h) else m x
  let m := store m (allocatedAt h) 4 0
  let m := store m (usedAt h) 4 0
  let m := store m (binLargeAt h) 8 0
  -- sizeof(superblock*) * 9 * NUM_BINS, where NUM_BINS is the bare text 4 + 2
  fill m (binFirstAt h 0 0) (8 * 9 * 4 + 2) 0

/-- The segment's bounds, which are all that is used of `seg`, and the memory. -/
structure Image where
  seg : State
  mem : Memory

/-- A page for heap `i`, whose address goes to `heap_table[i]`, also where that entry lies
behind the page of the table. -/
def setUpBytes (mutex : Nat → UInt8) (table : Nat) (x : Image) (i : Nat) : Call Image := do
  let (s, page) ← memSbrk x.seg pgSize
  match page with
  | some h => .ok ⟨s, initBytes mutex h (store x.mem (table + 8 * i) 8 h)⟩
  | none => .error .fault

/-- `mm_init`, and the value of `heap_table`. -/
def mmInitBytes (mutex : Nat → UInt8) (numCpu raw : Nat) (x : Image) : Call (Image × Nat) := do
  let (s, table) ← memSbrk (memInit raw x.seg) pgSize
  match table with
  | some t => do
    let y ← (List.range (numCpu + 1)).foldlM (setUpBytes mutex t) ⟨s, x.mem⟩
    .ok (y, t)
  | none => .error .fault

/-- `heap_table[i]` -/
def heapAt (m : Memory) (table i : Nat) : Nat := load m (table + 8 * i) 8

/-- What `mm_init` is to leave behind on `n` processors. -/
structure Initialised (n : Nat) (m : Memory) (table : Nat) : Prop where
  page : ∀ i ≤ n, heapAt m table i ≠ 0 ∧ pgSize ∣ heapAt m table i
  distinct : ∀ i ≤ n, ∀ j ≤ n, i ≠ j → heapAt m table i ≠ heapAt m table j
  apart : ∀ i ≤ n, heapAt m table i + pgSize ≤ table ∨ table + 8 * (n + 1) ≤ heapAt m table i
  binFirst : ∀ i ≤ n, ∀ c < 9, ∀ f < 6, loadPtr m (binFirstAt (heapAt m table i) c f) = none
  binLarge : ∀ i ≤ n, loadPtr m (binLargeAt (heapAt m table i)) = none
  used : ∀ i ≤ n, loadInt m (usedAt (heapAt m table i)) = 0
  allocated : ∀ i ≤ n, loadInt m (allocatedAt (heapAt m table i)) = 0

/-- Heap `i` of a segment that begins at `lo`. -/
def heapPage (lo i : Nat) : Nat := lo + pgSize * (i + 1)

/-- The bytes of `bin_first` that the `memset` does not reach are zero. -/
def TailZero (m : Memory) (lo n : Nat) : Prop :=
  ∀ i ≤ n, ∀ k, 290 ≤ k → k < 432 → m (binFirstAt (heapPage lo i) 0 0 + k) = 0

variable {mutex : Nat → UInt8} {m m' : Memory} {a h i k lo n o raw v : Nat} {s t : State}
  {x y : Image} {hp : Heap}

theorem loadPtr_none : loadPtr m a = none ↔ ∀ b < 8, m (a + b) = 0 := by
  rw [← load_eq_zero]
  simp [loadPtr]

theorem loadInt_zero (hz : ∀ b < 4, m (a + b) = 0) : loadInt m a = 0 := by
  rw [loadInt, load_eq_zero.mpr hz]
  rfl

/-- The bytes that `mm_init` writes on a heap's page are the first 346 of 488. -/
theorem initBytes_apply (b : Nat) : initBytes mutex h m b =
    if h ≤ b ∧ b < h + 40 then mutex (b - h) else if h ≤ b ∧ b < h + 346 then 0 else m b := by
  have hfill : ∀ m : Memory, fill (store (store (store m (allocatedAt h) 4 0) (usedAt h) 4 0)
      (binLargeAt h) 8 0) (binFirstAt h 0 0) (8 * 9 * 4 + 2) 0 = fill m (h + 40) 306 0 := by
    intro m
    rw [store_zero, store_zero, store_zero]
    exact (congrArg (fill · _ _ 0) ((congrArg (fill · _ _ 0) fill_fill).trans fill_fill)).trans
      fill_fill
  rw [initBytes, hfill, fill]
  split_ifs <;> first | rfl | omega

theorem initBytes_outside {b : Nat} (hb : b < h ∨ h + 346 ≤ b) : initBytes mutex h m b = m b := by
  rw [initBytes_apply, if_neg (by omega), if_neg (by omega)]

theorem initBytes_zero {b : Nat} (h1 : h + 40 ≤ b) (h2 : b < h + 346) :
    initBytes mutex h m b = 0 := by
  rw [initBytes_apply, if_neg (by omega), if_pos (by omega)]

theorem memSbrk_page_ok (hroom : s.dsegHi + pgSize ≤ s.dsegLo + s.dsegSize) :
    memSbrk s pgSize = .ok ({ s with dsegHi := s.dsegHi + pgSize }, some (s.dsegHi + 1)) :=
  (sbrkStep_grants (by decide) hroom).2

/-- After `k` rounds over `m`: the entries of the table, the pages of the heaps (as long as the
table fits its page), and the memory behind them. -/
structure Rounds (mutex : Nat → UInt8) (m : Memory) (lo k : Nat) (m' : Memory) : Prop where
  entry : ∀ i < k, ∀ b < 8, m' (lo + 8 * i + b) = UInt8.ofNat (heapPage lo i / 256 ^ b)
  page : k ≤ 512 → ∀ i < k, ∀ o < pgSize,
    m' (heapPage lo i + o) = initBytes mutex (heapPage lo i) m (heapPage lo i + o)
  later : ∀ b, heapPage lo k ≤ b → m' b = m b

theorem rounds_zero : Rounds mutex m lo 0 m :=
  ⟨fun i hi => absurd hi (Nat.not_lt_zero i), fun _ i hi => absurd hi (Nat.not_lt_zero i),
    fun _ _ => rfl⟩

theorem rounds_step (hm : Rounds mutex m lo k m') : Rounds mutex m lo (k + 1)
    (initBytes mutex (heapPage lo k) (store m' (lo + 8 * k) 8 (heapPage lo k))) := by
  obtain ⟨hentry, hpage, hlater⟩ := hm
  refine ⟨fun i hi b hb => ?_, fun hk i hi o ho => ?_, fun b hb => ?_⟩
  · -- no entry lies in the page of its own heap or of a later one
    rw [initBytes_outside (by simp only [heapPage, pgSize]; omega)]
    rcases Nat.lt_succ_iff_lt_or_eq.mp hi with hlt | rfl
    · rw [store_outside (by omega), hentry i hlt b hb]
    · exact store_inside hb
  · have hstore : heapPage lo i + o < lo + 8 * k ∨ lo + 8 * k + 8 ≤ heapPage lo i + o := by
      simp only [heapPage, pgSize]
      omega
    rcases Nat.lt_succ_iff_lt_or_eq.mp hi with hlt | rfl
    · rw [initBytes_outside (by simp only [heapPage, pgSize] at *; omega), store_outside hstore,
        hpage (by omega) i hlt o ho]
    · rw [initBytes_apply, initBytes_apply, store_outside hstore,
        hlater (heapPage lo i + o) (Nat.le_add_right _ _)]
  · have hnext : heapPage lo (k + 1) = heapPage lo k + 4096 := by
      simp only [heapPage, pgSize]
      omega
    have hentry : lo + 8 * k + 8 ≤ heapPage lo k := by
      simp only [heapPage, pgSize]
      omega
    rw [initBytes_outside (by omega), store_outside (by omega), hlater b (by omega)]

theorem rounds_run (mutex : Nat → UInt8) (m : Memory) (lo : Nat) (hhi : s.dsegHi + 1 = heapPage lo 0)
    (hroom : s.dsegHi + k * pgSize ≤ s.dsegLo + s.dsegSize) :
    ∃ m', (List.range k).foldlM (setUpBytes mutex lo) ⟨s, m⟩ =
      .ok ⟨{ s with dsegHi := s.dsegHi + k * pgSize }, m'⟩ ∧ Rounds mutex m lo k m' := by
  induction k with
  | zero => exact ⟨m, by rw [Nat.zero_mul]; rfl, rounds_zero⟩
  | succ k ih =>
    rw [Nat.add_mul, Nat.one_mul] at hroom
    obtain ⟨m', hm, hrounds⟩ := ih (by omega)
    have hpage := memSbrk_page_ok (s := { s with dsegHi := s.dsegHi + k * pgSize })
      (by simp only; omega)
    have hnext : s.dsegHi + k * pgSize + 1 = heapPage lo k := by
      simp only [heapPage, pgSize] at *
      omega
    simp only [hnext] at hpage
    refine ⟨_, ?_, rounds_step hrounds⟩
    rw [List.range_succ, List.foldlM_append, Nat.add_mul, Nat.one_mul, ← Nat.add_assoc]
    refine bind_eq_ok.mpr ⟨_, hm, bind_eq_ok.mpr ⟨_, ?_, rfl⟩⟩
    rw [setUpBytes, hpage]
    rfl

/-- What `mm_init` leaves in memory, and where the table is. -/
theorem mmInitBytes_ok (mutex : Nat → UInt8) (x : Image) (hraw : 0 < raw)
    (hroom : (n + 2) * pgSize ≤ dsegMax) : ∃ y,
    mmInitBytes mutex n raw x = .ok (y, (memInit raw x.seg).dsegLo) ∧
      y.seg = { memInit raw x.seg with
        dsegHi := (memInit raw x.seg).dsegHi + pgSize + (n + 1) * pgSize } ∧
      Rounds mutex x.mem (memInit raw x.seg).dsegLo (n + 1) y.mem := by
  have hempty := memInit_empty (s := x.seg) hraw
  have hsize : (memInit raw x.seg).dsegSize = dsegMax := rfl
  rw [Nat.add_mul] at hroom
  generalize hs : memInit raw x.seg = s at hempty hsize
  have htable := memSbrk_page_ok (s := s) (by omega)
  obtain ⟨m', hm, hrounds⟩ := rounds_run (k := n + 1)
    (s := { s with dsegHi := s.dsegHi + pgSize }) mutex x.mem s.dsegLo
    (by simp only [heapPage]; omega) (by simp only [Nat.add_mul]; omega)
  refine ⟨⟨_, m'⟩, ?_, rfl, hrounds⟩
  rw [mmInitBytes, hs, htable]
  refine bind_eq_ok.mpr ⟨_, rfl, ?_⟩
  simp only [hempty]
  exact bind_eq_ok.mpr ⟨_, hm, rfl⟩

theorem Rounds.heapAt_eq (hm : Rounds mutex m lo k m') (hi : i < k) (hlt : heapPage lo i < 2 ^ 64) :
    heapAt m' lo i = heapPage lo i := by
  have hload : heapAt m' lo i = load (store m (lo + 8 * i) 8 (heapPage lo i)) (lo + 8 * i) 8 :=
    load_congr fun b hb => (hm.entry i hi b hb).trans (store_inside hb).symm
  rw [hload, load_store]
  exact Nat.mod_eq_of_lt hlt

theorem Rounds.at_page (hm : Rounds mutex m lo k m') (hk : k ≤ 512) (hi : i < k) {b : Nat}
    (h1 : heapPage lo i ≤ b) (h2 : b < heapPage lo i + pgSize) :
    m' b = initBytes mutex (heapPage lo i) m b := by
  obtain ⟨o, rfl⟩ := Nat.exists_eq_add_of_le h1
  exact hm.page hk i hi o (by omega)

theorem binFirstAt_add (c f b : Nat) :
    binFirstAt h c f + b = binFirstAt h 0 0 + (8 * (6 * c + f) + b) := by
  simp only [binFirstAt]
  omega

/-- All of `bin_first` is null when its 432 bytes are zero. -/
theorem binFirst_none : (∀ c < 9, ∀ f < 6, loadPtr m (binFirstAt h c f) = none) ↔
    ∀ k < 432, m (binFirstAt h 0 0 + k) = 0 := by
  constructor
  · intro hnone k hk
    have hb := loadPtr_none.mp (hnone (k / 48) (by omega) (k % 48 / 8) (by omega)) (k % 8) (by omega)
    rw [binFirstAt_add] at hb
    rwa [show 8 * (6 * (k / 48) + k % 48 / 8) + k % 8 = k by omega] at hb
  · intro hz c hc f hf
    refine loadPtr_none.mpr fun b hb => ?_
    rw [binFirstAt_add]
    exact hz _ (by omega)

/-- A heap on whose page `initBytes` has run: what lies behind the `memset` is as it was. -/
theorem initBytes_binFirst
    (hm : ∀ b, h ≤ b → b < h + pgSize → m' b = initBytes mutex h m b) :
    (∀ c < 9, ∀ f < 6, loadPtr m' (binFirstAt h c f) = none) ↔
      ∀ k, 290 ≤ k → k < 432 → m (binFirstAt h 0 0 + k) = 0 := by
  rw [binFirst_none]
  have hbyte : ∀ k < 432, m' (binFirstAt h 0 0 + k) =
      if k < 290 then 0 else m (binFirstAt h 0 0 + k) := by
    intro k hk
    simp only [binFirstAt] at *
    rw [hm _ (by omega) (by simp only [pgSize]; omega)]
    split
    · exact initBytes_zero (by omega) (by omega)
    · exact initBytes_outside (by omega)
  constructor
  · intro hz k h1 h2
    have hk := hbyte k h2
    rw [hz k h2, if_neg (by omega)] at hk
    exact hk.symm
  · intro hz k hk
    rw [hbyte k hk]
    split
    · rfl
    · exact hz k (by omega) hk

theorem initBytes_fields
    (hm : ∀ b, h ≤ b → b < h + pgSize → m' b = initBytes mutex h m b) :
    loadPtr m' (binLargeAt h) = none ∧ loadInt m' (usedAt h) = 0 ∧
      loadInt m' (allocatedAt h) = 0 := by
  have hzero : ∀ b, h + 40 ≤ b → b < h + 56 → m' b = 0 := by
    intro b h1 h2
    rw [hm b (by omega) (by simp only [pgSize]; omega)]
    exact initBytes_zero h1 (by omega)
  refine ⟨loadPtr_none.mpr fun b hb => ?_, loadInt_zero fun b hb => ?_,
    loadInt_zero fun b hb => ?_⟩ <;>
  · simp only [binLargeAt, usedAt, allocatedAt]
    exact hzero _ (by omega) (by omega)

/-- `mm_init` does what it is to do exactly when the table fits its page and the part of each
`bin_first` that is not cleared was zero before. -/
theorem mm_init_iff (hraw : 0 < raw) (htop : raw + dsegMax + 2 * pgSize ≤ 2 ^ 64)
    (hroom : (n + 2) * pgSize ≤ dsegMax) : ∃ y table, mmInitBytes mutex n raw x = .ok (y, table) ∧
      (Initialised n y.mem table ↔
        n ≤ 511 ∧ TailZero x.mem ((raw + pgSize - 1) / pgSize * pgSize) n) := by
  obtain ⟨y, hy, -, hrounds⟩ := mmInitBytes_ok mutex x hraw hroom
  have hlo : (memInit raw x.seg).dsegLo = (raw + pgSize - 1) / pgSize * pgSize := rfl
  rw [hlo] at hy hrounds
  have hdvd : pgSize ∣ (raw + pgSize - 1) / pgSize * pgSize := Nat.dvd_mul_left _ _
  have hbound : (raw + pgSize - 1) / pgSize * pgSize ≤ raw + pgSize := by
    simp only [pgSize]
    omega
  generalize (raw + pgSize - 1) / pgSize * pgSize = lo at *
  refine ⟨y, lo, hy, ?_⟩
  have hheap : ∀ i ≤ n, heapAt y.mem lo i = heapPage lo i := fun i hi =>
    hrounds.heapAt_eq (Nat.lt_succ_of_le hi) (by simp only [heapPage, pgSize] at *; omega)
  have hpage : n ≤ 511 → ∀ i ≤ n, ∀ b, heapPage lo i ≤ b → b < heapPage lo i + pgSize →
      y.mem b = initBytes mutex (heapPage lo i) x.mem b :=
    fun hn i hi b => hrounds.at_page (by omega) (Nat.lt_succ_of_le hi)
  constructor
  · intro hinit
    have hn : n ≤ 511 := by
      have hapart := hinit.apart 0 (Nat.zero_le n)
      rw [hheap 0 (Nat.zero_le n)] at hapart
      simp only [heapPage, pgSize] at hapart
      omega
    refine ⟨hn, fun i hi => (initBytes_binFirst (hpage hn i hi)).mp ?_⟩
    have hbins := hinit.binFirst i hi
    rwa [hheap i hi] at hbins
  · rintro ⟨hn, htail⟩
    refine ⟨fun i hi => ?_, fun i hi j hj hne => ?_, fun i hi => ?_, fun i hi => ?_,
      fun i hi => ?_, fun i hi => ?_, fun i hi => ?_⟩
    · rw [hheap i hi]
      exact ⟨by simp only [heapPage, pgSize]; omega, Nat.dvd_add hdvd (Nat.dvd_mul_right _ _)⟩
    · rw [hheap i hi, hheap j hj]
      simp only [heapPage, pgSize]
      omega
    · rw [hheap i hi]
      simp only [heapPage, pgSize]
      omega
    · rw [hheap i hi]
      exact (initBytes_binFirst (hpage hn i hi)).mpr (htail i hi)
    · rw [hheap i hi]
      exact (initBytes_fields (hpage hn i hi)).1
    · rw [hheap i hi]
      exact (initBytes_fields (hpage hn i hi)).2.1
    · rw [hheap i hi]
      exact (initBytes_fields (hpage hn i hi)).2.2

theorem mm_init_iff_zeroed : ∃ y table, mmInitBytes (fun _ => 0) 4 1 ⟨zeroState, fun _ => 0⟩ =
      .ok (y, table) ∧
    (Initialised 4 y.mem table ↔ 4 ≤ 511 ∧ TailZero (fun _ => 0) 4096 4) :=
  mm_init_iff (by decide) (by decide) (by decide)

/-- One processor, and memory of all ones: of the last three size classes of heap 0 only two
bytes are cleared. -/
theorem bins_not_null : ∃ y table, mmInitBytes (fun _ => 0) 1 1 ⟨zeroState, fun _ => 255⟩ =
      .ok (y, table) ∧
    loadPtr y.mem (binFirstAt (heapAt y.mem table 0) 6 0) = some 0xffffffffffff0000 ∧
    ¬Initialised 1 y.mem table := by
  obtain ⟨⟨y, table⟩, hy, hptr⟩ := ok_of_map
    (c := mmInitBytes (fun _ => 0) 1 1 ⟨zeroState, fun _ => 255⟩)
    (f := fun y => loadPtr y.1.mem (binFirstAt (heapAt y.1.mem y.2 0) 6 0))
    (b := some 0xffffffffffff0000) (by decide +kernel)
  refine ⟨y, table, hy, hptr, fun h => ?_⟩
  have hnone := h.binFirst 0 (by omega) 6 (by omega) 0 (by omega)
  simp only at hptr
  rw [hptr] at hnone
  cases hnone

/-! The heaps of `mmInit` are those that the bytes show. -/

/-- The heap that the bytes at `h` show; the lock is left out. -/
structure Shows (m : Memory) (h : Nat) (hp : Heap) : Prop where
  allocated : hp.allocated = loadInt m (allocatedAt h)
  used : hp.used = loadInt m (usedAt h)
  binLarge : hp.binLarge = loadPtr m (binLargeAt h)
  binFirst : ∀ c < 9, ∀ f < 6, hp.binFirst c f = loadPtr m (binFirstAt h c f)

theorem loadPtr_clear {j : Nat} (hlow : ∀ i < j, m' (a + i) = 0)
    (hhigh : ∀ i, j ≤ i → i < 8 → m' (a + i) = m (a + i)) :
    loadPtr m' a = clearLowBytes j (loadPtr m a) := by
  rw [loadPtr, load_clear hlow hhigh, loadPtr]
  by_cases hv : load m a 8 = 0 <;> simp [hv, clearLowBytes]

/-- `memsetBins` is the `memset` on the array's bytes. -/
theorem loadPtr_memset (hm : ∀ b, h ≤ b → b < h + pgSize → m' b = initBytes mutex h m b) {c f : Nat}
    (hc : c < 9) (hf : f < 6) : loadPtr m' (binFirstAt h c f) =
      memsetBins (8 * 9 * 4 + 2) (fun c f => loadPtr m (binFirstAt h c f)) c f := by
  have hbyte : ∀ b < 8, m' (binFirstAt h c f + b) = if 8 * (6 * c + f) + b < 290 then 0
      else m (binFirstAt h c f + b) := by
    intro b hb
    simp only [binFirstAt]
    rw [hm _ (by omega) (by simp only [pgSize]; omega)]
    split
    · exact initBytes_zero (by omega) (by omega)
    · exact initBytes_outside (by omega)
  simp only [memsetBins]
  split
  · next hin =>
    refine loadPtr_none.mpr fun b hb => ?_
    rw [hbyte b hb, if_pos (by omega)]
  · next hout =>
    refine loadPtr_clear (fun i hi => ?_) fun i hi hlt => ?_
    · rw [hbyte i (by omega), if_pos (by omega)]
    · rw [hbyte i hlt, if_neg (by omega)]

theorem initHeap_shows (hb : ∀ c < 9, ∀ f < 6, hp.binFirst c f = loadPtr m (binFirstAt h c f))
    (hm : ∀ b, h ≤ b → b < h + pgSize → m' b = initBytes mutex h m b) :
    Shows m' h (initHeap hp) := by
  obtain ⟨hlarge, hused, halloc⟩ := initBytes_fields hm
  refine ⟨halloc.symm, hused.symm, hlarge.symm, fun c hc f hf => ?_⟩
  rw [loadPtr_memset hm hc hf]
  simp only [initHeap, memsetBins, hb c hc f hf]

theorem setUpHeap_run {q : Nat} (hk : k ≤ 512)
    (hroom : s.dsegHi + k * pgSize ≤ s.dsegLo + s.dsegSize) : ∃ t,
      (List.range k).foldlM (setUpHeap (some q)) s = .ok t ∧ t.dsegSize = s.dsegSize := by
  induction k with
  | zero => exact ⟨s, rfl, rfl⟩
  | succ k ih =>
    rw [Nat.add_mul, Nat.one_mul] at hroom
    obtain ⟨t, ht, hsize⟩ := ih (by omega) (by omega)
    have hup := heapsUp ht
    have hpage := memSbrk_page_ok (s := t) (by rw [hup.dsegHi, hup.dsegLo, hsize]; omega)
    refine ⟨({ t with dsegHi := t.dsegHi + pgSize } : State).setHeap k initHeap, ?_, hsize⟩
    rw [List.range_succ, List.foldlM_append]
    refine bind_eq_ok.mpr ⟨t, ht, bind_eq_ok.mpr ⟨_, ?_, rfl⟩⟩
    rw [setUpHeap, hpage]
    have hentry : k < pgSize / 8 := by
      simp only [pgSize]
      omega
    exact bind_eq_ok.mpr ⟨_, rfl, if_pos hentry⟩

/-- On up to 511 processors `mmInit` and `mmInitBytes` leave the same segment and the same heaps
behind, if they started from the same heaps. -/
theorem mmInit_shows (mutex : Nat → UInt8) (hraw : 0 < raw) (hn : n ≤ 511)
    (hb : ∀ i ≤ n, ∀ c < 9, ∀ f < 6, (s.heapTable i).binFirst c f =
      loadPtr m (binFirstAt (heapPage (memInit raw s).dsegLo i) c f)) :
    ∃ t y, mmInit n raw s = .ok t ∧ mmInitBytes mutex n raw ⟨s, m⟩ = .ok (y, t.dsegLo) ∧
      y.seg.dsegLo = t.dsegLo ∧ y.seg.dsegHi = t.dsegHi ∧ y.seg.dsegSize = t.dsegSize ∧
      ∀ i ≤ n, Shows y.mem (heapPage t.dsegLo i) (t.heapTable i) := by
  have hroom : (n + 2) * pgSize ≤ dsegMax := by
    simp only [pgSize, dsegMax]
    omega
  obtain ⟨y, hy, hseg, hrounds⟩ := mmInitBytes_ok mutex ⟨s, m⟩ hraw hroom
  simp only at hy hseg hrounds
  have hempty := memInit_empty (s := s) hraw
  have hsize : (memInit raw s).dsegSize = dsegMax := rfl
  have hheaps : (memInit raw s).heapTable = s.heapTable := rfl
  rw [Nat.add_mul] at hroom
  have hinit : ∀ t, (List.range (n + 1)).foldlM (setUpHeap (some ((memInit raw s).dsegHi + 1)))
      { memInit raw s with dsegHi := (memInit raw s).dsegHi + pgSize } = .ok t →
        mmInit n raw s = .ok t := by
    intro t ht
    rw [mmInit, memSbrk_page_ok (by omega)]
    exact bind_eq_ok.mpr ⟨_, rfl, ht⟩
  generalize memInit raw s = u at *
  obtain ⟨t, ht, htsize⟩ := setUpHeap_run (q := u.dsegHi + 1) (k := n + 1)
    (s := { u with dsegHi := u.dsegHi + pgSize }) (by omega) (by simp only [Nat.add_mul]; omega)
  obtain ⟨h1, h2, h3, -⟩ := heapsUp ht
  simp only at h1 h2 h3 htsize
  refine ⟨t, y, hinit t ht, by rw [hy, h1], by rw [hseg, h1], by rw [hseg, h2],
    by rw [hseg, htsize], fun i hi => ?_⟩
  rw [h1, h3 i (Nat.lt_succ_of_le hi), hheaps]
  exact initHeap_shows (hb i hi) fun b =>
    hrounds.at_page (by omega) (Nat.lt_succ_of_le hi)

end Csc469.Alloc
