import Csc469.Alloc.Malloc
import Mathlib.Algebra.Group.Nat.Defs
import Mathlib.Data.List.Basic

/-! Runs of the allocator: calls from any processor, starting after `mm_init`. -/
namespace Csc469.Alloc

open Execution

variable {n m raw : Nat} {s t : State} {p : Option Nat} {table : Option Nat}

theorem pageOf_add {a k : Nat} (ha : pgSize ∣ a) (hk : k < pgSize) :
    pageOf (a + k) = a ∧ (a + k) % pgSize = k := by
  have hmod : (a + k) % pgSize = k := by
    rw [Nat.add_mod, Nat.mod_eq_zero_of_dvd ha, Nat.zero_add, Nat.mod_mod, Nat.mod_eq_of_lt hk]
  exact ⟨by rw [pageOf, hmod, Nat.add_sub_cancel], hmod⟩

/-- The allocator, the pointers the program holds, and the chunks (address and bytes) that
`mem_sbrk` has given out since `mm_init`. -/
structure Config where
  state : State
  live : List Nat
  chunks : List (Nat × Nat)

inductive Event where
  | malloc (cpu sz : Nat) (ret : Option Nat)
  | free (ptr : Nat)
  deriving DecidableEq

/-- The chunk by which the segment has grown, if it has. -/
def newChunk (s t : State) : List (Nat × Nat) :=
  if t.dsegHi = s.dsegHi then [] else [(s.dsegHi + 1, t.dsegHi - s.dsegHi)]

/-- One call of the program: `mm_malloc` on one of `n` processors, or `mm_free` of a pointer
that it holds. -/
inductive Step (n : Nat) : Config → Event → Config → Prop
  | malloc {c : Config} {cpu sz : Nat} {t : State} {r : Option Nat} (hcpu : cpu < n)
      (hsz : sz < 2 ^ 64) (hm : mmMalloc c.state cpu sz = .ok (t, r)) :
      Step n c (.malloc cpu sz r) ⟨t, r.toList ++ c.live, newChunk c.state t ++ c.chunks⟩
  | free {c : Config} {p : Nat} {t : State} (hp : p ∈ c.live)
      (hf : mmFree c.state p = .ok t) : Step n c (.free p) ⟨t, c.live.erase p, c.chunks⟩

/-- A call the program asks for. -/
inductive Op where
  | malloc (cpu sz : Nat)
  | free (ptr : Nat)

/-- Make one call, unless it is not the program's to make. -/
def call (n : Nat) (c : Config) : Op → Call (Event × Config)
  | .malloc cpu sz =>
    if cpu < n ∧ sz < 2 ^ 64 then do
      let (t, r) ← mmMalloc c.state cpu sz
      .ok (.malloc cpu sz r, ⟨t, r.toList ++ c.live, newChunk c.state t ++ c.chunks⟩)
    else .error .fault
  | .free p =>
    if p ∈ c.live then do
      let t ← mmFree c.state p
      .ok (.free p, ⟨t, c.live.erase p, c.chunks⟩)
    else .error .fault

def calls (n : Nat) : Config → List Op → Call (List (Event × Config))
  | _, [] => .ok []
  | c, op :: ops => do
    let x ← call n c op
    let rest ← calls n x.2 ops
    .ok (x :: rest)

theorem call_step {c d : Config} {e : Event} {op : Op} (h : call n c op = .ok (e, d)) :
    Step n c e d := by
  cases op with
  | malloc cpu sz =>
    simp only [call] at h
    split at h
    · next hl =>
      obtain ⟨⟨t, r⟩, hm, h⟩ := ok_of_bind h
      cases h
      exact .malloc hl.1 hl.2 hm
    · cases h
  | free p =>
    simp only [call] at h
    split at h
    · next hp =>
      obtain ⟨t, hf, h⟩ := ok_of_bind h
      cases h
      exact .free hp hf
    · cases h

theorem calls_along {c : Config} {ops : List Op} {run : List (Event × Config)}
    (h : calls n c ops = .ok run) : Along (Step n) c run := by
  induction ops generalizing c run with
  | nil =>
    cases h
    trivial
  | cons op ops ih =>
    obtain ⟨x, hx, h⟩ := ok_of_bind h
    obtain ⟨rest, hrest, h⟩ := ok_of_bind h
    cases h
    exact ⟨call_step hx, ih hrest⟩

/-- The calls with their results, without the states they lead to. -/
def trace (n : Nat) (c : Config) (ops : List Op) : Option (List Event) :=
  (calls n c ops).toOption.map (List.map Prod.fst)

theorem along_of_trace {c : Config} {P : Event → Prop} (ops : List Op) (es : List Event)
    (h : trace n c ops = some es) (hP : ∀ e ∈ es, P e) :
    ∃ run, calls n c ops = .ok run ∧ run.map Prod.fst = es ∧
      Along (fun c e d => Step n c e d ∧ P e) c run := by
  obtain ⟨run, hrun, rfl⟩ := ok_of_map h
  refine ⟨run, hrun, rfl, (calls_along hrun).and (along_labels fun x hx => ?_)⟩
  exact hP x.1 (List.mem_map_of_mem hx)

theorem step_live {c d : Config} {e : Event} (hs : Step n c e d) :
    match e with
    | .malloc _ _ r => d.live = r.toList ++ c.live
    | .free p => p ∈ c.live ∧ d.live = c.live.erase p := by
  cases hs with
  | malloc => rfl
  | free hp => exact ⟨hp, rfl⟩

/-- Requests of at most half a superblock. -/
def Event.Small : Event → Prop
  | .malloc _ sz _ => sz ≤ sbSize / 2
  | .free _ => True

/-- Requests of more than half a superblock. -/
def Event.Large : Event → Prop
  | .malloc _ sz _ => sbSize / 2 < sz
  | .free _ => True

def SmallStep (n : Nat) (c : Config) (e : Event) (d : Config) : Prop := Step n c e d ∧ e.Small

def LargeStep (n : Nat) (c : Config) (e : Event) (d : Config) : Prop := Step n c e d ∧ e.Large

/-- The pages the heaps are set up on are zero. -/
def Zeroed (s : State) : Prop := ∀ h i j, (s.heapTable h).binFirst i j = none

/-- `mm_init` has run on a zeroed segment, and nothing else has. -/
structure Started (n : Nat) (c : Config) : Prop where
  init : ∃ raw s, 0 < raw ∧ Zeroed s ∧ mmInit n raw s = .ok c.state
  live : c.live = []
  chunks : c.chunks = []

/-- The page after the heap table and the heaps of `n` processors. -/
def firstPage (n : Nat) (s : State) : Nat := s.dsegLo + pgSize * (n + 2)

/-- `m` heaps have been set up, on consecutive pages. -/
structure HeapsUp (s t : State) (m : Nat) : Prop where
  dsegLo : t.dsegLo = s.dsegLo
  dsegHi : t.dsegHi = s.dsegHi + m * pgSize
  heap : ∀ h < m, t.heapTable h = initHeap (s.heapTable h)
  other : ∀ h, m ≤ h → t.heapTable h = s.heapTable h

theorem memSbrk_some {inc q : Nat} (hm : memSbrk s inc = .ok (t, some q)) :
    t = { s with dsegHi := s.dsegHi + inc } ∧ q = s.dsegHi + 1 := by
  unfold memSbrk at hm
  split at hm
  · cases hm
  · simp only at hm
    split at hm <;> cases hm
    exact ⟨rfl, rfl⟩

theorem setUpHeap_ok (hu : setUpHeap table s m = .ok t) :
    table.isSome ∧ t = { s with dsegHi := s.dsegHi + pgSize }.setHeap m initHeap := by
  obtain ⟨⟨s1, page⟩, hm, hu⟩ := ok_of_bind hu
  cases table with
  | none => cases hu
  | some x =>
    cases page with
    | none => cases hu
    | some q =>
      simp only at hu
      split at hu
      · cases hu
        rw [(memSbrk_some hm).1]
        exact ⟨rfl, rfl⟩
      · cases hu

theorem heapsUp (hu : (List.range m).foldlM (setUpHeap table) s = .ok t) : HeapsUp s t m := by
  induction m generalizing t with
  | zero =>
    cases hu
    exact ⟨rfl, by simp, fun h hh => absurd hh (Nat.not_lt_zero h), fun _ _ => rfl⟩
  | succ m ih =>
    rw [List.range_succ, List.foldlM_append] at hu
    obtain ⟨u, hm, hu⟩ := ok_of_bind hu
    obtain ⟨v, hv, hu⟩ := ok_of_bind hu
    cases hu
    obtain ⟨h1, h2, h3, h4⟩ := ih hm
    obtain ⟨-, rfl⟩ := setUpHeap_ok hv
    refine ⟨h1, ?_, fun h hh => ?_, fun h hh => ?_⟩
    · simp only [State.setHeap_dsegHi, h2, Nat.add_mul, Nat.one_mul, Nat.add_assoc]
    · rcases Nat.lt_succ_iff_lt_or_eq.mp hh with hlt | rfl
      · simp [Nat.ne_of_lt hlt, h3 h hlt]
      · simp [h4 h (Nat.le_refl h)]
    · simp [show h ≠ m by omega, h4 h (by omega)]

theorem initHeap_bins {h : Heap} (hz : ∀ i j, h.binFirst i j = none) (i j : Nat) :
    (initHeap h).binFirst i j = none := by
  simp [initHeap, memsetBins, clearLowBytes, hz]

/-- After `mm_init` the segment ends with the last heap, and every heap is empty. -/
structure Fresh (n : Nat) (s : State) : Prop where
  lo_pos : 0 < s.dsegLo
  lo_aligned : pgSize ∣ s.dsegLo
  hi : s.dsegHi + 1 = firstPage n s
  heap : ∀ h ≤ n, (s.heapTable h).allocated = 0 ∧ (s.heapTable h).used = 0 ∧
    (s.heapTable h).binLarge = none ∧ ∀ i j, (s.heapTable h).binFirst i j = none

theorem mmInit_fresh (hr : 0 < raw) (hz : Zeroed s) (hm : mmInit n raw s = .ok t) : Fresh n t := by
  obtain ⟨⟨s1, table⟩, hs1, hm⟩ := ok_of_bind hm
  have hsome : table.isSome := by
    simp only [List.range_succ_eq_map, List.foldlM_cons] at hm
    obtain ⟨u, hu, -⟩ := ok_of_bind hm
    exact (setUpHeap_ok hu).1
  obtain ⟨q, rfl⟩ := Option.isSome_iff_exists.mp hsome
  obtain ⟨h1, h2, h3, -⟩ := heapsUp hm
  obtain ⟨rfl, -⟩ := memSbrk_some hs1
  have hlo : t.dsegLo = (raw + pgSize - 1) / pgSize * pgSize := h1
  have hhi : t.dsegHi = (raw + pgSize - 1) / pgSize * pgSize - 1 + pgSize + (n + 1) * pgSize := h2
  have hpos : 0 < (raw + pgSize - 1) / pgSize * pgSize := by
    simp only [pgSize]
    omega
  refine ⟨by omega, by rw [hlo]; exact Nat.dvd_mul_left _ _, ?_, fun h hh => ?_⟩
  · rw [firstPage, hlo, hhi]
    simp only [pgSize] at *
    omega
  · rw [h3 h (by omega)]
    exact ⟨rfl, rfl, rfl, initHeap_bins (hz h)⟩

theorem Started.fresh {c : Config} (hc : Started n c) : Fresh n c.state := by
  obtain ⟨raw, s, hr, hz, hm⟩ := hc.init
  exact mmInit_fresh hr hz hm

/-- Zeroed memory. -/
def zeroState : State :=
  { dsegLo := 0
    dsegHi := 0
    dsegSize := 0
    sbrkLock := false
    heapTable := fun _ => ⟨false, 0, 0, none, fun _ _ => none⟩
    type := fun _ => 0
    superblock := fun _ => ⟨0, fun _ => 0, 0, 0, none, none⟩
    node := fun _ => ⟨0, 0, none, none⟩ }

/-- One processor after `mm_init`, the segment at address 4096: the first superblock will be
at 16384. -/
def oneCpu : Config := ⟨(mmInit 1 4096 zeroState).toOption.getD zeroState, [], []⟩

theorem oneCpu_started : Started 1 oneCpu := by
  obtain ⟨s, hs, -⟩ := ok_of_map (c := mmInit 1 4096 zeroState) (f := fun _ => ()) (b := ())
    (by decide +kernel)
  refine ⟨⟨4096, zeroState, by omega, fun _ _ _ => rfl, ?_⟩, rfl, rfl⟩
  simp [oneCpu, hs, Except.toOption]

end Csc469.Alloc
