import Csc469.Bitmap
import Csc469.Execution

/-! The allocator's memory: segment growth, page headers, heaps, and `mm_init`. -/
namespace Csc469.Alloc

open Execution

def pgSize : Nat := 4096
def dsegMax : Nat := 256 * 1024 * 1024

/-- Superblock size (S). -/
def sbSize : Nat := 4096

def blockSizes : List Nat := [8, 16, 32, 64, 128, 256, 512, 1024, 2048]

def fullnessDenominator : Nat := 4

/-- Minimum superblock threshold (K). -/
def minSuperblocks : Nat := 8

/-- LP64: int, size_t, char[64], two ints, two pointers. -/
def sizeofSuperblock : Nat := 104

/-- LP64: three ints, two pointers. -/
def sizeofNode : Nat := 32

/-- A superblock header without its `type` word. `none` is the null pointer. -/
structure Superblock where
  blockSize : Nat
  blockMap : Nat → BitVec 8
  usedBlocks : Int
  heapId : Nat
  prev : Option Nat
  next : Option Nat

/-- A large chunk's header without its `type` word. -/
structure Node where
  numPages : Nat
  heapId : Nat
  prev : Option Nat
  next : Option Nat

structure Heap where
  lock : Bool
  allocated : Int
  used : Int
  binLarge : Option Nat
  binFirst : Nat → Nat → Option Nat

/-- What the source passes about as `[heap_id, size class, fullness]`. -/
structure Bin where
  heap : Nat
  cls : Nat
  full : Nat
  deriving DecidableEq, Repr

/-- Headers are indexed by the address of their page; `type` is the word at offset 0,
which both layouts share (0: superblock, 1: large chunk). -/
structure State where
  dsegLo : Nat
  dsegHi : Nat
  dsegSize : Nat
  sbrkLock : Bool
  heapTable : Nat → Heap
  type : Nat → Nat
  superblock : Nat → Superblock
  node : Nat → Node

namespace State

def bin (s : State) (b : Bin) : Option Nat := (s.heapTable b.heap).binFirst b.cls b.full

@[simps] def setHeap (s : State) (h : Nat) (f : Heap → Heap) : State :=
  { s with heapTable := Function.update s.heapTable h (f (s.heapTable h)) }

@[simps] def setSb (s : State) (a : Nat) (f : Superblock → Superblock) : State :=
  { s with superblock := Function.update s.superblock a (f (s.superblock a)) }

/-- `if(p) p->...`: the write is made unless the pointer is null. -/
def onSb (s : State) (p : Option Nat) (f : Superblock → Superblock) : State :=
  match p with
  | some a => s.setSb a f
  | none => s

@[simps] def setNode (s : State) (a : Nat) (f : Node → Node) : State :=
  { s with node := Function.update s.node a (f (s.node a)) }

def onNode (s : State) (p : Option Nat) (f : Node → Node) : State :=
  match p with
  | some a => s.setNode a f
  | none => s

@[simps] def setType (s : State) (a : Nat) (t : Nat) : State :=
  { s with type := Function.update s.type a t }

/-- Write the head pointer of a bin. -/
def setBin (s : State) (b : Bin) (p : Option Nat) : State :=
  s.setHeap b.heap fun h =>
    { h with
      binFirst := Function.update h.binFirst b.cls (Function.update (h.binFirst b.cls) b.full p) }

variable {s : State} {p : Option Nat} {a : Nat}

@[simp] theorem onSb_superblock {f : Superblock → Superblock} :
    (s.onSb p f).superblock a = if p = some a then f (s.superblock a) else s.superblock a := by
  cases p with
  | none => simp [onSb]
  | some x => by_cases h : a = x <;> simp [onSb, h, eq_comm]

@[simp] theorem onSb_bin {f : Superblock → Superblock} {b : Bin} :
    (s.onSb p f).bin b = s.bin b := by cases p <;> rfl

@[simp] theorem onNode_node {f : Node → Node} :
    (s.onNode p f).node a = if p = some a then f (s.node a) else s.node a := by
  cases p with
  | none => simp [onNode]
  | some x => by_cases h : a = x <;> simp [onNode, h, eq_comm]

@[simp] theorem onNode_heapTable {f : Node → Node} :
    (s.onNode p f).heapTable = s.heapTable := by cases p <;> rfl

theorem setHeap_bin {f : Heap → Heap} {h : Nat} {b : Bin} (hf : ∀ x, (f x).binFirst = x.binFirst) :
    (s.setHeap h f).bin b = s.bin b := by
  by_cases hb : b.heap = h <;> simp [bin, hb, hf]

theorem setBin_bin {b d : Bin} : (s.setBin b p).bin d = if d = b then p else s.bin d := by
  obtain ⟨h1, c1, f1⟩ := b
  obtain ⟨h2, c2, f2⟩ := d
  simp only [bin, setBin, setHeap_heapTable, Function.update_apply, Bin.mk.injEq]
  by_cases hh : h2 = h1
  · subst hh
    by_cases hc : c2 = c1
    · subst hc
      by_cases hf : f2 = f1 <;> simp [hf]
    · simp [hc]
  · simp [hh]

/-- `if(p) p->next = v; else bin_first[b] = v;` -/
def setNextOf (s : State) (p : Option Nat) (b : Bin) (v : Option Nat) : State :=
  match p with
  | some a => s.setSb a fun sb => { sb with next := v }
  | none => s.setBin b v

/-- `if(p) p->next = v; else bin_large = v;` of heap `h`. -/
def setNextChunk (s : State) (p : Option Nat) (h : Nat) (v : Option Nat) : State :=
  match p with
  | some a => s.setNode a fun c => { c with next := v }
  | none => s.setHeap h fun hp => { hp with binLarge := v }

end State

/-- `pthread_mutex_lock` on a heap: the mutex is not recursive. -/
def lockHeap (s : State) (h : Nat) : Call State :=
  if (s.heapTable h).lock then .error .blocked
  else .ok (s.setHeap h fun hp => { hp with lock := true })

def unlockHeap (s : State) (h : Nat) : State :=
  s.setHeap h fun hp => { hp with lock := false }

def lockSbrk (s : State) : Call State :=
  if s.sbrkLock then .error .blocked else .ok { s with sbrkLock := true }

def unlockSbrk (s : State) : State := { s with sbrkLock := false }

/-- `mem_init`: `raw` is what `malloc` returned, aligned up to a page. -/
def memInit (raw : Nat) (s : State) : State :=
  let lo := (raw + pgSize - 1) / pgSize * pgSize
  { s with dsegLo := lo, dsegHi := lo - 1, dsegSize := dsegMax }

/-- `mem_sbrk`: a null pointer when the segment cannot grow. -/
def memSbrk (s : State) (increment : Nat) : Call (State × Option Nat) :=
  if increment = 0 then .error .fault  -- assert(increment > 0)
  else
    let newHi := s.dsegHi + increment
    if newHi > s.dsegLo + s.dsegSize then .ok (s, none)
    else .ok ({ s with dsegHi := newHi }, some (s.dsegHi + 1))

/-- A stored pointer whose `k` low bytes are overwritten with zeros. -/
def clearLowBytes (k : Nat) (p : Option Nat) : Option Nat :=
  p.bind fun a =>
    let a' := a / 256 ^ k * 256 ^ k
    if a' = 0 then none else some a'

/-- `memset(bin_first, 0, bytes)` on the 9 by 6 array of 8-byte pointers. -/
def memsetBins (bytes : Nat) (bins : Nat → Nat → Option Nat) : Nat → Nat → Option Nat :=
  fun i j =>
    let start := 8 * (6 * i + j)
    if start + 8 ≤ bytes then none else clearLowBytes (bytes - start) (bins i j)

/-- The body of `mm_init`'s loop on heap `i`, over what its page contained. -/
def initHeap (h : Heap) : Heap :=
  { lock := false
    allocated := 0
    used := 0
    binLarge := none
    -- sizeof(superblock*) * 9 * NUM_BINS, where NUM_BINS is the bare text 4 + 2
    binFirst := memsetBins (8 * 9 * 4 + 2) h.binFirst }

/-- Page and initial contents of heap `i`. -/
def setUpHeap (table : Option Nat) (s : State) (i : Nat) : Call State := do
  let (s, page) ← memSbrk s pgSize
  match table, page with
  | some _, some _ =>
    if i < pgSize / 8 then .ok (s.setHeap i initHeap)
    else .error .fault  -- the table is one page: this entry would lie in heap 0
  | _, _ => .error .fault

/-- `mm_init`, on `numCpu` processors. -/
def mmInit (numCpu raw : Nat) (s : State) : Call State := do
  let (s, table) ← memSbrk (memInit raw s) pgSize
  (List.range (numCpu + 1)).foldlM (setUpHeap table) s

end Csc469.Alloc
