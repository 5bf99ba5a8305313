import Csc469.Alloc.Memory
import Csc469.Linked

/-! `a2alloc.c`: superblocks, bins, `mm_malloc` and `mm_free`. -/
namespace Csc469.Alloc

open Execution Linked Bitmap

/-- Blocks of this size that the header of a new superblock occupies. -/
def blocksUsed (blockSize : Nat) : Nat :=
  if blockSize < sizeofSuperblock * 2 then (sizeofSuperblock + blockSize - 1) / blockSize else 0

/-- `(char)pow(2, n) - 1`, stored in a char. -/
def lowBits (n : Nat) : BitVec 8 := BitVec.ofInt 8 ((BitVec.ofInt 8 (2 ^ n)).toInt - 1)

/-- The block map of a new superblock. -/
def headerMap (blockSize : Nat) : Nat → BitVec 8 :=
  if blockSize < sizeofSuperblock * 2 then
    if blocksUsed blockSize ≤ 8 then
      Function.update (fun _ => 0) 0 (lowBits (blocksUsed blockSize))
    else
      Function.update (Function.update (fun _ => 0) 0 (BitVec.ofInt 8 255)) 1
        (lowBits (blocksUsed blockSize % 8))
  else fun _ => 0

/-- `new_superblock`. -/
def newSuperblock (s : State) (ptr : Nat) (blockSize : Nat) : State :=
  let s := s.setType ptr 0
  let s := s.setHeap 0 fun h => { h with used := h.used + blocksUsed blockSize * blockSize }
  s.setSb ptr fun _ =>
    { blockSize := blockSize
      blockMap := headerMap blockSize
      usedBlocks := blocksUsed blockSize
      heapId := 0
      prev := none
      next := none }

/-- The first half of `transfer_bins`: take `sb` out of its bin. -/
def unlinkSb (s : State) (sb : Nat) (orig : Bin) : State :=
  let s := s.onSb (s.superblock sb).next fun b => { b with prev := (s.superblock sb).prev }
  s.setNextOf (s.superblock sb).prev orig (s.superblock sb).next

/-- The second half of `transfer_bins`: insert `sb` at the front of a bin. -/
def pushSb (s : State) (sb : Nat) (dest : Bin) : State :=
  let s := s.onSb (s.bin dest) fun b => { b with prev := some sb }
  let s := s.setSb sb fun b => { b with next := s.bin dest, prev := none }
  s.setBin dest (some sb)

/-- `transfer_bins`. -/
def transferBins (s : State) (sb : Nat) (orig dest : Bin) : State :=
  let s := pushSb (unlinkSb s sb orig) sb dest
  if dest.heap ≠ orig.heap then
    let s := s.setSb sb fun b => { b with heapId := dest.heap }
    let bytesMoved := (s.superblock sb).usedBlocks * (s.superblock sb).blockSize
    let s := s.setHeap orig.heap fun h =>
      { h with used := h.used - bytesMoved, allocated := h.allocated - sbSize }
    s.setHeap dest.heap fun h =>
      { h with used := h.used + bytesMoved, allocated := h.allocated + sbSize }
  else s

/-- `!((c >> k) % 2)` on a signed char. -/
def clearAt (c : BitVec 8) (k : Nat) : Bool := (c.toInt >>> k).tmod 2 = 0

/-- `!x` as an int. -/
def cNot (c : BitVec 8) : Nat := if c = 0 then 1 else 0

/-- `find_block`. The float `num_chars` is `4096 / (8 * block_size)`, exact for the powers
of two it is called with. -/
def findBlock (blockMap : Nat → BitVec 8) (blockSize : Nat) : Option Nat :=
  let early :=
    if sbSize < blockSize * 8 then
      -- the test parses as (!block_map[0]) % (int)pow(2, k), negated by nothing
      (List.range (sbSize / blockSize)).find? fun k => cNot (blockMap 0) % 2 ^ k ≠ 0
    else none
  match early with
  | some k => some k
  | none =>
    (List.range ((sbSize + blockSize * 8 - 1) / (blockSize * 8))).findSome? fun j =>
      if (blockMap j).toInt < 255 then
        ((List.range 8).find? (clearAt (blockMap j))).map (j * 8 + ·)
      else none

/-- The loop over `block_sizes`, in `mm_malloc` and in `mm_free`. -/
def sizeId (sz : Nat) : Nat := blockSizes.findIdx (sz ≤ ·)

def sizeClass (sz : Nat) : Nat := blockSizes.getD (sizeId sz) 8

/-- `(int)(used / blocks * FULLNESS_DENOMINATOR) + 1`: the float is exact for a power of two. -/
def fullness (used : Int) (blocks : Nat) : Nat :=
  ((fullnessDenominator * used).tdiv blocks + 1).toNat

/-- No acyclic list of the allocator is longer. -/
def maxPages (s : State) : Nat := s.dsegSize / pgSize + 1

/-- The body of `mm_malloc`'s search: whether `sb` is taken, and with `use_first` or not.
The comparisons are on `size_t`. -/
def tryBlock (sz cls : Nat) (sb : Superblock) : Option Bool :=
  let blocks : Int := (sbSize / cls : Nat)
  if (sb.blockMap 0).toInt.tmod 2 = 0 then
    if sz > (cls + 2 ^ 64 - sizeofSuperblock) % 2 ^ 64 then
      -- cant_use_first
      if (sb.usedBlocks + 1) % 2 ^ 64 < blocks then some false else none
    else some true
  else if sb.usedBlocks % 2 ^ 64 < blocks then some false else none

/-- The search of `mm_malloc` over the given bins of heap `h`: the superblock taken,
`use_first` and the bin it was found in. -/
def scanBins (s : State) (h sz : Nat) : List Nat → Call (Option (Nat × Bool × Nat))
  | [] => .ok none
  | i :: rest => do
    match ← search (fun a => some (s.superblock a)) Superblock.next (tryBlock sz (sizeClass sz))
        (maxPages s) (s.bin ⟨h, sizeId sz, i⟩) with
    | some (sb, useFirst) => .ok (some (sb, useFirst, i))
    | none => scanBins s h sz rest

/-- From the nearly full bin to the empty bin: `NUM_BINS - 2` is `4 + 2 - 2`. -/
def scan (s : State) (h sz : Nat) : Call (Option (Nat × Bool × Nat)) :=
  scanBins s h sz [4, 3, 2, 1, 0]

/-- The superblock `mm_malloc` takes from the global heap or from `mem_sbrk`, and the bin
it puts it in meanwhile; none when there is no more space. -/
def takeGlobal (s : State) (sz : Nat) : Call (State × Option (Nat × Bin)) := do
  let id := sizeId sz
  match (List.range 9).findSome? fun i => (s.bin ⟨0, i, 0⟩).map (i, ·) with
  | some (i, sb) =>
    -- reset the superblock, but keep it in the same bin
    let b := s.superblock sb
    let s := s.setHeap 0 fun h => { h with used := h.used - b.usedBlocks * b.blockSize }
    let s := newSuperblock s sb (sizeClass sz)
    let s := s.setSb sb fun b' => { b' with next := b.next }
    .ok (s, some (sb, ⟨0, i, 0⟩))
  | none =>
    match s.bin ⟨0, id, 1⟩ with
    | some sb => .ok (s, some (sb, ⟨0, id, 1⟩))
    | none =>
      let s ← lockSbrk s
      let (s, tmp) ← memSbrk s pgSize
      let s := unlockSbrk s
      match tmp with
      | none => .ok (s, none)
      | some sb =>
        let s := newSuperblock s sb (sizeClass sz)
        let s := s.setBin ⟨0, id, 0⟩ (some sb)
        let s := s.setHeap 0 fun h => { h with allocated := h.allocated + sbSize }
        .ok (s, some (sb, ⟨0, id, 0⟩))

/-- Move `sb` when its fullness bin has changed. -/
def rebin (s : State) (sb : Nat) (heap id oldFullness newFullness : Nat) : State :=
  if newFullness ≠ oldFullness then
    transferBins s sb ⟨heap, id, oldFullness⟩ ⟨heap, id, newFullness⟩
  else s

/-- The end of `mm_malloc`: take a block of `sb`, which lies in bin `oldFullness`. -/
def takeBlock (s : State) (cpu sz : Nat) (sb : Nat) (useFirst : Bool) (oldFullness : Nat) :
    State × Option Nat :=
  let id := sizeId sz
  let cls := sizeClass sz
  let found :=
    if useFirst then some (sb + sizeofSuperblock, 0)
    else (findBlock (s.superblock sb).blockMap cls).map fun id => (sb + id * cls, id)
  match found with
  | none => (s, none)
  | some (block, blockId) =>
    let s := s.setSb sb fun b =>
      { b with blockMap := addBit b.blockMap blockId, usedBlocks := b.usedBlocks + 1 }
    let s := s.setHeap (cpu + 1) fun h => { h with used := h.used + cls }
    let newFullness := fullness (s.superblock sb).usedBlocks (sbSize / cls)
    let s := rebin s sb (cpu + 1) id oldFullness newFullness
    (unlockHeap s (cpu + 1), some block)

/-- `mm_malloc` for `sz <= SB_SIZE / 2`. -/
def mallocSmall (s : State) (cpu sz : Nat) : Call (State × Option Nat) := do
  let s ← lockHeap s (cpu + 1)
  match ← scan s (cpu + 1) sz with
  | some (sb, useFirst, oldFullness) => .ok (takeBlock s cpu sz sb useFirst oldFullness)
  | none =>
    let s ← lockHeap s 0
    let (s, target) ← takeGlobal s sz
    match target with
    | none => .ok (s, none)  -- both heaps stay locked
    | some (sb, origin) =>
      let s := transferBins s sb origin ⟨cpu + 1, sizeId sz, 1⟩
      .ok (takeBlock (unlockHeap s 0) cpu sz sb false 1)

/-- The superblock that `mm_free` hands back to the global heap. -/
def handBack (s : State) (h : Nat) : Option (Nat × Bin) :=
  [0, 1].findSome? fun j => (List.range 9).findSome? fun i =>
    (s.bin ⟨h, i, j⟩).map (·, ⟨h, i, j⟩)

/-- The first part of `mm_free` on a superblock: clear the block's bit and rebin. -/
def releaseBlock (s : State) (page offset : Nat) : State :=
  let b := s.superblock page
  let hid := b.heapId
  let blocks := sbSize / b.blockSize
  let oldFullness := fullness b.usedBlocks blocks
  let newFullness := fullness (b.usedBlocks - 1) blocks
  let s := s.setSb page fun b =>
    { b with blockMap := subBit b.blockMap (offset / b.blockSize), usedBlocks := b.usedBlocks - 1 }
  let s := s.setHeap hid fun h => { h with used := h.used - b.blockSize }
  rebin s page hid (sizeId b.blockSize) oldFullness newFullness

/-- The end of `mm_free`: a heap that has become too empty hands back a superblock. -/
def trimHeap (s : State) (hid : Nat) : Call State :=
  let h := s.heapTable hid
  if hid = 0 then .ok (unlockHeap s 0)
  else if h.used < h.allocated.tdiv fullnessDenominator ∧
      h.used < h.allocated - minSuperblocks * sbSize then
    match handBack s hid with
    | none => .error .fault
    | some (sb, origin) =>
      .ok (unlockHeap (transferBins s sb origin ⟨0, origin.cls, origin.full⟩) hid)
  else .ok (unlockHeap s hid)

/-- `mm_free` on a superblock page. -/
def freeSmall (s : State) (page offset : Nat) : Call State := do
  let hid := (s.superblock page).heapId
  let s ← lockHeap s hid
  trimHeap (releaseBlock s page offset) hid

/-- `(float)n`: 24 significant bits, halves rounded to even. -/
def toFloat (n : Nat) : Nat :=
  let unit := 2 ^ (n.log2 - 23)
  let q := n / unit
  let r := n % unit
  if unit < 2 * r ∨ (2 * r = unit ∧ q % 2 = 1) then (q + 1) * unit else q * unit

/-- `num_pages` of `malloc_large`: the sum is a `size_t`. -/
def numPages (sz : Nat) : Nat := (toFloat ((sz + sizeofNode) % 2 ^ 64) + sbSize - 1) / sbSize

/-- The two writes around a large chunk that leaves its list: what comes after it, and what
came before it, in its neighbours' links or in `bin_large` of heap `h`. -/
def relink (s : State) (h : Nat) (curr : Nat) (newNext newPrev : Option Nat) : State :=
  let s := s.setNextChunk (s.node curr).prev h newNext
  s.onNode (s.node curr).next fun c => { c with prev := newPrev }

/-- Take the first `pages` pages of a free chunk; the rest stays in its place in the list. -/
def carve (s : State) (curr : Nat) (pages : Nat) : State :=
  if pages < (s.node curr).numPages then
    let adjusted := curr + pages * pgSize
    let s := s.setType adjusted 1
    let s := s.setNode adjusted fun _ =>
      { numPages := (s.node curr).numPages - pages
        heapId := 0
        prev := (s.node curr).prev
        next := (s.node curr).next }
    relink s 0 curr (some adjusted) (some adjusted)
  else relink s 0 curr (s.node curr).next (s.node curr).prev

/-- Insert a large chunk at the front of `bin_large` of heap `h`. -/
def pushLarge (s : State) (h : Nat) (target : Nat) : State :=
  let s := s.onNode (s.heapTable h).binLarge fun c => { c with prev := some target }
  let s := s.setNode target fun c => { c with next := (s.heapTable h).binLarge, prev := none }
  s.setHeap h fun hp => { hp with binLarge := some target }

/-- The search of `malloc_large` in the global heap. -/
def findLarge (s : State) (pages : Nat) : Call (Option (Nat × Unit)) :=
  search (fun a => some (s.node a)) Node.next
    (fun c => if pages ≤ c.numPages then some () else none) (maxPages s) (s.heapTable 0).binLarge

/-- The first part of `malloc_large`: space in the global heap, else from `mem_sbrk`. -/
def takeLarge (s : State) (pages : Nat) : Call (State × Option Nat) := do
  let s ← lockHeap s 0
  match ← findLarge s pages with
  | some (curr, _) => .ok (unlockHeap (carve s curr pages) 0, some curr)
  | none =>
    let s ← lockSbrk (unlockHeap s 0)
    let (s, target) ← memSbrk s (pages * pgSize)
    .ok (unlockSbrk s, target)

/-- The second part of `malloc_large`: insert the chunk into the heap's bin and initialize it. -/
def handOutLarge (s : State) (cpu pages target : Nat) : State :=
  let s := (pushLarge s (cpu + 1) target).setType target 1
  s.setNode target fun c => { c with numPages := pages, heapId := cpu }

/-- `malloc_large`. -/
def mallocLarge (s : State) (cpu sz : Nat) : Call (State × Option Nat) := do
  let pages := numPages sz
  if 2 ^ 31 ≤ pages then .error .fault  -- not an int
  else
    let (s, target) ← takeLarge s pages
    let s ← lockHeap s (cpu + 1)
    match target with
    | none => .error .fault
    | some a => .ok (unlockHeap (handOutLarge s cpu pages a) (cpu + 1), some (a + sizeofNode))

/-- `free_large`. -/
def freeLarge (s : State) (target : Nat) : Call State := do
  let hid := (s.node target).heapId
  let s ← lockHeap s hid
  let s := unlockHeap (relink s hid target (s.node target).next (s.node target).prev) hid
  let s ← lockHeap s 0
  .ok (unlockHeap (pushLarge s 0 target) 0)

/-- `mm_malloc`, called on processor `cpu`. -/
def mmMalloc (s : State) (cpu sz : Nat) : Call (State × Option Nat) :=
  if sz > sbSize / 2 then mallocLarge s cpu sz else mallocSmall s cpu sz

/-- The page of a pointer, as `mm_free` computes it. -/
def pageOf (p : Nat) : Nat := p - p % pgSize

/-- `mm_free`. -/
def mmFree (s : State) (ptr : Nat) : Call State :=
  if s.type (pageOf ptr) ≠ 0 then freeLarge s (pageOf ptr)
  else freeSmall s (pageOf ptr) (ptr % pgSize)

end Csc469.Alloc
