import Csc469.Chains

/-! `kheap.c`: the pool-based subpage allocator. -/
namespace Csc469.Kheap

open Execution Linked

def pageSize : Nat := 4096

/-- A 32-bit constant: as a mask it clears the upper half of an address too. -/
def pageFrame : Nat := 0xfffff000

/-- `~PAGE_FRAME`, in 32 bits. -/
def offsetMask : Nat := 0xfff

def nsizes : Nat := 9
def sizes : List Nat := [8, 16, 32, 64, 128, 256, 512, 1024, 2048]
def largestSubpageSize : Nat := 2048

/-- LP64: two pointers, a long and an int. -/
def sizeofPageref : Nat := 32

/-- `sizes[blktype]`. -/
def size (blktype : Nat) : Nat := sizes.getD blktype 0

structure Pageref where
  next : Option Nat
  flist : Option Nat
  pageaddrAndBlocktype : Nat
  nfree : Int

def prPageaddr (pr : Pageref) : Nat := pr.pageaddrAndBlocktype &&& pageFrame

def prBlocktype (pr : Pageref) : Nat := pr.pageaddrAndBlocktype &&& offsetMask

def mkpab (pa blk : Nat) : Nat := (pa &&& pageFrame) ||| (blk &&& offsetMask)

/-- The segment, the lists of pagerefs, the pagerefs by address, and the first word of every
block by its address. `refs` is what the program keeps no list of: all pagerefs so far. -/
structure State where
  dsegLo : Nat
  dsegHi : Nat
  dsegSize : Nat
  freshRefs : Option Nat
  recycledRefs : Option Nat
  sizebases : Nat → Option Nat
  ref : Nat → Pageref
  link : Nat → Option Nat
  refs : List Nat

namespace State

def setRef (s : State) (a : Nat) (f : Pageref → Pageref) : State :=
  { s with ref := Function.update s.ref a (f (s.ref a)) }

def setLink (s : State) (a : Nat) (p : Option Nat) : State :=
  { s with link := Function.update s.link a p }

end State

/-- `assert`: the program stops unless the condition holds. -/
def assert (c : Prop) [Decidable c] : Call Unit := if c then .ok () else .error .fault

/-- `mem_sbrk(PAGE_SIZE)`, which may fail at any time. -/
def memSbrk (s : State) (granted : Bool) : Option Nat × State :=
  if granted ∧ s.dsegHi + pageSize ≤ s.dsegLo + s.dsegSize then
    (some (s.dsegHi + 1), { s with dsegHi := s.dsegHi + pageSize })
  else (none, s)

/-- The loop that links `n` pagerefs behind the one at `tmp`. -/
def linkRefs : Nat → Nat → State → State
  | 0, tmp, s => s.setRef tmp fun r => { r with next := none }
  | n + 1, tmp, s =>
    linkRefs n (tmp + sizeofPageref)
      (s.setRef tmp fun r => { r with next := some (tmp + sizeofPageref) })

/-- `bzero` on a page of pagerefs. -/
def zeroPage (s : State) (a : Nat) : State :=
  { s with
    ref := fun x => if a ≤ x ∧ x < a + pageSize then ⟨none, none, 0, 0⟩ else s.ref x
    refs := s.refs ++ List.range' a (pageSize / sizeofPageref) sizeofPageref }

/-- `allocpageref`. -/
def allocpageref (s : State) (granted : Bool) : Option Nat × State :=
  match s.recycledRefs with
  | some ref => (some ref, { s with recycledRefs := (s.ref ref).next })
  | none =>
    match s.freshRefs with
    | some ref => (some ref, { s with freshRefs := (s.ref ref).next })
    | none =>
      match memSbrk s granted with
      | (none, s) => (none, s)
      | (some ref, s) =>
        let s := { zeroPage s ref with freshRefs := some (ref + sizeofPageref) }
        (some ref, linkRefs (pageSize / sizeofPageref - 2) (ref + sizeofPageref) s)

/-- `freepageref`. -/
def freepageref (s : State) (p : Nat) : State :=
  { s.setRef p fun r => { r with next := s.recycledRefs } with recycledRefs := some p }

/-- `blocktype`: the program exits when no size is large enough. -/
def blocktype (sz : Nat) : Call Nat :=
  match sizes.findIdx? (sz ≤ ·) with
  | some blktype => .ok blktype
  | none => .error .fault

/-- The loop of `subpage_kmalloc` over the pagerefs of one block type. -/
def findPage (s : State) (blktype : Nat) : Nat → Option Nat → Call (Option Nat)
  | _, none => .ok none
  | 0, some _ => .error .loops
  | n + 1, some pr => do
    assert (prBlocktype (s.ref pr) = blktype)
    if 0 < (s.ref pr).nfree then .ok (some pr)
    else findPage s blktype n (s.ref pr).next

/-- `doalloc`: the first block of the free list. -/
def doalloc (s : State) (pr : Nat) : Call (State × Option Nat) :=
  match (s.ref pr).flist with
  | none => .error .fault
  | some fl => do
    let s := s.setRef pr fun r => { r with flist := s.link fl, nfree := r.nfree - 1 }
    if (s.ref pr).flist ≠ none then do
      assert (0 < (s.ref pr).nfree)
      assert (prPageaddr (s.ref pr) ≤ fl ∧ fl < prPageaddr (s.ref pr) + pageSize)
    else assert ((s.ref pr).nfree = 0)
    .ok (s, some fl)

/-- The free list of a whole page: every block links to the one below it. -/
def buildFreelist (s : State) (fla size n : Nat) : State :=
  (List.range' 1 (n - 1)).foldl (fun s i => s.setLink (fla + i * size) (some (fla + (i - 1) * size)))
    (s.setLink fla none)

/-- The page at `prpage` becomes one of blocks of this type, and the first is allocated. -/
def newPage (s : State) (pr prpage blktype : Nat) : Call (State × Option Nat) :=
  let nfree := pageSize / size blktype
  let s := buildFreelist s prpage (size blktype) nfree
  let s := s.setRef pr fun _ =>
    { next := s.sizebases blktype
      flist := some (prpage + (nfree - 1) * size blktype)
      pageaddrAndBlocktype := mkpab prpage blktype
      nfree := nfree }
  doalloc { s with sizebases := Function.update s.sizebases blktype (some pr) } pr

/-- `subpage_kmalloc`: the flags say which calls of `mem_sbrk` it is granted. -/
def subpageKmalloc (s : State) (sz : Nat) (refGranted pageGranted : Bool) :
    Call (State × Option Nat) := do
  let blktype ← blocktype sz
  match ← findPage s blktype s.refs.length (s.sizebases blktype) with
  | some pr => doalloc s pr
  | none =>
    match allocpageref s refGranted with
    | (none, s) => .ok (s, none)
    | (some pr, s) =>
      if prPageaddr (s.ref pr) = 0 then
        match memSbrk s pageGranted with
        | (none, s) => .ok (freepageref s pr, none)
        | (some prpage, s) => newPage s pr prpage blktype
      else newPage s pr (prPageaddr (s.ref pr)) blktype

/-- The loop of `subpage_kfree` over one list of pagerefs: the one whose page has the address. -/
def findIn (s : State) (ptr : Nat) : Nat → Option Nat → Call (Option Nat)
  | _, none => .ok none
  | 0, some _ => .error .loops
  | n + 1, some pr => do
    assert (prBlocktype (s.ref pr) < nsizes)
    if prPageaddr (s.ref pr) ≤ ptr ∧ ptr < prPageaddr (s.ref pr) + pageSize then .ok (some pr)
    else findIn s ptr n (s.ref pr).next

/-- The loop of `subpage_kfree` over the block types. -/
def findOwner (s : State) (ptr : Nat) : List Nat → Call (Option Nat)
  | [] => .ok none
  | i :: is => do
    match ← findIn s ptr s.refs.length (s.sizebases i) with
    | some pr => .ok (some pr)
    | none => findOwner s ptr is

/-- The loop of `remove_lists`, behind the pageref `guy`. -/
def removeBehind (s : State) (pr : Nat) : Nat → Nat → Call State
  | 0, _ => .error .loops
  | n + 1, guy =>
    match (s.ref guy).next with
    | none => .ok s
    | some x =>
      if x = pr then .ok (s.setRef guy fun r => { r with next := (s.ref pr).next })
      else removeBehind s pr n x

/-- `remove_lists`. -/
def removeLists (s : State) (pr blktype : Nat) : Call State := do
  assert (blktype < nsizes)
  match s.sizebases blktype with
  | none => .ok s
  | some x =>
    if x = pr then
      .ok { s with sizebases := Function.update s.sizebases blktype (s.ref pr).next }
    else removeBehind s pr s.refs.length x

/-- `fill_deadbeef`, as the free lists see it. -/
def fillDeadbeef (s : State) (ptr len : Nat) : State :=
  { s with
    link := fun a => if ptr ≤ a ∧ a < ptr + len then some 0xdeadbeefdeadbeef else s.link a }

/-- `subpage_kfree`: -1 when the block is in none of the pages. -/
def subpageKfree (s : State) (ptr : Nat) : Call (State × Int) := do
  match ← findOwner s ptr (List.range nsizes) with
  | none => .ok (s, -1)
  | some pr =>
    let prpage := prPageaddr (s.ref pr)
    let blktype := prBlocktype (s.ref pr)
    let offset := ptr - prpage
    if pageSize ≤ offset ∨ offset % size blktype ≠ 0 then .error .fault
    else
      let s := fillDeadbeef s ptr (size blktype)
      let s := s.setLink ptr (s.ref pr).flist
      let s := s.setRef pr fun r => { r with flist := some ptr, nfree := r.nfree + 1 }
      assert ((s.ref pr).nfree ≤ (pageSize / size blktype : Nat))
      if (s.ref pr).nfree = (pageSize / size blktype : Nat) then
        let s ← removeLists s pr blktype
        .ok (freepageref s pr, 0)
      else .ok (s, 0)

section Calls
variable (bigKmalloc : State → Nat → Call (State × Option Nat)) (bigKfree : State → Nat → Call State)

/-- `mm_malloc`, which holds the lock throughout. -/
def mmMalloc (s : State) (sz : Nat) (refGranted pageGranted : Bool) : Call (State × Option Nat) :=
  if largestSubpageSize ≤ sz then bigKmalloc s sz else subpageKmalloc s sz refGranted pageGranted

/-- `mm_free`: what is on none of the pages is taken for a big allocation. -/
def mmFree (s : State) : Option Nat → Call State
  | none => .ok s
  | some ptr => do
    let (s, res) ← subpageKfree s ptr
    if res ≠ 0 then bigKfree s ptr else .ok s

end Calls
end Csc469.Kheap
