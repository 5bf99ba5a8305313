import Csc469.Alloc.Malloc
import Csc469.Locking

/-! `mm_malloc` and `mm_free` step by step: each statement that reads or writes what the threads
share is a step of its own, and so is each superblock or chunk that a search looks at. -/
namespace Csc469.Alloc

open Execution Linked Locking Bitmap

/-- The mutexes of the allocator. -/
inductive Mutex where
  | heap (h : Nat)
  | sbrk
  deriving DecidableEq

instance : Mutexes State Mutex where
  locked
    | s, .heap h => (s.heapTable h).lock
    | s, .sbrk => s.sbrkLock
  set
    | s, .heap h, b => s.setHeap h fun hp => { hp with lock := b }
    | s, .sbrk, b => { s with sbrkLock := b }
  locked_set_self
    | s, .heap h, b => by simp
    | _, .sbrk, _ => rfl
  locked_set_of_ne
    | s, .heap h, b, .heap k, hk => by
      have hne : k ≠ h := fun hkh => hk (congrArg Mutex.heap hkh)
      simp [hne]
    | _, .heap _, _, .sbrk, _ => rfl
    | _, .sbrk, _, .heap _, _ => rfl
    | _, .sbrk, _, .sbrk, hk => (hk rfl).elim

abbrev Program (α : Type) : Type 1 := Prog State Mutex α

namespace Threads

open Prog

def fault {α : Type} : Program α := Prog.call fun _ => .error .fault

def memSbrk (increment : Nat) : Program (Option Nat) :=
  if increment = 0 then fault  -- assert(increment > 0)
  else do
    let hi ← read State.dsegHi
    let limit ← read fun s => s.dsegLo + s.dsegSize
    if hi + increment > limit then pure none
    else
      write fun s => { s with dsegHi := hi + increment }
      pure (some (hi + 1))

/-- A call of `mem_sbrk` under `sbrk_lock`. -/
def sbrk (increment : Nat) : Program (Option Nat) := do
  take .sbrk
  let tmp ← memSbrk increment
  giveBack .sbrk
  pure tmp

def newSuperblock (ptr blockSize : Nat) : Program Unit := do
  write (·.setType ptr 0)
  write (·.setSb ptr fun b => { b with blockSize := blockSize })
  write (·.setSb ptr fun b => { b with blockMap := fun _ => 0 })
  write (·.setSb ptr fun b => { b with usedBlocks := 0 })
  if blockSize < sizeofSuperblock * 2 then
    write (·.setSb ptr fun b => { b with usedBlocks := blocksUsed blockSize })
    write (·.setSb ptr fun b => { b with blockMap := headerMap blockSize })
    write (·.setHeap 0 fun h => { h with used := h.used + blocksUsed blockSize * blockSize })
  write (·.setSb ptr fun b => { b with heapId := 0 })
  write (·.setSb ptr fun b => { b with prev := none })
  write (·.setSb ptr fun b => { b with next := none })

def unlinkSb (sb : Nat) (orig : Bin) : Program Unit := do
  let next ← read fun s => (s.superblock sb).next
  let prev ← read fun s => (s.superblock sb).prev
  write (·.onSb next fun b => { b with prev := prev })
  let prev ← read fun s => (s.superblock sb).prev
  let next ← read fun s => (s.superblock sb).next
  write (·.setNextOf prev orig next)

def pushSb (sb : Nat) (dest : Bin) : Program Unit := do
  let first ← read (·.bin dest)
  write (·.onSb first fun b => { b with prev := some sb })
  let first ← read (·.bin dest)
  write (·.setSb sb fun b => { b with next := first })
  write (·.setSb sb fun b => { b with prev := none })
  write (·.setBin dest (some sb))

def transferBins (sb : Nat) (orig dest : Bin) : Program Unit := do
  unlinkSb sb orig
  pushSb sb dest
  if dest.heap ≠ orig.heap then
    write (·.setSb sb fun b => { b with heapId := dest.heap })
    let bytesMoved ← read fun s => (s.superblock sb).usedBlocks * (s.superblock sb).blockSize
    write (·.setHeap orig.heap fun h => { h with used := h.used - bytesMoved })
    write (·.setHeap orig.heap fun h => { h with allocated := h.allocated - sbSize })
    write (·.setHeap dest.heap fun h => { h with used := h.used + bytesMoved })
    write (·.setHeap dest.heap fun h => { h with allocated := h.allocated + sbSize })

/-- The first of these bins that is not empty, with the superblock at its front. -/
def firstFilled : List Bin → Program (Option (Nat × Bin))
  | [] => pure none
  | b :: rest => do
    match ← read (·.bin b) with
    | some sb => pure (some (sb, b))
    | none => firstFilled rest

/-- Walk a list up to the first record that `test` accepts. -/
def searchList {β : Type} (test : State → Nat → Option β) (next : State → Nat → Option Nat) :
    Option Nat → Program (Option (Nat × β)) :=
  repeatFrom fun p =>
    match p with
    | none => pure (.inr none)
    | some a => do
      match ← read (test · a) with
      | some b => pure (.inr (some (a, b)))
      | none =>
        let n ← read (next · a)
        pure (.inl n)

def scanBins (h sz : Nat) : List Nat → Program (Option (Nat × Bool × Nat))
  | [] => pure none
  | i :: rest => do
    let first ← read (·.bin ⟨h, sizeId sz, i⟩)
    match ← searchList (fun s a => tryBlock sz (sizeClass sz) (s.superblock a))
        (fun s a => (s.superblock a).next) first with
    | some (sb, useFirst) => pure (some (sb, useFirst, i))
    | none => scanBins h sz rest

def takeGlobal (sz : Nat) : Program (Option (Nat × Bin)) := do
  let id := sizeId sz
  match ← firstFilled ((List.range 9).map fun i => ⟨0, i, 0⟩) with
  | some (sb, origin) =>
    let next ← read fun s => (s.superblock sb).next
    let bytes ← read fun s => (s.superblock sb).usedBlocks * (s.superblock sb).blockSize
    write (·.setHeap 0 fun h => { h with used := h.used - bytes })
    newSuperblock sb (sizeClass sz)
    write (·.setSb sb fun b => { b with next := next })
    pure (some (sb, origin))
  | none =>
    match ← read (·.bin ⟨0, id, 1⟩) with
    | some sb => pure (some (sb, ⟨0, id, 1⟩))
    | none =>
      match ← sbrk pgSize with
      | none => pure none
      | some sb =>
        newSuperblock sb (sizeClass sz)
        write (·.setBin ⟨0, id, 0⟩ (some sb))
        write (·.setHeap 0 fun h => { h with allocated := h.allocated + sbSize })
        pure (some (sb, ⟨0, id, 0⟩))

def rebin (sb heap id oldFullness newFullness : Nat) : Program Unit :=
  if newFullness ≠ oldFullness then
    transferBins sb ⟨heap, id, oldFullness⟩ ⟨heap, id, newFullness⟩
  else pure ()

/-- The block that is taken, and its bit: the bitmap is searched in one step. -/
def freeBlock (cls sb : Nat) (useFirst : Bool) : Program (Option (Nat × Nat)) :=
  if useFirst then pure (some (sb + sizeofSuperblock, 0))
  else read fun s => (findBlock (s.superblock sb).blockMap cls).map fun id => (sb + id * cls, id)

def takeBlock (cpu sz sb : Nat) (useFirst : Bool) (oldFullness : Nat) :
    Program (Option Nat) := do
  let id := sizeId sz
  let cls := sizeClass sz
  match ← freeBlock cls sb useFirst with
  | none => pure none
  | some (block, blockId) =>
    write (·.setSb sb fun b => { b with blockMap := addBit b.blockMap blockId })
    write (·.setSb sb fun b => { b with usedBlocks := b.usedBlocks + 1 })
    write (·.setHeap (cpu + 1) fun h => { h with used := h.used + cls })
    let used ← read fun s => (s.superblock sb).usedBlocks
    rebin sb (cpu + 1) id oldFullness (fullness used (sbSize / cls))
    giveBack (.heap (cpu + 1))
    pure (some block)

def mallocSmall (cpu sz : Nat) : Program (Option Nat) := do
  take (.heap (cpu + 1))
  match ← scanBins (cpu + 1) sz [4, 3, 2, 1, 0] with
  | some (sb, useFirst, oldFullness) => takeBlock cpu sz sb useFirst oldFullness
  | none =>
    take (.heap 0)
    match ← takeGlobal sz with
    | none => pure none
    | some (sb, origin) =>
      transferBins sb origin ⟨cpu + 1, sizeId sz, 1⟩
      giveBack (.heap 0)
      takeBlock cpu sz sb false 1

def releaseBlock (hid page offset : Nat) : Program Unit := do
  let size ← read fun s => (s.superblock page).blockSize
  write (·.setSb page fun b => { b with blockMap := subBit b.blockMap (offset / size) })
  let old ← read fun s =>
    fullness (s.superblock page).usedBlocks (sbSize / (s.superblock page).blockSize)
  let id ← read fun s => sizeId (s.superblock page).blockSize
  write (·.setSb page fun b => { b with usedBlocks := b.usedBlocks - 1 })
  let size ← read fun s => (s.superblock page).blockSize
  write (·.setHeap hid fun h => { h with used := h.used - size })
  let new ← read fun s =>
    fullness (s.superblock page).usedBlocks (sbSize / (s.superblock page).blockSize)
  rebin page hid id old new

/-- The bins are looked at in the order of their fullness. -/
def handBack (h : Nat) : Program (Option (Nat × Bin)) :=
  firstFilled ([0, 1].flatMap fun j => (List.range 9).map fun i => ⟨h, i, j⟩)

def trimHeap (hid : Nat) : Program Unit :=
  if hid = 0 then giveBack (.heap 0)
  else do
    let h ← read (·.heapTable hid)
    if h.used < h.allocated.tdiv fullnessDenominator ∧
        h.used < h.allocated - minSuperblocks * sbSize then
      match ← handBack hid with
      | none => fault
      | some (sb, origin) =>
        transferBins sb origin ⟨0, origin.cls, origin.full⟩
        giveBack (.heap hid)
    else giveBack (.heap hid)

def freeSmall (page offset : Nat) : Program Unit := do
  let hid ← read fun s => (s.superblock page).heapId
  take (.heap hid)
  releaseBlock hid page offset
  trimHeap hid

def relink (h curr : Nat) (newNext newPrev : Option Nat) : Program Unit := do
  let prev ← read fun s => (s.node curr).prev
  write (·.setNextChunk prev h newNext)
  let next ← read fun s => (s.node curr).next
  write (·.onNode next fun c => { c with prev := newPrev })

/-- A chunk of the global heap gives its first pages; the rest takes its place in the list. -/
def carve (curr pages : Nat) : Program Unit := do
  let all ← read fun s => (s.node curr).numPages
  if pages < all then
    let adjusted := curr + pages * pgSize
    write (·.setType adjusted 1)
    write (·.setNode adjusted fun c => { c with numPages := all - pages })
    write (·.setNode adjusted fun c => { c with heapId := 0 })
    let prev ← read fun s => (s.node curr).prev
    write (·.setNode adjusted fun c => { c with prev := prev })
    let next ← read fun s => (s.node curr).next
    write (·.setNode adjusted fun c => { c with next := next })
    relink 0 curr (some adjusted) (some adjusted)
  else
    let next ← read fun s => (s.node curr).next
    let prev ← read fun s => (s.node curr).prev
    relink 0 curr next prev

def pushLarge (h target : Nat) : Program Unit := do
  let first ← read fun s => (s.heapTable h).binLarge
  write (·.onNode first fun c => { c with prev := some target })
  let first ← read fun s => (s.heapTable h).binLarge
  write (·.setNode target fun c => { c with next := first })
  write (·.setNode target fun c => { c with prev := none })
  write (·.setHeap h fun hp => { hp with binLarge := some target })

def takeLarge (pages : Nat) : Program (Option Nat) := do
  take (.heap 0)
  let first ← read fun s => (s.heapTable 0).binLarge
  match ← searchList (fun s a => if pages ≤ (s.node a).numPages then some () else none)
      (fun s a => (s.node a).next) first with
  | some (curr, _) =>
    carve curr pages
    giveBack (.heap 0)
    pure (some curr)
  | none =>
    giveBack (.heap 0)
    sbrk (pages * pgSize)

def handOutLarge (cpu pages target : Nat) : Program Unit := do
  pushLarge (cpu + 1) target
  write (·.setType target 1)
  write (·.setNode target fun c => { c with numPages := pages })
  write (·.setNode target fun c => { c with heapId := cpu })

def mallocLarge (cpu sz : Nat) : Program (Option Nat) := do
  let pages := numPages sz
  if 2 ^ 31 ≤ pages then fault
  else
    let target ← takeLarge pages
    take (.heap (cpu + 1))
    match target with
    | none => fault
    | some a =>
      handOutLarge cpu pages a
      giveBack (.heap (cpu + 1))
      pure (some (a + sizeofNode))

def freeLarge (target : Nat) : Program Unit := do
  let hid ← read fun s => (s.node target).heapId
  take (.heap hid)
  let prev ← read fun s => (s.node target).prev
  let next ← read fun s => (s.node target).next
  write (·.setNextChunk prev hid next)
  let next ← read fun s => (s.node target).next
  let prev ← read fun s => (s.node target).prev
  write (·.onNode next fun c => { c with prev := prev })
  giveBack (.heap hid)
  take (.heap 0)
  pushLarge 0 target
  giveBack (.heap 0)

def mmMalloc (cpu sz : Nat) : Program (Option Nat) :=
  if sz > sbSize / 2 then mallocLarge cpu sz else mallocSmall cpu sz

def mmFree (ptr : Nat) : Program Unit := do
  let type ← read (·.type (pageOf ptr))
  if type ≠ 0 then freeLarge (pageOf ptr) else freeSmall (pageOf ptr) (ptr % pgSize)

/-! Run alone, they do what the calls of the model do. -/

section Alone
variable {s t : State} {α : Type} {r : Option Nat} {a h : Nat}

/-- Two writes to one superblock, made at once. -/
theorem setSb_comp {f g : Superblock → Superblock} :
    s.setSb a (fun b => g (f b)) = (s.setSb a f).setSb a g := by
  simp [State.setSb]

theorem returns_newSuperblock {ptr blockSize : Nat} :
    Returns (newSuperblock ptr blockSize) s (Alloc.newSuperblock s ptr blockSize) () := by
  by_cases hb : blockSize < sizeofSuperblock * 2
  · simp only [newSuperblock, hb, if_true, returns_write_bind, returns_write]
    simp [Alloc.newSuperblock, State.setSb, State.setHeap, State.setType]
  · simp only [newSuperblock, hb, if_false, returns_write_bind, returns_write]
    simp [Alloc.newSuperblock, State.setSb, State.setHeap, State.setType, headerMap, blocksUsed, hb]

theorem returns_unlinkSb {sb : Nat} {o : Bin} :
    Returns (unlinkSb sb o) s (Alloc.unlinkSb s sb o) () := by
  simp only [unlinkSb, returns_read_bind, returns_write_bind, returns_write]
  rfl

theorem returns_pushSb {sb : Nat} {d : Bin} :
    Returns (pushSb sb d) s (Alloc.pushSb s sb d) () := by
  simp only [pushSb, returns_read_bind, returns_write_bind, returns_write, Alloc.pushSb]
  simp [State.setSb]

theorem returns_transferBins {sb : Nat} {o d : Bin} :
    Returns (transferBins sb o d) s (Alloc.transferBins s sb o d) () := by
  refine returns_unlinkSb.bind (returns_pushSb.bind ?_)
  by_cases hd : d.heap = o.heap
  · simp only [Alloc.transferBins, hd, ne_eq, not_true_eq_false, if_false]
    exact returns_pure
  · simp only [Alloc.transferBins, hd, ne_eq, not_false_eq_true, if_true, returns_write_bind,
      returns_read_bind, returns_write]
    simp [State.setHeap]

theorem returns_firstFilled {bins : List Bin} :
    Returns (firstFilled bins) s s (bins.findSome? fun b => (s.bin b).map (·, b)) := by
  induction bins with
  | nil => exact returns_pure
  | cons b rest ih =>
    rw [firstFilled, returns_read_bind, List.findSome?_cons]
    cases s.bin b with
    | some sb => exact returns_pure
    | none => exact ih

theorem returns_searchList {β : Type} {test : State → Nat → Option β}
    {next : State → Nat → Option Nat} {link : α → Option Nat} {load : Nat → α} {f : α → Option β}
    {n : Nat} {p : Option Nat} {r : Option (Nat × β)} (htest : ∀ a, test s a = f (load a))
    (hnext : ∀ a, next s a = link (load a))
    (h : search (fun a => some (load a)) link f n p = .ok r) :
    Returns (searchList test next p) s s r := by
  induction n generalizing p with
  | zero =>
    cases p with
    | none =>
      cases h
      exact returns_repeat returns_pure ⟨rfl, rfl⟩
    | some a => cases h
  | succ n ih =>
    cases p with
    | none =>
      cases h
      exact returns_repeat returns_pure ⟨rfl, rfl⟩
    | some a =>
      simp only [search] at h
      cases hf : f (load a) with
      | some b =>
        simp only [hf] at h
        cases h
        refine returns_repeat (r := .inr (some (a, b))) ?_ ⟨rfl, rfl⟩
        rw [returns_read_bind, htest, hf]
        exact returns_pure
      | none =>
        simp only [hf, ← hnext] at h
        refine returns_repeat (r := .inl (next s a)) ?_ (ih h)
        rw [returns_read_bind, htest, hf, returns_read_bind]
        exact returns_pure

theorem returns_scanBins {sz : Nat} {bins : List Nat} {found : Option (Nat × Bool × Nat)}
    (hs : Alloc.scanBins s h sz bins = .ok found) : Returns (scanBins h sz bins) s s found := by
  induction bins with
  | nil =>
    cases hs
    exact returns_pure
  | cons i rest ih =>
    rw [Alloc.scanBins] at hs
    obtain ⟨hit, hsearch, hs⟩ := ok_of_bind hs
    rw [scanBins, returns_read_bind]
    have hlist : Returns (searchList (fun s a => tryBlock sz (sizeClass sz) (s.superblock a))
        (fun s a => (s.superblock a).next) _) s s hit :=
      returns_searchList (fun _ => rfl) (fun _ => rfl) hsearch
    refine hlist.bind ?_
    cases hit with
    | some x =>
      cases hs
      exact returns_pure
    | none => exact ih hs

theorem returns_memSbrk {increment : Nat} (hm : Alloc.memSbrk s increment = .ok (t, r)) :
    Returns (memSbrk increment) s t r := by
  unfold Alloc.memSbrk at hm
  unfold memSbrk
  split at hm
  · cases hm
  · next h0 =>
    rw [if_neg h0, returns_read_bind, returns_read_bind]
    dsimp only at hm
    split at hm
    · next hlimit =>
      cases hm
      rw [if_pos hlimit]
      exact returns_pure
    · next hlimit =>
      cases hm
      rw [if_neg hlimit, returns_write_bind]
      exact returns_pure

theorem lockHeap_ok (hl : lockHeap s h = .ok t) :
    Returns (take (.heap h) : Program Unit) s t () := by
  unfold lockHeap at hl
  split at hl
  · cases hl
  · next hfree =>
    cases hl
    exact returns_take (l := Mutex.heap h) (Bool.eq_false_of_not_eq_true hfree)

theorem lockSbrk_ok (hl : lockSbrk s = .ok t) : Returns (take .sbrk : Program Unit) s t () := by
  unfold lockSbrk at hl
  split at hl
  · cases hl
  · next hfree =>
    cases hl
    exact returns_take (l := Mutex.sbrk) (Bool.eq_false_of_not_eq_true hfree)

theorem returns_unlock : Returns (giveBack (.heap h) : Program Unit) s (unlockHeap s h) () :=
  returns_giveBack

theorem returns_sbrk {u : State} {increment : Nat} (hlock : lockSbrk s = .ok u)
    (hm : Alloc.memSbrk u increment = .ok (t, r)) :
    Returns (sbrk increment) s (unlockSbrk t) r :=
  (lockSbrk_ok hlock).bind ((returns_memSbrk hm).bind
    (Returns.bind (returns_giveBack (l := Mutex.sbrk)) returns_pure))

theorem findSome_map {l : List Nat} {f : Nat → Bin} :
    (l.map f).findSome? (fun b => (s.bin b).map (·, b)) =
      (l.findSome? fun i => (s.bin (f i)).map (i, ·)).map fun x => (x.2, f x.1) := by
  induction l with
  | nil => rfl
  | cons i rest ih =>
    rw [List.map_cons, List.findSome?_cons, List.findSome?_cons]
    cases s.bin (f i) with
    | some sb => rfl
    | none => exact ih

theorem returns_takeGlobal {sz : Nat} {found : Option (Nat × Bin)}
    (hg : Alloc.takeGlobal s sz = .ok (t, found)) : Returns (takeGlobal sz) s t found := by
  unfold Alloc.takeGlobal at hg
  refine returns_firstFilled.bind ?_
  rw [findSome_map]
  dsimp only at hg
  cases hfirst : (List.range 9).findSome? fun i => (s.bin ⟨0, i, 0⟩).map (i, ·) with
  | some x =>
    obtain ⟨i, sb⟩ := x
    rw [hfirst] at hg
    cases hg
    simp only [Option.map_some, returns_read_bind, returns_write_bind]
    refine returns_newSuperblock.bind ?_
    rw [returns_write_bind]
    exact returns_pure
  | none =>
    rw [hfirst] at hg
    simp only [Option.map_none, returns_read_bind]
    cases hquarter : s.bin ⟨0, sizeId sz, 1⟩ with
    | some sb =>
      rw [hquarter] at hg
      cases hg
      exact returns_pure
    | none =>
      rw [hquarter] at hg
      dsimp only at hg
      obtain ⟨u, hlock, hg⟩ := ok_of_bind hg
      obtain ⟨⟨v, tmp⟩, hmem, hg⟩ := ok_of_bind hg
      refine (returns_sbrk hlock hmem).bind ?_
      cases tmp with
      | none =>
        cases hg
        exact returns_pure
      | some sb =>
        cases hg
        refine returns_newSuperblock.bind ?_
        rw [returns_write_bind, returns_write_bind]
        exact returns_pure

theorem returns_rebin {sb heap id old new : Nat} :
    Returns (rebin sb heap id old new) s (Alloc.rebin s sb heap id old new) () := by
  by_cases hne : new = old
  · rw [rebin, Alloc.rebin, if_neg (by simpa using hne), if_neg (by simpa using hne)]
    exact returns_pure
  · rw [rebin, Alloc.rebin, if_pos hne, if_pos hne]
    exact returns_transferBins

theorem returns_freeBlock {cls sb : Nat} {useFirst : Bool} :
    Returns (freeBlock cls sb useFirst) s s (if useFirst then some (sb + sizeofSuperblock, 0)
      else (findBlock (s.superblock sb).blockMap cls).map fun id => (sb + id * cls, id)) := by
  cases useFirst with
  | true => exact returns_pure
  | false => exact .act rfl .done

theorem returns_takeBlock {cpu sz sb old : Nat} {useFirst : Bool}
    (hb : Alloc.takeBlock s cpu sz sb useFirst old = (t, r)) :
    Returns (takeBlock cpu sz sb useFirst old) s t r := by
  refine returns_freeBlock.bind ?_
  unfold Alloc.takeBlock at hb
  dsimp only at hb
  generalize (if useFirst then some (sb + sizeofSuperblock, 0)
    else (findBlock (s.superblock sb).blockMap (sizeClass sz)).map fun id =>
      (sb + id * sizeClass sz, id)) = found at hb ⊢
  rcases found with _ | ⟨block, blockId⟩
  · cases hb
    exact returns_pure
  · cases hb
    simp only [returns_write_bind, returns_read_bind]
    rw [← setSb_comp]
    exact returns_rebin.bind (returns_unlock.bind returns_pure)

theorem returns_mallocSmall {cpu sz : Nat} (hm : Alloc.mallocSmall s cpu sz = .ok (t, r)) :
    Returns (mallocSmall cpu sz) s t r := by
  obtain ⟨u, hlock, hm⟩ := ok_of_bind hm
  obtain ⟨found, hscan, hm⟩ := ok_of_bind hm
  refine (lockHeap_ok hlock).bind ((returns_scanBins hscan).bind ?_)
  cases found with
  | some x => exact returns_takeBlock (Except.ok.inj hm)
  | none =>
    obtain ⟨v, hlock', hm⟩ := ok_of_bind hm
    obtain ⟨⟨w, target⟩, hglobal, hm⟩ := ok_of_bind hm
    refine (lockHeap_ok hlock').bind ((returns_takeGlobal hglobal).bind ?_)
    cases target with
    | none =>
      cases hm
      exact returns_pure
    | some x =>
      obtain ⟨sb, origin⟩ := x
      exact returns_transferBins.bind (returns_unlock.bind (returns_takeBlock (Except.ok.inj hm)))

theorem returns_releaseBlock {page offset : Nat} (hh : h = (s.superblock page).heapId) :
    Returns (releaseBlock h page offset) s (Alloc.releaseBlock s page offset) () := by
  subst hh
  simp only [releaseBlock, returns_write_bind, returns_read_bind]
  rw [← setSb_comp]
  simp only [State.setSb_superblock, State.setHeap_superblock, Function.update_self]
  exact returns_rebin

theorem findSome_flatMap {l : List Nat} {f : Nat → List Bin} {g : Bin → Option α} :
    (l.flatMap f).findSome? g = l.findSome? fun j => (f j).findSome? g := by
  induction l with
  | nil => rfl
  | cons j rest ih =>
    rw [List.flatMap_cons, List.findSome?_append, List.findSome?_cons, ih]
    cases (f j).findSome? g <;> rfl

theorem returns_handBack : Returns (handBack h) s s (Alloc.handBack s h) := by
  have hbins : Returns (handBack h) s s
      (([0, 1].flatMap fun j => (List.range 9).map fun i => (⟨h, i, j⟩ : Bin)).findSome?
        fun b => (s.bin b).map (·, b)) := returns_firstFilled
  simp only [findSome_flatMap, List.findSome?_map] at hbins
  exact hbins

theorem returns_trimHeap (ht : Alloc.trimHeap s h = .ok t) : Returns (trimHeap h) s t () := by
  unfold Alloc.trimHeap at ht
  unfold trimHeap
  dsimp only at ht
  split at ht
  · next h0 =>
    cases ht
    rw [if_pos h0]
    exact returns_unlock
  · next h0 =>
    rw [if_neg h0, returns_read_bind]
    split at ht
    · next hcond =>
      rw [if_pos hcond]
      have hfirst := returns_handBack (s := s) (h := h)
      cases hb : Alloc.handBack s h with
      | none =>
        rw [hb] at ht
        cases ht
      | some x =>
        rw [hb] at ht hfirst
        cases ht
        exact hfirst.bind (returns_transferBins.bind returns_unlock)
    · next hcond =>
      rw [if_neg hcond]
      cases ht
      exact returns_unlock

theorem returns_freeSmall {page offset : Nat} (hf : Alloc.freeSmall s page offset = .ok t) :
    Returns (freeSmall page offset) s t () := by
  obtain ⟨u, hlock, hf⟩ := ok_of_bind hf
  rw [freeSmall, returns_read_bind]
  refine (lockHeap_ok hlock).bind ((returns_releaseBlock ?_).bind (returns_trimHeap hf))
  unfold lockHeap at hlock
  split at hlock
  · cases hlock
  · cases hlock
    rfl

theorem returns_relink {curr : Nat} {newNext newPrev : Option Nat} :
    Returns (relink h curr newNext newPrev) s (Alloc.relink s h curr newNext newPrev) () := by
  simp only [relink, returns_read_bind, returns_write_bind, returns_write]
  rfl

/-- Two writes to one chunk, made at once. -/
theorem setNode_comp {f g : Node → Node} :
    s.setNode a (fun c => g (f c)) = (s.setNode a f).setNode a g := by
  simp [State.setNode]

theorem returns_carve {curr pages : Nat} :
    Returns (carve curr pages) s (Alloc.carve s curr pages) () := by
  rw [carve, returns_read_bind]
  by_cases hp : pages < (s.node curr).numPages
  · simp only [Alloc.carve, hp, if_true, returns_read_bind, returns_write_bind]
    generalize hadj : curr + pages * pgSize = adjusted
    generalize hu : ((s.setType adjusted 1).setNode adjusted fun c =>
      { c with numPages := (s.node curr).numPages - pages }).setNode adjusted
        (fun c => { c with heapId := 0 }) = u
    have hprev : (u.node curr).prev = (s.node curr).prev := by
      by_cases hc : curr = adjusted <;> simp [← hu, hc]
    have hnext :
        ((u.setNode adjusted fun c => { c with prev := (s.node curr).prev }).node curr).next =
          (s.node curr).next := by
      by_cases hc : curr = adjusted <;> simp [← hu, hc]
    rw [hprev, hnext, ← hu, ← setNode_comp, ← setNode_comp, ← setNode_comp]
    exact returns_relink
  · simp only [Alloc.carve, hp, if_false, returns_read_bind]
    exact returns_relink

theorem returns_pushLarge {target : Nat} :
    Returns (pushLarge h target) s (Alloc.pushLarge s h target) () := by
  simp only [pushLarge, Alloc.pushLarge, returns_read_bind, returns_write_bind, returns_write]
  rw [← setNode_comp]

theorem returns_takeLarge {pages : Nat} (ht : Alloc.takeLarge s pages = .ok (t, r)) :
    Returns (takeLarge pages) s t r := by
  obtain ⟨u, hlock, ht⟩ := ok_of_bind ht
  obtain ⟨found, hfind, ht⟩ := ok_of_bind ht
  refine (lockHeap_ok hlock).bind ?_
  have hlist : Returns (searchList
      (fun s a => if pages ≤ (s.node a).numPages then some () else none)
      (fun s a => (s.node a).next) _) u u found :=
    returns_searchList (fun _ => rfl) (fun _ => rfl) hfind
  rw [returns_read_bind]
  refine hlist.bind ?_
  cases found with
  | some x =>
    cases ht
    exact returns_carve.bind (returns_unlock.bind returns_pure)
  | none =>
    obtain ⟨v, hlock', ht⟩ := ok_of_bind ht
    obtain ⟨⟨w, target⟩, hmem, ht⟩ := ok_of_bind ht
    cases ht
    exact returns_unlock.bind (returns_sbrk hlock' hmem)

theorem returns_handOutLarge {cpu pages target : Nat} :
    Returns (handOutLarge cpu pages target) s (Alloc.handOutLarge s cpu pages target) () := by
  refine returns_pushLarge.bind ?_
  simp only [Alloc.handOutLarge, returns_write_bind, returns_write]
  rw [← setNode_comp]

theorem returns_mallocLarge {cpu sz : Nat} (hm : Alloc.mallocLarge s cpu sz = .ok (t, r)) :
    Returns (mallocLarge cpu sz) s t r := by
  unfold Alloc.mallocLarge at hm
  unfold mallocLarge
  dsimp only at hm ⊢
  split at hm
  · cases hm
  · next hpages =>
    rw [if_neg hpages]
    obtain ⟨⟨u, target⟩, htake, hm⟩ := ok_of_bind hm
    obtain ⟨v, hlock, hm⟩ := ok_of_bind hm
    refine (returns_takeLarge htake).bind ((lockHeap_ok hlock).bind ?_)
    cases target with
    | none => cases hm
    | some a =>
      cases hm
      exact returns_handOutLarge.bind (returns_unlock.bind returns_pure)

theorem setNextChunk_prev {p v : Option Nat} {x : Nat} :
    ((s.setNextChunk p h v).node x).prev = (s.node x).prev := by
  cases p with
  | none => rfl
  | some a => by_cases hx : x = a <;> simp [State.setNextChunk, hx]

theorem returns_freeLarge {target : Nat} (hf : Alloc.freeLarge s target = .ok t) :
    Returns (freeLarge target) s t () := by
  obtain ⟨u, hlock, hf⟩ := ok_of_bind hf
  obtain ⟨v, hlock', hf⟩ := ok_of_bind hf
  cases hf
  rw [freeLarge, returns_read_bind]
  refine (lockHeap_ok hlock).bind ?_
  simp only [returns_read_bind, returns_write_bind, setNextChunk_prev]
  exact returns_unlock.bind ((lockHeap_ok hlock').bind (returns_pushLarge.bind returns_unlock))

/-- A call of `mm_malloc` that meets no other thread. -/
theorem returns_mmMalloc {cpu sz : Nat} (hm : Alloc.mmMalloc s cpu sz = .ok (t, r)) :
    Returns (mmMalloc cpu sz) s t r := by
  unfold Alloc.mmMalloc at hm
  unfold mmMalloc
  split at hm
  · next hbig =>
    rw [if_pos hbig]
    exact returns_mallocLarge hm
  · next hsmall =>
    rw [if_neg hsmall]
    exact returns_mallocSmall hm

theorem returns_mmFree {ptr : Nat} (hf : Alloc.mmFree s ptr = .ok t) :
    Returns (mmFree ptr) s t () := by
  unfold Alloc.mmFree at hf
  rw [mmFree, returns_read_bind]
  split at hf
  · next hbig =>
    rw [if_pos hbig]
    exact returns_freeLarge hf
  · next hsmall =>
    rw [if_neg hsmall]
    exact returns_freeSmall hf

end Alone
end Threads
end Csc469.Alloc
