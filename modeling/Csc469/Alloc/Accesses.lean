import Csc469.Alloc.Malloc
import Csc469.Traced

/-! `mm_malloc` and `mm_free` once more, recording which locks they take and what they write. -/
namespace Csc469.Alloc

open Execution Traced

/-- What a call does: a heap's lock taken or released, what `mem_sbrk` returned, a write to a
heap's bins, `used` or `allocated`, and a write to a superblock's links, `heap_id`, `block_map`
or `used_blocks` with the `heap_id` before (none for a page from `mem_sbrk`) and after it. -/
inductive Access where
  | lock (h : Nat)
  | unlock (h : Nat)
  | sbrk (ret : Option Nat)
  | heap (h : Nat)
  | superblock (a : Nat) (before : Option Nat) (after : Nat)
  deriving DecidableEq

abbrev Recorded (α : Type) : Type := Traced State Access α

namespace Recorded

def read : Recorded State := ask fun s => .ok s

def lock (h : Nat) : Recorded Unit :=
  act (fun s => (lockHeap s h).map (·, ())) fun _ _ => [.lock h]

def unlock (h : Nat) : Recorded Unit :=
  act (fun s => .ok (unlockHeap s h, ())) fun _ _ => [.unlock h]

def sbrk (increment : Nat) : Recorded (Option Nat) := do
  act (fun s => (lockSbrk s).map (·, ())) fun _ _ => []
  let tmp ← act (fun s => memSbrk s increment) fun _ r => [.sbrk r]
  silent unlockSbrk
  pure tmp

def setHeap (h : Nat) (f : Heap → Heap) : Recorded Unit :=
  act (fun s => .ok (s.setHeap h f, ())) fun _ _ => [.heap h]

def setBin (b : Bin) (p : Option Nat) : Recorded Unit :=
  act (fun s => .ok (s.setBin b p, ())) fun _ _ => [.heap b.heap]

def setSb (a : Nat) (f : Superblock → Superblock) : Recorded Unit :=
  act (fun s => .ok (s.setSb a f, ())) fun s _ =>
    [.superblock a (some (s.superblock a).heapId) (f (s.superblock a)).heapId]

def onSb (p : Option Nat) (f : Superblock → Superblock) : Recorded Unit :=
  match p with
  | some a => setSb a f
  | none => pure ()

def setNextOf (p : Option Nat) (b : Bin) (v : Option Nat) : Recorded Unit :=
  match p with
  | some a => setSb a fun sb => { sb with next := v }
  | none => setBin b v

def setNextChunk (p : Option Nat) (h : Nat) (v : Option Nat) : Recorded Unit :=
  match p with
  | some a => silent (·.setNode a fun c => { c with next := v })
  | none => setHeap h fun hp => { hp with binLarge := v }

/-- `new_superblock`, of a superblock of heap `before` or of a new page. -/
def newSuperblock (before : Option Nat) (ptr blockSize : Nat) : Recorded Unit := do
  silent (·.setType ptr 0)
  if blockSize < sizeofSuperblock * 2 then
    setHeap 0 fun h => { h with used := h.used + blocksUsed blockSize * blockSize }
  act (fun s => .ok (s.setSb ptr fun _ =>
    { blockSize := blockSize
      blockMap := headerMap blockSize
      usedBlocks := blocksUsed blockSize
      heapId := 0
      prev := none
      next := none }, ())) fun _ _ => [.superblock ptr before 0]

def transferBins (sb : Nat) (orig dest : Bin) : Recorded Unit := do
  let s ← read
  onSb (s.superblock sb).next fun b => { b with prev := (s.superblock sb).prev }
  let s ← read
  setNextOf (s.superblock sb).prev orig (s.superblock sb).next
  let s ← read
  onSb (s.bin dest) fun b => { b with prev := some sb }
  let s ← read
  setSb sb fun b => { b with next := s.bin dest, prev := none }
  setBin dest (some sb)
  if dest.heap ≠ orig.heap then
    setSb sb fun b => { b with heapId := dest.heap }
    let s ← read
    let bytesMoved := (s.superblock sb).usedBlocks * (s.superblock sb).blockSize
    setHeap orig.heap fun h =>
      { h with used := h.used - bytesMoved, allocated := h.allocated - sbSize }
    setHeap dest.heap fun h =>
      { h with used := h.used + bytesMoved, allocated := h.allocated + sbSize }

def takeGlobal (sz : Nat) : Recorded (Option (Nat × Bin)) := do
  let id := sizeId sz
  let s ← read
  match (List.range 9).findSome? fun i => (s.bin ⟨0, i, 0⟩).map (i, ·) with
  | some (i, sb) =>
    let b := s.superblock sb
    setHeap 0 fun h => { h with used := h.used - b.usedBlocks * b.blockSize }
    newSuperblock (some b.heapId) sb (sizeClass sz)
    setSb sb fun b' => { b' with next := b.next }
    pure (some (sb, ⟨0, i, 0⟩))
  | none =>
    match s.bin ⟨0, id, 1⟩ with
    | some sb => pure (some (sb, ⟨0, id, 1⟩))
    | none =>
      match ← sbrk pgSize with
      | none => pure none
      | some sb =>
        newSuperblock none sb (sizeClass sz)
        setBin ⟨0, id, 0⟩ (some sb)
        setHeap 0 fun h => { h with allocated := h.allocated + sbSize }
        pure (some (sb, ⟨0, id, 0⟩))

def rebin (sb heap id oldFullness newFullness : Nat) : Recorded Unit :=
  if newFullness ≠ oldFullness then
    transferBins sb ⟨heap, id, oldFullness⟩ ⟨heap, id, newFullness⟩
  else pure ()

def takeBlock (cpu sz sb : Nat) (useFirst : Bool) (oldFullness : Nat) :
    Recorded (Option Nat) := do
  let id := sizeId sz
  let cls := sizeClass sz
  let s ← read
  let found :=
    if useFirst then some (sb + sizeofSuperblock, 0)
    else (findBlock (s.superblock sb).blockMap cls).map fun id => (sb + id * cls, id)
  match found with
  | none => pure none
  | some (block, blockId) =>
    setSb sb fun b =>
      { b with blockMap := Bitmap.addBit b.blockMap blockId, usedBlocks := b.usedBlocks + 1 }
    setHeap (cpu + 1) fun h => { h with used := h.used + cls }
    let s ← read
    rebin sb (cpu + 1) id oldFullness (fullness (s.superblock sb).usedBlocks (sbSize / cls))
    unlock (cpu + 1)
    pure (some block)

def mallocSmall (cpu sz : Nat) : Recorded (Option Nat) := do
  lock (cpu + 1)
  match ← ask fun s => scan s (cpu + 1) sz with
  | some (sb, useFirst, oldFullness) => takeBlock cpu sz sb useFirst oldFullness
  | none =>
    lock 0
    match ← takeGlobal sz with
    | none => pure none
    | some (sb, origin) =>
      transferBins sb origin ⟨cpu + 1, sizeId sz, 1⟩
      unlock 0
      takeBlock cpu sz sb false 1

def releaseBlock (page offset : Nat) : Recorded Unit := do
  let s ← read
  let b := s.superblock page
  let blocks := sbSize / b.blockSize
  setSb page fun b =>
    { b with
      blockMap := Bitmap.subBit b.blockMap (offset / b.blockSize)
      usedBlocks := b.usedBlocks - 1 }
  setHeap b.heapId fun h => { h with used := h.used - b.blockSize }
  rebin page b.heapId (sizeId b.blockSize) (fullness b.usedBlocks blocks)
    (fullness (b.usedBlocks - 1) blocks)

def trimHeap (hid : Nat) : Recorded Unit := do
  let s ← read
  let h := s.heapTable hid
  if hid = 0 then unlock 0
  else if h.used < h.allocated.tdiv fullnessDenominator ∧
      h.used < h.allocated - minSuperblocks * sbSize then
    match handBack s hid with
    | none => ask fun _ => .error .fault
    | some (sb, origin) =>
      transferBins sb origin ⟨0, origin.cls, origin.full⟩
      unlock hid
  else unlock hid

def freeSmall (page offset : Nat) : Recorded Unit := do
  let s ← read
  let hid := (s.superblock page).heapId
  lock hid
  releaseBlock page offset
  trimHeap hid

def relink (h curr : Nat) (newNext newPrev : Option Nat) : Recorded Unit := do
  let s ← read
  setNextChunk (s.node curr).prev h newNext
  silent fun s => s.onNode (s.node curr).next fun c => { c with prev := newPrev }

def carve (curr pages : Nat) : Recorded Unit := do
  let s ← read
  if pages < (s.node curr).numPages then
    let adjusted := curr + pages * pgSize
    silent (·.setType adjusted 1)
    silent (·.setNode adjusted fun _ =>
      { numPages := (s.node curr).numPages - pages
        heapId := 0
        prev := (s.node curr).prev
        next := (s.node curr).next })
    relink 0 curr (some adjusted) (some adjusted)
  else relink 0 curr (s.node curr).next (s.node curr).prev

def pushLarge (h target : Nat) : Recorded Unit := do
  silent fun s => s.onNode (s.heapTable h).binLarge fun c => { c with prev := some target }
  silent fun s => s.setNode target fun c => { c with next := (s.heapTable h).binLarge, prev := none }
  setHeap h fun hp => { hp with binLarge := some target }

def takeLarge (pages : Nat) : Recorded (Option Nat) := do
  lock 0
  match ← ask fun s => findLarge s pages with
  | some (curr, _) =>
    carve curr pages
    unlock 0
    pure (some curr)
  | none =>
    unlock 0
    sbrk (pages * pgSize)

def handOutLarge (cpu pages target : Nat) : Recorded Unit := do
  pushLarge (cpu + 1) target
  silent (·.setType target 1)
  silent (·.setNode target fun c => { c with numPages := pages, heapId := cpu })

def mallocLarge (cpu sz : Nat) : Recorded (Option Nat) := do
  let pages := numPages sz
  if 2 ^ 31 ≤ pages then ask fun _ => .error .fault
  else
    let target ← takeLarge pages
    lock (cpu + 1)
    match target with
    | none => ask fun _ => .error .fault
    | some a =>
      handOutLarge cpu pages a
      unlock (cpu + 1)
      pure (some (a + sizeofNode))

def freeLarge (target : Nat) : Recorded Unit := do
  let s ← read
  let hid := (s.node target).heapId
  lock hid
  let s ← read
  relink hid target (s.node target).next (s.node target).prev
  unlock hid
  lock 0
  pushLarge 0 target
  unlock 0

def mmMalloc (cpu sz : Nat) : Recorded (Option Nat) :=
  if sz > sbSize / 2 then mallocLarge cpu sz else mallocSmall cpu sz

def mmFree (ptr : Nat) : Recorded Unit := do
  let s ← read
  if s.type (pageOf ptr) ≠ 0 then freeLarge (pageOf ptr)
  else freeSmall (pageOf ptr) (ptr % pgSize)

/-! What they return, and the states they lead to, are those of the model. -/

section Results
variable {s : State} {α β : Type}

@[simp] theorem ok_bind {a : α} {f : α → Call β} : ((.ok a : Call α) >>= f) = f a := rfl

@[simp] theorem result_read : read.result s = .ok (s, s) := rfl

@[simp] theorem result_lock {h : Nat} : (lock h).result s = (lockHeap s h).map (·, ()) := result_act

@[simp] theorem result_unlock {h : Nat} : (unlock h).result s = .ok (unlockHeap s h, ()) := rfl

@[simp] theorem result_setHeap {h : Nat} {f : Heap → Heap} :
    (setHeap h f).result s = .ok (s.setHeap h f, ()) := rfl

@[simp] theorem result_setBin {b : Bin} {p : Option Nat} :
    (setBin b p).result s = .ok (s.setBin b p, ()) := rfl

@[simp] theorem result_setSb {a : Nat} {f : Superblock → Superblock} :
    (setSb a f).result s = .ok (s.setSb a f, ()) := rfl

@[simp] theorem result_onSb {p : Option Nat} {f : Superblock → Superblock} :
    (onSb p f).result s = .ok (s.onSb p f, ()) := by cases p <;> rfl

@[simp] theorem result_setNextOf {p v : Option Nat} {b : Bin} :
    (setNextOf p b v).result s = .ok (s.setNextOf p b v, ()) := by cases p <;> rfl

@[simp] theorem result_setNextChunk {p v : Option Nat} {h : Nat} :
    (setNextChunk p h v).result s = .ok (s.setNextChunk p h v, ()) := by cases p <;> rfl

@[simp] theorem result_newSuperblock {before : Option Nat} {ptr blockSize : Nat} :
    (newSuperblock before ptr blockSize).result s = .ok (Alloc.newSuperblock s ptr blockSize, ()) := by
  unfold newSuperblock
  by_cases hb : blockSize < sizeofSuperblock * 2
  · simp [hb, Alloc.newSuperblock]
  · have hsame : (s.setType ptr 0).setHeap 0 (fun h => h) = s.setType ptr 0 := by
      simp [State.setHeap, State.setType]
    simp [hb, Alloc.newSuperblock, blocksUsed]
    exact congrArg (State.setSb · ptr _) hsame.symm

@[simp] theorem result_transferBins {sb : Nat} {orig dest : Bin} :
    (transferBins sb orig dest).result s = .ok (Alloc.transferBins s sb orig dest, ()) := by
  by_cases hd : dest.heap = orig.heap <;>
    simp [transferBins, hd, Alloc.transferBins, Alloc.unlinkSb, Alloc.pushSb]

@[simp] theorem result_sbrk {increment : Nat} : (sbrk increment).result s = (do
    let s ← lockSbrk s
    let (s, tmp) ← memSbrk s increment
    .ok (unlockSbrk s, tmp)) := by
  simp only [sbrk, result_bind, result_act]
  cases lockSbrk s with
  | error e => rfl
  | ok s =>
    simp only [Except.map, ok_bind]
    cases memSbrk s increment <;> rfl

@[simp] theorem result_takeGlobal {sz : Nat} :
    (takeGlobal sz).result s = Alloc.takeGlobal s sz := by
  simp only [takeGlobal, result_bind, result_read, ok_bind, Alloc.takeGlobal]
  cases (List.range 9).findSome? fun i => (s.bin ⟨0, i, 0⟩).map (i, ·) with
  | some x => simp
  | none =>
    cases s.bin ⟨0, sizeId sz, 1⟩ with
    | some sb => simp
    | none =>
      simp only [result_bind, result_sbrk]
      cases lockSbrk s with
      | error e => rfl
      | ok u =>
        simp only [ok_bind]
        cases memSbrk u pgSize with
        | error e => rfl
        | ok r =>
          obtain ⟨v, tmp⟩ := r
          cases tmp <;> simp

@[simp] theorem result_rebin {sb heap id old new : Nat} :
    (rebin sb heap id old new).result s = .ok (Alloc.rebin s sb heap id old new, ()) := by
  by_cases hne : new = old <;> simp [rebin, Alloc.rebin, hne]

@[simp] theorem result_takeBlock {cpu sz sb old : Nat} {useFirst : Bool} :
    (takeBlock cpu sz sb useFirst old).result s = .ok (Alloc.takeBlock s cpu sz sb useFirst old) := by
  simp only [takeBlock, result_bind, result_read, ok_bind, Alloc.takeBlock]
  split <;> simp_all

@[simp] theorem result_mallocSmall {cpu sz : Nat} :
    (mallocSmall cpu sz).result s = Alloc.mallocSmall s cpu sz := by
  simp only [mallocSmall, result_bind, result_lock, result_ask, Alloc.mallocSmall]
  cases lockHeap s (cpu + 1) with
  | error e => rfl
  | ok u =>
    simp only [Except.map, ok_bind]
    cases scan u (cpu + 1) sz with
    | error e => rfl
    | ok found =>
      simp only [ok_bind]
      cases found with
      | some x => simp
      | none =>
        simp only [result_bind, result_lock, result_takeGlobal]
        cases lockHeap u 0 with
        | error e => rfl
        | ok v =>
          simp only [Except.map, ok_bind]
          cases Alloc.takeGlobal v sz with
          | error e => rfl
          | ok r =>
            obtain ⟨w, target⟩ := r
            cases target <;> simp

@[simp] theorem result_releaseBlock {page offset : Nat} :
    (releaseBlock page offset).result s = .ok (Alloc.releaseBlock s page offset, ()) := by
  simp [releaseBlock, Alloc.releaseBlock]

@[simp] theorem result_trimHeap {hid : Nat} :
    (trimHeap hid).result s = (Alloc.trimHeap s hid).map (·, ()) := by
  simp only [trimHeap, result_bind, result_read, ok_bind, Alloc.trimHeap]
  split
  · simp [Except.map]
  · split
    · cases handBack s hid with
      | none => simp [Except.map]
      | some x => simp [Except.map]
    · simp [Except.map]

@[simp] theorem result_freeSmall {page offset : Nat} :
    (freeSmall page offset).result s = (Alloc.freeSmall s page offset).map (·, ()) := by
  simp only [freeSmall, result_bind, result_read, result_lock, ok_bind, Alloc.freeSmall]
  cases lockHeap s (s.superblock page).heapId with
  | error e => rfl
  | ok u => simp [Except.map]

@[simp] theorem result_relink {h curr : Nat} {newNext newPrev : Option Nat} :
    (relink h curr newNext newPrev).result s = .ok (Alloc.relink s h curr newNext newPrev, ()) := by
  simp [relink, Alloc.relink]

@[simp] theorem result_carve {curr pages : Nat} :
    (carve curr pages).result s = .ok (Alloc.carve s curr pages, ()) := by
  simp only [carve, result_bind, result_read, ok_bind, Alloc.carve]
  split <;> simp

@[simp] theorem result_pushLarge {h target : Nat} :
    (pushLarge h target).result s = .ok (Alloc.pushLarge s h target, ()) := by
  simp [pushLarge, Alloc.pushLarge]

@[simp] theorem result_takeLarge {pages : Nat} :
    (takeLarge pages).result s = Alloc.takeLarge s pages := by
  simp only [takeLarge, result_bind, result_lock, result_ask, Alloc.takeLarge]
  cases lockHeap s 0 with
  | error e => rfl
  | ok u =>
    simp only [Except.map, ok_bind]
    cases findLarge u pages with
    | error e => rfl
    | ok found =>
      simp only [ok_bind]
      cases found <;> simp

@[simp] theorem result_handOutLarge {cpu pages target : Nat} :
    (handOutLarge cpu pages target).result s = .ok (Alloc.handOutLarge s cpu pages target, ()) := by
  simp [handOutLarge, Alloc.handOutLarge]

@[simp] theorem result_mallocLarge {cpu sz : Nat} :
    (mallocLarge cpu sz).result s = Alloc.mallocLarge s cpu sz := by
  simp only [mallocLarge, Alloc.mallocLarge]
  split
  · rfl
  · simp only [result_bind, result_takeLarge, result_lock]
    cases Alloc.takeLarge s (numPages sz) with
    | error e => rfl
    | ok r =>
      obtain ⟨u, target⟩ := r
      simp only [ok_bind]
      cases lockHeap u (cpu + 1) with
      | error e => rfl
      | ok v => cases target <;> simp [Except.map]

@[simp] theorem result_freeLarge {target : Nat} :
    (freeLarge target).result s = (Alloc.freeLarge s target).map (·, ()) := by
  simp only [freeLarge, result_bind, result_read, result_lock, ok_bind, Alloc.freeLarge]
  cases lockHeap s (s.node target).heapId with
  | error e => rfl
  | ok u =>
    simp only [Except.map, ok_bind, result_relink, result_unlock]
    cases lockHeap (unlockHeap (Alloc.relink u (s.node target).heapId target (u.node target).next
      (u.node target).prev) (s.node target).heapId) 0 with
    | error e => rfl
    | ok v => simp

theorem result_mmMalloc {cpu sz : Nat} : (mmMalloc cpu sz).result s = Alloc.mmMalloc s cpu sz := by
  simp only [mmMalloc, Alloc.mmMalloc]
  split <;> simp

theorem result_mmFree {ptr : Nat} : (mmFree ptr).result s = (Alloc.mmFree s ptr).map (·, ()) := by
  simp only [mmFree, result_bind, result_read, ok_bind, Alloc.mmFree]
  split <;> simp

end Results
end Recorded
end Csc469.Alloc
