import Csc469.Kheap.Subpage

/-! `kheap.c` as it is built: `-DNDEBUG` leaves its assertions out. -/
namespace Csc469.Kheap.Release

open Execution

/-- The loop of `subpage_kmalloc` over the pagerefs of one block type. -/
def findPage (s : State) : Nat → Option Nat → Call (Option Nat)
  | _, none => .ok none
  | 0, some _ => .error .loops
  | n + 1, some pr =>
    if 0 < (s.ref pr).nfree then .ok (some pr) else findPage s n (s.ref pr).next

/-- `doalloc`: the first block of the free list. -/
def doalloc (s : State) (pr : Nat) : Call (State × Option Nat) :=
  match (s.ref pr).flist with
  | none => .error .fault
  | some fl =>
    .ok (s.setRef pr fun r => { r with flist := s.link fl, nfree := r.nfree - 1 }, some fl)

/-- The page at `prpage` becomes one of blocks of this type, and the first is allocated. -/
def newPage (s : State) (pr prpage blktype : Nat) : Call (State × Option Nat) :=
  let nfree := pageSize / size blktype
  let s := buildFreelist s prpage (size blktype) nfree
  let s := s.setRef pr fun _ =>
    { next := s.sizebases blktype
      flist := some (prpage + (nfree - 1) * size blktype)
      pageaddrAndBlocktype := mkpab prpage blktype
      nfree := nfree }
  doalloc { s with sizebases := Function.update s.sizebases blktype (some pr) } pr

/-- `subpage_kmalloc`. -/
def subpageKmalloc (s : State) (sz : Nat) : Call (State × Option Nat) := do
  let blktype ← blocktype sz
  match ← findPage s s.refs.length (s.sizebases blktype) with
  | some pr => doalloc s pr
  | none =>
    match allocpageref s true with
    | (none, s) => .ok (s, none)
    | (some pr, s) =>
      if prPageaddr (s.ref pr) = 0 then
        match memSbrk s true with
        | (none, s) => .ok (freepageref s pr, none)
        | (some prpage, s) => newPage s pr prpage blktype
      else newPage s pr (prPageaddr (s.ref pr)) blktype

/-- The loop of `subpage_kfree` over one list of pagerefs: the one whose page has the address. -/
def findIn (s : State) (ptr : Nat) : Nat → Option Nat → Call (Option Nat)
  | _, none => .ok none
  | 0, some _ => .error .loops
  | n + 1, some pr =>
    if prPageaddr (s.ref pr) ≤ ptr ∧ ptr < prPageaddr (s.ref pr) + pageSize then .ok (some pr)
    else findIn s ptr n (s.ref pr).next

/-- The loop of `subpage_kfree` over the block types. -/
def findOwner (s : State) (ptr : Nat) : List Nat → Call (Option Nat)
  | [] => .ok none
  | i :: is => do
    match ← findIn s ptr s.refs.length (s.sizebases i) with
    | some pr => .ok (some pr)
    | none => findOwner s ptr is

/-- `remove_lists`. -/
def removeLists (s : State) (pr blktype : Nat) : Call State :=
  match s.sizebases blktype with
  | none => .ok s
  | some x =>
    if x = pr then
      .ok { s with sizebases := Function.update s.sizebases blktype (s.ref pr).next }
    else removeBehind s pr s.refs.length x

/-- `subpage_kfree`: -1 when the block is in none of the pages. -/
def subpageKfree (s : State) (ptr : Nat) : Call (State × Int) := do
  match ← findOwner s ptr (List.range nsizes) with
  | none => .ok (s, -1)
  | some pr =>
    let prpage := prPageaddr (s.ref pr)
    let blktype := prBlocktype (s.ref pr)
    let offset := ptr - prpage
    if pageSize ≤ offset ∨ offset % size blktype ≠ 0 then .error .fault
    else
      let s := fillDeadbeef s ptr (size blktype)
      let s := s.setLink ptr (s.ref pr).flist
      let s := s.setRef pr fun r => { r with flist := some ptr, nfree := r.nfree + 1 }
      if (s.ref pr).nfree = (pageSize / size blktype : Nat) then
        let s ← removeLists s pr blktype
        .ok (freepageref s pr, 0)
      else .ok (s, 0)

section Assertions

variable {α : Type} {s : State} {h : Option Nat} {is : List Nat} {pr prpage blktype ptr n sz : Nat}

/-- What a call that passes an assertion goes on to. -/
theorem ok_of_assert {c : Prop} [Decidable c] {f : Unit → Call α} {a : α}
    (h : (assert c >>= f) = .ok a) : f () = .ok a := by
  obtain ⟨u, -, hf⟩ := ok_of_bind h
  exact hf

theorem findPage_of_ok {x : Option Nat} (hx : Kheap.findPage s blktype n h = .ok x) :
    findPage s n h = .ok x := by
  induction n generalizing h with
  | zero => cases h <;> exact hx
  | succ n ih =>
    cases h with
    | none => exact hx
    | some pr =>
      rw [Kheap.findPage] at hx
      have hx := ok_of_assert hx
      rw [findPage]
      by_cases hfree : 0 < (s.ref pr).nfree
      · rw [if_pos hfree] at hx ⊢
        exact hx
      · rw [if_neg hfree] at hx ⊢
        exact ih hx

theorem doalloc_of_ok {x : State × Option Nat} (hx : Kheap.doalloc s pr = .ok x) :
    doalloc s pr = .ok x := by
  unfold Kheap.doalloc at hx
  unfold doalloc
  cases hfl : (s.ref pr).flist with
  | none =>
    rw [hfl] at hx
    cases hx
  | some fl =>
    simp only [hfl] at hx ⊢
    split at hx
    · exact ok_of_assert (ok_of_assert hx)
    · exact ok_of_assert hx

theorem newPage_of_ok {x : State × Option Nat} (hx : Kheap.newPage s pr prpage blktype = .ok x) :
    newPage s pr prpage blktype = .ok x := doalloc_of_ok hx

/-- A call that returns with the assertions returns the same without them. -/
theorem subpageKmalloc_of_ok {x : State × Option Nat}
    (hx : Kheap.subpageKmalloc s sz true true = .ok x) : subpageKmalloc s sz = .ok x := by
  rw [Kheap.subpageKmalloc] at hx
  obtain ⟨blktype, htype, hx⟩ := ok_of_bind hx
  obtain ⟨found, hfound, hx⟩ := ok_of_bind hx
  rw [subpageKmalloc, htype]
  refine bind_eq_ok.mpr ⟨blktype, rfl, bind_eq_ok.mpr ⟨found, findPage_of_ok hfound, ?_⟩⟩
  cases found with
  | some pr => exact doalloc_of_ok hx
  | none =>
    simp only at hx ⊢
    rcases halloc : allocpageref s true with ⟨_ | pr, t⟩
    · simpa only [halloc] using hx
    · simp only [halloc] at hx ⊢
      by_cases hpage : prPageaddr (t.ref pr) = 0
      · rw [if_pos hpage] at hx ⊢
        rcases hsbrk : memSbrk t true with ⟨_ | prpage, u⟩
        · simpa only [hsbrk] using hx
        · simp only [hsbrk] at hx ⊢
          exact newPage_of_ok hx
      · rw [if_neg hpage] at hx ⊢
        exact newPage_of_ok hx

theorem findIn_of_ok {x : Option Nat} (hx : Kheap.findIn s ptr n h = .ok x) :
    findIn s ptr n h = .ok x := by
  induction n generalizing h with
  | zero => cases h <;> exact hx
  | succ n ih =>
    cases h with
    | none => exact hx
    | some pr =>
      rw [Kheap.findIn] at hx
      have hx := ok_of_assert hx
      rw [findIn]
      split at hx
      · rwa [if_pos (by assumption)]
      · rw [if_neg (by assumption)]
        exact ih hx

theorem findOwner_of_ok {x : Option Nat} (hx : Kheap.findOwner s ptr is = .ok x) :
    findOwner s ptr is = .ok x := by
  induction is with
  | nil => exact hx
  | cons i is ih =>
    rw [Kheap.findOwner] at hx
    obtain ⟨found, hfound, hx⟩ := ok_of_bind hx
    refine bind_eq_ok.mpr ⟨found, findIn_of_ok hfound, ?_⟩
    cases found with
    | some pr => exact hx
    | none => exact ih hx

theorem removeLists_of_ok {t : State} (ht : Kheap.removeLists s pr blktype = .ok t) :
    removeLists s pr blktype = .ok t := ok_of_assert ht

theorem subpageKfree_of_ok {x : State × Int} (hx : Kheap.subpageKfree s ptr = .ok x) :
    subpageKfree s ptr = .ok x := by
  rw [Kheap.subpageKfree] at hx
  obtain ⟨found, hfound, hx⟩ := ok_of_bind hx
  refine bind_eq_ok.mpr ⟨found, findOwner_of_ok hfound, ?_⟩
  cases found with
  | none => exact hx
  | some pr =>
    simp only at hx ⊢
    split at hx
    · cases hx
    · rename_i hoffset
      rw [if_neg hoffset]
      have hx := ok_of_assert hx
      split at hx
      · rename_i hfull
        rw [if_pos hfull]
        obtain ⟨t, ht, hx⟩ := ok_of_bind hx
        exact bind_eq_ok.mpr ⟨t, removeLists_of_ok ht, hx⟩
      · rename_i hfull
        rw [if_neg hfull]
        exact hx

end Assertions
end Csc469.Kheap.Release
