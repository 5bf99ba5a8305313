import Csc469.Alloc.Runs

/-! The segment of `mem_sbrk`: where it lies, how far it is used, and how large it is. Only
`mem_sbrk` changes it, and not beyond its end. -/
namespace Csc469.Alloc

open Execution

variable {n cpu sz sb a h id old new page offset pages : Nat} {s t u : State} {o d : Bin}
  {useFirst : Bool} {r p v : Option Nat} {x y : Config} {e : Event}

def State.seg (s : State) : Nat × Nat × Nat := (s.dsegLo, s.dsegHi, s.dsegSize)

/-- The segment has grown, if at all, within its size. -/
structure Extends (s t : State) : Prop where
  dsegLo : t.dsegLo = s.dsegLo
  dsegSize : t.dsegSize = s.dsegSize
  le : s.dsegHi ≤ t.dsegHi
  room : t.dsegHi = s.dsegHi ∨ t.dsegHi ≤ s.dsegLo + s.dsegSize

theorem Extends.of_seg (hs : t.seg = s.seg) : Extends s t := by
  simp only [State.seg, Prod.mk.injEq] at hs
  exact ⟨hs.1, hs.2.2, hs.2.1.ge, .inl hs.2.1⟩

theorem Extends.trans (h1 : Extends s t) (h2 : Extends t u) : Extends s u := by
  obtain ⟨l1, z1, k1, r1⟩ := h1
  obtain ⟨l2, z2, k2, r2⟩ := h2
  refine ⟨l2.trans l1, z2.trans z1, k1.trans k2, ?_⟩
  rcases r2 with r2 | r2
  · rwa [r2]
  · rw [l1, z1] at r2
    exact .inr r2

theorem Extends.before (hs : t.seg = s.seg) (he : Extends t u) : Extends s u :=
  (Extends.of_seg hs).trans he

theorem Extends.after (he : Extends s t) (hs : u.seg = t.seg) : Extends s u :=
  he.trans (Extends.of_seg hs)

/-! Writes to heaps, superblocks and chunks. -/

@[simp] theorem setHeap_seg {f : Heap → Heap} : (s.setHeap h f).seg = s.seg := rfl

@[simp] theorem setSb_seg {f : Superblock → Superblock} : (s.setSb a f).seg = s.seg := rfl

@[simp] theorem setNode_seg {f : Node → Node} : (s.setNode a f).seg = s.seg := rfl

@[simp] theorem setType_seg {k : Nat} : (s.setType a k).seg = s.seg := rfl

@[simp] theorem setBin_seg : (s.setBin o p).seg = s.seg := rfl

@[simp] theorem onSb_seg {f : Superblock → Superblock} : (s.onSb p f).seg = s.seg := by
  cases p <;> rfl

@[simp] theorem onNode_seg {f : Node → Node} : (s.onNode p f).seg = s.seg := by cases p <;> rfl

@[simp] theorem setNextOf_seg : (s.setNextOf p o v).seg = s.seg := by cases p <;> rfl

@[simp] theorem setNextChunk_seg : (s.setNextChunk p h v).seg = s.seg := by cases p <;> rfl

@[simp] theorem unlockHeap_seg : (unlockHeap s h).seg = s.seg := rfl

@[simp] theorem unlockSbrk_seg : (unlockSbrk s).seg = s.seg := rfl

@[simp] theorem newSuperblock_seg {k : Nat} : (newSuperblock s a k).seg = s.seg := rfl

@[simp] theorem transferBins_seg : (transferBins s sb o d).seg = s.seg := by
  unfold transferBins
  split <;> simp [pushSb, unlinkSb]

@[simp] theorem rebin_seg : (rebin s sb h id old new).seg = s.seg := by
  unfold rebin
  split <;> simp

@[simp] theorem relink_seg : (relink s h a p v).seg = s.seg := by simp [relink]

@[simp] theorem carve_seg : (carve s a pages).seg = s.seg := by
  unfold carve
  split <;> simp

@[simp] theorem pushLarge_seg : (pushLarge s h a).seg = s.seg := by simp [pushLarge]

@[simp] theorem handOutLarge_seg : (handOutLarge s cpu pages a).seg = s.seg := by
  simp [handOutLarge]

theorem lockHeap_seg (hl : lockHeap s h = .ok t) : t.seg = s.seg := by
  unfold lockHeap at hl
  split at hl <;> cases hl
  rfl

theorem lockSbrk_seg (hl : lockSbrk s = .ok t) : t.seg = s.seg := by
  unfold lockSbrk at hl
  split at hl <;> cases hl
  rfl

theorem takeBlock_seg (ht : takeBlock s cpu sz sb useFirst old = (t, r)) : t.seg = s.seg := by
  simp only [takeBlock] at ht
  split at ht <;> cases ht
  · rfl
  · simp

/-! Calls. -/

theorem memSbrk_extends {increment : Nat} (hm : memSbrk s increment = .ok (t, r)) :
    Extends s t := by
  simp only [memSbrk] at hm
  split at hm
  · cases hm
  · split at hm
    · cases hm
      exact .of_seg rfl
    · next hroom =>
      cases hm
      exact ⟨rfl, rfl, Nat.le_add_right _ _, .inr (Nat.le_of_not_lt hroom)⟩

theorem takeGlobal_extends {target : Option (Nat × Bin)} (ht : takeGlobal s sz = .ok (t, target)) :
    Extends s t := by
  simp only [takeGlobal] at ht
  split at ht
  · cases ht
    exact .of_seg (by simp)
  · split at ht
    · cases ht
      exact .of_seg rfl
    · obtain ⟨s1, hl, ht⟩ := ok_of_bind ht
      obtain ⟨⟨s2, tmp⟩, hm, ht⟩ := ok_of_bind ht
      have hs := (memSbrk_extends hm).before (lockSbrk_seg hl)
      cases tmp <;> cases ht <;> exact hs.after (by simp)

theorem mallocSmall_extends (hm : mallocSmall s cpu sz = .ok (t, r)) : Extends s t := by
  obtain ⟨s1, hl, hm⟩ := ok_of_bind hm
  obtain ⟨found, -, hm⟩ := ok_of_bind hm
  refine Extends.before (lockHeap_seg hl) ?_
  cases found with
  | some x => exact .of_seg (takeBlock_seg (Except.ok.inj hm))
  | none =>
    obtain ⟨s2, hl', hm⟩ := ok_of_bind hm
    obtain ⟨⟨s3, target⟩, ht, hm⟩ := ok_of_bind hm
    refine ((takeGlobal_extends ht).before (lockHeap_seg hl')).trans ?_
    cases target with
    | none =>
      cases hm
      exact .of_seg rfl
    | some x => exact .of_seg ((takeBlock_seg (Except.ok.inj hm)).trans (by simp))

theorem takeLarge_extends (ht : takeLarge s pages = .ok (t, r)) : Extends s t := by
  obtain ⟨s1, hl, ht⟩ := ok_of_bind ht
  obtain ⟨found, -, ht⟩ := ok_of_bind ht
  refine Extends.before (lockHeap_seg hl) ?_
  cases found with
  | some x =>
    cases ht
    exact .of_seg (by simp)
  | none =>
    obtain ⟨s2, hl', ht⟩ := ok_of_bind ht
    obtain ⟨⟨s3, q⟩, hm, ht⟩ := ok_of_bind ht
    cases ht
    exact ((memSbrk_extends hm).before ((lockSbrk_seg hl').trans (by simp))).after (by simp)

theorem mallocLarge_extends (hm : mallocLarge s cpu sz = .ok (t, r)) : Extends s t := by
  simp only [mallocLarge] at hm
  split at hm
  · cases hm
  obtain ⟨⟨s1, target⟩, ht, hm⟩ := ok_of_bind hm
  obtain ⟨s2, hl, hm⟩ := ok_of_bind hm
  cases target with
  | none => cases hm
  | some x =>
    cases hm
    exact (takeLarge_extends ht).after ((by simp : _ = s2.seg).trans (lockHeap_seg hl))

theorem trimHeap_seg (ht : trimHeap s h = .ok t) : t.seg = s.seg := by
  simp only [trimHeap] at ht
  split at ht
  · cases ht
    simp
  · split at ht
    · split at ht <;> cases ht
      simp
    · cases ht
      simp

theorem freeSmall_seg (hf : freeSmall s page offset = .ok t) : t.seg = s.seg := by
  obtain ⟨s1, hl, hf⟩ := ok_of_bind hf
  exact (trimHeap_seg hf).trans ((by simp [releaseBlock] : _ = s1.seg).trans (lockHeap_seg hl))

theorem freeLarge_seg (hf : freeLarge s a = .ok t) : t.seg = s.seg := by
  obtain ⟨s1, hl, hf⟩ := ok_of_bind hf
  obtain ⟨s2, hl', hf⟩ := ok_of_bind hf
  cases hf
  refine (by simp : _ = s2.seg).trans ((lockHeap_seg hl').trans ?_)
  exact (by simp : _ = s1.seg).trans (lockHeap_seg hl)

theorem step_extends (hs : Step n x e y) : Extends x.state y.state := by
  cases hs with
  | malloc hcpu hsz hm =>
    simp only [mmMalloc] at hm
    split at hm
    · exact mallocLarge_extends hm
    · exact mallocSmall_extends hm
  | free hp hf =>
    simp only [mmFree] at hf
    split at hf
    · exact .of_seg (freeLarge_seg hf)
    · exact .of_seg (freeSmall_seg hf)

/-! The whole run. -/

/-- The segment has the size that `mem_init` gives it, and is not used beyond its end. -/
structure Within (s : State) : Prop where
  size : s.dsegSize = dsegMax
  hi : s.dsegHi ≤ s.dsegLo + s.dsegSize

theorem Within.extends (hw : Within s) (he : Extends s t) : Within t := by
  obtain ⟨hz, hhi⟩ := hw
  obtain ⟨hlo, hsz, -, hroom⟩ := he
  refine ⟨hsz.trans hz, ?_⟩
  rw [hlo, hsz]
  rcases hroom with hsame | hroom
  · rwa [hsame]
  · exact hroom

theorem setUpHeap_extends {table : Option Nat} {i : Nat} (hu : setUpHeap table s i = .ok t) :
    Extends s t := by
  obtain ⟨⟨s1, page⟩, hm, hu⟩ := ok_of_bind hu
  refine (memSbrk_extends hm).trans ?_
  cases table <;> cases page <;> simp only [reduceCtorEq] at hu
  split at hu <;> cases hu
  exact .of_seg rfl

theorem setUp_extends {table : Option Nat} {l : List Nat}
    (hu : l.foldlM (setUpHeap table) s = .ok t) : Extends s t := by
  induction l generalizing s with
  | nil =>
    cases hu
    exact .of_seg rfl
  | cons i l ih =>
    rw [List.foldlM_cons] at hu
    obtain ⟨u, hi, hu⟩ := ok_of_bind hu
    exact (setUpHeap_extends hi).trans (ih hu)

theorem within_started (hc : Started n x) : Within x.state := by
  obtain ⟨raw, s, -, -, hm⟩ := hc.init
  obtain ⟨⟨s1, table⟩, hs1, hm⟩ := ok_of_bind hm
  have hinit : Within (memInit raw s) := by
    refine ⟨rfl, ?_⟩
    simp only [memInit]
    omega
  exact (hinit.extends (memSbrk_extends hs1)).extends (setUp_extends hm)

theorem within_reaches (hc : Started n x) (hr : Reaches (Step n) x y) : Within y.state :=
  hr.invariant (I := fun c => Within c.state)
    (fun _ _ _ hi hs => hi.extends (step_extends hs)) (within_started hc)

end Csc469.Alloc
