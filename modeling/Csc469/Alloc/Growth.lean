import Csc469.Alloc.Runs
import Csc469.Tiling

/-! Growth of the segment: any sequence of `mem_sbrk` calls after `mem_init`. -/
namespace Csc469.Alloc

open Execution Tiling

/-- A call of `mem_sbrk`, with the address that it returned. -/
structure SbrkCall where
  increment : Nat
  block : Option Nat
  deriving DecidableEq

/-- `mem_sbrk` with a positive increment. -/
def SbrkStep (s : State) (e : SbrkCall) (t : State) : Prop :=
  0 < e.increment ∧ memSbrk s e.increment = .ok (t, e.block)

/-- The blocks that the calls of a run have returned: address and bytes. -/
def granted (run : List (SbrkCall × State)) : List (Nat × Nat) :=
  run.filterMap fun x => x.1.block.map fun a => (a, x.1.increment)

/-- What a run of calls from `s` is to keep to. -/
structure GrowsWell (s : State) (run : List (SbrkCall × State)) : Prop where
  consecutive : Consecutive s.dsegLo (granted run)
  disjoint : (granted run).Pairwise fun x y => x.1 + x.2 ≤ y.1 ∨ y.1 + y.2 ≤ x.1
  within : total (granted run) ≤ s.dsegSize
  refused : ∀ l e t r, run = l ++ (e, t) :: r →
    (e.block = none ↔ s.dsegSize < total (granted l) + e.increment)
  unchanged : ∀ l e t r, run = l ++ (e, t) :: r → e.block = none →
    t.dsegLo = (lastState s l).dsegLo ∧ t.dsegHi = (lastState s l).dsegHi

/-- No call asks for exactly one byte more than the segment has left. -/
def AvoidsLimit (s : State) (run : List (SbrkCall × State)) : Prop :=
  ∀ l e t r, run = l ++ (e, t) :: r → total (granted l) + e.increment ≠ s.dsegSize + 1

variable {s t : State} {e : SbrkCall} {l run : List (SbrkCall × State)} {raw : Nat}

theorem granted_concat :
    granted (l ++ [(e, t)]) = granted l ++ (e.block.map fun a => (a, e.increment)).toList := by
  cases h : e.block <;> simp [granted, h]

/-- `dseg_hi` is the last byte of the segment, but the limit is tested as if it were the first
one behind it. -/
theorem sbrkStep_cases (h : SbrkStep s e t) :
    (e.block = none ∧ t = s ∧ s.dsegLo + s.dsegSize < s.dsegHi + e.increment) ∨
    (e.block = some (s.dsegHi + 1) ∧ t = { s with dsegHi := s.dsegHi + e.increment } ∧
      s.dsegHi + e.increment ≤ s.dsegLo + s.dsegSize) := by
  obtain ⟨hpos, h⟩ := h
  rw [memSbrk, if_neg (by omega)] at h
  simp only at h
  split at h
  · next hlt =>
    obtain ⟨rfl, hb⟩ := Prod.mk.inj (Except.ok.inj h)
    exact .inl ⟨hb.symm, rfl, hlt⟩
  · next hle =>
    obtain ⟨rfl, hb⟩ := Prod.mk.inj (Except.ok.inj h)
    exact .inr ⟨hb.symm, rfl, Nat.le_of_not_lt hle⟩

theorem sbrkStep_grants {k : Nat} (hpos : 0 < k) (hfit : s.dsegHi + k ≤ s.dsegLo + s.dsegSize) :
    SbrkStep s ⟨k, some (s.dsegHi + 1)⟩ { s with dsegHi := s.dsegHi + k } := by
  refine ⟨hpos, ?_⟩
  rw [memSbrk, if_neg (Nat.ne_of_gt hpos)]
  exact if_neg (Nat.not_lt.mpr hfit)

/-- The segment accounts for every byte handed out since `s`. -/
structure Accounts (s : State) (run : List (SbrkCall × State)) : Prop where
  dsegLo : (lastState s run).dsegLo = s.dsegLo
  dsegSize : (lastState s run).dsegSize = s.dsegSize
  dsegHi : (lastState s run).dsegHi + 1 = s.dsegLo + total (granted run)
  consecutive : Consecutive s.dsegLo (granted run)

theorem accounts_step (hl : Accounts s l) (h : SbrkStep (lastState s l) e t) :
    Accounts s (l ++ [(e, t)]) := by
  obtain ⟨hlo, hsize, hhi, hc⟩ := hl
  have hlast : lastState s (l ++ [(e, t)]) = t := lastState_append
  rcases sbrkStep_cases h with ⟨hb, rfl, -⟩ | ⟨hb, rfl, -⟩
  · have hg : granted (l ++ [(e, lastState s l)]) = granted l := by simp [granted_concat, hb]
    exact ⟨by rw [hlast, hlo], by rw [hlast, hsize], by rw [hlast, hg, hhi], by rwa [hg]⟩
  · have hg := granted_concat (l := l) (e := e)
      (t := { lastState s l with dsegHi := (lastState s l).dsegHi + e.increment })
    rw [hb] at hg
    refine ⟨by rw [hlast, ← hlo], by rw [hlast, ← hsize], ?_, ?_⟩
    · rw [hlast, hg]
      simp only [Option.map_some, Option.toList_some, total_append, total_cons, total_nil]
      omega
    · rw [hg]
      exact consecutive_concat.mpr ⟨hc, by omega⟩

theorem accounts_along (hs : s.dsegHi + 1 = s.dsegLo) (hr : Along SbrkStep s run) :
    Accounts s run :=
  hr.history ⟨rfl, rfl, by simpa [granted, lastState] using hs, trivial⟩
    fun _ _ _ hl h => accounts_step hl h

theorem Accounts.before (hs : s.dsegHi + 1 = s.dsegLo) (hr : Along SbrkStep s run) :
    ∀ l e t r, run = l ++ (e, t) :: r → Accounts s l ∧ SbrkStep (lastState s l) e t := by
  rintro l e t r rfl
  obtain ⟨hl, h, -⟩ := along_append.mp hr
  exact ⟨accounts_along hs hl, h⟩

/-- The calls refuse what exceeds the segment by two bytes or more. -/
theorem Accounts.refused_iff (hl : Accounts s l) (h : SbrkStep (lastState s l) e t) :
    e.block = none ↔ s.dsegSize + 1 < total (granted l) + e.increment := by
  obtain ⟨hlo, hsize, hhi, -⟩ := hl
  rcases sbrkStep_cases h with ⟨hb, -, hlt⟩ | ⟨hb, -, hle⟩
  · simp only [hb, true_iff]
    omega
  · simp only [hb, reduceCtorEq, false_iff]
    omega

theorem memInit_empty (hraw : 0 < raw) : (memInit raw s).dsegHi + 1 = (memInit raw s).dsegLo := by
  simp only [memInit, pgSize]
  omega

theorem total_granted_le {bound : Nat}
    (h : ∀ l e t r, run = l ++ (e, t) :: r → e.block ≠ none →
      total (granted l) + e.increment ≤ bound) : total (granted run) ≤ bound := by
  induction run using List.reverseRecOn with
  | nil => simp [granted]
  | append_singleton l x ih =>
    obtain ⟨e, t⟩ := x
    have hl := ih fun l' e' t' r hrun => h l' e' t' (r ++ [(e, t)]) (by simp [hrun])
    have he := h l e t [] rfl
    rw [granted_concat, total_append]
    cases hb : e.block with
    | none => simpa using hl
    | some a => simpa [hb] using he

/-- Segment growth is as it should be exactly in the runs in which no call asks for one byte
more than is left. -/
theorem growth_iff (hraw : 0 < raw) (hr : Along SbrkStep (memInit raw s) run) :
    GrowsWell (memInit raw s) run ↔ AvoidsLimit (memInit raw s) run := by
  have hs : (memInit raw s).dsegHi + 1 = (memInit raw s).dsegLo := memInit_empty hraw
  have hbefore := Accounts.before hs hr
  constructor
  · intro hgood l e t r hrun heq
    obtain ⟨hl, h⟩ := hbefore l e t r hrun
    have hclaim := hgood.refused l e t r hrun
    have hcode := hl.refused_iff h
    have hnone : e.block = none := hclaim.mpr (by omega)
    have := hcode.mp hnone
    omega
  · intro hno
    have hc := (accounts_along hs hr).consecutive
    refine ⟨hc, hc.ordered.imp fun h => .inl h, total_granted_le ?_, ?_, ?_⟩
    · intro l e t r hrun hb
      obtain ⟨hl, h⟩ := hbefore l e t r hrun
      have hne := hno l e t r hrun
      rw [Ne, hl.refused_iff h] at hb
      omega
    · intro l e t r hrun
      obtain ⟨hl, h⟩ := hbefore l e t r hrun
      have hne := hno l e t r hrun
      rw [hl.refused_iff h]
      omega
    · intro l e t r hrun hb
      obtain ⟨-, h⟩ := hbefore l e t r hrun
      rcases sbrkStep_cases h with ⟨-, rfl, -⟩ | ⟨hb', -, -⟩
      · exact ⟨rfl, rfl⟩
      · rw [hb] at hb'
        cases hb'

theorem growth_iff_two_pages : ∃ run, granted run = [(4096, 4096), (8192, 4096)] ∧
    (GrowsWell (memInit 1 zeroState) run ↔ AvoidsLimit (memInit 1 zeroState) run) := by
  refine ⟨[(⟨4096, some 4096⟩, { memInit 1 zeroState with dsegHi := 8191 }),
    (⟨4096, some 8192⟩, { memInit 1 zeroState with dsegHi := 12287 })], rfl,
    growth_iff (by decide) ⟨?_, ?_, trivial⟩⟩
  · exact sbrkStep_grants (s := memInit 1 zeroState) (by decide) (by decide)
  · exact sbrkStep_grants (s := { memInit 1 zeroState with dsegHi := 8191 }) (by decide) (by decide)

/-- The first call may take one byte more than the whole segment. -/
theorem one_byte_too_many : ∃ run, Along SbrkStep (memInit 1 zeroState) run ∧
    granted run = [(4096, dsegMax + 1)] ∧ ¬GrowsWell (memInit 1 zeroState) run := by
  refine ⟨[(⟨dsegMax + 1, some 4096⟩, { memInit 1 zeroState with dsegHi := 4096 + dsegMax })],
    ⟨?_, trivial⟩, rfl, fun h => absurd h.within (by decide)⟩
  exact sbrkStep_grants (s := memInit 1 zeroState) (by decide) (by decide)

/-- Nothing handed out lies behind the memory that `mem_init` has allocated: it asked for two
pages more than the segment. -/
theorem granted_in_memory (hraw : 0 < raw) (hr : Along SbrkStep (memInit raw s) run) :
    ∀ b ∈ granted run, raw ≤ b.1 ∧ b.1 + b.2 ≤ raw + dsegMax + 2 * pgSize := by
  have hs : (memInit raw s).dsegHi + 1 = (memInit raw s).dsegLo := memInit_empty hraw
  have hle : total (granted run) ≤ dsegMax + 1 := total_granted_le fun l e t r hrun hb => by
    obtain ⟨hl, h⟩ := Accounts.before hs hr l e t r hrun
    rw [Ne, hl.refused_iff h] at hb
    exact Nat.le_of_not_lt hb
  intro b hb
  have hin := (accounts_along hs hr).consecutive.within b hb
  have hlo : (memInit raw s).dsegLo = (raw + pgSize - 1) / pgSize * pgSize := rfl
  simp only [pgSize] at *
  omega

end Csc469.Alloc
