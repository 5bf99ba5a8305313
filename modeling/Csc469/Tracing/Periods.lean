import Mathlib.Data.List.Chain
import Mathlib.Logic.Function.Basic

/-! The tracer of active and inactive periods, which it tells apart by the gaps between
readings of the cycle counter. -/
namespace Csc469.Tracing

/-- A line of the report; the time in milliseconds is left out. -/
structure Period where
  active : Bool
  number : Nat
  start : UInt64
  duration : UInt64
  deriving DecidableEq, Repr

/-- The variables after the inner loop, and the readings still to come. `changed`: it was left
by one of its two `break`s. -/
structure Scan where
  sum : UInt64
  prev : UInt64
  difference : UInt64
  changed : Bool
  rest : List UInt64

/-- The inner loop; `none` when the readings run out in it. -/
def scan (threshold : UInt64) (active : Bool) :
    UInt64 → UInt64 → UInt64 → List UInt64 → Option Scan
  | _, _, _, [] => none
  | sum, prev, difference, next :: rest =>
    if next = 0 then some ⟨sum, prev, difference, false, rest⟩
    else
      let difference := next - prev
      if difference > threshold ∧ active then some ⟨sum, prev, difference, true, rest⟩
      else if difference < threshold ∧ !active then some ⟨sum, prev, difference, true, rest⟩
      else scan threshold active (sum + difference) next difference rest

/-- What has been printed and stored, and the value returned, unless the readings ran out. -/
structure Trace where
  reports : List Period
  samples : Nat → UInt64
  returned : Option UInt64

/-- `samples[i] = start; samples[i+1] = prev;` -/
def store (samples : Nat → UInt64) (i : Nat) (start prev : UInt64) : Nat → UInt64 :=
  Function.update (Function.update samples i start) (i + 1) prev

/-- The outer loop, with `rounds` of its rounds left. -/
def trace (threshold : UInt64) :
    (rounds i : Nat) → Bool → UInt64 → (Nat → UInt64) → List UInt64 → Trace
  | 0, _, _, _, samples, _ => ⟨[], samples, some (samples 0)⟩
  | _ + 1, _, _, _, samples, [] => ⟨[], samples, none⟩
  | rounds + 1, i, active, difference, samples, start :: readings =>
    match scan threshold active difference start difference readings with
    | none => ⟨[], samples, none⟩
    | some s =>
      if s.changed then
        let samples := if active then store samples i start s.prev else samples
        let t := trace threshold rounds (i + 1) (!active) s.difference samples s.rest
        { t with reports := ⟨active, i / 2, start, s.sum⟩ :: t.reports }
      else trace threshold rounds (i + 1) active s.difference samples s.rest

/-- `i < num*2` -/
def rounds (num : Int32) : Nat := (num * 2).toInt.toNat

/-- `inactive_periods` on the values that `get_counter` returns one after another. -/
def inactivePeriods (num : Int32) (threshold : UInt64) (samples : Nat → UInt64)
    (readings : List UInt64) : Trace :=
  trace threshold (rounds num) 0 true 0 samples readings

/-! The readings cut into periods. -/

/-- The readings of one period; `last` is the one that ends it. -/
structure Block where
  start : UInt64
  more : List UInt64
  last : UInt64

namespace Block

def readings (b : Block) : List UInt64 := b.start :: (b.more ++ [b.last])

/-- The last reading before the gap that ends the period. -/
def prev (b : Block) : UInt64 := b.more.getLastD b.start

/-- The gap that ends the period. -/
def gap (b : Block) : Nat := b.last.toNat - b.prev.toNat

end Block

/-- The gaps that end an active period, or an inactive one. A gap of exactly `threshold`
ends neither. -/
def Crosses (threshold : UInt64) (active : Bool) (x y : UInt64) : Prop :=
  if active then threshold.toNat < y.toNat - x.toNat else y.toNat - x.toNat < threshold.toNat

structure IsBlock (threshold : UInt64) (active : Bool) (b : Block) : Prop where
  stays : (b.start :: b.more).IsChain fun x y => ¬Crosses threshold active x y
  ends : Crosses threshold active b.prev b.last

def Alternating (threshold : UInt64) : Bool → List Block → Prop
  | _, [] => True
  | active, b :: rest => IsBlock threshold active b ∧ Alternating threshold (!active) rest

/-- The reports of a list of periods, when `seed` is the gap before them. -/
def reportsOf : Nat → Bool → UInt64 → List Block → List Period
  | _, _, _, [] => []
  | i, active, seed, b :: rest =>
    ⟨active, i / 2, b.start, seed + (b.prev - b.start)⟩ ::
      reportsOf (i + 1) (!active) (b.last - b.prev) rest

/-- What is to hold of the reports: they alternate, an active period first, and no interval
reaches into the next one. -/
structure WellTraced (reports : List Period) : Prop where
  alternate : ∀ k p, reports[k]? = some p → (p.active = true ↔ k % 2 = 0)
  ordered : ∀ k p q, reports[k]? = some p → reports[k + 1]? = some q →
    p.start.toNat + p.duration.toNat ≤ q.start.toNat

/-- No gap that ends an active period is longer than what lies between the last but one reading
of the inactive period and the reading after it. Only the first `n` periods count. -/
def ShortGaps (threshold : UInt64) (n : Nat) (readings : List UInt64) : Prop :=
  ∀ blocks rest, readings = blocks.flatMap Block.readings ++ rest →
    Alternating threshold true blocks → blocks.length ≤ n →
      ∀ k a b c, blocks[2 * k]? = some a → blocks[2 * k + 1]? = some b →
        blocks[2 * k + 2]? = some c → a.gap + b.prev.toNat ≤ c.start.toNat

variable {threshold sum prev difference last seed : UInt64} {active : Bool}
  {more rest readings : List UInt64} {samples : Nat → UInt64} {n i k : Nat} {s : Scan}
  {a b c : Block} {blocks : List Block} {num : Int32}

theorem crosses_iff {x y : UInt64} (h : x < y) : Crosses threshold active x y ↔
    y - x > threshold ∧ active = true ∨ y - x < threshold ∧ (!active) = true := by
  have hsub : (y - x).toNat = y.toNat - x.toNat := UInt64.toNat_sub_of_le _ _ (UInt64.le_of_lt h)
  cases active <;> simp [Crosses, UInt64.lt_iff_toNat_lt, hsub]

theorem ne_zero_of_lt {x y : UInt64} (h : x < y) : y ≠ 0 := by
  rintro rfl
  exact absurd h (by simp)

/-- What the inner loop does with one reading. -/
theorem scan_cons {next : UInt64} (h : prev < next) :
    (Crosses threshold active prev next → scan threshold active sum prev difference (next :: rest) =
      some ⟨sum, prev, next - prev, true, rest⟩) ∧
    (¬Crosses threshold active prev next →
      scan threshold active sum prev difference (next :: rest) =
        scan threshold active (sum + (next - prev)) next (next - prev) rest) := by
  rw [scan, if_neg (ne_zero_of_lt h), crosses_iff h]
  constructor
  · rintro (hc | hc)
    · simp only [if_pos hc]
    · simp only [if_pos hc, ite_self]
  · intro hc
    rw [not_or] at hc
    simp only [if_neg hc.1, if_neg hc.2]

/-- The inner loop runs through a whole period, adding up what lies between its first reading and
its last but one. -/
theorem scan_block (hinc : (prev :: (more ++ last :: rest)).IsChain (· < ·))
    (hstays : (prev :: more).IsChain fun x y => ¬Crosses threshold active x y)
    (hends : Crosses threshold active (more.getLastD prev) last) :
    scan threshold active sum prev difference (more ++ last :: rest) =
      some ⟨sum + (more.getLastD prev - prev), more.getLastD prev, last - more.getLastD prev,
        true, rest⟩ := by
  induction more generalizing sum prev difference with
  | nil =>
    obtain ⟨hlt, -⟩ := List.isChain_cons_cons.mp hinc
    rw [List.nil_append, (scan_cons hlt).1 hends]
    simp
  | cons next more ih =>
    obtain ⟨hlt, hinc⟩ := List.isChain_cons_cons.mp hinc
    obtain ⟨hstay, hstays⟩ := List.isChain_cons_cons.mp hstays
    rw [List.getLastD_cons] at hends
    have hsum : sum + (next - prev) + (more.getLastD next - next) =
        sum + (more.getLastD next - prev) := by grind
    rw [List.cons_append, (scan_cons hlt).2 hstay, ih hinc hstays hends, List.getLastD_cons, hsum]

/-- When it ends, it has run through a period. -/
theorem block_of_scan (hinc : (prev :: readings).IsChain (· < ·))
    (hs : scan threshold active sum prev difference readings = some s) :
    ∃ more last, readings = more ++ last :: s.rest ∧
      (prev :: more).IsChain (fun x y => ¬Crosses threshold active x y) ∧
      Crosses threshold active (more.getLastD prev) last := by
  induction readings generalizing sum prev difference with
  | nil => cases hs
  | cons next readings ih =>
    obtain ⟨hlt, hinc⟩ := List.isChain_cons_cons.mp hinc
    by_cases hc : Crosses threshold active prev next
    · rw [(scan_cons hlt).1 hc] at hs
      cases hs
      exact ⟨[], next, rfl, List.isChain_singleton _, hc⟩
    · rw [(scan_cons hlt).2 hc] at hs
      obtain ⟨more, last, rfl, hstays, hends⟩ := ih hinc hs
      exact ⟨next :: more, last, rfl, List.isChain_cons_cons.mpr ⟨hc, hstays⟩,
        by rwa [List.getLastD_cons]⟩

theorem trace_block (n i : Nat) (seed : UInt64) (samples : Nat → UInt64)
    (hb : IsBlock threshold active b) (hinc : (b.readings ++ rest).IsChain (· < ·)) :
    ∃ samples', (trace threshold (n + 1) i active seed samples (b.readings ++ rest)).reports =
      ⟨active, i / 2, b.start, seed + (b.prev - b.start)⟩ ::
        (trace threshold n (i + 1) (!active) (b.last - b.prev) samples' rest).reports := by
  have hreadings : b.readings ++ rest = b.start :: (b.more ++ b.last :: rest) := by
    simp [Block.readings]
  rw [hreadings] at hinc ⊢
  rw [trace, scan_block hinc hb.stays hb.ends]
  exact ⟨_, rfl⟩

/-- Whatever periods the readings begin with, they are the first ones reported. -/
theorem reportsOf_prefix (hb : Alternating threshold active blocks) (hn : blocks.length ≤ n)
    (hinc : (blocks.flatMap Block.readings ++ rest).IsChain (· < ·)) :
    reportsOf i active seed blocks <+:
      (trace threshold n i active seed samples (blocks.flatMap Block.readings ++ rest)).reports := by
  induction blocks generalizing n i active seed samples with
  | nil => exact List.nil_prefix
  | cons b blocks ih =>
    obtain ⟨hb, hblocks⟩ := hb
    obtain ⟨m, rfl⟩ : ∃ m, n = m + 1 := ⟨n - 1, by simp only [List.length_cons] at hn; omega⟩
    rw [List.flatMap_cons, List.append_assoc] at hinc ⊢
    obtain ⟨samples', h⟩ := trace_block m i seed samples hb hinc
    rw [h, reportsOf, List.prefix_cons_inj]
    exact ih hblocks (Nat.le_of_succ_le_succ hn) hinc.right_of_append

/-- What is reported are the periods that the readings begin with. -/
theorem exists_blocks (threshold : UInt64) (n i : Nat) (active : Bool) (seed : UInt64)
    (samples : Nat → UInt64) (hinc : readings.IsChain (· < ·)) : ∃ blocks rest,
    readings = blocks.flatMap Block.readings ++ rest ∧ Alternating threshold active blocks ∧
      blocks.length ≤ n ∧
      (trace threshold n i active seed samples readings).reports =
        reportsOf i active seed blocks := by
  induction n generalizing i active seed samples readings with
  | zero => exact ⟨[], readings, rfl, trivial, Nat.le_refl 0, rfl⟩
  | succ n ih =>
    have hnone : (trace threshold (n + 1) i active seed samples readings).reports = [] →
        ∃ blocks rest, readings = blocks.flatMap Block.readings ++ rest ∧
          Alternating threshold active blocks ∧ blocks.length ≤ n + 1 ∧
          (trace threshold (n + 1) i active seed samples readings).reports =
            reportsOf i active seed blocks :=
      fun h => ⟨[], readings, rfl, trivial, Nat.zero_le _, h⟩
    cases readings with
    | nil => exact hnone rfl
    | cons start readings =>
      cases hs : scan threshold active seed start seed readings with
      | none => exact hnone (by rw [trace, hs])
      | some s =>
        obtain ⟨more, last, rfl, hstays, hends⟩ := block_of_scan hinc hs
        let b : Block := ⟨start, more, last⟩
        have hb : IsBlock threshold active b := ⟨hstays, hends⟩
        have hreadings : start :: (more ++ last :: s.rest) = b.readings ++ s.rest := by
          simp [b, Block.readings]
        rw [hreadings] at hinc ⊢
        obtain ⟨samples', h⟩ := trace_block n i seed samples hb hinc
        obtain ⟨blocks, rest, hrest, hblocks, hlen, hreports⟩ :=
          ih (i + 1) (!active) (b.last - b.prev) samples' hinc.right_of_append
        refine ⟨b :: blocks, rest, ?_, ⟨hb, hblocks⟩, Nat.succ_le_succ hlen, ?_⟩
        · rw [List.flatMap_cons, List.append_assoc, ← hrest]
        · rw [h, hreports, reportsOf]

/-- The gap before period `k`. -/
def seedAt (seed : UInt64) (blocks : List Block) : Nat → UInt64
  | 0 => seed
  | k + 1 => (blocks[k]?.map fun b => b.last - b.prev).getD 0

def activeAt (active : Bool) (k : Nat) : Bool := if k % 2 = 0 then active else !active

theorem activeAt_succ : activeAt active (k + 1) = activeAt (!active) k := by
  unfold activeAt
  rcases Nat.mod_two_eq_zero_or_one k with h | h
  · rw [if_neg (by omega), if_pos h]
  · rw [if_pos (by omega), if_neg (by omega), Bool.not_not]

theorem reportsOf_getElem? (i : Nat) (active : Bool) (seed : UInt64) (blocks : List Block)
    (k : Nat) : (reportsOf i active seed blocks)[k]? = blocks[k]?.map fun b =>
    ⟨activeAt active k, (i + k) / 2, b.start, seedAt seed blocks k + (b.prev - b.start)⟩ := by
  induction blocks generalizing i active seed k with
  | nil => rfl
  | cons b blocks ih =>
    cases k with
    | zero => rfl
    | succ k =>
      have hseed : seedAt seed (b :: blocks) (k + 1) = seedAt (b.last - b.prev) blocks k := by
        cases k <;> rfl
      rw [reportsOf, List.getElem?_cons_succ, ih, List.getElem?_cons_succ, activeAt_succ, hseed,
        show i + 1 + k = i + (k + 1) by omega]

theorem Alternating.isBlock (hb : Alternating threshold active blocks)
    (ha : blocks[k]? = some a) : IsBlock threshold (activeAt active k) a := by
  induction blocks generalizing active k with
  | nil => cases ha
  | cons b blocks ih =>
    cases k with
    | zero =>
      cases ha
      exact hb.1
    | succ k =>
      rw [activeAt_succ]
      exact ih hb.2 ha

theorem prev_mem : b.prev ∈ b.start :: b.more := List.getLastD_mem_cons

theorem increasing_at (hinc : (blocks.flatMap Block.readings).Pairwise (· < ·))
    (ha : blocks[k]? = some a) : a.start ≤ a.prev ∧ a.prev < a.last ∧
      ∀ b, blocks[k + 1]? = some b → a.last < b.start := by
  induction blocks generalizing k with
  | nil => cases ha
  | cons x blocks ih =>
    rw [List.flatMap_cons] at hinc
    obtain ⟨hx, hinc, hcross⟩ := List.pairwise_append.mp hinc
    cases k with
    | succ k => exact ih hinc ha
    | zero =>
      cases ha
      have hx' : ((a.start :: a.more) ++ [a.last]).Pairwise (· < ·) := hx
      obtain ⟨hbody, -, hlast⟩ := List.pairwise_append.mp hx'
      refine ⟨?_, hlast _ prev_mem _ (by simp), fun b hb => ?_⟩
      · rcases List.mem_cons.mp (prev_mem (b := a)) with h | h
        · exact UInt64.le_of_eq h.symm
        · exact UInt64.le_of_lt ((List.pairwise_cons.mp hbody).1 _ h)
      · refine hcross _ (by simp [Block.readings]) _ (List.mem_flatMap.mpr ⟨b, ?_, ?_⟩)
        · exact List.mem_of_getElem? hb
        · simp [Block.readings]

/-- Nothing wraps in the sum of a period: it is at most its last but one reading. -/
theorem duration_toNat (hseed : seed.toNat ≤ b.start.toNat) (hle : b.start ≤ b.prev) :
    b.start.toNat + (seed + (b.prev - b.start)).toNat = seed.toNat + b.prev.toNat := by
  have hsub := UInt64.toNat_sub_of_le _ _ hle
  have hle' := UInt64.le_iff_toNat_le.mp hle
  have hlt := UInt64.toNat_lt b.prev
  rw [UInt64.toNat_add, hsub, Nat.mod_eq_of_lt (by omega)]
  omega

theorem gap_toNat (hlt : b.prev < b.last) : (b.last - b.prev).toNat = b.gap :=
  UInt64.toNat_sub_of_le _ _ (UInt64.le_of_lt hlt)

theorem exists_before (hb : blocks[k + 1]? = some b) : ∃ a, blocks[k]? = some a := by
  obtain ⟨hlt, -⟩ := List.getElem?_eq_some_iff.mp hb
  exact ⟨blocks[k], List.getElem?_eq_getElem (Nat.lt_of_succ_lt hlt)⟩

theorem seedAt_succ (ha : blocks[k]? = some a) : seedAt seed blocks (k + 1) = a.last - a.prev := by
  simp [seedAt, ha]

/-- The gap before a period ends before it starts. -/
theorem seedAt_le (hinc : (blocks.flatMap Block.readings).Pairwise (· < ·))
    (hb : blocks[k]? = some b) : (seedAt 0 blocks k).toNat ≤ b.start.toNat := by
  cases k with
  | zero => exact Nat.zero_le _
  | succ k =>
    obtain ⟨a, ha⟩ := exists_before hb
    obtain ⟨-, hlast, hnext⟩ := increasing_at hinc ha
    have := UInt64.lt_iff_toNat_lt.mp (hnext b hb)
    rw [seedAt_succ ha, gap_toNat hlast, Block.gap]
    omega

/-- Two reported intervals are disjoint when the gap before the first is no longer than what lies
between its last but one reading and the start of the second. -/
theorem disjoint_iff (hinc : (blocks.flatMap Block.readings).Pairwise (· < ·))
    (hb : blocks[k]? = some b) :
    b.start.toNat + (seedAt 0 blocks k + (b.prev - b.start)).toNat ≤ n ↔
      (seedAt 0 blocks k).toNat + b.prev.toNat ≤ n := by
  rw [duration_toNat (seedAt_le hinc hb) (increasing_at hinc hb).1]

/-- The gap before an active period did not exceed the threshold, and the one after it does. -/
theorem active_disjoint (hblocks : Alternating threshold true blocks)
    (hinc : (blocks.flatMap Block.readings).Pairwise (· < ·)) (hk : k % 2 = 0)
    (hb : blocks[k]? = some b) (hc : blocks[k + 1]? = some c) :
    (seedAt 0 blocks k).toNat + b.prev.toNat ≤ c.start.toNat := by
  have hends := (hblocks.isBlock hb).ends
  obtain ⟨-, hlast, hnext⟩ := increasing_at hinc hb
  have hstart := UInt64.lt_iff_toNat_lt.mp (hnext c hc)
  rw [activeAt, if_pos hk] at hends
  simp only [Crosses, if_true] at hends
  suffices hseed : (seedAt 0 blocks k).toNat ≤ threshold.toNat by omega
  cases k with
  | zero => exact Nat.zero_le _
  | succ j =>
    obtain ⟨a, ha⟩ := exists_before hb
    have hbefore := (hblocks.isBlock ha).ends
    rw [activeAt, if_neg (by omega)] at hbefore
    simp only [Crosses, Bool.not_true, Bool.false_eq_true, if_false] at hbefore
    rw [seedAt_succ ha, gap_toNat (increasing_at hinc ha).2.1, Block.gap]
    exact Nat.le_of_lt hbefore

/-- The periods alternate, and their intervals are disjoint exactly when no inactive period is
followed too soon by the next reading. -/
theorem periods_traced_iff (hinc : readings.Pairwise (· < ·)) :
    WellTraced (inactivePeriods num threshold samples readings).reports ↔
      ShortGaps threshold (rounds num) readings := by
  have hchain := List.isChain_iff_pairwise.mpr hinc
  constructor
  · rintro hw blocks rest rfl hblocks hlen k a b c ha hb hc
    have hinc' := (List.pairwise_append.mp hinc).1
    have hpre : reportsOf 0 true 0 blocks <+: (inactivePeriods num threshold samples _).reports :=
      reportsOf_prefix hblocks hlen hchain
    have hreport : ∀ j x, blocks[j]? = some x → (inactivePeriods num threshold samples
        (blocks.flatMap Block.readings ++ rest)).reports[j]? = some (Period.mk (activeAt true j)
          ((0 + j) / 2) x.start (seedAt 0 blocks j + (x.prev - x.start))) := by
      intro j x hx
      have hj := reportsOf_getElem? 0 true 0 blocks j
      rw [hx, Option.map_some] at hj
      obtain ⟨hlt, hj⟩ := List.getElem?_eq_some_iff.mp hj
      rw [List.prefix_iff_getElem?.mp hpre j hlt, hj]
    have h := hw.ordered _ _ _ (hreport _ b hb) (hreport _ c hc)
    rw [disjoint_iff hinc' hb, seedAt_succ ha, gap_toNat (increasing_at hinc' ha).2.1] at h
    exact h
  · intro hshort
    obtain ⟨blocks, rest, rfl, hblocks, hlen, hreports⟩ :=
      exists_blocks threshold (rounds num) 0 true 0 samples hchain
    have hinc' := (List.pairwise_append.mp hinc).1
    rw [inactivePeriods, hreports]
    refine ⟨fun k p hp => ?_, fun k p q hp hq => ?_⟩
    · rw [reportsOf_getElem?, Option.map_eq_some_iff] at hp
      obtain ⟨b, -, rfl⟩ := hp
      simp [activeAt]
    · rw [reportsOf_getElem?, Option.map_eq_some_iff] at hp hq
      obtain ⟨b, hb, rfl⟩ := hp
      obtain ⟨c, hc, rfl⟩ := hq
      refine (disjoint_iff hinc' hb).mpr ?_
      rcases Nat.mod_two_eq_zero_or_one k with hk | hk
      · exact active_disjoint hblocks hinc' hk hb hc
      · obtain ⟨j, rfl⟩ : ∃ j, k = 2 * j + 1 := ⟨k / 2, by omega⟩
        obtain ⟨a, ha⟩ := exists_before hb
        rw [seedAt_succ ha, gap_toNat (increasing_at hinc' ha).2.1]
        exact hshort blocks rest rfl hblocks hlen j a b c ha hb hc

theorem periods_traced_iff_four :
    WellTraced (inactivePeriods 1 10 (fun _ => 0) [1, 2, 52, 53, 60]).reports ↔
      ShortGaps 10 (rounds 1) [1, 2, 52, 53, 60] :=
  periods_traced_iff (by decide)

/-- The inactive period is reported to last until 203, and the active one after it to start at
105. -/
theorem intervals_overlap : List.Pairwise (· < ·) [1, 2, 102, 103, 104, 105, 106, (206 : UInt64)] ∧
    (inactivePeriods 2 10 (fun _ => 0) [1, 2, 102, 103, 104, 105, 106, 206]).reports =
      [⟨true, 0, 1, 1⟩, ⟨false, 0, 103, 100⟩, ⟨true, 1, 105, 2⟩] ∧
    ¬WellTraced (inactivePeriods 2 10 (fun _ => 0) [1, 2, 102, 103, 104, 105, 106, 206]).reports := by
  have hreports : (inactivePeriods 2 10 (fun _ => 0) [1, 2, 102, 103, 104, 105, 106, 206]).reports =
      [⟨true, 0, 1, 1⟩, ⟨false, 0, 103, 100⟩, ⟨true, 1, 105, 2⟩] := by decide +kernel
  refine ⟨by decide, hreports, fun h => ?_⟩
  rw [hreports] at h
  exact absurd (h.ordered 1 _ _ rfl rfl) (by decide)

end Csc469.Tracing
