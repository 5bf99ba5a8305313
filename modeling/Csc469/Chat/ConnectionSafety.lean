import Csc469.Chat.Connections

/-! The connection table stays in order exactly as long as every new connection finds a place. -/
namespace Csc469.Chat.Connections

open Execution

variable {c d : Connections} {o : Ready} {rset P : Finset Nat} {fd : Nat} {num : Int}
  {run : List (Ready × Connections)}

/-- The round accepts no connection that finds the table full. -/
def PlaceFor (c : Connections) (o : Ready) : Prop :=
  c.tcpSocketFd ∈ o.rset → ∀ fd, o.accepted = some fd → none ∈ c.fdTable

theorem serveConnections_ok (h : ∀ fd ∈ P, fd ∈ rset ∧ ∃ j, c.At j fd) (hpos : 0 < num)
    (hnum : num ≤ P.card) : ∃ d, c.serveConnections rset num = .ok d := by
  have hP : ∀ fd ∈ P, fd ∈ rset ∧ ∃ j, 0 ≤ j ∧ c.At j fd := by
    intro fd hfd
    obtain ⟨hr, j, hj⟩ := h fd hfd
    exact ⟨hr, j, Nat.zero_le j, hj⟩
  obtain ⟨x, hx⟩ := processReady_ok (c.maxFdIdx + 1).toNat (-1) hP hpos hnum
  rw [serveConnections, hx]
  by_cases hi : (x.2.1 : Int) = x.1.maxFdIdx
  · exact ⟨_, if_pos hi⟩
  · exact ⟨_, if_neg hi⟩

/-- What is open stays open when a connection is accepted, also when there is no place. -/
theorem At.add {j k : Nat} (h : c.At j k) : (c.addConnection fd).At j k := by
  by_cases hplace : none ∈ c.fdTable
  · obtain ⟨i, -, -, -, hat⟩ := at_add fd hplace
    exact (hat j k).mpr (.inr h)
  · simp only [At, addConnection, findIdx_full hplace]
    rw [Vector.setIfInBounds_eq_of_size_le (Nat.le_refl _)]
    exact h

theorem acceptAndServe_ok
    (h : ∀ fd ∈ P, fd ∈ o.rset ∧ (fd = c.tcpSocketFd ∨ ∃ j, c.At j fd))
    (hpos : 0 < num) (hnum : num ≤ P.card) : ∃ d, c.acceptAndServe o num = .ok d := by
  by_cases hready : c.tcpSocketFd ∈ o.rset
  · have herase : P.card - 1 ≤ (P.erase c.tcpSocketFd).card := Finset.pred_card_le_card_erase
    have hP : ∀ fd ∈ P.erase c.tcpSocketFd, fd ∈ o.rset ∧ ∃ j, c.At j fd := by
      intro fd hfd
      obtain ⟨hne, hfd⟩ := Finset.mem_erase.mp hfd
      obtain ⟨hr, heq | hj⟩ := h fd hfd
      · exact (hne heq).elim
      · exact ⟨hr, hj⟩
    rw [acceptAndServe, if_pos hready]
    by_cases hlast : num - 1 ≤ 0
    · exact ⟨_, if_pos hlast⟩
    · simp only [if_neg hlast]
      refine serveConnections_ok (P := P.erase c.tcpSocketFd) ?_ (by omega) (by omega)
      intro fd hfd
      obtain ⟨hr, j, hj⟩ := hP fd hfd
      refine ⟨hr, j, ?_⟩
      cases o.accepted with
      | none => exact hj
      | some k => exact hj.add
  · rw [acceptAndServe, if_neg hready]
    refine serveConnections_ok (P := P) (fun fd hfd => ?_) hpos hnum
    obtain ⟨hr, heq | hj⟩ := h fd hfd
    · exact (hready (heq ▸ hr)).elim
    · exact ⟨hr, hj⟩

/-- Whatever `select` and `accept` report, the round is gone through: `select` does not fail
and nothing is read out of bounds. -/
theorem selectRound_ok (h : Tracked c) (hp : Possible c o) : ∃ d, selectRound c o = .ok d := by
  have hopen : ¬∃ fd ∈ c.allset, fd ≤ c.maxfd ∧ fd ∉ c.opened := by
    rintro ⟨fd, hfd, -, hclosed⟩
    exact hclosed (h.opened fd hfd)
  rw [selectRound, if_neg hopen]
  by_cases hnone : o.rset.card = 0
  · exact ⟨c, if_pos hnone⟩
  rw [if_neg hnone]
  have hready : ∀ fd ∈ o.rset.erase c.udpSocketFd,
      fd ∈ o.rset ∧ (fd = c.tcpSocketFd ∨ ∃ j, c.At j fd) := by
    intro fd hfd
    obtain ⟨hne, hfd⟩ := Finset.mem_erase.mp hfd
    rcases (h.allset fd).mp (hp.rset fd hfd).1 with heq | heq | hj
    · exact ⟨hfd, .inl heq⟩
    · exact (hne heq).elim
    · exact ⟨hfd, .inr hj⟩
  by_cases hudp : c.udpSocketFd ∈ o.rset
  · rw [if_pos hudp]
    have hcard := Finset.card_erase_of_mem hudp
    by_cases hlast : (o.rset.card : Int) - 1 ≤ 0
    · exact ⟨c, if_pos hlast⟩
    · rw [if_neg hlast]
      exact acceptAndServe_ok hready (by omega) (by omega)
  · rw [if_neg hudp]
    rw [Finset.erase_eq_of_notMem hudp] at hready
    exact acceptAndServe_ok hready (by omega) (by omega)

theorem acceptAndServe_served (h : Tracked c) (hb : Bounded c)
    (hnew : ∀ fd, o.accepted = some fd → fd ∉ c.opened)
    (hp : c.acceptAndServe o num = .ok d) : (PlaceFor c o → Tracked d ∧ Bounded d) ∧
      (¬PlaceFor c o → d.maxFdIdx = maxControlSessions) := by
  by_cases hready : c.tcpSocketFd ∈ o.rset
  · rw [acceptAndServe, if_pos hready] at hp
    cases hacc : o.accepted with
    | none =>
      have hplace : PlaceFor c o := fun _ fd hfd => by rw [hacc] at hfd; cases hfd
      refine ⟨fun _ => ?_, fun hfull => (hfull hplace).elim⟩
      simp only [hacc] at hp
      split at hp
      · cases hp
        exact ⟨h, hb⟩
      · obtain ⟨ht, hbd, -⟩ := serveConnections_served hp
        exact ⟨ht h, hbd hb⟩
    | some fd =>
      simp only [hacc] at hp
      refine ⟨fun hplace => ?_, fun hfull => ?_⟩
      · have ht := h.add (hnew fd hacc) (hplace hready fd hacc)
        have hbd := hb.add fd (hplace hready fd hacc)
        split at hp
        · cases hp
          exact ⟨ht, hbd⟩
        · obtain ⟨ht', hbd', -⟩ := serveConnections_served hp
          exact ⟨ht' ht, hbd' hbd⟩
      · have hno : none ∉ c.fdTable := fun hplace => hfull fun _ _ _ => hplace
        have hmax := (add_full fd hb hno).1
        split at hp
        · cases hp
          exact hmax
        · exact (serveConnections_served hp).2.2 hmax
  · have hplace : PlaceFor c o := fun hm => (hready hm).elim
    rw [acceptAndServe, if_neg hready] at hp
    obtain ⟨ht, hbd, -⟩ := serveConnections_served hp
    exact ⟨fun _ => ⟨ht h, hbd hb⟩, fun hfull => (hfull hplace).elim⟩

/-- What one round does to the table. -/
theorem round_served (h : Tracked c) (hb : Bounded c) (hr : Round c o d) :
    (PlaceFor c o → Tracked d ∧ Bounded d) ∧
      (¬PlaceFor c o → d.maxFdIdx = maxControlSessions) := by
  obtain ⟨hpos, hp⟩ := hr
  rw [selectRound] at hp
  split at hp
  · cases hp
  · split at hp
    · next hcard =>
      cases hp
      refine ⟨fun _ => ⟨h, hb⟩, fun hfull => (hfull fun hm => ?_).elim⟩
      rw [Finset.card_eq_zero.mp hcard] at hm
      cases hm
    · split at hp
      · next hudp =>
        split at hp
        · next hcard =>
          cases hp
          refine ⟨fun _ => ⟨h, hb⟩, fun hfull => (hfull fun hm => ?_).elim⟩
          have h2 : 1 < o.rset.card := Finset.one_lt_card.mpr ⟨_, hm, _, hudp, h.sockets⟩
          omega
        · exact acceptAndServe_served h hb hpos.accepted hp
      · exact acceptAndServe_served h hb hpos.accepted hp

/-- `max_fd_idx` is in the table and no connection is above it, `allset` is the sockets and
the connections of the table, all of them open, and the next round does not fail. -/
def Sound (c : Connections) : Prop :=
  c.maxFdIdx < maxControlSessions ∧ (∀ i fd, c.At i fd → (i : Int) ≤ c.maxFdIdx) ∧
    (∀ fd, fd ∈ c.allset ↔ fd = c.tcpSocketFd ∨ fd = c.udpSocketFd ∨ ∃ i, c.At i fd) ∧
    (∀ fd ∈ c.allset, fd ∈ c.opened) ∧
    ∀ o, Possible c o → ∃ d, selectRound c o = .ok d

theorem Tracked.sound (h : Tracked c) (hb : Bounded c) : Sound c :=
  ⟨hb.range, hb.below, h.allset, h.opened, fun _ hp => selectRound_ok h hp⟩

theorem init_tracked {tcp udp : Nat} (opened : Finset Nat) (hne : tcp ≠ udp) :
    Tracked (init tcp udp opened) ∧ Bounded (init tcp udp opened) := by
  have hat : ∀ i fd, ¬(init tcp udp opened).At i fd := by
    intro i fd h
    obtain ⟨hlt, he⟩ := Vector.getElem?_eq_some_iff.mp h
    simp [init] at he
  refine ⟨⟨?_, hne, ?_, ?_, ?_, ?_⟩, ⟨?_, ?_⟩⟩
  · exact fun i j fd h => (hat i fd h).elim
  · exact fun i fd h => (hat i fd h).elim
  · intro fd
    simp only [hat, exists_false, or_false]
    simp [init]
  · intro fd hfd
    simp only [init, Finset.mem_insert, Finset.mem_singleton] at hfd ⊢
    rcases hfd with rfl | rfl <;> simp
  · intro fd hfd
    simp only [init, Finset.mem_insert, Finset.mem_singleton] at hfd ⊢
    rcases hfd with rfl | rfl <;> omega
  · show (-1 : Int) < maxControlSessions
    decide
  · exact fun i fd h => (hat i fd h).elim

/-- Rounds with these reports. -/
def selectRounds : Connections → List Ready → Call (List (Ready × Connections))
  | _, [] => .ok []
  | c, o :: os => do
    let d ← selectRound c o
    let rest ← selectRounds d os
    .ok ((o, d) :: rest)

theorem selectRounds_along {os : List Ready} (hr : selectRounds c os = .ok run)
    (hp : Along (fun c o _ => Possible c o) c run) : Along Round c run := by
  induction os generalizing c run with
  | nil =>
    cases hr
    trivial
  | cons o os ih =>
    obtain ⟨d, hd, hr⟩ := ok_of_bind hr
    obtain ⟨rest, hrest, hr⟩ := ok_of_bind hr
    cases hr
    exact ⟨⟨hp.1, hd⟩, ih hrest hp.2⟩

/-- The table is sound along a run exactly when no round of it accepts a connection that
finds the table full. -/
theorem table_sound_iff {tcp udp : Nat} {opened : Finset Nat} (hne : tcp ≠ udp)
    (hr : Along Round (init tcp udp opened) run) :
    (Sound (init tcp udp opened) ∧ Along (fun _ _ d => Sound d) (init tcp udp opened) run) ↔
      Along (fun c o _ => PlaceFor c o) (init tcp udp opened) run := by
  obtain ⟨ht, hb⟩ := init_tracked opened hne
  rw [and_iff_right (ht.sound hb)]
  refine along_iff (I := fun c => Tracked c ∧ Bounded c) ?_ ⟨ht, hb⟩ hr
  rintro c o d ⟨h, hb⟩ hs
  obtain ⟨hplace, hfull⟩ := round_served h hb hs
  refine ⟨⟨fun hd => ?_, fun hq => (hplace hq).1.sound (hplace hq).2⟩, hplace⟩
  by_contra hq
  have hmax := hfull hq
  have hrange := hd.1
  omega

/-- Two connections are accepted, and served in the opposite order. -/
def twoConnections : List Ready :=
  [⟨{3}, some 5⟩, ⟨{3}, some 6⟩, ⟨{6}, none⟩, ⟨{5}, none⟩]

theorem table_sound_iff_twoConnections : ∃ run, Along Round (init 3 4 {0, 1, 2}) run ∧
    run.map (fun x => x.2.maxFdIdx) = [0, 1, 0, -1] ∧
    ((Sound (init 3 4 {0, 1, 2}) ∧ Along (fun _ _ d => Sound d) (init 3 4 {0, 1, 2}) run) ↔
      Along (fun c o _ => PlaceFor c o) (init 3 4 {0, 1, 2}) run) := by
  obtain ⟨run, hrun, hh⟩ := ok_of_map (c := selectRounds (init 3 4 {0, 1, 2}) twoConnections)
    (f := fun run => (run.map fun x : Ready × Connections => x.2.maxFdIdx,
      decide (Along (fun c o _ => Possible c o) (init 3 4 {0, 1, 2}) run)))
    (b := ([0, 1, 0, -1], true)) (by decide +kernel)
  obtain ⟨hidx, hpos⟩ := Prod.mk.inj hh
  have hr := selectRounds_along hrun (of_decide_eq_true hpos)
  exact ⟨run, hr, hidx, table_sound_iff (by decide) hr⟩

/-- With fifty idle connections one more is accepted: `max_fd_idx` is behind the table, and
the descriptor closed for want of a place is still in `allset`, where `select` finds it. -/
theorem table_overrun : ∃ run, Along Round (init 3 4 {0, 1, 2}) run ∧ run.length = 51 ∧
    ∃ x ∈ run, x.2.maxFdIdx = maxControlSessions ∧ 55 ∈ x.2.allset ∧ 55 ∉ x.2.opened ∧
      (∀ o, selectRound x.2 o = .error .fault) ∧ ¬Sound x.2 := by
  obtain ⟨run, hrun, hh⟩ := ok_of_map
    (c := selectRounds (init 3 4 {0, 1, 2}) ((List.range' 5 51).map fun fd => ⟨{3}, some fd⟩))
    (f := fun run => (run.length,
      decide (Along (fun c o _ => Possible c o) (init 3 4 {0, 1, 2}) run),
      run.getLast?.map fun x : Ready × Connections =>
        (x.2.maxFdIdx, decide (55 ∈ x.2.allset ∧ 55 ≤ x.2.maxfd ∧ 55 ∉ x.2.opened))))
    (b := (51, true, some (50, true))) (by decide +kernel)
  simp only [Prod.mk.injEq, decide_eq_true_eq] at hh
  obtain ⟨hlen, hpos, hlast⟩ := hh
  obtain ⟨x, hx, he⟩ := Option.map_eq_some_iff.mp hlast
  simp only [Prod.mk.injEq, decide_eq_true_eq] at he
  obtain ⟨hmax, hset, hle, hclosed⟩ := he
  refine ⟨run, selectRounds_along hrun hpos, hlen, x, List.mem_of_getLast? hx, hmax, hset, hclosed,
    fun o => if_pos ⟨55, hset, hle, hclosed⟩, ?_⟩
  rintro ⟨hrange, -⟩
  rw [hmax] at hrange
  cases hrange

end Csc469.Chat.Connections
