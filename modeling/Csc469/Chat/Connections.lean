import Csc469.Execution
import Mathlib.Data.Finset.Card

/-! The connection table of the server's `main`, over all rounds of its `select` loop. -/
namespace Csc469.Chat

open Execution

def maxControlSessions : Nat := 50

/-- The variables of `main` that keep its connections, and the descriptors that are open.
In `fd_table`, none is -1. -/
structure Connections where
  tcpSocketFd : Nat
  udpSocketFd : Nat
  fdTable : Vector (Option Nat) maxControlSessions
  maxFdIdx : Int
  allset : Finset Nat
  maxfd : Nat
  opened : Finset Nat

/-- What `select` leaves in `rset`, and what `accept` returns. -/
structure Ready where
  rset : Finset Nat
  accepted : Option Nat

namespace Connections
variable {c d : Connections} {o : Ready} {rset P : Finset Nat} {i j n fd k : Nat} {tmp t : Int}

/-- `init_server` has run, and `main` has prepared `allset`. -/
def init (tcp udp : Nat) (opened : Finset Nat) : Connections :=
  { tcpSocketFd := tcp
    udpSocketFd := udp
    fdTable := Vector.replicate maxControlSessions none
    maxFdIdx := -1
    allset := {tcp, udp}
    maxfd := max udp tcp
    opened := insert tcp (insert udp opened) }

/-- `accept` has returned `fd`: it goes to the first free place, and is closed if there is
none. -/
def addConnection (c : Connections) (fd : Nat) : Connections :=
  let i := c.fdTable.toList.findIdx Option.isNone
  { c with
    fdTable := c.fdTable.setIfInBounds i (some fd)
    opened := if i = maxControlSessions then c.opened else insert fd c.opened
    maxFdIdx := if (i : Int) > c.maxFdIdx then i else c.maxFdIdx
    maxfd := if fd > c.maxfd then fd else c.maxfd
    allset := insert fd c.allset }

def closeConnection (c : Connections) (i fd : Nat) : Connections :=
  { c with
    fdTable := c.fdTable.setIfInBounds i none
    opened := c.opened.erase fd
    allset := c.allset.erase fd }

/-- The loop over `fd_table`, from index `i` on and for at most `n` more: the state after it,
and its `i` and `tmp_fd_idx`. -/
def processReady (rset : Finset Nat) :
    Nat → Nat → Int → Int → Connections → Call (Connections × Nat × Int)
  | 0, i, _, tmpFdIdx, c => .ok (c, i, tmpFdIdx)
  | n + 1, i, numReadyFds, tmpFdIdx, c =>
    match c.fdTable[i]? with
    | none => .error .fault  -- read out of bounds
    | some none => processReady rset n (i + 1) numReadyFds tmpFdIdx c
    | some (some fd) =>
      if fd ∈ rset then
        let c := c.closeConnection i fd
        if numReadyFds - 1 ≤ 0 then .ok (c, i, tmpFdIdx)
        else processReady rset n (i + 1) (numReadyFds - 1) tmpFdIdx c
      else processReady rset n (i + 1) numReadyFds i c

/-- The last part of the loop of `main`: the ready connections are served and closed. -/
def serveConnections (c : Connections) (rset : Finset Nat) (numReadyFds : Int) :
    Call Connections := do
  let (c, i, tmpFdIdx) ← processReady rset (c.maxFdIdx + 1).toNat 0 numReadyFds (-1) c
  if (i : Int) = c.maxFdIdx then .ok { c with maxFdIdx := tmpFdIdx } else .ok c

/-- The part of the loop of `main` after the chat message. -/
def acceptAndServe (c : Connections) (o : Ready) (numReadyFds : Int) : Call Connections :=
  if c.tcpSocketFd ∈ o.rset then
    let c :=
      match o.accepted with
      | none => c
      | some fd => c.addConnection fd
    if numReadyFds - 1 ≤ 0 then .ok c else c.serveConnections o.rset (numReadyFds - 1)
  else c.serveConnections o.rset numReadyFds

/-- One round of the loop of `main`. `select` fails, and `main` exits, when one of the
descriptors is not open; it looks at those up to `maxfd`. -/
def selectRound (c : Connections) (o : Ready) : Call Connections :=
  if ∃ fd ∈ c.allset, fd ≤ c.maxfd ∧ fd ∉ c.opened then .error .fault
  else if o.rset.card = 0 then .ok c
  else if c.udpSocketFd ∈ o.rset then
    if (o.rset.card : Int) - 1 ≤ 0 then .ok c else c.acceptAndServe o (o.rset.card - 1)
  else c.acceptAndServe o o.rset.card

/-- What the system can report: descriptors that were asked for, and for a new connection
a descriptor that is not open. -/
structure Possible (c : Connections) (o : Ready) : Prop where
  rset : ∀ fd ∈ o.rset, fd ∈ c.allset ∧ fd ≤ c.maxfd
  accepted : ∀ fd, o.accepted = some fd → fd ∉ c.opened

instance : Decidable (Possible c o) :=
  decidable_of_iff ((∀ fd ∈ o.rset, fd ∈ c.allset ∧ fd ≤ c.maxfd) ∧
    ∀ fd ∈ o.accepted, fd ∉ c.opened)
    ⟨fun h => ⟨h.1, h.2⟩, fun h => ⟨h.rset, h.accepted⟩⟩

/-- A round that `main` comes through. -/
structure Round (c : Connections) (o : Ready) (d : Connections) : Prop where
  possible : Possible c o
  result : selectRound c o = .ok d

/-- `fd` is the connection at index `i`. -/
def At (c : Connections) (i fd : Nat) : Prop := c.fdTable[i]? = some (some fd)

/-- The sets of descriptors agree with the table. -/
structure Tracked (c : Connections) : Prop where
  unique : ∀ i j fd, c.At i fd → c.At j fd → i = j
  sockets : c.tcpSocketFd ≠ c.udpSocketFd
  own : ∀ i fd, c.At i fd → fd ≠ c.tcpSocketFd ∧ fd ≠ c.udpSocketFd
  allset : ∀ fd, fd ∈ c.allset ↔ fd = c.tcpSocketFd ∨ fd = c.udpSocketFd ∨ ∃ i, c.At i fd
  opened : ∀ fd ∈ c.allset, fd ∈ c.opened
  maxfd : ∀ fd ∈ c.allset, fd ≤ c.maxfd

/-- No connection is above `max_fd_idx`, which is in the table. -/
structure Bounded (c : Connections) : Prop where
  range : c.maxFdIdx < maxControlSessions
  below : ∀ i fd, c.At i fd → (i : Int) ≤ c.maxFdIdx

theorem At.lt (h : c.At i fd) : i < maxControlSessions := by
  by_contra hi
  rw [At, Vector.getElem?_eq_none (by omega)] at h
  cases h

theorem at_close (hi : c.At i fd) : (c.closeConnection i fd).At j k ↔ c.At j k ∧ j ≠ i := by
  have hlt := hi.lt
  simp only [At, closeConnection, Vector.getElem?_setIfInBounds]
  by_cases hji : i = j
  · simp [hji]
  · simp [hji, Ne.symm hji]

theorem Tracked.close (h : Tracked c) (hi : c.At i fd) : Tracked (c.closeConnection i fd) := by
  refine ⟨fun a b k ha hb => ?_, h.sockets, fun a k ha => ?_, fun k => ?_, ?_, ?_⟩
  · exact h.unique a b k ((at_close hi).mp ha).1 ((at_close hi).mp hb).1
  · exact h.own a k ((at_close hi).mp ha).1
  · have hown := h.own i fd hi
    simp only [at_close hi]
    show k ∈ c.allset.erase fd ↔ k = c.tcpSocketFd ∨ k = c.udpSocketFd ∨ _
    rw [Finset.mem_erase, h.allset]
    constructor
    · rintro ⟨hne, htcp | hudp | ⟨a, ha⟩⟩
      · exact .inl htcp
      · exact .inr (.inl hudp)
      · refine .inr (.inr ⟨a, ha, ?_⟩)
        rintro rfl
        exact hne (Option.some.inj (Option.some.inj (ha.symm.trans hi)))
    · rintro (rfl | rfl | ⟨a, ha, hne⟩)
      · exact ⟨hown.1.symm, .inl rfl⟩
      · exact ⟨hown.2.symm, .inr (.inl rfl)⟩
      · refine ⟨?_, .inr (.inr ⟨a, ha⟩)⟩
        rintro rfl
        exact hne (h.unique a i k ha hi)
  · intro k hk
    obtain ⟨hne, hk⟩ := Finset.mem_erase.mp hk
    exact Finset.mem_erase.mpr ⟨hne, h.opened k hk⟩
  · intro k hk
    exact h.maxfd k (Finset.mem_erase.mp hk).2

/-- As many ready connections as `num_ready_fds` counts are still ahead: the loop stops at
the last of them at the latest. -/
theorem processReady_ok (n : Nat) (tmp : Int) {num : Int}
    (h : ∀ fd ∈ P, fd ∈ rset ∧ ∃ j, i ≤ j ∧ c.At j fd) (hpos : 0 < num)
    (hnum : num ≤ P.card) : ∃ x, processReady rset n i num tmp c = .ok x := by
  induction n generalizing i num tmp c P with
  | zero => exact ⟨_, rfl⟩
  | succ n ih =>
    have hcard : 0 < P.card := by omega
    obtain ⟨x, hx⟩ := Finset.card_pos.mp hcard
    obtain ⟨-, a, hia, ha⟩ := h x hx
    have hi : i < maxControlSessions := lt_of_le_of_lt hia ha.lt
    have hentry : c.fdTable[i]? = some c.fdTable[i] := Vector.getElem?_eq_getElem hi
    cases he : c.fdTable[i] with
    | none =>
      simp only [processReady, hentry, he]
      refine ih _ (fun fd hfd => ?_) hpos hnum
      obtain ⟨hr, j, hij, hj⟩ := h fd hfd
      refine ⟨hr, j, Nat.lt_of_le_of_ne hij ?_, hj⟩
      rintro rfl
      rw [At, hentry, he] at hj
      cases hj
    | some k =>
      have hk : c.At i k := by rw [At, hentry, he]
      simp only [processReady, hentry, he]
      by_cases hready : k ∈ rset
      · rw [if_pos hready]
        split
        · exact ⟨_, rfl⟩
        · next hleft =>
          have herase : P.card - 1 ≤ (P.erase k).card := Finset.pred_card_le_card_erase
          refine ih _ (P := P.erase k) (fun fd hfd => ?_) (by omega) (by omega)
          obtain ⟨hne, hfd⟩ := Finset.mem_erase.mp hfd
          obtain ⟨hr, j, hij, hj⟩ := h fd hfd
          have hji : j ≠ i := by
            rintro rfl
            exact hne (Option.some.inj (Option.some.inj (hj.symm.trans hk)))
          exact ⟨hr, j, Nat.lt_of_le_of_ne hij hji.symm, (at_close hk).mpr ⟨hj, hji⟩⟩
      · rw [if_neg hready]
        refine ih _ (fun fd hfd => ?_) hpos hnum
        obtain ⟨hr, j, hij, hj⟩ := h fd hfd
        refine ⟨hr, j, Nat.lt_of_le_of_ne hij ?_, hj⟩
        rintro rfl
        have hkfd := Option.some.inj (Option.some.inj (hk.symm.trans hj))
        exact hready (hkfd ▸ hr)

/-- The loop has gone from index `i` to `j`, and would have stopped at `stop`. -/
structure Served (c d : Connections) (stop j : Nat) (tmp : Int) : Prop where
  tracked : Tracked c → Tracked d
  maxFdIdx : d.maxFdIdx = c.maxFdIdx
  kept : ∀ k fd, d.At k fd → c.At k fd
  ended : j = stop ∨ j < maxControlSessions ∧ ∀ fd, ¬d.At j fd
  tmp_lt : tmp < j
  open_le : ∀ k fd, k < j → d.At k fd → (k : Int) ≤ tmp

theorem processReady_served {num : Int} (htmp : tmp < i)
    (hopen : ∀ k fd, k < i → c.At k fd → (k : Int) ≤ tmp)
    (hp : processReady rset n i num tmp c = .ok (d, j, t)) : Served c d (i + n) j t := by
  induction n generalizing i num tmp c with
  | zero =>
    cases hp
    exact ⟨id, rfl, fun _ _ hk => hk, .inl rfl, htmp, hopen⟩
  | succ n ih =>
    rw [show i + (n + 1) = i + 1 + n by omega]
    cases hi : c.fdTable[i]? with
    | none =>
      simp only [processReady, hi] at hp
      cases hp
    | some entry =>
      cases entry with
      | none =>
        simp only [processReady, hi] at hp
        refine ih (by omega) (fun k fd hk hat => ?_) hp
        refine hopen k fd (Nat.lt_of_le_of_ne (Nat.le_of_lt_succ hk) ?_) hat
        rintro rfl
        rw [At, hi] at hat
        cases hat
      | some fd =>
        simp only [processReady, hi] at hp
        split at hp
        · have hbelow : ∀ k x, k < i + 1 → (c.closeConnection i fd).At k x → (k : Int) ≤ tmp := by
            intro k x hk hat
            obtain ⟨hat, hne⟩ := (at_close hi).mp hat
            exact hopen k x (by omega) hat
          split at hp
          · cases hp
            refine ⟨fun h => h.close hi, rfl, fun k x hat => ((at_close hi).mp hat).1,
              .inr ⟨At.lt hi, ?_⟩, htmp, fun k x hk => hbelow k x (by omega)⟩
            intro x hat
            exact ((at_close hi).mp hat).2 rfl
          · have hs := ih (by omega) hbelow hp
            exact ⟨fun h => hs.tracked (h.close hi), hs.maxFdIdx,
              fun k x hat => ((at_close hi).mp (hs.kept k x hat)).1, hs.ended, hs.tmp_lt, hs.open_le⟩
        · refine ih (by omega) (fun k x hk hat => ?_) hp
          omega

/-- The loop keeps the table in order; when it ends at `max_fd_idx`, the new one is right. -/
theorem serveConnections_served {num : Int} (hp : c.serveConnections rset num = .ok d) :
    (Tracked c → Tracked d) ∧ (Bounded c → Bounded d) ∧
      (c.maxFdIdx = maxControlSessions → d.maxFdIdx = maxControlSessions) := by
  obtain ⟨⟨e, j, t⟩, he, hp⟩ := ok_of_bind hp
  have hs := processReady_served (by omega) (fun k _ hk => by omega) he
  have hlt := hs.tmp_lt
  have hmax := hs.maxFdIdx
  simp only at hp
  split at hp
  · next hj =>
    cases hp
    have hclosed : j < maxControlSessions ∧ ∀ fd, ¬e.At j fd := by
      rcases hs.ended with hend | hend
      · omega
      · exact hend
    refine ⟨fun h => ?_, fun hb => ⟨?_, fun k fd hk => ?_⟩, fun hfull => ?_⟩
    · have ht := hs.tracked h
      exact ⟨ht.unique, ht.sockets, ht.own, ht.allset, ht.opened, ht.maxfd⟩
    · show t < maxControlSessions
      omega
    · have hle := hb.below k fd (hs.kept k fd hk)
      have hne : k ≠ j := by
        rintro rfl
        exact hclosed.2 fd hk
      exact hs.open_le k fd (by omega) hk
    · omega
  · cases hp
    refine ⟨hs.tracked, fun hb => ⟨?_, fun k fd hk => ?_⟩, fun hfull => hmax.trans hfull⟩
    · rw [hmax]
      exact hb.range
    · rw [hmax]
      exact hb.below k fd (hs.kept k fd hk)

theorem findIdx_isNone (h : none ∈ c.fdTable) : ∃ i, i < maxControlSessions ∧
    c.fdTable.toList.findIdx Option.isNone = i ∧ ∀ fd, ¬c.At i fd := by
  have hlt : c.fdTable.toList.findIdx Option.isNone < c.fdTable.toList.length :=
    List.findIdx_lt_length_of_exists ⟨none, by simpa using h, rfl⟩
  have hnone := List.findIdx_getElem (w := hlt)
  rw [Vector.length_toList] at hlt
  refine ⟨_, hlt, rfl, fun fd hat => ?_⟩
  obtain ⟨_, he⟩ := Vector.getElem?_eq_some_iff.mp hat
  simp [he] at hnone

theorem findIdx_full (h : none ∉ c.fdTable) :
    c.fdTable.toList.findIdx Option.isNone = maxControlSessions := by
  have hall : ∀ x ∈ c.fdTable.toList, Option.isNone x = false := by
    intro x hx
    cases x with
    | none => exact (h (by simpa using hx)).elim
    | some fd => rfl
  exact (List.findIdx_eq_length.mpr hall).trans c.fdTable.length_toList

theorem at_add (fd : Nat) (hplace : none ∈ c.fdTable) : ∃ i, i < maxControlSessions ∧
    c.fdTable.toList.findIdx Option.isNone = i ∧ (∀ k, ¬c.At i k) ∧
    ∀ j k, (c.addConnection fd).At j k ↔ (j = i ∧ k = fd) ∨ c.At j k := by
  obtain ⟨i, hlt, hi, hfree⟩ := findIdx_isNone hplace
  refine ⟨i, hlt, hi, hfree, fun j k => ?_⟩
  simp only [At, addConnection, hi, Vector.getElem?_setIfInBounds]
  by_cases hji : i = j
  · subst hji
    rw [if_pos rfl, if_pos hlt]
    constructor
    · intro he
      exact .inl ⟨rfl, (Option.some.inj (Option.some.inj he)).symm⟩
    · rintro (⟨-, rfl⟩ | hk)
      · rfl
      · exact (hfree k hk).elim
  · simp [hji, Ne.symm hji]

/-- A new connection is tracked when there is a place for it. -/
theorem Tracked.add (h : Tracked c) (hnew : fd ∉ c.opened) (hplace : none ∈ c.fdTable) :
    Tracked (c.addConnection fd) := by
  obtain ⟨i, hlt, hi, hfree, hat⟩ := at_add fd hplace
  have hnewAt : ∀ a, ¬c.At a fd := fun a ha =>
    hnew (h.opened fd ((h.allset fd).mpr (.inr (.inr ⟨a, ha⟩))))
  have htcp : fd ≠ c.tcpSocketFd := by
    rintro rfl
    exact hnew (h.opened _ ((h.allset _).mpr (.inl rfl)))
  have hudp : fd ≠ c.udpSocketFd := by
    rintro rfl
    exact hnew (h.opened _ ((h.allset _).mpr (.inr (.inl rfl))))
  refine ⟨fun a b k ha hb => ?_, h.sockets, fun a k ha => ?_, fun k => ?_, fun k hk => ?_,
    fun k hk => ?_⟩
  · rcases (hat a k).mp ha with ⟨rfl, rfl⟩ | ha'
    · rcases (hat b k).mp hb with ⟨rfl, -⟩ | hb'
      · rfl
      · exact (hnewAt b hb').elim
    · rcases (hat b k).mp hb with ⟨-, rfl⟩ | hb'
      · exact (hnewAt a ha').elim
      · exact h.unique a b k ha' hb'
  · rcases (hat a k).mp ha with ⟨-, rfl⟩ | ha
    · exact ⟨htcp, hudp⟩
    · exact h.own a k ha
  · simp only [hat]
    show k ∈ insert fd c.allset ↔ k = c.tcpSocketFd ∨ k = c.udpSocketFd ∨ _
    rw [Finset.mem_insert, h.allset]
    constructor
    · rintro (rfl | hk | hk | ⟨a, ha⟩)
      · exact .inr (.inr ⟨i, .inl ⟨rfl, rfl⟩⟩)
      · exact .inl hk
      · exact .inr (.inl hk)
      · exact .inr (.inr ⟨a, .inr ha⟩)
    · rintro (hk | hk | ⟨a, ⟨-, hk⟩ | ha⟩)
      · exact .inr (.inl hk)
      · exact .inr (.inr (.inl hk))
      · exact .inl hk
      · exact .inr (.inr (.inr ⟨a, ha⟩))
  · have hne : i ≠ maxControlSessions := Nat.ne_of_lt hlt
    simp only [addConnection, hi, if_neg hne]
    rcases Finset.mem_insert.mp hk with rfl | hk
    · exact Finset.mem_insert_self _ _
    · exact Finset.mem_insert_of_mem (h.opened k hk)
  · simp only [addConnection]
    rcases Finset.mem_insert.mp hk with rfl | hk
    · split <;> omega
    · have := h.maxfd k hk
      split <;> omega

theorem Bounded.add (fd : Nat) (h : Bounded c) (hplace : none ∈ c.fdTable) :
    Bounded (c.addConnection fd) := by
  obtain ⟨i, hlt, hi, -, hat⟩ := at_add fd hplace
  have hrange := h.range
  refine ⟨?_, fun j k hj => ?_⟩
  · simp only [addConnection, hi]
    split <;> omega
  · simp only [addConnection, hi]
    rcases (hat j k).mp hj with ⟨rfl, -⟩ | hj
    · split <;> omega
    · have := h.below j k hj
      split <;> omega

/-- With no place left, `max_fd_idx` points behind the table. -/
theorem add_full (fd : Nat) (h : Bounded c) (hfull : none ∉ c.fdTable) :
    (c.addConnection fd).maxFdIdx = maxControlSessions ∧ (c.addConnection fd).fdTable = c.fdTable := by
  have hrange := h.range
  simp only [addConnection, findIdx_full hfull]
  refine ⟨?_, ?_⟩
  · split <;> omega
  · exact Vector.setIfInBounds_eq_of_size_le (Nat.le_refl _)

end Connections
end Csc469.Chat
