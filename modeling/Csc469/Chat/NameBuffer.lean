import Csc469.Chat.NameRetry

/-! The client's name buffer: no write of the retry loop leaves its 24 bytes, and every call of
`init_client` comes to an end. -/
namespace Csc469.Chat

open Execution

/-- The name is a C string that fits its buffer. -/
structure Fits (name : Bytes) : Prop where
  length : name.length < maxMemberNameLen
  terminated : 0 ∉ name

/-- What holds of the globals whenever a registration is tried. A name that has a suffix has
room before its end for the longest one. -/
structure Buffered (n : Naming) : Prop where
  fits : Fits n.memberName
  plain : n.suffixAppended = false → n.suffixLen = 3
  suffixed : n.suffixAppended = true → 4 ≤ n.memberName.length
  digits : n.suffixLen = 3 ∨ n.suffixLen = 4

/-- The suffix is that of the number before `k`. -/
def Follows (n : Naming) (k : Nat) : Prop :=
  1 < k → n.suffixAppended = true ∧ n.suffixLen = (suffixText (k - 1)).length

variable {base name new : Bytes} {n n' : Naming} {k back : Nat} {results : List Registration}
  {c d : ClientNames} {e : Connecting}

theorem suffixText_terminated (hk : k ≤ 99) : 0 ∉ suffixText k := by
  have h : ∀ k < 100, 0 ∉ suffixText k := by decide
  exact h k (by omega)

theorem Fits.take (h : Fits name) : 0 ∉ name.take k :=
  fun hmem => h.terminated (List.mem_of_mem_take hmem)

/-- A write that starts and ends in the buffer. -/
theorem overwrite_fits (new : Bytes) (back : Nat) (hname : Fits name) (hnew : 0 ∉ new)
    (hback : back ≤ name.length) (hlen : name.length - back + new.length < maxMemberNameLen) :
    ∃ name', overwrite name back new = .ok name' ∧ Fits name' ∧
      name'.length = name.length - back + new.length := by
  refine ⟨name.take (name.length - back) ++ new, if_pos ⟨hback, hlen⟩, ⟨?_, ?_⟩, ?_⟩
  · simpa [Nat.min_eq_left (Nat.sub_le _ _)] using hlen
  · simp [hname.take, hnew]
  · simp [Nat.min_eq_left (Nat.sub_le _ _)]

/-- The name has a suffix as long as that of the number `k`. -/
structure Widened (n : Naming) (k : Nat) : Prop where
  fits : Fits n.memberName
  appended : n.suffixAppended = true
  room : 4 ≤ n.memberName.length
  suffixLen : n.suffixLen = (suffixText k).length
  small : k ≤ 99

theorem suffixText_short (hk : k < 10) (hpos : 1 ≤ k) : (suffixText k).length = 3 := by
  rw [suffixText_length (by omega), if_pos hk]

/-- Each growing step tests the length first; the client shuts down if the name is too long. -/
def Grows (n : Naming) (k : Nat) : Prop :=
  growSuffix n k = .ok none ∨ ∃ n', growSuffix n k = .ok (some n') ∧ Widened n' k

/-- The name gets its first suffix. -/
theorem growSuffix_plain (hn : Buffered n) (happ : n.suffixAppended = false) : Grows n 1 := by
  have hlen := hn.fits.length
  rw [Grows, growSuffix, if_pos happ]
  split
  · exact .inl rfl
  · next hroom =>
    obtain ⟨name', hw, hfits', hlen'⟩ := overwrite_fits (text " (1)") 0 hn.fits
      (by decide) (Nat.zero_le _) (by simp [text]; omega)
    right
    refine ⟨⟨name', true, n.suffixLen⟩, by rw [hw]; rfl, hfits', rfl, ?_, hn.plain happ, by omega⟩
    simp only [hlen']
    simp [text]

/-- From 9 to 10 the suffix gets longer. -/
theorem growSuffix_ten (hn : Buffered n) (happ : n.suffixAppended = true)
    (hthree : n.suffixLen = 3) : Grows n 10 := by
  have hlen := hn.fits.length
  have hroom := hn.suffixed happ
  rw [Grows, growSuffix, if_neg (by simp [happ]), if_neg (by omega), if_pos rfl]
  split
  · exact .inl rfl
  · next hfit =>
    obtain ⟨name', hw, hfits', hlen'⟩ := overwrite_fits (text "(10)") 3 hn.fits
      (by decide) (by omega) (by simp [text]; omega)
    right
    refine ⟨⟨name', n.suffixAppended, n.suffixLen + 1⟩, by rw [hw]; rfl, hfits', happ, ?_, ?_,
      by omega⟩
    · simp only [hlen']
      simp [text]
    · simp only [hthree]
      decide

theorem growSuffix_other (hn : Buffered n) (hf : Follows n k) (hpos : 1 ≤ k)
    (happ : n.suffixAppended = true) (hk : k ≠ 10) : Grows n k := by
  have hroom := hn.suffixed happ
  have hdigits := hn.digits
  rw [Grows, growSuffix, if_neg (by simp [happ])]
  split
  · next hshort =>
    exact .inr ⟨_, rfl, hn.fits, happ, hroom, (suffixText_short hshort.2 hpos).symm, by omega⟩
  · next hlong =>
    split
    · exact .inl rfl
    · next hsmall =>
      refine .inr ⟨_, rfl, hn.fits, happ, hroom, ?_, by omega⟩
      rcases Nat.lt_or_ge k 10 with hk | hk
      · rw [suffixText_short hk hpos]
        omega
      · rw [(hf (by omega)).2, suffixText_length (by omega), suffixText_length (by omega),
          if_neg (by omega), if_neg (by omega)]

theorem growSuffix_total (hn : Buffered n) (hf : Follows n k) (hpos : 1 ≤ k) : Grows n k := by
  by_cases hone : k = 1
  · subst hone
    cases happ : n.suffixAppended with
    | false => exact growSuffix_plain hn happ
    | true => exact growSuffix_other hn hf hpos happ (by omega)
  · obtain ⟨happ, hlen⟩ := hf (by omega)
    by_cases hten : k = 10
    · subst hten
      exact growSuffix_ten hn happ hlen
    · exact growSuffix_other hn hf hpos happ hten

/-- The suffix is written over one of the same length. -/
theorem retryName_total (hn : Buffered n) (hf : Follows n k) (hpos : 1 ≤ k) :
    retryName n k = .ok none ∨ ∃ n', retryName n k = .ok (some n') ∧ Buffered n' ∧
      Follows n' (k + 1) ∧ k ≤ 99 := by
  rcases growSuffix_total hn hf hpos with h | ⟨g, h, hfits, happ, hroom, hlen, hsmall⟩
  · left
    rw [retryName, h]
    rfl
  · right
    have hlt := hfits.length
    have hdigits : g.suffixLen = 3 ∨ g.suffixLen = 4 := by
      rw [hlen, suffixText_length hsmall]
      split <;> simp
    obtain ⟨name', hw, hfits', hlen'⟩ := overwrite_fits (suffixText k) g.suffixLen hfits
      (suffixText_terminated hsmall) (show g.suffixLen ≤ _ by omega) (by omega)
    refine ⟨{ g with memberName := name' }, ?_, ⟨hfits', fun hfalse => ?_, fun _ => ?_, hdigits⟩,
      fun _ => ⟨happ, hlen⟩, hsmall⟩
    · rw [retryName, h]
      exact bind_eq_ok.mpr ⟨some g, rfl, bind_eq_ok.mpr ⟨name', hw, rfl⟩⟩
    · rw [happ] at hfalse
      cases hfalse
    · simp only
      omega

/-- What the loop does from number `k` on: it makes no invalid write, and after number 100 it
tries no more. -/
theorem registerLoop_total (results : List Registration) (hn : Buffered n) (hf : Follows n k)
    (hpos : 1 ≤ k) (hk : k ≤ 100) :
    ∃ tried last ending, registerLoop n k results = .ok (tried, last, ending) ∧
      (∀ name ∈ tried, Fits name) ∧ Buffered last ∧ tried.length + k ≤ 101 ∧
      (101 ≤ results.length + k → ending ≠ none) := by
  induction results generalizing n k with
  | nil =>
    refine ⟨_, _, _, rfl, by simpa using hn.fits, hn, ?_, fun hlen => ?_⟩
    · simp only [List.length_singleton]
      omega
    · simp only [List.length_nil] at hlen
      omega
  | cons x results ih =>
    have hone : [n.memberName].length + k ≤ 101 := by
      simp only [List.length_singleton]
      omega
    cases x with
    | nameTaken =>
      rcases retryName_total hn hf hpos with h | ⟨n', h, hn', hf', hsmall⟩
      · refine ⟨_, _, _, by rw [registerLoop, h]; rfl, by simpa using hn.fits, hn, hone, ?_⟩
        exact fun _ => Option.some_ne_none _
      · obtain ⟨tried, last, ending, hrest, htried, hlast, hcount, hends⟩ :=
          ih hn' hf' (by omega) (by omega)
        refine ⟨n.memberName :: tried, last, ending, ?_, ?_, hlast, ?_, fun hlen => hends ?_⟩
        · rw [registerLoop, h]
          exact bind_eq_ok.mpr ⟨some n', rfl, bind_eq_ok.mpr ⟨_, hrest, rfl⟩⟩
        · simpa using ⟨hn.fits, htried⟩
        · simp only [List.length_cons]
          omega
        · simp only [List.length_cons] at hlen
          omega
    | _ => exact ⟨_, _, _, rfl, by simpa using hn.fits, hn, hone, fun _ => Option.some_ne_none _⟩

theorem follows_first : Follows n 1 := fun h => absurd h (by omega)

theorem buffered_step (hc : Buffered c.naming) (hs : InitClient c e d) : Buffered d.naming := by
  cases hs with
  | @call results tried last ending _ h =>
    obtain ⟨tried', last', ending', h', -, hlast, -⟩ :=
      registerLoop_total results hc follows_first (by omega) (by omega)
    rw [h] at h'
    cases h'
    exact hlast

theorem buffered_start (hbase : Fits base) : Buffered (startNames base).naming :=
  ⟨hbase, fun _ => rfl, fun h => (Bool.false_ne_true h).elim, .inl rfl⟩

/-- After any number of calls of `init_client` the name fits its buffer, and so does every name
that the next call tries, whatever the registrations return: no write is out of bounds, and
within a hundred attempts the call has ended. -/
theorem name_buffer_safe (hlen : base.length ≤ 23) (hstring : 0 ∉ base)
    (hr : Reaches InitClient (startNames base) c) :
    Fits c.naming.memberName ∧ ∀ results, ∃ tried last ending,
      registerLoop c.naming 1 results = .ok (tried, last, ending) ∧
        (∀ name ∈ tried, Fits name) ∧ Fits last.memberName ∧ tried.length ≤ 100 ∧
        (100 ≤ results.length → ending ≠ none) := by
  have hc : Buffered c.naming := Reaches.invariant (I := fun c => Buffered c.naming)
    (fun _ _ _ hc hs => buffered_step hc hs) (buffered_start ⟨Nat.lt_succ_of_le hlen, hstring⟩) hr
  refine ⟨hc.fits, fun results => ?_⟩
  obtain ⟨tried, last, ending, h, htried, hlast, hcount, hends⟩ :=
    registerLoop_total results hc follows_first (by omega) (by omega)
  exact ⟨tried, last, ending, h, htried, hlast.fits, by omega, fun hlen => hends (by omega)⟩

theorem name_buffer_safe_ann : ∃ c : ClientNames, c.naming.memberName = text "ann ((1)" ∧
    Fits c.naming.memberName ∧ ∀ results, ∃ tried last ending,
      registerLoop c.naming 1 results = .ok (tried, last, ending) ∧
        (∀ name ∈ tried, Fits name) ∧ Fits last.memberName ∧ tried.length ≤ 100 ∧
        (100 ≤ results.length → ending ≠ none) := by
  obtain ⟨run, hrun, hname⟩ := ok_of_map (c := connects (startNames (text "ann")) twoSessions)
    (f := fun run => (lastState (startNames (text "ann")) run).naming.memberName)
    (b := text "ann ((1)") (by decide +kernel)
  exact ⟨_, hname, name_buffer_safe (by decide) (by decide) (connects_along hrun).reaches_last⟩

end Csc469.Chat
