import Csc469.Chat.Client

/-! The automatic name retry of `init_client`, over any number of connections. -/
namespace Csc469.Chat

open Execution

/-- The globals of the retry loop: `member_name` is a C string. -/
structure Naming where
  memberName : Bytes
  suffixAppended : Bool
  suffixLen : Nat

/-- What `handle_register_req` returns: 0, -1, -2 or -3. -/
inductive Registration where
  | registered
  | failed
  | disconnected
  | nameTaken
  deriving DecidableEq

/-- How `init_client` ends: it returns 0, it returns -2, or it calls `shutdown_clean`. -/
inductive Ending where
  | connected
  | disconnected
  | shutdown
  deriving DecidableEq

/-- `strcat`, `strcpy` and `sprintf` into `member_name`, `back` bytes before its end: the new
text and its terminator stay inside the array. -/
def overwrite (name : Bytes) (back : Nat) (new : Bytes) : Call Bytes :=
  if back ≤ name.length ∧ name.length - back + new.length < maxMemberNameLen then
    .ok (name.take (name.length - back) ++ new)
  else .error .fault

/-- The format `"(%d)"`. -/
def suffixText (suffix : Nat) : Bytes := text ("(" ++ toString suffix ++ ")")

/-- The cases of the loop before it overwrites the suffix; none for `shutdown_clean`. -/
def growSuffix (n : Naming) (suffix : Nat) : Call (Option Naming) :=
  if n.suffixAppended = false then
    if n.memberName.length + 5 > maxMemberNameLen then .ok none
    else do
      let name ← overwrite n.memberName 0 (text " (1)")
      .ok (some { n with memberName := name, suffixAppended := true })
  else if n.suffixLen = 4 ∧ suffix < 10 then .ok (some { n with suffixLen := 3 })
  else if suffix = 10 then
    if n.memberName.length + 2 > maxMemberNameLen then .ok none
    else do
      let name ← overwrite n.memberName 3 (text "(10)")
      .ok (some { n with memberName := name, suffixLen := n.suffixLen + 1 })
  else if suffix > 99 then .ok none
  else .ok (some n)

/-- The next name to try. -/
def retryName (n : Naming) (suffix : Nat) : Call (Option Naming) := do
  match ← growSuffix n suffix with
  | none => .ok none
  | some n =>
    let name ← overwrite n.memberName n.suffixLen (suffixText suffix)
    .ok (some { n with memberName := name })

/-- Step 4 of `init_client`: the names it tries to register, given the results. It is still
waiting for a result when there are no more. -/
def registerLoop (n : Naming) (suffix : Nat) :
    List Registration → Call (List Bytes × Naming × Option Ending)
  | [] => .ok ([n.memberName], n, none)
  | .registered :: _ => .ok ([n.memberName], n, some .connected)
  | .failed :: _ => .ok ([n.memberName], n, some .shutdown)
  | .disconnected :: _ => .ok ([n.memberName], n, some .disconnected)
  | .nameTaken :: rest => do
    match ← retryName n suffix with
    | none => .ok ([n.memberName], n, some .shutdown)
    | some n' =>
      let (names, last, ending) ← registerLoop n' (suffix + 1) rest
      .ok (n.memberName :: names, last, ending)

/-- The client between two calls of `init_client`. -/
structure ClientNames where
  naming : Naming
  running : Bool

/-- A call of `init_client`: the results of its registrations and the names it tried. -/
structure Connecting where
  results : List Registration
  tried : List Bytes

/-- `init_client`, at the start and from `reconnect`. -/
inductive InitClient : ClientNames → Connecting → ClientNames → Prop
  | call {c : ClientNames} {results : List Registration} {tried : List Bytes} {last : Naming}
      {ending : Option Ending} (hrun : c.running = true)
      (h : registerLoop c.naming 1 results = .ok (tried, last, ending)) :
    InitClient c ⟨results, tried⟩
      ⟨last, decide (ending = some .connected ∨ ending = some .disconnected)⟩

/-- The calls of `init_client` one after the other. -/
def connects (c : ClientNames) : List (List Registration) → Call (List (Connecting × ClientNames))
  | [] => .ok []
  | results :: rest =>
    if c.running then do
      let (tried, last, ending) ← registerLoop c.naming 1 results
      let d : ClientNames :=
        ⟨last, decide (ending = some .connected ∨ ending = some .disconnected)⟩
      let run ← connects d rest
      .ok ((⟨results, tried⟩, d) :: run)
    else .error .fault

/-- `main` has stored the name of the command line. -/
def startNames (base : Bytes) : ClientNames := ⟨⟨base, false, 3⟩, true⟩

/-- The name, or the name followed by a number in brackets. -/
def NameOf (base name : Bytes) : Prop :=
  name = base ∨ ∃ n, 1 ≤ n ∧ n ≤ 99 ∧ name = base ++ text " " ++ suffixText n

variable {base name new rest : Bytes} {n n' last : Naming} {k : Nat} {results : List Registration}
  {tried : List Bytes} {ending : Option Ending} {r : Option Naming} {c d : ClientNames}
  {e : Connecting} {run : List (Connecting × ClientNames)}

theorem connects_along {sessions : List (List Registration)} (h : connects c sessions = .ok run) :
    Along InitClient c run := by
  induction sessions generalizing c run with
  | nil =>
    cases h
    trivial
  | cons results rest ih =>
    simp only [connects] at h
    split at h
    · next hrun =>
      obtain ⟨⟨tried, last, ending⟩, hloop, h⟩ := ok_of_bind h
      obtain ⟨run', hrest, h⟩ := ok_of_bind h
      cases h
      exact ⟨.call hrun hloop, ih hrest⟩
    · cases h

theorem suffixText_length (hk : k ≤ 99) : (suffixText k).length = if k < 10 then 3 else 4 := by
  have h : ∀ k < 100, (suffixText k).length = if k < 10 then 3 else 4 := by decide
  exact h k (by omega)

theorem suffixText_ne (hk : k ≤ 99) : suffixText k ≠ text "(" ++ suffixText 1 := by
  have h : ∀ k < 100, suffixText k ≠ text "(" ++ suffixText 1 := by decide
  exact h k (by omega)

theorem overwrite_ok (rest : Bytes) (h : overwrite (base ++ rest) rest.length new = .ok name) :
    name = base ++ new := by
  unfold overwrite at h
  split at h
  · cases h
    simp
  · cases h

/-- The name with the number `k`. -/
def numbered (base : Bytes) (k : Nat) : Naming :=
  ⟨base ++ text " " ++ suffixText k, true, (suffixText k).length⟩

/-- What the client is called between two calls of `init_client`. -/
inductive Named (base : Bytes) : Naming → Prop
  | plain : Named base ⟨base, false, 3⟩
  | numbered {k : Nat} (hpos : 1 ≤ k) (hk : k ≤ 99) : Named base (numbered base k)

theorem Named.nameOf (h : Named base n) : NameOf base n.memberName := by
  cases h with
  | plain => exact .inl rfl
  | @numbered k hpos hk => exact .inr ⟨k, hpos, hk, rfl⟩

/-- The client shuts down, or the name has a suffix as long as that of the number `k`. -/
def Grown (base : Bytes) (k : Nat) (r : Option Naming) : Prop :=
  r = none ∨ (k ≤ 99 ∧ ∃ rest, rest.length = (suffixText k).length ∧
    r = some ⟨base ++ text " " ++ rest, true, rest.length⟩)

theorem growSuffix_numbered (hpos : 1 ≤ k) (hk : k ≤ 99)
    (h : growSuffix (numbered base k) (k + 1) = .ok r) : Grown base (k + 1) r := by
  have hlen := suffixText_length hk
  unfold growSuffix at h
  rw [if_neg (by simp [numbered]), if_neg (by simp only [numbered, hlen]; split <;> omega)] at h
  split at h
  · next hten =>
    -- the suffix becomes one digit longer
    split at h
    · cases h
      exact .inl rfl
    · obtain ⟨name, ho, h⟩ := ok_of_bind h
      cases h
      obtain rfl : k = 9 := by omega
      obtain rfl : name = base ++ text " " ++ text "(10)" := overwrite_ok (suffixText 9) ho
      exact .inr ⟨by omega, text "(10)", rfl, rfl⟩
  · split at h
    · cases h
      exact .inl rfl
    · cases h
      refine .inr ⟨by omega, suffixText k, ?_, rfl⟩
      rw [hlen, suffixText_length (by omega)]
      split <;> split <;> omega

/-- The first number: it takes the place of a number with one digit. -/
theorem growSuffix_first (hn : Named base n) (hshort : n.suffixLen ≠ 4)
    (h : growSuffix n 1 = .ok r) : Grown base 1 r := by
  unfold growSuffix at h
  cases hn with
  | plain =>
    rw [if_pos rfl] at h
    split at h
    · cases h
      exact .inl rfl
    · obtain ⟨name, ho, h⟩ := ok_of_bind h
      cases h
      obtain rfl : name = base ++ text " (1)" := overwrite_ok [] (by simpa using ho)
      exact .inr ⟨by omega, text "(1)", rfl, by simp [text]⟩
  | @numbered k hpos hk =>
    rw [if_neg (by simp [numbered]), if_neg (by simp [hshort]), if_neg (by omega),
      if_neg (by omega)] at h
    cases h
    refine .inr ⟨by omega, suffixText k, ?_, rfl⟩
    have hlen := suffixText_length hk
    have hthree : (suffixText k).length ≠ 4 := hshort
    rw [suffixText_length (by omega : 1 ≤ 99), hlen]
    split <;> simp_all

/-- A suffix of the right length is overwritten. -/
theorem retryName_grown (hg : ∀ r, growSuffix n k = .ok r → Grown base k r)
    (h : retryName n k = .ok r) : r = none ∨ (k ≤ 99 ∧ r = some (numbered base k)) := by
  obtain ⟨grown, hgrow, h⟩ := ok_of_bind h
  rcases hg grown hgrow with rfl | ⟨hk, rest, hlen, rfl⟩
  · cases h
    exact .inl rfl
  · obtain ⟨name, ho, h⟩ := ok_of_bind h
    cases h
    obtain rfl := overwrite_ok _ ho
    exact .inr ⟨hk, by simp [numbered, hlen]⟩

/-- The names tried when the next one, if there is one, is `base` with the number `k`. -/
theorem registerLoop_next (hname : Named base n)
    (hnext : results.head? = some .nameTaken →
      ∀ r, retryName n k = .ok r → r = none ∨ (k ≤ 99 ∧ r = some (numbered base k)))
    (hpos : 1 ≤ k) (h : registerLoop n k results = .ok (tried, last, ending)) :
    (∀ name ∈ tried, NameOf base name) ∧ Named base last := by
  induction results generalizing n k tried with
  | nil =>
    cases h
    simpa using ⟨hname.nameOf, hname⟩
  | cons x results ih =>
    cases x with
    | nameTaken =>
      obtain ⟨r, hr, h⟩ := ok_of_bind h
      rcases hnext rfl r hr with rfl | ⟨hk, rfl⟩
      · cases h
        simpa using ⟨hname.nameOf, hname⟩
      · obtain ⟨⟨names, last', ending'⟩, hrest, h⟩ := ok_of_bind h
        cases h
        obtain ⟨hnames, hlast⟩ := ih (.numbered hpos hk)
          (fun _ r => retryName_grown fun r => growSuffix_numbered hpos hk) (by omega) hrest
        exact ⟨by simpa using ⟨hname.nameOf, hnames⟩, hlast⟩
    | _ =>
      cases h
      simpa using ⟨hname.nameOf, hname⟩

/-- The first name tried is the one that the client has. -/
theorem registerLoop_first (h : registerLoop n k results = .ok (tried, last, ending)) :
    n.memberName ∈ tried := by
  cases results with
  | nil =>
    cases h
    simp
  | cons x results =>
    cases x with
    | nameTaken =>
      obtain ⟨r, -, h⟩ := ok_of_bind h
      cases r with
      | none =>
        cases h
        simp
      | some n' =>
        obtain ⟨⟨names, last', ending'⟩, -, h⟩ := ok_of_bind h
        cases h
        simp
    | _ =>
      cases h
      simp

/-- `init_client` finds a number with two digits and is told that the name is taken: the first
number is written over the last three characters, and the bracket stays. -/
theorem registerLoop_bracket (hname : Named base n) (hlong : n.suffixLen = 4)
    (h : registerLoop n 1 (.nameTaken :: results) = .ok (tried, last, ending)) :
    base ++ text " " ++ (text "(" ++ suffixText 1) ∈ tried := by
  cases hname with
  | plain => cases hlong
  | @numbered k hpos hk =>
    have hfour : (suffixText k).length = 4 := hlong
    obtain ⟨r, hr, h⟩ := ok_of_bind h
    obtain ⟨grown, hgrow, hr⟩ := ok_of_bind hr
    rw [growSuffix, if_neg (by simp [numbered]), if_pos ⟨hlong, by omega⟩] at hgrow
    cases hgrow
    obtain ⟨name, ho, hr⟩ := ok_of_bind hr
    cases hr
    obtain ⟨⟨names, last', ending'⟩, hrest, h⟩ := ok_of_bind h
    cases h
    have hsplit : suffixText k = text "(" ++ (suffixText k).drop 1 := by
      simp [suffixText, text]
    have hname' : name = base ++ text " " ++ text "(" ++ suffixText 1 := by
      refine overwrite_ok ((suffixText k).drop 1) ?_
      rw [List.length_drop, hfour, List.append_assoc (base ++ text " "), ← hsplit]
      exact ho
    have hfirst := registerLoop_first hrest
    simp only [hname', List.append_assoc] at hfirst ⊢
    exact List.mem_cons_of_mem _ hfirst

theorem not_nameOf_bracket : ¬NameOf base (base ++ text " " ++ (text "(" ++ suffixText 1)) := by
  rintro (h | ⟨k, -, hk, h⟩)
  · have := congrArg List.length h
    simp [text] at this
  · exact suffixText_ne hk (List.append_cancel_left h).symm

/-- The call does not start with a number of two digits and a name that is taken. -/
def KeepsBrackets (c : ClientNames) (e : Connecting) : Prop :=
  c.naming.suffixLen = 4 → e.results.head? ≠ some .nameTaken

theorem initClient_names (hname : Named base c.naming) (hs : InitClient c e d) :
    ((∀ name ∈ e.tried, NameOf base name) ↔ KeepsBrackets c e) ∧
      (KeepsBrackets c e → Named base d.naming) := by
  cases hs with
  | @call results tried last ending _ h =>
    by_cases hk : KeepsBrackets c ⟨results, tried⟩
    · have hgood : (∀ name ∈ tried, NameOf base name) ∧ Named base last := by
        refine registerLoop_next hname (fun hhead r => retryName_grown fun r => ?_) (by omega) h
        exact growSuffix_first hname fun hlong => hk hlong hhead
      exact ⟨iff_of_true hgood.1 hk, fun _ => hgood.2⟩
    · refine ⟨iff_of_false (fun hall => ?_) hk, fun hk' => (hk hk').elim⟩
      simp only [KeepsBrackets, not_forall, not_not] at hk
      obtain ⟨hlong, hhead⟩ := hk
      obtain ⟨results, rfl⟩ : ∃ rest, results = .nameTaken :: rest := by
        cases results with
        | nil => cases hhead
        | cons x rest => exact ⟨rest, by rw [Option.some.inj hhead]⟩
      exact not_nameOf_bracket (hall _ (registerLoop_bracket hname hlong h))

/-- Every name that the client tries is its name or its name with a number, exactly when no
call of `init_client` finds a number of two digits and a name that is taken. -/
theorem names_tried_iff (hr : Along InitClient (startNames base) run) :
    Along (fun _ e _ => ∀ name ∈ e.tried, NameOf base name) (startNames base) run ↔
      Along (fun c e _ => KeepsBrackets c e) (startNames base) run := by
  refine along_iff (I := fun c => Named base c.naming) ?_ .plain hr
  intro c e d hname hs
  exact initClient_names hname hs

/-- A client called `ann`: the first ten numbers are taken when it connects, and its name is
taken again when it has lost the connection. -/
def twoSessions : List (List Registration) :=
  [List.replicate 10 .nameTaken ++ [.registered], [.nameTaken, .registered]]

/-- The same client, when only three numbers are taken at first. -/
def shortSessions : List (List Registration) :=
  [List.replicate 3 .nameTaken ++ [.registered], [.nameTaken, .registered]]

instance KeepsBrackets.decidable (c : ClientNames) (e : Connecting) :
    Decidable (KeepsBrackets c e) :=
  inferInstanceAs (Decidable (_ → _))

theorem names_tried_iff_ann : ∃ run, Along InitClient (startNames (text "ann")) run ∧
    run.map (fun x => x.1.tried.length) = [4, 2] ∧
    Along (fun c e _ => KeepsBrackets c e) (startNames (text "ann")) run ∧
    (Along (fun _ e _ => ∀ name ∈ e.tried, NameOf (text "ann") name) (startNames (text "ann")) run ↔
      Along (fun c e _ => KeepsBrackets c e) (startNames (text "ann")) run) := by
  obtain ⟨run, hrun, hh⟩ := ok_of_map (c := connects (startNames (text "ann")) shortSessions)
    (f := fun run => (run.map fun x => x.1.tried.length,
      decide (Along (fun c e _ => KeepsBrackets c e) (startNames (text "ann")) run)))
    (b := ([4, 2], true)) (by decide +kernel)
  obtain ⟨htried, hkeeps⟩ := Prod.mk.inj hh
  have hr := connects_along hrun
  exact ⟨run, hr, htried, of_decide_eq_true hkeeps, names_tried_iff hr⟩

/-- The client has become `ann (10)`; the next name it tries is `ann ((1)`. -/
theorem bracket_doubled : ∃ run, Along InitClient (startNames (text "ann")) run ∧
    ∃ x ∈ run, text "ann ((1)" ∈ x.1.tried ∧ ¬NameOf (text "ann") (text "ann ((1)") := by
  obtain ⟨run, hrun, hh⟩ := ok_of_map (c := connects (startNames (text "ann")) twoSessions)
    (f := fun run => run.any fun x => decide (text "ann ((1)" ∈ x.1.tried)) (b := true)
    (by decide +kernel)
  obtain ⟨x, hx, hmem⟩ := List.any_eq_true.mp hh
  exact ⟨run, connects_along hrun, x, hx, of_decide_eq_true hmem, not_nameOf_bracket⟩

end Csc469.Chat
