import Mathlib.Data.List.Perm.Subperm

/-! Names in the order of their first appearance, when only some occurrences are taken. -/
namespace Csc469.FirstSeen

variable {α : Type} {seen seen' k l : List α} {x : α} {occ : List (α × Bool)}

section Read

/-- The names whose occurrences are taken. -/
def taken (occ : List (α × Bool)) : List α := (occ.filter Prod.snd).map Prod.fst

theorem taken_eq_append_cons {k₁ k₂ : List α} (h : taken occ = k₁ ++ x :: k₂) :
    ∃ between rest, occ = between ++ (x, true) :: rest ∧ taken between = k₁ := by
  obtain ⟨l₁, l', hl, hl₁, hl'⟩ := List.map_eq_append_iff.mp h
  obtain ⟨between, occ', rfl, hb, hocc⟩ := List.filter_eq_append_iff.mp hl
  obtain ⟨⟨y, flag⟩, l₂, rfl, rfl, -⟩ := List.map_eq_cons_iff.mp hl'
  obtain ⟨skipped, rest, rfl, hskip, hflag, -⟩ := List.filter_eq_cons_iff.mp hocc
  obtain rfl : flag = true := hflag
  refine ⟨between ++ skipped, rest, by simp, ?_⟩
  have hnone : skipped.filter Prod.snd = [] := List.filter_eq_nil_iff.mpr hskip
  rw [taken, List.filter_append, hb, hnone, List.append_nil, hl₁]

/-- Every new name that is passed over is taken later, and until then only names are taken that
have appeared before it. -/
def TakenInTime (seen : List α) (occ : List (α × Bool)) : Prop :=
  ∀ before x after, occ = before ++ (x, false) :: after → x ∉ seen ++ before.map Prod.fst →
    ∃ between rest, after = between ++ (x, true) :: rest ∧
      ∀ y ∈ taken between, y ∈ seen ++ before.map Prod.fst

theorem takenInTime_cons {o : α × Bool} : TakenInTime seen (o :: occ) ↔
    (o.2 = false → o.1 ∉ seen → ∃ between rest, occ = between ++ (o.1, true) :: rest ∧
      ∀ y ∈ taken between, y ∈ seen) ∧ TakenInTime (seen ++ [o.1]) occ := by
  obtain ⟨x, flag⟩ := o
  constructor
  · intro h
    refine ⟨?_, fun before y after he hy => ?_⟩
    · rintro rfl hx
      obtain ⟨between, rest, hafter, hread⟩ := h [] x occ rfl (by simpa using hx)
      exact ⟨between, rest, hafter, by simpa using hread⟩
    · obtain ⟨between, rest, hafter, hread⟩ := h ((x, flag) :: before) y after (by rw [he]; rfl)
        (by simpa using hy)
      exact ⟨between, rest, hafter, by simpa using hread⟩
  · rintro ⟨hfirst, hlater⟩ before y after he hy
    cases before with
    | nil =>
      obtain ⟨heq, rfl⟩ := List.cons.inj he
      obtain ⟨rfl, rfl⟩ := Prod.mk.inj heq
      obtain ⟨between, rest, hafter, hread⟩ := hfirst rfl (by simpa using hy)
      exact ⟨between, rest, hafter, by simpa using hread⟩
    | cons o before =>
      obtain ⟨rfl, rfl⟩ := List.cons.inj he
      obtain ⟨between, rest, hafter, hread⟩ := hlater before y after rfl (by simpa using hy)
      exact ⟨between, rest, hafter, by simpa using hread⟩

end Read

section News
variable [BEq α] [LawfulBEq α]

/-- The names of a list that have not been seen before, once each. -/
def news (seen : List α) : List α → List α
  | [] => []
  | x :: l => if x ∈ seen then news seen l else x :: news (x :: seen) l

theorem news_eq : news seen l = (l.filter fun x => x ∉ seen).eraseDups := by
  induction l generalizing seen with
  | nil => rfl
  | cons x l ih =>
    rw [news]
    split
    · next hx => rw [ih, List.filter_cons_of_neg (by simpa using hx)]
    · next hx =>
      rw [ih, List.filter_cons_of_pos (by simpa using hx), List.eraseDups_cons, List.filter_filter]
      refine congrArg (x :: List.eraseDups ·) (List.filter_congr fun y _ => ?_)
      rw [Bool.eq_iff_iff]
      simp [not_or]

theorem news_nil : news [] l = l.eraseDups := by simp [news_eq]

/-- The next new name is found behind names that have been seen. -/
theorem news_eq_cons {r : List α} : news seen l = x :: r ↔
    x ∉ seen ∧ r = news (x :: seen) l ∧ ∃ k₁ k₂, l = k₁ ++ x :: k₂ ∧ ∀ y ∈ k₁, y ∈ seen := by
  induction l with
  | nil => simp [news]
  | cons y l ih =>
    rw [news, news]
    split
    · next hy =>
      rw [ih, if_pos (List.mem_cons_of_mem x hy)]
      refine and_congr_right fun hx => and_congr_right fun _ => ⟨?_, ?_⟩
      · rintro ⟨k₁, k₂, rfl, hk⟩
        exact ⟨y :: k₁, k₂, rfl, List.forall_mem_cons.mpr ⟨hy, hk⟩⟩
      · rintro ⟨k₁, k₂, he, hk⟩
        cases k₁ with
        | nil =>
          obtain ⟨rfl, -⟩ := List.cons.inj he
          exact absurd hy hx
        | cons z k₁ =>
          obtain ⟨rfl, rfl⟩ := List.cons.inj he
          exact ⟨k₁, k₂, rfl, fun w hw => hk w (List.mem_cons_of_mem y hw)⟩
    · next hy =>
      rw [List.cons.injEq]
      constructor
      · rintro ⟨rfl, rfl⟩
        exact ⟨hy, by rw [if_pos List.mem_cons_self], [], l, rfl, by simp⟩
      · rintro ⟨hx, hr, k₁, k₂, he, hk⟩
        cases k₁ with
        | nil =>
          obtain ⟨rfl, -⟩ := List.cons.inj he
          rw [if_pos List.mem_cons_self] at hr
          exact ⟨rfl, hr.symm⟩
        | cons z k₁ =>
          obtain ⟨rfl, -⟩ := List.cons.inj he
          exact absurd (hk y List.mem_cons_self) hy

theorem notMem_seen (h : x ∈ news seen l) : x ∉ seen := by
  rw [news_eq, List.mem_eraseDups] at h
  simpa using (List.mem_filter.mp h).2

theorem nodup_news : (news seen l).Nodup := by
  induction l generalizing seen with
  | nil => exact List.nodup_nil
  | cons x l ih =>
    rw [news]
    split
    · exact ih
    · exact List.nodup_cons.mpr ⟨fun hx => notMem_seen hx List.mem_cons_self, ih⟩

theorem length_eraseDups_le (h : k ⊆ l) : k.eraseDups.length ≤ l.eraseDups.length := by
  have hnodup : k.eraseDups.Nodup := news_nil (l := k) ▸ nodup_news
  refine (hnodup.subperm fun y hy => ?_).length_le
  rw [List.mem_eraseDups] at hy ⊢
  exact h hy

theorem eraseDups_concat :
    (l ++ [x]).eraseDups = if x ∈ l then l.eraseDups else l.eraseDups ++ [x] := by
  rw [List.eraseDups_append]
  split
  · next hx => simp [List.removeAll, hx]
  · next hx => simp [List.removeAll, hx, List.eraseDups_cons]

theorem news_congr (h : ∀ y, y ∈ seen ↔ y ∈ seen') : news seen l = news seen' l := by
  simp only [news_eq, h]

/-- What is taken has its names in the order in which they appear. -/
theorem news_taken_iff :
    news seen (taken occ) = news seen (occ.map Prod.fst) ↔ TakenInTime seen occ := by
  induction occ generalizing seen with
  | nil => simp [taken, TakenInTime]
  | cons o occ ih =>
    obtain ⟨x, flag⟩ := o
    have hseen : ∀ l, news (x :: seen) l = news (seen ++ [x]) l := fun l =>
      news_congr fun y => by simp [or_comm]
    rw [takenInTime_cons, ← ih, List.map_cons, news]
    split
    · next hx =>
      -- a name that has been seen counts neither way
      have hsame : ∀ l, news seen l = news (seen ++ [x]) l := fun l =>
        news_congr fun y => by simp only [List.mem_append, List.mem_singleton]; grind
      have hread : news seen (taken ((x, flag) :: occ)) = news seen (taken occ) := by
        cases flag with
        | false => rfl
        | true => exact if_pos hx
      rw [hread, hsame, hsame]
      exact ⟨fun h => ⟨fun _ hn => absurd hx hn, h⟩, fun h => h.2⟩
    · next hx =>
      rw [← hseen, ← hseen]
      cases flag with
      | true =>
        have hread : news seen (taken ((x, true) :: occ)) = x :: news (x :: seen) (taken occ) :=
          if_neg hx
        rw [hread, List.cons.injEq]
        simp
      | false =>
        have hread : taken ((x, false) :: occ) = taken occ := rfl
        rw [hread, news_eq_cons]
        constructor
        · rintro ⟨-, hr, k₁, k₂, hk, hold⟩
          obtain ⟨between, rest, hocc, rfl⟩ := taken_eq_append_cons hk
          exact ⟨fun _ _ => ⟨between, rest, hocc, hold⟩, hr.symm⟩
        · rintro ⟨h, hr⟩
          obtain ⟨between, rest, hocc, hold⟩ := h rfl hx
          refine ⟨hx, hr.symm, taken between, taken rest, ?_, hold⟩
          rw [hocc, taken, List.filter_append, List.filter_cons_of_pos rfl, List.map_append]
          rfl

theorem eraseDups_taken_iff :
    (taken occ).eraseDups = (occ.map Prod.fst).eraseDups ↔ TakenInTime [] occ := by
  rw [← news_nil, ← news_nil, news_taken_iff]

end News
end Csc469.FirstSeen
