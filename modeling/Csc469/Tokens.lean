import Mathlib.Data.List.TakeWhile

/-! Texts that are taken apart from left to right, at a delimiter. -/
namespace Csc469.Tokens

variable {α : Type} [DecidableEq α] {delim : α} {s t rest word : List α}

/-- `strtok` with one delimiter: the next token of a text, and what is left behind it. -/
def strtok (delim : α) (s : List α) : Option (List α × List α) :=
  let s := s.dropWhile (· = delim)
  if s = [] then none else some (s.takeWhile (· ≠ delim), (s.dropWhile (· ≠ delim)).drop 1)

/-- What stands between the delimiters of a text, unless it is empty. -/
def tokens (delim : α) (s : List α) : List (List α) := (s.splitOn delim).filter (· ≠ [])

theorem tokens_nil : tokens delim [] = [] := by simp [tokens, List.splitOn_nil]

theorem tokens_delim : tokens delim (delim :: s) = tokens delim s := by
  rw [tokens, List.splitOn_cons_eq_if_modifyHead, if_pos (beq_self_eq_true delim)]
  rfl

theorem tokens_word (hword : delim ∉ word) (hne : word ≠ []) : tokens delim word = [word] := by
  simp [tokens, List.splitOn_eq_singleton hword, hne]

theorem tokens_append (hword : delim ∉ word) (hne : word ≠ []) :
    tokens delim (word ++ delim :: s) = word :: tokens delim s := by
  rw [tokens, List.splitOn_append_cons_self_of_not_mem hword, List.filter_cons_of_pos (by simpa)]
  rfl

theorem strtok_delim : strtok delim (delim :: s) = strtok delim s := by simp [strtok]

theorem dropWhile_word (rest : List α) (hword : delim ∉ word) (hne : word ≠ []) :
    (word ++ rest).dropWhile (· = delim) = word ++ rest := by
  cases word with
  | nil => exact absurd rfl hne
  | cons c word =>
    have hc : c ≠ delim := fun he => hword (by simp [he])
    rw [List.cons_append, List.dropWhile_cons_of_neg (by simpa using hc)]

theorem strtok_word (hword : delim ∉ word) (hne : word ≠ []) :
    strtok delim word = some (word, []) := by
  have hall : ∀ c ∈ word, decide (c ≠ delim) = true := fun c hc => by
    rw [decide_eq_true_eq]
    rintro rfl
    exact hword hc
  have hdrop : word.dropWhile (· = delim) = word := by
    simpa using dropWhile_word [] hword hne
  rw [strtok, hdrop, if_neg hne, List.takeWhile_eq_self_iff.mpr hall,
    List.dropWhile_eq_nil_iff.mpr hall]
  rfl

theorem strtok_append (hword : delim ∉ word) (hne : word ≠ []) :
    strtok delim (word ++ delim :: s) = some (word, s) := by
  have hall : ∀ c ∈ word, decide (c ≠ delim) = true := fun c hc => by
    rw [decide_eq_true_eq]
    rintro rfl
    exact hword hc
  rw [strtok, dropWhile_word _ hword hne, if_neg (by simp),
    List.takeWhile_append_of_pos hall, List.dropWhile_append_of_pos hall,
    List.takeWhile_cons_of_neg (by simp), List.dropWhile_cons_of_neg (by simp), List.append_nil]
  rfl

/-- A token goes on up to the next delimiter. -/
theorem strtok_longer (rest : List α) (hword : delim ∉ word) (hne : word ≠ []) :
    (strtok delim (word ++ rest)).map Prod.fst = some (word ++ rest.takeWhile (· ≠ delim)) := by
  have hall : ∀ c ∈ word, decide (c ≠ delim) = true := fun c hc => by
    rw [decide_eq_true_eq]
    rintro rfl
    exact hword hc
  rw [strtok, dropWhile_word rest hword hne, if_neg (by simp [hne]), List.takeWhile_append_of_pos hall]
  rfl

/-- A text is empty, or it starts with a delimiter or with a word. -/
theorem text_induction (delim : α) {P : List α → Prop} (nil : P [])
    (skip : ∀ rest, P rest → P (delim :: rest))
    (last : ∀ word, delim ∉ word → word ≠ [] → P word)
    (next : ∀ word rest, delim ∉ word → word ≠ [] → P rest → P (word ++ delim :: rest))
    (s : List α) : P s := by
  induction hn : s.length using Nat.strong_induction_on generalizing s with
  | _ n ih =>
    subst hn
    by_cases hd : delim ∈ s
    · obtain ⟨word, rest, rfl, hword⟩ := List.eq_append_cons_of_mem hd
      have hrest : P rest := ih rest.length (by simp; omega) rest rfl
      by_cases hne : word = []
      · subst hne
        exact skip rest hrest
      · exact next word rest hword hne hrest
    · by_cases hne : s = []
      · subst hne
        exact nil
      · exact last s hd hne

/-- Call after call, `strtok` finds the tokens of a text. -/
theorem tokens_strtok : tokens delim s =
    ((strtok delim s).map fun x => x.1 :: tokens delim x.2).getD [] := by
  induction s using text_induction delim with
  | nil => simp [tokens_nil, strtok]
  | skip rest ih => rw [tokens_delim, strtok_delim, ih]
  | last word hw hne =>
    rw [tokens_word hw hne, strtok_word hw hne]
    simp [tokens_nil]
  | next word rest hw hne ih =>
    rw [tokens_append hw hne, strtok_append hw hne]
    rfl

/-- A token is made of characters of the text. -/
theorem mem_tokens {c : α} (h : word ∈ tokens delim s) (hc : c ∈ word) : c ∈ s := by
  induction s using text_induction delim with
  | nil => simp [tokens_nil] at h
  | skip rest ih =>
    rw [tokens_delim] at h
    exact List.mem_cons_of_mem delim (ih h)
  | last last hw hne =>
    rw [tokens_word hw hne] at h
    rwa [← List.mem_singleton.mp h]
  | next next rest hw hne ih =>
    rw [tokens_append hw hne] at h
    rcases List.mem_cons.mp h with rfl | h
    · exact List.mem_append_left _ hc
    · exact List.mem_append_right _ (List.mem_cons_of_mem delim (ih h))

end Csc469.Tokens
