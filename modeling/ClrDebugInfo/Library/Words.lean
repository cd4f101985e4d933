import Mathlib.Data.List.DropRight

/-!
# Words of a text

How line tools cut a text: into lines, each ended by a newline (`textLines`); a line into the words
between runs of blanks (`words`); and a column without the space around it (`trim`).

Words are what the tool sees, and the two facts that matter are what a word cannot hold
(`mem_words`) and which lines are read as they were written (`words_cons`, `textLines_flatMap`).
-/

namespace Words

variable {α : Type*}

/-! ## Words -/

/-- The maximal runs of elements that are not blank. -/
def words (blank : α → Bool) (s : List α) : List (List α) :=
  (s.splitOnP blank).filter fun w ↦ !w.isEmpty

variable {blank space : α → Bool} {s w : List α} {a : α}

theorem mem_splitOnP (h : w ∈ s.splitOnP blank) (ha : a ∈ w) : blank a = false := by
  induction s generalizing w with
  | nil =>
    rw [List.splitOnP_nil, List.mem_singleton] at h
    rw [h] at ha
    exact absurd ha List.not_mem_nil
  | cons b s ih =>
    obtain ⟨first, others, hsplit⟩ := List.exists_cons_of_ne_nil (List.splitOnP_ne_nil blank s)
    rw [List.splitOnP_cons_eq_if_modifyHead, hsplit] at h
    rw [hsplit] at ih
    by_cases hb : blank b
    · rw [if_pos hb] at h
      rcases List.mem_cons.mp h with rfl | h
      · exact absurd ha List.not_mem_nil
      · exact ih h ha
    · rw [if_neg hb, List.modifyHead_cons] at h
      rcases List.mem_cons.mp h with rfl | h
      · rcases List.mem_cons.mp ha with rfl | ha
        · exact Bool.eq_false_iff.mpr hb
        · exact ih List.mem_cons_self ha
      · exact ih (List.mem_cons_of_mem first h) ha

theorem mem_words (h : w ∈ words blank s) (ha : a ∈ w) : blank a = false :=
  mem_splitOnP (List.mem_of_mem_filter h) ha

theorem words_singleton (hw : w ≠ []) (h : ∀ a ∈ w, blank a = false) : words blank w = [w] := by
  rw [words, List.splitOnP_eq_singleton h, List.filter_cons_of_pos (by simpa using hw),
    List.filter_nil]

theorem words_cons (hw : w ≠ []) (h : ∀ a ∈ w, blank a = false) (ha : blank a = true)
    (s : List α) : words blank (w ++ a :: s) = w :: words blank s := by
  rw [words, List.splitOnP_append_cons_of_forall_mem h a ha,
    List.filter_cons_of_pos (by simpa using hw), words]

@[simp] theorem words_nil (blank : α → Bool) : words blank [] = [] := by
  rw [words, List.splitOnP_nil]
  rfl

theorem words_blank_cons (ha : blank a = true) (s : List α) :
    words blank (a :: s) = words blank s := by
  rw [words, List.splitOnP_cons_eq_if_modifyHead, if_pos ha, List.filter_cons_of_neg (by simp),
    words]

theorem blank_of_words_nil (h : words blank s = []) : ∀ a ∈ s, blank a = true := by
  induction s with
  | nil => simp
  | cons b s ih =>
    by_cases hb : blank b = true
    · rw [words_blank_cons hb] at h
      exact List.forall_mem_cons.mpr ⟨hb, ih h⟩
    · obtain ⟨first, others, hsplit⟩ := List.exists_cons_of_ne_nil (List.splitOnP_ne_nil blank s)
      rw [words, List.splitOnP_cons_eq_if_modifyHead, if_neg hb, hsplit, List.modifyHead_cons,
        List.filter_cons_of_pos (by simp)] at h
      exact absurd h (by simp)

theorem words_append_blank_cons (ha : blank a = true) (s t : List α) :
    words blank (s ++ a :: t) = words blank s ++ words blank t := by
  rw [words, List.splitOnP_append_cons s t ha, List.filter_append, words, words]

theorem words_rdropWhile (blank : α → Bool) (s : List α) :
    words blank (s.rdropWhile blank) = words blank s := by
  induction s using List.reverseRecOn with
  | nil => rw [List.rdropWhile_nil]
  | append_singleton s a ih =>
    by_cases ha : blank a = true
    · rw [List.rdropWhile_concat_pos _ _ _ ha, ih, words_append_blank_cons ha, words_nil,
        List.append_nil]
    · rw [List.rdropWhile_concat_neg _ _ _ ha]

/-! ## Columns -/

/-- A column without the space around it. -/
def trim (space : α → Bool) (s : List α) : List α := (s.dropWhile space).rdropWhile space

theorem mem_of_mem_trim (h : a ∈ trim space s) : a ∈ s :=
  (List.dropWhile_suffix space).subset ((List.rdropWhile_prefix space _).subset h)

theorem space_getLast?_trim (h : (trim space s).getLast? = some a) : space a = false := by
  have hne : trim space s ≠ [] := by
    intro hnil
    rw [hnil] at h
    exact absurd h (by simp)
  rw [List.getLast?_eq_getLast_of_ne_nil hne, Option.some_inj] at h
  have hlast := List.rdropWhile_last_not space _ hne
  rw [← h]
  exact Bool.eq_false_iff.mpr hlast

theorem trim_eq_self (hfirst : ∀ a, s.head? = some a → space a = false)
    (hlast : ∀ a, s.getLast? = some a → space a = false) : trim space s = s := by
  have hdrop : s.dropWhile space = s := by
    match s with
    | [] => rfl
    | a :: s => rw [List.dropWhile_cons_of_neg (Bool.eq_false_iff.mp (hfirst a rfl))]
  rw [trim, hdrop, List.rdropWhile_eq_self_iff]
  intro hne
  exact Bool.eq_false_iff.mp (hlast _ (List.getLast?_eq_getLast_of_ne_nil hne))

/-! ## Lines -/

/-- The lines of a text, each of which is ended by `nl`. -/
def textLines [BEq α] (nl : α) (text : List α) : List (List α) := (text.splitOn nl).dropLast

/-- A text that is written record by record: what is read differs only in records with a newline
in them. -/
theorem textLines_flatMap {β : Type*} [BEq α] [LawfulBEq α] (nl : α) (record : β → List α)
    (l : List β) : textLines nl (l.flatMap fun b ↦ record b ++ [nl]) =
      l.flatMap fun b ↦ (record b).splitOn nl := by
  induction l with
  | nil => rw [List.flatMap_nil, List.flatMap_nil, textLines, List.splitOn_nil]; rfl
  | cons b l ih =>
    rw [List.flatMap_cons, List.flatMap_cons, ← ih, textLines, textLines, List.append_assoc,
      List.singleton_append, List.splitOn_append_cons_self,
      List.dropLast_append_of_ne_nil (List.splitOn_ne_nil nl _)]

end Words
