import Mathlib.Data.List.MinMax

/-!
# Anchored patterns

Regular expressions without repetition, matched at the start of a list, with the rule of POSIX that
the longest match counts. A pattern is matched by enumerating what can be left over
(`Pattern.rests`), which is correct for its language (`Pattern.mem_rests`); the longest match is the
one that leaves the least (`Pattern.rest`).
-/

/-- A regular expression without repetition. -/
inductive Pattern (α : Type*) where
  | lit (w : List α)
  | seq (r s : Pattern α)
  | alt (r s : Pattern α)
  | opt (r : Pattern α)

namespace Pattern

variable {α : Type*}

/-- The language of a pattern. -/
def Matches : Pattern α → List α → Prop
  | .lit w, l => l = w
  | .seq r s, l => ∃ l₁ l₂, r.Matches l₁ ∧ s.Matches l₂ ∧ l = l₁ ++ l₂
  | .alt r s, l => r.Matches l ∨ s.Matches l
  | .opt r, l => r.Matches l ∨ l = []

variable [DecidableEq α]

/-- What is left of a list after each match at its start. -/
def rests : Pattern α → List α → List (List α)
  | .lit w, l => (w.isPrefixOf? l).toList
  | .seq r s, l => (r.rests l).flatMap s.rests
  | .alt r s, l => r.rests l ++ s.rests l
  | .opt r, l => r.rests l ++ [l]

/-- **The matcher is correct for the language.** -/
theorem mem_rests {r : Pattern α} {l t : List α} :
    t ∈ r.rests l ↔ ∃ w, r.Matches w ∧ l = w ++ t := by
  induction r generalizing l t with
  | lit w => simp [rests, Matches, eq_comm]
  | seq r s ihr ihs =>
    rw [rests, List.mem_flatMap]
    constructor
    · rintro ⟨u, hu, ht⟩
      obtain ⟨w₁, hw₁, rfl⟩ := ihr.mp hu
      obtain ⟨w₂, hw₂, rfl⟩ := ihs.mp ht
      exact ⟨w₁ ++ w₂, ⟨w₁, w₂, hw₁, hw₂, rfl⟩, (List.append_assoc w₁ w₂ t).symm⟩
    · rintro ⟨w, ⟨w₁, w₂, hw₁, hw₂, rfl⟩, rfl⟩
      exact ⟨w₂ ++ t, ihr.mpr ⟨w₁, hw₁, List.append_assoc w₁ w₂ t⟩, ihs.mpr ⟨w₂, hw₂, rfl⟩⟩
  | alt r s ihr ihs =>
    rw [rests, List.mem_append, ihr, ihs, ← exists_or]
    exact exists_congr fun w ↦ or_and_right.symm
  | opt r ih =>
    rw [rests, List.mem_append, ih, List.mem_singleton]
    constructor
    · rintro (⟨w, hw, rfl⟩ | rfl)
      · exact ⟨w, Or.inl hw, rfl⟩
      · exact ⟨[], Or.inr rfl, rfl⟩
    · rintro ⟨w, hw | rfl, rfl⟩
      · exact Or.inl ⟨w, hw, rfl⟩
      · exact Or.inr rfl

/-- What is left of a list after the longest match at its start. -/
def rest (r : Pattern α) (l : List α) : Option (List α) := (r.rests l).argmin List.length

/-- **The longest match.** What is left is left by a match at the start than which no other is
longer. -/
theorem rest_eq_some {r : Pattern α} {l t : List α} (h : r.rest l = some t) :
    ∃ w, r.Matches w ∧ l = w ++ t ∧ ∀ w', r.Matches w' → w' <+: l → w'.length ≤ w.length := by
  obtain ⟨w, hw, rfl⟩ := mem_rests.mp (List.argmin_mem h)
  refine ⟨w, hw, rfl, ?_⟩
  rintro w' hw' ⟨t', heq⟩
  have hshort := List.le_of_mem_argmin (mem_rests.mpr ⟨w', hw', heq.symm⟩) h
  have hlen := congrArg List.length heq
  rw [List.length_append, List.length_append] at hlen
  omega

/-- `s/^r/repl/`: the longest match at the start is replaced; `none` if there is none. -/
def sub (r : Pattern α) (repl l : List α) : Option (List α) := (r.rest l).map (repl ++ ·)

/-- The longest match at the start. -/
def longest (r : Pattern α) (l : List α) : Option (List α) :=
  (r.rest l).map fun t ↦ l.take (l.length - t.length)

theorem longest_eq_some {r : Pattern α} {w t : List α} (h : r.rest (w ++ t) = some t) :
    r.longest (w ++ t) = some w := by
  rw [longest, h, Option.map_some, List.length_append, Nat.add_sub_cancel, List.take_left']
  rfl

end Pattern
