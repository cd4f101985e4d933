import Mathlib.Data.List.Basic
import Mathlib.Data.List.Infix
import Mathlib.Data.List.TakeWhile

/-!
# The path of a URI

How RFC 3986 splits a URI into its components, as far as the path goes, and how it decodes the
path. The split is that of the regular expression of its Appendix B: an optional scheme before the
first of `:/?#`, an optional authority behind `//`, and the path up to the first `?` or `#`.

Two facts matter to a program that makes a URI by putting strings together. Behind a base that ends
in a slash and has a path, what is appended is appended to the path, up to its first `?` or `#`
(`path_append`). And decoding leaves a string alone exactly if there is no escape in it
(`percentDecode_eq_self_iff`).
-/

namespace Uri

/-! ## Components -/

/-- What follows the scheme, if there is one. -/
def afterScheme (s : List UInt8) : List UInt8 :=
  let scheme := s.takeWhile fun c ↦ c ≠ 58 ∧ c ≠ 47 ∧ c ≠ 63 ∧ c ≠ 35
  match s.drop scheme.length with
  | [] => s
  | c :: rest => if c = 58 ∧ scheme ≠ [] then rest else s

/-- What follows the authority, if there is one. -/
def afterAuthority : List UInt8 → List UInt8
  | c :: d :: rest =>
    if c = 47 ∧ d = 47 then rest.dropWhile fun c ↦ c ≠ 47 ∧ c ≠ 63 ∧ c ≠ 35 else c :: d :: rest
  | s => s

/-- What comes before a query and a fragment. -/
def beforeQuery (s : List UInt8) : List UInt8 := s.takeWhile fun c ↦ c ≠ 63 ∧ c ≠ 35

/-- The path of a URI. -/
def path (s : List UInt8) : List UInt8 := beforeQuery (afterAuthority (afterScheme s))

/-- The segments of a path. -/
def segments (s : List UInt8) : List (List UInt8) := s.splitOn 47

variable {s t base : List UInt8}

theorem beforeQuery_eq_self_iff : beforeQuery s = s ↔ 63 ∉ s ∧ 35 ∉ s := by
  rw [beforeQuery, List.takeWhile_eq_self_iff]
  simp only [decide_eq_true_eq]
  constructor
  · exact fun h ↦ ⟨fun hq ↦ (h _ hq).1 rfl, fun hf ↦ (h _ hf).2 rfl⟩
  · exact fun h c hc ↦ ⟨fun hq ↦ h.1 (hq ▸ hc), fun hf ↦ h.2 (hf ▸ hc)⟩

theorem beforeQuery_append (hs : beforeQuery s = s) :
    beforeQuery (s ++ t) = s ++ beforeQuery t := by
  rw [beforeQuery, List.takeWhile_append_of_pos, beforeQuery]
  exact List.takeWhile_eq_self_iff.mp hs

theorem length_beforeQuery_le (s : List UInt8) : (beforeQuery s).length ≤ s.length :=
  (List.takeWhile_prefix _).length_le

theorem afterScheme_append (h : 47 ∈ base) (t : List UInt8) :
    afterScheme (base ++ t) = afterScheme base ++ t := by
  rw [afterScheme, afterScheme]
  set p : UInt8 → Bool := fun c ↦ c ≠ 58 ∧ c ≠ 47 ∧ c ≠ 63 ∧ c ≠ 35
  have hlt : (base.takeWhile p).length < base.length := by
    refine (List.takeWhile_prefix p).length_le.lt_of_ne fun heq ↦ ?_
    have hall := List.takeWhile_eq_self_iff.mp ((List.takeWhile_prefix p).eq_of_length heq)
    exact absurd (hall 47 h) (by decide)
  rw [List.takeWhile_append, if_neg hlt.ne]
  simp only [List.drop_append_of_le_length hlt.le]
  cases hdrop : base.drop (base.takeWhile p).length with
  | nil =>
    rw [List.drop_eq_nil_iff] at hdrop
    omega
  | cons c rest =>
    simp only [List.cons_append]
    split
    · rfl
    · rfl

theorem afterScheme_suffix (s : List UInt8) : afterScheme s <:+ s := by
  rw [afterScheme]
  split
  · exact List.suffix_refl s
  next c rest hdrop =>
    split
    · exact (List.suffix_cons c rest).trans (hdrop ▸ List.drop_suffix _ s)
    · exact List.suffix_refl s

theorem getLast?_afterScheme (h : base.getLast? = some 47) :
    (afterScheme base).getLast? = some 47 := by
  rw [afterScheme]
  split
  · exact h
  next c rest hdrop =>
    split
    next hc =>
      obtain ⟨w, hw⟩ : c :: rest <:+ base := hdrop ▸ List.drop_suffix _ base
      cases rest with
      | nil =>
        rw [← hw, List.getLast?_concat, hc.1] at h
        exact absurd h (by decide)
      | cons d rest => rwa [← hw, List.getLast?_append_cons, List.getLast?_cons_cons] at h
    · exact h

theorem afterAuthority_suffix (s : List UInt8) : afterAuthority s <:+ s := by
  rw [afterAuthority.eq_def]
  split
  next c d rest =>
    split
    · exact (List.dropWhile_suffix _).trans ((List.suffix_cons d rest).trans (List.suffix_cons c _))
    · exact List.suffix_refl _
  · exact List.suffix_refl _

theorem afterAuthority_append (hslash : s.getLast? = some 47) (ht : t.head? ≠ some 47)
    (hne : afterAuthority s ≠ []) : afterAuthority (s ++ t) = afterAuthority s ++ t := by
  match s with
  | [] => exact absurd hslash (by simp)
  | [c] =>
    cases t with
    | nil => rfl
    | cons d t =>
      have hd : d ≠ 47 := fun h ↦ ht (by rw [h]; rfl)
      rw [List.singleton_append, afterAuthority, if_neg fun h ↦ hd h.2]
      rfl
  | c :: d :: rest =>
    rw [List.cons_append, List.cons_append, afterAuthority, afterAuthority]
    by_cases h : c = 47 ∧ d = 47
    · rw [afterAuthority, if_pos h] at hne
      rw [if_pos h, if_pos h, List.dropWhile_append, if_neg (by rwa [List.isEmpty_iff])]
    · rw [if_neg h, if_neg h]
      rfl

theorem eq_of_afterAuthority_eq_nil (hslash : s.getLast? = some 47) (h : afterAuthority s = []) :
    s = [47, 47] := by
  match s with
  | [] => exact absurd hslash (by simp)
  | [c] => cases h
  | c :: d :: rest =>
    rw [afterAuthority] at h
    by_cases hcd : c = 47 ∧ d = 47
    · obtain ⟨rfl, rfl⟩ := hcd
      rw [if_pos ⟨rfl, rfl⟩, List.dropWhile_eq_nil_iff] at h
      cases rest with
      | nil => rfl
      | cons e rest =>
        rw [List.getLast?_cons_cons, List.getLast?_cons_cons] at hslash
        exact absurd (h 47 (List.mem_of_getLast? hslash)) (by decide)
    · rw [if_neg hcd] at h
      exact absurd h (by simp)

theorem path_eq (hplain : 63 ∉ s ∧ 35 ∉ s) : path s = afterAuthority (afterScheme s) := by
  have hsuffix := (afterAuthority_suffix (afterScheme s)).trans (afterScheme_suffix s)
  exact beforeQuery_eq_self_iff.mpr
    ⟨fun h ↦ hplain.1 (hsuffix.mem h), fun h ↦ hplain.2 (hsuffix.mem h)⟩

/-- **Appending to a base.** Behind a base that ends in a slash and has a path, a string that does
not start with a slash is appended to the path, up to its own query and fragment. -/
theorem path_append (hslash : base.getLast? = some 47) (hplain : 63 ∉ base ∧ 35 ∉ base)
    (ht : t.head? ≠ some 47) (hpath : path base ≠ []) :
    path (base ++ t) = path base ++ beforeQuery t := by
  have hself : beforeQuery (path base) = path base := List.takeWhile_idem
  rw [path_eq hplain] at hpath hself ⊢
  rw [path, afterScheme_append (List.mem_of_getLast? hslash),
    afterAuthority_append (getLast?_afterScheme hslash) ht hpath, beforeQuery_append hself]

theorem length_path_append_lt (hslash : base.getLast? = some 47) (hplain : 63 ∉ base ∧ 35 ∉ base)
    (hpath : path base = []) {c : UInt8} (hc : c ≠ 47 ∧ c ≠ 63 ∧ c ≠ 35) (t : List UInt8) :
    (path (base ++ c :: t)).length < (c :: t).length := by
  rw [path_eq hplain] at hpath
  rw [path, afterScheme_append (List.mem_of_getLast? hslash),
    eq_of_afterAuthority_eq_nil (getLast?_afterScheme hslash) hpath]
  refine (length_beforeQuery_le _).trans_lt ?_
  rw [List.cons_append, List.cons_append, List.nil_append, afterAuthority, if_pos ⟨rfl, rfl⟩,
    List.dropWhile_cons_of_pos (by simpa using hc)]
  exact Nat.lt_succ_of_le (List.dropWhile_suffix _).length_le

theorem mem_segments_append {seg : List UInt8} (ht : 47 ∉ t) (h : seg ∈ segments (s ++ t)) :
    seg <:+: s ∨ t <:+ seg := by
  induction hn : s.length using Nat.strong_induction_on generalizing s with
  | _ n ih =>
    by_cases hs : 47 ∈ s
    · obtain ⟨a, b, rfl, ha⟩ := List.eq_append_cons_of_mem hs
      rw [segments, List.append_assoc, List.cons_append,
        List.splitOn_append_cons_self_of_not_mem ha] at h
      rcases List.mem_cons.mp h with rfl | h
      · exact Or.inl (List.prefix_append seg _).isInfix
      · have hb : b <:+: a ++ 47 :: b := ⟨a ++ [47], [], by simp⟩
        rw [List.length_append, List.length_cons] at hn
        exact (ih b.length (by omega) h rfl).imp (fun h ↦ h.trans hb) id
    · rw [segments, List.splitOn_eq_singleton fun h ↦ (List.mem_append.mp h).elim hs ht] at h
      rw [List.mem_singleton.mp h]
      exact Or.inr (List.suffix_append s t)

/-! ## Escapes -/

/-- The value of a hexadecimal digit. -/
def hexValue (c : UInt8) : Option UInt8 :=
  if 48 ≤ c ∧ c ≤ 57 then some (c - 48)
  else if 65 ≤ c ∧ c ≤ 70 then some (c - 55)
  else if 97 ≤ c ∧ c ≤ 102 then some (c - 87)
  else none

/-- The byte that three characters stand for, if they are an escape. -/
def escape (c a b : UInt8) : Option UInt8 :=
  if c = 37 then (hexValue a).bind fun x ↦ (hexValue b).map fun y ↦ 16 * x + y else none

/-- Every escape is replaced by its byte. -/
def percentDecode : List UInt8 → List UInt8
  | c :: a :: b :: s =>
    match escape c a b with
    | some v => v :: percentDecode s
    | none => c :: percentDecode (a :: b :: s)
  | s => s

/-- There is an escape in the string. -/
def hasEscape : List UInt8 → Bool
  | c :: a :: b :: s => (escape c a b).isSome || hasEscape (a :: b :: s)
  | _ => false

theorem length_percentDecode_le (s : List UInt8) : (percentDecode s).length ≤ s.length := by
  fun_induction percentDecode s with
  | case1 c a b s v hv ih =>
    simp only [List.length_cons]
    omega
  | case2 c a b s hnone ih => exact Nat.succ_le_succ ih
  | case3 s hs => exact le_refl _

theorem percentDecode_eq_self_iff : percentDecode s = s ↔ hasEscape s = false := by
  fun_induction percentDecode s with
  | case1 c a b s v hv ih =>
    refine iff_of_false (fun h ↦ ?_) (by simp [hasEscape, hv])
    have hlen := congrArg List.length h
    have hle := length_percentDecode_le s
    simp only [List.length_cons] at hlen
    omega
  | case2 c a b s hnone ih =>
    rw [List.cons_inj_right, ih, hasEscape, hnone]
    rfl
  | case3 s hs =>
    apply iff_of_true rfl
    rw [hasEscape.eq_def]
    split
    · exact absurd rfl (hs _ _ _ _)
    · rfl

theorem hasEscape_append_left (hs : 37 ∉ s) (t : List UInt8) :
    hasEscape (s ++ t) = hasEscape t := by
  induction s with
  | nil => rfl
  | cons c s ih =>
    rw [List.mem_cons, not_or] at hs
    have hc : ∀ a b, escape c a b = none := fun a b ↦ if_neg (Ne.symm hs.1)
    rw [← ih hs.2, List.cons_append]
    match s ++ t with
    | [] => rfl
    | [_] => rfl
    | a :: b :: u =>
      rw [hasEscape, hc]
      rfl

theorem hasEscape_append_right {c : UInt8} (hc : hexValue c = none) (hct : 37 ∉ c :: t)
    (s : List UInt8) : hasEscape (s ++ c :: t) = hasEscape s := by
  have hnone : hasEscape (c :: t) = false := by
    rw [← List.append_nil (c :: t), hasEscape_append_left hct]
    rfl
  have hfirst : ∀ d b, escape d c b = none := fun d b ↦ by simp [escape, hc]
  have hsecond : ∀ d a, escape d a c = none := fun d a ↦ by simp [escape, hc]
  induction s with
  | nil => exact hnone
  | cons d s ih =>
    rw [List.cons_append]
    match s with
    | [] =>
      cases t with
      | nil => rfl
      | cons b t =>
        rw [List.nil_append, hasEscape, hfirst, hnone]
        rfl
    | [a] =>
      rw [List.cons_append, List.nil_append, hasEscape, hsecond]
      exact ih
    | a :: b :: u =>
      rw [List.cons_append, List.cons_append] at ih ⊢
      rw [hasEscape, ih, hasEscape]

end Uri
