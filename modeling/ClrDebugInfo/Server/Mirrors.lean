import Mathlib.Data.List.TakeWhile
import ClrDebugInfo.Library.Words
import ClrDebugInfo.Server.Request

/-!
# The list of mirrors

`configure_urls` of `src/server.c`, which reads the base URLs from the environment. A pointer into
the value is what is left of it, with the NUL at its end, so that a read behind the NUL is a read of
the empty list and ends the call with an error of its own.

Each turn of the loop takes a token, if there is one at the pointer, and then passes over the
separator that ended it; without a token it passes over one separator. `configureLoop_eq` follows
it with the words that are still to come.

Lengths and counts are natural numbers, where the source has `int`s. `execve` takes no string of the
environment that is longer than 32 pages, so neither comes anywhere near `2 ^ 31`.
-/

namespace ClrDebugInfo

open Words

/-! ## The loop -/

/-- `urls`, `urls_size` and `urlcounter`. -/
structure UrlList where
  urls : List Bytes
  urlsSize : ℕ
  urlcounter : Int32
  deriving DecidableEq

/-- The variables as they are initialised. -/
def UrlList.init : UrlList := ⟨urlsDefault, urlsDefault.length, 1⟩

/-- How a call does not return. -/
inductive Stopped
  /-- `exit(EXIT_FAILURE)` -/
  | exit
  /-- A read behind the NUL. -/
  | overrun
  deriving DecidableEq

/-- The characters of `" \t\n"`. -/
def isSeparator (c : UInt8) : Bool := c = 32 || c = 9 || c = 10

/-- `strcspn(s, " \t\n")` -/
def strcspn : Bytes → Option ℕ
  | [] => none
  | c :: s => if c = 0 ∨ isSeparator c then some 0 else (strcspn s).map (· + 1)

/-- `urls_new` after a token of a length. -/
def addToken (token : Bytes) (tokenLen : ℕ) (urlsNew : List Bytes) : List Bytes :=
  if tokenLen = 0 then urlsNew else urlsNew ++ [token.take tokenLen]

/-- The loop of `configure_urls`, from `token`, when `k` allocations have been made: `urls_new`. A
token takes two, one for the array and one for the string. -/
def configureLoop (alloc : ℕ → Bool) (token : Bytes) (k : ℕ) (urlsNew : List Bytes) :
    Except Stopped (List Bytes) :=
  match strcspn token with
  | none => .error .overrun
  | some tokenLen =>
    if tokenLen ≠ 0 ∧ (alloc k && alloc (k + 1)) = false then .error .exit
    else
      match hnext : token.drop tokenLen with
      | [] => .error .overrun
      | c :: rest =>
        if c = 0 then .ok (addToken token tokenLen urlsNew)
        else configureLoop alloc rest (if tokenLen = 0 then k else k + 2)
          (addToken token tokenLen urlsNew)
termination_by token.length
decreasing_by
  have hlen := congrArg List.length hnext
  rw [List.length_drop, List.length_cons] at hlen
  omega

/-- `configure_urls`: what it returns, and the variables afterwards. `env` is the value of
`CLR_DEBUGINFO_URLS`, if it is set. -/
def configureUrls (alloc : ℕ → Bool) (env : Option Bytes) (st : UrlList) :
    Except Stopped (ℕ × UrlList) :=
  match env with
  | none => .ok (0, st)
  | some value => (configureLoop alloc (value ++ [0]) 0 []).map fun urlsNew ↦
    (urlsNew.length, if urlsNew.length = 0 then st else ⟨urlsNew, urlsNew.length, 0⟩)

/-! ## The words of the value -/

variable {alloc : ℕ → Bool} {c : UInt8} {s w : Bytes}

private theorem strcspn_append (hw : ∀ b ∈ w, b ≠ 0 ∧ isSeparator b = false)
    (hc : c = 0 ∨ isSeparator c) (rest : Bytes) : strcspn (w ++ c :: rest) = some w.length := by
  induction w with
  | nil => rw [List.nil_append, strcspn, if_pos hc, List.length_nil]
  | cons b w ih =>
    obtain ⟨h0, hsep⟩ := hw b List.mem_cons_self
    rw [List.cons_append, strcspn, if_neg (by simp [h0, hsep]),
      ih fun b' hb' ↦ hw b' (List.mem_cons_of_mem b hb'), Option.map_some, List.length_cons]

private theorem exists_token (s : Bytes) :
    ∃ w rest, s = w ++ rest ∧ (∀ b ∈ w, isSeparator b = false) ∧
    ∀ c, rest.head? = some c → isSeparator c = true := by
  refine ⟨s.takeWhile (!isSeparator ·), s.dropWhile (!isSeparator ·),
    List.takeWhile_append_dropWhile.symm, fun b hb ↦ ?_, fun c hc ↦ ?_⟩
  · simpa using List.mem_takeWhile_imp hb
  · have := List.head?_dropWhile_not (!isSeparator ·) s
    rw [hc] at this
    simpa using this

private theorem configureLoop_turn (hw : ∀ b ∈ w, b ≠ 0 ∧ isSeparator b = false)
    (hc : c = 0 ∨ isSeparator c) (rest : Bytes) (k : ℕ) (urlsNew : List Bytes) :
    configureLoop alloc (w ++ c :: rest) k urlsNew =
      if w ≠ [] ∧ (alloc k && alloc (k + 1)) = false then .error .exit
      else if c = 0 then .ok (if w = [] then urlsNew else urlsNew ++ [w])
      else configureLoop alloc rest (if w = [] then k else k + 2)
        (if w = [] then urlsNew else urlsNew ++ [w]) := by
  rw [configureLoop, strcspn_append hw hc]
  simp only [addToken, List.take_left', List.length_eq_zero_iff, ne_eq]
  split
  · rfl
  · split
    next hnil => simp at hnil
    next c' rest' hcons =>
      rw [List.drop_left, List.cons.injEq] at hcons
      obtain ⟨rfl, rfl⟩ := hcons
      rfl

private theorem forall_alloc_succ (alloc : ℕ → Bool) (k n : ℕ) :
    (∀ j < 2 * (n + 1), alloc (k + j) = true) ↔
      (alloc k && alloc (k + 1)) = true ∧ ∀ j < 2 * n, alloc (k + 2 + j) = true := by
  rw [Bool.and_eq_true]
  constructor
  · intro h
    refine ⟨⟨h 0 (by omega), h 1 (by omega)⟩, fun j hj ↦ ?_⟩
    rw [Nat.add_assoc]
    exact h (2 + j) (by omega)
  · rintro ⟨⟨h0, h1⟩, h⟩ j hj
    match j with
    | 0 => exact h0
    | 1 => exact h1
    | j + 2 =>
      rw [Nat.add_comm j 2, ← Nat.add_assoc]
      exact h j (by omega)

/-- **The loop** appends the words that are still to come, if all of their allocations succeed. -/
theorem configureLoop_eq (h0 : 0 ∉ s) (k : ℕ) (urlsNew : List Bytes) :
    configureLoop alloc (s ++ [0]) k urlsNew =
      if ∀ j < 2 * (words isSeparator s).length, alloc (k + j) = true then
        .ok (urlsNew ++ words isSeparator s)
      else .error .exit := by
  obtain ⟨n, hn⟩ : ∃ n, s.length = n := ⟨_, rfl⟩
  induction n using Nat.strong_induction_on generalizing s k urlsNew with
  | _ n ih =>
    obtain ⟨w, rest, rfl, hw, hrest⟩ := exists_token s
    have hword : ∀ b ∈ w, b ≠ 0 ∧ isSeparator b = false := fun b hb ↦
      ⟨fun h ↦ h0 (h ▸ List.mem_append_left _ hb), hw b hb⟩
    match rest with
    | [] =>
      rw [List.append_nil, configureLoop_turn hword (Or.inl rfl)]
      by_cases hnil : w = []
      · simp [hnil]
      · have hone := forall_alloc_succ alloc k 0
        rw [Nat.zero_add] at hone
        simp only [words_singleton hnil hw, List.length_singleton, hone]
        cases hok : alloc k && alloc (k + 1) <;> simp [hnil]
    | c :: s =>
      -- the separator is passed over in the turn that takes the token
      have hsep : isSeparator c = true := hrest c rfl
      have hc : c ≠ 0 := fun h ↦ h0 (h ▸ List.mem_append_right _ List.mem_cons_self)
      have hs : 0 ∉ s := fun h ↦ h0 (List.mem_append_right _ (List.mem_cons_of_mem c h))
      have hlen : s.length < n := by
        rw [← hn, List.length_append, List.length_cons]
        omega
      rw [List.append_assoc, List.cons_append, configureLoop_turn hword (Or.inr hsep),
        if_neg hc, ih _ hlen hs _ _ rfl]
      by_cases hnil : w = []
      · simp [hnil, words_blank_cons hsep]
      · simp only [words_cons hnil hw hsep, List.length_cons, forall_alloc_succ]
        cases hok : alloc k && alloc (k + 1) <;> simp [hnil]

/-- **The list of mirrors.** The call does not read behind the NUL, and returns the number of words
of the value unless an allocation fails; with one word or more these are the mirrors, and without
any the list is left alone. -/
theorem configureUrls_eq (alloc : ℕ → Bool) {value : Bytes} (h0 : 0 ∉ value) (st : UrlList) :
    configureUrls alloc none st = .ok (0, st) ∧
      configureUrls alloc (some value) st =
        if ∀ j < 2 * (words isSeparator value).length, alloc j = true then
          .ok ((words isSeparator value).length,
            if words isSeparator value = [] then st
            else ⟨words isSeparator value, (words isSeparator value).length, 0⟩)
        else .error .exit := by
  refine ⟨rfl, ?_⟩
  rw [configureUrls]
  simp only [configureLoop_eq h0, Nat.zero_add, List.nil_append, List.length_eq_zero_iff]
  split
  · rfl
  · rfl

/-- Leading, repeated and mixed separators. -/
theorem configureUrls_eq_two : configureUrls (fun _ ↦ true) none UrlList.init = .ok (0, .init) ∧
    configureUrls (fun _ ↦ true) (some (bytes " http://a/\t \nhttp://b/")) .init =
      .ok (2, ⟨[bytes "http://a/", bytes "http://b/"], 2, 0⟩) := by
  have hnul : (0 : UInt8) ∉ bytes " http://a/\t \nhttp://b/" := by decide
  obtain ⟨hnone, hsome⟩ := configureUrls_eq (fun _ ↦ true) hnul UrlList.init
  exact ⟨hnone, hsome.trans (by decide)⟩

end ClrDebugInfo
