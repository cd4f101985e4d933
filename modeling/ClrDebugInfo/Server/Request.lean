import Mathlib.Algebra.Group.Nat.Defs
import ClrDebugInfo.Nica.Hashmap

/-!
# Requests

How `server_thread` of `src/server.c` takes a message apart, and the URL it makes of it.

The message stands in a buffer of `PATH_MAX + 8` bytes that was zeroed before `read` filled it.
The string functions search that buffer from a position on; a search that finds neither what it
looks for nor a NUL before the end of the buffer is `none`, which stands for a read outside it.
-/

namespace ClrDebugInfo

/-! ## The buffer -/

/-- `PATH_MAX` of `<linux/limits.h>` -/
def pathMax : ℕ := 4096

/-- `char buf[PATH_MAX + 8]`, zeroed and then filled by a `read` that returned `msg`. -/
def requestBuffer (msg : Bytes) : Bytes := msg ++ List.replicate (pathMax + 8 - msg.length) 0

/-- `strchr(s, c)` for a `c` other than NUL: the string before the character, and what follows
it. -/
def strchr (c : UInt8) : Bytes → Option (Option (Bytes × Bytes))
  | [] => none
  | b :: s =>
    if b = c then some (some ([], s))
    else if b = 0 then some none
    else (strchr c s).map fun r ↦ r.map fun p ↦ (b :: p.1, p.2)

/-- The string that starts at a position of the buffer. -/
def cstring : Bytes → Option Bytes
  | [] => none
  | b :: s => if b = 0 then some [] else (cstring s).map (b :: ·)

/-- `strstr(s, needle) != NULL` -/
def strstr (s needle : Bytes) : Bool := decide (needle <:+: s)

/-- `isspace` in the C locale. -/
def isSpace (c : UInt8) : Bool := c == 32 || (9 ≤ c && c ≤ 13)

/-- The value of the digits at the start of a string, and whether there is one more. -/
def decimal (s : Bytes) : ℕ :=
  (s.takeWhile fun c ↦ 48 ≤ c && c ≤ 57).foldl (fun n c ↦ n * 10 + (c.toNat - 48)) 0

/-- A value that `strtoull` can represent, or else `ULLONG_MAX`. -/
def clampULLong (n : ℕ) (negate : Bool) : UInt64 :=
  if n < 2 ^ 64 then (if negate then 0 - n.toUInt64 else n.toUInt64) else 0xffffffffffffffff

/-- `strtoull(s, NULL, 10)` -/
def strtoull (s : Bytes) : UInt64 :=
  match s.dropWhile isSpace with
  | 45 :: digits => clampULLong (decimal digits) true
  | 43 :: digits => clampULLong (decimal digits) false
  | digits => clampULLong (decimal digits) false

/-! ## The request -/

/-- What a message asks for. -/
structure Request where
  /-- `strtoull` assigned to a `time_t`. -/
  timestamp : Int64
  /-- `prefix` -/
  pfx : Bytes
  path : Bytes
  deriving DecidableEq

/-- The checks of `server_thread` on a request; one that fails them goes to `thread_end`. -/
def acceptRequest (r : Request) : Bool :=
  -- GDB and elfutils both stat the mount itself
  !(r.path.length == 1 && r.path == bytes "/") &&
  !(strstr r.path (bytes "..") || strstr r.pfx (bytes "..") || strstr r.path (bytes "'") ||
    strstr r.path (bytes ";")) &&
  (r.pfx == bytes "lib" || r.pfx == bytes "src")

/-- From the first `strchr` to the last check: a request, or `none` inside for `thread_end`. -/
def parseRequest (buf : Bytes) : Option (Option Request) :=
  match strchr 58 buf with
  | none => none
  | some none => some none
  | some (some (time, rest)) =>
    match strchr 58 rest with
    | none => none
    | some none => some none
    | some (some (pfx, rest)) =>
      match cstring rest with
      | none => none
      | some path =>
        let r : Request := ⟨(strtoull time).toInt64, pfx, path⟩
        some (if acceptRequest r then some r else none)

/-- The parse alone, before the checks: two splits at `':'`, and `strtoull`. -/
def splitRequest (buf : Bytes) : Option (Option Request) :=
  match strchr 58 buf with
  | none => none
  | some none => some none
  | some (some (time, rest)) =>
    match strchr 58 rest with
    | none => none
    | some none => some none
    | some (some (pfx, rest)) =>
      (cstring rest).map fun path ↦ some ⟨(strtoull time).toInt64, pfx, path⟩

theorem parseRequest_eq (buf : Bytes) :
    parseRequest buf = (splitRequest buf).map fun r ↦ r.filter acceptRequest := by
  rw [parseRequest, splitRequest]
  split
  · rfl
  · rfl
  · split
    · rfl
    · rfl
    · split
      next h => rw [h]; rfl
      next h => rw [h]; rfl

theorem acceptRequest_of_parseRequest {buf : Bytes} {r : Request}
    (h : parseRequest buf = some (some r)) : acceptRequest r = true := by
  rw [parseRequest_eq] at h
  obtain ⟨o, -, ho⟩ := Option.map_eq_some_iff.mp h
  exact (Option.filter_eq_some_iff.mp ho).2

/-! ## The scans -/

/-- The memory that the string functions of `server_thread` are given, from the place where each
starts to the end of the buffer, in order: `strchr` on the buffer; `strtoull` on it, once the first
separator is a NUL; `strchr` behind that; and, once the second separator is a NUL too, what
`strlen`, `strcmp`, `strstr` and the `%s` of `asprintf` are given, the path and the prefix. -/
def requestScans (buf : Bytes) : List Bytes :=
  buf ::
    match strchr 58 buf with
    | some (some (time, rest)) =>
      (time ++ 0 :: rest) :: rest ::
        match strchr 58 rest with
        | some (some (pfx, path)) => [path, pfx ++ 0 :: path]
        | _ => []
    | _ => []

private theorem strchr_eq_none_iff {c : UInt8} {s : Bytes} : strchr c s = none ↔ c ∉ s ∧ 0 ∉ s := by
  induction s with
  | nil => simp [strchr]
  | cons b s ih =>
    rw [strchr]
    by_cases hc : b = c
    · simp [hc]
    · rw [if_neg hc]
      by_cases h0 : b = 0
      · simp [h0]
      · rw [if_neg h0, Option.map_eq_none_iff, ih]
        simp [Ne.symm hc, Ne.symm h0]

private theorem strchr_eq_some {c : UInt8} {s t rest : Bytes}
    (h : strchr c s = some (some (t, rest))) : s = t ++ c :: rest ∧ 0 ∉ t := by
  induction s generalizing t with
  | nil => cases h
  | cons b s ih =>
    rw [strchr] at h
    by_cases hc : b = c
    · rw [if_pos hc] at h
      obtain ⟨rfl, rfl⟩ := Prod.mk.inj (Option.some.inj (Option.some.inj h))
      exact ⟨by rw [hc, List.nil_append], List.not_mem_nil⟩
    · rw [if_neg hc] at h
      by_cases h0 : b = 0
      · rw [if_pos h0] at h
        exact absurd h (by simp)
      · rw [if_neg h0] at h
        obtain ⟨r, hr, hmap⟩ := Option.map_eq_some_iff.mp h
        obtain ⟨⟨t', rest'⟩, rfl, heq⟩ := Option.map_eq_some_iff.mp hmap
        obtain ⟨rfl, rfl⟩ := Prod.mk.inj heq
        obtain ⟨rfl, ht⟩ := ih hr
        exact ⟨rfl, List.not_mem_cons_of_ne_of_not_mem (Ne.symm h0) ht⟩

private theorem cstring_eq_none_iff {s : Bytes} : cstring s = none ↔ 0 ∉ s := by
  induction s with
  | nil => simp [cstring]
  | cons b s ih =>
    rw [cstring]
    by_cases h0 : b = 0
    · simp [h0]
    · rw [if_neg h0, Option.map_eq_none_iff, ih]
      simp [Ne.symm h0]

private theorem zero_mem_iff_of_strchr {s t rest : Bytes}
    (h : strchr 58 s = some (some (t, rest))) : 0 ∈ s ↔ 0 ∈ rest := by
  obtain ⟨rfl, ht⟩ := strchr_eq_some h
  rw [List.mem_append, List.mem_cons, or_iff_right ht, or_iff_right (by decide)]

private theorem zero_mem_of_strchr {c : UInt8} {s : Bytes} (h : strchr c s = some none) :
    0 ∈ s := by
  induction s with
  | nil => cases h
  | cons b s ih =>
    rw [strchr] at h
    by_cases hc : b = c
    · rw [if_pos hc] at h
      exact absurd h (by simp)
    · by_cases h0 : b = 0
      · rw [h0]
        exact List.mem_cons_self
      · rw [if_neg hc, if_neg h0] at h
        obtain ⟨r, hr, hmap⟩ := Option.map_eq_some_iff.mp h
        rw [Option.map_eq_none_iff] at hmap
        exact List.mem_cons_of_mem b (ih (hmap ▸ hr))

theorem requestScans_end_iff {buf : Bytes} : (∀ s ∈ requestScans buf, 0 ∈ s) ↔ 0 ∈ buf := by
  refine ⟨fun h ↦ h buf List.mem_cons_self, fun h s hs ↦ ?_⟩
  rw [requestScans] at hs
  rcases List.mem_cons.mp hs with rfl | hs
  · exact h
  split at hs
  next time rest htime =>
    have hrest := (zero_mem_iff_of_strchr htime).mp h
    rcases List.mem_cons.mp hs with rfl | hs
    · exact List.mem_append_right _ List.mem_cons_self
    rcases List.mem_cons.mp hs with rfl | hs
    · exact hrest
    split at hs
    next pfx path hpfx =>
      rcases List.mem_cons.mp hs with rfl | hs
      · exact (zero_mem_iff_of_strchr hpfx).mp hrest
      · rw [List.mem_singleton.mp hs]
        exact List.mem_append_right _ List.mem_cons_self
    · exact absurd hs (by simp)
  · exact absurd hs (by simp)

/-- The parse reads outside the buffer exactly when one of the scans does. -/
theorem parseRequest_eq_none_iff {buf : Bytes} :
    parseRequest buf = none ↔ ∃ s ∈ requestScans buf, 0 ∉ s := by
  have hscans : (∃ s ∈ requestScans buf, 0 ∉ s) ↔ 0 ∉ buf := by
    rw [← requestScans_end_iff]
    simp only [not_forall, exists_prop]
  rw [hscans, parseRequest_eq, Option.map_eq_none_iff, splitRequest]
  split
  next h => exact iff_of_true rfl (strchr_eq_none_iff.mp h).2
  next h => exact iff_of_false (by simp) (not_not_intro (zero_mem_of_strchr h))
  next time rest h =>
    rw [zero_mem_iff_of_strchr h]
    split
    next h => exact iff_of_true rfl (strchr_eq_none_iff.mp h).2
    next h => exact iff_of_false (by simp) (not_not_intro (zero_mem_of_strchr h))
    next pfx path h =>
      rw [Option.map_eq_none_iff, cstring_eq_none_iff, zero_mem_iff_of_strchr h]

/-! ## The mirrors -/

/-- `urlcounter++`, once for every answer that is neither a file, nor "not modified", nor
"not found". -/
def bumpUrlcounter (urlcounter : Int32) (response : ℕ) : Int32 :=
  if response ≠ 200 ∧ response ≠ 404 ∧ response ≠ 304 then urlcounter + 1 else urlcounter

/-- `urlcounter % urls_size` -/
def mirrorIndex (urlcounter : Int32) (urls : List Bytes) : ℤ := urlcounter.toInt.tmod urls.length

/-- `urls[i]`, inside the array. -/
def mirrorUrl (urls : List Bytes) (i : ℤ) : Option Bytes :=
  if 0 ≤ i then urls[i.toNat]? else none

theorem mirrorIndex_eq_iff {urls : List Bytes} {c c' : Int32} (h : 0 ≤ mirrorIndex c urls)
    (h' : 0 ≤ mirrorIndex c' urls) (hn : urls ≠ []) :
    mirrorIndex c' urls = mirrorIndex c urls ↔ (urls.length : ℤ) ∣ c'.toInt - c.toInt := by
  have hpos : (0 : ℤ) < urls.length := by
    exact_mod_cast List.length_pos_of_ne_nil hn
  have hmod : ∀ a : ℤ, 0 ≤ a.tmod urls.length → a.tmod urls.length = a % urls.length := by
    intro a ha
    have hlt := Int.tmod_lt_of_pos a hpos
    rw [← Int.emod_eq_of_lt ha hlt, Int.tmod_def, Int.sub_mul_emod_self_left]
  rw [mirrorIndex, mirrorIndex] at *
  rw [hmod _ h, hmod _ h', Int.emod_eq_emod_iff_emod_sub_eq_zero, Int.dvd_iff_emod_eq_zero]

theorem mirrorIndex_add_one_ne {urls : List Bytes} {c : Int32} (h : 0 ≤ mirrorIndex c urls)
    (h' : 0 ≤ mirrorIndex (c + 1) urls) (hn : 2 ≤ urls.length) :
    mirrorIndex (c + 1) urls ≠ mirrorIndex c urls := by
  have hne : urls ≠ [] := by
    rintro rfl
    exact absurd hn (by decide)
  rw [Ne, mirrorIndex_eq_iff h h' hne]
  intro hdvd
  have hlow := Int32.le_toInt c
  have hhigh := Int32.toInt_lt c
  have hadd : (c + 1).toInt = Int.bmod (c.toInt + 1) (2 ^ 32) := by
    rw [Int32.toInt_add]
    rfl
  rcases Int.lt_or_le (c.toInt + 1) (2 ^ 31) with hlt | hge
  · have hone : Int.bmod (c.toInt + 1) (2 ^ 32) - c.toInt = 1 := by
      rw [Int.bmod_eq_of_le (by omega) (by omega)]
      omega
    rw [hadd, hone] at hdvd
    have := Int.le_of_dvd Int.zero_lt_one hdvd
    omega
  · -- at the overflow only a power of two leaves the index in the array
    have hc : c.toInt = 2 ^ 31 - 1 := by omega
    rw [hadd, hc] at hdvd
    have hmin : (c + 1).toInt = -2 ^ 31 := by
      rw [hadd, hc]
      rfl
    rw [mirrorIndex, hmin, Int.neg_tmod] at h'
    have hzero : (2 ^ 31 : ℤ).tmod urls.length = 0 := by
      have := Int.tmod_nonneg (urls.length : ℤ) (show (0 : ℤ) ≤ 2 ^ 31 by decide)
      omega
    have hd31 := Int.dvd_of_tmod_eq_zero hzero
    have hd1 : (urls.length : ℤ) ∣ 1 := by
      have h32 : (urls.length : ℤ) ∣ 2 ^ 31 + 2 ^ 31 := Int.dvd_add hd31 hd31
      have heq : (Int.bmod (2 ^ 31 - 1 + 1) (2 ^ 32) - (2 ^ 31 - 1) : ℤ) =
          1 - (2 ^ 31 + 2 ^ 31) := by decide
      rw [heq] at hdvd
      have hsum := Int.dvd_add hdvd h32
      rwa [Int.sub_add_cancel] at hsum
    have := Int.le_of_dvd Int.zero_lt_one hd1
    omega

/-- `asprintf(&url, "%s%s%s.tar", base, prefix, path)` -/
def requestUrl (base : Bytes) (r : Request) : Bytes := base ++ r.pfx ++ r.path ++ bytes ".tar"

/-- The two mirrors compiled into the daemon. -/
def urlsDefault : List Bytes :=
  [bytes "https://cdn.download.clearlinux.org/debuginfo/",
    bytes "https://cdn-alt.download.clearlinux.org/debuginfo/"]

example : parseRequest (bytes "12:src:/a:b" ++ [0]) = some (some ⟨12, bytes "src", bytes "/a:b"⟩) :=
  by decide

end ClrDebugInfo
