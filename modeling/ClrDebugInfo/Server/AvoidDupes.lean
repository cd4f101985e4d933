import Mathlib.Data.UInt
import Mathlib.Tactic.SplitIfs
import ClrDebugInfo.Nica.Growth

/-!
# The table of recent downloads

`avoid_dupes` of `src/server.c`, over the hash map of libnica. The table remembers for every URL
when it was first asked for, and answers "duplicate" for the 600 seconds that follow.

Three levels: the hash map under the pointer `hash`; the dictionary from URLs to times that it
represents (`Table`), whatever allocations fail; and the sequence of calls that filled it
(`Tracks`). The mutex makes the calls of all handler threads a sequence, so a run is a list of
calls. Where no allocation fails, the dictionary is a function of that list: it holds each URL with
the time of its *first* call, since an entry is never written again. The answer to a call is then a
function of the calls before it (`verdict`), and statements about runs become statements about
lists.
-/

namespace ClrDebugInfo

/-- Which allocations of the process succeed, by the number of the call. -/
structure Alloc where
  calloc : ℕ → Bool
  strdup : ℕ → Bool

/-- No allocation fails. -/
def Alloc.Succeeds (alloc : Alloc) : Prop :=
  (∀ k, alloc.calloc k = true) ∧ ∀ k, alloc.strdup k = true

/-- The process whose allocations all succeed. -/
def Alloc.ok : Alloc := ⟨fun _ ↦ true, fun _ ↦ true⟩

theorem Alloc.ok_succeeds : Alloc.ok.Succeeds := ⟨fun _ ↦ rfl, fun _ ↦ rfl⟩

/-! ## The function -/

/-- The static variable `hash`, with the memory behind it. -/
structure Dupes where
  heap : Heap StrPtr UInt64
  hash : Option (NcHashmap StrPtr UInt64)
  /-- How often `strdup` has been called. -/
  strdups : ℕ

/-- The table of a process that has just started. -/
def Dupes.init : Dupes := ⟨Heap.empty, none, 0⟩

/-- `hash = nc_hashmap_new_full(nc_string_hash, nc_string_compare, free, NULL);` -/
def createHash (alloc : Alloc) (s : Dupes) : Dupes :=
  let r := ncHashmapNewFull alloc.calloc s.heap ncStringHash ncStringCompare true false
  { s with hash := r.1, heap := r.2 }

/-- `nc_hashmap_ensure_get(hash, url, &value)`, where `hash` may be `NULL`. The copy of `url` that
the caller owns lives at address 0; copies made by `strdup` have other addresses. -/
def lookupUrl (s : Dupes) (url : Bytes) : Option (Bool × UInt64) :=
  match s.hash with
  | none => some (false, 0)
  | some hash => ncHashmapEnsureGet s.heap hash (.ptr 0 url)

/-- `nc_hashmap_put(hash, strdup(url), data)`, whose result is not looked at. A `NULL` from
`strdup` is dereferenced by the hash function, unless there is no map: no result. -/
def recordUrl (alloc : Alloc) (s : Dupes) (url : Bytes) (data : UInt64) : Option Dupes :=
  let s' := { s with strdups := s.strdups + 1 }
  match s.hash with
  | none => some s'
  | some hash =>
    if alloc.strdup s.strdups then
      (ncHashmapPut alloc.calloc s.heap hash (.ptr (s.strdups + 1) url) data).map fun r ↦
        { s' with heap := r.2.1, hash := some r.2.2 }
    else none

/-- `avoid_dupes`, called when `time(NULL)` is `now`. -/
def avoidDupes (alloc : Alloc) (s : Dupes) (url : Bytes) (now : Int64) : Option (ℤ × Dupes) :=
  let s := if s.hash.isNone then createHash alloc s else s
  match lookupUrl s url with
  | none => none
  | some (true, tm) => some (if now.toUInt64 - tm < 600 then 1 else 0, s)
  | some (false, _) => (recordUrl alloc s url now.toUInt64).map fun s ↦ (0, s)

/-! ## Runs -/

/-- One call of `avoid_dupes` by a handler thread. -/
structure DupesCall where
  thread : ℕ
  url : Bytes
  now : Int64
  deriving DecidableEq

/-- The results of a sequence of calls. -/
def avoidDupesRun (alloc : Alloc) : Dupes → List DupesCall → Option (List ℤ)
  | _, [] => some []
  | s, c :: cs =>
    (avoidDupes alloc s c.url c.now).bind fun r ↦ (avoidDupesRun alloc r.2 cs).map (r.1 :: ·)

/-- The clock does not go back. -/
def ClockRuns (calls : List DupesCall) : Prop :=
  calls.Pairwise fun c c' ↦ c.now.toInt ≤ c'.now.toInt

instance (calls : List DupesCall) : Decidable (ClockRuns calls) := by
  unfold ClockRuns
  infer_instance

/-- The first call for `url`. -/
def firstCall (calls : List DupesCall) (url : Bytes) : Option DupesCall :=
  calls.find? fun c ↦ c.url = url

/-- What `avoid_dupes` answers after the calls `past`. -/
def verdict (past : List DupesCall) (c : DupesCall) : ℤ :=
  match firstCall past c.url with
  | none => 0
  | some f => if c.now.toUInt64 - f.now.toUInt64 < 600 then 1 else 0

private theorem firstCall_append (past calls : List DupesCall) (url : Bytes) :
    firstCall (past ++ calls) url = (firstCall past url).or (firstCall calls url) :=
  List.find?_append

/-! ## The table as a dictionary -/

/-- The table maps URLs to times as `dict` does. -/
structure Table (s : Dupes) (dict : Bytes → Option UInt64) : Prop where
  none : s.hash = none → dict = fun _ ↦ none
  some : ∀ map, s.hash = some map → map.hash = ncStringHash ∧ map.compare = ncStringCompare ∧
    ∃ d, Holds s.heap map d ∧
      ∀ url tm, (∃ addr, (StrPtr.ptr addr url, tm) ∈ d) ↔ dict url = Option.some tm

theorem table_init : Table Dupes.init fun _ ↦ none :=
  ⟨fun _ ↦ rfl, fun _ h ↦ by cases h⟩

theorem createHash_spec (alloc : Alloc) (s : Dupes) :
    Table (createHash alloc s) (fun _ ↦ none) ∧
      (alloc.Succeeds → (createHash alloc s).hash.isSome) := by
  rw [createHash]
  rcases ncHashmapNewFull_spec alloc.calloc s.heap ncStringHash ncStringCompare true false with
    ⟨map, h, hrun, hhash, hcmp, H⟩ | ⟨⟨k, hk⟩, h, hrun⟩
  · rw [hrun]
    refine ⟨⟨fun _ ↦ rfl, fun map' hmap ↦ ?_⟩, fun _ ↦ rfl⟩
    obtain rfl := Option.some.inj hmap
    exact ⟨hhash, hcmp, 0, H, fun url tm ↦ by simp⟩
  · rw [hrun]
    refine ⟨⟨fun _ ↦ rfl, fun _ h ↦ absurd h (by simp)⟩, fun halloc ↦ ?_⟩
    rw [halloc.1 k] at hk
    exact absurd hk (by simp)

/-- **Lookup.** -/
theorem lookupUrl_spec {s : Dupes} {dict : Bytes → Option UInt64} (hs : Table s dict)
    (url : Bytes) : lookupUrl s url = some (match dict url with
      | none => (false, 0)
      | some tm => (true, tm)) := by
  rw [lookupUrl]
  cases hmap : s.hash with
  | none => rw [hs.none hmap]
  | some map =>
    obtain ⟨hhash, hcmp, d, H, hd⟩ := hs.some map hmap
    simp only
    rcases ncHashmapEnsureGet_string H hhash hcmp 0 url with
      ⟨addr, tm, hmem, hrun⟩ | ⟨hnone, hrun⟩
    · rw [hrun, (hd url tm).mp ⟨addr, hmem⟩]
    · rw [hrun]
      cases hdict : dict url with
      | none => rfl
      | some tm =>
        obtain ⟨addr, haddr⟩ := (hd url tm).mpr hdict
        exact absurd haddr (hnone addr tm)

/-- **Recording.** A URL that is not in the table is entered with the time of the call, if there
is memory for it. -/
theorem recordUrl_spec (alloc : Alloc) {s : Dupes} {dict : Bytes → Option UInt64}
    (hs : Table s dict) {url : Bytes} (hnew : dict url = none) (tm : UInt64) :
    (¬alloc.Succeeds ∧ recordUrl alloc s url tm = none) ∨
      ∃ s', recordUrl alloc s url tm = some s' ∧
        (Table s' (Function.update dict url (some tm)) ∨
          (Table s' dict ∧ (alloc.Succeeds → s.hash = none))) := by
  rw [recordUrl]
  cases hmap : s.hash with
  | none =>
    refine Or.inr ⟨_, rfl, Or.inr ⟨⟨fun _ ↦ hs.none hmap, fun _ h ↦ ?_⟩, fun _ ↦ rfl⟩⟩
    exact absurd h (by simp)
  | some map =>
    cases hdup : alloc.strdup s.strdups with
    | false =>
      refine Or.inl ⟨fun halloc ↦ ?_, rfl⟩
      rw [halloc.2] at hdup
      exact absurd hdup (by simp)
    | true =>
      apply Or.inr
      obtain ⟨hhash, hcmp, d, H, hd⟩ := hs.some map hmap
      -- the copy of `strdup` is a pointer that the map has not seen
      have hne : ∀ e ∈ d, e.1 ≠ StrPtr.ptr (s.strdups + 1) url := by
        rintro ⟨key, tm'⟩ he rfl
        have := (hd url tm').mp ⟨_, he⟩
        rw [hnew] at this
        simp at this
      obtain ⟨ok, h', map', hrun, hhash', hcmp', H', hlucky⟩ :=
        ncHashmapPut_spec alloc.calloc tm H hne
      simp only [if_true, hrun, Option.map_some]
      refine ⟨_, rfl, ?_⟩
      cases ok with
      | false =>
        obtain ⟨k, hk⟩ := hlucky rfl
        refine Or.inr ⟨⟨fun h ↦ absurd h (by simp), fun map'' hmap'' ↦ ?_⟩, fun halloc ↦ ?_⟩
        · obtain rfl := Option.some.inj hmap''
          exact ⟨hhash'.trans hhash, hcmp'.trans hcmp, d, H', hd⟩
        · rw [halloc.1] at hk
          exact absurd hk (by simp)
      | true =>
        refine Or.inl ⟨fun h ↦ absurd h (by simp), fun map'' hmap'' ↦ ?_⟩
        obtain rfl := Option.some.inj hmap''
        refine ⟨hhash'.trans hhash, hcmp'.trans hcmp, _, H', fun url' tm' ↦ ?_⟩
        simp only [if_true, Multiset.mem_cons]
        by_cases hu : url' = url
        · subst hu
          rw [Function.update_self, Option.some_inj]
          constructor
          · rintro ⟨addr, heq | hold⟩
            · exact (Prod.mk.inj heq).2.symm
            · have := (hd url' tm').mp ⟨addr, hold⟩
              rw [hnew] at this
              simp at this
          · rintro rfl
            exact ⟨s.strdups + 1, Or.inl rfl⟩
        · rw [Function.update_of_ne hu, ← hd]
          constructor
          · rintro ⟨addr, heq | hold⟩
            · exact absurd (StrPtr.ptr.inj (Prod.mk.inj heq).1).2 hu
            · exact ⟨addr, hold⟩
          · rintro ⟨addr, hmem⟩
            exact ⟨addr, Or.inr hmem⟩

/-- **One call.** A URL in the table is judged by its time and the table stays; any other URL is
let through and entered, unless an allocation fails. -/
theorem avoidDupes_spec (alloc : Alloc) {s : Dupes} {dict : Bytes → Option UInt64}
    (hs : Table s dict) (url : Bytes) (now : Int64) :
    (∃ tm s', dict url = some tm ∧ Table s' dict ∧
        avoidDupes alloc s url now = some (if now.toUInt64 - tm < 600 then 1 else 0, s')) ∨
      (dict url = none ∧ ∃ s', avoidDupes alloc s url now = some (0, s') ∧
        (Table s' (Function.update dict url (some now.toUInt64)) ∨
          (Table s' dict ∧ ¬alloc.Succeeds))) ∨
      (dict url = none ∧ ¬alloc.Succeeds ∧ avoidDupes alloc s url now = none) := by
  -- the map is made at the first call, and again after a call that could not make it
  obtain ⟨s₁, hs₁, htable, hsome⟩ : ∃ s₁, (if s.hash.isNone then createHash alloc s else s) = s₁ ∧
      Table s₁ dict ∧ (alloc.Succeeds → s₁.hash.isSome) := by
    refine ⟨_, rfl, ?_⟩
    cases hh : s.hash with
    | none =>
      rw [hs.none hh]
      exact createHash_spec alloc s
    | some map =>
      simp only [Option.isNone_some, Bool.false_eq_true, if_false]
      exact ⟨hs, fun _ ↦ by rw [hh]; rfl⟩
  rw [avoidDupes, hs₁]
  simp only [lookupUrl_spec htable url]
  cases hdict : dict url with
  | some tm => exact Or.inl ⟨tm, s₁, rfl, htable, rfl⟩
  | none =>
    apply Or.inr
    rcases recordUrl_spec alloc htable hdict now.toUInt64 with ⟨hfail, hrun⟩ | ⟨s', hrun, hs'⟩
    · exact Or.inr ⟨rfl, hfail, by simp only [hrun, Option.map_none]⟩
    · refine Or.inl ⟨rfl, s', by simp only [hrun, Option.map_some], hs'.imp_right ?_⟩
      rintro ⟨ht, hnone⟩
      refine ⟨ht, fun halloc ↦ ?_⟩
      have := hsome halloc
      rw [hnone halloc] at this
      simp at this

/-! ## The table follows the run -/

/-- The table after the calls `past`: each URL with the time of its first call. -/
def Tracks (s : Dupes) (past : List DupesCall) : Prop :=
  Table s fun url ↦ (firstCall past url).map (·.now.toUInt64)

private theorem tracks_init : Tracks Dupes.init [] := table_init

/-- **One call of a run.** It returns, its answer is the verdict, and the table follows. -/
theorem Tracks.avoidDupes {alloc : Alloc} (halloc : alloc.Succeeds) {s : Dupes}
    {past : List DupesCall} (hs : Tracks s past) (c : DupesCall) :
    ∃ s', avoidDupes alloc s c.url c.now = some (verdict past c, s') ∧
      Tracks s' (past ++ [c]) := by
  have hlast : ∀ url, firstCall [c] url = if url = c.url then some c else none := by
    intro url
    by_cases hu : url = c.url
    · simp [firstCall, hu]
    · simp [firstCall, hu, Ne.symm hu]
  -- an old URL leaves the table alone, and a new one is entered with this call
  rcases avoidDupes_spec alloc hs c.url c.now with ⟨tm, s', hdict, hs', hrun⟩ | hnew
  · obtain ⟨f, hf, htm⟩ := Option.map_eq_some_iff.mp hdict
    refine ⟨s', ?_, ?_⟩
    · simp only [hrun, verdict, hf, htm]
    · rw [Tracks]
      convert hs' using 2 with url
      rw [firstCall_append, hlast]
      by_cases hu : url = c.url
      · rw [hu, hf, Option.some_or]
      · rw [if_neg hu, Option.or_none]
  · rcases hnew with ⟨hnone, s', hrun, hs' | ⟨-, hfail⟩⟩ | ⟨-, hfail, -⟩
    · rw [Option.map_eq_none_iff] at hnone
      refine ⟨s', by rw [hrun, verdict, hnone], ?_⟩
      rw [Tracks]
      convert hs' using 2 with url
      rw [firstCall_append, hlast]
      by_cases hu : url = c.url
      · rw [hu, hnone, Option.none_or, if_pos rfl, Function.update_self, Option.map_some]
      · rw [if_neg hu, Option.or_none, Function.update_of_ne hu]
    · exact absurd halloc hfail
    · exact absurd halloc hfail

/-! ## Whole runs -/

/-- The verdicts on `calls` when `past` came before. -/
def verdicts : List DupesCall → List DupesCall → List ℤ
  | _, [] => []
  | past, c :: cs => verdict past c :: verdicts (past ++ [c]) cs

private theorem avoidDupesRun_eq_verdicts {alloc : Alloc} (halloc : alloc.Succeeds) {s : Dupes}
    {past : List DupesCall} (hs : Tracks s past) (calls : List DupesCall) :
    avoidDupesRun alloc s calls = some (verdicts past calls) := by
  induction calls generalizing s past with
  | nil => rfl
  | cons c cs ih =>
    obtain ⟨s', hrun, hs'⟩ := hs.avoidDupes halloc c
    rw [avoidDupesRun, hrun, Option.bind_some, ih hs', Option.map_some, verdicts]

private theorem getElem?_verdicts (past calls : List DupesCall) (i : ℕ) :
    (verdicts past calls)[i]? = calls[i]?.map (verdict (past ++ calls.take i)) := by
  induction calls generalizing past i with
  | nil => rfl
  | cons c cs ih =>
    cases i with
    | zero => simp [verdicts]
    | succ i => simp [verdicts, ih]

/-! ## The rate limit -/

/-- The unsigned difference of two times read from a clock that does not go back is the time that
passed, whatever their signs. -/
theorem toUInt64_sub_lt_iff {s t : Int64} (h : s.toInt ≤ t.toInt) :
    t.toUInt64 - s.toUInt64 < 600 ↔ t.toInt - s.toInt < 600 := by
  have hcond : ∀ u : Int64, u.toInt = if 2 * u.toUInt64.toNat < 2 ^ 64
      then (u.toUInt64.toNat : ℤ) else (u.toUInt64.toNat : ℤ) - 2 ^ 64 :=
    fun u ↦ BitVec.toInt_eq_toNat_cond u.toBitVec
  have hs := s.toUInt64.toNat_lt
  have ht := t.toUInt64.toNat_lt
  rw [UInt64.lt_iff_toNat_lt, UInt64.toNat_sub]
  rw [hcond s, hcond t] at h ⊢
  change _ % _ < 600 ↔ _
  split_ifs at h ⊢ <;> omega

theorem toInt_sub_lt_of_toUInt64_sub_lt {s t : Int64} (h : t.toUInt64 - s.toUInt64 < 600) :
    t.toInt - s.toInt < 600 := by
  rcases Int.le_total s.toInt t.toInt with hle | hle
  · exact (toUInt64_sub_lt_iff hle).mp h
  · omega

/-- Any two calls with the same URL that both let the fetch go ahead are 600 seconds apart. -/
def RateLimited (calls : List DupesCall) (rets : List ℤ) : Prop :=
  ∀ (i j : ℕ) (c c' : DupesCall), i < j → calls[i]? = some c → calls[j]? = some c' →
    c.url = c'.url → rets[i]? = some 0 → rets[j]? = some 0 →
      600 ≤ c'.now.toInt - c.now.toInt

/-- Calls for one URL that come 600 seconds or more after the first call for it are themselves
600 seconds apart. -/
def LateCallsSpread (calls : List DupesCall) : Prop :=
  ∀ (i j : ℕ) (c c' f : DupesCall), i < j → calls[i]? = some c → calls[j]? = some c' →
    c.url = c'.url → firstCall calls c.url = some f → 600 ≤ c.now.toInt - f.now.toInt →
      600 ≤ c'.now.toInt - f.now.toInt → 600 ≤ c'.now.toInt - c.now.toInt

theorem verdict_eq_zero_iff {calls : List DupesCall} (hclock : ClockRuns calls) {i : ℕ}
    {c : DupesCall} (hi : calls[i]? = some c) :
    ∃ f, firstCall calls c.url = some f ∧ (verdict (calls.take i) c = 0 ↔
      (firstCall (calls.take i) c.url = none ∧ f = c) ∨ 600 ≤ c.now.toInt - f.now.toInt) := by
  have hsplit : calls = calls.take i ++ c :: calls.drop (i + 1) := by
    obtain ⟨hlt, rfl⟩ := List.getElem?_eq_some_iff.mp hi
    rw [List.getElem_cons_drop, List.take_append_drop]
  have hfirst : firstCall calls c.url = (firstCall (calls.take i) c.url).or (some c) := by
    conv_lhs => rw [hsplit, firstCall_append]
    congr 1
    exact List.find?_cons_of_pos (by simp)
  rw [hfirst, verdict]
  cases hf : firstCall (calls.take i) c.url with
  | none => exact ⟨c, by simp, by simp⟩
  | some f =>
    refine ⟨f, by simp, ?_⟩
    -- the clock runs, so the unsigned difference is the difference
    have hle : f.now.toInt ≤ c.now.toInt := by
      rw [ClockRuns, hsplit, List.pairwise_append] at hclock
      exact hclock.2.2 f (List.mem_of_find?_eq_some hf) c List.mem_cons_self
    have hverdict : (if c.now.toUInt64 - f.now.toUInt64 < 600 then (1 : ℤ) else 0) = 0
        ↔ ¬c.now.toUInt64 - f.now.toUInt64 < 600 := by
      by_cases hlt : c.now.toUInt64 - f.now.toUInt64 < 600
      · rw [if_pos hlt]
        exact iff_of_false (by decide) (not_not_intro hlt)
      · rw [if_neg hlt]
        exact iff_of_true rfl hlt
    rw [hverdict, toUInt64_sub_lt_iff hle, not_lt]
    exact (or_iff_right fun h ↦ absurd h.1 (by simp)).symm

/-- **The rate limit of downloads.** In a run of `avoid_dupes` the calls that let the fetch go
ahead are 600 seconds apart per URL exactly when the calls that come after the expiry of an entry
happen to be: the entry of a URL keeps the time of its first call for ever. -/
theorem avoidDupes_rateLimited_iff {alloc : Alloc} (halloc : alloc.Succeeds)
    {calls : List DupesCall} (hclock : ClockRuns calls) :
    ∃ rets, avoidDupesRun alloc Dupes.init calls = some rets ∧
      (RateLimited calls rets ↔ LateCallsSpread calls) := by
  refine ⟨_, avoidDupesRun_eq_verdicts halloc tracks_init calls, ?_⟩
  have hret : ∀ i c, calls[i]? = some c → ((verdicts [] calls)[i]? = some 0 ↔
      verdict (calls.take i) c = 0) := by
    intro i c hi
    rw [getElem?_verdicts, hi, Option.map_some, List.nil_append, Option.some_inj]
  constructor
  · intro h i j c c' f hij hi hj hu hf hci hcj
    obtain ⟨g, hg, hzero⟩ := verdict_eq_zero_iff hclock hi
    obtain ⟨g', hg', hzero'⟩ := verdict_eq_zero_iff hclock hj
    rw [hf] at hg
    rw [← hu, hf] at hg'
    obtain rfl := Option.some.inj hg
    obtain rfl := Option.some.inj hg'
    exact h i j c c' hij hi hj hu ((hret i c hi).mpr (hzero.mpr (Or.inr hci)))
      ((hret j c' hj).mpr (hzero'.mpr (Or.inr hcj)))
  · intro h i j c c' hij hi hj hu h0 h0'
    obtain ⟨g, hg, hzero⟩ := verdict_eq_zero_iff hclock hi
    obtain ⟨g', hg', hzero'⟩ := verdict_eq_zero_iff hclock hj
    rw [← hu, hg] at hg'
    obtain rfl := Option.some.inj hg'
    have hlate : 600 ≤ c'.now.toInt - g.now.toInt := by
      rcases hzero'.mp ((hret j c' hj).mp h0') with ⟨hnone, -⟩ | hlate
      · -- `c` came before `c'` and asked for the same URL
        have hmem : c ∈ calls.take j := by
          obtain ⟨hlt, rfl⟩ := List.getElem?_eq_some_iff.mp hi
          exact List.mem_take_iff_getElem.mpr ⟨i, by omega, rfl⟩
        exact absurd hu (by simpa using List.find?_eq_none.mp hnone c hmem)
      · exact hlate
    rcases hzero.mp ((hret i c hi).mp h0) with ⟨-, rfl⟩ | hci
    · exact hlate
    · exact h i j c c' g hij hi hj hu hg hci hlate

/-- Three calls for one URL, the second one 600 seconds after the first and the third one a second
later. -/
def expiredUrl : List DupesCall :=
  [⟨0, bytes "u", 0⟩, ⟨1, bytes "u", 600⟩, ⟨2, bytes "u", 601⟩]

theorem avoidDupes_not_rateLimited : ∃ rets,
    avoidDupesRun Alloc.ok Dupes.init expiredUrl = some rets ∧ ClockRuns expiredUrl ∧
      ¬RateLimited expiredUrl rets := by
  refine ⟨[0, 0, 0], by decide, by decide, fun h ↦ ?_⟩
  exact absurd (h 1 2 _ _ (by decide) rfl rfl rfl rfl rfl) (by decide)

theorem avoidDupes_rateLimited_iff_spread : ∃ rets,
    avoidDupesRun Alloc.ok Dupes.init
        [⟨0, bytes "u", 0⟩, ⟨1, bytes "u", 10⟩, ⟨2, bytes "u", 600⟩, ⟨3, bytes "u", 1200⟩]
      = some rets ∧
      (RateLimited
          [⟨0, bytes "u", 0⟩, ⟨1, bytes "u", 10⟩, ⟨2, bytes "u", 600⟩, ⟨3, bytes "u", 1200⟩] rets ↔
        LateCallsSpread
          [⟨0, bytes "u", 0⟩, ⟨1, bytes "u", 10⟩, ⟨2, bytes "u", 600⟩, ⟨3, bytes "u", 1200⟩]) :=
  avoidDupes_rateLimited_iff Alloc.ok_succeeds (by decide)

/-! ## No false suppression -/

/-- A call is answered "duplicate" only if an earlier call with the same URL was let through less
than 600 seconds before. -/
def NoFalseSuppression (calls : List DupesCall) (rets : List ℤ) : Prop :=
  ∀ (j : ℕ) (c : DupesCall), calls[j]? = some c → rets[j]? = some 1 →
    ∃ (i : ℕ) (f : DupesCall), i < j ∧ calls[i]? = some f ∧ f.url = c.url ∧ rets[i]? = some 0 ∧
      c.now.toInt - f.now.toInt < 600

private theorem exists_firstCall_verdict {calls : List DupesCall} {url : Bytes} {f : DupesCall}
    (hf : firstCall calls url = some f) :
    ∃ i < calls.length, calls[i]? = some f ∧ f.url = url ∧ verdict (calls.take i) f = 0 := by
  obtain ⟨hurl, i, hi, rfl, hbefore⟩ := List.find?_eq_some_iff_getElem.mp hf
  have hurl : calls[i].url = url := of_decide_eq_true hurl
  refine ⟨i, hi, List.getElem?_eq_getElem hi, hurl, ?_⟩
  have hnone : firstCall (calls.take i) calls[i].url = none := by
    refine List.find?_eq_none.mpr fun c hc ↦ ?_
    obtain ⟨k, hk, rfl⟩ := List.mem_take_iff_getElem.mp hc
    rw [hurl]
    simpa using hbefore k (by omega)
  rw [verdict, hnone]

theorem verdict_eq_one {past : List DupesCall} {c : DupesCall} (h : verdict past c = 1) :
    ∃ f, firstCall past c.url = some f ∧ c.now.toInt - f.now.toInt < 600 := by
  rw [verdict] at h
  cases hf : firstCall past c.url with
  | none => simp [hf] at h
  | some f =>
    simp only [hf] at h
    refine ⟨f, rfl, ?_⟩
    by_contra hlate
    rw [if_neg fun hlt ↦ hlate (toInt_sub_lt_of_toUInt64_sub_lt hlt)] at h
    exact absurd h (by decide)

/-- **No false suppression.** Whatever URLs are asked for, however they collide and however often
the table grows, `avoid_dupes` answers "duplicate" only to a URL that it let through within the
last 600 seconds. -/
theorem avoidDupes_noFalseSuppression {alloc : Alloc} (halloc : alloc.Succeeds)
    (calls : List DupesCall) :
    ∃ rets, avoidDupesRun alloc Dupes.init calls = some rets ∧ NoFalseSuppression calls rets := by
  refine ⟨_, avoidDupesRun_eq_verdicts halloc tracks_init calls, fun j c hj hone ↦ ?_⟩
  rw [getElem?_verdicts, hj, Option.map_some, List.nil_append, Option.some_inj] at hone
  obtain ⟨f, hf, hlt⟩ := verdict_eq_one hone
  obtain ⟨i, hi, hget, hurl, hzero⟩ := exists_firstCall_verdict hf
  have hij : i < j := hi.trans_le (List.length_take_le j calls)
  rw [List.getElem?_take_of_lt hij] at hget
  rw [List.take_take, min_eq_left hij.le] at hzero
  refine ⟨i, f, hij, hget, hurl, ?_, hlt⟩
  rw [getElem?_verdicts, hget, Option.map_some, List.nil_append, hzero]

theorem avoidDupes_noFalseSuppression_two : ∃ rets,
    avoidDupesRun Alloc.ok Dupes.init
        [⟨0, bytes "u", 0⟩, ⟨1, bytes "v", 0⟩, ⟨2, bytes "u", 1⟩] = some rets ∧
      NoFalseSuppression [⟨0, bytes "u", 0⟩, ⟨1, bytes "v", 0⟩, ⟨2, bytes "u", 1⟩] rets :=
  avoidDupes_noFalseSuppression Alloc.ok_succeeds _

end ClrDebugInfo
