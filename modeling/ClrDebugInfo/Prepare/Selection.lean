import Mathlib.Data.List.AList
import Mathlib.Data.List.Sort
import ClrDebugInfo.Prepare.ProcessOne

/-!
# Which tarballs are made

The gawk program of `scripts/clr_debug_prepare`: from the lists that `find` makes of the source and
of the destination it selects the files that `process_one` is called for.

The program is a fold over two streams of lines. What it selects is stated without the order of the
lines in `mem_select`, for source files that have different names.
-/

namespace ClrDebugInfo

/-! ## The program -/

/-- A line `%p %T@ %y` of a list, after `sed`. Times are in ticks that gawk's numbers tell apart. -/
structure Line where
  name : Bytes
  time : ℕ
  type : FileType
  deriving DecidableEq

/-- `src[name]` -/
structure SrcEntry where
  srcname : Bytes
  time : ℕ
  type : FileType
  done : Bool

/-- A line that the program prints: the arguments of `process_one`. -/
@[ext] structure PackJob where
  srcname : Bytes
  name : Bytes
  type : FileType
  deriving DecidableEq

/-- The variables of the program, and what it has printed. -/
structure Gawk where
  src : AList fun _ : Bytes ↦ SrcEntry
  destContent : Bool
  out : List PackJob

def Gawk.init : Gawk := ⟨∅, false, []⟩

def SrcEntry.job (e : SrcEntry) (name : Bytes) : PackJob := ⟨e.srcname, name, e.type⟩

/-- `LIST == "src"`; `none` is the error exit. -/
def srcRule (st : Gawk) (line : Line) : Option Gawk :=
  (mapName line.name).map fun name ↦
    { st with src := st.src.insert name ⟨line.name, line.time, line.type, false⟩ }

/-- `LIST == "dest"` -/
def destRule (st : Gawk) (line : Line) : Gawk :=
  match st.src.lookup line.name with
  | none => { st with destContent := true }
  | some e =>
    let src := st.src.insert line.name { e with done := true }
    if e.type = .d then ⟨src, true, st.out⟩
    else if line.time < e.time then ⟨src, true, st.out ++ [e.job line.name]⟩
    else ⟨src, true, st.out⟩

/-- `END`, with the indices in ascending order. -/
def endRule (st : Gawk) : List PackJob :=
  let indices := st.src.keys.insertionSort (· ≤ ·)
  if st.destContent = false then
    st.out ++ indices.filterMap fun s ↦ (st.src.lookup s).map fun e ↦ e.job s
  else
    st.out ++ indices.filterMap fun s ↦
      (st.src.lookup s).bind fun e ↦ if e.done = false then some (e.job s) else none

/-- The program, for a source list and a destination list. -/
def select (srclist destlist : List Line) : Option (List PackJob) :=
  (srclist.foldlM srcRule Gawk.init).map fun st ↦ endRule (destlist.foldl destRule st)

/-! ## What the rules do to the array -/

/-- No two lines have the same key. -/
def DistinctBy {α : Type*} (key : Line → α) (lines : List Line) : Prop :=
  ∀ l ∈ lines, ∀ l' ∈ lines, key l = key l' → l = l'

theorem DistinctBy.append_left {α : Type*} {key : Line → α} {lines lines' : List Line}
    (h : DistinctBy key (lines ++ lines')) : DistinctBy key lines :=
  fun l hl l' hl' ↦ h l (List.mem_append_left _ hl) l' (List.mem_append_left _ hl')

/-- The last line of the source list for a name. -/
def lastRecord (lines : List Line) (name : Bytes) : Option Line :=
  lines.reverse.find? fun l ↦ mapName l.name = some name

private theorem lastRecord_concat (lines : List Line) (l : Line) (name : Bytes) :
    lastRecord (lines ++ [l]) name =
      if mapName l.name = some name then some l else lastRecord lines name := by
  rw [lastRecord, List.reverse_concat, List.find?_cons]
  by_cases h : mapName l.name = some name
  · simp [h]
  · simp [h, lastRecord]

private theorem lastRecord_eq_some_iff {lines : List Line} {name : Bytes} {l : Line}
    (hdistinct : DistinctBy (fun l ↦ mapName l.name) lines) :
    lastRecord lines name = some l ↔ l ∈ lines ∧ mapName l.name = some name := by
  constructor
  · intro h
    exact ⟨List.mem_reverse.mp (List.mem_of_find?_eq_some h), by simpa using List.find?_some h⟩
  · rintro ⟨hl, hname⟩
    obtain ⟨l', hl'⟩ : ∃ l', lastRecord lines name = some l' := by
      rw [← Option.isSome_iff_exists, lastRecord, List.find?_isSome]
      exact ⟨l, List.mem_reverse.mpr hl, decide_eq_true hname⟩
    have hname' : mapName l'.name = some name := by simpa using List.find?_some hl'
    have hmem := List.mem_reverse.mp (List.mem_of_find?_eq_some hl')
    rw [hl', hdistinct l' hmem l hl (hname'.trans hname.symm)]

/-- `src[name]` after its last line. -/
def Line.entry (l : Line) : SrcEntry := ⟨l.name, l.time, l.type, false⟩

private theorem lookup_srcRule {lines : List Line} {st : Gawk}
    (h : lines.foldlM srcRule Gawk.init = some st) :
    st.destContent = false ∧ st.out = [] ∧
      ∀ name, st.src.lookup name = (lastRecord lines name).map Line.entry := by
  induction lines using List.reverseRecOn generalizing st with
  | nil =>
    obtain rfl := Option.some.inj h
    exact ⟨rfl, rfl, fun name ↦ by simp [Gawk.init, lastRecord]⟩
  | append_singleton lines l ih =>
    rw [List.foldlM_append] at h
    obtain ⟨st₁, h₁, hl⟩ := Option.bind_eq_some_iff.mp h
    obtain ⟨hcontent, hout, hlookup⟩ := ih h₁
    rw [List.foldlM_cons] at hl
    obtain ⟨st₂, h₂, hst⟩ := Option.bind_eq_some_iff.mp hl
    obtain rfl := Option.some.inj hst
    obtain ⟨n, hn, rfl⟩ := Option.map_eq_some_iff.mp h₂
    refine ⟨hcontent, hout, fun name ↦ ?_⟩
    -- a later line overwrites the entry of its name
    rw [lastRecord_concat, hn]
    by_cases hname : name = n
    · subst hname
      rw [AList.lookup_insert, if_pos rfl]
      rfl
    · rw [AList.lookup_insert_ne hname, hlookup, if_neg fun h ↦ hname (Option.some.inj h).symm]

theorem accepted_of_srcRule {lines : List Line} {st st' : Gawk}
    (h : lines.foldlM srcRule st = some st') {l : Line} (hl : l ∈ lines) :
    ∃ name, mapName l.name = some name := by
  induction lines generalizing st with
  | nil => exact absurd hl (by simp)
  | cons l' lines ih =>
    rw [List.foldlM_cons] at h
    obtain ⟨st₁, h₁, hrest⟩ := Option.bind_eq_some_iff.mp h
    rcases List.mem_cons.mp hl with rfl | hl
    · obtain ⟨name, hname, -⟩ := Option.map_eq_some_iff.mp h₁
      exact ⟨name, hname⟩
    · exact ih hrest hl

private theorem exists_srcRule {lines : List Line}
    (hmap : ∀ l ∈ lines, mapName l.name ≠ none) (st : Gawk) :
    ∃ st', lines.foldlM srcRule st = some st' := by
  induction lines generalizing st with
  | nil => exact ⟨st, rfl⟩
  | cons l lines ih =>
    obtain ⟨name, hname⟩ := Option.ne_none_iff_exists'.mp (hmap l List.mem_cons_self)
    rw [List.foldlM_cons, srcRule, hname]
    exact ih (fun l' hl' ↦ hmap l' (List.mem_cons_of_mem l hl')) _

theorem destRule_of_lookup_eq_none {st : Gawk} {l : Line} (h : st.src.lookup l.name = none) :
    destRule st l = { st with destContent := true } := by
  rw [destRule, h]

theorem destRule_of_lookup_eq_some {st : Gawk} {l : Line} {e : SrcEntry}
    (h : st.src.lookup l.name = some e) :
    destRule st l = ⟨st.src.insert l.name { e with done := true }, true,
      if e.type ≠ .d ∧ l.time < e.time then st.out ++ [e.job l.name] else st.out⟩ := by
  rw [destRule, h]
  by_cases htype : e.type = .d
  · simp [htype]
  · by_cases htime : l.time < e.time
    · simp [htype, htime]
    · simp [htype, htime]

/-- What a line of the destination list prints: a job if the old tarball is older than a source file
that is no directory. -/
def destPrints (st : Gawk) (l : Line) : Option PackJob :=
  (st.src.lookup l.name).bind fun e ↦
    if e.type ≠ .d ∧ l.time < e.time then some (e.job l.name) else none

private theorem destPrints_eq_some_iff {st : Gawk} {l : Line} {job : PackJob} :
    destPrints st l = some job ↔ ∃ e, st.src.lookup l.name = some e ∧
      (e.type ≠ .d ∧ l.time < e.time) ∧ job = e.job l.name := by
  rw [destPrints, Option.bind_eq_some_iff]
  simp only [Option.ite_none_right_eq_some, Option.some_inj]
  exact exists_congr fun e ↦ and_congr_right fun _ ↦ and_congr_right fun _ ↦ eq_comm

private theorem lookup_destRule (lines : List Line) (st : Gawk) :
    (lines.foldl destRule st).destContent = (st.destContent || !lines.isEmpty) ∧
      (∀ name, (lines.foldl destRule st).src.lookup name = (st.src.lookup name).map fun e ↦
        { e with done := e.done || lines.any fun l ↦ l.name = name }) ∧
      (lines.foldl destRule st).out = st.out ++ lines.filterMap (destPrints st) := by
  induction lines using List.reverseRecOn with
  | nil =>
    refine ⟨by simp, fun name ↦ ?_, by simp⟩
    simp only [List.foldl_nil, List.any_nil, Bool.or_false]
    exact Option.map_id'.symm
  | append_singleton lines l ih =>
    obtain ⟨-, hlookup, hout⟩ := ih
    rw [List.foldl_append, List.foldl_cons, List.foldl_nil, List.filterMap_append,
      ← List.append_assoc, ← hout]
    generalize lines.foldl destRule st = st' at hlookup ⊢
    have hl := hlookup l.name
    cases he : st.src.lookup l.name with
    | none =>
      rw [he, Option.map_none] at hl
      rw [destRule_of_lookup_eq_none hl]
      refine ⟨by simp, fun name ↦ ?_, ?_⟩
      · rw [hlookup]
        by_cases hname : l.name = name
        · rw [← hname, he]
          rfl
        · simp [hname]
      · simp [destPrints, he]
    | some e =>
      rw [he, Option.map_some] at hl
      rw [destRule_of_lookup_eq_some hl]
      refine ⟨by simp, fun name ↦ ?_, ?_⟩
      · by_cases hname : name = l.name
        · rw [hname, AList.lookup_insert, he]
          simp
        · rw [AList.lookup_insert_ne hname, hlookup]
          simp [Ne.symm hname]
      · -- whether the entry is done does not matter for the line
        simp only [List.filterMap_cons, List.filterMap_nil, destPrints, he, Option.bind_some]
        by_cases hprint : e.type ≠ .d ∧ l.time < e.time
        · rw [if_pos hprint, if_pos hprint]
          rfl
        · rw [if_neg hprint, if_neg hprint, List.append_nil]

/-- What `END` prints for an index. -/
def endPrints (st : Gawk) (name : Bytes) : Option PackJob :=
  (st.src.lookup name).bind fun e ↦
    if st.destContent = false ∨ e.done = false then some (e.job name) else none

private theorem endPrints_eq_some_iff {st : Gawk} {name : Bytes} {job : PackJob} :
    endPrints st name = some job ↔ ∃ e, st.src.lookup name = some e ∧
      (st.destContent = false ∨ e.done = false) ∧ job = e.job name := by
  rw [endPrints, Option.bind_eq_some_iff]
  simp only [Option.ite_none_right_eq_some, Option.some_inj]
  exact exists_congr fun e ↦ and_congr_right fun _ ↦ and_congr_right fun _ ↦ eq_comm

theorem endRule_eq (st : Gawk) : endRule st =
    st.out ++ (st.src.keys.insertionSort (· ≤ ·)).filterMap (endPrints st) := by
  rw [endRule]
  unfold endPrints
  cases st.destContent with
  | false => simp [Option.map_eq_bind]
  | true => simp

private theorem mem_endRule {st : Gawk} {job : PackJob} : job ∈ endRule st ↔ job ∈ st.out ∨
    ∃ e, st.src.lookup job.name = some e ∧ (st.destContent = false ∨ e.done = false) ∧
      job = e.job job.name := by
  rw [endRule_eq, List.mem_append, List.mem_filterMap]
  simp only [endPrints_eq_some_iff]
  apply or_congr_right
  constructor
  · rintro ⟨s, -, e, he, hdone, rfl⟩
    exact ⟨e, he, hdone, rfl⟩
  · rintro ⟨e, he, hdone, hjob⟩
    refine ⟨job.name, ?_, e, he, hdone, hjob⟩
    rw [List.mem_insertionSort, ← AList.mem_keys, ← AList.lookup_isSome, he]
    rfl

/-- **What is selected**, for any lists: a name of the source table that has no tarball, or is not a
directory and has a tarball that is older. -/
theorem mem_select_last {srclist destlist : List Line} {jobs : List PackJob}
    (h : select srclist destlist = some jobs) {job : PackJob} :
    job ∈ jobs ↔ ∃ l, lastRecord srclist job.name = some l ∧ job.srcname = l.name ∧
      job.type = l.type ∧ ((∀ old ∈ destlist, old.name ≠ job.name) ∨
        l.type ≠ .d ∧ ∃ old ∈ destlist, old.name = job.name ∧ old.time < l.time) := by
  obtain ⟨st, hst, rfl⟩ := Option.map_eq_some_iff.mp h
  obtain ⟨hcontent, hnone, hlookup⟩ := lookup_srcRule hst
  obtain ⟨hcontent', hlookup', hout⟩ := lookup_destRule destlist st
  rw [mem_endRule, hout, hnone, hcontent', hcontent, List.nil_append, List.mem_filterMap]
  simp only [destPrints_eq_some_iff, hlookup', hlookup]
  constructor
  · rintro (⟨old, hold, e, he, ⟨htype, htime⟩, rfl⟩ | ⟨e', he', hdone, hjob⟩)
    · obtain ⟨l, hl, rfl⟩ := Option.map_eq_some_iff.mp he
      exact ⟨l, hl, rfl, rfl, Or.inr ⟨htype, old, hold, rfl, htime⟩⟩
    · obtain ⟨e, he, rfl⟩ := Option.map_eq_some_iff.mp he'
      obtain ⟨l, hl, rfl⟩ := Option.map_eq_some_iff.mp he
      refine ⟨l, hl, congrArg PackJob.srcname hjob, congrArg PackJob.type hjob,
        Or.inl fun old hold hname ↦ ?_⟩
      rcases hdone with hempty | hdone
      · rw [Bool.false_or, Bool.not_eq_false', List.isEmpty_iff] at hempty
        rw [hempty] at hold
        exact absurd hold (by simp)
      · simp only [Line.entry, Bool.false_or, List.any_eq_false, decide_eq_true_eq] at hdone
        exact hdone old hold hname
  · rintro ⟨l, hl, hsrcname, htype, hwhy⟩
    have hjob : job = l.entry.job job.name := by
      rw [SrcEntry.job, Line.entry, ← hsrcname, ← htype]
    -- the rule of the destination list prints the one, the rule `END` the other
    rcases hwhy with hnew | ⟨hd, old, hold, hname, htime⟩
    · have hdone : (l.entry.done || destlist.any fun old ↦ old.name = job.name) = false := by
        rw [Line.entry, Bool.false_or, List.any_eq_false]
        exact fun old hold hname ↦ hnew old hold (of_decide_eq_true hname)
      refine Or.inr ⟨{ l.entry with done := false }, ?_, Or.inr rfl, hjob⟩
      rw [hl, Option.map_some, Option.map_some, hdone]
    · exact Or.inl ⟨old, hold, l.entry, by rw [hname, hl]; rfl, ⟨hd, htime⟩, hname ▸ hjob⟩

/-- **What is selected.** A source file is packed if it has no tarball, or is not a directory and
its tarball is older. -/
theorem mem_select {srclist destlist : List Line} {jobs : List PackJob}
    (h : select srclist destlist = some jobs)
    (hsrc : DistinctBy (fun l ↦ mapName l.name) srclist) (hdest : DistinctBy Line.name destlist)
    {job : PackJob} : job ∈ jobs ↔ ∃ l ∈ srclist, mapName l.name = some job.name ∧
      job.srcname = l.name ∧ job.type = l.type ∧
      ∀ old ∈ destlist, old.name = job.name → l.type ≠ .d ∧ old.time < l.time := by
  have holds : ∀ l : Line, ((∀ old ∈ destlist, old.name ≠ job.name) ∨
      l.type ≠ .d ∧ ∃ old ∈ destlist, old.name = job.name ∧ old.time < l.time) ↔
      ∀ old ∈ destlist, old.name = job.name → l.type ≠ .d ∧ old.time < l.time := by
    intro l
    constructor
    · rintro (hnew | ⟨hd, old, hold, hname, htime⟩) old' hold' hname'
      · exact absurd hname' (hnew old' hold')
      · rw [hdest old' hold' old hold (hname'.trans hname.symm)]
        exact ⟨hd, htime⟩
    · intro hall
      by_cases hex : ∃ old ∈ destlist, old.name = job.name
      · obtain ⟨old, hold, hname⟩ := hex
        obtain ⟨hd, htime⟩ := hall old hold hname
        exact Or.inr ⟨hd, old, hold, hname, htime⟩
      · exact Or.inl fun old hold hname ↦ hex ⟨old, hold, hname⟩
  rw [mem_select_last h]
  simp only [lastRecord_eq_some_iff hsrc, holds, and_assoc]

/-! ## Once for each name -/

private theorem map_name_filterMap_sublist {α : Type*} {f : α → Option PackJob} {name : α → Bytes}
    (h : ∀ a job, f a = some job → job.name = name a) (l : List α) :
    ((l.filterMap f).map PackJob.name).Sublist (l.map name) := by
  induction l with
  | nil => exact List.Sublist.slnil
  | cons a l ih =>
    rw [List.filterMap_cons]
    cases hf : f a with
    | none => exact ih.cons (name a)
    | some job =>
      rw [List.map_cons, List.map_cons, h a job hf]
      exact ih.cons_cons (name a)

private theorem nodup_select {srclist destlist : List Line} {jobs : List PackJob}
    (h : select srclist destlist = some jobs) (hdest : (destlist.map Line.name).Nodup) :
    (jobs.map PackJob.name).Nodup := by
  obtain ⟨st, hst, rfl⟩ := Option.map_eq_some_iff.mp h
  obtain ⟨-, hnone, -⟩ := lookup_srcRule hst
  obtain ⟨hcontent, hlookup, hout⟩ := lookup_destRule destlist st
  rw [endRule_eq, List.map_append, List.nodup_append, hout, hnone, List.nil_append]
  generalize destlist.foldl destRule st = st' at hcontent hlookup
  have hprints : ∀ l job, destPrints st l = some job → job.name = l.name := by
    intro l job hjob
    obtain ⟨e, -, -, rfl⟩ := destPrints_eq_some_iff.mp hjob
    rfl
  have hends : ∀ name job, endPrints st' name = some job → job.name = name := by
    intro name job hjob
    obtain ⟨e, -, -, rfl⟩ := endPrints_eq_some_iff.mp hjob
    rfl
  have hkeys : (st'.src.keys.insertionSort (· ≤ ·)).Nodup :=
    (List.perm_insertionSort _ _).nodup_iff.mpr st'.src.keys_nodup
  refine ⟨(map_name_filterMap_sublist hprints destlist).nodup hdest, ?_, ?_⟩
  · refine (map_name_filterMap_sublist hends _).nodup ?_
    rwa [List.map_id']
  · rintro name hname name' hname' rfl
    obtain ⟨job, hjob, rfl⟩ := List.mem_map.mp hname
    obtain ⟨l, hl, hprint⟩ := List.mem_filterMap.mp hjob
    obtain ⟨job', hjob', hsame⟩ := List.mem_map.mp hname'
    obtain ⟨s, -, hend⟩ := List.mem_filterMap.mp hjob'
    obtain ⟨e, he, hdone, rfl⟩ := endPrints_eq_some_iff.mp hend
    -- the line has set the flag of its entry, and the global one
    have hs : l.name = s := (hprints l job hprint).symm.trans hsame.symm
    rw [hlookup] at he
    obtain ⟨e', -, rfl⟩ := Option.map_eq_some_iff.mp he
    rcases hdone with hempty | hdone
    · rw [hcontent, Bool.or_eq_false_iff, Bool.not_eq_false', List.isEmpty_iff] at hempty
      rw [hempty.2] at hl
      exact absurd hl (by simp)
    · rw [Bool.or_eq_false_iff, List.any_eq_false] at hdone
      exact hdone.2 l hl (decide_eq_true hs)

/-- **Selection of work.** Every name of the source table that has no tarball, or is not a directory
and has a tarball that is older, is printed once, with the path and the type of its last record. On
an empty destination list the branch for it prints what the other branch would. -/
theorem select_exactlyOnce {srclist destlist : List Line}
    (hmap : ∀ l ∈ srclist, mapName l.name ≠ none)
    (hdest : (destlist.map Line.name).Nodup) :
    ∃ jobs, select srclist destlist = some jobs ∧ (jobs.map PackJob.name).Nodup ∧
      (∀ job, job ∈ jobs ↔ ∃ l, lastRecord srclist job.name = some l ∧ job.srcname = l.name ∧
        job.type = l.type ∧ ((∀ old ∈ destlist, old.name ≠ job.name) ∨
          l.type ≠ .d ∧ ∃ old ∈ destlist, old.name = job.name ∧ old.time < l.time)) ∧
      ∀ st, srclist.foldlM srcRule Gawk.init = some st →
        endRule st = endRule { st with destContent := true } := by
  obtain ⟨st, hst⟩ := exists_srcRule hmap Gawk.init
  have hsel : select srclist destlist = some (endRule (destlist.foldl destRule st)) := by
    rw [select, hst, Option.map_some]
  refine ⟨_, hsel, nodup_select hsel hdest, fun job ↦ mem_select_last hsel, fun st' hst' ↦ ?_⟩
  obtain ⟨-, -, hlookup⟩ := lookup_srcRule hst'
  rw [endRule_eq, endRule_eq]
  congr 1
  refine List.filterMap_congr fun name _ ↦ Option.ext fun job ↦ ?_
  rw [endPrints_eq_some_iff, endPrints_eq_some_iff]
  refine exists_congr fun e ↦ and_congr_right fun he ↦ and_congr_left fun _ ↦ ?_
  -- no entry is done before the destination list is read
  rw [hlookup] at he
  obtain ⟨l, -, rfl⟩ := Option.map_eq_some_iff.mp he
  exact iff_of_true (Or.inr rfl) (Or.inr rfl)

/-- Two source paths of one name, of which the second is newer than the tarball, a directory that
has a tarball, and a file that has none. -/
theorem select_exactlyOnce_four : ∃ jobs, select
      [⟨bytes "/usr/lib/debug/a", 5, .f⟩, ⟨bytes "/usr/share/debug/a", 9, .l⟩,
        ⟨bytes "/usr/src/debug/d", 9, .d⟩, ⟨bytes "/usr/src/debug/n", 3, .f⟩]
      [⟨bytes "/src/d", 4, .f⟩, ⟨bytes "/lib/a", 7, .f⟩] = some jobs ∧
    (jobs.map PackJob.name).Nodup ∧ ⟨bytes "/usr/share/debug/a", bytes "/lib/a", .l⟩ ∈ jobs := by
  obtain ⟨jobs, hsel, hnodup, hmem, -⟩ := @select_exactlyOnce
    [⟨bytes "/usr/lib/debug/a", 5, .f⟩, ⟨bytes "/usr/share/debug/a", 9, .l⟩,
      ⟨bytes "/usr/src/debug/d", 9, .d⟩, ⟨bytes "/usr/src/debug/n", 3, .f⟩]
    [⟨bytes "/src/d", 4, .f⟩, ⟨bytes "/lib/a", 7, .f⟩] (by decide) (by decide)
  exact ⟨jobs, hsel, hnodup, (hmem _).mpr ⟨_, rfl, rfl, rfl, Or.inr ⟨by decide, by decide⟩⟩⟩

end ClrDebugInfo
