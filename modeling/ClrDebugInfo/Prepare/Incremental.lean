import ClrDebugInfo.Library.Runs
import ClrDebugInfo.Prepare.Selection

/-!
# Incremental publishing

Histories of a source tree: edits, each of which stamps the path it is about, and runs of
`scripts/clr_debug_prepare` on one destination. A run packs what `select` selects by times and
types, so that a tarball can be out of date where its content depends on something else: on what a
link resolves to, or, since a directory is not packed twice, on any change to a directory.

What keeps the rest up to date is the invariant `Site.Current`: as long as a path is not edited, its
tarball is the one that was made of it.
-/

namespace ClrDebugInfo

open Runs

/-! ## Trees -/

/-- A file of the source tree. -/
structure SourceFile where
  type : FileType
  /-- `%T@`, in ticks that gawk's numbers tell apart. -/
  time : ℕ
  /-- The content of a file, or what a link says. -/
  data : Bytes
  deriving DecidableEq

/-- The source tree, by paths from `$SRC`. -/
abbrev Tree := AList fun _ : Bytes ↦ SourceFile

/-- What the programs see of a source tree. -/
structure Sight where
  src : Bytes
  dest : Bytes
  lstat : Tree → Bytes → Bytes → Option SourceFile
  realpath : Tree → Bytes → Bytes → Option Bytes
  chain : Bytes → Bytes → Option Bytes

def Sight.env (s : Sight) (tree : Tree) : PrepareEnv SourceFile :=
  ⟨s.src, s.dest, s.lstat tree, s.realpath tree, s.chain⟩

/-- tar sees the files of the tree. -/
structure Sight.Faithful (s : Sight) : Prop where
  /-- A file is found from every directory above it. -/
  above : ∀ {tree : Tree} {d r : Bytes} {file : SourceFile},
    tree.lookup (d ++ bytes "/" ++ r) = some file →
      s.lstat tree (s.src ++ bytes "/" ++ d) (bytes "./" ++ r) = some file
  dir : ∀ {tree : Tree} {p : Bytes} {file : SourceFile},
    tree.lookup p = some file → file.type = .d →
      s.lstat tree (s.src ++ bytes "/" ++ p) (bytes ".") = some file
  /-- A regular file is no directory to change to. -/
  leaf : ∀ {tree : Tree} {p : Bytes} {file : SourceFile},
    tree.lookup p = some file → file.type = .f →
      s.lstat tree (s.src ++ bytes "/" ++ p) (bytes ".") = none
  /-- Nor is a link that cannot be resolved from itself. -/
  entered : ∀ {tree : Tree} {p : Bytes} {file : SourceFile},
    tree.lookup p = some file → file.type = .l →
      s.realpath tree (s.src ++ bytes "/" ++ p) (s.src ++ bytes "/" ++ p) = none →
        s.lstat tree (s.src ++ bytes "/" ++ p) (bytes ".") = none

/-- What a link resolves to: the name that `realpath` prints, and the file that tar finds there. -/
def Sight.resolves (s : Sight) (tree : Tree) (p : Bytes) : Option (Bytes × Option SourceFile) :=
  (s.realpath tree (s.src ++ bytes "/" ++ p) (s.src ++ bytes "/" ++ sedRoot p)).map fun target ↦
    (target, s.lstat tree (s.src ++ bytes "/" ++ sedRoot p) (unquote target))

/-! ## Runs of the script -/

/-- A tarball in the destination. -/
structure Archive where
  time : ℕ
  members : List (Bytes × SourceFile)
  /-- The source tree it was made from. -/
  source : Tree

/-- The tarballs, by mapped name. -/
abbrev Dest := AList fun _ : Bytes ↦ Archive

/-- `find "$SRC" -mindepth 4`, sorted -/
def srclist (tree : Tree) : List Line :=
  ((tree.entries.filter fun e ↦ 4 ≤ e.1.count 47).map fun e ↦
    ⟨e.1, e.2.time, e.2.type⟩).insertionSort fun l l' ↦ l.name ≤ l'.name

/-- `find "$DEST" -mindepth 2 -name '*.tar'`, sorted -/
def destlist (dest : Dest) : List Line :=
  ((dest.entries.filter fun e ↦ 2 ≤ e.1.count 47).map fun e ↦
    ⟨e.1, e.2.time, .f⟩).insertionSort fun l l' ↦ l.name ≤ l'.name

/-- The tarball of a job. -/
def Sight.packed (s : Sight) (tree : Tree) (made : Bytes → ℕ) (job : PackJob) : Option Archive :=
  (processOne (s.env tree) job.srcname job.name job.type).archive.map fun members ↦
    ⟨made job.name, members, tree⟩

/-- A job done; where tar makes no archive, an old one stays. -/
def Sight.pack (s : Sight) (tree : Tree) (made : Bytes → ℕ) (dest : Dest) (job : PackJob) : Dest :=
  match s.packed tree made job with
  | none => dest
  | some a => dest.insert job.name a

/-- A run on an empty destination. -/
def Sight.rebuild (s : Sight) (tree : Tree) (made : Bytes → ℕ) : Option Dest :=
  (select (srclist tree) (destlist ∅)).map fun jobs ↦ jobs.foldl (s.pack tree made) ∅

/-! ## Histories -/

structure Site where
  clock : ℕ
  tree : Tree
  dest : Dest

def Site.start : Site := ⟨0, ∅, ∅⟩

inductive Change where
  /-- A path is created, written, made another type of file or pointed elsewhere. -/
  | edit (time : ℕ) (path : Bytes) (type : FileType) (data : Bytes)
  | delete (time : ℕ) (path : Bytes)
  /-- The script runs; it is done at `stop`, and a tarball is made at `made name`. -/
  | run (made : Bytes → ℕ) (stop : ℕ)

instance {α : Type*} [DecidableEq α] (key : Line → α) (lines : List Line) :
    Decidable (DistinctBy key lines) :=
  inferInstanceAs (Decidable (∀ l ∈ lines, ∀ l' ∈ lines, _ → _))

/-- The run is complete: tar makes what it is asked for, while the clock goes on. Paths have
different names, and no tarball lies where the directory of another has to be. -/
def Site.Completes (s : Sight) (w : Site) (jobs : List PackJob) (made : Bytes → ℕ) (stop : ℕ) :
    Prop :=
  w.clock ≤ stop ∧ DistinctBy (fun l ↦ mapName l.name) (srclist w.tree) ∧
    (∀ job ∈ jobs, w.clock < made job.name ∧ made job.name ≤ stop ∧
      (job.type ≠ .other → (s.packed w.tree made job).isSome)) ∧
    ∀ n ∈ w.dest.keys ++ jobs.map PackJob.name, ∀ n' ∈ w.dest.keys ++ jobs.map PackJob.name,
      ¬n ++ bytes ".tar/" <+: n'

instance (s : Sight) (w : Site) (jobs : List PackJob) (made : Bytes → ℕ) (stop : ℕ) :
    Decidable (w.Completes s jobs made stop) :=
  inferInstanceAs (Decidable (_ ∧ _ ∧ (∀ job ∈ jobs, _ ∧ _ ∧ (_ → _)) ∧ ∀ n ∈ _, ∀ n' ∈ _, ¬_))

/-- One change of the tree, stamped with the time, or one run. -/
def Sight.step (s : Sight) (w : Site) : Change → Option Site
  | .edit time path type data =>
    if w.clock < time ∧ path.all (fun b ↦ !isSpace b) then
      some { w with clock := time, tree := w.tree.insert path ⟨type, time, data⟩ }
    else none
  | .delete time path =>
    if w.clock < time then some { w with clock := time, tree := w.tree.erase path } else none
  | .run made stop =>
    (select (srclist w.tree) (destlist w.dest)).bind fun jobs ↦
      if w.Completes s jobs made stop then
        some { w with clock := stop, dest := jobs.foldl (s.pack w.tree made) w.dest }
      else none

variable {s : Sight} {tree : Tree} {dest : Dest} {made : Bytes → ℕ} {jobs : List PackJob}

/-! ## The lists -/

theorem mem_srclist {l : Line} : l ∈ srclist tree ↔ ∃ file, tree.lookup l.name = some file ∧
    4 ≤ l.name.count 47 ∧ l.time = file.time ∧ l.type = file.type := by
  rw [srclist, List.mem_insertionSort, List.mem_map]
  constructor
  · rintro ⟨⟨p, file⟩, he, rfl⟩
    obtain ⟨he, hdeep⟩ := List.mem_filter.mp he
    exact ⟨file, AList.mem_lookup_iff.mpr he, of_decide_eq_true hdeep, rfl, rfl⟩
  · rintro ⟨file, hlookup, hdeep, htime, htype⟩
    refine ⟨⟨l.name, file⟩, List.mem_filter.mpr ⟨AList.mem_lookup_iff.mp hlookup,
      decide_eq_true hdeep⟩, ?_⟩
    rw [← htime, ← htype]

theorem mem_destlist {l : Line} : l ∈ destlist dest ↔ ∃ a, dest.lookup l.name = some a ∧
    2 ≤ l.name.count 47 ∧ l.time = a.time ∧ l.type = .f := by
  rw [destlist, List.mem_insertionSort, List.mem_map]
  constructor
  · rintro ⟨⟨n, a⟩, he, rfl⟩
    obtain ⟨he, hdeep⟩ := List.mem_filter.mp he
    exact ⟨a, AList.mem_lookup_iff.mpr he, of_decide_eq_true hdeep, rfl, rfl⟩
  · rintro ⟨a, hlookup, hdeep, htime, htype⟩
    refine ⟨⟨l.name, a⟩, List.mem_filter.mpr ⟨AList.mem_lookup_iff.mp hlookup,
      decide_eq_true hdeep⟩, ?_⟩
    rw [← htime, ← htype]

theorem distinctBy_destlist (dest : Dest) : DistinctBy Line.name (destlist dest) := by
  rintro ⟨n, time, type⟩ hl ⟨n', time', type'⟩ hl' (rfl : n = n')
  obtain ⟨a, ha, -, rfl, rfl⟩ := mem_destlist.mp hl
  obtain ⟨a', ha', -, rfl, rfl⟩ := mem_destlist.mp hl'
  simp only at ha ha'
  rw [ha, Option.some_inj] at ha'
  rw [ha']

theorem mem_jobs_iff (hsel : select (srclist tree) (destlist dest) = some jobs)
    (hdistinct : DistinctBy (fun l ↦ mapName l.name) (srclist tree)) {p n : Bytes}
    {file : SourceFile} (hp : tree.lookup p = some file) (hdeep : 4 ≤ p.count 47)
    (hn : mapName p = some n) {job : PackJob} (hname : job.name = n) :
    job ∈ jobs ↔ job = ⟨p, n, file.type⟩ ∧
      ∀ a, dest.lookup n = some a → 2 ≤ n.count 47 → file.type ≠ .d ∧ a.time < file.time := by
  have hline : (⟨p, file.time, file.type⟩ : Line) ∈ srclist tree :=
    mem_srclist.mpr ⟨file, hp, hdeep, rfl, rfl⟩
  rw [mem_select hsel hdistinct (distinctBy_destlist dest)]
  constructor
  · rintro ⟨l, hl, hmap, hsrcname, htype, hold⟩
    obtain rfl := hdistinct l hl _ hline (hmap.trans (hname ▸ hn.symm))
    exact ⟨PackJob.ext hsrcname hname htype, fun a ha hlisted ↦
      hold ⟨n, a.time, .f⟩ (mem_destlist.mpr ⟨a, ha, hlisted, rfl, rfl⟩) hname.symm⟩
  · rintro ⟨rfl, hold⟩
    refine ⟨_, hline, hn, rfl, rfl, fun old hmem hname' ↦ ?_⟩
    obtain ⟨a, ha, hlisted, htime, -⟩ := mem_destlist.mp hmem
    rw [hname'] at ha hlisted
    rw [htime]
    exact hold a ha hlisted

/-! ## Packing -/

private theorem lookup_pack {n : Bytes} {a : Option Archive}
    (hall : ∀ job ∈ jobs, job.name = n → s.packed tree made job = a) :
    (jobs.foldl (s.pack tree made) dest).lookup n =
      if ∃ job ∈ jobs, job.name = n then a.or (dest.lookup n) else dest.lookup n := by
  induction jobs using List.reverseRecOn with
  | nil => simp
  | append_singleton jobs job ih =>
    have ih := ih fun j hj ↦ hall j (List.mem_append_left _ hj)
    rw [List.foldl_append, List.foldl_cons, List.foldl_nil, Sight.pack]
    by_cases hname : job.name = n
    · rw [hall job (List.mem_append_right _ List.mem_cons_self) hname,
        if_pos ⟨job, List.mem_append_right _ List.mem_cons_self, hname⟩]
      cases a with
      | none =>
        rw [Option.none_or] at ih ⊢
        exact ih.trans (ite_self _)
      | some a =>
        rw [← hname]
        exact AList.lookup_insert _
    · have hmore : (∃ j ∈ jobs ++ [job], j.name = n) ↔ ∃ j ∈ jobs, j.name = n := by
        simp only [List.mem_append, List.mem_singleton, or_and_right, exists_or, exists_eq_left,
          hname, or_false]
      rw [if_congr hmore rfl rfl, ← ih]
      cases s.packed tree made job with
      | none => rfl
      | some a => exact AList.lookup_insert_ne (Ne.symm hname)

theorem lookup_pack_eq_some {n : Bytes} {a : Archive}
    (h : (jobs.foldl (s.pack tree made) dest).lookup n = some a) :
    dest.lookup n = some a ∨ ∃ job ∈ jobs, job.name = n ∧ s.packed tree made job = some a := by
  induction jobs using List.reverseRecOn with
  | nil => exact Or.inl h
  | append_singleton jobs job ih =>
    have hold : (jobs.foldl (s.pack tree made) dest).lookup n = some a →
        dest.lookup n = some a ∨
          ∃ j ∈ jobs ++ [job], j.name = n ∧ s.packed tree made j = some a := fun h ↦
      (ih h).imp id fun ⟨j, hj, hja⟩ ↦ ⟨j, List.mem_append_left _ hj, hja⟩
    rw [List.foldl_append, List.foldl_cons, List.foldl_nil, Sight.pack] at h
    cases hpacked : s.packed tree made job with
    | none =>
      rw [hpacked] at h
      exact hold h
    | some b =>
      rw [hpacked] at h
      by_cases hname : n = job.name
      · subst hname
        rw [AList.lookup_insert] at h
        obtain rfl := Option.some.inj h
        exact Or.inr ⟨job, List.mem_append_right _ List.mem_cons_self, rfl, hpacked⟩
      · rw [AList.lookup_insert_ne hname] at h
        exact hold h

private theorem lookup_pack_of_mem (hsel : select (srclist tree) (destlist dest) = some jobs)
    (hdistinct : DistinctBy (fun l ↦ mapName l.name) (srclist tree)) {p n : Bytes}
    {file : SourceFile} (hp : tree.lookup p = some file) (hdeep : 4 ≤ p.count 47)
    (hn : mapName p = some n) :
    (jobs.foldl (s.pack tree made) dest).lookup n =
      if ∀ a, dest.lookup n = some a → 2 ≤ n.count 47 → file.type ≠ .d ∧ a.time < file.time then
        (s.packed tree made ⟨p, n, file.type⟩).or (dest.lookup n) else dest.lookup n := by
  rw [lookup_pack fun job hjob hname ↦ by
    rw [((mem_jobs_iff hsel hdistinct hp hdeep hn hname).mp hjob).1]]
  refine if_congr ⟨?_, fun hold ↦ ⟨⟨p, n, file.type⟩, ?_, rfl⟩⟩ rfl rfl
  · rintro ⟨job, hjob, hname⟩
    exact ((mem_jobs_iff hsel hdistinct hp hdeep hn hname).mp hjob).2
  · exact (mem_jobs_iff hsel hdistinct hp hdeep hn rfl).mpr ⟨rfl, hold⟩

private theorem lookup_rebuild {full : Dest} (hfull : s.rebuild tree made = some full)
    (hdistinct : DistinctBy (fun l ↦ mapName l.name) (srclist tree)) {p n : Bytes}
    {file : SourceFile} (hp : tree.lookup p = some file) (hdeep : 4 ≤ p.count 47)
    (hn : mapName p = some n) :
    full.lookup n = s.packed tree made ⟨p, n, file.type⟩ := by
  obtain ⟨jobs, hsel, rfl⟩ := Option.map_eq_some_iff.mp hfull
  rw [lookup_pack_of_mem hsel hdistinct hp hdeep hn, if_pos]
  · simp
  · intro a ha
    rw [AList.lookup_empty] at ha
    exact absurd ha (by simp)

/-! ## The invariant -/

/-- No time is in the future, and the tarball of a path that was not edited since was made of it. -/
structure Site.Current (s : Sight) (w : Site) : Prop where
  tree_le : ∀ p file, w.tree.lookup p = some file → file.time ≤ w.clock
  dest_le : ∀ n a, w.dest.lookup n = some a → a.time ≤ w.clock
  kept : ∀ n a p file, w.dest.lookup n = some a → w.tree.lookup p = some file →
    4 ≤ p.count 47 → mapName p = some n → file.time ≤ a.time →
    a.source.lookup p = some file ∧
      (processOne (s.env a.source) p n file.type).archive = some a.members

theorem Site.Current.edit {w : Site} (hw : w.Current s) {time : ℕ} (htime : w.clock < time)
    {path data : Bytes} {type : FileType} :
    Site.Current s ⟨time, w.tree.insert path ⟨type, time, data⟩, w.dest⟩ := by
  have hlookup : ∀ {p file}, (w.tree.insert path ⟨type, time, data⟩).lookup p = some file →
      w.tree.lookup p = some file ∨ file.time = time := by
    intro p file hp
    by_cases hpath : p = path
    · rw [hpath, AList.lookup_insert] at hp
      exact Or.inr (congrArg SourceFile.time (Option.some.inj hp).symm)
    · rw [AList.lookup_insert_ne hpath] at hp
      exact Or.inl hp
  refine ⟨fun p file hp ↦ ?_, fun n a ha ↦ (hw.dest_le n a ha).trans htime.le, ?_⟩
  · rcases hlookup hp with hp | heq
    · exact (hw.tree_le p file hp).trans htime.le
    · exact heq.le
  · intro n a p file ha hp hdeep hn hle
    rcases hlookup hp with hp | heq
    · exact hw.kept n a p file ha hp hdeep hn hle
    · -- an edit is later than every tarball
      have hclock := hw.dest_le n a ha
      omega

theorem Site.Current.delete {w : Site} (hw : w.Current s) {time : ℕ} (htime : w.clock < time)
    (path : Bytes) : Site.Current s ⟨time, w.tree.erase path, w.dest⟩ := by
  have hlookup : ∀ {p file}, (w.tree.erase path).lookup p = some file →
      w.tree.lookup p = some file := by
    intro p file hp
    by_cases hpath : p = path
    · rw [hpath, AList.lookup_erase] at hp
      exact absurd hp (by simp)
    · rwa [AList.lookup_erase_ne hpath] at hp
  exact ⟨fun p file hp ↦ (hw.tree_le p file (hlookup hp)).trans htime.le,
    fun n a ha ↦ (hw.dest_le n a ha).trans htime.le,
    fun n a p file ha hp ↦ hw.kept n a p file ha (hlookup hp)⟩

theorem Site.Current.run {w : Site} (hw : w.Current s) {stop : ℕ}
    (hsel : select (srclist w.tree) (destlist w.dest) = some jobs)
    (hdone : w.Completes s jobs made stop) :
    Site.Current s ⟨stop, w.tree, jobs.foldl (s.pack w.tree made) w.dest⟩ := by
  obtain ⟨hstop, hdistinct, hmade, -⟩ := hdone
  refine ⟨fun p file hp ↦ (hw.tree_le p file hp).trans hstop, fun n a ha ↦ ?_, ?_⟩
  · rcases lookup_pack_eq_some ha with ha | ⟨job, hjob, -, ha⟩
    · exact (hw.dest_le n a ha).trans hstop
    · obtain ⟨members, -, rfl⟩ := Option.map_eq_some_iff.mp ha
      exact (hmade job hjob).2.1
  · intro n a p file ha hp hdeep hn hle
    simp only at ha hp
    rw [lookup_pack_of_mem hsel hdistinct hp hdeep hn] at ha
    -- a path that was not packed has kept its tarball, and the tree has not changed
    split at ha
    · cases hpacked : s.packed w.tree made ⟨p, n, file.type⟩ with
      | none =>
        rw [hpacked, Option.none_or] at ha
        exact hw.kept n a p file ha hp hdeep hn hle
      | some b =>
        rw [hpacked, Option.some_or, Option.some_inj] at ha
        subst ha
        obtain ⟨members, hmembers, rfl⟩ := Option.map_eq_some_iff.mp hpacked
        exact ⟨hp, hmembers⟩
    · exact hw.kept n a p file ha hp hdeep hn hle

theorem Site.Current.step {w w' : Site} {change : Change} (hw : w.Current s)
    (hstep : s.step w change = some w') : w'.Current s := by
  cases change with
  | edit time path type data =>
    rw [Sight.step] at hstep
    split at hstep
    next h =>
      obtain rfl := Option.some.inj hstep
      exact hw.edit h.1
    · exact absurd hstep (by simp)
  | delete time path =>
    rw [Sight.step] at hstep
    split at hstep
    next h =>
      obtain rfl := Option.some.inj hstep
      exact hw.delete h path
    · exact absurd hstep (by simp)
  | run made stop =>
    obtain ⟨jobs, hsel, hstep⟩ := Option.bind_eq_some_iff.mp hstep
    split at hstep
    next hdone =>
      obtain rfl := Option.some.inj hstep
      exact hw.run hsel hdone
    · exact absurd hstep (by simp)

private theorem current_of_run {changes : List Change} {w : Site}
    (hrun : run s.step Site.start changes = some w) : w.Current s := by
  refine run_invariant (I := fun _ w ↦ w.Current s) ?_ (fun _ _ _ _ hw hstep ↦ hw.step hstep) hrun
  refine ⟨fun p file hp ↦ ?_, fun n a ha ↦ ?_, fun n a p file ha ↦ ?_⟩
  · cases hp
  · cases ha
  · cases ha

/-! ## What a tarball depends on -/

/-- The names on the way of the path to tar are read as they stand. -/
def ReadAsIs (p : Bytes) : Prop :=
  unquote (sedContent p) = sedContent p ∧
    (sedContent p = bytes "." ∨ bytes "./" <+: sedContent p)

instance (p : Bytes) : Decidable (ReadAsIs p) := inferInstanceAs (Decidable (_ ∧ (_ ∨ _)))

private theorem exists_sedRoot_append {p n : Bytes} (hn : mapName p = some n) :
    ∃ t, p = sedRoot p ++ t ∧ sedContent p = bytes "." ++ t := by
  obtain ⟨root, pfx, q, hpath, -⟩ := mapName_eq_some_iff.mp hn
  obtain ⟨t, ht, -⟩ := debugRoot_rest_of_debugPath hpath
  obtain ⟨w, -, rfl, -⟩ := Pattern.rest_eq_some ht
  exact ⟨t, by rw [sedRoot_append ht], sedContent_eq ht⟩

private theorem tarCreate_congr {O : Type*} {env env' : PrepareEnv O} {dir name : Bytes}
    (h : env.lstat dir (unquote name) = env'.lstat dir (unquote name))
    (rename : Bytes → Option Bytes) :
    tarCreate env dir rename name = tarCreate env' dir rename name := by
  rw [tarCreate, tarCreate, h]

theorem Sight.Faithful.lstat_eq (hs : s.Faithful) {p n : Bytes} {file : SourceFile}
    (hn : mapName p = some n) (hread : ReadAsIs p) (hp : tree.lookup p = some file)
    (htype : file.type ≠ .other) (hlink : file.type = .l → s.resolves tree p = none) :
    s.lstat tree (s.src ++ bytes "/" ++ sedRoot p) (unquote (sedContent p)) =
      if sedContent p = bytes "." ∧ file.type ≠ .d then none else some file := by
  obtain ⟨t, happend, hcontent⟩ := exists_sedRoot_append hn
  obtain ⟨hunquote, hdot | ⟨r, hr⟩⟩ := hread
  · -- the path is a root to `sed`
    have ht : t = [] := by
      rw [hdot] at hcontent
      exact List.append_right_eq_self.mp hcontent.symm
    rw [ht, List.append_nil] at happend
    rw [hunquote, hdot, ← happend]
    cases hty : file.type with
    | f => exact hs.leaf hp hty
    | d => exact hs.dir hp hty
    | l =>
      apply hs.entered hp hty
      have hnone := hlink hty
      rw [Sight.resolves, ← happend, Option.map_eq_none_iff] at hnone
      exact hnone
    | other => exact absurd hty htype
  · have ht : t = bytes "/" ++ r := by
      rw [← hr] at hcontent
      have happ : bytes "." ++ t = bytes "." ++ (bytes "/" ++ r) := hcontent.symm
      exact List.append_cancel_left happ
    have hne : sedContent p ≠ bytes "." := by
      rw [← hr]
      intro h
      exact absurd (congrArg List.length h) (by simp [bytes])
    rw [if_neg fun h ↦ hne h.1, hunquote, ← hr]
    apply hs.above
    rw [List.append_assoc, ← ht, ← happend]
    exact hp

/-- **What a tarball depends on.** In two trees that have the same file at a path, and in which it
resolves to the same if it is a link, the same is packed. -/
theorem Sight.Faithful.archive_eq (hs : s.Faithful) {p n : Bytes} {file : SourceFile} {tree' : Tree}
    (hn : mapName p = some n) (hread : ReadAsIs p) (hp : tree.lookup p = some file)
    (hp' : tree'.lookup p = some file)
    (hlink : file.type = .l → s.resolves tree p = s.resolves tree' p) :
    (processOne (s.env tree) p n file.type).archive =
      (processOne (s.env tree') p n file.type).archive := by
  have hself : file.type ≠ .other → (file.type = .l → s.resolves tree p = none) →
      tarCreate (s.env tree) (s.src ++ bytes "/" ++ sedRoot p) some (sedContent p) =
        tarCreate (s.env tree') (s.src ++ bytes "/" ++ sedRoot p) some (sedContent p) := by
    intro htype hnone
    refine tarCreate_congr ?_ some
    exact (hs.lstat_eq hn hread hp htype hnone).trans
      (hs.lstat_eq hn hread hp' htype fun h ↦ (hlink h).symm.trans (hnone h)).symm
  cases hty : file.type with
  | f => exact hself (by rw [hty]; simp) (by rw [hty]; simp)
  | d => exact hself (by rw [hty]; simp) (by rw [hty]; simp)
  | other => rfl
  | l =>
    have hsame := hlink hty
    rw [Sight.resolves, Sight.resolves] at hsame
    rw [processOne, processOne]
    simp only [Sight.env]
    cases hreal : s.realpath tree (s.src ++ bytes "/" ++ p) (s.src ++ bytes "/" ++ sedRoot p) with
    | none =>
      rw [hreal, Option.map_none, eq_comm, Option.map_eq_none_iff] at hsame
      rw [hsame]
      refine hself (by rw [hty]; simp) fun _ ↦ ?_
      rw [Sight.resolves, hreal, Option.map_none]
    | some target =>
      rw [hreal, Option.map_some, eq_comm, Option.map_eq_some_iff] at hsame
      obtain ⟨target', hreal', heq⟩ := hsame
      obtain ⟨rfl, hfile⟩ := Prod.mk.inj heq
      rw [hreal']
      exact tarCreate_congr hfile.symm _

/-! ## Incremental and full publishing -/

/-- After its run, a path has a tarball: one just made, or one that is not older than the path,
unless that is a directory. -/
theorem archive_of_run {w : Site} (hw : w.Current s) {stop : ℕ}
    (hsel : select (srclist w.tree) (destlist w.dest) = some jobs)
    (hdone : w.Completes s jobs made stop) {p n : Bytes} {file : SourceFile}
    (hp : w.tree.lookup p = some file) (hdeep : 4 ≤ p.count 47) (hn : mapName p = some n)
    (htype : file.type ≠ .other) :
    ∃ a, (jobs.foldl (s.pack w.tree made) w.dest).lookup n = some a ∧
      (file.type ≠ .d → file.time ≤ a.time) := by
  obtain ⟨-, hdistinct, hmade, -⟩ := hdone
  rw [lookup_pack_of_mem hsel hdistinct hp hdeep hn]
  by_cases hold : ∀ a, w.dest.lookup n = some a → 2 ≤ n.count 47 →
      file.type ≠ .d ∧ a.time < file.time
  · rw [if_pos hold]
    have hjob := (mem_jobs_iff hsel hdistinct hp hdeep hn rfl).mpr ⟨rfl, hold⟩
    obtain ⟨hclock, -, hsome⟩ := hmade _ hjob
    obtain ⟨a, ha⟩ := Option.isSome_iff_exists.mp (hsome htype)
    refine ⟨a, by rw [ha, Option.some_or], fun _ ↦ ?_⟩
    obtain ⟨members, -, rfl⟩ := Option.map_eq_some_iff.mp ha
    exact (hw.tree_le p file hp).trans hclock.le
  · rw [if_neg hold]
    simp only [not_forall, not_and_or, not_not, not_lt] at hold
    obtain ⟨a, ha, -, hkept⟩ := hold
    exact ⟨a, ha, fun hd ↦ hkept.resolve_left hd⟩

/-- **Where incremental publishing equals full publishing.** After every run of a history, every
file, directory and link has a tarball. It is the one that a run on an empty destination would
make, if what it was made of is the same: for a directory, if that was not edited since; for a link,
if it resolves to the same; for a file always. -/
theorem published_eq_rebuilt (hs : s.Faithful) {changes : List Change} {stop : ℕ} {w : Site}
    (hrun : run s.step Site.start (changes ++ [.run made stop]) = some w) {p : Bytes}
    {file : SourceFile} (hp : w.tree.lookup p = some file) (hdeep : 4 ≤ p.count 47)
    (htype : file.type ≠ .other)
    (hread : ReadAsIs p) :
    ∃ n a full, mapName p = some n ∧ w.dest.lookup n = some a ∧ s.rebuild w.tree made = some full ∧
      ((file.type = .d → file.time ≤ a.time) →
        (file.type = .l → s.resolves a.source p = s.resolves w.tree p) →
          (full.lookup n).map Archive.members = some a.members) := by
  have hcurrent := current_of_run hrun
  obtain ⟨w₀, hbefore, hstep⟩ := run_concat_iff.mp hrun
  obtain ⟨jobs, hsel, hstep⟩ := Option.bind_eq_some_iff.mp hstep
  split at hstep
  next hdone =>
    obtain rfl := Option.some.inj hstep
    have hline : (⟨p, file.time, file.type⟩ : Line) ∈ srclist w₀.tree :=
      mem_srclist.mpr ⟨file, hp, hdeep, rfl, rfl⟩
    obtain ⟨st, hst, -⟩ := Option.map_eq_some_iff.mp hsel
    obtain ⟨n, hn⟩ : ∃ n, mapName p = some n := accepted_of_srcRule hst hline
    obtain ⟨a, ha, htime⟩ := archive_of_run (current_of_run hbefore) hsel hdone hp hdeep hn htype
    obtain ⟨full, hfull⟩ : ∃ full, s.rebuild w₀.tree made = some full := by
      rw [Sight.rebuild, select, hst]
      exact ⟨_, rfl⟩
    refine ⟨n, a, full, hn, ha, hfull, fun hdir hlink ↦ ?_⟩
    have hle : file.time ≤ a.time := by
      by_cases hd : file.type = .d
      · exact hdir hd
      · exact htime hd
    -- the tarball was made of this very file, though of an older tree
    obtain ⟨hsource, hmembers⟩ := hcurrent.kept n a p file ha hp hdeep hn hle
    rw [lookup_rebuild hfull hdone.2.1 hp hdeep hn, Sight.packed, Option.map_map, ← hmembers,
      hs.archive_eq hn hread hsource hp hlink]
    exact Option.map_id'
  · exact absurd hstep (by simp)

/-! ## Trees with simple links -/

/-- What is seen of a tree in which a link says the name of a file from its debug root. -/
def flat : Sight where
  src := []
  dest := []
  lstat := fun tree dir name ↦
    if name = bytes "." then (tree.lookup (dir.drop 1)).filter fun file ↦ file.type = .d
    else tree.lookup (dir.drop 1 ++ bytes "/" ++ ((bytes "./").isPrefixOf? name).getD name)
  realpath := fun tree srcloc srcdir ↦ (tree.lookup (srcloc.drop 1)).bind fun file ↦
    if (tree.lookup (srcdir.drop 1 ++ bytes "/" ++ file.data)).isSome then some file.data else none
  chain := fun _ _ ↦ none

theorem flat_faithful : flat.Faithful where
  above := by
    intro tree d r file h
    change (if bytes "./" ++ r = bytes "." then
        (tree.lookup d).filter fun file ↦ file.type = .d
      else tree.lookup (d ++ bytes "/" ++
        ((bytes "./").isPrefixOf? (bytes "./" ++ r)).getD (bytes "./" ++ r))) = some file
    rw [if_neg (fun heq ↦ absurd (congrArg List.length heq) (by simp [bytes])),
      List.isPrefixOf?_eq_some_iff_append_eq.mpr rfl]
    exact h
  dir := by
    intro tree p file h htype
    change (tree.lookup p).filter (fun file ↦ file.type = .d) = some file
    rw [h, Option.filter_some, if_pos (decide_eq_true htype)]
  leaf := by
    intro tree p file h htype
    change (tree.lookup p).filter (fun file ↦ file.type = .d) = none
    rw [h, Option.filter_some, if_neg (by simp [htype])]
  entered := by
    intro tree p file h htype _
    change (tree.lookup p).filter (fun file ↦ file.type = .d) = none
    rw [h, Option.filter_some, if_neg (by simp [htype])]

/-- A file is published, becomes something else, and the script runs again. -/
def publishedTwice (type : FileType) (data : Bytes) : List Change :=
  [.edit 1 (bytes "/usr/lib/debug/x") .f (bytes "old"), .run (fun _ ↦ 2) 2,
    .edit 3 (bytes "/usr/lib/debug/x") type data] ++ [.run (fun _ ↦ 4) 4]

/-- A file that becomes a directory keeps the tarball of the file. -/
theorem newDirectory_not_rebuilt : ∃ w a full,
    run flat.step Site.start (publishedTwice .d []) = some w ∧
      w.tree.lookup (bytes "/usr/lib/debug/x") = some ⟨.d, 3, []⟩ ∧
      w.dest.lookup (bytes "/lib/x") = some a ∧
      flat.rebuild w.tree (fun _ ↦ 4) = some full ∧
      a.members = [(bytes "./x", ⟨.f, 1, bytes "old"⟩)] ∧
      (full.lookup (bytes "/lib/x")).map Archive.members = some [(bytes "./x", ⟨.d, 3, []⟩)] := by
  have htree : ((run flat.step Site.start (publishedTwice .d [])).map fun w ↦
      w.tree.lookup (bytes "/usr/lib/debug/x")) = some (some ⟨.d, 3, []⟩) := by
    decide +kernel
  have hold : ((run flat.step Site.start (publishedTwice .d [])).map fun w ↦
      (w.dest.lookup (bytes "/lib/x")).map Archive.members) =
      some (some [(bytes "./x", ⟨.f, 1, bytes "old"⟩)]) := by
    decide +kernel
  have hnew : ((run flat.step Site.start (publishedTwice .d [])).bind fun w ↦
      flat.rebuild w.tree fun _ ↦ 4).map (fun full ↦
        (full.lookup (bytes "/lib/x")).map Archive.members) =
      some (some [(bytes "./x", ⟨.d, 3, []⟩)]) := by
    decide +kernel
  obtain ⟨w, hw, htree⟩ := Option.map_eq_some_iff.mp htree
  rw [hw, Option.map_some, Option.some_inj] at hold
  rw [hw, Option.bind_some] at hnew
  obtain ⟨a, ha, hmembers⟩ := Option.map_eq_some_iff.mp hold
  obtain ⟨full, hfull, hlookup⟩ := Option.map_eq_some_iff.mp hnew
  exact ⟨w, a, full, hw, htree, ha, hfull, hmembers, hlookup⟩

-- the file that a link resolves to is written again
example : ((run flat.step Site.start
    [.edit 1 (bytes "/usr/lib/debug/a") .l (bytes "b"),
      .edit 2 (bytes "/usr/lib/debug/b") .f (bytes "old"), .run (fun _ ↦ 3) 3,
      .edit 4 (bytes "/usr/lib/debug/b") .f (bytes "new"), .run (fun _ ↦ 5) 5]).map fun w ↦
    (w.dest.lookup (bytes "/lib/a")).map Archive.members) =
      some (some [(bytes "./a", ⟨.f, 2, bytes "old"⟩)]) := by
  decide +kernel

-- tar reads an escape as the name of another file, and that is written again
example : ((run flat.step Site.start
    [.edit 1 (bytes "/usr/lib/debug/\\101") .f (bytes "escape"),
      .edit 2 (bytes "/usr/lib/debug/A") .f (bytes "old"), .run (fun _ ↦ 3) 3,
      .edit 4 (bytes "/usr/lib/debug/A") .f (bytes "new"), .run (fun _ ↦ 5) 5]).map fun w ↦
    (w.dest.lookup (bytes "/lib/\\101")).map Archive.members) =
      some (some [(bytes "./A", ⟨.f, 2, bytes "old"⟩)]) := by
  decide +kernel

/-- A file that is written again gets its tarball made again. -/
theorem published_eq_rebuilt_rewritten : ∃ w a full,
    run flat.step Site.start (publishedTwice .f (bytes "new")) = some w ∧
      w.tree.lookup (bytes "/usr/lib/debug/x") = some ⟨.f, 3, bytes "new"⟩ ∧
      w.dest.lookup (bytes "/lib/x") = some a ∧
      flat.rebuild w.tree (fun _ ↦ 4) = some full ∧
      (full.lookup (bytes "/lib/x")).map Archive.members = some a.members := by
  have hrun : ((run flat.step Site.start (publishedTwice .f (bytes "new"))).map fun w ↦
      w.tree.lookup (bytes "/usr/lib/debug/x")) = some (some ⟨.f, 3, bytes "new"⟩) := by
    decide +kernel
  obtain ⟨w, hw, htree⟩ := Option.map_eq_some_iff.mp hrun
  obtain ⟨n, a, full, hn, ha, hfull, heq⟩ := published_eq_rebuilt flat_faithful hw htree
    (by decide) (by simp) (by decide)
  obtain rfl : bytes "/lib/x" = n := Option.some.inj hn
  exact ⟨w, a, full, hw, htree, ha, hfull, heq (by simp) (by simp)⟩

end ClrDebugInfo
