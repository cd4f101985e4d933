import ClrDebugInfo.Library.Owners
import ClrDebugInfo.Library.Runs
import ClrDebugInfo.Nica.Files
import ClrDebugInfo.Nica.Mkdir
import ClrDebugInfo.Server.Fetch

/-!
# The directories that the daemon and the mount share

Both programs begin with a loop over `required_paths`. The daemon removes what does not belong to
its account, makes what is missing and takes it over with `chown`; the FUSE program only makes what
is missing. It then forks, and each of the two processes opens its directory once and for all:
`xmp_init` makes it the working directory. The daemon goes by name, whenever it extracts an archive.

So a mount shows what the daemon extracts as long as the directory that it has opened is the one of
that name. The two programs run as root here, and in any order: the daemon is started when a client
connects first, which may be between the two calls of `open`, and it is started again after every
`TIMEOUT`.

A step is one call of a function of libc or of `nica/files.c`. There is one daemon at a time, and
any number of FUSE programs.
-/

namespace ClrDebugInfo.Directories

open FileTree Runs

/-! ## The programs -/

/-- `required_paths`, of either program. -/
def requiredPaths : List Bytes := [cacheDir ++ bytes "/lib", cacheDir ++ bytes "/src"]

/-- What the system makes of a call. -/
structure Answer where
  /-- The directories that `mkdir` refuses to make. -/
  refuse : Fs → Path → Option ℕ
  /-- What `errno` is before. -/
  errno : MkdirError
  /-- The user whose new directories are. -/
  euid : ℕ
  /-- Whether another call fails. -/
  fails : Bool

/-- The call in the loop of the daemon that comes next. -/
inductive Stage
  | lstat
  | rmRf
  | mkdirP
  | chown
  deriving DecidableEq

/-- `main` of the daemon. -/
inductive Daemon
  | off
  /-- In the loop, or after it, with these paths to go. -/
  | starting (todo : List Bytes) (stage : Stage)
  | serving
  deriving DecidableEq

/-- A call of `main` of the daemon, which runs as `dbg_user`. -/
def daemonStep (dbgUser : ℕ) (ans : Answer) (v : Volume) : Daemon → Option (Volume × Daemon)
  | .off => some (v, .starting requiredPaths .lstat)
  -- the socket is made and the rights of root are given up, or `main` exits
  | .starting [] _ => some (v, if ans.fails then .off else .serving)
  | .starting (path :: todo) .lstat =>
    match v.lstat path with
    | none => some (v, .starting (path :: todo) .mkdirP)
    | some st =>
      if st.uid = dbgUser then some (v, .starting todo .lstat)
      else some (v, .starting (path :: todo) .rmRf)
  | .starting (path :: todo) .rmRf =>
    -- the result is not looked at
    (ncRmRf v.fs (components path)).map fun r ↦
      (v.left ans.euid r.2, .starting (path :: todo) .mkdirP)
  | .starting (path :: todo) .mkdirP =>
    let (made, s) := ncMkdirP ans.refuse [] path ⟨v.fs, ans.errno⟩
    some (v.left ans.euid s.fs, if made then .starting (path :: todo) .chown else .off)
  | .starting (path :: todo) .chown =>
    match if ans.fails then none else v.chown path dbgUser with
    | some v => some (v, .starting todo .lstat)
    | none => some (v, .off)
  | .serving => none

/-- The two processes of a FUSE program: the parent, and the child of `fork`. -/
inductive Side
  | parent
  | child
  deriving DecidableEq

/-- `shadowdir` -/
def Side.shadowdir : Side → Bytes
  | .parent => cacheDir ++ bytes "/src"
  | .child => cacheDir ++ bytes "/lib"

/-- A process after the `fork`. -/
inductive Proc
  | missing
  | opening
  /-- With `save_dir`, if it could be opened: the inode, and what it is. -/
  | opened (saveDir : Option (ℕ × Object))
  /-- In its working directory, which is that of its start if it is not given. -/
  | mounted (dir : Option ℕ)
  deriving DecidableEq

/-- What `fchdir` of `xmp_init` comes to. Its result is not looked at. -/
def xmpInit : Option (ℕ × Object) → Option ℕ
  | some (ino, .directory) => some ino
  | _ => none

def procStep (side : Side) (ans : Answer) (v : Volume) : Proc → Option Proc
  | .opening => some (.opened (if ans.fails then none else v.openRead side.shadowdir))
  | .opened saveDir => some (.mounted (xmpInit saveDir))
  | _ => none

/-- `main` of the FUSE program. -/
inductive FuseMain
  /-- At `nc_file_exists`, with these paths to go. -/
  | checking (todo : List Bytes)
  /-- At `nc_mkdir_p`. -/
  | making (path : Bytes) (todo : List Bytes)
  | forked (procs : Side → Proc)
  | exited

/-- `nc_file_exists` -/
def ncFileExists (v : Volume) (path : Bytes) : Bool := (v.lstat path).isSome

def fuseStep (ans : Answer) (v : Volume) : FuseMain → Option (Volume × FuseMain)
  | .checking [] => some (v, .forked fun side ↦
      if side = .child ∧ ans.fails = true then .missing else .opening)
  | .checking (path :: todo) =>
    some (v, if ncFileExists v path then .checking todo else .making path todo)
  | .making path todo =>
    let (made, s) := ncMkdirP ans.refuse [] path ⟨v.fs, ans.errno⟩
    some (v.left ans.euid s.fs, if made then .checking todo else .exited)
  | _ => none

/-- The system, with FUSE programs `ι`. -/
structure System (ι : Type*) where
  volume : Volume
  daemon : Daemon
  fuse : ι → FuseMain

inductive SystemAct (ι : Type*)
  | daemon (ans : Answer)
  /-- The daemon exits, or is killed. -/
  | exit
  | fuse (m : ι) (ans : Answer)
  | proc (m : ι) (side : Side) (ans : Answer)
  /-- Anything that other programs do, and what the daemon does while it serves. -/
  | outside (v : Volume)

variable {ι : Type*} {dbgUser : ℕ}

def systemStep [DecidableEq ι] (dbgUser : ℕ) (s : System ι) : SystemAct ι → Option (System ι)
  | .daemon ans => (daemonStep dbgUser ans s.volume s.daemon).map fun r ↦
      { s with volume := r.1, daemon := r.2 }
  | .exit => some { s with daemon := .off }
  | .fuse m ans => (fuseStep ans s.volume (s.fuse m)).map fun r ↦
      { s with volume := r.1, fuse := Function.update s.fuse m r.2 }
  | .proc m side ans =>
    match s.fuse m with
    | .forked procs => (procStep side ans s.volume (procs side)).map fun p ↦
        { s with fuse := Function.update s.fuse m (.forked (Function.update procs side p)) }
    | _ => none
  | .outside v => some { s with volume := v }

/-- A process of a FUSE program. -/
def System.proc (s : System ι) (m : ι) (side : Side) : Proc :=
  match s.fuse m with
  | .forked procs => procs side
  | _ => .missing

/-! ## The calls of `nica/files.c` -/

/-- What was there is there, and what is new is a directory. -/
structure Grows (fs fs' : Fs) : Prop where
  sub : Fs.Sub fs fs'
  new : ∀ p o, fs'.lookup p = some o → fs.lookup p = some o ∨ o = .directory

section Files

variable {fs fs' : Fs}

theorem Grows.refl (fs : Fs) : Grows fs fs := ⟨Fs.Sub.refl fs, fun _ _ ↦ .inl⟩

theorem Grows.trans {fs'' : Fs} (h : Grows fs fs') (h' : Grows fs' fs'') : Grows fs fs'' :=
  ⟨h.sub.trans h'.sub, fun p o ho ↦ (h'.new p o ho).elim (h.new p o) .inr⟩

private theorem grows_insert (fs : Fs) (d : Path) (n : Name) :
    Grows fs (fs.insert d n .directory) := by
  refine ⟨Fs.sub_insert fs d n .directory, fun p o ho ↦ ?_⟩
  by_cases hfree : fs.Free d n
  · rw [Fs.lookup_insert hfree] at ho
    split_ifs at ho
    · exact .inr (Option.some.inj ho).symm
    · exact .inl ho
  · rw [Fs.insert_of_not_free hfree] at ho
    exact .inl ho

private theorem grows_mkdir {refuse : Fs → Path → Option ℕ} {cwd : Path} {path : Bytes}
    (h : fs.mkdir refuse cwd path = .ok fs') : Grows fs fs' := by
  unfold Fs.mkdir at h
  split_ifs at h
  split at h
  · exact absurd h (by simp)
  · split at h
    · exact absurd h (by simp)
    · split_ifs at h
      split at h
      · exact absurd h (by simp)
      · obtain rfl := Except.ok.inj h
        exact grows_insert _ _ _

private theorem grows_ncMkdirP (refuse : Fs → Path → Option ℕ) (cwd : Path) (path : Bytes)
    (s : MkdirState) : Grows s.fs (ncMkdirP refuse cwd path s).2.fs := by
  induction path using dirname_induction with
  | htop path htop =>
    rw [ncMkdirP, if_pos htop]
    exact Grows.refl s.fs
  | hstep path htop ih =>
    obtain ⟨made, s₁, hrec, heq⟩ := ncMkdirP_step htop refuse cwd s
    rw [hrec] at ih
    rw [heq]
    cases made with
    | false => exact ih
    | true =>
      rw [if_pos rfl]
      cases hmkdir : s₁.fs.mkdir refuse cwd path with
      | ok fs => exact ih.trans (grows_mkdir hmkdir)
      | error e => exact ih

private theorem sub_ncRmRf {path : Path} {r : Bool × Fs} (h : ncRmRf fs path = some r) :
    Fs.Sub r.2 fs := by
  obtain ⟨k, fs', hnftw, hsub⟩ := nftw_total rmRf_local fs path
  rw [ncRmRf, hnftw, Option.map_some] at h
  obtain rfl := Option.some.inj h
  exact hsub

private theorem trimSlashes_concat (p : Path) {n : Name} (hn : n ≠ []) :
    trimSlashes (p ++ [n]) = p ++ [n] := by
  rw [trimSlashes, List.rdropWhile_concat_neg _ _ _ (by simpa using hn)]

private theorem ncRmRf_true {p : Path} {n : Name} (hdir : fs.lookup (p ++ [n]) = some .directory)
    (hn : n ≠ []) (h : ncRmRf fs (p ++ [n]) = some (true, fs')) : fs' = fs.remove (p ++ [n]) := by
  obtain ⟨seen, hvisit⟩ := ncRmRf_eq_true_iff.mp h
  rw [trimSlashes_concat p hn] at hvisit
  have hp : fs.stat p = .ok p := Fs.stat_of_directory (Fs.lookup_parent hdir)
  rcases visit_zero (s := ⟨fs, []⟩) hdir hp (fresh_start fs _) hvisit with hall | ⟨-, h⟩
  · have hclear : (fs.clear (p ++ [n])).stat p = .ok p :=
      Fs.stat_of_directory (Fs.lookup_parent ((Fs.lookup_clear_self fs _).trans hdir))
    obtain ⟨seen', hremoves, -⟩ :=
      visit_removes (s := ⟨fs, []⟩) hdir hclear (fresh_start fs _) hall
    have heq := Option.some.inj (hvisit.symm.trans hremoves)
    exact congrArg (fun r ↦ r.2.fs) heq
  · exact absurd rfl h

end Files

/-! ## The directories in a step -/

/-- Other programs leave the entries of the required paths alone, and the way to them. -/
def LeftAlone (s : System ι) : SystemAct ι → Prop
  | .outside v => s.volume.unused ≤ v.unused ∧ v.fs.Plain (components cacheDir) ∧
      ∀ path ∈ requiredPaths, v.lstat path = s.volume.lstat path
  | _ => True

/-- A removal takes none of the other directories away. -/
def Contained (s : System ι) : SystemAct ι → Prop
  | .daemon ans => ∀ path todo r, s.daemon = .starting (path :: todo) .rmRf →
      ncRmRf s.volume.fs (components path) = some r → ∀ other ∈ requiredPaths, other ≠ path →
        (s.volume.left ans.euid r.2).lstat other = s.volume.lstat other
  | _ => True

/-- `nc_rm_rf` is true, which `main` does not ask. -/
def Removes (s : System ι) : SystemAct ι → Prop
  | .daemon _ => ∀ path todo r, s.daemon = .starting (path :: todo) .rmRf →
      ncRmRf s.volume.fs (components path) = some r → r.1 = true
  | _ => True

/-- What a step does to the volume and to the daemon. -/
inductive SystemStep (dbgUser : ℕ) (s : System ι) : SystemAct ι → Volume → Daemon → Prop
  | start {ans} (h : s.daemon = .off) :
    SystemStep dbgUser s (.daemon ans) s.volume (.starting requiredPaths .lstat)
  | ready {ans stage d} (h : s.daemon = .starting [] stage) (hd : d = .off ∨ d = .serving) :
    SystemStep dbgUser s (.daemon ans) s.volume d
  | absent {ans path todo} (h : s.daemon = .starting (path :: todo) .lstat)
    (hnone : s.volume.lstat path = none) :
    SystemStep dbgUser s (.daemon ans) s.volume (.starting (path :: todo) .mkdirP)
  | settled {ans path todo st} (h : s.daemon = .starting (path :: todo) .lstat)
    (hst : s.volume.lstat path = some st) (huid : st.uid = dbgUser) :
    SystemStep dbgUser s (.daemon ans) s.volume (.starting todo .lstat)
  | alien {ans path todo st} (h : s.daemon = .starting (path :: todo) .lstat)
    (hst : s.volume.lstat path = some st) (huid : st.uid ≠ dbgUser) :
    SystemStep dbgUser s (.daemon ans) s.volume (.starting (path :: todo) .rmRf)
  | rmRf {ans path todo r} (h : s.daemon = .starting (path :: todo) .rmRf)
    (hr : ncRmRf s.volume.fs (components path) = some r) :
    SystemStep dbgUser s (.daemon ans) (s.volume.left ans.euid r.2)
      (.starting (path :: todo) .mkdirP)
  | mkdirP {ans path todo fs d} (h : s.daemon = .starting (path :: todo) .mkdirP)
    (hfs : Grows s.volume.fs fs) (hd : d = .starting (path :: todo) .chown ∨ d = .off) :
    SystemStep dbgUser s (.daemon ans) (s.volume.left ans.euid fs) d
  | chown {ans path todo v} (h : s.daemon = .starting (path :: todo) .chown)
    (hv : s.volume.chown path dbgUser = some v) :
    SystemStep dbgUser s (.daemon ans) v (.starting todo .lstat)
  | refused {ans path todo} (h : s.daemon = .starting (path :: todo) .chown) :
    SystemStep dbgUser s (.daemon ans) s.volume .off
  | exit : SystemStep dbgUser s .exit s.volume .off
  | fuse {m ans fs} (hfs : Grows s.volume.fs fs) :
    SystemStep dbgUser s (.fuse m ans) (s.volume.left ans.euid fs) s.daemon
  | idle {a} : SystemStep dbgUser s a s.volume s.daemon
  | outside {v} : SystemStep dbgUser s (.outside v) v s.daemon

variable {s s' : System ι} {a : SystemAct ι} {path : Bytes} {v : Volume} {d : Daemon}

theorem systemStep_cases [DecidableEq ι] (h : systemStep dbgUser s a = some s') :
    SystemStep dbgUser s a s'.volume s'.daemon := by
  cases a with
  | daemon ans =>
    obtain ⟨⟨v, d⟩, hd, rfl⟩ := Option.map_eq_some_iff.mp h
    generalize hdaemon : s.daemon = d₀ at hd
    unfold daemonStep at hd
    split at hd
    · obtain ⟨rfl, rfl⟩ := Prod.mk.inj (Option.some.inj hd)
      exact .start hdaemon
    · obtain ⟨rfl, rfl⟩ := Prod.mk.inj (Option.some.inj hd)
      refine .ready hdaemon ?_
      split_ifs
      · exact .inl rfl
      · exact .inr rfl
    · split at hd
      next hnone =>
        obtain ⟨rfl, rfl⟩ := Prod.mk.inj (Option.some.inj hd)
        exact .absent hdaemon hnone
      next hst =>
        split_ifs at hd with huid
        · obtain ⟨rfl, rfl⟩ := Prod.mk.inj (Option.some.inj hd)
          exact .settled hdaemon hst huid
        · obtain ⟨rfl, rfl⟩ := Prod.mk.inj (Option.some.inj hd)
          exact .alien hdaemon hst huid
    · obtain ⟨r, hr, heq⟩ := Option.map_eq_some_iff.mp hd
      obtain ⟨rfl, rfl⟩ := Prod.mk.inj heq
      exact .rmRf hdaemon hr
    next path todo =>
      obtain ⟨rfl, rfl⟩ := Prod.mk.inj (Option.some.inj hd)
      refine .mkdirP hdaemon (grows_ncMkdirP _ _ _ ⟨s.volume.fs, ans.errno⟩) ?_
      split_ifs
      · exact .inl rfl
      · exact .inr rfl
    · split at hd
      next v' hv =>
        obtain ⟨rfl, rfl⟩ := Prod.mk.inj (Option.some.inj hd)
        split_ifs at hv
        exact .chown hdaemon hv
      · obtain ⟨rfl, rfl⟩ := Prod.mk.inj (Option.some.inj hd)
        exact .refused hdaemon
    · exact absurd hd (by simp)
  | exit =>
    obtain rfl := Option.some.inj h
    exact .exit
  | fuse m ans =>
    obtain ⟨⟨v, p⟩, hp, rfl⟩ := Option.map_eq_some_iff.mp h
    unfold fuseStep at hp
    split at hp
    · obtain ⟨rfl, -⟩ := Prod.mk.inj (Option.some.inj hp)
      exact .idle
    · obtain ⟨rfl, -⟩ := Prod.mk.inj (Option.some.inj hp)
      exact .idle
    · obtain ⟨rfl, -⟩ := Prod.mk.inj (Option.some.inj hp)
      exact .fuse (grows_ncMkdirP _ _ _ ⟨s.volume.fs, ans.errno⟩)
    · exact absurd hp (by simp)
  | proc m side ans =>
    rw [systemStep] at h
    split at h
    · obtain ⟨p, -, rfl⟩ := Option.map_eq_some_iff.mp h
      exact .idle
    · exact absurd h (by simp)
  | outside v =>
    obtain rfl := Option.some.inj h
    exact .outside

/-! ## One required path -/

private theorem exists_components (hpath : path ∈ requiredPaths) : ∃ n,
    components path = components cacheDir ++ [n] ∧ path ≠ [] ∧
      ∀ m ∈ components cacheDir ++ [n], ValidName m := by
  have hall : ∀ path ∈ requiredPaths, ∃ n ∈ [bytes "lib", bytes "src"],
      components path = components cacheDir ++ [n] ∧ path ≠ [] ∧
        ∀ m ∈ components cacheDir ++ [n], ValidName m := by decide
  obtain ⟨n, -, h⟩ := hall path hpath
  exact ⟨n, h⟩

private theorem components_inj : ∀ path ∈ requiredPaths, ∀ other ∈ requiredPaths,
    components path = components other → path = other := by decide

/-- What holds of the system as long as other programs leave the way alone. -/
structure Valid (s : System ι) : Prop where
  way : s.volume.fs.Plain (components cacheDir)
  todo : ∀ todo stage, s.daemon = .starting todo stage → ∀ path ∈ todo, path ∈ requiredPaths

private theorem lstat_required {v : Volume} (hway : v.fs.Plain (components cacheDir))
    (hpath : path ∈ requiredPaths) : v.lstat path = (v.fs.lookup (components path)).map fun o ↦
      ⟨v.ino (components path), v.uid (components path), o⟩ := by
  obtain ⟨n, hn, -, hvalid⟩ := exists_components hpath
  rw [Volume.lstat_of_plain hway hvalid hn, hn]

theorem lstat_left {v : Volume} {fs : Fs} {maker : ℕ} (hway : fs.Plain (components cacheDir))
    (hpath : path ∈ requiredPaths) : (v.left maker fs).lstat path =
    (fs.lookup (components path)).map fun o ↦
      if v.fs.lookup (components path) = none then
        ⟨v.unused + (fs.objects.map Prod.fst).idxOf (components path), maker, o⟩
      else ⟨v.ino (components path), v.uid (components path), o⟩ := by
  obtain ⟨n, hn, -, hvalid⟩ := exists_components hpath
  rw [Volume.lstat_left hway hvalid hn, hn]

/-- How the entry of a required path can change in a step. -/
inductive EntryStep (dbgUser : ℕ) (s : System ι) (path : Bytes) : Option Lstat → Prop
  | same : EntryStep dbgUser s path (s.volume.lstat path)
  | removed {todo} (h : s.daemon = .starting (path :: todo) .rmRf) : EntryStep dbgUser s path none
  | made {st} (hnone : s.volume.lstat path = none) (hino : s.volume.unused ≤ st.ino)
    (hdir : st.object = .directory) : EntryStep dbgUser s path (some st)
  | owned {st st' target todo} (h : s.volume.lstat path = some st)
    (hd : s.daemon = .starting (target :: todo) .chown)
    (hst' : s.volume.lstat target = some st')
    (htarget : (∀ link, st'.object ≠ .link link) → target = path) :
    EntryStep dbgUser s path (some { st with uid := dbgUser })

theorem Valid.entry_grows (hs : Valid s) (hpath : path ∈ requiredPaths) {fs : Fs} {maker : ℕ}
    (hfs : Grows s.volume.fs fs) :
    EntryStep dbgUser s path ((s.volume.left maker fs).lstat path) := by
  rw [lstat_left (hs.way.mono hfs.new) hpath]
  cases ho : s.volume.fs.lookup (components path) with
  | some o =>
    rw [hfs.sub _ _ ho, Option.map_some, if_neg (by simp)]
    have hsame : EntryStep dbgUser s path (s.volume.lstat path) := .same
    rwa [lstat_required hs.way hpath, ho, Option.map_some] at hsame
  | none =>
    have hnone : s.volume.lstat path = none := by rw [lstat_required hs.way hpath, ho]; rfl
    cases ho' : fs.lookup (components path) with
    | none =>
      rw [Option.map_none, ← hnone]
      exact .same
    | some o =>
      rw [Option.map_some, if_pos rfl]
      refine .made hnone (Nat.le_add_right _ _) ?_
      exact (hfs.new _ _ ho').resolve_left (by rw [ho]; simp)

theorem Valid.entry_rmRf (hs : Valid s) (hpath : path ∈ requiredPaths) {todo : List Bytes}
    {r : Bool × Fs} {maker : ℕ} (h : s.daemon = .starting (path :: todo) .rmRf)
    (hr : ncRmRf s.volume.fs (components path) = some r) :
    EntryStep dbgUser s path ((s.volume.left maker r.2).lstat path) := by
  have hsub := sub_ncRmRf hr
  rw [lstat_left (hs.way.mono fun q o ho ↦ .inl (hsub q o ho)) hpath]
  cases ho : r.2.lookup (components path) with
  | none => exact .removed h
  | some o =>
    rw [Option.map_some, if_neg (by rw [hsub _ _ ho]; simp)]
    have hsame : EntryStep dbgUser s path (s.volume.lstat path) := .same
    rwa [lstat_required hs.way hpath, hsub _ _ ho, Option.map_some] at hsame

theorem Valid.entry_chown (hs : Valid s) (hpath : path ∈ requiredPaths) {target : Bytes}
    {todo : List Bytes} {v : Volume} (h : s.daemon = .starting (target :: todo) .chown)
    (hv : s.volume.chown target dbgUser = some v) : EntryStep dbgUser s path (v.lstat path) := by
  obtain ⟨n, hn, -, hvalid⟩ := exists_components hpath
  have htarget := hs.todo _ _ h target List.mem_cons_self
  obtain ⟨n', hn', -, hvalid'⟩ := exists_components htarget
  rcases Volume.lstat_chown hs.way hvalid hn hv with hsame | ⟨st, hst, hst', hresolve⟩
  · rw [hsame]
    exact .same
  · rw [hst']
    obtain ⟨o, ho, hplace⟩ := Fs.resolve_of_plain hs.way hn' hvalid' hresolve
    have hlstat := lstat_required hs.way htarget
    rw [hn', ho, Option.map_some] at hlstat
    refine .owned hst h hlstat fun hlink ↦ ?_
    refine components_inj target htarget path hpath ?_
    rw [hn', ← hplace hlink, hn]

/-- **One step, for one required path.** -/
theorem Valid.entryStep (hs : Valid s) (hpath : path ∈ requiredPaths) (ha : LeftAlone s a)
    (hc : Contained s a) (h : SystemStep dbgUser s a v d) :
    EntryStep dbgUser s path (v.lstat path) := by
  cases h with
  | @rmRf ans target todo r hd hr =>
    by_cases heq : path = target
    · obtain rfl := heq
      exact hs.entry_rmRf hpath hd hr
    · rw [hc target todo r hd hr path hpath heq]
      exact .same
  | mkdirP hd hfs hto => exact hs.entry_grows hpath hfs
  | chown hd hv => exact hs.entry_chown hpath hd hv
  | fuse hfs => exact hs.entry_grows hpath hfs
  | outside =>
    rw [ha.2.2 path hpath]
    exact .same
  | _ => exact .same

theorem SystemStep.unused_le (ha : LeftAlone s a) (h : SystemStep dbgUser s a v d) :
    s.volume.unused ≤ v.unused := by
  cases h with
  | rmRf hd hr => exact Volume.unused_le_left _ _ _
  | mkdirP hd hfs hto => exact Volume.unused_le_left _ _ _
  | fuse hfs => exact Volume.unused_le_left _ _ _
  | outside => exact ha.1
  | @chown ans target todo v hd hv =>
    obtain ⟨q, -, rfl⟩ := Volume.chown_eq_some hv
    exact Nat.le_refl _
  | _ => exact Nat.le_refl _

theorem SystemStep.way (hs : Valid s) (ha : LeftAlone s a) (h : SystemStep dbgUser s a v d) :
    v.fs.Plain (components cacheDir) := by
  cases h with
  | rmRf hd hr =>
    have hsub := sub_ncRmRf hr
    exact hs.way.mono fun q o ho ↦ .inl (hsub q o ho)
  | mkdirP hd hfs hto => exact hs.way.mono hfs.new
  | fuse hfs => exact hs.way.mono hfs.new
  | outside => exact ha.2.1
  | @chown ans target todo v hd hv =>
    obtain ⟨q, -, rfl⟩ := Volume.chown_eq_some hv
    exact hs.way
  | _ => exact hs.way

theorem SystemStep.todo (hs : Valid s) (h : SystemStep dbgUser s a v d) {todo : List Bytes}
    {stage : Stage} (hd : d = .starting todo stage) : ∀ path ∈ todo, path ∈ requiredPaths := by
  cases h with
  | start h =>
    obtain ⟨rfl, -⟩ := Daemon.starting.inj hd
    exact fun path hpath ↦ hpath
  | ready h hto =>
    rcases hto with rfl | rfl
    · exact absurd hd (by simp)
    · exact absurd hd (by simp)
  | mkdirP h hfs hto =>
    rcases hto with rfl | rfl
    · obtain ⟨rfl, -⟩ := Daemon.starting.inj hd
      exact hs.todo _ _ h
    · exact absurd hd (by simp)
  | absent h | alien h | rmRf h =>
    obtain ⟨rfl, -⟩ := Daemon.starting.inj hd
    exact hs.todo _ _ h
  | settled h | chown h =>
    obtain ⟨rfl, -⟩ := Daemon.starting.inj hd
    exact fun path hpath ↦ hs.todo _ _ h path (List.mem_cons_of_mem _ hpath)
  | refused | exit => exact absurd hd (by simp)
  | fuse | idle | outside => exact hs.todo _ _ hd

theorem Valid.step [DecidableEq ι] (hs : Valid s) (ha : LeftAlone s a)
    (h : systemStep dbgUser s a = some s') : Valid s' :=
  ⟨(systemStep_cases h).way hs ha, fun _ _ hd ↦ (systemStep_cases h).todo hs hd⟩

/-! ## Past the loop -/

/-- The loop of the daemon has come past a path. -/
def Daemon.Past (path : Bytes) : Daemon → Prop
  | .off => False
  | .starting todo _ => path ∉ todo
  | .serving => True

/-- What the loop leaves: an entry of `dbg_user`, or a link. -/
def InOrder (dbgUser : ℕ) (v : Volume) (path : Bytes) : Prop :=
  ∃ st, v.lstat path = some st ∧ ((∃ link, st.object = .link link) ∨ st.uid = dbgUser)

/-- The invariant of the loop. -/
structure Begun (dbgUser : ℕ) (s : System ι) : Prop extends Valid s where
  past : ∀ path ∈ requiredPaths, s.daemon.Past path → InOrder dbgUser s.volume path

private theorem begun_of_off (hoff : s.daemon = .off)
    (hway : s.volume.fs.Plain (components cacheDir)) : Begun dbgUser s := by
  refine ⟨⟨hway, fun todo stage hd ↦ ?_⟩, fun path _ hpast ↦ ?_⟩
  · exact absurd (hoff.symm.trans hd) (by simp)
  · rw [hoff] at hpast
    exact hpast.elim

theorem Valid.inOrder_of_chown (hs : Valid s) (hpath : path ∈ requiredPaths)
    (hv : s.volume.chown path dbgUser = some v) : InOrder dbgUser v path := by
  obtain ⟨n, hn, -, hvalid⟩ := exists_components hpath
  obtain ⟨q, hresolve, rfl⟩ := Volume.chown_eq_some hv
  obtain ⟨o, ho, hplace⟩ := Fs.resolve_of_plain hs.way hn hvalid hresolve
  have hlstat := lstat_required (v := { s.volume with
    uid := Function.update s.volume.uid q dbgUser }) hs.way hpath
  rw [hn, ho, Option.map_some] at hlstat
  refine ⟨_, hlstat, ?_⟩
  by_cases hlink : ∃ link, o = .link link
  · exact .inl hlink
  · right
    obtain rfl := hplace (not_exists.mp hlink)
    exact Function.update_self _ _ _

theorem InOrder.step (h : InOrder dbgUser s.volume path)
    (hstage : ∀ todo, s.daemon ≠ .starting (path :: todo) .rmRf)
    (he : EntryStep dbgUser s path (v.lstat path)) : InOrder dbgUser v path := by
  obtain ⟨st, hst, hor⟩ := h
  rw [InOrder]
  generalize v.lstat path = e at he
  cases he with
  | same => exact ⟨st, hst, hor⟩
  | removed hd => exact absurd hd (hstage _)
  | made hnone => exact absurd (hnone.symm.trans hst) (by simp)
  | owned => exact ⟨_, rfl, .inr rfl⟩

theorem Begun.past_step (hs : Begun dbgUser s) (hpath : path ∈ requiredPaths)
    (he : EntryStep dbgUser s path (v.lstat path)) (h : SystemStep dbgUser s a v d)
    (hpast : d.Past path) : InOrder dbgUser v path := by
  by_cases hold : s.daemon.Past path
  · refine (hs.past path hpath hold).step (fun todo hd ↦ ?_) he
    rw [hd] at hold
    exact hold List.mem_cons_self
  -- the step that comes past the path
  · cases h with
    | start => exact absurd hpath hpast
    | ready hd =>
      rw [hd] at hold
      exact absurd List.not_mem_nil hold
    | @settled ans target todo st hd hst huid =>
      rw [hd] at hold
      obtain rfl : path = target :=
        (List.mem_cons.mp (not_not.mp hold)).resolve_right hpast
      exact ⟨st, hst, .inr huid⟩
    | @chown ans target todo v hd hv =>
      rw [hd] at hold
      obtain rfl : path = target :=
        (List.mem_cons.mp (not_not.mp hold)).resolve_right hpast
      exact hs.inOrder_of_chown hpath hv
    | mkdirP hd hfs hto =>
      rcases hto with rfl | rfl
      · rw [hd] at hold
        exact absurd hpast hold
      · exact hpast.elim
    | absent hd | alien hd | rmRf hd =>
      rw [hd] at hold
      exact absurd hpast hold
    | refused | exit => exact hpast.elim
    | fuse | idle | outside => exact absurd hpast hold

theorem Begun.step [DecidableEq ι] (hs : Begun dbgUser s) (ha : LeftAlone s a) (hc : Contained s a)
    (h : systemStep dbgUser s a = some s') : Begun dbgUser s' :=
  ⟨hs.toValid.step ha h, fun _ hpath hpast ↦
    hs.past_step hpath (hs.entryStep hpath ha hc (systemStep_cases h)) (systemStep_cases h) hpast⟩

/-! ## Entries that are kept -/

/-- The entry of a path is this one, and the daemon does not come to change it. -/
structure Kept (path : Bytes) (st : Lstat) (v : Volume) (d : Daemon) : Prop where
  entry : v.lstat path = some st
  stage : ∀ todo stage, d = .starting (path :: todo) stage → stage = .lstat

theorem Kept.step {st : Lstat} (hk : Kept path st s.volume s.daemon) (huid : st.uid = dbgUser)
    (he : EntryStep dbgUser s path (v.lstat path)) (h : SystemStep dbgUser s a v d) :
    Kept path st v d := by
  constructor
  · have hentry := hk.entry
    generalize v.lstat path = e at he
    cases he with
    | same => exact hentry
    | removed hd => exact absurd (hk.stage _ _ hd) (by simp)
    | made hnone => exact absurd (hnone.symm.trans hentry) (by simp)
    | owned hst =>
      obtain rfl := Option.some.inj (hst.symm.trans hentry)
      rw [← huid]
  · intro todo stage hd
    cases h with
    | start => exact (Daemon.starting.inj hd).2.symm
    | ready h hto =>
      rcases hto with rfl | rfl
      · exact absurd hd (by simp)
      · exact absurd hd (by simp)
    | absent h hnone =>
      obtain ⟨heq, -⟩ := Daemon.starting.inj hd
      obtain ⟨rfl, -⟩ := List.cons.inj heq
      exact absurd (hnone.symm.trans hk.entry) (by simp)
    | settled => exact (Daemon.starting.inj hd).2.symm
    | alien h hst hne =>
      obtain ⟨heq, -⟩ := Daemon.starting.inj hd
      obtain ⟨rfl, -⟩ := List.cons.inj heq
      obtain rfl := Option.some.inj (hst.symm.trans hk.entry)
      exact absurd huid hne
    | rmRf h =>
      obtain ⟨heq, -⟩ := Daemon.starting.inj hd
      obtain ⟨rfl, -⟩ := List.cons.inj heq
      exact absurd (hk.stage _ _ h) (by simp)
    | mkdirP h hfs hto =>
      rcases hto with rfl | rfl
      · obtain ⟨heq, -⟩ := Daemon.starting.inj hd
        obtain ⟨rfl, -⟩ := List.cons.inj heq
        exact absurd (hk.stage _ _ h) (by simp)
      · exact absurd hd (by simp)
    | chown => exact (Daemon.starting.inj hd).2.symm
    | refused | exit => exact absurd hd (by simp)
    | fuse | idle | outside => exact hk.stage _ _ hd

/-! ## The removal happens once -/

/-- The daemon has come to `nc_rm_rf`. -/
def System.Removing (s : System ι) : Prop := ∃ path todo, s.daemon = .starting (path :: todo) .rmRf

/-- Each required path has an entry of `dbg_user`, and the daemon leaves it there. -/
structure AllKept (dbgUser : ℕ) (s : System ι) : Prop extends Valid s where
  kept : ∀ path ∈ requiredPaths, ∃ st, st.uid = dbgUser ∧ Kept path st s.volume s.daemon

theorem AllKept.not_removing (hs : AllKept dbgUser s) : ¬s.Removing := by
  rintro ⟨path, todo, hd⟩
  obtain ⟨st, -, hk⟩ := hs.kept path (hs.todo _ _ hd path List.mem_cons_self)
  exact absurd (hk.stage _ _ hd) (by simp)

private theorem contained_of_not_removing (h : ¬s.Removing) (a : SystemAct ι) : Contained s a := by
  cases a with
  | daemon ans => exact fun path todo r hd ↦ absurd ⟨path, todo, hd⟩ h
  | _ => trivial

section Runs

variable [DecidableEq ι] {acts acts' : List (SystemAct ι)} {s₀ s₁ s₂ : System ι}

theorem AllKept.step (hs : AllKept dbgUser s) (ha : LeftAlone s a)
    (h : systemStep dbgUser s a = some s') : AllKept dbgUser s' := by
  refine ⟨hs.toValid.step ha h, fun path hpath ↦ ?_⟩
  obtain ⟨st, huid, hk⟩ := hs.kept path hpath
  have he := hs.entryStep hpath ha (contained_of_not_removing hs.not_removing a)
    (systemStep_cases h)
  exact ⟨st, huid, hk.step huid he (systemStep_cases h)⟩

private theorem exists_removing (ans : Answer) {todo : List Bytes}
    (hd : s.daemon = .starting todo .lstat)
    (hthere : ∀ path ∈ todo, ∃ st, s.volume.lstat path = some st)
    (halien : ∃ path ∈ todo, ∃ st, s.volume.lstat path = some st ∧ st.uid ≠ dbgUser) :
    ∃ k s', run (systemStep dbgUser) s (List.replicate k (.daemon ans)) = some s' ∧
      s'.Removing := by
  induction todo generalizing s with
  | nil =>
    obtain ⟨path, hpath, -⟩ := halien
    exact absurd hpath List.not_mem_nil
  | cons path todo ih =>
    obtain ⟨st, hst⟩ := hthere path List.mem_cons_self
    by_cases huid : st.uid = dbgUser
    · have hstep : systemStep dbgUser s (.daemon ans) =
          some { s with daemon := .starting todo .lstat } := by
        simp only [systemStep, hd, daemonStep, hst, if_pos huid, Option.map_some]
      obtain ⟨k, s', hrun, hs'⟩ := ih (s := { s with daemon := .starting todo .lstat }) rfl
        (fun path hpath ↦ hthere path (List.mem_cons_of_mem _ hpath)) (by
          obtain ⟨path', hpath', st', hst', hne⟩ := halien
          rcases List.mem_cons.mp hpath' with rfl | hmem
          · obtain rfl := Option.some.inj (hst.symm.trans hst')
            exact absurd huid hne
          · exact ⟨path', hmem, st', hst', hne⟩)
      exact ⟨k + 1, s', run_cons_iff.mpr ⟨_, hstep, hrun⟩, hs'⟩
    · have hstep : systemStep dbgUser s (.daemon ans) =
          some { s with daemon := .starting (path :: todo) .rmRf } := by
        simp only [systemStep, hd, daemonStep, hst, if_neg huid, Option.map_some]
      exact ⟨1, _, run_cons_iff.mpr ⟨_, hstep, rfl⟩, path, todo, rfl⟩

private theorem begun_of_run (hoff : s₀.daemon = .off)
    (hway : s₀.volume.fs.Plain (components cacheDir))
    (hacts : AllSteps (systemStep dbgUser) (fun s a ↦ LeftAlone s a ∧ Contained s a) s₀ acts)
    (hrun : run (systemStep dbgUser) s₀ acts = some s₁) : Begun dbgUser s₁ :=
  hacts.run_invariant (begun_of_off hoff hway) (fun _ _ _ hs hC h ↦ hs.step hC.1 hC.2 h) hrun

/-- **The removal is a one-off operation**, as the source says: once the daemon serves, no later
start of it comes to a removal, exactly if each required path that is a link belongs to `dbg_user`.
A link of another user is never taken over, since `chown` follows it, so what it leads to is removed
at every start. -/
theorem startUp_oneOff (hoff : s₀.daemon = .off)
    (hway : s₀.volume.fs.Plain (components cacheDir))
    (hacts : AllSteps (systemStep dbgUser) (fun s a ↦ LeftAlone s a ∧ Contained s a) s₀ acts)
    (hrun : run (systemStep dbgUser) s₀ acts = some s₁) (hserving : s₁.daemon = .serving) :
    (∀ acts' s₂, AllSteps (systemStep dbgUser) LeftAlone s₁ acts' →
        run (systemStep dbgUser) s₁ acts' = some s₂ → ¬s₂.Removing) ↔
      ∀ path ∈ requiredPaths, ∀ st link, s₁.volume.lstat path = some st →
        st.object = .link link → st.uid = dbgUser := by
  have hs := begun_of_run hoff hway hacts hrun
  have hpast : ∀ path, s₁.daemon.Past path := fun path ↦ by rw [hserving]; trivial
  constructor
  · intro h path hpath st link hst hlink
    by_contra hne
    let ans : Answer := ⟨fun _ _ ↦ none, .exist, 0, false⟩
    obtain ⟨k, s₂, hrun₂, hremoving⟩ := exists_removing
      (s := { s₁ with daemon := .starting requiredPaths .lstat }) ans rfl (fun path hpath ↦ by
        obtain ⟨st, hst, -⟩ := hs.past path hpath (hpast path)
        exact ⟨st, hst⟩) ⟨path, hpath, st, hst, hne⟩
    refine h (.exit :: .daemon ans :: List.replicate k (.daemon ans)) s₂ ?_
      (run_cons_iff.mpr ⟨_, rfl, run_cons_iff.mpr ⟨_, rfl, hrun₂⟩⟩) hremoving
    refine AllSteps.of_forall_mem fun a ha s ↦ ?_
    simp only [List.mem_cons, List.mem_replicate] at ha
    rcases ha with rfl | rfl | ⟨-, rfl⟩
    · trivial
    · trivial
    · trivial
  · intro hlinks acts' s₂ hacts' hrun'
    refine AllKept.not_removing (hacts'.run_invariant (I := AllKept dbgUser)
      ⟨hs.toValid, fun path hpath ↦ ?_⟩ (fun s a s' hs ha h ↦ hs.step ha h) hrun')
    obtain ⟨st, hst, hor⟩ := hs.past path hpath (hpast path)
    have huid : st.uid = dbgUser := by
      rcases hor with ⟨link, hlink⟩ | huid
      · exact hlinks path hpath st link hst hlink
      · exact huid
    refine ⟨st, huid, hst, fun todo stage hd ↦ ?_⟩
    exact absurd (hserving.symm.trans hd) (by simp)

/-- The two directories, and a file that was extracted. -/
def cacheTree : Fs where
  objects := [([bytes "var"], .directory), ([bytes "var", bytes "cache"], .directory),
    (components cacheDir, .directory), (components cacheDir ++ [bytes "lib"], .directory),
    (components cacheDir ++ [bytes "lib", bytes "x"], .regular []),
    (components cacheDir ++ [bytes "src"], .directory)]
  nodup := by decide
  parent := by decide
  names := by decide

/-- One directory belongs to the user 7, and the other one to root. -/
def cacheVolume : Volume where
  fs := cacheTree
  ino p := (cacheTree.objects.map Prod.fst).idxOf p
  uid p := if p = components cacheDir ++ [bytes "src"] then 7 else 0
  unused := 7
  ino_lt _ _ _ := Nat.lt_succ_of_le List.idxOf_le_length

/-- Where nothing fails. -/
def answers : Answer := ⟨fun _ _ ↦ none, .exist, 0, false⟩

def atBoot : System Unit := ⟨cacheVolume, .off, fun _ ↦ .checking requiredPaths⟩

/-- The FUSE program up to the `open` of its child, and the daemon up to where it serves. -/
def bothStart : List (SystemAct Unit) :=
  List.replicate 3 (.fuse () answers) ++ .proc () .child answers ::
    List.replicate 7 (.daemon answers)

/-- A step of the programs. If it is a removal, this succeeds and takes no other directory away. -/
def harmless (s : System Unit) : SystemAct Unit → Bool
  | .daemon ans =>
    match s.daemon with
    | .starting (path :: _) .rmRf =>
      (ncRmRf s.volume.fs (components path)).all fun r ↦ r.1 && requiredPaths.all fun other ↦
        decide (other = path ∨ (s.volume.left ans.euid r.2).lstat other = s.volume.lstat other)
    | _ => true
  | .outside _ => false
  | _ => true

private theorem harmless_spec {s : System Unit} {a : SystemAct Unit} (h : harmless s a = true) :
    LeftAlone s a ∧ Contained s a ∧ Removes s a := by
  cases a with
  | daemon ans =>
    have hremoval : ∀ path todo r, s.daemon = .starting (path :: todo) .rmRf →
        ncRmRf s.volume.fs (components path) = some r → r.1 = true ∧ ∀ other ∈ requiredPaths,
          other = path ∨ (s.volume.left ans.euid r.2).lstat other = s.volume.lstat other := by
      intro path todo r hd hr
      simp only [harmless, hd, hr, Option.all_some, Bool.and_eq_true, List.all_eq_true,
        decide_eq_true_eq] at h
      exact h
    exact ⟨trivial, fun path todo r hd hr other hother hne ↦
      ((hremoval path todo r hd hr).2 other hother).resolve_left hne,
      fun path todo r hd hr ↦ (hremoval path todo r hd hr).1⟩
  | outside v => exact absurd h (by simp [harmless])
  | _ => exact ⟨trivial, trivial, trivial⟩

private theorem atBoot_harmless : AllSteps (systemStep 7)
    (fun s a ↦ LeftAlone s a ∧ Contained s a ∧ Removes s a) atBoot
      (bothStart ++ [.proc () .child answers]) :=
  AllSteps.of_check (by decide +kernel) fun _ _ ↦ harmless_spec

/-- The directory of root is removed, and the file in it. -/
theorem startUp_oneOff_atBoot : ∃ s₁, run (systemStep 7) atBoot bothStart = some s₁ ∧
    s₁.volume.fs.lookup (components cacheDir ++ [bytes "lib", bytes "x"]) = none ∧
    ((∀ acts' s₂, AllSteps (systemStep 7) LeftAlone s₁ acts' →
        run (systemStep 7) s₁ acts' = some s₂ → ¬s₂.Removing) ↔
      ∀ path ∈ requiredPaths, ∀ st link, s₁.volume.lstat path = some st →
        st.object = .link link → st.uid = 7) := by
  have hmap : (run (systemStep 7) atBoot bothStart).map (fun s ↦ (s.daemon,
      s.volume.fs.lookup (components cacheDir ++ [bytes "lib", bytes "x"]))) =
        some (.serving, none) := by decide +kernel
  obtain ⟨s₁, hrun, hs₁⟩ := Option.map_eq_some_iff.mp hmap
  obtain ⟨hserving, hgone⟩ := Prod.mk.inj hs₁
  refine ⟨s₁, hrun, hgone, startUp_oneOff rfl (Fs.plain_of_directory rfl) ?_ hrun hserving⟩
  exact (atBoot_harmless.of_prefix (List.prefix_append _ _)).mono fun _ _ h ↦ ⟨h.1, h.2.1⟩

end Runs

/-! ## Removals that succeed -/

/-- What stands at a required path is a directory. -/
structure Tidy (s : System ι) : Prop extends Valid s where
  directory : ∀ path ∈ requiredPaths, ∀ st, s.volume.lstat path = some st →
    st.object = .directory

theorem Tidy.step (hs : Tidy s) (hpath : path ∈ requiredPaths)
    (he : EntryStep dbgUser s path (v.lstat path)) {st : Lstat} (hst : v.lstat path = some st) :
    st.object = .directory := by
  rw [hst] at he
  generalize hentry : some st = e at he
  cases he with
  | same => exact hs.directory path hpath st hentry.symm
  | removed => exact absurd hentry (by simp)
  | made hnone hino hdir =>
    obtain rfl := Option.some.inj hentry
    exact hdir
  | owned hold =>
    obtain rfl := Option.some.inj hentry
    have hobject := hs.directory path hpath _ hold
    exact hobject

private theorem ncRmRf_missing {fs : Fs} {p : Path} {n : Name} (hplain : fs.Plain (p ++ [n]))
    (hvalid : ∀ m ∈ p ++ [n], ValidName m) (hnone : fs.lookup (p ++ [n]) = none) :
    ncRmRf fs (p ++ [n]) = some (false, fs) := by
  have hn : n ≠ [] := (hvalid n (by simp)).1
  have hplace : (fs.place (p ++ [n])).bind fs.lookup = none :=
    (Fs.place_of_plain (hplain.of_prefix (List.prefix_append p [n]))
      fun m hm ↦ hvalid m (List.mem_append_left _ hm)).trans hnone
  have hfail : rmRf fs (p ++ [n]) .ns = (-1, fs) := by
    rcases rmRf_cases fs (p ++ [n]) .ns with h | ⟨q, -, hq, -, -, hdir, -⟩
    · exact h
    · rw [hq, Option.bind_some, hdir (by simp)] at hplace
      exact absurd hplace (by simp)
  have hvisit : ∀ fuel, visit rmRf (fuel + 1) ⟨fs, []⟩ (p ++ [n]) = some (-1, ⟨fs, []⟩) := by
    intro fuel
    rw [visit]
    cases hstat : fs.stat (p ++ [n]) with
    | ok d =>
      exact absurd (hnone.symm.trans (hplain.stat_eq hvalid hstat).2) (by simp)
    | error e =>
      cases e with
      | noent => simp only [hplace, Ftw.call, hfail]
      | notdir => rfl
      | loop => rfl
  rw [ncRmRf, nftw, trimSlashes_concat p hn, hvisit]
  rfl

theorem Tidy.removed (hs : Tidy s) (hpath : path ∈ requiredPaths) {r : Bool × Fs}
    (hr : ncRmRf s.volume.fs (components path) = some r) (htrue : r.1 = true) (maker : ℕ) :
    (s.volume.left maker r.2).lstat path = none ∧ ∀ other ∈ requiredPaths, other ≠ path →
      (s.volume.left maker r.2).lstat other = s.volume.lstat other := by
  obtain ⟨n, hn, -, hvalid⟩ := exists_components hpath
  have hlstat := lstat_required hs.way hpath
  have hdir := hs.directory path hpath
  rw [hn] at hr hlstat
  obtain ⟨ok, fs⟩ := r
  obtain rfl : ok = true := htrue
  have hentry : s.volume.fs.lookup (components cacheDir ++ [n]) = some .directory := by
    cases ho : s.volume.fs.lookup (components cacheDir ++ [n]) with
    | none =>
      have hmissing := ncRmRf_missing (hs.way.concat (.inl ho)) hvalid ho
      exact absurd (hr.symm.trans hmissing) (by simp)
    | some o =>
      rw [ho, Option.map_some] at hlstat
      rw [← show o = Object.directory from hdir _ hlstat]
  obtain rfl := ncRmRf_true hentry (hvalid n (by simp)).1 hr
  have hne : components cacheDir ++ [n] ≠ [] := by simp
  have hway := hs.way.mono fun q o ho ↦ .inl (Fs.sub_remove _ (components cacheDir ++ [n]) q o ho)
  refine ⟨?_, fun other hother hdiff ↦ ?_⟩
  · rw [lstat_left hway hpath, hn, Fs.lookup_remove hne, if_pos (List.prefix_refl _)]
    rfl
  · obtain ⟨n', hn', -, -⟩ := exists_components hother
    have hapart : ¬components cacheDir ++ [n] <+: components other := by
      intro hprefix
      rw [hn'] at hprefix
      have heq := hprefix.eq_of_length (by simp)
      exact hdiff (components_inj other hother path hpath (hn'.trans (heq.symm.trans hn.symm)))
    rw [lstat_left hway hother, lstat_required hs.way hother, Fs.lookup_remove hne,
      if_neg hapart]
    cases ho : s.volume.fs.lookup (components other) with
    | none => rfl
    | some o => rw [Option.map_some, Option.map_some, if_neg (by simp)]

theorem Tidy.contained (hs : Tidy s) (hr : Removes s a) : Contained s a := by
  cases a with
  | daemon ans =>
    intro path todo r hd hrm other hother hne
    have hpath := hs.todo _ _ hd path List.mem_cons_self
    exact (hs.removed hpath hrm (hr path todo r hd hrm) ans.euid).2 other hother hne
  | _ => trivial

/-! ## What a mount has opened -/

/-- The daemon has not come past a path, and will remove what is there. -/
def Daemon.Before (path : Bytes) : Daemon → Prop
  | .off => True
  | .starting todo stage => path ∈ todo ∧
      ∀ rest, todo = path :: rest → stage = .lstat ∨ stage = .rmRf
  | .serving => False

/-- The inode is not at the path any more, or it belongs to another user and the daemon has not come
to it. -/
def Lost (dbgUser : ℕ) (path : Bytes) (ino : ℕ) (v : Volume) (d : Daemon) : Prop :=
  (∀ st, v.lstat path = some st → st.ino ≠ ino) ∨
    (∃ st, v.lstat path = some st ∧ st.uid ≠ dbgUser) ∧ d.Before path

theorem Tidy.before_step (hs : Tidy s) (hpath : path ∈ requiredPaths) (hr : Removes s a)
    {st : Lstat} (hst : s.volume.lstat path = some st) (huid : st.uid ≠ dbgUser)
    (hb : s.daemon.Before path) (h : SystemStep dbgUser s a v d) (hthere : v.lstat path = some st) :
    d.Before path := by
  -- the daemon is at another path
  have hother : ∀ {target : Bytes} {todo : List Bytes} {stage stage' : Stage},
      s.daemon = .starting (target :: todo) stage → target ≠ path →
        Daemon.Before path (.starting (target :: todo) stage') := by
    intro target todo stage stage' hd hne
    rw [hd] at hb
    exact ⟨hb.1, fun rest heq ↦ absurd (List.cons.inj heq).1 hne⟩
  have hnext : ∀ {target : Bytes} {todo : List Bytes} {stage : Stage},
      s.daemon = .starting (target :: todo) stage → target ≠ path →
        Daemon.Before path (.starting todo .lstat) := by
    intro target todo stage hd hne
    rw [hd] at hb
    exact ⟨(List.mem_cons.mp hb.1).resolve_left hne.symm, fun _ _ ↦ .inl rfl⟩
  -- at this one it has not come past the removal
  have hstage : ∀ {todo : List Bytes} {stage : Stage},
      s.daemon = .starting (path :: todo) stage → stage = .lstat ∨ stage = .rmRf := by
    intro todo stage hd
    rw [hd] at hb
    exact hb.2 todo rfl
  cases h with
  | start => exact ⟨hpath, fun _ _ ↦ .inl rfl⟩
  | ready hd =>
    rw [hd] at hb
    exact absurd hb.1 List.not_mem_nil
  | @absent ans target todo hd hnone =>
    refine hother hd ?_
    rintro rfl
    exact absurd (hnone.symm.trans hst) (by simp)
  | @settled ans target todo st' hd hst' huid' =>
    refine hnext hd ?_
    rintro rfl
    obtain rfl := Option.some.inj (hst.symm.trans hst')
    exact huid huid'
  | alien hd =>
    rw [hd] at hb
    exact ⟨hb.1, fun _ _ ↦ .inr rfl⟩
  | @rmRf ans target todo r hd hrm =>
    refine hother hd ?_
    rintro rfl
    have hgone := (hs.removed hpath hrm (hr _ _ _ hd hrm) ans.euid).1
    exact absurd (hgone.symm.trans hthere) (by simp)
  | @mkdirP ans target todo fs d hd hfs hto =>
    have hne : target ≠ path := by
      rintro rfl
      exact absurd (hstage hd) (by simp)
    rcases hto with rfl | rfl
    · exact hother hd hne
    · trivial
  | @chown ans target todo v hd =>
    refine hnext hd ?_
    rintro rfl
    exact absurd (hstage hd) (by simp)
  | refused | exit => trivial
  | fuse | idle | outside => exact hb

theorem Valid.ino_lt (hs : Valid s) (hpath : path ∈ requiredPaths) {st : Lstat}
    (hst : s.volume.lstat path = some st) : st.ino < s.volume.unused := by
  rw [lstat_required hs.way hpath] at hst
  obtain ⟨o, ho, rfl⟩ := Option.map_eq_some_iff.mp hst
  exact s.volume.ino_lt _ o ho

theorem Tidy.lost_of_alien (hs : Tidy s) (hbegun : Begun dbgUser s) (hpath : path ∈ requiredPaths)
    (hidle : ∀ todo stage, s.daemon ≠ .starting todo stage) {st : Lstat}
    (hst : s.volume.lstat path = some st) (huid : st.uid ≠ dbgUser) :
    Lost dbgUser path st.ino s.volume s.daemon := by
  refine .inr ⟨⟨st, hst, huid⟩, ?_⟩
  cases hd : s.daemon with
  | off => trivial
  | starting todo stage => exact absurd hd (hidle _ _)
  | serving =>
    obtain ⟨st', hst', hor⟩ := hbegun.past path hpath (by rw [hd]; trivial)
    obtain rfl := Option.some.inj (hst.symm.trans hst')
    rcases hor with ⟨link, hlink⟩ | huid'
    · exact absurd ((hs.directory path hpath st hst).symm.trans hlink) (by simp)
    · exact absurd huid' huid

theorem Lost.step {ino : ℕ} (hs : Tidy s) (hpath : path ∈ requiredPaths)
    (hino : ino < s.volume.unused) (hl : Lost dbgUser path ino s.volume s.daemon)
    (hr : Removes s a) (he : EntryStep dbgUser s path (v.lstat path))
    (h : SystemStep dbgUser s a v d) : Lost dbgUser path ino v d := by
  generalize hentry : v.lstat path = e at he
  rcases hl with hgone | ⟨⟨st, hst, huid⟩, hb⟩
  · left
    intro st' hst'
    rw [hentry] at hst'
    cases he with
    | same => exact hgone st' hst'
    | removed => exact absurd hst' (by simp)
    | made hnone hunused =>
      obtain rfl := Option.some.inj hst'
      omega
    | owned hold =>
      obtain rfl := Option.some.inj hst'
      have hino' := hgone _ hold
      exact hino'
  · cases he with
    | same =>
      rw [hst] at hentry
      exact .inr ⟨⟨st, hentry, huid⟩, hs.before_step hpath hr hst huid hb h hentry⟩
    | removed =>
      left
      intro st' hst'
      exact absurd (hentry.symm.trans hst') (by simp)
    | made hnone => exact absurd (hnone.symm.trans hst) (by simp)
    | owned hold hd hst' htarget =>
      -- a chown is of a directory, so of this one, and that would be past the removal
      have hobject := hs.directory _ (hs.todo _ _ hd _ List.mem_cons_self) _ hst'
      obtain rfl := htarget (by simp [hobject])
      rw [hd] at hb
      exact absurd (hb.2 _ rfl) (by simp)

private theorem openRead_required (hs : Tidy s) (hpath : path ∈ requiredPaths) :
    s.volume.openRead path = (s.volume.lstat path).map fun st ↦ (st.ino, st.object) := by
  obtain ⟨n, hn, hne, hvalid⟩ := exists_components hpath
  have hlstat := lstat_required hs.way hpath
  have hdir := hs.directory path hpath
  rw [hn] at hlstat
  rw [Volume.openRead]
  cases ho : s.volume.fs.lookup (components cacheDir ++ [n]) with
  | none =>
    cases hresolve : s.volume.fs.resolve [] path with
    | error e =>
      rw [hlstat, ho]
      rfl
    | ok q =>
      obtain ⟨o, ho', -⟩ := Fs.resolve_of_plain hs.way hn hvalid hresolve
      exact absurd (ho.symm.trans ho') (by simp)
  | some o =>
    rw [ho, Option.map_some] at hlstat
    obtain rfl : o = .directory := hdir _ hlstat
    rw [Fs.resolve_of_directory hn hne ho, hlstat]
    simp only [ho, Option.map_some]

/-- A process that has opened its directory. -/
def HasOpened (saveDir : Option (ℕ × Object)) (p : Proc) : Prop :=
  p = .opened saveDir ∨ p = .mounted (xmpInit saveDir)

theorem HasOpened.step [DecidableEq ι] {m : ι} {side : Side} {saveDir : Option (ℕ × Object)}
    (hp : HasOpened saveDir (s.proc m side)) (h : systemStep dbgUser s a = some s') :
    HasOpened saveDir (s'.proc m side) := by
  obtain ⟨procs, hm⟩ : ∃ procs, s.fuse m = .forked procs := by
    rw [System.proc] at hp
    split at hp
    · exact ⟨_, by assumption⟩
    · rcases hp with hp | hp
      · exact absurd hp (by simp)
      · exact absurd hp (by simp)
  have hproc : s.proc m side = procs side := by rw [System.proc, hm]
  have hsame : ∀ f : ι → FuseMain, s'.fuse = f → f m = s.fuse m →
      HasOpened saveDir (s'.proc m side) := by
    intro f hf hfm
    rw [System.proc, hf, hfm, ← System.proc]
    exact hp
  cases a with
  | daemon ans =>
    obtain ⟨r, -, rfl⟩ := Option.map_eq_some_iff.mp h
    exact hp
  | exit =>
    obtain rfl := Option.some.inj h
    exact hp
  | outside v =>
    obtain rfl := Option.some.inj h
    exact hp
  | fuse m' ans =>
    obtain ⟨r, hr, rfl⟩ := Option.map_eq_some_iff.mp h
    by_cases hmm : m = m'
    · obtain rfl := hmm
      rw [hm] at hr
      exact absurd hr (by simp [fuseStep])
    · exact hsame _ rfl (Function.update_of_ne hmm _ _)
  | proc m' side' ans =>
    by_cases hmm : m = m'
    · obtain rfl := hmm
      simp only [systemStep, hm] at h
      obtain ⟨p, hstep, rfl⟩ := Option.map_eq_some_iff.mp h
      have hnew : System.proc { s with
          fuse := Function.update s.fuse m (.forked (Function.update procs side' p)) } m side =
          Function.update procs side' p side := by
        simp only [System.proc, Function.update_self]
      rw [hnew]
      by_cases hside : side = side'
      · obtain rfl := hside
        rw [Function.update_self]
        rw [hproc] at hp
        rcases hp with hp | hp
        · rw [hp] at hstep
          exact .inr (Option.some.inj hstep).symm
        · rw [hp] at hstep
          exact absurd hstep (by simp [procStep])
      · rw [Function.update_of_ne hside, ← hproc]
        exact hp
    · rw [systemStep] at h
      split at h
      · obtain ⟨p, -, rfl⟩ := Option.map_eq_some_iff.mp h
        exact hsame _ rfl (Function.update_of_ne hmm _ _)
      · exact absurd h (by simp)

section Runs

variable [DecidableEq ι] {before after : List (SystemAct ι)} {s₀ s₁ s₂ : System ι}

theorem Tidy.next (hs : Tidy s) (ha : LeftAlone s a) (hr : Removes s a)
    (h : systemStep dbgUser s a = some s') : Tidy s' :=
  ⟨hs.toValid.step ha h, fun _ hpath _ hst ↦
    hs.step hpath (hs.entryStep hpath ha (hs.contained hr) (systemStep_cases h)) hst⟩

private theorem tidy_of_run (hs : Tidy s₀ ∧ Begun dbgUser s₀)
    (hacts : AllSteps (systemStep dbgUser) (fun s a ↦ LeftAlone s a ∧ Removes s a) s₀ before)
    (hrun : run (systemStep dbgUser) s₀ before = some s₁) : Tidy s₁ ∧ Begun dbgUser s₁ :=
  hacts.run_invariant (I := fun s ↦ Tidy s ∧ Begun dbgUser s) hs (fun _ _ _ hs hC h ↦
    ⟨hs.1.next hC.1 hC.2 h, hs.2.step hC.1 (hs.1.contained hC.2) h⟩) hrun

theorem Kept.run {st : Lstat} (hs : Tidy s₁) (hpath : path ∈ requiredPaths)
    (hk : Kept path st s₁.volume s₁.daemon) (huid : st.uid = dbgUser)
    (hacts : AllSteps (systemStep dbgUser) (fun s a ↦ LeftAlone s a ∧ Removes s a) s₁ after)
    (hrun : run (systemStep dbgUser) s₁ after = some s₂) : Kept path st s₂.volume s₂.daemon := by
  have hinv := hacts.run_invariant (I := fun s ↦ Tidy s ∧ Kept path st s.volume s.daemon)
    ⟨hs, hk⟩ (fun s a s' hI hC h ↦ ?_) hrun
  · exact hinv.2
  · have he := hI.1.entryStep hpath hC.1 (hI.1.contained hC.2) (systemStep_cases h)
    exact ⟨hI.1.next hC.1 hC.2 h, hI.2.step huid he (systemStep_cases h)⟩

theorem Lost.run {ino : ℕ} (hs : Tidy s₁) (hpath : path ∈ requiredPaths)
    (hino : ino < s₁.volume.unused) (hl : Lost dbgUser path ino s₁.volume s₁.daemon)
    (hacts : AllSteps (systemStep dbgUser) (fun s a ↦ LeftAlone s a ∧ Removes s a) s₁ after)
    (hrun : run (systemStep dbgUser) s₁ after = some s₂) :
    Lost dbgUser path ino s₂.volume s₂.daemon := by
  have hinv := hacts.run_invariant (I := fun s ↦ Tidy s ∧ ino < s.volume.unused ∧
    Lost dbgUser path ino s.volume s.daemon) ⟨hs, hino, hl⟩ (fun s a s' hI hC h ↦ ?_) hrun
  · exact hinv.2.2
  · obtain ⟨htidy, hlt, hlost⟩ := hI
    have hstep := systemStep_cases h
    have he := htidy.entryStep hpath hC.1 (htidy.contained hC.2) hstep
    exact ⟨htidy.next hC.1 hC.2 h, hlt.trans_le (hstep.unused_le hC.1),
      hlost.step htidy hpath hlt hC.2 he hstep⟩

theorem HasOpened.run {m : ι} {side : Side} {saveDir : Option (ℕ × Object)}
    (hp : HasOpened saveDir (s₁.proc m side))
    (hrun : run (systemStep dbgUser) s₁ after = some s₂) :
    HasOpened saveDir (s₂.proc m side) :=
  run_invariant (I := fun _ s ↦ HasOpened saveDir (s.proc m side)) hp
    (fun _ _ _ _ hI h ↦ hI.step h) hrun

private theorem proc_opens {m : ι} {side : Side} {ans : Answer} (hopen : s.proc m side = .opening)
    (h : systemStep dbgUser s (.proc m side ans) = some s') :
    s'.volume = s.volume ∧ s'.daemon = s.daemon ∧
      s'.proc m side = .opened (if ans.fails then none else s.volume.openRead side.shadowdir) := by
  rw [systemStep] at h
  split at h
  next procs hm =>
    rw [System.proc, hm] at hopen
    obtain ⟨p, hp, rfl⟩ := Option.map_eq_some_iff.mp h
    simp only [hopen, procStep] at hp
    obtain rfl := Option.some.inj hp
    simp only [System.proc, Function.update_self, and_self]
  · exact absurd h (by simp)

/-- **The mount shows what the daemon extracts**, whenever the daemon serves, exactly if the
directory belonged to `dbg_user` when the mount opened it; provided that the daemon was not just
starting. A directory that the FUSE program has made itself belongs to root, and the next start of
the daemon replaces it under the mount. -/
theorem mount_showsCache_iff {m : ι} {side : Side} {ans : Answer} {dir : Option ℕ}
    (hoff : s₀.daemon = .off) (hway : s₀.volume.fs.Plain (components cacheDir))
    (hdirs : ∀ path ∈ requiredPaths, ∀ st, s₀.volume.lstat path = some st →
      st.object = .directory)
    (hbefore : run (systemStep dbgUser) s₀ before = some s)
    (hacts : AllSteps (systemStep dbgUser) (fun s a ↦ LeftAlone s a ∧ Removes s a) s₀ before)
    (hidle : ∀ todo stage, s.daemon ≠ .starting todo stage)
    (hopening : s.proc m side = .opening)
    (hopen : systemStep dbgUser s (.proc m side ans) = some s₁)
    (hafter : run (systemStep dbgUser) s₁ after = some s₂)
    (hacts' : AllSteps (systemStep dbgUser) (fun s a ↦ LeftAlone s a ∧ Removes s a) s₁ after)
    (hserving : s₂.daemon = .serving) (hmounted : s₂.proc m side = .mounted dir) :
    dir = (s₂.volume.lstat side.shadowdir).map Lstat.ino ↔
      ans.fails = false ∧ (s.volume.lstat side.shadowdir).map Lstat.uid = some dbgUser := by
  have hpath : side.shadowdir ∈ requiredPaths := by
    cases side with
    | parent => decide
    | child => decide
  have hstart : Begun dbgUser s₀ := begun_of_off hoff hway
  obtain ⟨htidy, hbegun⟩ := tidy_of_run ⟨⟨hstart.toValid, hdirs⟩, hstart⟩ hacts hbefore
  obtain ⟨hvolume, hdaemon, hproc⟩ := proc_opens hopening hopen
  have hbase₁ : Tidy s₁ ∧ Begun dbgUser s₁ := by
    have hleft : LeftAlone s (.proc m side ans) := trivial
    have hremoves : Removes s (.proc m side ans) := trivial
    exact ⟨htidy.next hleft hremoves hopen, hbegun.step hleft (htidy.contained hremoves) hopen⟩
  obtain ⟨-, hbegun₂⟩ := tidy_of_run hbase₁ hacts' hafter
  -- the working directory is what has been opened
  have hdir : dir = xmpInit (if ans.fails then none else s.volume.openRead side.shadowdir) := by
    rcases HasOpened.run (.inl hproc) hafter with h | h
    · exact absurd (hmounted.symm.trans h) (by simp)
    · exact Proc.mounted.inj (hmounted.symm.trans h)
  obtain ⟨st₂, hst₂, -⟩ := hbegun₂.past side.shadowdir hpath (by rw [hserving]; trivial)
  rw [hdir, hst₂, openRead_required htidy hpath]
  cases hfails : ans.fails with
  | true => simp [xmpInit]
  | false =>
    cases hst : s.volume.lstat side.shadowdir with
    | none => simp [xmpInit]
    | some st =>
      have hobject := htidy.directory _ hpath st hst
      have hopened : xmpInit (some (st.ino, st.object)) = some st.ino := by rw [hobject]; rfl
      simp only [Bool.false_eq_true, if_false, Option.map_some, hopened, true_and,
        Option.some_inj]
      by_cases huid : st.uid = dbgUser
      · have hkept : Kept side.shadowdir st s₁.volume s₁.daemon := by
          rw [hvolume, hdaemon]
          exact ⟨hst, fun todo stage hd ↦ absurd hd (hidle _ _)⟩
        have hentry := (hkept.run hbase₁.1 hpath huid hacts' hafter).entry
        obtain rfl := Option.some.inj (hst₂.symm.trans hentry)
        exact iff_of_true rfl huid
      · have hlost : Lost dbgUser side.shadowdir st.ino s₁.volume s₁.daemon := by
          rw [hvolume, hdaemon]
          exact htidy.lost_of_alien hbegun hpath hidle hst huid
        have hino : st.ino < s₁.volume.unused := hvolume ▸ htidy.ino_lt hpath hst
        rcases hlost.run hbase₁.1 hpath hino hacts' hafter with hgone | ⟨-, hb⟩
        · exact iff_of_false (hgone st₂ hst₂).symm huid
        · rw [hserving] at hb
          exact hb.elim

/-- The child has opened a directory of root, which the daemon then replaces. -/
theorem mount_showsCache_iff_atBoot : ∃ s s₂ : System Unit,
    run (systemStep 7) atBoot (List.replicate 3 (.fuse () answers)) = some s ∧
    run (systemStep 7) atBoot (bothStart ++ [.proc () .child answers]) = some s₂ ∧
    (s₂.volume.lstat Side.child.shadowdir).map Lstat.ino = some 15 ∧
    (some 3 = (s₂.volume.lstat Side.child.shadowdir).map Lstat.ino ↔ answers.fails = false ∧
      (s.volume.lstat Side.child.shadowdir).map Lstat.uid = some 7) := by
  have hmap : (run (systemStep 7) atBoot (bothStart ++ [.proc () .child answers])).map (fun s ↦
      (s.daemon, s.proc () .child, (s.volume.lstat Side.child.shadowdir).map Lstat.ino)) =
        some (.serving, .mounted (some 3), some 15) := by decide +kernel
  obtain ⟨s₂, hrun, hs₂⟩ := Option.map_eq_some_iff.mp hmap
  obtain ⟨hserving, hmore⟩ := Prod.mk.inj hs₂
  obtain ⟨hmounted, hino⟩ := Prod.mk.inj hmore
  rw [bothStart, List.append_assoc] at hrun
  obtain ⟨s, hbefore, hrest⟩ := run_append_iff.mp hrun
  obtain ⟨s₁, hopen, hafter⟩ := run_cons_iff.mp hrest
  have hmap : (run (systemStep 7) atBoot (List.replicate 3 (.fuse () answers))).map (fun s ↦
      (s.daemon, s.proc () .child)) = some (.off, .opening) := by decide +kernel
  rw [hbefore, Option.map_some, Option.some_inj] at hmap
  obtain ⟨hoff, hopening⟩ := Prod.mk.inj hmap
  have hdirs : ∀ path ∈ requiredPaths, ∀ st, atBoot.volume.lstat path = some st →
      st.object = .directory := by decide +kernel
  have hacts := atBoot_harmless.mono (P := fun s a ↦ LeftAlone s a ∧ Removes s a)
    fun _ _ h ↦ ⟨h.1, h.2.2⟩
  rw [bothStart, List.append_assoc] at hacts
  refine ⟨s, s₂, hbefore, by rw [bothStart, List.append_assoc]; exact hrun, hino, ?_⟩
  have hstart : atBoot.daemon = .off := rfl
  exact mount_showsCache_iff hstart (Fs.plain_of_directory rfl) hdirs hbefore
    (hacts.of_prefix (List.prefix_append _ _)) (by simp [hoff]) hopening hopen hafter
    ((hacts.of_append hbefore).2 s₁ hopen) hserving hmounted

end Runs

end ClrDebugInfo.Directories
