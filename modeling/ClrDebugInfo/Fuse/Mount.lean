import ClrDebugInfo.Library.Calls
import ClrDebugInfo.Library.Runs

/-!
# The mount (`src/fuse.c`)

`clr_debug_fuse` shows a directory of the system, the save directory, as a file system of its own.
The process stands in the save directory (`xmp_init`). A handler puts a dot before a path of the
mount, and makes the call that it is named after. `xmp_symlink` puts a dot before the target as
well, which is no path of the mount but a text, and comes back with the dot.

The mount is compared with the same calls by a process for which the save directory is the root.

## Conventions

* A path of the mount begins with a slash.
* Whether `asprintf` and `close` succeed is part of a call.
* Permissions and device numbers, which the handlers hand on, are left out.
-/

namespace ClrDebugInfo

open Inodes Runs
open FileTree (Name Path ValidName components)

/-! ## The handlers -/

/-- A mounted directory. -/
structure Mount where
  host : Host
  /-- The root of the system. -/
  root : Ino
  saveDir : Ino

/-- The process of the handlers. -/
def Mount.daemon (m : Mount) : Process := ⟨m.root, m.saveDir⟩

/-- A process for which the save directory is the root. -/
def Mount.chrooted (m : Mount) : Process := ⟨m.saveDir, m.saveDir⟩

/-- `xmp_make_dotpath`, if `asprintf` succeeds. -/
def makeDotpath (alloc : Bool) (path : List UInt8) : Option (List UInt8) :=
  if alloc then some (46 :: path) else none

/-- What a handler returns, and the disk, after a system call. -/
def returned (d : Disk) : Except Errno Disk → ℤ × Disk
  | .ok d' => (0, d')
  | .error e => (-e.code, d)

/-- A handler with one path. -/
def withDotpath (alloc : Bool) (path : List UInt8) (call : List UInt8 → Except Errno Disk)
    (d : Disk) : ℤ × Disk :=
  match makeDotpath alloc path with
  | none => (-Errno.nomem.code, d)
  | some newpath => returned d (call newpath)

/-- A handler with two. -/
def withDotpaths (alloc alloc' : Bool) (old new : List UInt8)
    (call : List UInt8 → List UInt8 → Except Errno Disk) (d : Disk) : ℤ × Disk :=
  match makeDotpath alloc old with
  | none => (-Errno.nomem.code, d)
  | some newfrom =>
    match makeDotpath alloc' new with
    | none => (-Errno.nomem.code, d)
    | some newto => returned d (call newfrom newto)

section Handlers

variable (m : Mount) (d : Disk)

/-- `xmp_mknod`. What `close` fails with, if it does, is `closed`: the file is there then. -/
def xmpMknod (alloc : Bool) (closed : Option Errno) (path : List UInt8) (type : ModeType) :
    ℤ × Disk :=
  match makeDotpath alloc path with
  | none => (-Errno.nomem.code, d)
  | some newpath =>
    match type with
    | .of .regular =>
      match m.host.openExcl m.daemon d newpath with
      | .error e => (-e.code, d)
      | .ok d' =>
        match closed with
        | none => (0, d')
        | some e => (-e.code, d')
    -- `mkfifo`
    | .of .fifo => returned d (m.host.mknod m.daemon d newpath (.of .fifo))
    | type => returned d (m.host.mknod m.daemon d newpath type)

/-- `xmp_mkdir` -/
def xmpMkdir (alloc : Bool) (path : List UInt8) : ℤ × Disk :=
  withDotpath alloc path (m.host.mkdir m.daemon d) d

/-- `xmp_unlink` -/
def xmpUnlink (alloc : Bool) (path : List UInt8) : ℤ × Disk :=
  withDotpath alloc path (m.host.unlink m.daemon d) d

/-- `xmp_rmdir` -/
def xmpRmdir (alloc : Bool) (path : List UInt8) : ℤ × Disk :=
  withDotpath alloc path (m.host.rmdir m.daemon d) d

/-- `xmp_symlink`. The first argument is the target. -/
def xmpSymlink (alloc alloc' : Bool) (old new : List UInt8) : ℤ × Disk :=
  withDotpaths alloc alloc' old new (m.host.symlink m.daemon d) d

/-- `xmp_rename` -/
def xmpRename (alloc alloc' : Bool) (old new : List UInt8) : ℤ × Disk :=
  withDotpaths alloc alloc' old new (m.host.rename m.daemon d) d

/-- `xmp_link` -/
def xmpLink (alloc alloc' : Bool) (old new : List UInt8) : ℤ × Disk :=
  withDotpaths alloc alloc' old new (m.host.link m.daemon d) d

/-- `xmp_readlink`, into a buffer of `size` bytes, at least one: what it returns, and the text
before the NUL. -/
def xmpReadlink (alloc : Bool) (path : List UInt8) (size : ℕ) : ℤ × List UInt8 :=
  match makeDotpath alloc path with
  | none => (-Errno.nomem.code, [])
  | some newpath =>
    match d.readlink m.host.pathMax m.daemon newpath (size - 1) with
    | .error e => (-e.code, [])
    | .ok text => (0, text)

/-- `xmp_readdir`: what it returns, and what `filler` has taken. A buffer has room for `room`
entries, and `filler` says so when it is full. -/
def xmpReaddir (alloc : Bool) (path : List UInt8) (room : ℕ) :
    ℤ × List (Name × Ino × Option Disk.EntryType) :=
  match makeDotpath alloc path with
  | none => (-Errno.nomem.code, [])
  | some newpath =>
    match d.readdir m.host.pathMax m.daemon newpath with
    | .error e => (-e.code, [])
    | .ok entries => (0, entries.take room)

end Handlers

/-! ## Runs -/

/-- An operation that changes names. -/
inductive NameOp
  | mknod (path : List UInt8) (type : ModeType)
  | mkdir (path : List UInt8)
  | unlink (path : List UInt8)
  | rmdir (path : List UInt8)
  | symlink (target path : List UInt8)
  | rename (old new : List UInt8)
  | link (old new : List UInt8)

/-- A call of a handler, with the results of the two calls of `asprintf` and of `close`. -/
structure MountCall where
  op : NameOp
  alloc : Bool
  alloc' : Bool
  closed : Option Errno

/-- The handler of an operation in `xmp_oper`. -/
def Mount.handle (m : Mount) (d : Disk) (a : MountCall) : ℤ × Disk :=
  match a.op with
  | .mknod path type => xmpMknod m d a.alloc a.closed path type
  | .mkdir path => xmpMkdir m d a.alloc path
  | .unlink path => xmpUnlink m d a.alloc path
  | .rmdir path => xmpRmdir m d a.alloc path
  | .symlink target path => xmpSymlink m d a.alloc a.alloc' target path
  | .rename old new => xmpRename m d a.alloc a.alloc' old new
  | .link old new => xmpLink m d a.alloc a.alloc' old new

/-- The operation, by a process for which the save directory is the root. -/
def Mount.direct (m : Mount) (d : Disk) : NameOp → Except Errno Disk
  | .mknod path type => m.host.mknod m.chrooted d path type
  | .mkdir path => m.host.mkdir m.chrooted d path
  | .unlink path => m.host.unlink m.chrooted d path
  | .rmdir path => m.host.rmdir m.chrooted d path
  | .symlink target path => m.host.symlink m.chrooted d target path
  | .rename old new => m.host.rename m.chrooted d old new
  | .link old new => m.host.link m.chrooted d old new

/-- A disk, and what was returned so far. -/
structure MountState where
  disk : Disk
  returns : List ℤ

def MountState.after (s : MountState) (r : ℤ × Disk) : MountState := ⟨r.2, s.returns ++ [r.1]⟩

def mountStep (m : Mount) (s : MountState) (a : MountCall) : Option MountState :=
  some (s.after (m.handle s.disk a))

def directStep (m : Mount) (s : MountState) (a : MountCall) : Option MountState :=
  some (s.after (returned s.disk (m.direct s.disk a.op)))

/-- A call means the same to the handler and to the other process. -/
def PassesThrough (m : Mount) (s : MountState) (a : MountCall) : Prop :=
  a.alloc = true ∧
    match a.op with
    | .mknod path type => m.host.Inside s.disk m.root m.saveDir path ∧
        (type = .of .regular → path.getLast? ≠ some 47 ∧ a.closed = none)
    | .mkdir path => m.host.Inside s.disk m.root m.saveDir path
    | .unlink path => m.host.Inside s.disk m.root m.saveDir path
    | .rmdir path => m.host.Inside s.disk m.root m.saveDir path ∧ components path ≠ []
    | .symlink target path => a.alloc' = true ∧ m.host.Inside s.disk m.root m.saveDir path ∧
        ∃ e, m.host.symlink m.chrooted s.disk target path = .error e ∧
          m.host.symlink m.chrooted s.disk (46 :: target) path = .error e
    | .rename old new => a.alloc' = true ∧ m.host.Inside s.disk m.root m.saveDir old ∧
        m.host.Inside s.disk m.root m.saveDir new
    | .link old new => a.alloc' = true ∧ m.host.Inside s.disk m.root m.saveDir old ∧
        (Disk.lastFollowed old = true →
          s.disk.stays m.root m.saveDir 40 m.saveDir (components old) = true) ∧
        m.host.Inside s.disk m.root m.saveDir new

/-- A call that fails changes nothing. -/
def FailsCleanly (m : Mount) (s : MountState) (a : MountCall) : Prop :=
  (m.handle s.disk a).1 ≠ 0 → (m.handle s.disk a).2 = s.disk

/-- The mount, whose disk is `d`, shows the tree that the other process has on the disk `d'`, if
buffers are large enough. -/
def Shows (m : Mount) (d d' : Disk) : Prop :=
  ∀ (q : Path) (i : Ino), (∀ n ∈ q, ValidName n) →
    (Disk.fromRoot q).length + 1 < m.host.pathMax → d'.descend m.saveDir q = some i →
    (d'.dir i ≠ none → ∃ entries,
      d'.readdir m.host.pathMax m.chrooted (Disk.fromRoot q) = .ok entries ∧
      ∀ room, entries.length ≤ room →
        xmpReaddir m d true (Disk.fromRoot q) room = (0, entries)) ∧
    ∀ target, d'.nodes[i]? = some (.link target) → ∀ size, 1 < size → target.length < size →
      d'.readlink m.host.pathMax m.chrooted (Disk.fromRoot q) size = .ok target ∧
        xmpReadlink m d true (Disk.fromRoot q) size = (0, target)

/-- The mount is a pass-through for a sequence of calls. -/
structure Faithful (m : Mount) (s : MountState) (calls : List MountCall) : Prop where
  same : ∀ before, before <+: calls → ∃ t t', run (mountStep m) s before = some t ∧
    run (directStep m) s before = some t' ∧ t.returns = t'.returns ∧ Shows m t.disk t'.disk
  clean : AllSteps (mountStep m) (FailsCleanly m) s calls

/-! ## One call -/

variable {m : Mount} {d : Disk} {s t : MountState} {a : MountCall}

/-- **The dot.** -/
theorem handle_eq_direct (hdir : s.disk.dir m.saveDir ≠ none) (h : PassesThrough m s a) :
    m.handle s.disk a = returned s.disk (m.direct s.disk a.op) := by
  obtain ⟨op, alloc, alloc', closed⟩ := a
  obtain ⟨rfl, h⟩ := h
  cases op with
  | mkdir path => exact congrArg (returned s.disk) (Host.mkdir_dot hdir h)
  | unlink path => exact congrArg (returned s.disk) (Host.unlink_dot hdir h)
  | rmdir path => exact congrArg (returned s.disk) (Host.rmdir_dot hdir h.1 h.2)
  | rename old new =>
    obtain ⟨rfl, hold, hnew⟩ := h
    exact congrArg (returned s.disk) (Host.rename_dot hdir hold hnew)
  | link old new =>
    obtain ⟨rfl, hold, hend, hnew⟩ := h
    exact congrArg (returned s.disk) (Host.link_dot hdir hold hend hnew)
  | symlink target path =>
    obtain ⟨rfl, hpath, e, hdirect, hhandle⟩ := h
    -- both texts are refused, so that neither is there to be read
    have hcall : m.host.symlink m.daemon s.disk (46 :: target) (46 :: path) = .error e :=
      (Host.symlink_dot hdir hpath).trans hhandle
    have hmount : m.handle s.disk ⟨.symlink target path, true, true, closed⟩ =
        returned s.disk (.error e) := congrArg (returned s.disk) hcall
    exact hmount.trans (congrArg (returned s.disk) hdirect).symm
  | mknod path type =>
    obtain ⟨hpath, hregular⟩ := h
    have hdot := Host.mknod_dot hdir hpath type
    cases type with
    | of kind =>
      cases kind with
      | regular =>
        obtain ⟨hslash, rfl⟩ := hregular rfl
        have hopen : m.host.openExcl m.daemon s.disk (46 :: path) =
            m.host.mknod m.chrooted s.disk path (.of .regular) :=
          (Host.openExcl_dot hdir hpath).trans (Host.openExcl_eq_mknod hslash)
        simp only [Mount.handle, xmpMknod, makeDotpath, if_true, hopen, Mount.direct]
        cases m.host.mknod m.chrooted s.disk path (.of .regular) with
        | error e => rfl
        | ok d' => rfl
      | _ => exact congrArg (returned s.disk) hdot
    | _ => exact congrArg (returned s.disk) hdot

private theorem dir_of_direct {op : NameOp} {d' : Disk} {i : Ino} (hi : d.dir i ≠ none)
    (h : m.direct d op = .ok d') : d'.dir i ≠ none := by
  cases op with
  | mkdir path => exact Host.dir_of_commit hi h
  | unlink path => exact Host.dir_of_commit hi h
  | rmdir path => exact Host.dir_of_commit hi h
  | rename old new => exact Host.dir_of_commit hi h
  | link old new => exact Host.dir_of_commit hi h
  | symlink target path =>
    rw [Mount.direct, Host.symlink] at h
    split_ifs at h
    exact Host.dir_of_commit hi h
  | mknod path type =>
    cases type with
    | of _ => exact Host.dir_of_commit hi h
    | zero => exact Host.dir_of_commit hi h
    | directory => cases h
    | other => cases h

private theorem dir_returned {r : Except Errno Disk} {i : Ino} (hi : d.dir i ≠ none)
    (h : ∀ d', r = .ok d' → d'.dir i ≠ none) : (returned d r).2.dir i ≠ none := by
  cases r with
  | error e => exact hi
  | ok d' => exact h d' rfl

private theorem returned_eq_zero_iff {r : Except Errno Disk} :
    (returned d r).1 = 0 ↔ ∃ d', r = .ok d' := by
  cases r with
  | error e =>
    have hcode := e.code_pos
    constructor
    · intro h
      rw [returned] at h
      omega
    · rintro ⟨d', h⟩
      exact absurd h (by simp)
  | ok d' => exact iff_of_true rfl ⟨d', rfl⟩

private theorem returned_clean {r : Except Errno Disk} (h : (returned d r).1 ≠ 0) :
    (returned d r).2 = d := by
  cases r with
  | error e => rfl
  | ok d' => exact absurd (returned_eq_zero_iff.mpr ⟨d', rfl⟩) h

/-! ## The tree -/

/-- **The tree.** What the mount shows is what is there. -/
theorem shows_self (hdir : d.dir m.saveDir ≠ none) : Shows m d d := by
  intro q i hnames hlen h
  refine ⟨fun hi ↦ ?_, fun target hlink size hsize htarget ↦ ?_⟩
  · obtain ⟨⟨parent, entries⟩, he⟩ := Option.ne_none_iff_exists'.mp hi
    have hstays : d.stays m.root m.saveDir 40 m.saveDir
        (components (Disk.fromRoot q)) = true := by
      rw [Disk.components_fromRoot hnames]
      exact (Disk.walk_of_descend 40 hnames h hi).2
    have hstat : d.stat m.host.pathMax m.chrooted (Disk.fromRoot q) = .ok i :=
      Disk.stat_fromRoot hnames (by omega) h hi
    have hdot : d.stat m.host.pathMax m.daemon (46 :: Disk.fromRoot q) = .ok i :=
      (Disk.stat_dot hdir (Disk.head?_fromRoot q) hlen hstays).trans hstat
    rw [Disk.readdir, hstat]
    simp only [he]
    refine ⟨_, rfl, fun room hroom ↦ ?_⟩
    rw [xmpReaddir, makeDotpath, if_pos rfl]
    simp only [Disk.readdir, hdot, he]
    rw [List.take_of_length_le hroom]
  · rcases List.eq_nil_or_concat' q with rfl | ⟨q, n, rfl⟩
    · -- the root is no link
      obtain rfl := Option.some.inj h
      rw [Disk.dir, hlink] at hdir
      exact absurd rfl hdir
    have hlstat : d.lstat m.host.pathMax m.chrooted (Disk.fromRoot (q ++ [n])) = .ok i :=
      Disk.lstat_fromRoot hnames (by omega) h
    have hstays : d.stays m.root m.saveDir 40 m.saveDir
        (components (Disk.fromRoot (q ++ [n]))).dropLast = true := by
      rw [Disk.descend_concat, Option.bind_eq_some_iff] at h
      obtain ⟨j, hdescend, hentry⟩ := h
      rw [Disk.components_fromRoot hnames, List.dropLast_concat]
      exact (Disk.walk_of_descend 40 (fun n hn ↦ hnames n (List.mem_append_left _ hn)) hdescend
        (Disk.dir_of_entry hentry)).2
    have hdot : d.lstat m.host.pathMax m.daemon (46 :: Disk.fromRoot (q ++ [n])) = .ok i := by
      refine (Disk.lstat_dot hdir (Disk.head?_fromRoot _) hlen hstays fun hlast ↦ ?_).trans hlstat
      rw [Disk.lastFollowed_fromRoot hnames] at hlast
      exact absurd hlast (by simp)
    rw [Disk.readlink, hlstat, xmpReadlink, makeDotpath, if_pos rfl]
    simp only [Disk.readlink, hdot, hlink]
    rw [if_neg (by omega), if_neg (by omega), List.take_of_length_le (by omega),
      List.take_of_length_le (by omega)]
    exact ⟨rfl, rfl⟩

/-! ## Every run -/

theorem mountStep_eq_directStep (hdir : s.disk.dir m.saveDir ≠ none) (h : PassesThrough m s a) :
    mountStep m s a = directStep m s a := by
  rw [mountStep, directStep, handle_eq_direct hdir h]

private theorem dir_mountStep (hdir : s.disk.dir m.saveDir ≠ none) (h : PassesThrough m s a)
    (hstep : mountStep m s a = some t) : t.disk.dir m.saveDir ≠ none := by
  rw [mountStep_eq_directStep hdir h, directStep, Option.some_inj] at hstep
  rw [← hstep]
  exact dir_returned hdir fun d' ↦ dir_of_direct hdir

/-- **The pass-through.** If every call means the same to the handler and to a process for which
the save directory is the root, then the mount shows after any of them what that process has made,
and a call that fails changes nothing. -/
theorem faithful_of_passesThrough (calls : List MountCall) (hdir : s.disk.dir m.saveDir ≠ none)
    (h : AllSteps (mountStep m) (PassesThrough m) s calls) : Faithful m s calls := by
  have hkeep : ∀ s a s', s.disk.dir m.saveDir ≠ none → PassesThrough m s a →
      mountStep m s a = some s' → s'.disk.dir m.saveDir ≠ none :=
    fun s a s' hdir hpass hstep ↦ dir_mountStep hdir hpass hstep
  refine ⟨fun before hbefore ↦ ?_, h.of_invariant hdir hkeep fun s a hdir hpass ↦ ?_⟩
  · have hbefore := h.of_prefix hbefore
    obtain ⟨t, hrun, -⟩ := @run_total _ _ (mountStep m) s before (fun _ _ ↦ True) (fun _ ↦ True)
      trivial (fun _ _ _ ↦ trivial) (fun _ _ _ _ _ ↦ ⟨_, rfl, trivial⟩) trivial
    have hdirect : run (directStep m) s before = some t := by
      rw [← hrun]
      exact (hbefore.run_eq hdir hkeep fun s a hdir hpass ↦
        mountStep_eq_directStep hdir hpass).symm
    exact ⟨t, t, hrun, hdirect, rfl, shows_self (hbefore.run_invariant hdir hkeep hrun)⟩
  · rw [FailsCleanly, handle_eq_direct hdir hpass]
    exact returned_clean

/-- An empty directory `m`, mounted. -/
def emptyMount : Mount := ⟨⟨4096, fun _ _ ↦ none⟩, 0, 1⟩

/-- Its disk. -/
def emptyDisk : MountState := ⟨⟨[.directory 0 [([109], 1)], .directory 0 []]⟩, []⟩

theorem faithful_mkdir_rename : Faithful emptyMount emptyDisk
    [⟨.mkdir [47, 97], true, true, none⟩, ⟨.rename [47, 97] [47, 98], true, true, none⟩] := by
  refine faithful_of_passesThrough _ (by decide) ⟨?_, fun s' hs' ↦ ⟨?_, fun _ _ ↦ trivial⟩⟩
  · exact ⟨rfl, rfl, by decide, fun _ ↦ by decide⟩
  · obtain rfl := Option.some.inj hs'
    exact ⟨rfl, rfl, ⟨rfl, by decide, fun _ ↦ by decide⟩, rfl, by decide, fun _ ↦ by decide⟩

/-- A link to `t` comes back as a link to `.t`. -/
theorem not_faithful_symlink : ¬Faithful emptyMount emptyDisk
    [⟨.symlink [116] [47, 97], true, true, none⟩] := by
  intro h
  obtain ⟨t, t', ht, ht', -, hshows⟩ := h.same _ (List.prefix_refl _)
  obtain rfl := Option.some.inj ht
  obtain rfl := Option.some.inj ht'
  have hlink := (hshows [[97]] 2 (by decide) (by decide) (by decide)).2 [116] (by decide) 100
    (by decide) (by decide)
  exact absurd hlink.2 (by decide)

end ClrDebugInfo
