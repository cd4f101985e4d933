import ClrDebugInfo.Client.TryToGet
import ClrDebugInfo.Fuse.Mount
import ClrDebugInfo.Library.Programs

/-!
# The handlers, call by call

All of `xmp_oper` of `src/fuse.c`, each handler as the calls that it makes one after the other.
`libfuse` runs the handlers on several threads, so between two calls of one of them come calls of
the others, of the daemon and of everybody else.

Three things hold of every such run. The mount passes through: every handler does and returns what
the same calls do in a process for which the save directory is the root, if its paths mean the same
to both. A handler uses no descriptor but the one that it has opened, and closes it. And only
`xmp_getattr` asks the daemon, never for the root or for a path that begins with `/.Trash`.

`xmp_utimens` is the exception to the first two: it gives `utimensat` the number 0, and not
`AT_FDCWD`, so that its path is looked up from whatever is open as descriptor 0.

## Conventions

* What the kernel has of the inodes beside their names (contents, attributes) is of any type, and
  what it does to them is any function of the inode.
* Any call may fail for a reason that is not said. The number of a new descriptor is any free one.
* The entries of a directory are read at one time, and the kernel never asks `xmp_open` for a new
  file. `try_to_get` is one call here; what it does is in `Client.TryToGet`.
* All 26 operations are here. `xmp_utimens`, `xmp_fallocate` and the four on extended attributes
  stand under `HAVE_UTIMENSAT`, `HAVE_POSIX_FALLOCATE` and `HAVE_SETXATTR`, which `configure.ac`
  never defines, so that a table that is built has the other 20.
-/

namespace ClrDebugInfo

namespace Handlers

open Inodes Programs Runs
open FileTree (Name components)

/-! ## The calls -/

/-- `struct stat`: the field that a handler looks at, and the others as they are. -/
structure Stat where
  mtime : Int64 := 0
  others : Bytes := []
  deriving DecidableEq

/-- What is in the buffer of a call or of a handler. -/
inductive Out
  | nothing
  | stat (st : Stat)
  | bytes (bs : Bytes)
  | entries (es : List (Name × Ino × Option Disk.EntryType))
  deriving DecidableEq

def Out.text : Out → Bytes
  | .bytes bs => bs
  | _ => []

def Out.names : Out → List (Name × Ino × Option Disk.EntryType)
  | .entries es => es
  | _ => []

/-- What a call that does not fail returns. -/
structure Reply where
  res : ℕ := 0
  out : Out := .nothing
  deriving DecidableEq

instance : Inhabited Reply := ⟨{}⟩

/-- A call on an inode that a path leads to. -/
inductive InodeCall
  | stat
  | access (mask : ℕ)
  | chmod (mode : ℕ)
  | chown (uid gid : ℕ)
  | truncate (size : ℤ)
  | utimens (atime mtime : ℤ × ℤ)
  | statvfs
  | setxattr (name value : Bytes) (flags : ℕ)
  | getxattr (name : Bytes) (size : ℕ)
  | listxattr (size : ℕ)
  | removexattr (name : Bytes)
  deriving DecidableEq

/-- A call on an open file. -/
inductive FileCall
  | pread (size : ℕ) (offset : ℤ)
  | pwrite (buf : Bytes) (offset : ℤ)
  | fallocate (offset length : ℤ)
  deriving DecidableEq

/-- An open file. -/
structure OpenFile where
  ino : Ino
  flags : ℕ
  deriving DecidableEq

/-- What the kernel does to inodes, of which it has `F`. -/
structure Kernel (F : Type) where
  inode : Disk → F → Ino → InodeCall → Except Errno (F × Reply)
  openFile : Disk → F → OpenFile → Except Errno F
  file : Disk → F → OpenFile → FileCall → Except Errno (F × Reply)
  /-- After names have changed, with the mode and the device number that the call has handed on. -/
  named : F → Disk → Disk → ℕ → ℕ → F

structure World (F : Type) where
  disk : Disk
  files : F
  /-- The descriptors of the process. -/
  fds : ℕ → Option OpenFile

/-- A call of a handler. -/
inductive Sys
  | asprintf
  /-- The call follows a link at the end of the path, or not. -/
  | inode (follow : Bool) (path : Bytes) (c : InodeCall)
  /-- The call looks up a relative path from a descriptor, and follows no link at its end. -/
  | inodeAt (fd : ℕ) (path : Bytes) (c : InodeCall)
  | readlink (path : Bytes) (size : ℕ)
  | name (op : NameOp) (mode rdev : ℕ)
  /-- `open` with `O_CREAT | O_EXCL | O_WRONLY`. -/
  | create (path : Bytes) (mode : ℕ)
  | openFile (path : Bytes) (flags : ℕ)
  | file (fd : ℕ) (c : FileCall)
  | readdir (fd : ℕ)
  | close (fd : ℕ)
  | tryToGet (args : TryArgs)

/-- What is left open of a call: whether it fails for another reason, and a new descriptor. -/
structure Choice where
  fails : Option Errno := none
  fd : ℕ := 0
  deriving DecidableEq

def rdonly : ℕ := 0
def wronly : ℕ := 1
/-- `O_DIRECTORY` -/
def directory : ℕ := 0o200000

/-- Bad file descriptor. -/
def badf : Errno := .other ⟨9, by decide⟩
/-- Operation not supported. -/
def opnotsupp : Errno := .other ⟨95, by decide⟩

section Machine

variable {F : Type} (k : Kernel F) (host : Host) (p : Process)

/-- What a path leads to. -/
def resolve (d : Disk) (follow : Bool) (path : Bytes) : Except Errno Ino :=
  if follow then d.stat host.pathMax p path else d.lstat host.pathMax p path

/-- `O_NOFOLLOW` -/
def nofollow (flags : ℕ) : Bool := flags.testBit 17

/-- What `open` finds. -/
def lookup (d : Disk) (path : Bytes) (flags : ℕ) : Except Errno OpenFile :=
  match resolve host p d (!nofollow flags) path with
  | .error e => .error e
  | .ok i =>
    if nofollow flags ∧ d.entryType i = some .link then .error .loop
    else if flags.testBit 16 ∧ d.dir i = none then .error .notdir
    else .ok ⟨i, flags⟩

/-- The calls that change names. -/
def perform (d : Disk) : NameOp → Except Errno Disk
  | .mknod path type => host.mknod p d path type
  | .mkdir path => host.mkdir p d path
  | .unlink path => host.unlink p d path
  | .rmdir path => host.rmdir p d path
  | .symlink target path => host.symlink p d target path
  | .rename old new => host.rename p d old new
  | .link old new => host.link p d old new

/-- The entries of a directory. -/
def listing (d : Disk) (i : Ino) : Except Errno (List (Name × Ino × Option Disk.EntryType)) :=
  match d.dir i with
  | none => .error .notdir
  | some (parent, entries) =>
    .ok (([46], i, some .directory) :: ([46, 46], parent, some .directory) ::
      entries.map fun e ↦ (e.1, e.2, d.entryType e.2))

/-- What is open under a number. -/
def World.opened (w : World F) (fd : ℕ) : Except Errno OpenFile :=
  match w.fds fd with
  | none => .error badf
  | some f => .ok f

/-- The process as it is for a path that is looked up from a descriptor. -/
def World.startAt (w : World F) (fd : ℕ) (path : Bytes) : Except Errno Process :=
  if path.head? = some 47 then .ok p
  else (w.opened fd).bind fun f ↦
    if w.disk.dir f.ino = none then .error .notdir else .ok { p with cwd := f.ino }

/-- After a call that changes no names and no descriptors. -/
def World.after (w : World F) : Except Errno (F × Reply) → World F × Except Errno Reply
  | .error e => (w, .error e)
  | .ok (files, r) => ({ w with files := files }, .ok r)

/-- A new descriptor, if the number is free. -/
def World.install (w : World F) (fd : ℕ) (f : OpenFile) : Option (World F × Except Errno Reply) :=
  match w.fds fd with
  | some _ => none
  | none => some ({ w with fds := Function.update w.fds fd (some f) }, .ok ⟨fd, .nothing⟩)

/-- A call of the process `p`. -/
def Kernel.call (w : World F) (c : Sys) (x : Choice) : Option (World F × Except Errno Reply) :=
  match c, x.fails with
  -- a descriptor is closed even if `close` fails
  | .close fd, fails =>
    match w.fds fd with
    | none => some (w, .error badf)
    | some _ =>
      some ({ w with fds := Function.update w.fds fd none }, match fails with
        | some e => .error e
        | none => .ok {})
  | _, some e => some (w, .error e)
  | .asprintf, none => some (w.after (.ok (w.files, {})))
  | .tryToGet _, none => some (w.after (.ok (w.files, {})))
  | .inode follow path c, none =>
    some (w.after ((resolve host p w.disk follow path).bind fun i ↦ k.inode w.disk w.files i c))
  | .inodeAt fd path c, none =>
    some (w.after ((w.startAt p fd path).bind fun p ↦
      (resolve host p w.disk false path).bind fun i ↦ k.inode w.disk w.files i c))
  | .readlink path size, none =>
    some (w.after ((w.disk.readlink host.pathMax p path size).map fun text ↦
      (w.files, ⟨text.length, .bytes text⟩)))
  | .file fd c, none =>
    some (w.after ((w.opened fd).bind fun f ↦ k.file w.disk w.files f c))
  | .readdir fd, none =>
    some (w.after ((w.opened fd).bind fun f ↦ (listing w.disk f.ino).map fun es ↦
      (w.files, ⟨0, .entries es⟩)))
  | .name op mode rdev, none =>
    match perform host p w.disk op with
    | .error e => some (w, .error e)
    | .ok d => some (⟨d, k.named w.files w.disk d mode rdev, w.fds⟩, .ok {})
  | .create path mode, none =>
    match host.openExcl p w.disk path with
    | .error e => some (w, .error e)
    | .ok d =>
      World.install ⟨d, k.named w.files w.disk d mode 0, w.fds⟩ x.fd ⟨w.disk.nodes.length, wronly⟩
  | .openFile path flags, none =>
    match (lookup host p w.disk path flags).bind fun f ↦
      (k.openFile w.disk w.files f).map fun files ↦ (f, files) with
    | .error e => some (w, .error e)
    | .ok (f, files) => World.install ⟨w.disk, files, w.fds⟩ x.fd f

end Machine

/-- What others do: anything to names and inodes, but the save directory stays one. -/
def change {F : Type} (m : Mount) (w : World F) (e : Disk × F) : Option (World F) :=
  if e.1.dir m.saveDir = none then none else some ⟨e.1, e.2, w.fds⟩

/-! ## The handlers -/

/-- A handler, which returns a number and has filled a buffer. -/
abbrev Program := Prog Sys (Except Errno Reply) (ℤ × Out)

def returnError (e : Errno) : Program := .ret (-e.code, .nothing)

/-- `if (res == -1) return -errno; return 0;` -/
def returnZero : Except Errno Reply → Program
  | .error e => returnError e
  | .ok r => .ret (0, r.out)

/-- `if (res == -1) return -errno; return res;` -/
def returnRes : Except Errno Reply → Program
  | .error e => returnError e
  | .ok r => .ret (r.res, r.out)

/-- `xmp_make_dotpath`, and what comes after it. -/
def makeDotpath (path : Bytes) (rest : Bytes → Program) : Program :=
  .call .asprintf fun
    | .error _ => returnError .nomem
    | .ok _ => rest (46 :: path)

/-- A handler that makes one call on what a path leads to. -/
def onPath (path : Bytes) (follow : Bool) (c : InodeCall) : Program :=
  makeDotpath path fun newpath ↦ .call (.inode follow newpath c) returnZero

/-- A handler that makes one call that changes names. -/
def naming (path : Bytes) (op : Bytes → NameOp) (mode rdev : ℕ) : Program :=
  makeDotpath path fun newpath ↦ .call (.name (op newpath) mode rdev) returnZero

/-- The same with two paths. -/
def namings (path path' : Bytes) (op : Bytes → Bytes → NameOp) : Program :=
  makeDotpath path fun newfrom ↦ makeDotpath path' fun newto ↦
    .call (.name (op newfrom newto) 0 0) returnZero

/-- `open`, and what comes after it. -/
def openThen (newpath : Bytes) (flags : ℕ) (rest : ℕ → Program) : Program :=
  .call (.openFile newpath flags) fun
    | .error e => returnError e
    | .ok fd => rest fd.res

/-- `close`, whose result is not looked at. -/
def closeThen (fd : ℕ) (rest : Program) : Program := .call (.close fd) fun _ ↦ rest

/-- A handler that opens a file for one call. -/
def withFile (path : Bytes) (flags : ℕ) (c : FileCall)
    (finish : Except Errno Reply → Program) : Program :=
  makeDotpath path fun newpath ↦ openThen newpath flags fun fd ↦
    .call (.file fd c) fun res ↦ closeThen fd (finish res)

/-- The buffer after `lstat`. -/
def filled (st : Stat) : Except Errno Reply → Stat
  | .ok ⟨_, .stat st'⟩ => st'
  | _ => st

/-- `xmp_getattr`. The process that asks is `pid`. -/
def xmpGetattr (path : Bytes) (pid : ℤ) : Program :=
  makeDotpath path fun newpath ↦ .call (.inode false newpath .stat) fun res ↦
    if (bytes "/.Trash").isPrefixOf path then .ret (-Errno.noent.code, .stat (filled {} res))
    else if path = bytes "/" then .ret (0, .stat (filled {} res))
    else
      .call (.tryToGet ⟨path, pid, (filled {} res).mtime⟩) fun _ ↦
        .call (.inode false newpath .stat) fun
          | .error e => .ret (-e.code, .stat (filled {} res))
          | .ok r => .ret (0, .stat (filled (filled {} res) (.ok r)))

def xmpAccess (path : Bytes) (mask : ℕ) : Program := onPath path true (.access mask)

/-- `xmp_readlink`, into a buffer of `size` bytes, at least one. -/
def xmpReadlink (path : Bytes) (size : ℕ) : Program :=
  makeDotpath path fun newpath ↦ .call (.readlink newpath (size - 1)) returnZero

/-- What `filler` has taken, which has room for `room` entries. -/
def taken (room : ℕ) : Out → Out
  | .entries es => .entries (es.take room)
  | out => out

/-- `xmp_readdir` -/
def xmpReaddir (path : Bytes) (room : ℕ) : Program :=
  makeDotpath path fun newpath ↦ openThen newpath (rdonly + directory) fun dp ↦
    .call (.readdir dp) fun res ↦ closeThen dp <|
      match res with
      | .error _ => .ret (0, .nothing)
      | .ok de => .ret (0, taken room de.out)

/-- `xmp_mknod` -/
def xmpMknod (path : Bytes) (type : ModeType) (mode rdev : ℕ) : Program :=
  makeDotpath path fun newpath ↦
    match type with
    | .of .regular => .call (.create newpath mode) fun
      | .error e => returnError e
      | .ok fd => .call (.close fd.res) returnZero
    -- `mkfifo`
    | .of .fifo => .call (.name (.mknod newpath (.of .fifo)) mode 0) returnZero
    | type => .call (.name (.mknod newpath type) mode rdev) returnZero

def xmpMkdir (path : Bytes) (mode : ℕ) : Program := naming path .mkdir mode 0

def xmpUnlink (path : Bytes) : Program := naming path .unlink 0 0

def xmpRmdir (path : Bytes) : Program := naming path .rmdir 0 0

def xmpSymlink (old new : Bytes) : Program := namings old new .symlink

def xmpRename (old new : Bytes) : Program := namings old new .rename

def xmpLink (old new : Bytes) : Program := namings old new .link

def xmpChmod (path : Bytes) (mode : ℕ) : Program := onPath path true (.chmod mode)

/-- `xmp_chown`, by `lchown`. -/
def xmpChown (path : Bytes) (uid gid : ℕ) : Program := onPath path false (.chown uid gid)

def xmpTruncate (path : Bytes) (size : ℤ) : Program := onPath path true (.truncate size)

/-- `xmp_utimens`, by `utimensat(0, newpath, ts, AT_SYMLINK_NOFOLLOW)`. -/
def xmpUtimens (path : Bytes) (atime mtime : ℤ × ℤ) : Program :=
  makeDotpath path fun newpath ↦ .call (.inodeAt 0 newpath (.utimens atime mtime)) returnZero

/-- `xmp_open` -/
def xmpOpen (path : Bytes) (flags : ℕ) : Program :=
  makeDotpath path fun newpath ↦ openThen newpath flags fun fd ↦ closeThen fd (.ret (0, .nothing))

def xmpRead (path : Bytes) (size : ℕ) (offset : ℤ) : Program :=
  withFile path rdonly (.pread size offset) returnRes

def xmpWrite (path buf : Bytes) (offset : ℤ) : Program :=
  withFile path wronly (.pwrite buf offset) returnRes

def xmpStatfs (path : Bytes) : Program := onPath path true .statvfs

/-- `xmp_release` and `xmp_fsync` -/
def stub : Program := .ret (0, .nothing)

/-- `xmp_fallocate`. `posix_fallocate` returns its error, and otherwise nothing. -/
def xmpFallocate (path : Bytes) (mode : ℕ) (offset length : ℤ) : Program :=
  if mode ≠ 0 then returnError opnotsupp
  else withFile path wronly (.fallocate offset length) returnZero

def xmpSetxattr (path name value : Bytes) (flags : ℕ) : Program :=
  onPath path false (.setxattr name value flags)

/-- A handler that makes one call on what a path leads to, and returns a length. -/
def onPathRes (path : Bytes) (c : InodeCall) : Program :=
  makeDotpath path fun newpath ↦ .call (.inode false newpath c) returnRes

def xmpGetxattr (path name : Bytes) (size : ℕ) : Program := onPathRes path (.getxattr name size)

def xmpListxattr (path : Bytes) (size : ℕ) : Program := onPathRes path (.listxattr size)

def xmpRemovexattr (path name : Bytes) : Program := onPath path false (.removexattr name)

/-! ## The table -/

/-- What is asked of the mount. -/
inductive Operation
  | getattr (path : Bytes) (pid : ℤ)
  | access (path : Bytes) (mask : ℕ)
  | readlink (path : Bytes) (size : ℕ)
  | readdir (path : Bytes) (room : ℕ)
  | mknod (path : Bytes) (type : ModeType) (mode rdev : ℕ)
  | mkdir (path : Bytes) (mode : ℕ)
  | symlink (old new : Bytes)
  | unlink (path : Bytes)
  | rmdir (path : Bytes)
  | rename (old new : Bytes)
  | link (old new : Bytes)
  | chmod (path : Bytes) (mode : ℕ)
  | chown (path : Bytes) (uid gid : ℕ)
  | truncate (path : Bytes) (size : ℤ)
  | utimens (path : Bytes) (atime mtime : ℤ × ℤ)
  | openFile (path : Bytes) (flags : ℕ)
  | read (path : Bytes) (size : ℕ) (offset : ℤ)
  | write (path buf : Bytes) (offset : ℤ)
  | statfs (path : Bytes)
  | release
  | fsync
  | fallocate (path : Bytes) (mode : ℕ) (offset length : ℤ)
  | setxattr (path name value : Bytes) (flags : ℕ)
  | getxattr (path name : Bytes) (size : ℕ)
  | listxattr (path : Bytes) (size : ℕ)
  | removexattr (path name : Bytes)

/-- `xmp_oper` -/
def xmpOper : Operation → Program
  | .getattr path pid => xmpGetattr path pid
  | .access path mask => xmpAccess path mask
  | .readlink path size => xmpReadlink path size
  | .readdir path room => xmpReaddir path room
  | .mknod path type mode rdev => xmpMknod path type mode rdev
  | .mkdir path mode => xmpMkdir path mode
  | .symlink old new => xmpSymlink old new
  | .unlink path => xmpUnlink path
  | .rmdir path => xmpRmdir path
  | .rename old new => xmpRename old new
  | .link old new => xmpLink old new
  | .chmod path mode => xmpChmod path mode
  | .chown path uid gid => xmpChown path uid gid
  | .truncate path size => xmpTruncate path size
  | .utimens path atime mtime => xmpUtimens path atime mtime
  | .openFile path flags => xmpOpen path flags
  | .read path size offset => xmpRead path size offset
  | .write path buf offset => xmpWrite path buf offset
  | .statfs path => xmpStatfs path
  | .release => stub
  | .fsync => stub
  | .fallocate path mode offset length => xmpFallocate path mode offset length
  | .setxattr path name value flags => xmpSetxattr path name value flags
  | .getxattr path name size => xmpGetxattr path name size
  | .listxattr path size => xmpListxattr path size
  | .removexattr path name => xmpRemovexattr path name

/-! ## What the handlers call -/

/-- The paths that a call hands to the kernel. -/
def pathsOf : NameOp → List Bytes
  | .mknod path _ | .mkdir path | .unlink path | .rmdir path => [path]
  | .symlink old new | .rename old new | .link old new => [old, new]

def Sys.paths : Sys → List Bytes
  | .inode _ path _ | .inodeAt _ path _ => [path]
  | .readlink path _ | .create path _ | .openFile path _ => [path]
  | .name op _ _ => pathsOf op
  | _ => []

/-- What the handler of an operation may call. -/
structure Calls (op : Operation) (c : Sys) : Prop where
  dotted : ∀ q ∈ c.paths, q.head? = some 46
  asks : ∀ args, c = .tryToGet args → op = .getattr args.path args.pid ∧
    ¬bytes "/.Trash" <+: args.path ∧ args.path ≠ bytes "/"
  zero : ∀ fd q i, c = .inodeAt fd q i → fd = 0 ∧ ∃ path atime mtime, op = .utimens path atime mtime

/-- A call whose result is a new descriptor. -/
def opens : Prog.Use ℕ (Except Errno Reply) :=
  .acquire fun
    | .error _ => none
    | .ok r => some r.res

/-- What a call does to the descriptors that handlers open. -/
def use : Sys → Prog.Use ℕ (Except Errno Reply)
  | .create _ _ | .openFile _ _ => opens
  | .file fd _ | .readdir fd => .use fd
  | .close fd => .release fd
  | _ => .nothing

/-- A part of the handler of an operation: it calls what it may, at most `n` times, and closes the
descriptor that it has at the beginning, and any other that it opens. -/
structure Sound (op : Operation) (n : ℕ) (own : Option ℕ) (p : Program) : Prop where
  calls : p.All (Calls op)
  within : p.Within n
  tidy : p.Tidy use own

section Rules

variable {op : Operation} {n : ℕ} {own : Option ℕ} {c : Sys} {k : Except Errno Reply → Program}
  {path path' : Bytes} {rest : Bytes → Program}

private theorem sound_ret (r : ℤ × Out) : Sound op n none (.ret r) := ⟨trivial, trivial, rfl⟩

private theorem sound_returnZero (res : Except Errno Reply) : Sound op n none (returnZero res) := by
  cases res with
  | error e => exact sound_ret _
  | ok r => exact sound_ret _

private theorem sound_returnRes (res : Except Errno Reply) : Sound op n none (returnRes res) := by
  cases res with
  | error e => exact sound_ret _
  | ok r => exact sound_ret _

private theorem sound_call (hc : Calls op c) (huse : use c = .nothing)
    (h : ∀ a, Sound op n own (k a)) : Sound op (n + 1) own (.call c k) := by
  refine ⟨⟨hc, fun a ↦ (h a).calls⟩, fun a ↦ (h a).within, ?_⟩
  rw [Prog.Tidy, huse]
  exact fun a ↦ (h a).tidy

private theorem sound_opens (hc : Calls op c) (huse : use c = opens)
    (herror : ∀ e, Sound op n none (k (.error e)))
    (hok : ∀ r : Reply, Sound op n (some r.res) (k (.ok r))) :
    Sound op (n + 1) none (.call c k) := by
  refine ⟨⟨hc, ?_⟩, ?_, ?_⟩
  · rintro (e | r)
    · exact (herror e).calls
    · exact (hok r).calls
  · rintro (e | r)
    · exact (herror e).within
    · exact (hok r).within
  · rw [Prog.Tidy, huse]
    refine ⟨rfl, ?_⟩
    rintro (e | r)
    · exact (herror e).tidy
    · exact (hok r).tidy

private theorem sound_use {fd : ℕ} (hc : Calls op c) (huse : use c = .use fd)
    (h : ∀ a, Sound op n (some fd) (k a)) : Sound op (n + 1) (some fd) (.call c k) := by
  refine ⟨⟨hc, fun a ↦ (h a).calls⟩, fun a ↦ (h a).within, ?_⟩
  rw [Prog.Tidy, huse]
  exact ⟨rfl, fun a ↦ (h a).tidy⟩

private theorem calls_of_ne (hpaths : ∀ q ∈ c.paths, q.head? = some 46)
    (hc : (∀ args, c ≠ .tryToGet args) ∧ ∀ fd q i, c ≠ .inodeAt fd q i) : Calls op c :=
  ⟨hpaths, fun args h ↦ absurd h (hc.1 args), fun fd q i h ↦ absurd h (hc.2 fd q i)⟩

private theorem calls_of_path (hpaths : c.paths = [46 :: path])
    (hc : (∀ args, c ≠ .tryToGet args) ∧ ∀ fd q i, c ≠ .inodeAt fd q i) : Calls op c :=
  calls_of_ne (by simp [hpaths]) hc

private theorem sound_close {fd : ℕ} (h : ∀ a, Sound op n none (k a)) :
    Sound op (n + 1) (some fd) (.call (.close fd) k) := by
  refine ⟨⟨calls_of_ne (by simp [Sys.paths]) (by simp), fun a ↦ (h a).calls⟩,
    fun a ↦ (h a).within, ?_⟩
  rw [Prog.Tidy, use]
  exact ⟨rfl, fun a ↦ (h a).tidy⟩

private theorem sound_openThen {flags : ℕ} {next : ℕ → Program}
    (h : ∀ fd, Sound op n (some fd) (next fd)) :
    Sound op (n + 1) none (openThen (46 :: path) flags next) :=
  sound_opens (calls_of_path rfl (by simp)) rfl (fun _ ↦ sound_ret _) fun r ↦ h r.res

private theorem sound_closeThen {fd : ℕ} {p : Program} (h : Sound op n none p) :
    Sound op (n + 1) (some fd) (closeThen fd p) :=
  sound_close fun _ ↦ h

private theorem sound_makeDotpath (h : Sound op n none (rest (46 :: path))) :
    Sound op (n + 1) none (makeDotpath path rest) := by
  refine sound_call (calls_of_ne (by simp [Sys.paths]) (by simp)) rfl ?_
  rintro (e | r)
  · exact sound_ret _
  · exact h

/-! ## Every handler -/

private theorem sound_onPath (follow : Bool) (c : InodeCall) :
    Sound op 4 none (onPath path follow c) :=
  sound_makeDotpath (sound_call (calls_of_path rfl (by simp)) rfl sound_returnZero)

private theorem sound_onPathRes (c : InodeCall) : Sound op 4 none (onPathRes path c) :=
  sound_makeDotpath (sound_call (calls_of_path rfl (by simp)) rfl sound_returnRes)

private theorem sound_naming {f : Bytes → NameOp} (hf : ∀ q, pathsOf (f q) = [q]) (mode rdev : ℕ) :
    Sound op 4 none (naming path f mode rdev) :=
  sound_makeDotpath (sound_call (calls_of_path (hf _) (by simp)) rfl sound_returnZero)

private theorem sound_namings {f : Bytes → Bytes → NameOp}
    (hf : ∀ q q', pathsOf (f q q') = [q, q']) : Sound op 4 none (namings path path' f) := by
  refine sound_makeDotpath (sound_makeDotpath (sound_call (calls_of_ne ?_ (by simp)) rfl
    sound_returnZero))
  simp [Sys.paths, hf]

private theorem sound_withFile (flags : ℕ) (c : FileCall) {finish : Except Errno Reply → Program}
    (hfinish : ∀ res, Sound op 0 none (finish res)) :
    Sound op 4 none (withFile path flags c finish) :=
  sound_makeDotpath (sound_openThen fun _ ↦
    sound_use (calls_of_ne (by simp [Sys.paths]) (by simp)) rfl fun res ↦
      sound_closeThen (hfinish res))

private theorem sound_xmpGetattr (path : Bytes) (pid : ℤ) :
    Sound (.getattr path pid) 4 none (xmpGetattr path pid) := by
  refine sound_makeDotpath (sound_call (calls_of_path rfl (by simp)) rfl fun res ↦ ?_)
  split_ifs with htrash hroot
  · exact sound_ret _
  · exact sound_ret _
  -- only here the daemon is asked
  refine sound_call ⟨by simp [Sys.paths], ?_, by simp⟩ rfl fun _ ↦
    sound_call (calls_of_path rfl (by simp)) rfl ?_
  · rintro args hargs
    obtain rfl := Sys.tryToGet.inj hargs
    exact ⟨rfl, fun h ↦ htrash (List.isPrefixOf_iff_prefix.mpr h), hroot⟩
  · rintro (e | r)
    · exact sound_ret _
    · exact sound_ret _

private theorem sound_xmpReadlink (path : Bytes) (size : ℕ) :
    Sound op 4 none (xmpReadlink path size) :=
  sound_makeDotpath (sound_call (calls_of_path rfl (by simp)) rfl sound_returnZero)

private theorem sound_xmpReaddir (path : Bytes) (room : ℕ) :
    Sound op 4 none (xmpReaddir path room) := by
  refine sound_makeDotpath (sound_openThen fun dp ↦
    sound_use (calls_of_ne (by simp [Sys.paths]) (by simp)) rfl fun res ↦ sound_closeThen ?_)
  cases res with
  | error e => exact sound_ret _
  | ok de => exact sound_ret _

private theorem sound_xmpMknod (path : Bytes) (type : ModeType) (mode rdev : ℕ) :
    Sound op 4 none (xmpMknod path type mode rdev) := by
  have hname : ∀ type rdev, Sound op 3 none
      (.call (.name (.mknod (46 :: path) type) mode rdev) returnZero) := fun type rdev ↦
    sound_call (calls_of_path rfl (by simp)) rfl sound_returnZero
  refine sound_makeDotpath ?_
  cases type with
  | of kind =>
    cases kind with
    | regular =>
      exact sound_opens (calls_of_path rfl (by simp)) rfl (fun e ↦ sound_ret _) fun fd ↦
        sound_close sound_returnZero
    | _ => exact hname _ _
  | _ => exact hname _ _

private theorem sound_xmpUtimens (path : Bytes) (atime mtime : ℤ × ℤ) :
    Sound (.utimens path atime mtime) 4 none (xmpUtimens path atime mtime) := by
  refine sound_makeDotpath (sound_call ⟨by simp [Sys.paths], by simp, ?_⟩ rfl sound_returnZero)
  rintro fd q i h
  obtain ⟨rfl, -, -⟩ := Sys.inodeAt.inj h
  exact ⟨rfl, path, atime, mtime, rfl⟩

private theorem sound_xmpOpen (path : Bytes) (flags : ℕ) : Sound op 4 none (xmpOpen path flags) :=
  sound_makeDotpath (sound_openThen fun _ ↦ sound_closeThen (sound_ret _))

private theorem sound_xmpFallocate (path : Bytes) (mode : ℕ) (offset length : ℤ) :
    Sound op 4 none (xmpFallocate path mode offset length) := by
  rw [xmpFallocate]
  split_ifs
  · exact sound_ret _
  · exact sound_withFile _ _ sound_returnZero

/-- **The table.** -/
theorem sound_xmpOper (op : Operation) : Sound op 4 none (xmpOper op) := by
  cases op with
  | getattr path pid => exact sound_xmpGetattr path pid
  | readlink path size => exact sound_xmpReadlink path size
  | readdir path room => exact sound_xmpReaddir path room
  | mknod path type mode rdev => exact sound_xmpMknod path type mode rdev
  | openFile path flags => exact sound_xmpOpen path flags
  | utimens path atime mtime => exact sound_xmpUtimens path atime mtime
  | fallocate path mode offset length => exact sound_xmpFallocate path mode offset length
  | read path size offset => exact sound_withFile _ _ sound_returnRes
  | write path buf offset => exact sound_withFile _ _ sound_returnRes
  | symlink old new => exact sound_namings fun _ _ ↦ rfl
  | rename old new => exact sound_namings fun _ _ ↦ rfl
  | link old new => exact sound_namings fun _ _ ↦ rfl
  | mkdir path mode => exact sound_naming (fun _ ↦ rfl) _ _
  | unlink path => exact sound_naming (fun _ ↦ rfl) _ _
  | rmdir path => exact sound_naming (fun _ ↦ rfl) _ _
  | release => exact sound_ret _
  | fsync => exact sound_ret _
  | getxattr path name size => exact sound_onPathRes _
  | listxattr path size => exact sound_onPathRes _
  | _ => exact sound_onPath _ _

end Rules

end Handlers

end ClrDebugInfo
