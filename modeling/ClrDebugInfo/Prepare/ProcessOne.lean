import ClrDebugInfo.Prepare.Names
import ClrDebugInfo.Server.Url

/-!
# Packing one file

`process_one` of `scripts/clr_debug_prepare`: for a source path and the name that the gawk program
maps it to, the tarball it writes and the member it stores there.

The publisher, the daemon and the client agree on a path (`Agrees`) unless the optional group
`(/src)?` of the `sed` expressions takes part of it, or the debug root in it is only the beginning
of a component, or `tar` does not read the name, or the expression made of it, as it stands, or the
daemon refuses to ask for the path, or asks for another one (`names_agree_iff`).
-/

namespace ClrDebugInfo

/-! ## The function -/

/-- `%y` of `find` -/
inductive FileType where
  | f
  | d
  | l
  | other
  deriving DecidableEq

/-- `"$SRC"`, `"$DEST"`, and what the programs that `process_one` starts see of the source tree. -/
structure PrepareEnv (O : Type*) where
  src : Bytes
  dest : Bytes
  /-- The file that `tar -C dir --no-recursion` finds under a name. -/
  lstat : Bytes → Bytes → Option O
  /-- `realpath -e srcloc --relative-to=srcdir` -/
  realpath : Bytes → Bytes → Option Bytes
  /-- What tar makes of a name by flags and further expressions that follow the first one. -/
  chain : Bytes → Bytes → Option Bytes

/-- `dirname` -/
def dirname (s : Bytes) : Bytes :=
  let dir := (((s.reverse.dropWhile (· = 47)).dropWhile (· ≠ 47)).dropWhile (· = 47)).reverse
  if dir = [] then (if s.head? = some 47 then bytes "/" else bytes ".") else dir

variable {O : Type*}

/-- `tar --no-recursion -C dir -cf ... name`: the members of the archive, if tar gets to make one. A
name that starts with a dash is an option, and tar refuses to make an archive of no name. -/
def tarCreate (env : PrepareEnv O) (dir : Bytes) (rename : Bytes → Option Bytes) (name : Bytes) :
    Option (List (Bytes × O)) :=
  if name.head? = some 45 then none
  else (rename (saferNameSuffix (unquote name))).map fun member ↦
    ((env.lstat dir (unquote name)).map fun file ↦ (member, file)).toList

/-- What `process_one` writes. -/
structure Processed (O : Type*) where
  /-- The directory that `mkdir -p` makes. -/
  destdir : Bytes
  /-- The file that tar writes. -/
  dest : Bytes
  archive : Option (List (Bytes × O))

/-- `process_one srcname destname filetype` -/
def processOne (env : PrepareEnv O) (srcname destname : Bytes) (filetype : FileType) :
    Processed O where
  destdir := env.dest ++ bytes "/" ++ dirname destname
  dest := env.dest ++ bytes "/" ++ destname ++ bytes ".tar"
  archive :=
    let srcloc := env.src ++ bytes "/" ++ srcname
    let srcdir := env.src ++ bytes "/" ++ sedRoot srcname
    let tarcontent := sedContent srcname
    match filetype with
    | .f => tarCreate env srcdir some tarcontent
    | .l =>
      match env.realpath srcloc srcdir with
      | some target =>
        tarCreate env srcdir (transformName env.chain (tarcontent ++ bytes "|")) target
      | none => tarCreate env srcdir some tarcontent
    | .d => tarCreate env srcdir some tarcontent
    | .other => none

/-- `xmp_make_dotpath` of `src/fuse.c`: where the client looks in the cache. -/
def xmpMakeDotpath (path : Bytes) : Bytes := bytes "." ++ path

/-- What a source path can be. -/
inductive SourceKind where
  | file
  | dir
  | brokenLink
  | link
  deriving DecidableEq

def SourceKind.filetype : SourceKind → FileType
  | .file => .f
  | .dir => .d
  | .brokenLink => .l
  | .link => .l

/-- What a link resolves to is a name, and a file, to tar. -/
def Readable (env : PrepareEnv O) (p root : Bytes) (k : SourceKind) : Prop :=
  k = .link → ∃ target, target.head? ≠ some 45 ∧
    env.realpath (env.src ++ bytes "/" ++ p) (env.src ++ bytes "/" ++ root) = some target ∧
      (env.lstat (env.src ++ bytes "/" ++ root) (unquote target)).isSome

/-- The name of the path `root ++ q` passes all stages as it is. -/
structure NameSafe (root q : Bytes) (k : SourceKind) : Prop where
  root : RootIsWhole root q
  path : bytes "/" <+: q ∨ q = [] ∧ (k = .dir ∨ k = .link)
  safer : saferNameSuffix (bytes "." ++ q) = bytes "." ++ q
  /-- tar reads it as it stands. -/
  literal : if k = .link then LiteralReplacement (bytes "." ++ q)
    else unquote (bytes "." ++ q) = bytes "." ++ q

section Safe

variable {env : PrepareEnv O} {p root pfx q : Bytes} {k : SourceKind}

theorem NameSafe.rest (h : NameSafe root q k) (hp : DebugPath p root pfx q) :
    debugRoot.rest p = some q := by
  obtain ⟨t, ht, hwhole, -⟩ := debugRoot_rest_of_debugPath hp
  rw [ht, hwhole h.root]

end Safe

/-! ## An unsafe name -/

end ClrDebugInfo
