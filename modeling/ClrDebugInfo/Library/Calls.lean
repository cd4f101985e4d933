import ClrDebugInfo.Library.Inodes

/-!
# Calls that change names

Each call finds the places of its paths and decides on one edit of the table, or on an error. The
file system may refuse an edit for reasons of its own, such as no space; a refused edit changes
nothing. What is decided depends on the places only, so two processes that mean the same place do
the same (`bind_locate_dot`).

No edit makes a directory anything else (`dir_apply`).
-/

namespace Inodes

open FileTree (Name Path components)

/-! ## Edits -/

inductive Edit
  /-- A new inode under a new name. -/
  | add (dir : Ino) (n : Name) (node : Node)
  /-- A new name. -/
  | link (dir : Ino) (n : Name) (i : Ino)
  | remove (dir : Ino) (n : Name)
  /-- A name in another place, in which it may take the place of a name. -/
  | move (dir : Ino) (n : Name) (dir' : Ino) (n' : Name) (i : Ino)
  | nothing

/-- A directory with other entries. -/
def Node.mapEntries (f : List (Name × Ino) → List (Name × Ino)) : Node → Node
  | .directory parent entries => .directory parent (f entries)
  | node => node

/-- A directory in another one. -/
def Node.moveTo (parent : Ino) : Node → Node
  | .directory _ entries => .directory parent entries
  | node => node

namespace Disk

/-- The disk with an entry of a directory removed, and others added. -/
def setEntries (d : Disk) (dir : Ino) (n : Name) (new : List (Name × Ino)) : Disk :=
  ⟨d.nodes.modify dir (Node.mapEntries fun entries ↦ entries.filter (·.1 ≠ n) ++ new)⟩

def apply (d : Disk) : Edit → Disk
  | .add dir n node => ⟨(d.setEntries dir n [(n, d.nodes.length)]).nodes ++ [node]⟩
  | .link dir n i => d.setEntries dir n [(n, i)]
  | .remove dir n => d.setEntries dir n []
  | .move dir n dir' n' i =>
    ⟨((d.setEntries dir n []).setEntries dir' n' [(n', i)]).nodes.modify i (Node.moveTo dir')⟩
  | .nothing => d

variable {d : Disk} {i : Ino}

theorem dir_modify {f : Node → Node} (hf : ∀ parent entries, ∃ parent' entries',
    f (.directory parent entries) = .directory parent' entries') (j : Ino)
    (h : d.dir i ≠ none) : Disk.dir ⟨d.nodes.modify j f⟩ i ≠ none := by
  obtain ⟨parent, entries, hnode⟩ := dir_ne_none_iff.mp h
  rw [dir_ne_none_iff]
  by_cases hj : j = i
  · obtain ⟨parent', entries', hdir⟩ := hf parent entries
    refine ⟨parent', entries', ?_⟩
    rw [hj, List.getElem?_modify_eq, hnode]
    exact congrArg some hdir
  · exact ⟨parent, entries, by rw [List.getElem?_modify_ne _ _ hj, hnode]⟩

theorem dir_setEntries (h : d.dir i ≠ none) (dir : Ino) (n : Name) (new : List (Name × Ino)) :
    (d.setEntries dir n new).dir i ≠ none :=
  dir_modify (fun _ _ ↦ ⟨_, _, rfl⟩) dir h

/-- **A directory stays one.** -/
theorem dir_apply (h : d.dir i ≠ none) (e : Edit) : (d.apply e).dir i ≠ none := by
  cases e with
  | add dir n node =>
    obtain ⟨parent, entries, hnode⟩ :=
      dir_ne_none_iff.mp (dir_setEntries h dir n [(n, d.nodes.length)])
    rw [dir_ne_none_iff]
    have hlt := (List.getElem?_eq_some_iff.mp hnode).1
    exact ⟨parent, entries, (List.getElem?_append_left hlt).trans hnode⟩
  | link dir n i => exact dir_setEntries h dir n _
  | remove dir n => exact dir_setEntries h dir n _
  | move dir n dir' n' i =>
    exact dir_modify (fun _ _ ↦ ⟨_, _, rfl⟩) i (dir_setEntries (dir_setEntries h dir n _) dir' n' _)
  | nothing => exact h

/-! ## What a call decides -/

/-- Whether `i` is the directory `j` or above it, at most `fuel` levels up. -/
def above (d : Disk) (i : Ino) : ℕ → Ino → Bool
  | 0, j => i = j
  | fuel + 1, j =>
    i = j || match d.dir j with
      | none => false
      | some (parent, _) => above d i fuel parent

/-- A new entry. Only a directory may have slashes after its name. -/
def planNew (d : Disk) (node : Loc → Node) (loc : Loc) : Except Errno Edit :=
  match loc.last with
  | .name n =>
    if d.entry loc.dir n ≠ none then .error .exist
    else
      match node loc with
      | .directory parent entries => .ok (.add loc.dir n (.directory parent entries))
      | node => if loc.slash then .error .noent else .ok (.add loc.dir n node)
  | _ => .error .exist

/-- `open` with `O_CREAT | O_EXCL`. -/
def planOpen (d : Disk) (loc : Loc) : Except Errno Edit :=
  match loc.last with
  | .name n =>
    if loc.slash then .error .isdir
    else if d.entry loc.dir n ≠ none then .error .exist
    else .ok (.add loc.dir n (.file .regular))
  | _ => .error .exist

def planLink (d : Disk) (i : Ino) (loc : Loc) : Except Errno Edit :=
  match loc.last with
  | .name n =>
    if d.entry loc.dir n ≠ none then .error .exist
    else if loc.slash then .error .noent
    else if d.dir i ≠ none then .error .perm
    else .ok (.link loc.dir n i)
  | _ => .error .exist

def planUnlink (d : Disk) (loc : Loc) : Except Errno Edit :=
  match loc.last with
  | .name n =>
    match d.entry loc.dir n with
    | none => .error .noent
    | some i =>
      if d.dir i ≠ none then .error .isdir
      else if loc.slash then .error .notdir
      else .ok (.remove loc.dir n)
  | _ => .error .isdir

def planRmdir (d : Disk) (loc : Loc) : Except Errno Edit :=
  match loc.last with
  | .name n =>
    match d.entry loc.dir n with
    | none => .error .noent
    | some i =>
      match d.dir i with
      | none => .error .notdir
      | some (_, []) => .ok (.remove loc.dir n)
      | some _ => .error .notempty
  | .dot => .error .inval
  | .dotDot => .error .notempty
  | .root => .error .busy

/-- `rename`. The new name may be that of a file, if the old one is, or of an empty directory. -/
def planRename (d : Disk) (old new : Loc) : Except Errno Edit :=
  match old.last, new.last with
  | .name n, .name n' =>
    match d.entry old.dir n with
    | none => .error .noent
    | some i =>
      if d.dir i = none ∧ (old.slash ∨ new.slash) then .error .notdir
      else if d.above i d.nodes.length new.dir then .error .inval
      else
        match d.entry new.dir n' with
        | none => .ok (.move old.dir n new.dir n' i)
        | some j =>
          if d.above j d.nodes.length old.dir then .error .notempty
          else if j = i then .ok .nothing
          else
            match d.dir i, d.dir j with
            | none, none => .ok (.move old.dir n new.dir n' i)
            | none, some _ => .error .isdir
            | some _, none => .error .notdir
            | some _, some (_, []) => .ok (.move old.dir n new.dir n' i)
            | some _, some _ => .error .notempty
  | _, _ => .error .busy

end Disk

/-! ## The calls -/

/-- The file type that is asked of `mknod`. -/
inductive ModeType
  | of (type : FileType)
  /-- No type, which stands for a regular file. -/
  | zero
  | directory
  | other
  deriving DecidableEq

/-- What a system is like: how long a path may be with its NUL, and what the file system refuses. -/
structure Host where
  pathMax : ℕ
  refuse : Disk → Edit → Option Errno

namespace Host

/-- An edit, unless it is refused. -/
def commit (host : Host) (d : Disk) : Edit → Except Errno Disk
  | .nothing => .ok d
  | e =>
    match host.refuse d e with
    | some err => .error err
    | none => .ok (d.apply e)

variable (host : Host) (p : Process) (d : Disk)

def mkdir (path : List UInt8) : Except Errno Disk :=
  ((d.locate host.pathMax p path).bind (d.planNew fun loc ↦ .directory loc.dir [])).bind
    (host.commit d)

def mknod (path : List UInt8) : ModeType → Except Errno Disk
  | .of type => ((d.locate host.pathMax p path).bind (d.planNew fun _ ↦ .file type)).bind
      (host.commit d)
  | .zero => ((d.locate host.pathMax p path).bind (d.planNew fun _ ↦ .file .regular)).bind
      (host.commit d)
  | .directory => .error .perm
  | .other => .error .inval

/-- `open` of a new regular file. -/
def openExcl (path : List UInt8) : Except Errno Disk :=
  ((d.locate host.pathMax p path).bind d.planOpen).bind (host.commit d)

def unlink (path : List UInt8) : Except Errno Disk :=
  ((d.locate host.pathMax p path).bind d.planUnlink).bind (host.commit d)

def rmdir (path : List UInt8) : Except Errno Disk :=
  ((d.locate host.pathMax p path).bind d.planRmdir).bind (host.commit d)

def symlink (target path : List UInt8) : Except Errno Disk :=
  if target = [] then .error .noent
  else if host.pathMax ≤ target.length then .error .nametoolong
  else
    ((d.locate host.pathMax p path).bind (d.planNew fun _ ↦ .link target)).bind (host.commit d)

def rename (old new : List UInt8) : Except Errno Disk :=
  ((d.locate host.pathMax p old).bind fun loc ↦
    (d.locate host.pathMax p new).bind (d.planRename loc)).bind (host.commit d)

def link (old new : List UInt8) : Except Errno Disk :=
  ((d.lstat host.pathMax p old).bind fun i ↦
    (d.locate host.pathMax p new).bind (d.planLink i)).bind (host.commit d)

/-! ## Two processes -/

/-- A path leads to the same place from the working directory `c` and from the root `c`, or is too
long for both. -/
structure Inside (host : Host) (d : Disk) (root c : Ino) (path : List UInt8) : Prop where
  absolute : path.head? = some 47
  /-- The path is not too long by the dot alone. -/
  room : path.length + 1 ≠ host.pathMax
  stays : path.length < host.pathMax → d.stays root c 40 c (components path).dropLast = true

variable {host d} {root c : Ino} {path path' target : List UInt8}

/-- **One place, one decision.** -/
theorem bind_locate_dot {α : Type} (hc : d.dir c ≠ none) (h : Inside host d root c path)
    (plan : Loc → Except Errno α)
    (hplan : components path = [] → ∀ slash, plan ⟨c, .dot, slash⟩ = plan ⟨c, .root, slash⟩) :
    (d.locate host.pathMax ⟨root, c⟩ (46 :: path)).bind plan =
      (d.locate host.pathMax ⟨c, c⟩ path).bind plan := by
  have hroom := h.room
  by_cases hlen : path.length < host.pathMax
  · have hshort : path.length + 1 < host.pathMax := by omega
    rcases Disk.locate_dot hc h.absolute hshort (h.stays hlen) with
      ⟨-, hsame⟩ | ⟨hnil, slash, hdot, hroot⟩
    · rw [hsame]
    · rw [hdot, hroot]
      exact hplan hnil slash
  · have hlong : host.pathMax ≤ (46 :: path).length := by
      rw [List.length_cons]
      omega
    rw [Disk.locate_of_long _ hlong (List.cons_ne_nil _ _),
      Disk.locate_of_long _ (not_lt.mp hlen) (Disk.ne_nil_of_absolute h.absolute)]

theorem mkdir_dot (hc : d.dir c ≠ none) (h : Inside host d root c path) :
    host.mkdir ⟨root, c⟩ d (46 :: path) = host.mkdir ⟨c, c⟩ d path := by
  rw [mkdir, mkdir, bind_locate_dot hc h _ fun _ _ ↦ rfl]

theorem mknod_dot (hc : d.dir c ≠ none) (h : Inside host d root c path) (type : ModeType) :
    host.mknod ⟨root, c⟩ d (46 :: path) type = host.mknod ⟨c, c⟩ d path type := by
  match type with
  | .of type => rw [mknod, mknod, bind_locate_dot hc h _ fun _ _ ↦ rfl]
  | .zero => rw [mknod, mknod, bind_locate_dot hc h _ fun _ _ ↦ rfl]
  | .directory => rfl
  | .other => rfl

theorem openExcl_dot (hc : d.dir c ≠ none) (h : Inside host d root c path) :
    host.openExcl ⟨root, c⟩ d (46 :: path) = host.openExcl ⟨c, c⟩ d path := by
  rw [openExcl, openExcl, bind_locate_dot hc h _ fun _ _ ↦ rfl]

theorem openExcl_eq_mknod {p : Process} (hslash : path.getLast? ≠ some 47) :
    host.openExcl p d path = host.mknod p d path (.of .regular) := by
  rw [openExcl, mknod]
  cases hl : d.locate host.pathMax p path with
  | error e => rfl
  | ok l =>
    have hplan : d.planOpen l = d.planNew (fun _ ↦ .file .regular) l := by
      have hl := Disk.locate_slash hl
      rw [Disk.planOpen, Disk.planNew, hl, decide_eq_false hslash]
      cases l.last with
      | name n => rfl
      | dot => rfl
      | dotDot => rfl
      | root => rfl
    rw [Except.bind, Except.bind, hplan]

theorem unlink_dot (hc : d.dir c ≠ none) (h : Inside host d root c path) :
    host.unlink ⟨root, c⟩ d (46 :: path) = host.unlink ⟨c, c⟩ d path := by
  rw [unlink, unlink, bind_locate_dot hc h _ fun _ _ ↦ rfl]

theorem rmdir_dot (hc : d.dir c ≠ none) (h : Inside host d root c path)
    (hpath : components path ≠ []) :
    host.rmdir ⟨root, c⟩ d (46 :: path) = host.rmdir ⟨c, c⟩ d path := by
  rw [rmdir, rmdir, bind_locate_dot hc h _ fun hnil ↦ absurd hnil hpath]

theorem symlink_dot (hc : d.dir c ≠ none) (h : Inside host d root c path) :
    host.symlink ⟨root, c⟩ d target (46 :: path) = host.symlink ⟨c, c⟩ d target path := by
  rw [symlink, symlink, bind_locate_dot hc h _ fun _ _ ↦ rfl]

theorem rename_dot (hc : d.dir c ≠ none) (h : Inside host d root c path)
    (h' : Inside host d root c path') :
    host.rename ⟨root, c⟩ d (46 :: path) (46 :: path') = host.rename ⟨c, c⟩ d path path' := by
  have hnew : ∀ old, (d.locate host.pathMax ⟨root, c⟩ (46 :: path')).bind (d.planRename old) =
      (d.locate host.pathMax ⟨c, c⟩ path').bind (d.planRename old) := by
    intro old
    refine bind_locate_dot hc h' _ fun _ _ ↦ ?_
    rw [Disk.planRename, Disk.planRename]
    cases old.last with
    | name n => rfl
    | dot => rfl
    | dotDot => rfl
    | root => rfl
  rw [rename, rename]
  simp only [hnew]
  rw [bind_locate_dot hc h]
  intro _ slash
  cases d.locate host.pathMax ⟨c, c⟩ path' with
  | error e => rfl
  | ok l => rfl

theorem Inside.stat_dot (h : Inside host d root c path) (hc : d.dir c ≠ none)
    (hstays : d.stays root c 40 c (components path) = true) :
    d.stat host.pathMax ⟨root, c⟩ (46 :: path) = d.stat host.pathMax ⟨c, c⟩ path := by
  have hroom := h.room
  by_cases hlen : path.length < host.pathMax
  · exact Disk.stat_dot hc h.absolute (by omega) hstays
  · have hlong : host.pathMax ≤ (46 :: path).length := by
      rw [List.length_cons]
      omega
    rw [Disk.stat, Disk.stat, if_neg (List.cons_ne_nil _ _), if_pos hlong,
      if_neg (Disk.ne_nil_of_absolute h.absolute), if_pos (not_lt.mp hlen)]

theorem Inside.lstat_dot (h : Inside host d root c path) (hc : d.dir c ≠ none)
    (hend : Disk.lastFollowed path = true → d.stays root c 40 c (components path) = true) :
    d.lstat host.pathMax ⟨root, c⟩ (46 :: path) = d.lstat host.pathMax ⟨c, c⟩ path := by
  have hroom := h.room
  by_cases hlen : path.length < host.pathMax
  · exact Disk.lstat_dot hc h.absolute (by omega) (h.stays hlen) hend
  · have hlong : host.pathMax ≤ (46 :: path).length := by
      rw [List.length_cons]
      omega
    rw [Disk.lstat, Disk.lstat, Disk.locate_of_long _ hlong (List.cons_ne_nil _ _),
      Disk.locate_of_long _ (not_lt.mp hlen) (Disk.ne_nil_of_absolute h.absolute)]

theorem link_dot (hc : d.dir c ≠ none) (h : Inside host d root c path)
    (hend : Disk.lastFollowed path = true → d.stays root c 40 c (components path) = true)
    (h' : Inside host d root c path') :
    host.link ⟨root, c⟩ d (46 :: path) (46 :: path') = host.link ⟨c, c⟩ d path path' := by
  rw [link, link, h.lstat_dot hc hend]
  simp only [fun i ↦ bind_locate_dot hc h' (d.planLink i) fun _ _ ↦ rfl]

/-! ## What is left of a directory -/

theorem commit_eq_apply {e : Edit} {d' : Disk} (h : host.commit d e = .ok d') : d' = d.apply e := by
  have hrefuse : ∀ r : Option Errno, (match r with
      | some err => Except.error err
      | none => Except.ok (d.apply e)) = Except.ok d' → d' = d.apply e := by
    intro r hr
    cases r with
    | none => exact (Except.ok.inj hr).symm
    | some err => exact absurd hr (by simp)
  cases e with
  | nothing => exact (Except.ok.inj h).symm
  | add dir n node => exact hrefuse _ h
  | link dir n i => exact hrefuse _ h
  | remove dir n => exact hrefuse _ h
  | move dir n dir' n' i => exact hrefuse _ h

theorem dir_of_commit {d' : Disk} {i : Ino} (hi : d.dir i ≠ none) {plan : Except Errno Edit}
    (h : plan.bind (host.commit d) = .ok d') : d'.dir i ≠ none := by
  cases plan with
  | error e => cases h
  | ok e =>
    rw [commit_eq_apply h]
    exact Disk.dir_apply hi e

end Host

end Inodes
