import Mathlib.Data.PNat.Notation
import ClrDebugInfo.Library.MakeDir

/-!
# Disks

A disk is a table of inodes. A directory lists its entries by name and inode, so a file can have
several names, and it knows the directory it is in, so that `..` leads there.

What a process names with a path depends on two inodes, its root and its working directory. Two
processes with different roots come to the same inode if neither follows an absolute link nor takes
`..` at a root (`walk_eq_of_stays`).
-/

namespace Inodes

open FileTree (Name Path ValidName components)

/-! ## The table -/

abbrev Ino := ℕ

inductive FileType
  | regular
  | fifo
  | charDevice
  | blockDevice
  | socket
  deriving DecidableEq

inductive Node
  | directory (parent : Ino) (entries : List (Name × Ino))
  | file (type : FileType)
  | link (target : List UInt8)
  deriving DecidableEq

inductive Errno
  | perm
  | noent
  | nomem
  | busy
  | exist
  | notdir
  | isdir
  | inval
  | nametoolong
  | notempty
  | loop
  | other (code : ℕ+)
  deriving DecidableEq

/-- The number of an error. -/
def Errno.code : Errno → ℕ
  | perm => 1
  | noent => 2
  | nomem => 12
  | busy => 16
  | exist => 17
  | notdir => 20
  | isdir => 21
  | inval => 22
  | nametoolong => 36
  | notempty => 39
  | loop => 40
  | other code => code

theorem Errno.code_pos (e : Errno) : 0 < e.code := by
  cases e with
  | other code => exact code.2
  | _ => exact Nat.succ_pos _

structure Disk where
  nodes : List Node
  deriving DecidableEq

/-- What a process has of its own. -/
structure Process where
  root : Ino
  cwd : Ino

/-- Where the first name of a path is looked up. -/
def Process.start (p : Process) (path : List UInt8) : Ino :=
  if path.head? = some 47 then p.root else p.cwd

@[simp] theorem Process.start_dot (root c : Ino) (path : List UInt8) :
    Process.start ⟨root, c⟩ (46 :: path) = c := if_neg (by simp)

@[simp] theorem Process.start_self (c : Ino) (path : List UInt8) :
    Process.start ⟨c, c⟩ path = c := ite_self c

/-- The last name of a path. -/
inductive Last
  | name (n : Name)
  | dot
  | dotDot
  /-- There is none: the path has slashes only. -/
  | root
  deriving DecidableEq

/-- The directory in which the last name of a path is looked up, and whether slashes follow. -/
structure Loc where
  dir : Ino
  last : Last
  slash : Bool
  deriving DecidableEq

namespace Disk

/-- The parent and the entries of a directory. -/
def dir (d : Disk) (i : Ino) : Option (Ino × List (Name × Ino)) :=
  match d.nodes[i]? with
  | some (.directory parent entries) => some (parent, entries)
  | _ => none

/-- An entry of a directory. -/
def entry (d : Disk) (i : Ino) (n : Name) : Option Ino := (d.dir i).bind fun e ↦ e.2.lookup n

theorem dir_ne_none_iff {d : Disk} {i : Ino} : d.dir i ≠ none ↔
    ∃ parent entries, d.nodes[i]? = some (.directory parent entries) := by
  rw [dir]
  split
  next parent entries hnode => simp [hnode]
  next hnode =>
    simp only [ne_eq, not_true_eq_false, false_iff, not_exists]
    exact hnode

/-! ## Resolution -/

/-- The names of a path, one after the other from the directory `cur`. What to do at a link is
given by `follow`. -/
def walkWith (d : Disk) (follow : Ino → List UInt8 → Path → Except Errno Ino) (root : Ino) :
    Ino → Path → Except Errno Ino
  | cur, [] => .ok cur
  | cur, n :: rest =>
    match d.dir cur with
    | none => .error .notdir
    | some (parent, entries) =>
      if n = [] ∨ n = [46] then walkWith d follow root cur rest
      else if n = [46, 46] then walkWith d follow root (if cur = root then cur else parent) rest
      else
        match entries.lookup n with
        | none => .error .noent
        | some i =>
          match d.nodes[i]? with
          | some (.link target) => follow cur target rest
          | _ => walkWith d follow root i rest

/-- The same, through as many links as `k` says. -/
def walk (d : Disk) (root : Ino) : ℕ → Ino → Path → Except Errno Ino
  | 0 => d.walkWith (fun _ _ _ ↦ .error .loop) root
  | k + 1 => d.walkWith (fun cur target rest ↦
    match target with
    | [] => .error .noent
    | c :: _ => d.walk root k (if c = 47 then root else cur) (target.splitOn 47 ++ rest)) root

/-- The walk does not take `..` at one of two roots. What to ask at a link is given by `follow`. -/
def staysWith (d : Disk) (follow : Ino → List UInt8 → Path → Bool) (root root' : Ino) :
    Ino → Path → Bool
  | _, [] => true
  | cur, n :: rest =>
    match d.dir cur with
    | none => true
    | some (parent, entries) =>
      if n = [] ∨ n = [46] then staysWith d follow root root' cur rest
      else if n = [46, 46] then
        cur ≠ root && cur ≠ root' && staysWith d follow root root' parent rest
      else
        match entries.lookup n with
        | none => true
        | some i =>
          match d.nodes[i]? with
          | some (.link target) => follow cur target rest
          | _ => staysWith d follow root root' i rest

/-- The walk neither takes `..` at one of two roots nor follows an absolute link. -/
def stays (d : Disk) (root root' : Ino) : ℕ → Ino → Path → Bool
  | 0 => d.staysWith (fun _ _ _ ↦ true) root root'
  | k + 1 => d.staysWith (fun cur target rest ↦
    match target with
    | [] => true
    | c :: _ => c ≠ 47 && d.stays root root' k cur (target.splitOn 47 ++ rest)) root root'

variable {d : Disk} {root root' cur i : Ino} {q : Path}

theorem walkWith_eq_of_staysWith {follow follow' : Ino → List UInt8 → Path → Except Errno Ino}
    {ask : Ino → List UInt8 → Path → Bool}
    (hfollow : ∀ cur target rest, ask cur target rest = true →
      follow cur target rest = follow' cur target rest)
    (h : d.staysWith ask root root' cur q = true) :
    d.walkWith follow root cur q = d.walkWith follow' root' cur q := by
  induction q generalizing cur with
  | nil => rfl
  | cons n q ih =>
    rw [staysWith] at h
    rw [walkWith, walkWith]
    match hdir : d.dir cur with
    | none => rfl
    | some (parent, entries) =>
      simp only [hdir] at h ⊢
      by_cases hdot : n = [] ∨ n = [46]
      · rw [if_pos hdot] at h ⊢
        rw [if_pos hdot]
        exact ih h
      rw [if_neg hdot] at h ⊢
      rw [if_neg hdot]
      by_cases hdots : n = [46, 46]
      · rw [if_pos hdots] at h ⊢
        rw [if_pos hdots]
        simp only [Bool.and_eq_true, decide_eq_true_eq] at h
        rw [if_neg h.1.1, if_neg h.1.2]
        exact ih h.2
      rw [if_neg hdots] at h ⊢
      rw [if_neg hdots]
      match hentry : entries.lookup n with
      | none => rfl
      | some i =>
        simp only [hentry] at h ⊢
        match hnode : d.nodes[i]? with
        | some (.link target) =>
          simp only [hnode] at h ⊢
          exact hfollow _ _ _ h
        | none =>
          simp only [hnode] at h ⊢
          exact ih h
        | some (.directory _ _) =>
          simp only [hnode] at h ⊢
          exact ih h
        | some (.file _) =>
          simp only [hnode] at h ⊢
          exact ih h

/-- **Two roots.** A walk that stays inside leads to the same place from both. -/
theorem walk_eq_of_stays (k : ℕ) (h : d.stays root root' k cur q = true) :
    d.walk root k cur q = d.walk root' k cur q := by
  induction k generalizing cur q with
  | zero => exact walkWith_eq_of_staysWith (fun _ _ _ _ ↦ rfl) h
  | succ k ih =>
    refine walkWith_eq_of_staysWith (fun cur target rest h ↦ ?_) h
    match target with
    | [] => rfl
    | c :: target =>
      simp only [Bool.and_eq_true, decide_eq_true_eq] at h
      simp only [if_neg h.1]
      exact ih h.2

/-! ## What a path is about -/

/-- The place of a path. A string with `pathMax` bytes or more, without its NUL, is none. -/
def locate (d : Disk) (pathMax : ℕ) (p : Process) (path : List UInt8) : Except Errno Loc :=
  if path = [] then .error .noent
  else if pathMax ≤ path.length then .error .nametoolong
  else
    match (components path).getLast? with
    | none => .ok ⟨p.root, .root, decide (path.getLast? = some 47)⟩
    | some n =>
      match d.walk p.root 40 (p.start path) (components path).dropLast with
      | .error e => .error e
      | .ok i =>
        if d.dir i = none then .error .notdir
        else
          .ok ⟨i, if n = [46] then .dot else if n = [46, 46] then .dotDot else .name n,
            decide (path.getLast? = some 47)⟩

/-- What a path leads to. -/
def stat (d : Disk) (pathMax : ℕ) (p : Process) (path : List UInt8) : Except Errno Ino :=
  if path = [] then .error .noent
  else if pathMax ≤ path.length then .error .nametoolong
  else
    match d.walk p.root 40 (p.start path) (components path) with
    | .error e => .error e
    | .ok i => if path.getLast? = some 47 ∧ d.dir i = none then .error .notdir else .ok i

theorem walk_of_stat {d : Disk} {pathMax : ℕ} {p : Process} {path : List UInt8} {i : Ino}
    (h : d.stat pathMax p path = .ok i) :
    d.walk p.root 40 (p.start path) (components path) = .ok i := by
  rw [stat] at h
  split_ifs at h
  cases hwalk : d.walk p.root 40 (p.start path) (components path) with
  | error e =>
    rw [hwalk] at h
    exact absurd h (by simp)
  | ok j =>
    rw [hwalk] at h
    simp only at h
    split_ifs at h
    exact h

/-- The same, but a link at the end is not followed, unless slashes come after it. -/
def lstat (d : Disk) (pathMax : ℕ) (p : Process) (path : List UInt8) : Except Errno Ino :=
  match d.locate pathMax p path with
  | .error e => .error e
  | .ok ⟨i, .name n, false⟩ =>
    match d.entry i n with
    | none => .error .noent
    | some j => .ok j
  | .ok _ => d.stat pathMax p path

/-- The type of a directory entry. -/
inductive EntryType
  | directory
  | file (type : FileType)
  | link
  deriving DecidableEq

def entryType (d : Disk) (i : Ino) : Option EntryType :=
  d.nodes[i]?.map fun
    | .directory _ _ => .directory
    | .file type => .file type
    | .link _ => .link

/-- `opendir`, and `readdir` to the end. -/
def readdir (d : Disk) (pathMax : ℕ) (p : Process) (path : List UInt8) :
    Except Errno (List (Name × Ino × Option EntryType)) :=
  match d.stat pathMax p path with
  | .error e => .error e
  | .ok i =>
    match d.dir i with
    | none => .error .notdir
    | some (parent, entries) =>
      .ok (([46], i, some .directory) :: ([46, 46], parent, some .directory) ::
        entries.map fun e ↦ (e.1, e.2, d.entryType e.2))

/-- `readlink`, into a buffer of `size` bytes. -/
def readlink (d : Disk) (pathMax : ℕ) (p : Process) (path : List UInt8) (size : ℕ) :
    Except Errno (List UInt8) :=
  match d.lstat pathMax p path with
  | .error e => .error e
  | .ok i =>
    match d.nodes[i]? with
    | some (.link target) => if size = 0 then .error .inval else .ok (target.take size)
    | _ => .error .inval

/-! ## The directory that a process takes for the root -/

variable {c : Ino} {path : List UInt8} {pathMax : ℕ}

theorem ne_nil_of_absolute (habs : path.head? = some 47) : path ≠ [] := by
  rintro rfl
  exact absurd habs (by simp)

theorem components_dot_cons (habs : path.head? = some 47) :
    components (46 :: path) = [46] :: components path := by
  match path with
  | slash :: rest =>
    obtain rfl := Option.some.inj habs
    have hrest : components (47 :: rest) = components rest :=
      @Words.words_blank_cons _ (· == 47) 47 rfl rest
    rw [hrest]
    exact @Words.words_cons _ (· == 47) [46] 47 (List.cons_ne_nil 46 []) (by simp) rfl rest

theorem walk_dot (hc : d.dir c ≠ none) (k : ℕ) (q : Path) :
    d.walk root k c ([46] :: q) = d.walk root k c q := by
  obtain ⟨e, he⟩ := Option.ne_none_iff_exists'.mp hc
  have hwalk : ∀ follow, d.walkWith follow root c ([46] :: q) = d.walkWith follow root c q := by
    intro follow
    rw [walkWith, he]
    simp
  match k with
  | 0 => exact hwalk _
  | k + 1 => exact hwalk _

theorem getLast?_dot_cons (habs : path.head? = some 47) :
    (46 :: path : List UInt8).getLast? = path.getLast? := by
  match path with
  | _ :: _ => rw [List.getLast?_cons_cons]

/-- **A dot before an absolute path.** A process whose working directory is `c` comes with it to
where a process whose root is `c` comes with the path, if the way stays inside. -/
theorem stat_dot (hc : d.dir c ≠ none) (habs : path.head? = some 47)
    (hlen : path.length + 1 < pathMax) (h : d.stays root c 40 c (components path) = true) :
    d.stat pathMax ⟨root, c⟩ (46 :: path) = d.stat pathMax ⟨c, c⟩ path := by
  have hne := ne_nil_of_absolute habs
  rw [stat, stat, if_neg (List.cons_ne_nil _ _), if_neg hne,
    if_neg (by rw [List.length_cons]; omega), if_neg (by omega), getLast?_dot_cons habs,
    components_dot_cons habs, Process.start_dot, Process.start_self, walk_dot hc,
    walk_eq_of_stays 40 h]

theorem locate_of_long (p : Process) (hlen : pathMax ≤ path.length) (hne : path ≠ []) :
    d.locate pathMax p path = .error .nametoolong := by
  rw [locate, if_neg hne, if_pos hlen]

theorem locate_dot (hc : d.dir c ≠ none) (habs : path.head? = some 47)
    (hlen : path.length + 1 < pathMax)
    (h : d.stays root c 40 c (components path).dropLast = true) :
    (components path ≠ [] ∧
        d.locate pathMax ⟨root, c⟩ (46 :: path) = d.locate pathMax ⟨c, c⟩ path) ∨
      components path = [] ∧
        ∃ slash, d.locate pathMax ⟨root, c⟩ (46 :: path) = .ok ⟨c, .dot, slash⟩ ∧
          d.locate pathMax ⟨c, c⟩ path = .ok ⟨c, .root, slash⟩ := by
  have hne := ne_nil_of_absolute habs
  rw [locate, locate, if_neg (List.cons_ne_nil _ _), if_neg hne,
    if_neg (by rw [List.length_cons]; omega), if_neg (by omega), getLast?_dot_cons habs,
    components_dot_cons habs, Process.start_dot, Process.start_self]
  rcases List.eq_nil_or_concat' (components path) with hnil | ⟨cs, n, hpath⟩
  · right
    rw [hnil]
    refine ⟨rfl, decide (path.getLast? = some 47), ?_, rfl⟩
    have hwalk : d.walk root 40 c [] = .ok c := rfl
    simp [hwalk, hc]
  · left
    rw [hpath, List.dropLast_concat] at h
    rw [hpath, ← List.cons_append, List.getLast?_concat, List.getLast?_concat,
      List.dropLast_concat, List.dropLast_concat, walk_dot hc, walk_eq_of_stays 40 h]
    exact ⟨by simp, rfl⟩

/-- The last name of a path is looked through: slashes follow, or it is a dot or two, or there is
none. -/
def lastFollowed (path : List UInt8) : Bool :=
  match (components path).getLast? with
  | none => true
  | some n => n = [46] || n = [46, 46] || path.getLast? = some 47

theorem locate_of_not_followed {p : Process} {l : Loc} (hlast : lastFollowed path = false)
    (h : d.locate pathMax p path = .ok l) : ∃ n, l = ⟨l.dir, .name n, false⟩ := by
  rw [lastFollowed] at hlast
  rw [locate] at h
  cases hn : (components path).getLast? with
  | none =>
    rw [hn] at hlast
    exact absurd hlast (by simp)
  | some n =>
    simp only [hn, Bool.or_eq_false_iff, decide_eq_false_iff_not] at hlast
    obtain ⟨⟨hdot, hdots⟩, hslash⟩ := hlast
    simp only [hn, if_neg hdot, if_neg hdots, hslash, decide_false] at h
    split_ifs at h
    split at h
    next => exact absurd h (by simp)
    next i _ =>
      split_ifs at h
      exact ⟨n, by rw [← Except.ok.inj h]⟩

theorem locate_slash {p : Process} {l : Loc} (h : d.locate pathMax p path = .ok l) :
    l.slash = decide (path.getLast? = some 47) := by
  rw [locate] at h
  split_ifs at h
  split at h
  next => rw [← Except.ok.inj h]
  next =>
    split at h
    next => exact absurd h (by simp)
    next =>
      split_ifs at h <;> rw [← Except.ok.inj h]

theorem lstat_dot (hc : d.dir c ≠ none) (habs : path.head? = some 47)
    (hlen : path.length + 1 < pathMax)
    (h : d.stays root c 40 c (components path).dropLast = true)
    (hend : lastFollowed path = true → d.stays root c 40 c (components path) = true) :
    d.lstat pathMax ⟨root, c⟩ (46 :: path) = d.lstat pathMax ⟨c, c⟩ path := by
  by_cases hlast : lastFollowed path = true
  · have hstat := stat_dot hc habs hlen (hend hlast)
    rw [lstat, lstat]
    rcases locate_dot hc habs hlen h with ⟨-, hsame⟩ | ⟨-, slash, hdot, hroot⟩
    · rw [hsame, hstat]
    · rw [hdot, hroot]
      exact hstat
  · rcases locate_dot hc habs hlen h with ⟨-, hsame⟩ | ⟨hnil, -⟩
    · rw [lstat, lstat, hsame]
      cases hl : d.locate pathMax ⟨c, c⟩ path with
      | error e => rfl
      | ok l =>
        obtain ⟨n, hname⟩ := locate_of_not_followed (Bool.not_eq_true _ ▸ hlast) hl
        rw [hname]
    · exact absurd (by rw [lastFollowed, hnil]; rfl) hlast

/-! ## The tree -/

/-- The inode that is found below a directory, name by name. No link is followed. -/
def descend (d : Disk) : Ino → Path → Option Ino
  | i, [] => some i
  | i, n :: q => (d.entry i n).bind fun j ↦ d.descend j q

/-- The path that gives the names from the root. -/
def fromRoot : Path → List UInt8
  | [] => [47]
  | q => q.flatMap (47 :: ·)

theorem head?_fromRoot (q : Path) : (fromRoot q).head? = some 47 := by
  match q with
  | [] => rfl
  | _ :: _ => rfl

theorem fromRoot_concat (q : Path) (n : Name) :
    fromRoot (q ++ [n]) = q.flatMap (47 :: ·) ++ 47 :: n := by
  have hflat : ∀ r : Path, r ≠ [] → fromRoot r = r.flatMap (47 :: ·) := by
    intro r hr
    match r with
    | _ :: _ => rfl
  rw [hflat _ (by simp), List.flatMap_append, List.flatMap_singleton]

theorem components_flatMap (hnames : ∀ n ∈ q, ValidName n) :
    components (q.flatMap (47 :: ·)) = q := by
  induction q using List.reverseRecOn with
  | nil => exact Words.words_nil _
  | append_singleton q n ih =>
    have hn := hnames n (by simp)
    have hslash : ∀ c ∈ n, (c == 47) = false := by
      intro c hc
      rw [beq_eq_false_iff_ne]
      rintro rfl
      exact hn.2.2.2 hc
    have hq : components (q.flatMap (47 :: ·)) = q :=
      ih fun n hn ↦ hnames n (List.mem_append_left _ hn)
    rw [components] at hq
    rw [List.flatMap_append, List.flatMap_singleton, components,
      @Words.words_append_blank_cons _ (· == 47) 47 rfl, hq, Words.words_singleton hn.1 hslash]

theorem components_fromRoot (hnames : ∀ n ∈ q, ValidName n) : components (fromRoot q) = q := by
  rcases List.eq_nil_or_concat' q with rfl | ⟨q, n, rfl⟩
  · exact (Words.words_blank_cons (beq_self_eq_true 47) []).trans (Words.words_nil _)
  · rw [fromRoot_concat, ← List.flatMap_singleton (47 :: ·) n, ← List.flatMap_append]
    exact components_flatMap hnames

theorem getLast?_fromRoot {n : Name} (hn : ValidName n) :
    (fromRoot (q ++ [n])).getLast? ≠ some 47 := by
  intro h
  rw [fromRoot_concat, List.getLast?_append_of_ne_nil _ (List.cons_ne_nil _ _)] at h
  match n with
  | [] => exact hn.1 rfl
  | c :: n =>
    rw [List.getLast?_cons_cons] at h
    exact hn.2.2.2 (List.mem_of_getLast? h)

theorem lastFollowed_fromRoot {n : Name} (hnames : ∀ n' ∈ q ++ [n], ValidName n') :
    lastFollowed (fromRoot (q ++ [n])) = false := by
  have hn := hnames n (by simp)
  rw [lastFollowed, components_fromRoot hnames, List.getLast?_concat]
  simp [hn.2.1, hn.2.2.1, @getLast?_fromRoot q n hn]

theorem dir_of_entry {n : Name} (h : d.entry cur n = some i) : d.dir cur ≠ none := by
  intro hnone
  rw [entry, hnone] at h
  exact absurd h (by simp)

theorem descend_concat (d : Disk) (cur : Ino) (q : Path) (n : Name) :
    d.descend cur (q ++ [n]) = (d.descend cur q).bind fun i ↦ d.entry i n := by
  induction q generalizing cur with
  | nil =>
    rw [List.nil_append, descend, descend, Option.bind_some]
    cases d.entry cur n with
    | none => rfl
    | some j => rfl
  | cons m q ih =>
    rw [List.cons_append, descend, descend]
    cases d.entry cur m with
    | none => rfl
    | some j => exact ih j

theorem walkWith_of_descend {follow : Ino → List UInt8 → Path → Except Errno Ino}
    {ask : Ino → List UInt8 → Path → Bool} (hnames : ∀ n ∈ q, ValidName n)
    (h : d.descend cur q = some i) (hi : d.dir i ≠ none) :
    d.walkWith follow root cur q = .ok i ∧ d.staysWith ask root root' cur q = true := by
  induction q generalizing cur with
  | nil =>
    obtain rfl := Option.some.inj h
    exact ⟨rfl, rfl⟩
  | cons n q ih =>
    obtain ⟨hdot, hdots⟩ := FileTree.Fs.validName_ne (hnames n List.mem_cons_self)
    rw [descend, Option.bind_eq_some_iff] at h
    obtain ⟨j, hentry, hrest⟩ := h
    obtain ⟨⟨parent, entries⟩, hdir⟩ := Option.ne_none_iff_exists'.mp (dir_of_entry hentry)
    rw [entry, hdir, Option.bind_some] at hentry
    have hj : d.dir j ≠ none := by
      match q with
      | [] =>
        obtain rfl := Option.some.inj hrest
        exact hi
      | m :: q =>
        rw [descend, Option.bind_eq_some_iff] at hrest
        exact dir_of_entry hrest.choose_spec.1
    obtain ⟨parent', entries', hnode⟩ := dir_ne_none_iff.mp hj
    have hq := ih (fun n hn ↦ hnames n (List.mem_cons_of_mem _ hn)) hrest
    rw [walkWith, staysWith, hdir]
    simp only [if_neg hdot, if_neg hdots, hentry, hnode]
    exact hq

theorem walk_of_descend (k : ℕ) (hnames : ∀ n ∈ q, ValidName n)
    (h : d.descend cur q = some i) (hi : d.dir i ≠ none) :
    d.walk root k cur q = .ok i ∧ d.stays root root' k cur q = true := by
  match k with
  | 0 => exact walkWith_of_descend hnames h hi
  | k + 1 => exact walkWith_of_descend hnames h hi

theorem stat_fromRoot (hnames : ∀ n ∈ q, ValidName n) (hlen : (fromRoot q).length < pathMax)
    (h : d.descend c q = some i) (hi : d.dir i ≠ none) :
    d.stat pathMax ⟨c, c⟩ (fromRoot q) = .ok i := by
  have hne := ne_nil_of_absolute (head?_fromRoot q)
  rw [stat, if_neg hne, if_neg (by omega), components_fromRoot hnames, Process.start_self,
    (@walk_of_descend d c c c i q 40 hnames h hi).1]
  exact if_neg fun hdir ↦ hi hdir.2

theorem lstat_fromRoot {n : Name} (hnames : ∀ n' ∈ q ++ [n], ValidName n')
    (hlen : (fromRoot (q ++ [n])).length < pathMax) (h : d.descend c (q ++ [n]) = some i) :
    d.lstat pathMax ⟨c, c⟩ (fromRoot (q ++ [n])) = .ok i := by
  rw [descend_concat, Option.bind_eq_some_iff] at h
  obtain ⟨j, hdescend, hentry⟩ := h
  have hne := ne_nil_of_absolute (head?_fromRoot (q ++ [n]))
  have hj := dir_of_entry hentry
  have hwalk := (@walk_of_descend d c c c j q 40
    (fun n hn ↦ hnames n (List.mem_append_left _ hn)) hdescend hj).1
  have hlocate : d.locate pathMax ⟨c, c⟩ (fromRoot (q ++ [n])) = .ok ⟨j, .name n, false⟩ := by
    have hn := hnames n (by simp)
    rw [locate, if_neg hne, if_neg (by omega), components_fromRoot hnames, List.getLast?_concat,
      List.dropLast_concat, Process.start_self, hwalk]
    simp only [if_neg hj, if_neg hn.2.1, if_neg hn.2.2.1, getLast?_fromRoot hn, decide_false]
  rw [lstat, hlocate]
  simp only [hentry]

end Disk

end Inodes
