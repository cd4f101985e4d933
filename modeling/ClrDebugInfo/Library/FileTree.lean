import Mathlib.Data.List.Basic
import Mathlib.Data.List.Infix
import Mathlib.Data.List.Nodup

/-!
# File systems with symbolic links

A file system is the list of its objects below the root, each at its place: the names that lead to
it from the root without going through a link. The order of the list is the order in which a
directory lists its entries. Names are not empty, and every object stands in a directory.

What a program names is not a place but a path, which is resolved: `.` and `..` are followed, and so
are links, up to a number of them (`walk`). Removing objects can make a resolution fail, but not
lead elsewhere (`walk_mono`).
-/

namespace FileTree

abbrev Name := List UInt8

abbrev Path := List Name

inductive Object
  | directory
  | regular (data : List UInt8)
  /-- A device, a socket or a pipe. -/
  | special (id : ℕ)
  | link (target : List UInt8)
  deriving DecidableEq

/-- What a directory entry may be called. -/
def ValidName (n : Name) : Prop := n ≠ [] ∧ n ≠ [46] ∧ n ≠ [46, 46] ∧ 47 ∉ n

instance (n : Name) : Decidable (ValidName n) :=
  inferInstanceAs (Decidable (n ≠ [] ∧ n ≠ [46] ∧ n ≠ [46, 46] ∧ 47 ∉ n))

/-- A file system. -/
structure Fs where
  /-- The objects below the root. -/
  objects : List (Path × Object)
  nodup : (objects.map Prod.fst).Nodup
  parent : ∀ e ∈ objects, e.1 ≠ [] ∧
    (e.1.dropLast = [] ∨ (e.1.dropLast, Object.directory) ∈ objects)
  names : ∀ e ∈ objects, ∀ n ∈ e.1, ValidName n

theorem not_concat_prefix {d : Path} {n : Name} : ¬d ++ [n] <+: d := by
  intro h
  have hlen := h.length_le
  simp only [List.length_append, List.length_cons, List.length_nil] at hlen
  omega

namespace Fs

theorem ext {fs fs' : Fs} (h : fs.objects = fs'.objects) : fs = fs' := by
  cases fs
  cases fs'
  cases h
  rfl

/-! ## Objects -/

/-- The object at a place. -/
def lookup (fs : Fs) (p : Path) : Option Object :=
  if p = [] then some .directory else (fs.objects.find? fun e ↦ e.1 = p).map Prod.snd

/-- The names in a directory, in the order in which it lists them. -/
def children (fs : Fs) (d : Path) : List Name :=
  fs.objects.filterMap fun e ↦ if e.1.dropLast = d then e.1.getLast? else none

variable {fs : Fs} {d p q : Path} {n : Name} {o : Object}

@[simp] theorem lookup_nil (fs : Fs) : fs.lookup [] = some .directory := rfl

theorem lookup_eq_some_iff (hp : p ≠ []) : fs.lookup p = some o ↔ (p, o) ∈ fs.objects := by
  rw [lookup, if_neg hp, Option.map_eq_some_iff]
  constructor
  · rintro ⟨⟨q, o⟩, hfind, rfl⟩
    obtain rfl : q = p := by simpa using List.find?_some hfind
    exact List.mem_of_find?_eq_some hfind
  · intro hmem
    obtain ⟨e, hfind⟩ : ∃ e, (fs.objects.find? fun e ↦ e.1 = p) = some e := by
      rw [← Option.isSome_iff_exists, List.find?_isSome]
      exact ⟨_, hmem, by simp⟩
    have hfst : e.1 = p := by simpa using List.find?_some hfind
    refine ⟨e, hfind, ?_⟩
    rw [List.inj_on_of_nodup_map fs.nodup (List.mem_of_find?_eq_some hfind) hmem hfst]

theorem lookup_parent (h : fs.lookup (d ++ [n]) = some o) : fs.lookup d = some .directory := by
  rw [lookup_eq_some_iff (by simp)] at h
  obtain ⟨-, hparent⟩ := fs.parent _ h
  rw [List.dropLast_concat] at hparent
  rcases hparent with rfl | hmem
  · rfl
  · exact (lookup_eq_some_iff (fs.parent _ hmem).1).mpr hmem

theorem lookup_of_append (hq : q ≠ []) (h : fs.lookup (d ++ q) = some o) :
    fs.lookup d = some .directory := by
  induction q using List.reverseRecOn generalizing o with
  | nil => exact absurd rfl hq
  | append_singleton q n ih =>
    rw [← List.append_assoc] at h
    have hdir := lookup_parent h
    by_cases hnil : q = []
    · rwa [hnil, List.append_nil] at hdir
    · exact ih hnil hdir

theorem validName (h : fs.lookup (d ++ [n]) = some o) : ValidName n := by
  rw [lookup_eq_some_iff (by simp)] at h
  exact fs.names _ h n (by simp)

theorem exists_lookup_of_append (h : fs.lookup (d ++ q) = some o) :
    ∃ o', fs.lookup d = some o' := by
  by_cases hq : q = []
  · rw [hq, List.append_nil] at h
    exact ⟨o, h⟩
  · exact ⟨.directory, lookup_of_append hq h⟩

theorem mem_children_iff : n ∈ fs.children d ↔ ∃ o, fs.lookup (d ++ [n]) = some o := by
  have hplace : ∀ p : Path, p.dropLast = d ∧ p.getLast? = some n ↔ p = d ++ [n] := by
    intro p
    constructor
    · rintro ⟨rfl, hlast⟩
      exact (List.dropLast_append_getLast? n hlast).symm
    · rintro rfl
      simp
  simp only [lookup_eq_some_iff (List.append_ne_nil_of_right_ne_nil d (List.cons_ne_nil n [])),
    children, List.mem_filterMap, Option.ite_none_right_eq_some, hplace]
  constructor
  · rintro ⟨⟨p, o⟩, hmem, rfl⟩
    exact ⟨o, hmem⟩
  · rintro ⟨o, hmem⟩
    exact ⟨_, hmem, rfl⟩

theorem lookup_append_of_children (h : fs.children d = []) (hq : q ≠ []) :
    fs.lookup (d ++ q) = none := by
  match q with
  | [] => exact absurd rfl hq
  | n :: q =>
    rw [Option.eq_none_iff_forall_ne_some]
    intro o ho
    rw [List.append_cons] at ho
    have hentry := exists_lookup_of_append ho
    rw [← mem_children_iff, h] at hentry
    exact List.not_mem_nil hentry

theorem children_of_ne_directory (h : fs.lookup d ≠ some .directory) : fs.children d = [] := by
  rw [List.eq_nil_iff_forall_not_mem]
  intro n hn
  obtain ⟨o, ho⟩ := mem_children_iff.mp hn
  exact h (lookup_parent ho)

theorem children_of_lookup_none (h : fs.lookup d = none) : fs.children d = [] :=
  children_of_ne_directory (h ▸ (by simp))

theorem children_nodup (fs : Fs) (d : Path) : (fs.children d).Nodup := by
  have hmap : fs.children d = (fs.objects.map Prod.fst).filterMap fun q ↦
      if q.dropLast = d then q.getLast? else none := by
    rw [children, List.filterMap_map]
    rfl
  rw [hmap]
  refine fs.nodup.filterMap fun q q' n hn hn' ↦ ?_
  simp only [Option.mem_def, Option.ite_none_right_eq_some] at hn hn'
  rw [← List.dropLast_append_getLast? n hn.2, ← List.dropLast_append_getLast? n hn'.2, hn.1, hn'.1]

/-! ## Removal -/

/-- The file system without what is at a place, and below it. -/
def remove (fs : Fs) (p : Path) : Fs where
  objects := fs.objects.filter fun e ↦ !decide (p <+: e.1)
  nodup := fs.nodup.sublist (List.filter_sublist.map _)
  parent := by
    intro e he
    simp only [List.mem_filter, Bool.not_eq_true', decide_eq_false_iff_not] at he ⊢
    obtain ⟨hne, hparent⟩ := fs.parent e he.1
    exact ⟨hne, hparent.imp_right fun hmem ↦
      ⟨hmem, fun hp ↦ he.2 (hp.trans (List.dropLast_prefix e.1))⟩⟩
  names := fun e he ↦ fs.names e (List.mem_of_mem_filter he)

theorem lookup_remove (hp : p ≠ []) (q : Path) :
    (fs.remove p).lookup q = if p <+: q then none else fs.lookup q := by
  by_cases hq : q = []
  · rw [hq, if_neg fun h ↦ hp (List.prefix_nil.mp h)]
    rfl
  · ext o
    rw [lookup_eq_some_iff hq, remove]
    simp only [List.mem_filter, Bool.not_eq_true', decide_eq_false_iff_not,
      Option.ite_none_left_eq_some, lookup_eq_some_iff hq]
    exact and_comm

theorem remove_remove (h : p <+: q) : (fs.remove q).remove p = fs.remove p := by
  apply ext
  simp only [remove, List.filter_filter]
  refine List.filter_congr fun e _ ↦ ?_
  by_cases hp : p <+: e.1
  · simp [hp]
  · simp [hp, show ¬q <+: e.1 from fun hq ↦ hp (h.trans hq)]

/-- Without these entries of a directory, and what is below them. -/
def removeEntries (fs : Fs) (d : Path) (ns : List Name) : Fs :=
  ns.foldl (fun fs n ↦ fs.remove (d ++ [n])) fs

/-- Without all entries of a directory. -/
def clear (fs : Fs) (d : Path) : Fs := fs.removeEntries d (fs.children d)

theorem lookup_removeEntries (fs : Fs) (d : Path) (ns : List Name) (q : Path) :
    (fs.removeEntries d ns).lookup q =
      if ∃ n ∈ ns, d ++ [n] <+: q then none else fs.lookup q := by
  induction ns generalizing fs with
  | nil => simp [removeEntries]
  | cons n ns ih =>
    have hrest := ih (fs.remove (d ++ [n]))
    rw [lookup_remove (by simp)] at hrest
    rw [show fs.removeEntries d (n :: ns) = (fs.remove (d ++ [n])).removeEntries d ns from rfl,
      hrest]
    by_cases h : d ++ [n] <+: q
    · simp [h]
    · simp [h]

theorem removeEntries_remove (fs : Fs) (d : Path) (ns : List Name) :
    (fs.removeEntries d ns).remove d = fs.remove d := by
  induction ns generalizing fs with
  | nil => rfl
  | cons n ns ih =>
    rw [show fs.removeEntries d (n :: ns) = (fs.remove (d ++ [n])).removeEntries d ns from rfl,
      ih, remove_remove (List.prefix_append d [n])]

theorem removeEntries_concat (fs : Fs) (d : Path) (ns : List Name) (n : Name) :
    fs.removeEntries d (ns ++ [n]) = (fs.removeEntries d ns).remove (d ++ [n]) :=
  List.foldl_concat ..

theorem children_clear (fs : Fs) (d : Path) : (fs.clear d).children d = [] := by
  rw [List.eq_nil_iff_forall_not_mem]
  intro n hn
  obtain ⟨o, ho⟩ := mem_children_iff.mp hn
  rw [clear, lookup_removeEntries, Option.ite_none_left_eq_some] at ho
  exact ho.1 ⟨n, mem_children_iff.mpr ⟨o, ho.2⟩, List.prefix_refl _⟩

theorem lookup_clear_self (fs : Fs) (d : Path) : (fs.clear d).lookup d = fs.lookup d := by
  rw [clear, lookup_removeEntries, if_neg]
  rintro ⟨n, -, hprefix⟩
  exact not_concat_prefix hprefix

/-! ## Entries in their order -/

/-- The files when a walk that removes every entry comes to the entry `d ++ rel`: the entries listed
before it, in every directory on the way, are gone. -/
def atTurn (fs : Fs) (d : Path) : Path → Fs
  | [] => fs
  | n :: rel => atTurn (fs.removeEntries d ((fs.children d).takeWhile (· ≠ n))) (d ++ [n]) rel

variable {c c' : Name} {done todo : List Name}

theorem entry_prefix_entry (h : d ++ [c] <+: q) (h' : d ++ [c'] <+: q) : c = c' := by
  have hle : d ++ [c] <+: d ++ [c'] := List.prefix_of_prefix_length_le h h' (by simp)
  have heq := hle.eq_of_length (by simp)
  exact List.singleton_inj.mp (List.append_cancel_left heq)

theorem not_mem_done (hsplit : fs.children d = done ++ c :: todo) : c ∉ done := by
  have hnodup := fs.children_nodup d
  rw [hsplit, List.nodup_append] at hnodup
  exact fun hc ↦ hnodup.2.2 c hc c List.mem_cons_self rfl

theorem not_mem_todo (hsplit : fs.children d = done ++ c :: todo) : c ∉ todo := by
  have hnodup := fs.children_nodup d
  rw [hsplit, List.nodup_append] at hnodup
  exact (List.nodup_cons.mp hnodup.2.1).1

theorem lookup_entry (hsplit : fs.children d = done ++ c :: todo) (rel : Path) :
    (fs.removeEntries d done).lookup (d ++ c :: rel) = fs.lookup (d ++ c :: rel) := by
  rw [lookup_removeEntries, if_neg]
  rintro ⟨n, hn, hprefix⟩
  have hself : d ++ [c] <+: d ++ c :: rel := ⟨rel, by simp⟩
  obtain rfl := entry_prefix_entry hprefix hself
  exact not_mem_done hsplit hn

theorem atTurn_entry (hsplit : fs.children d = done ++ c :: todo) (rel : Path) :
    fs.atTurn d (c :: rel) = (fs.removeEntries d done).atTurn (d ++ [c]) rel := by
  have hne : ∀ n ∈ done, decide (n ≠ c) = true := fun n hn ↦
    decide_eq_true fun h ↦ not_mem_done hsplit (h ▸ hn)
  rw [atTurn, hsplit, List.takeWhile_append_of_pos hne, List.takeWhile_cons_of_neg (by simp),
    List.append_nil]

/-! ## System calls -/

/-- `unlink`, of a place. -/
def unlink (fs : Fs) (p : Path) : Option Fs :=
  match fs.lookup p with
  | none => none
  | some .directory => none
  | some _ => some (fs.remove p)

theorem unlink_of_ne_directory {fs : Fs} {p : Path} {o : Object} (ho : fs.lookup p = some o)
    (hdir : o ≠ .directory) : fs.unlink p = some (fs.remove p) := by
  rw [unlink, ho]
  cases o with
  | directory => exact absurd rfl hdir
  | _ => rfl

/-- `rmdir`, of a place. -/
def rmdir (fs : Fs) (p : Path) : Option Fs :=
  if p ≠ [] ∧ fs.lookup p = some .directory ∧ fs.children p = [] then some (fs.remove p) else none

end Fs

/-- An absolute path is written with a slash before every name. A system call that is given one
takes up to `PATH_MAX = 4096` bytes, the end of the string included. -/
def Fits (path : Path) : Prop := (path.flatMap fun n ↦ 47 :: n).length < 4096

instance (path : Path) : Decidable (Fits path) := inferInstanceAs (Decidable (_ < _))

/-! ## Resolution -/

/-- Why a path leads nowhere. -/
inductive Errno
  | noent
  | notdir
  | loop
  deriving DecidableEq

namespace Fs

/-- The names of a path, one after the other from the directory `cur`. What to do at a link is
given by `follow`. -/
def walkWith (fs : Fs) (follow : Path → List UInt8 → Path → Except Errno Path) :
    Path → Path → Except Errno Path
  | cur, [] => .ok cur
  | cur, n :: rest =>
    if fs.lookup cur ≠ some .directory then .error .notdir
    else if n = [] ∨ n = [46] then walkWith fs follow cur rest
    else if n = [46, 46] then walkWith fs follow cur.dropLast rest
    else
      match fs.lookup (cur ++ [n]) with
      | none => .error .noent
      | some (.link target) => follow cur target rest
      | some _ => walkWith fs follow (cur ++ [n]) rest

/-- The same, through as many links as `k` says. -/
def walk (fs : Fs) : ℕ → Path → Path → Except Errno Path
  | 0 => fs.walkWith fun _ _ _ ↦ .error .loop
  | k + 1 => fs.walkWith fun cur target rest ↦
    match target with
    | [] => .error .noent
    | c :: _ => fs.walk k (if c = 47 then [] else cur) (target.splitOn 47 ++ rest)

/-- `stat`: the place of an absolute path, through 40 links at most. -/
def stat (fs : Fs) (path : Path) : Except Errno Path := fs.walk 40 [] path

/-- The place that `lstat`, `unlink` and `rmdir` are about: a link at the end is not followed. -/
def place (fs : Fs) (path : Path) : Option Path :=
  match path.getLast? with
  | none => some []
  | some n =>
    match fs.stat path.dropLast with
    | .ok d => some (d ++ [n])
    | .error _ => none

/-! ## Places without links -/

variable {fs fs' : Fs} {d p q cur : Path} {n : Name} {o : Object}
  {follow : Path → List UInt8 → Path → Except Errno Path}

theorem validName_ne (h : ValidName n) : ¬(n = [] ∨ n = [46]) ∧ n ≠ [46, 46] :=
  ⟨not_or.mpr ⟨h.1, h.2.1⟩, h.2.2.1⟩

theorem walkWith_append (h : fs.lookup (cur ++ q) = some o)
    (hlink : ∀ target, o ≠ .link target) : fs.walkWith follow cur q = .ok (cur ++ q) := by
  induction q generalizing cur with
  | nil => rw [walkWith, List.append_nil]
  | cons n q ih =>
    have hdir : fs.lookup cur = some .directory := lookup_of_append (List.cons_ne_nil n q) h
    have hsplit : cur ++ n :: q = cur ++ [n] ++ q := by simp
    rw [hsplit] at h ⊢
    obtain ⟨o', ho', hlink'⟩ : ∃ o', fs.lookup (cur ++ [n]) = some o' ∧
        ∀ target, o' ≠ .link target := by
      by_cases hq : q = []
      · rw [hq, List.append_nil] at h
        exact ⟨o, h, hlink⟩
      · exact ⟨.directory, lookup_of_append hq h, by simp⟩
    obtain ⟨hdot, hdots⟩ := validName_ne (validName ho')
    rw [walkWith, if_neg (not_not_intro hdir), if_neg hdot, if_neg hdots, ho']
    match o' with
    | .link target => exact absurd rfl (hlink' target)
    | .directory => exact ih h
    | .regular _ => exact ih h
    | .special _ => exact ih h

/-! ## Fewer objects -/

/-- Every object of `fs'` is in `fs`. -/
def Sub (fs' fs : Fs) : Prop := ∀ p o, fs'.lookup p = some o → fs.lookup p = some o

theorem Sub.refl (fs : Fs) : Sub fs fs := fun _ _ h ↦ h

theorem Sub.trans {fs'' : Fs} (h : Sub fs'' fs') (h' : Sub fs' fs) : Sub fs'' fs :=
  fun p o ho ↦ h' p o (h p o ho)

theorem sub_remove (fs : Fs) (p : Path) : Sub (fs.remove p) fs := by
  intro q o ho
  by_cases hq : q = []
  · rw [hq] at ho ⊢
    exact ho
  · rw [lookup_eq_some_iff hq] at ho ⊢
    exact List.mem_of_mem_filter ho

theorem sub_removeEntries (fs : Fs) (d : Path) (ns : List Name) :
    Sub (fs.removeEntries d ns) fs := by
  intro q o ho
  rw [lookup_removeEntries, Option.ite_none_left_eq_some] at ho
  exact ho.2

theorem clear_sub_removeEntries {done todo : List Name} (h : fs.children d = done ++ todo) :
    Sub (fs.clear d) (fs.removeEntries d done) := by
  intro q o ho
  rw [clear, lookup_removeEntries, Option.ite_none_left_eq_some] at ho
  rw [lookup_removeEntries, if_neg, ho.2]
  rintro ⟨n, hn, hprefix⟩
  exact ho.1 ⟨n, h ▸ List.mem_append_left todo hn, hprefix⟩

theorem sub_clear (hsub : Sub fs' fs) (hempty : fs'.children d = []) : Sub fs' (fs.clear d) := by
  intro q o ho
  rw [clear, lookup_removeEntries, if_neg, hsub q o ho]
  rintro ⟨n, -, r, rfl⟩
  rw [List.append_assoc, lookup_append_of_children hempty (by simp)] at ho
  exact absurd ho (by simp)

/-- **One name of a path.** It is an error, it leads on, or it is a link; where there are more
objects, what leads on leads to the same place and a link is the same link. -/
theorem walkWith_step (hsub : Sub fs' fs) (cur : Path) (n : Name) :
    (∃ e, ∀ follow q, fs'.walkWith follow cur (n :: q) = .error e) ∨
      (∃ next, ∀ follow q, fs'.walkWith follow cur (n :: q) = fs'.walkWith follow next q ∧
        fs.walkWith follow cur (n :: q) = fs.walkWith follow next q) ∨
      ∃ target, ∀ follow q, fs'.walkWith follow cur (n :: q) = follow cur target q ∧
        fs.walkWith follow cur (n :: q) = follow cur target q := by
  simp only [walkWith.eq_2]
  by_cases hdir : fs'.lookup cur = some .directory
  · simp only [if_neg (not_not_intro hdir), if_neg (not_not_intro (hsub _ _ hdir))]
    by_cases hdot : n = [] ∨ n = [46]
    · simp only [if_pos hdot]
      exact .inr (.inl ⟨cur, fun _ _ ↦ ⟨rfl, rfl⟩⟩)
    simp only [if_neg hdot]
    by_cases hdots : n = [46, 46]
    · simp only [if_pos hdots]
      exact .inr (.inl ⟨cur.dropLast, fun _ _ ↦ ⟨rfl, rfl⟩⟩)
    simp only [if_neg hdots]
    match ho : fs'.lookup (cur ++ [n]) with
    | none => exact .inl ⟨.noent, fun _ _ ↦ rfl⟩
    | some o =>
      rw [hsub _ _ ho]
      match o with
      | .link target => exact .inr (.inr ⟨target, fun _ _ ↦ ⟨rfl, rfl⟩⟩)
      | .directory => exact .inr (.inl ⟨cur ++ [n], fun _ _ ↦ ⟨rfl, rfl⟩⟩)
      | .regular _ => exact .inr (.inl ⟨cur ++ [n], fun _ _ ↦ ⟨rfl, rfl⟩⟩)
      | .special _ => exact .inr (.inl ⟨cur ++ [n], fun _ _ ↦ ⟨rfl, rfl⟩⟩)
  · simp only [if_pos hdir]
    exact .inl ⟨.notdir, fun _ _ ↦ rfl⟩

theorem walkWith_mono (hsub : Sub fs' fs)
    {follow' : Path → List UInt8 → Path → Except Errno Path}
    (hfollow : ∀ cur target rest c, follow' cur target rest = .ok c →
      follow cur target rest = .ok c) {c : Path} (h : fs'.walkWith follow' cur q = .ok c) :
    fs.walkWith follow cur q = .ok c := by
  induction q generalizing cur with
  | nil => exact h
  | cons n q ih =>
    rcases walkWith_step hsub cur n with ⟨e, herror⟩ | ⟨next, hnext⟩ | ⟨target, htarget⟩
    · rw [herror] at h
      exact absurd h (by simp)
    · rw [(hnext follow' q).1] at h
      rw [(hnext follow q).2]
      exact ih h
    · rw [(htarget follow' q).1] at h
      rw [(htarget follow q).2]
      exact hfollow _ _ _ _ h

/-- **Removing objects leads no path elsewhere.** -/
theorem walk_mono (hsub : Sub fs' fs) (k : ℕ) {c : Path} (h : fs'.walk k cur q = .ok c) :
    fs.walk k cur q = .ok c := by
  induction k generalizing cur q c with
  | zero =>
    refine walkWith_mono hsub (fun _ _ _ _ h ↦ ?_) h
    exact absurd h (by simp)
  | succ k ih =>
    refine walkWith_mono hsub (fun cur target rest c h ↦ ?_) h
    match target with
    | [] => exact absurd h (by simp)
    | _ :: _ => exact ih h

theorem stat_mono (hsub : Sub fs' fs) {c : Path} (h : fs'.stat p = .ok c) : fs.stat p = .ok c :=
  walk_mono hsub 40 h

/-! ## Paths in two parts -/

theorem walkWith_rest {k : ℕ} (hk : ∀ cur r, fs.walkWith follow cur r = fs.walk k cur r)
    (hfollow : ∀ cur target rest, follow cur target rest = .ok d →
      ∃ j, ∀ r, follow cur target (rest ++ r) = fs.walk j d r)
    (h : fs.walkWith follow cur q = .ok d) :
    ∃ j, ∀ r, fs.walkWith follow cur (q ++ r) = fs.walk j d r := by
  induction q generalizing cur with
  | nil =>
    obtain rfl : cur = d := Except.ok.inj h
    exact ⟨k, hk cur⟩
  | cons n q ih =>
    simp only [List.cons_append]
    rcases walkWith_step (Sub.refl fs) cur n with ⟨e, herror⟩ | ⟨next, hnext⟩ | ⟨target, htarget⟩
    · rw [herror] at h
      exact absurd h (by simp)
    · rw [(hnext follow q).1] at h
      simp only [(hnext follow _).1]
      exact ih h
    · rw [(htarget follow q).1] at h
      simp only [(htarget follow _).1]
      exact hfollow _ _ _ h

theorem walk_rest (k : ℕ) (h : fs.walk k cur q = .ok d) :
    ∃ j, ∀ r, fs.walk k cur (q ++ r) = fs.walk j d r := by
  induction k generalizing cur q with
  | zero =>
    refine walkWith_rest (k := 0) (fun _ _ ↦ rfl) (fun _ _ _ h ↦ ?_) h
    exact absurd h (by simp)
  | succ k ih =>
    refine walkWith_rest (k := k + 1) (fun _ _ ↦ rfl) (fun cur target rest h ↦ ?_) h
    match target with
    | [] => exact absurd h (by simp)
    | c :: target =>
      obtain ⟨j, hj⟩ := ih h
      refine ⟨j, fun r ↦ ?_⟩
      rw [← hj r, List.append_assoc]

theorem stat_concat (h : fs.stat q = .ok d) (ho : fs.lookup (d ++ [n]) = some o)
    (hlink : ∀ target, o ≠ .link target) : fs.stat (q ++ [n]) = .ok (d ++ [n]) := by
  obtain ⟨j, hj⟩ := walk_rest 40 h
  rw [stat, hj]
  match j with
  | 0 => exact walkWith_append ho hlink
  | j + 1 => exact walkWith_append ho hlink

theorem place_concat (h : fs.stat q = .ok d) : fs.place (q ++ [n]) = some (d ++ [n]) := by
  rw [place, List.getLast?_concat, List.dropLast_concat]
  simp only [h]

theorem place_concat_eq_some (h : fs.place (q ++ [n]) = some p) :
    ∃ d, fs.stat q = .ok d ∧ p = d ++ [n] := by
  rw [place, List.getLast?_concat, List.dropLast_concat] at h
  cases hd : fs.stat q with
  | error e =>
    simp only [hd] at h
    exact absurd h (by simp)
  | ok d =>
    simp only [hd] at h
    exact ⟨d, rfl, (Option.some.inj h).symm⟩

end Fs

end FileTree
