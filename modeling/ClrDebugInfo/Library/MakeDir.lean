import ClrDebugInfo.Library.FileTree
import ClrDebugInfo.Library.Words

/-!
# Paths as strings, and new directories

A path is a string of C. It is resolved name by name from the root if it begins with a slash, else
from the working directory; how many slashes stand between two names does not matter. `dirname` cuts
the last name off, and nothing else that counts (`dirname_components`).

`mkdir` adds a directory under the last name. A name that is there already is an error, whatever it
is the name of, and no link is followed at the end of the path. Adding a directory leads no path
elsewhere (`sub_insert` with `walk_mono`).
-/

namespace FileTree

open Words

/-! ## Names -/

/-- The names of a path. -/
def components (path : List UInt8) : Path := words (· == 47) path

/-- Where the first name is looked up. -/
def start (cwd : Path) (path : List UInt8) : Path := if path.head? = some 47 then [] else cwd

/-- `dirname`, as the GNU library has it: two slashes alone at the beginning are kept. -/
def dirname (path : List UInt8) : List UInt8 :=
  let core := path.rdropWhile (· == 47)
  let head := (if core = [] then path else core).rdropWhile (· != 47)
  let parent := head.rdropWhile (· == 47)
  if head = [] then [46]
  else if parent = [] then (if head.length = 2 then [47, 47] else [47])
  else parent

example : dirname [97, 47, 47, 98, 47] = [97] ∧ dirname [47, 97] = [47] ∧
    dirname [47, 47, 97] = [47, 47] ∧ dirname [46, 46] = [46] := by decide

variable {path : List UInt8} {cs : Path} {n : Name}

theorem components_rdropWhile (path : List UInt8) :
    components (path.rdropWhile (· == 47)) = components path := words_rdropWhile _ path

theorem validName_of_mem_components (h : n ∈ components path) (hdot : n ≠ [46])
    (hdots : n ≠ [46, 46]) : ValidName n := by
  refine ⟨?_, hdot, hdots, fun hslash ↦ ?_⟩
  · rintro rfl
    exact absurd (List.of_mem_filter h) (by simp)
  · exact absurd (mem_words h hslash) (by simp)

theorem head?_of_prefix {s t : List UInt8} (h : s <+: t) (hs : s ≠ []) : s.head? = t.head? := by
  obtain ⟨r, rfl⟩ := h
  rw [List.head?_append_of_ne_nil s hs]

theorem exists_core (h : components path ≠ []) : ∃ head base slashes,
    path = head ++ base ++ slashes ∧ path.rdropWhile (· == 47) = head ++ base ∧ base ≠ [] ∧
      (∀ c ∈ base, (c == 47) = false) ∧ (head ++ base).rdropWhile (· != 47) = head ∧
      (head = [] ∨ ∃ head', head = head' ++ [47]) := by
  set core := path.rdropWhile (· == 47) with hcore
  have hne : core ≠ [] := by
    intro hnil
    rw [← components_rdropWhile, ← hcore, hnil] at h
    exact h (words_nil _)
  obtain ⟨slashes, hpath⟩ := List.rdropWhile_prefix (· == 47) path
  rw [← hcore] at hpath
  have hsplit : core.rdropWhile (· != 47) ++ core.rtakeWhile (· != 47) = core :=
    List.rdropWhile_append_rtakeWhile
  set head := core.rdropWhile (· != 47) with hhead
  set base := core.rtakeWhile (· != 47) with hbase
  have hlast : (core.getLast hne == 47) = false :=
    Bool.eq_false_iff.mpr (List.rdropWhile_last_not _ _ hne)
  refine ⟨head, base, slashes, by rw [hsplit, hpath], hsplit.symm, ?_, fun c hc ↦ ?_,
    by rw [hsplit], ?_⟩
  · intro hnil
    rw [hbase, List.rtakeWhile_eq_nil_iff] at hnil
    have := hnil hne
    simp [bne, hlast] at this
  · have := List.mem_rtakeWhile_imp hc
    simpa [bne] using this
  · by_cases hnil : head = []
    · exact .inl hnil
    · have hend : ¬(head.getLast hnil != 47) = true := List.rdropWhile_last_not _ core hnil
      have heq : head.getLast hnil = 47 := by simpa only [bne_iff_ne, ne_eq, not_not] using hend
      refine .inr ⟨head.dropLast, ?_⟩
      rw [← heq, List.dropLast_append_getLast hnil]

/-- **The last name cut off.** What is left begins where the path begins, unless it is a dot. -/
theorem dirname_components (h : components path = cs ++ [n]) :
    dirname path = [46] ∧ cs = [] ∧ path.head? ≠ some 47 ∨
      dirname path ≠ [] ∧ components (dirname path) = cs ∧ (dirname path).head? = path.head? := by
  obtain ⟨head, base, slashes, hpath, hcore, hbase, hplain, hhead, hend⟩ :=
    exists_core (by simp [h] : components path ≠ [])
  have hne : head ++ base ≠ [] := by simp [hbase]
  rw [dirname, hcore, if_neg hne, hhead]
  rw [← components_rdropWhile, hcore] at h
  rcases hend with rfl | ⟨head', rfl⟩
  · -- no slash before the name
    rw [components, List.nil_append, words_singleton hbase hplain] at h
    obtain ⟨rfl, -⟩ : cs = [] ∧ n = base := by
      match cs with
      | [] => simpa using h.symm
      | _ :: _ => simp at h
    refine .inl ⟨if_pos rfl, rfl, fun hslash ↦ ?_⟩
    match base with
    | c :: _ =>
      rw [hpath] at hslash
      obtain rfl := Option.some.inj hslash
      exact absurd (hplain 47 List.mem_cons_self) (by decide)
  · right
    have hcs : components (head' ++ [47]) = cs := by
      rw [components, List.append_assoc, List.singleton_append, words_append_blank_cons rfl,
        words_singleton hbase hplain] at h
      rw [components, words_append_blank_cons rfl, words_nil, List.append_nil]
      exact (List.append_inj' h rfl).1
    have hslash : (head' ++ [47]).head? = path.head? :=
      head?_of_prefix ⟨base ++ slashes, by rw [hpath, List.append_assoc _ base]⟩ (by simp)
    have hparent := List.rdropWhile_prefix (· == 47) (head' ++ [47])
    rw [← hcs, ← hslash, if_neg (by simp), ← components_rdropWhile (head' ++ [47])]
    by_cases hroot : (head' ++ [47]).rdropWhile (· == 47) = []
    · rw [if_pos hroot, hroot]
      have hfirst : (head' ++ [47]).head? = some 47 := by
        rw [List.rdropWhile_eq_nil_iff] at hroot
        have hne : head' ++ [47] ≠ [] := by simp
        obtain ⟨c, hc⟩ := Option.isSome_iff_exists.mp (List.isSome_head?.mpr hne)
        rw [hc, beq_iff_eq.mp (hroot c (List.mem_of_mem_head? hc))]
      by_cases htwo : (head' ++ [47]).length = 2
      · rw [if_pos htwo, hfirst]
        exact ⟨by simp, by decide, rfl⟩
      · rw [if_neg htwo, hfirst]
        exact ⟨by simp, by decide, rfl⟩
    · rw [if_neg hroot]
      exact ⟨hroot, rfl, head?_of_prefix hparent hroot⟩

/-- Whether `dirname` gives the path back. -/
def isTop (path : List UInt8) : Bool := path = [46] ∨ path = [47] ∨ path = [47, 47]

theorem isTop_dirname (h : components path = []) : isTop (dirname path) = true := by
  have hslash : ∀ c ∈ path, (c == 47) = true := blank_of_words_nil h
  have hcore : path.rdropWhile (· == 47) = [] := List.rdropWhile_eq_nil_iff.mpr hslash
  have hparent : (path.rdropWhile (· != 47)).rdropWhile (· == 47) = [] :=
    List.rdropWhile_eq_nil_iff.mpr fun c hc ↦
      hslash c ((List.rdropWhile_prefix (· != 47) path).subset hc)
  rw [dirname, hcore, if_pos rfl, hparent, if_pos rfl]
  split_ifs
  · rfl
  · rfl
  · rfl

theorem dirname_cases (path : List UInt8) : isTop (dirname path) = true ∨
    (dirname path).length < path.length ∧
      ∃ hne : dirname path ≠ [], ¬((dirname path).getLast hne == 47) = true := by
  rw [dirname]
  set core := path.rdropWhile (· == 47)
  set head := (if core = [] then path else core).rdropWhile (· != 47) with hhead
  by_cases hnil : head = []
  · rw [if_pos hnil]
    exact .inl rfl
  · rw [if_neg hnil]
    by_cases hroot : head.rdropWhile (· == 47) = []
    · rw [if_pos hroot]
      split_ifs
      · exact .inl rfl
      · exact .inl rfl
    · rw [if_neg hroot]
      have hslash : ¬(head.getLast hnil != 47) = true := List.rdropWhile_last_not _ _ hnil
      have hshort : (head.rdropWhile (· == 47)).length < head.length := by
        refine Nat.lt_of_le_of_ne (List.rdropWhile_prefix _ _).length_le fun hlen ↦ ?_
        have heq := (List.rdropWhile_prefix (· == 47) head).eq_of_length hlen
        rw [List.rdropWhile_eq_self_iff] at heq
        exact heq hnil (by simpa using hslash)
      have hhead : head.length ≤ path.length := by
        refine (List.rdropWhile_prefix _ _).length_le.trans ?_
        split_ifs
        · exact le_rfl
        · exact (List.rdropWhile_prefix _ _).length_le
      exact .inr ⟨hshort.trans_le hhead, hroot, List.rdropWhile_last_not _ _ hroot⟩

theorem dirname_length (path : List UInt8) :
    isTop (dirname path) = true ∨ (dirname path).length < path.length :=
  (dirname_cases path).imp_right And.left

theorem isTop_of_components_nil (h : components (dirname path) = []) :
    isTop (dirname path) = true := by
  have hslash : ∀ c ∈ dirname path, (c == 47) = true := blank_of_words_nil h
  exact (dirname_cases path).resolve_right fun ⟨_, hne, hlast⟩ ↦
    hlast (hslash _ (List.getLast_mem hne))

/-- **The way up.** What holds at a dot and at the root, and of a path if it holds of its `dirname`,
holds of every path. -/
theorem dirname_induction {P : List UInt8 → Prop} (htop : ∀ path, isTop path = true → P path)
    (hstep : ∀ path, isTop path ≠ true → P (dirname path) → P path) (path : List UInt8) :
    P path := by
  induction hlen : path.length using Nat.strong_induction_on generalizing path with
  | _ len ih =>
    by_cases hpath : isTop path = true
    · exact htop path hpath
    · refine hstep path hpath ?_
      rcases dirname_length path with hdot | hlt
      · exact htop _ hdot
      · exact ih _ (hlen ▸ hlt) _ rfl

/-! ## Resolution -/

/-- Why `mkdir` fails. -/
inductive MkdirError
  /-- `EEXIST` -/
  | exist
  | resolution (e : Errno)
  /-- Anything else, such as no space or no permission. -/
  | refused (why : ℕ)
  deriving DecidableEq

namespace Fs

variable {fs fs' : Fs} {cur d p q : Path} {o : Object}
  {follow : Path → List UInt8 → Path → Except Errno Path}

/-- `stat`, of a string. -/
def resolve (fs : Fs) (cwd : Path) (path : List UInt8) : Except Errno Path :=
  if path = [] then .error .noent
  else
    match fs.walk 40 (start cwd path) (components path) with
    | .error e => .error e
    | .ok d =>
      if path.getLast? = some 47 ∧ fs.lookup d ≠ some .directory then .error .notdir else .ok d

/-- A path leads to a directory. -/
def IsDirectory (fs : Fs) (cwd : Path) (path : List UInt8) : Prop :=
  ∃ d, fs.resolve cwd path = .ok d ∧ fs.lookup d = some .directory

/-- Names lead to a directory. -/
def Leads (fs : Fs) (cur q d : Path) : Prop :=
  fs.walk 40 cur q = .ok d ∧ fs.lookup d = some .directory

theorem isDirectory_iff {cwd : Path} : fs.IsDirectory cwd path ↔
    path ≠ [] ∧ ∃ d, fs.Leads (start cwd path) (components path) d := by
  rw [IsDirectory]
  by_cases hnil : path = []
  · rw [hnil]
    exact iff_of_false (fun ⟨_, h, _⟩ ↦ by cases h) fun h ↦ h.1 rfl
  simp only [resolve, Leads, ne_eq, hnil, if_false, not_false_eq_true, true_and]
  cases hwalk : fs.walk 40 (start cwd path) (components path) with
  | error e => simp
  | ok d =>
    simp only [Except.ok.injEq, exists_eq_left']
    constructor
    · rintro ⟨d', h, hdir⟩
      split_ifs at h
      obtain rfl := Except.ok.inj h
      exact hdir
    · intro hdir
      refine ⟨d, if_neg ?_, hdir⟩
      exact fun h ↦ h.2 hdir

theorem walkWith_prefix (hfollow : ∀ cur target rest r, follow cur target (rest ++ r) = .ok p →
      ∃ d, follow cur target rest = .ok d) {r : Path}
    (h : fs.walkWith follow cur (q ++ r) = .ok p) : ∃ d, fs.walkWith follow cur q = .ok d := by
  induction q generalizing cur with
  | nil => exact ⟨cur, rfl⟩
  | cons n q ih =>
    rw [List.cons_append] at h
    rcases walkWith_step (Sub.refl fs) cur n with ⟨e, herror⟩ | ⟨next, hnext⟩ | ⟨target, htarget⟩
    · rw [herror] at h
      exact absurd h (by simp)
    · rw [(hnext follow _).1] at h ⊢
      exact ih h
    · rw [(htarget follow _).1] at h ⊢
      exact hfollow _ _ _ _ h

theorem walk_prefix (k : ℕ) {r : Path} (h : fs.walk k cur (q ++ r) = .ok p) :
    ∃ d, fs.walk k cur q = .ok d := by
  induction k generalizing cur q r with
  | zero =>
    refine walkWith_prefix (fun _ _ _ _ h ↦ ?_) h
    exact absurd h (by simp)
  | succ k ih =>
    refine walkWith_prefix (fun cur target rest r h ↦ ?_) h
    match target with
    | [] => exact absurd h (by simp)
    | c :: target =>
      simp only [← List.append_assoc] at h
      exact ih h

theorem walk_concat (h : fs.walk 40 cur (q ++ [n]) = .ok p) :
    ∃ d j, fs.Leads cur q d ∧ ∀ r, fs.walk 40 cur (q ++ r) = fs.walk j d r := by
  obtain ⟨d, hd⟩ := walk_prefix 40 h
  obtain ⟨j, hj⟩ := walk_rest 40 hd
  refine ⟨d, j, ⟨hd, ?_⟩, hj⟩
  rw [hj] at h
  by_contra hdir
  have herror : fs.walk j d [n] = .error .notdir := by
    match j with
    | 0 => exact if_pos hdir
    | j + 1 => exact if_pos hdir
  rw [herror] at h
  exact absurd h (by simp)

theorem Leads.step (h : fs.Leads cur q d) : ∃ j, ∀ r, fs.walk 40 cur (q ++ r) = fs.walk j d r :=
  walk_rest 40 h.1

/-! ## A new entry -/

/-- There is room for a name in a directory. -/
def Free (fs : Fs) (d : Path) (n : Name) : Prop :=
  fs.lookup d = some .directory ∧ ValidName n ∧ fs.lookup (d ++ [n]) = none

instance (fs : Fs) (d : Path) (n : Name) : Decidable (fs.Free d n) :=
  inferInstanceAs (Decidable (_ ∧ _ ∧ _))

/-- The file system with a new object in a directory, if there is nothing of that name. -/
def insert (fs : Fs) (d : Path) (n : Name) (o : Object) : Fs :=
  if h : fs.Free d n then
    { objects := fs.objects ++ [(d ++ [n], o)]
      nodup := by
        rw [List.map_append, List.nodup_append]
        refine ⟨fs.nodup, List.nodup_singleton _, ?_⟩
        rintro p hp _ hq rfl
        obtain ⟨⟨p, o'⟩, he, rfl⟩ := List.mem_map.mp hp
        obtain rfl := List.mem_singleton.mp hq
        have hthere := (lookup_eq_some_iff (fs.parent _ he).1).mpr he
        rw [h.2.2] at hthere
        exact absurd hthere (by simp)
      parent := by
        intro e he
        rcases List.mem_append.mp he with he | he
        · obtain ⟨hne, hparent⟩ := fs.parent e he
          exact ⟨hne, hparent.imp_right (List.mem_append_left _)⟩
        · obtain rfl := List.mem_singleton.mp he
          refine ⟨by simp, ?_⟩
          rw [List.dropLast_concat]
          by_cases hd : d = []
          · exact .inl hd
          · exact .inr (List.mem_append_left _ ((lookup_eq_some_iff hd).mp h.1))
      names := by
        intro e he m hm
        rcases List.mem_append.mp he with he | he
        · exact fs.names e he m hm
        · obtain rfl := List.mem_singleton.mp he
          rcases List.mem_append.mp hm with hm | hm
          · by_cases hd : d = []
            · rw [hd] at hm
              exact absurd hm List.not_mem_nil
            · exact fs.names _ ((lookup_eq_some_iff hd).mp h.1) m hm
          · rw [List.mem_singleton.mp hm]
            exact h.2.1 }
  else fs

theorem insert_of_not_free (h : ¬fs.Free d n) : fs.insert d n o = fs := dif_neg h

theorem lookup_insert (h : fs.Free d n) (q : Path) :
    (fs.insert d n o).lookup q = if q = d ++ [n] then some o else fs.lookup q := by
  by_cases hq : q = []
  · rw [hq, if_neg (by simp)]
    rfl
  · ext o'
    rw [lookup_eq_some_iff hq, insert, dif_pos h, List.mem_append, List.mem_singleton,
      Prod.mk.injEq]
    by_cases hnew : q = d ++ [n]
    · rw [if_pos hnew, Option.some_inj, ← lookup_eq_some_iff hq, hnew, h.2.2]
      simp [eq_comm]
    · rw [if_neg hnew, lookup_eq_some_iff hq]
      simp [hnew]

theorem sub_insert (fs : Fs) (d : Path) (n : Name) (o : Object) : Sub fs (fs.insert d n o) := by
  intro q o' ho
  by_cases h : fs.Free d n
  · rw [lookup_insert h, if_neg, ho]
    rintro rfl
    rw [h.2.2] at ho
    exact absurd ho (by simp)
  · rw [insert_of_not_free h]
    exact ho

theorem Leads.mono (hsub : Sub fs fs') (h : fs.Leads cur q d) : fs'.Leads cur q d :=
  ⟨walk_mono hsub 40 h.1, hsub _ _ h.2⟩

theorem Leads.dots (h : fs.Leads cur q d) (hn : n = [46] ∨ n = [46, 46]) :
    ∃ d', fs.Leads cur (q ++ [n]) d' := by
  obtain ⟨j, hj⟩ := h.step
  rcases hn with rfl | rfl
  · refine ⟨d, (hj _).trans ?_, h.2⟩
    match j with
    | 0 => exact if_neg (not_not_intro h.2)
    | j + 1 => exact if_neg (not_not_intro h.2)
  · refine ⟨d.dropLast, (hj _).trans ?_, ?_⟩
    · match j with
      | 0 => exact if_neg (not_not_intro h.2)
      | j + 1 => exact if_neg (not_not_intro h.2)
    · induction d using List.reverseRecOn with
      | nil => rfl
      | append_singleton d m =>
        rw [List.dropLast_concat]
        exact lookup_parent h.2

theorem Leads.insert (h : fs.Leads cur q d) (hfree : fs.Free d n) :
    (fs.insert d n .directory).Leads cur (q ++ [n]) (d ++ [n]) := by
  have hnew : (fs.insert d n .directory).lookup (d ++ [n]) = some .directory := by
    rw [lookup_insert hfree, if_pos rfl]
  obtain ⟨j, hj⟩ := (h.mono (sub_insert fs d n .directory)).step
  refine ⟨(hj _).trans ?_, hnew⟩
  match j with
  | 0 => exact walkWith_append hnew (by simp)
  | j + 1 => exact walkWith_append hnew (by simp)

/-! ## Making directories -/

/-- `mkdir`. Whether it refuses to add an entry that it could add is decided by `refuse`. -/
def mkdir (refuse : Fs → Path → Option ℕ) (cwd : Path) (path : List UInt8) (fs : Fs) :
    Except MkdirError Fs :=
  if path = [] then .error (.resolution .noent)
  else
    match (components path).getLast? with
    | none => .error .exist
    | some n =>
      match fs.walk 40 (start cwd path) (components path).dropLast with
      | .error e => .error (.resolution e)
      | .ok d =>
        if fs.lookup d ≠ some .directory then .error (.resolution .notdir)
        else if n = [46] ∨ n = [46, 46] ∨ fs.lookup (d ++ [n]) ≠ none then .error .exist
        else
          match refuse fs (d ++ [n]) with
          | some why => .error (.refused why)
          | none => .ok (fs.insert d n .directory)

/-- With a directory under the last of the names, if it is missing and can be added. -/
def makeDir (fs : Fs) (cur q : Path) : Fs :=
  match q.getLast? with
  | none => fs
  | some n =>
    match fs.walk 40 cur q.dropLast with
    | .error _ => fs
    | .ok d => fs.insert d n .directory

/-- With every directory on the way that is missing and can be added, one after the other. -/
def withDirs (fs : Fs) (cur q : Path) : Fs := q.inits.foldl (fun fs r ↦ fs.makeDir cur r) fs

theorem makeDir_concat (h : fs.Leads cur q d) : fs.makeDir cur (q ++ [n]) =
    fs.insert d n .directory := by
  rw [makeDir, List.getLast?_concat, List.dropLast_concat]
  simp only [h.1]

theorem makeDir_of_not_leads (h : ∀ d, ¬fs.Leads cur q d) : fs.makeDir cur (q ++ [n]) = fs := by
  rw [makeDir, List.getLast?_concat, List.dropLast_concat]
  cases hwalk : fs.walk 40 cur q with
  | error e => rfl
  | ok d => exact insert_of_not_free fun hfree ↦ h d ⟨hwalk, hfree.1⟩

theorem withDirs_nil (fs : Fs) (cur : Path) : fs.withDirs cur [] = fs := rfl

theorem withDirs_concat (fs : Fs) (cur q : Path) (n : Name) :
    fs.withDirs cur (q ++ [n]) = (fs.withDirs cur q).makeDir cur (q ++ [n]) := by
  rw [withDirs, List.inits_append]
  simp [withDirs]

theorem sub_makeDir (fs : Fs) (cur q : Path) : Sub fs (fs.makeDir cur q) := by
  rw [makeDir]
  split
  · exact Sub.refl fs
  · split
    · exact Sub.refl fs
    · exact sub_insert _ _ _ _

theorem lookup_withDirs (fs : Fs) (cur q : Path) : Sub fs (fs.withDirs cur q) ∧
    ∀ p o, (fs.withDirs cur q).lookup p = some o → fs.lookup p = some o ∨ o = .directory := by
  induction q using List.reverseRecOn with
  | nil => exact ⟨Sub.refl fs, fun _ _ ↦ .inl⟩
  | append_singleton q n ih =>
    rw [withDirs_concat]
    refine ⟨ih.1.trans (sub_makeDir _ _ _), fun p o ho ↦ ?_⟩
    by_cases hleads : ∃ d, (fs.withDirs cur q).Leads cur q d
    · obtain ⟨d, hd⟩ := hleads
      rw [makeDir_concat hd] at ho
      by_cases hfree : (fs.withDirs cur q).Free d n
      · rw [lookup_insert hfree] at ho
        by_cases hnew : p = d ++ [n]
        · rw [if_pos hnew] at ho
          exact .inr (Option.some.inj ho).symm
        · rw [if_neg hnew] at ho
          exact ih.2 p o ho
      · rw [insert_of_not_free hfree] at ho
        exact ih.2 p o ho
    · rw [makeDir_of_not_leads (not_exists.mp hleads)] at ho
      exact ih.2 p o ho

theorem Leads.of_withDirs (h : (fs.withDirs cur (q ++ [n])).Leads cur (q ++ [n]) d) :
    ∃ d', (fs.withDirs cur q).Leads cur q d' := by
  obtain ⟨d', -, hd', -⟩ := walk_concat h.1
  by_cases hleads : ∃ c, (fs.withDirs cur q).Leads cur q c
  · exact hleads
  · rw [withDirs_concat, makeDir_of_not_leads (not_exists.mp hleads)] at hd'
    exact ⟨d', hd'⟩

section Mkdir

variable {refuse : Fs → Path → Option ℕ} {cwd : Path}

/-- **The call**, where its last name can be looked up. -/
theorem mkdir_of_leads (hpath : components path = q ++ [n])
    (h : fs.Leads (start cwd path) q d) : fs.mkdir refuse cwd path =
      if fs.Free d n then
        match refuse fs (d ++ [n]) with
        | some why => .error (.refused why)
        | none => .ok (fs.insert d n .directory)
      else .error .exist := by
  have hne : path ≠ [] := by
    rintro rfl
    exact absurd hpath (by simp [components, words_nil])
  rw [mkdir, if_neg hne, hpath, List.getLast?_concat, List.dropLast_concat]
  simp only [h.1, if_neg (not_not_intro h.2)]
  by_cases hfree : fs.Free d n
  · rw [if_pos hfree, if_neg]
    rintro (rfl | rfl | hthere)
    · exact hfree.2.1.2.1 rfl
    · exact hfree.2.1.2.2.1 rfl
    · exact hthere hfree.2.2
  · rw [if_neg hfree, if_pos]
    by_contra hnone
    push Not at hnone
    have hmem : n ∈ components path := by simp [hpath]
    exact hfree ⟨h.2, validName_of_mem_components hmem hnone.1 hnone.2.1, hnone.2.2⟩

theorem mkdir_of_not_leads (refuse : Fs → Path → Option ℕ) (hpath : components path = q ++ [n])
    (h : ∀ d, ¬fs.Leads (start cwd path) q d) :
    ∃ e, fs.mkdir refuse cwd path = .error (.resolution e) := by
  rw [mkdir, hpath, List.getLast?_concat, List.dropLast_concat]
  split_ifs
  · exact ⟨_, rfl⟩
  · cases hwalk : fs.walk 40 (start cwd path) q with
    | error e => exact ⟨e, rfl⟩
    | ok d => exact ⟨.notdir, if_pos fun hdir ↦ h d ⟨hwalk, hdir⟩⟩

theorem mkdir_of_components_nil (hne : path ≠ []) (hpath : components path = []) :
    fs.mkdir refuse cwd path = .error .exist := by
  rw [mkdir, if_neg hne, hpath]
  rfl

end Mkdir

end Fs

end FileTree
