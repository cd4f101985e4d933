import ClrDebugInfo.Library.MakeDir

/-!
# Directories and their parents (`src/nica/files.c`)

`nc_mkdir_p` goes up by `dirname` to a dot or the root, and comes back down with one `mkdir` for
every path on the way. `EEXIST` counts as success. That is right for every path but the last: what
hides behind `EEXIST` there is looked through by the next `mkdir`, which fails if it is no
directory. Behind the last path nobody looks.

So the answer is true exactly if the path, once the missing directories on the way to it are there,
is not the name of something else than a directory.
-/

namespace ClrDebugInfo

open FileTree

/-! ## The code -/

/-- The file system, and `errno`. -/
structure MkdirState where
  fs : Fs
  errno : MkdirError

/-- `nc_mkdir_p`. The copy of the path that `dirname` cuts can be allocated. -/
def ncMkdirP (refuse : Fs → Path → Option ℕ) (cwd : Path) (path : List UInt8) (s : MkdirState) :
    Bool × MkdirState :=
  if isTop path = true then (true, s)
  else
    let (made, s) := ncMkdirP refuse cwd (dirname path) s
    if !made && s.errno ≠ .exist then (false, s)
    else
      match s.fs.mkdir refuse cwd path with
      | .ok fs => (true, { s with fs })
      | .error e => (!decide (e ≠ .exist), { s with errno := e })
termination_by if isTop path = true then 0 else path.length + 1
decreasing_by
  rename_i htop
  rcases dirname_length path with hdot | hlt
  · rw [if_pos hdot, if_neg htop]
    exact Nat.succ_pos _
  · rw [if_neg htop]
    split_ifs
    · exact Nat.succ_pos _
    · exact Nat.succ_lt_succ hlt

/-- What a true answer says: the path and everything above it are directories, what was there is
there unchanged, and what is new is a directory. -/
structure MadeAll (fs fs' : Fs) (cwd : Path) (path : List UInt8) : Prop where
  directories : ∀ k, fs'.IsDirectory cwd (dirname^[k] path)
  old : Fs.Sub fs fs'
  new : ∀ p o, fs'.lookup p = some o → fs.lookup p = some o ∨ o = .directory

/-- The object that a path is the name of, in the directory where its last name is looked up. -/
def named (fs : Fs) (cwd : Path) (path : List UInt8) : Option Object :=
  match (components path).getLast? with
  | none => none
  | some n =>
    match fs.walk 40 (start cwd path) (components path).dropLast with
    | .error _ => none
    | .ok d => fs.lookup (d ++ [n])

/-- The file system with the directories on the way to a path. -/
def withParents (fs : Fs) (cwd : Path) (path : List UInt8) : Fs :=
  fs.withDirs (start cwd path) (components path).dropLast

/-! ## One level -/

variable {refuse : Fs → Path → Option ℕ} {cwd cs d : Path} {path : List UInt8} {n : Name}
  {s t : MkdirState} {fs fs' : Fs}

private theorem ncMkdirP_errno (refuse : Fs → Path → Option ℕ) (cwd : Path) (path : List UInt8)
    (s : MkdirState) (h : (ncMkdirP refuse cwd path s).1 = false) :
    (ncMkdirP refuse cwd path s).2.errno ≠ .exist := by
  rw [ncMkdirP] at h ⊢
  by_cases htop : isTop path = true
  · rw [if_pos htop] at h
    exact absurd h (by simp)
  simp only [if_neg htop] at h ⊢
  split_ifs at h ⊢ with hfail
  · simp only [Bool.and_eq_true, decide_eq_true_eq] at hfail
    exact hfail.2
  · cases hmkdir : (ncMkdirP refuse cwd (dirname path) s).2.fs.mkdir refuse cwd path with
    | ok fs =>
      rw [hmkdir] at h
      exact absurd h (by simp)
    | error e =>
      rw [hmkdir] at h
      simpa using h

/-- **One level.** The test of `errno` after the call for the parent never saves a failure. -/
theorem ncMkdirP_step (htop : isTop path ≠ true) (refuse : Fs → Path → Option ℕ) (cwd : Path)
    (s : MkdirState) : ∃ made s₁, ncMkdirP refuse cwd (dirname path) s = (made, s₁) ∧
      ncMkdirP refuse cwd path s =
        if made = true then
          match s₁.fs.mkdir refuse cwd path with
          | .ok fs => (true, { s₁ with fs })
          | .error e => (decide (e = .exist), { s₁ with errno := e })
        else (false, s₁) := by
  refine ⟨_, _, rfl, ?_⟩
  have herrno := ncMkdirP_errno refuse cwd (dirname path) s
  rw [ncMkdirP]
  simp only [if_neg htop]
  cases hmade : (ncMkdirP refuse cwd (dirname path) s).1 with
  | true => simp
  | false => simp [herrno hmade]

/-! ## The way back down -/

private theorem start_dirname (cwd : Path) (hpath : components path = cs ++ [n]) :
    dirname path = [46] ∧ cs = [] ∧ start cwd path = cwd ∨
      components (dirname path) = cs ∧ start cwd (dirname path) = start cwd path := by
  rcases dirname_components hpath with ⟨hdot, hnil, hhead⟩ | ⟨-, hcs, hhead⟩
  · exact .inl ⟨hdot, hnil, if_neg hhead⟩
  · exact .inr ⟨hcs, by rw [start, start, hhead]⟩

private theorem components_dot : components [46] = [[46]] := by decide

private theorem withDirs_dot (fs : Fs) (cwd : Path) : fs.withDirs cwd [[46]] = fs := by
  have hcwd := Fs.withDirs_concat fs cwd [] [46]
  rw [List.nil_append, Fs.withDirs_nil] at hcwd
  rw [hcwd]
  exact Fs.insert_of_not_free fun h ↦ h.2.1.2.1 rfl

private theorem withDirs_dirname (hpath : components path = cs ++ [n]) :
    fs.withDirs (start cwd (dirname path)) (components (dirname path)) =
      fs.withDirs (start cwd path) cs := by
  rcases start_dirname cwd hpath with ⟨hdot, rfl, hstart⟩ | ⟨hcs, hstart⟩
  · rw [hdot, components_dot, Fs.withDirs_nil]
    exact withDirs_dot fs cwd
  · rw [hcs, hstart]

/-- **A true answer.** The missing directories are there, and what comes before the last name leads
to one of them. -/
theorem ncMkdirP_true (hcwd : s.fs.lookup cwd = some .directory)
    (h : ncMkdirP refuse cwd path s = (true, t)) : path ≠ [] ∧
      t.fs = s.fs.withDirs (start cwd path) (components path) ∧
      ∀ cs n, components path = cs ++ [n] →
        ∃ d, (s.fs.withDirs (start cwd path) cs).Leads (start cwd path) cs d := by
  induction path using dirname_induction generalizing t with
  | htop path htop =>
    rw [ncMkdirP, if_pos htop] at h
    obtain rfl := (Prod.mk.inj h).2
    have hroot : ∀ path, start cwd path = [] → components path = [] → path ≠ [] →
        path ≠ [] ∧ s.fs = s.fs.withDirs (start cwd path) (components path) ∧
          ∀ cs n, components path = cs ++ [n] →
            ∃ d, (s.fs.withDirs (start cwd path) cs).Leads (start cwd path) cs d := by
      intro path hstart hcomponents hne
      rw [hcomponents, Fs.withDirs_nil]
      exact ⟨hne, rfl, fun cs n hcs ↦ absurd hcs (by simp)⟩
    rcases of_decide_eq_true htop with rfl | rfl | rfl
    · refine ⟨by simp, ?_, fun cs n hcs ↦ ?_⟩
      · rw [components_dot]
        exact (withDirs_dot s.fs cwd).symm
      · rw [components_dot] at hcs
        obtain ⟨rfl, -⟩ := List.append_inj' (show [] ++ [[46]] = cs ++ [n] from hcs) rfl
        exact ⟨cwd, rfl, hcwd⟩
    · exact hroot _ rfl (by decide) (by simp)
    · exact hroot _ rfl (by decide) (by simp)
  | hstep path htop ih =>
    obtain ⟨made, s₁, hrec, heq⟩ := ncMkdirP_step htop refuse cwd s
    rw [heq] at h
    cases made with
    | false => exact absurd (Prod.mk.inj h).1 (by simp)
    | true =>
      rw [if_pos rfl] at h
      obtain ⟨-, hs₁, -⟩ := ih hrec
      rcases List.eq_nil_or_concat' (components path) with hnil | ⟨cs, n, hpath⟩
      · -- a string of slashes, or the empty one
        rw [ncMkdirP, if_pos (isTop_dirname hnil)] at hrec
        obtain rfl := (Prod.mk.inj hrec).2
        have hne : path ≠ [] := by
          rintro rfl
          exact absurd (Prod.mk.inj h).1 (by simp)
        rw [Fs.mkdir_of_components_nil hne hnil] at h
        obtain rfl := (Prod.mk.inj h).2
        rw [hnil, Fs.withDirs_nil]
        exact ⟨hne, rfl, fun cs n hcs ↦ absurd hcs (by simp)⟩
      · rw [withDirs_dirname hpath] at hs₁
        have hne : path ≠ [] := by
          rintro rfl
          exact absurd hpath (by simp [components, Words.words_nil])
        have hleads : ∃ d, s₁.fs.Leads (start cwd path) cs d := by
          by_contra hnone
          obtain ⟨e, herror⟩ := Fs.mkdir_of_not_leads refuse hpath (not_exists.mp hnone)
          rw [herror] at h
          exact absurd (Prod.mk.inj h).1 (by simp)
        obtain ⟨d, hd⟩ := hleads
        have hfs : t.fs = s₁.fs.insert d n .directory := by
          rw [Fs.mkdir_of_leads hpath hd] at h
          by_cases hfree : s₁.fs.Free d n
          · rw [if_pos hfree] at h
            cases hrefuse : refuse s₁.fs (d ++ [n]) with
            | some why =>
              rw [hrefuse] at h
              exact absurd (Prod.mk.inj h).1 (by simp)
            | none =>
              rw [hrefuse] at h
              obtain rfl := (Prod.mk.inj h).2
              rfl
          · rw [if_neg hfree] at h
            obtain rfl := (Prod.mk.inj h).2
            exact (Fs.insert_of_not_free hfree).symm
        refine ⟨hne, ?_, fun cs' n' hcs ↦ ?_⟩
        · rw [hpath, Fs.withDirs_concat, ← hs₁, Fs.makeDir_concat hd, hfs]
        · obtain ⟨rfl, -⟩ := List.append_inj' (hpath.symm.trans hcs) rfl
          exact ⟨d, hs₁ ▸ hd⟩

/-- **No refusals.** The answer is true if what comes before the last name leads to a directory once
the directories are there. -/
theorem ncMkdirP_of_leads (hcwd : s.fs.lookup cwd = some .directory)
    (hpath : components path = cs ++ [n])
    (h : (s.fs.withDirs (start cwd path) cs).Leads (start cwd path) cs d) :
    ∃ t, ncMkdirP (fun _ _ ↦ none) cwd path s = (true, t) := by
  induction path using dirname_induction generalizing cs n d with
  | htop path htop => exact ⟨s, by rw [ncMkdirP, if_pos htop]⟩
  | hstep path htop ih =>
    have hparent : ∃ t, ncMkdirP (fun _ _ ↦ none) cwd (dirname path) s = (true, t) := by
      by_cases hdot : isTop (dirname path) = true
      · exact ⟨s, by rw [ncMkdirP, if_pos hdot]⟩
      rcases start_dirname cwd hpath with ⟨hd, -⟩ | ⟨hcs, hstart⟩
      · rw [hd] at hdot
        exact absurd rfl hdot
      · rcases List.eq_nil_or_concat' cs with rfl | ⟨cs', n', rfl⟩
        · exact absurd (isTop_of_components_nil hcs) hdot
        · obtain ⟨d', hd'⟩ := h.of_withDirs
          exact ih hcs (hstart ▸ hd')
    obtain ⟨t₁, ht₁⟩ := hparent
    obtain ⟨-, hfs, -⟩ := ncMkdirP_true hcwd ht₁
    rw [withDirs_dirname hpath] at hfs
    obtain ⟨made, s₁, hrec, heq⟩ := ncMkdirP_step htop (fun _ _ ↦ none) cwd s
    obtain ⟨rfl, rfl⟩ := Prod.mk.inj (ht₁.symm.trans hrec)
    rw [heq, if_pos rfl, Fs.mkdir_of_leads hpath (hfs ▸ h)]
    by_cases hfree : t₁.fs.Free d n
    · rw [if_pos hfree]
      exact ⟨_, rfl⟩
    · rw [if_neg hfree]
      exact ⟨_, rfl⟩

/-! ## What a true answer is worth -/

private theorem isDirectory_dirname (hcwd : fs.lookup cwd = some .directory)
    (h : fs.IsDirectory cwd path) : fs.IsDirectory cwd (dirname path) := by
  have hroot : ∀ path, start cwd path = [] → components path = [] → path ≠ [] →
      fs.IsDirectory cwd path := by
    intro path hstart hcomponents hne
    rw [Fs.isDirectory_iff, hstart, hcomponents]
    exact ⟨hne, [], rfl, rfl⟩
  have htop : ∀ path, isTop path = true → fs.IsDirectory cwd path := by
    intro path htop
    rcases of_decide_eq_true htop with rfl | rfl | rfl
    · rw [Fs.isDirectory_iff, components_dot]
      exact ⟨by simp, cwd, if_neg (not_not_intro hcwd), hcwd⟩
    · exact hroot _ rfl (by decide) (by simp)
    · exact hroot _ rfl (by decide) (by simp)
  obtain ⟨-, d, hd⟩ := Fs.isDirectory_iff.mp h
  rcases List.eq_nil_or_concat' (components path) with hnil | ⟨cs, n, hpath⟩
  · exact htop _ (isTop_dirname hnil)
  · rcases dirname_components hpath with ⟨hdot, -⟩ | ⟨hne, hcs, hhead⟩
    · rw [hdot]
      exact htop _ rfl
    · rw [hpath] at hd
      obtain ⟨d', -, hd', -⟩ := Fs.walk_concat hd.1
      rw [Fs.isDirectory_iff, hcs, start, hhead]
      exact ⟨hne, d', hd'⟩

private theorem named_of_leads (hpath : components path = cs ++ [n])
    (h : fs.Leads (start cwd path) cs d) : named fs cwd path = fs.lookup (d ++ [n]) := by
  rw [named, hpath, List.getLast?_concat, List.dropLast_concat]
  simp only [h.1]

private theorem exists_leads_of_named (h : named fs cwd path ≠ none) : ∃ cs n d,
    components path = cs ++ [n] ∧ fs.Leads (start cwd path) cs d ∧ fs.lookup (d ++ [n]) ≠ none := by
  rcases List.eq_nil_or_concat' (components path) with hnil | ⟨cs, n, hpath⟩
  · rw [named, hnil] at h
    exact absurd rfl h
  rw [named, hpath, List.getLast?_concat, List.dropLast_concat] at h
  cases hwalk : fs.walk 40 (start cwd path) cs with
  | error e =>
    simp only [hwalk] at h
    exact absurd rfl h
  | ok d =>
    simp only [hwalk] at h
    obtain ⟨o, ho⟩ := Option.ne_none_iff_exists'.mp h
    exact ⟨cs, n, d, hpath, ⟨hwalk, Fs.lookup_parent ho⟩, h⟩

private theorem isDirectory_iterate (hcwd : fs.lookup cwd = some .directory)
    (h : fs.IsDirectory cwd path) (k : ℕ) : fs.IsDirectory cwd (dirname^[k] path) := by
  induction k with
  | zero => exact h
  | succ k ih =>
    rw [Function.iterate_succ_apply']
    exact isDirectory_dirname hcwd ih

private theorem isDirectory_of_true (hcwd : s.fs.lookup cwd = some .directory)
    (h : ncMkdirP refuse cwd path s = (true, t))
    (hfree : named (withParents s.fs cwd path) cwd path = none ∨
      (withParents s.fs cwd path).IsDirectory cwd path) : t.fs.IsDirectory cwd path := by
  obtain ⟨hne, ht, hleads⟩ := ncMkdirP_true hcwd h
  rw [Fs.isDirectory_iff, ht]
  refine ⟨hne, ?_⟩
  rcases List.eq_nil_or_concat' (components path) with hnil | ⟨cs, n, hpath⟩
  · rw [hnil, Fs.withDirs_nil]
    refine ⟨start cwd path, rfl, ?_⟩
    rw [start]
    split_ifs
    · rfl
    · exact hcwd
  obtain ⟨d, hd⟩ := hleads cs n hpath
  rw [withParents, hpath, List.dropLast_concat, named_of_leads hpath hd] at hfree
  rw [hpath, Fs.withDirs_concat, Fs.makeDir_concat hd]
  rcases hfree with hnone | hdir
  · by_cases hdots : n = [46] ∨ n = [46, 46]
    · obtain ⟨d', hd'⟩ := hd.dots hdots
      exact ⟨d', hd'.mono (Fs.sub_insert _ _ _ _)⟩
    · push Not at hdots
      have hvalid : ValidName n :=
        validName_of_mem_components (by simp [hpath] : n ∈ components path) hdots.1 hdots.2
      exact ⟨_, hd.insert ⟨hd.2, hvalid, hnone⟩⟩
  · obtain ⟨-, d', hd'⟩ := Fs.isDirectory_iff.mp hdir
    rw [hpath] at hd'
    exact ⟨d', hd'.mono (Fs.sub_insert _ _ _ _)⟩

/-- **The truth of the answer.** Whatever `mkdir` refuses, a true answer means what it says, exactly
if the path, with the directories on the way to it in place, is the name of nothing or leads to a
directory. -/
theorem ncMkdirP_truthful_iff (hcwd : fs.lookup cwd = some .directory) :
    (∀ refuse errno t, ncMkdirP refuse cwd path ⟨fs, errno⟩ = (true, t) →
        MadeAll fs t.fs cwd path) ↔
      named (withParents fs cwd path) cwd path = none ∨
        (withParents fs cwd path).IsDirectory cwd path := by
  constructor
  · intro h
    by_contra hnot
    obtain ⟨hnamed, hdir⟩ := not_or.mp hnot
    obtain ⟨cs, n, d, hpath, hd, hthere⟩ := exists_leads_of_named hnamed
    rw [withParents, hpath, List.dropLast_concat] at hd hdir hthere
    obtain ⟨t, ht⟩ := ncMkdirP_of_leads (s := ⟨fs, .exist⟩) hcwd hpath hd
    obtain ⟨-, hfs, -⟩ := ncMkdirP_true (s := ⟨fs, .exist⟩) hcwd ht
    rw [hpath, Fs.withDirs_concat, Fs.makeDir_concat hd,
      Fs.insert_of_not_free fun hfree ↦ hthere hfree.2.2] at hfs
    exact hdir (hfs ▸ (h _ _ _ ht).directories 0)
  · intro hfree refuse errno t ht
    obtain ⟨-, hfs, -⟩ := ncMkdirP_true (s := ⟨fs, errno⟩) hcwd ht
    obtain ⟨hold, hnew⟩ := Fs.lookup_withDirs fs (start cwd path) (components path)
    rw [← show t.fs = _ from hfs] at hold hnew
    have hpath := isDirectory_of_true (s := ⟨fs, errno⟩) hcwd ht hfree
    exact ⟨isDirectory_iterate (hold _ _ hcwd) hpath, hold, hnew⟩

/-- A file system with one regular file, `f`. -/
def fileInRoot : Fs where
  objects := [([[102]], .regular [])]
  nodup := by decide
  parent := by decide
  names := by decide

/-- A directory that is made below one that is missing: `/d/e`. -/
theorem ncMkdirP_truthful_iff_missing :
    (∀ refuse errno t, ncMkdirP refuse [] [47, 100, 47, 101] ⟨fileInRoot, errno⟩ = (true, t) →
        MadeAll fileInRoot t.fs [] [47, 100, 47, 101]) ↔
      named (withParents fileInRoot [] [47, 100, 47, 101]) [] [47, 100, 47, 101] = none ∨
        (withParents fileInRoot [] [47, 100, 47, 101]).IsDirectory [] [47, 100, 47, 101] :=
  ncMkdirP_truthful_iff rfl

/-- The answer for `/f` is true, but that is a regular file. -/
theorem not_madeAll_regular : ∃ t, ncMkdirP (fun _ _ ↦ none) [] [47, 102] ⟨fileInRoot, .exist⟩ =
    (true, t) ∧ t.fs = fileInRoot ∧ fileInRoot.resolve [] [47, 102] = .ok [[102]] ∧
      fileInRoot.lookup [[102]] = some (.regular []) ∧ ¬MadeAll fileInRoot t.fs [] [47, 102] := by
  have hexist : fileInRoot.mkdir (fun _ _ ↦ none) [] [47, 102] = .error .exist := by rfl
  have hresolve : fileInRoot.resolve [] [47, 102] = .ok [[102]] := by rfl
  have hlookup : fileInRoot.lookup [[102]] = some (.regular []) := by rfl
  obtain ⟨made, s₁, hrec, heq⟩ :=
    ncMkdirP_step (by decide : isTop [47, 102] ≠ true) (fun _ _ ↦ none) [] ⟨fileInRoot, .exist⟩
  rw [show dirname [47, 102] = [47] by decide, ncMkdirP, if_pos (by decide)] at hrec
  obtain ⟨rfl, rfl⟩ := Prod.mk.inj hrec
  rw [if_pos rfl, hexist] at heq
  refine ⟨_, heq, rfl, hresolve, hlookup, fun h ↦ ?_⟩
  obtain ⟨d, hd, hdir⟩ := h.directories 0
  obtain rfl := Except.ok.inj (hresolve.symm.trans hd)
  exact absurd (hlookup.symm.trans hdir) (by simp)

end ClrDebugInfo
