import Mathlib.Data.List.DropRight
import Mathlib.Data.List.MinMax
import Mathlib.Data.Set.Basic
import ClrDebugInfo.Library.FileTree

/-!
# Walking a file tree

The walk of `nftw` with `FTW_DEPTH` and without `FTW_PHYS`: a function is called for every entry,
for a directory after its content, and the walk stops at the first result that is not zero. Links
are followed, so the walk can leave the tree it started in. A directory that it has entered before,
on whatever path, is passed over without a call. So a walk ends (`nftw_total`). The walk itself
looks at an entry from the directory that it is reading, so only the function is given whole paths,
and it is for the function to say what it does with one that is too long for a system call.

A function that changes no more than the entry it is called for is local. A walk with such a
function leaves the entries of directories that were entered before alone (`visit_keeps`): that is
what makes a statement about one directory survive what the walk does elsewhere.
-/

namespace FileTree

/-- What an entry is reported as: a file, a directory after its content, a link that leads nowhere,
or something that cannot be looked at. -/
inductive FtwFlag
  | f
  | dp
  | sln
  | ns
  deriving DecidableEq

/-- The state of a walk: the file system, and the directories entered so far. -/
structure Ftw where
  fs : Fs
  seen : List Path

variable (fn : Fs → Path → FtwFlag → ℤ × Fs)

/-- A call of the function. -/
def Ftw.call (s : Ftw) (path : Path) (flag : FtwFlag) : ℤ × Ftw :=
  ((fn s.fs path flag).1, { s with fs := (fn s.fs path flag).2 })

/-- The entries of a directory, up to the first result that is not zero. -/
def visitNames (visit : Ftw → Path → Option (ℤ × Ftw)) (path : Path) :
    List Name → Ftw → Option (ℤ × Ftw)
  | [], s => some (0, s)
  | n :: names, s =>
    match visit s (path ++ [n]) with
    | none => none
    | some (r, s) => if r = 0 then visitNames visit path names s else some (r, s)

/-- One entry, and for a directory its content, `fuel` levels deep at most. -/
def visit : ℕ → Ftw → Path → Option (ℤ × Ftw)
  | 0, _, _ => none
  | fuel + 1, s, path =>
    match s.fs.stat path with
    | .error .noent =>
      some (s.call fn path
        (match (s.fs.place path).bind s.fs.lookup with
          | some (.link _) => .sln
          | _ => .ns))
    | .error _ => some (-1, s)
    | .ok d =>
      if s.fs.lookup d = some .directory then
        if d ∈ s.seen then some (0, s)
        else
          match visitNames (visit fuel) path (s.fs.children d) { s with seen := d :: s.seen } with
          | none => none
          | some (r, s) => if r = 0 then some (s.call fn path .dp) else some (r, s)
      else some (s.call fn path .f)

/-- The length of the longest place. -/
def Fs.height (fs : Fs) : ℕ := (fs.objects.map fun e ↦ e.1.length).foldr max 0

theorem Fs.length_le_height {fs : Fs} {p : Path} {o : Object} (h : fs.lookup p = some o) :
    p.length ≤ fs.height := by
  by_cases hp : p = []
  · rw [hp]
    exact Nat.zero_le _
  · rw [Fs.lookup_eq_some_iff hp] at h
    exact List.le_max_of_le' 0 (List.mem_map_of_mem h) le_rfl

/-- A path without the slashes at its end: these stand before empty names. -/
def trimSlashes (path : Path) : Path := path.rdropWhile (· = [])

/-- `nftw(path, fn, nopenfd, FTW_DEPTH)`. No directory is entered twice, so the walk is less deep
than there are objects. -/
def nftw (fs : Fs) (path : Path) : Option (ℤ × Fs) :=
  (visit fn (fs.objects.length + fs.height + 2) ⟨fs, []⟩ (trimSlashes path)).map
    fun r ↦ (r.1, r.2.fs)

/-! ## One entry -/

/-- **What the visit of an entry is.** The function is called, or the entry is left alone; or it is
a directory that is entered for the first time. -/
theorem visit_succ (fuel : ℕ) (s : Ftw) (path : Path) :
    (∃ flag, flag ≠ .dp ∧ visit fn (fuel + 1) s path = some (s.call fn path flag)) ∨
      (∃ r, visit fn (fuel + 1) s path = some (r, s)) ∨
      ∃ d, s.fs.stat path = .ok d ∧ s.fs.lookup d = some .directory ∧ d ∉ s.seen ∧
        visit fn (fuel + 1) s path =
          match visitNames (visit fn fuel) path (s.fs.children d) ⟨s.fs, d :: s.seen⟩ with
          | none => none
          | some (r, s) => if r = 0 then some (s.call fn path .dp) else some (r, s) := by
  rw [visit]
  match hstat : s.fs.stat path with
  | .error .noent =>
    refine .inl ⟨_, ?_, rfl⟩
    split
    · simp
    · simp
  | .error .notdir => exact .inr (.inl ⟨-1, rfl⟩)
  | .error .loop => exact .inr (.inl ⟨-1, rfl⟩)
  | .ok d =>
    simp only
    by_cases hdir : s.fs.lookup d = some .directory
    · rw [if_pos hdir]
      by_cases hseen : d ∈ s.seen
      · rw [if_pos hseen]
        exact .inr (.inl ⟨0, rfl⟩)
      · rw [if_neg hseen]
        exact .inr (.inr ⟨d, rfl, hdir, hseen, rfl⟩)
    · rw [if_neg hdir]
      exact .inl ⟨.f, by simp, rfl⟩

variable {fn}

theorem visitNames_cons {visit : Ftw → Path → Option (ℤ × Ftw)} {path : Path} {n : Name}
    {names : List Name} {s s' : Ftw} {r : ℤ}
    (h : visitNames visit path (n :: names) s = some (r, s')) :
    ∃ r₁ s₁, visit s (path ++ [n]) = some (r₁, s₁) ∧
      (r₁ = 0 ∧ visitNames visit path names s₁ = some (r, s') ∨ r₁ ≠ 0 ∧ r₁ = r ∧ s₁ = s') := by
  rw [visitNames] at h
  match hn : visit s (path ++ [n]) with
  | none =>
    rw [hn] at h
    exact absurd h (by simp)
  | some (r₁, s₁) =>
    simp only [hn] at h
    refine ⟨r₁, s₁, rfl, ?_⟩
    by_cases hr : r₁ = 0
    · rw [if_pos hr] at h
      exact .inl ⟨hr, h⟩
    · rw [if_neg hr] at h
      exact .inr ⟨hr, Prod.mk.inj (Option.some.inj h)⟩

theorem directory_end {path : Path} {s' : Ftw} {r : ℤ} {content : Option (ℤ × Ftw)}
    (h : (match content with
      | none => none
      | some (r, s) => if r = 0 then some (s.call fn path .dp) else some (r, s)) = some (r, s')) :
    ∃ r₁ s₁, content = some (r₁, s₁) ∧
      (r₁ = 0 ∧ s₁.call fn path .dp = (r, s') ∨ r₁ ≠ 0 ∧ r₁ = r ∧ s₁ = s') := by
  match content with
  | none => exact absurd h (by simp)
  | some (r₁, s₁) =>
    refine ⟨r₁, s₁, rfl, ?_⟩
    simp only at h
    by_cases hr : r₁ = 0
    · rw [if_pos hr] at h
      exact .inl ⟨hr, Option.some.inj h⟩
    · rw [if_neg hr] at h
      exact .inr ⟨hr, Prod.mk.inj (Option.some.inj h)⟩

/-! ## Local functions -/

/-- The function changes no more than the entry it is called for, and adds nothing. -/
structure Local (fn : Fs → Path → FtwFlag → ℤ × Fs) : Prop where
  sub : ∀ fs path flag, Fs.Sub (fn fs path flag).2 fs
  keep : ∀ fs path n flag d, (∀ c, fs.stat path = .ok c → c = d) → ∀ c m, c ++ [m] ≠ d ++ [n] →
    (fn fs (path ++ [n]) flag).2.lookup (c ++ [m]) = fs.lookup (c ++ [m])

/-- From `s` to `s'` nothing was added, and the entries of directories that were entered before `s`
are as they were, if they are not in `out`. -/
structure Keeps (s s' : Ftw) (out : Set Path) : Prop where
  sub : Fs.Sub s'.fs s.fs
  seen : s.seen ⊆ s'.seen
  keep : ∀ d ∈ s.seen, ∀ n, d ++ [n] ∉ out → s'.fs.lookup (d ++ [n]) = s.fs.lookup (d ++ [n])

namespace Keeps

variable {s s' s'' : Ftw} {out out' : Set Path}

theorem refl (s : Ftw) (out : Set Path) : Keeps s s out :=
  ⟨Fs.Sub.refl _, fun _ h ↦ h, fun _ _ _ _ ↦ rfl⟩

theorem trans (h : Keeps s s' out) (h' : Keeps s' s'' out') : Keeps s s'' (out ∪ out') := by
  refine ⟨h'.sub.trans h.sub, fun d hd ↦ h'.seen (h.seen hd), fun d hd n hn ↦ ?_⟩
  rw [Set.mem_union, not_or] at hn
  rw [h'.keep d (h.seen hd) n hn.2, h.keep d hd n hn.1]

theorem mono (h : Keeps s s' out) (hout : out ⊆ out') : Keeps s s' out' :=
  ⟨h.sub, h.seen, fun d hd n hn ↦ h.keep d hd n fun hmem ↦ hn (hout hmem)⟩

end Keeps

theorem Local.call_keeps (hfn : Local fn) {s : Ftw} {path d : Path}
    (hpath : ∀ c, s.fs.stat path = .ok c → c = d) (n : Name) (flag : FtwFlag) :
    Keeps s (s.call fn (path ++ [n]) flag).2 {d ++ [n]} :=
  ⟨hfn.sub _ _ _, fun _ h ↦ h, fun c _ m hm ↦ hfn.keep _ _ n flag d hpath c m hm⟩

theorem visitNames_keeps {visit : Ftw → Path → Option (ℤ × Ftw)} {path d : Path}
    (hvisit : ∀ s n r s', (∀ c, s.fs.stat path = .ok c → c = d) →
      visit s (path ++ [n]) = some (r, s') → Keeps s s' {d ++ [n]})
    {names : List Name} {s s' : Ftw} {r : ℤ} (hpath : ∀ c, s.fs.stat path = .ok c → c = d)
    (h : visitNames visit path names s = some (r, s')) :
    Keeps s s' {p | ∃ n ∈ names, p = d ++ [n]} := by
  induction names generalizing s with
  | nil =>
    obtain ⟨-, rfl⟩ := Prod.mk.inj (Option.some.inj h)
    exact Keeps.refl s _
  | cons n names ih =>
    obtain ⟨r₁, s₁, hn, hrest⟩ := visitNames_cons h
    have hkeep := hvisit s n r₁ s₁ hpath hn
    have hhead : {d ++ [n]} ⊆ {p | ∃ m ∈ n :: names, p = d ++ [m]} := by
      rintro p rfl
      exact ⟨n, List.mem_cons_self, rfl⟩
    rcases hrest with ⟨-, hrest⟩ | ⟨-, -, rfl⟩
    · have hkeep' := ih (fun c hc ↦ hpath c (Fs.stat_mono hkeep.sub hc)) hrest
      apply (hkeep.trans hkeep').mono
      apply Set.union_subset hhead
      rintro p ⟨m, hm, rfl⟩
      exact ⟨m, List.mem_cons_of_mem n hm, rfl⟩
    · exact hkeep.mono hhead

/-- **What a walk keeps.** In directories entered before, it changes at most the entry it is started
at. -/
theorem visit_keeps (hfn : Local fn) {fuel : ℕ} {s s' : Ftw} {path d : Path} {n : Name} {r : ℤ}
    (hpath : ∀ c, s.fs.stat path = .ok c → c = d)
    (h : visit fn fuel s (path ++ [n]) = some (r, s')) : Keeps s s' {d ++ [n]} := by
  induction fuel generalizing s s' path d n r with
  | zero => cases h
  | succ fuel ih =>
    rcases visit_succ fn fuel s (path ++ [n]) with ⟨flag, -, hcall⟩ | ⟨r', hskip⟩ | hdir
    · have hkeep := hfn.call_keeps hpath n flag
      rwa [Option.some.inj (hcall.symm.trans h)] at hkeep
    · obtain ⟨-, rfl⟩ := Prod.mk.inj (Option.some.inj (hskip.symm.trans h))
      exact Keeps.refl s _
    · obtain ⟨c, hstat, -, hseen, hvisit⟩ := hdir
      obtain ⟨r₁, s₁, hnames, hend⟩ := directory_end (hvisit.symm.trans h)
      have hentered : ∀ c', (⟨s.fs, c :: s.seen⟩ : Ftw).fs.stat (path ++ [n]) = .ok c' → c' = c :=
        fun c' hc' ↦ Except.ok.inj (hc'.symm.trans hstat)
      have hkeep := visitNames_keeps (fun s m r s' hc hv ↦ ih hc hv) hentered hnames
      -- the directory that was entered is not one of those entered before
      have hkeep₁ : Keeps s s₁ {d ++ [n]} := by
        refine ⟨hkeep.sub, fun y hy ↦ hkeep.seen (List.mem_cons_of_mem c hy),
          fun y hy m _ ↦ hkeep.keep y (List.mem_cons_of_mem c hy) m ?_⟩
        rintro ⟨m', -, heq⟩
        exact hseen ((List.append_inj' heq rfl).1 ▸ hy)
      rcases hend with ⟨-, hlast⟩ | ⟨-, -, rfl⟩
      · have hkeep₂ := hfn.call_keeps (fun c' hc' ↦ hpath c' (Fs.stat_mono hkeep.sub hc')) n .dp
        rw [hlast] at hkeep₂
        exact (hkeep₁.trans hkeep₂).mono (Set.union_self _).subset
      · exact hkeep₁

/-! ## The walk ends -/

/-- Of the places `ps`, those that are no directory entered before. -/
def unseen (ps : List Path) (s : Ftw) : List Path := ps.filter (· ∉ s.seen)

theorem unseen_length_le {ps : List Path} {s s' : Ftw} (h : s.seen ⊆ s'.seen) :
    (unseen ps s').length ≤ (unseen ps s).length := by
  rw [unseen, unseen, ← List.countP_eq_length_filter, ← List.countP_eq_length_filter]
  refine List.countP_mono_left fun p _ hp ↦ ?_
  rw [decide_eq_true_eq] at hp ⊢
  exact fun hmem ↦ hp (h hmem)

theorem unseen_length_lt {ps : List Path} {s : Ftw} {c : Path} (hc : c ∈ ps)
    (hseen : c ∉ s.seen) :
    (unseen ps { s with seen := c :: s.seen }).length < (unseen ps s).length := by
  have hfilter : unseen ps { s with seen := c :: s.seen } = (unseen ps s).filter (· ≠ c) := by
    rw [unseen, unseen, List.filter_filter]
    refine List.filter_congr fun p _ ↦ ?_
    simp
  rw [hfilter, List.length_filter_lt_length_iff_exists]
  exact ⟨c, List.mem_filter.mpr ⟨hc, decide_eq_true hseen⟩, by simp⟩

theorem visitNames_total {visit : Ftw → Path → Option (ℤ × Ftw)} {path : Path} {P : Ftw → Prop}
    (hvisit : ∀ s n, P s → ∃ r s', visit s (path ++ [n]) = some (r, s') ∧ P s')
    {names : List Name} {s : Ftw} (hs : P s) :
    ∃ r s', visitNames visit path names s = some (r, s') ∧ P s' := by
  induction names generalizing s with
  | nil => exact ⟨0, s, rfl, hs⟩
  | cons n names ih =>
    obtain ⟨r, s', hn, hs'⟩ := hvisit s n hs
    rw [visitNames]
    simp only [hn]
    by_cases hr : r = 0
    · rw [if_pos hr]
      exact ih hs'
    · rw [if_neg hr]
      exact ⟨r, s', rfl, hs'⟩

/-- With every directory that is entered there is one less to enter. -/
theorem visit_total (hfn : Local fn) {ps : List Path} {fuel : ℕ} {s : Ftw} (path : Path)
    (hplaces : ∀ q o, s.fs.lookup q = some o → q ∈ ps) (hfuel : (unseen ps s).length < fuel) :
    ∃ r s', visit fn fuel s path = some (r, s') ∧ Fs.Sub s'.fs s.fs ∧ s.seen ⊆ s'.seen := by
  induction fuel generalizing s path with
  | zero => exact absurd hfuel (Nat.not_lt_zero _)
  | succ fuel ih =>
    rcases visit_succ fn fuel s path with ⟨flag, -, hcall⟩ | ⟨r, hskip⟩ | hdir
    · exact ⟨_, _, hcall, hfn.sub _ _ _, fun _ h ↦ h⟩
    · exact ⟨r, s, hskip, Fs.Sub.refl _, fun _ h ↦ h⟩
    · obtain ⟨c, -, hdir, hseen, hvisit⟩ := hdir
      have hless := unseen_length_lt (hplaces c _ hdir) hseen
      -- while the directory is read, nothing is added and it counts as entered
      have hentry : ∀ s₁ n, Fs.Sub s₁.fs s.fs ∧ c :: s.seen ⊆ s₁.seen →
          ∃ r s₂, visit fn fuel s₁ (path ++ [n]) = some (r, s₂) ∧
            Fs.Sub s₂.fs s.fs ∧ c :: s.seen ⊆ s₂.seen := by
        rintro s₁ n ⟨hsub, hmono⟩
        have hle : (unseen ps s₁).length ≤ (unseen ps ⟨s.fs, c :: s.seen⟩).length :=
          unseen_length_le hmono
        obtain ⟨r, s₂, hvisit, hsub₂, hmono₂⟩ := ih (path ++ [n])
          (fun q o ho ↦ hplaces q o (hsub q o ho)) (by omega)
        exact ⟨r, s₂, hvisit, hsub₂.trans hsub, fun y hy ↦ hmono₂ (hmono hy)⟩
      obtain ⟨r, s₁, hnames, hsub, hmono⟩ : ∃ r s₁, visitNames (visit fn fuel) path
          (s.fs.children c) ⟨s.fs, c :: s.seen⟩ = some (r, s₁) ∧
          Fs.Sub s₁.fs s.fs ∧ c :: s.seen ⊆ s₁.seen :=
        visitNames_total hentry ⟨Fs.Sub.refl _, fun _ h ↦ h⟩
      have hmono' : s.seen ⊆ s₁.seen := fun y hy ↦ hmono (List.mem_cons_of_mem c hy)
      simp only [hvisit, hnames]
      by_cases hr : r = 0
      · rw [if_pos hr]
        exact ⟨_, _, rfl, (hfn.sub _ _ _).trans hsub, hmono'⟩
      · rw [if_neg hr]
        exact ⟨r, s₁, rfl, hsub, hmono'⟩

/-- **A walk with a local function ends.** -/
theorem nftw_total (hfn : Local fn) (fs : Fs) (path : Path) :
    ∃ r fs', nftw fn fs path = some (r, fs') ∧ Fs.Sub fs' fs := by
  have hplaces : ∀ q o, fs.lookup q = some o → q ∈ [] :: fs.objects.map Prod.fst := by
    intro q o ho
    by_cases hq : q = []
    · exact hq ▸ List.mem_cons_self
    · exact List.mem_cons_of_mem _ (List.mem_map_of_mem ((Fs.lookup_eq_some_iff hq).mp ho))
  have hfuel : (unseen ([] :: fs.objects.map Prod.fst) ⟨fs, []⟩).length <
      fs.objects.length + fs.height + 2 := by
    have hle := List.length_filter_le (fun p ↦ decide (p ∉ ([] : List Path)))
      ([] :: fs.objects.map Prod.fst)
    simp only [List.length_cons, List.length_map] at hle
    simp only [unseen]
    omega
  obtain ⟨r, s', hvisit, hsub, -⟩ := visit_total hfn (trimSlashes path) hplaces hfuel
  refine ⟨r, s'.fs, ?_, hsub⟩
  rw [nftw, hvisit]
  rfl

end FileTree
