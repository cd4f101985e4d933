import ClrDebugInfo.Library.TreeWalk

/-!
# Removal of a tree (`src/nica/files.c`)

`nc_rm_rf` walks the tree below a directory and removes every entry with `_rm_rf`: with `unlink`
when it is reported as a file, else with `rmdir`. The walk follows links. A link to a file is
reported as a file, and is removed. Any other link is not: at a link that leads nowhere `rmdir`
fails, and at a link to a directory the walk goes on to remove the content of that directory,
wherever it is, before `rmdir` fails at the link itself. A link to a directory that was entered
before is passed over, and then the directory that holds it is not empty. Both calls are given the
whole path of the entry, and fail if it is too long.

So the removal is what it says exactly when every link leads to something else than a directory at
its turn (`LinksHarmless`) and no path is too long (`PathsFit`).
-/

namespace ClrDebugInfo

open FileTree

/-- `_rm_rf`. -/
def rmRf (fs : Fs) (path : Path) (flag : FtwFlag) : ℤ × Fs :=
  -- `ENAMETOOLONG`
  if ¬Fits path then (-1, fs)
  else
    match (fs.place path).bind (if flag = .f then fs.unlink else fs.rmdir) with
    | some fs' => (0, fs')
    | none => (-1, fs)

/-- `nc_rm_rf`: whether the walk ended with zero, and the files afterwards. -/
def ncRmRf (fs : Fs) (path : Path) : Option (Bool × Fs) :=
  (nftw rmRf fs path).map fun r ↦ (decide (r.1 = 0), r.2)

/-! ## One entry -/

section RmRf

variable {fs : Fs} {path p : Path} {flag : FtwFlag} {o : Object}

theorem rmRf_cases (fs : Fs) (path : Path) (flag : FtwFlag) :
    rmRf fs path flag = (-1, fs) ∨ ∃ p, Fits path ∧ fs.place path = some p ∧ p ≠ [] ∧
      fs.children p = [] ∧ (flag ≠ .f → fs.lookup p = some .directory) ∧
      rmRf fs path flag = (0, fs.remove p) := by
  rw [rmRf]
  by_cases hfits : Fits path
  swap
  · exact .inl (if_pos hfits)
  rw [if_neg (not_not_intro hfits)]
  cases hplace : fs.place path with
  | none => exact .inl rfl
  | some p =>
    rw [Option.bind_some]
    by_cases hf : flag = .f
    · rw [if_pos hf]
      cases ho : fs.lookup p with
      | none =>
        rw [Fs.unlink, ho]
        exact .inl rfl
      | some o =>
        by_cases hdir : o = .directory
        · rw [Fs.unlink, ho, hdir]
          exact .inl rfl
        · have hne : p ≠ [] := by
            rintro rfl
            exact hdir (Option.some.inj ho).symm
          have hempty : fs.children p = [] :=
            Fs.children_of_ne_directory fun h ↦ hdir (Option.some.inj (ho.symm.trans h))
          rw [Fs.unlink_of_ne_directory ho hdir]
          exact .inr ⟨p, hfits, rfl, hne, hempty, fun h ↦ absurd hf h, rfl⟩
    · rw [if_neg hf, Fs.rmdir]
      by_cases h : p ≠ [] ∧ fs.lookup p = some .directory ∧ fs.children p = []
      · rw [if_pos h]
        exact .inr ⟨p, hfits, rfl, h.1, h.2.2, fun _ ↦ h.2.1, rfl⟩
      · rw [if_neg h]
        exact .inl rfl

theorem rmRf_unlink (hfits : Fits path) (hplace : fs.place path = some p)
    (ho : fs.lookup p = some o) (hdir : o ≠ .directory) :
    rmRf fs path .f = (0, fs.remove p) := by
  rw [rmRf, if_neg (not_not_intro hfits), hplace, Option.bind_some, if_pos rfl,
    Fs.unlink_of_ne_directory ho hdir]

theorem rmRf_rmdir (hfits : Fits path) (hplace : fs.place path = some p) (hne : p ≠ [])
    (ho : fs.lookup p = some .directory) (hempty : fs.children p = []) :
    rmRf fs path .dp = (0, fs.remove p) := by
  rw [rmRf, if_neg (not_not_intro hfits), hplace, Option.bind_some, if_neg (by simp), Fs.rmdir,
    if_pos ⟨hne, ho, hempty⟩]

theorem rmRf_local : Local rmRf where
  sub fs path flag := by
    rcases rmRf_cases fs path flag with h | ⟨p, -, -, -, -, -, h⟩
    · rw [h]
      exact Fs.Sub.refl fs
    · rw [h]
      exact Fs.sub_remove fs p
  keep fs path n flag d hpath c m hne := by
    rcases rmRf_cases fs (path ++ [n]) flag with h | ⟨p, -, hplace, hp, hempty, -, h⟩
    · rw [h]
    · obtain ⟨d', hd', rfl⟩ := Fs.place_concat_eq_some hplace
      obtain rfl := hpath d' hd'
      rw [h, Fs.lookup_remove hp]
      by_cases hbelow : d' ++ [n] <+: c ++ [m]
      · obtain ⟨r, hr⟩ := hbelow
        have hr' : r ≠ [] := by
          rintro rfl
          rw [List.append_nil] at hr
          exact hne hr.symm
        rw [← hr, Fs.lookup_append_of_children hempty hr']
        exact ite_self none
      · rw [if_neg hbelow]

end RmRf

/-! ## The paths and links of a tree -/

/-- No path from `path`, where `p` is found, to what is there or below it is too long. -/
def PathsFit (fs : Fs) (path p : Path) : Prop :=
  ∀ rel o, fs.lookup (p ++ rel) = some o → Fits (path ++ rel)

/-- Every link below the directory at `p`, which is found at `path`, leads to something that is no
directory, at the time when the removal comes to it. -/
def LinksHarmless (fs : Fs) (path p : Path) : Prop :=
  ∀ rel target, fs.lookup (p ++ rel) = some (.link target) →
    ∃ c, (fs.atTurn p rel).stat (path ++ rel) = .ok c ∧
      (fs.atTurn p rel).lookup c ≠ some .directory

/-- The removal gets past all of it. -/
def Removable (fs : Fs) (path p : Path) : Prop := PathsFit fs path p ∧ LinksHarmless fs path p

/-- The removal does what its comment says: it succeeds, the tree is gone, and everything else is
as it was. -/
def Removes (fs : Fs) (path p : Path) : Prop :=
  ∃ fs', ncRmRf fs path = some (true, fs') ∧ fs'.lookup p = none ∧
    ∀ q, ¬p <+: q → fs'.lookup q = fs.lookup q

section Links

variable {fs : Fs} {path p : Path}

/-- The links below a directory are those of its entries, each when its turn has come. -/
theorem linksHarmless_iff_entries (hdir : fs.lookup p = some .directory) :
    LinksHarmless fs path p ↔ ∀ done c todo, fs.children p = done ++ c :: todo →
      LinksHarmless (fs.removeEntries p done) (path ++ [c]) (p ++ [c]) := by
  constructor
  · intro h done c todo hsplit rel target hlink
    rw [List.append_assoc, List.singleton_append, Fs.lookup_entry hsplit] at hlink
    have hturn := h (c :: rel) target hlink
    rwa [Fs.atTurn_entry hsplit, List.append_cons path] at hturn
  · intro h rel target hlink
    match rel with
    | [] =>
      rw [List.append_nil, hdir] at hlink
      exact absurd hlink (by simp)
    | c :: rel =>
      have hentry : ∃ o, fs.lookup (p ++ [c]) = some o := by
        rw [List.append_cons] at hlink
        exact Fs.exists_lookup_of_append hlink
      obtain ⟨done, todo, hsplit⟩ := List.append_of_mem (Fs.mem_children_iff.mpr hentry)
      have hturn := h done c todo hsplit rel target
        (by rwa [List.append_assoc, List.singleton_append, Fs.lookup_entry hsplit])
      rwa [Fs.atTurn_entry hsplit, List.append_cons path]

private theorem linksHarmless_of_ne_directory {o : Object} (ho : fs.lookup p = some o)
    (hdir : o ≠ .directory) (hlink : ∀ target, o = .link target →
      ∃ c, fs.stat path = .ok c ∧ fs.lookup c ≠ some .directory) : LinksHarmless fs path p := by
  intro rel target htarget
  by_cases hrel : rel = []
  · obtain rfl := hrel
    rw [List.append_nil] at htarget ⊢
    exact hlink target (Option.some.inj (ho.symm.trans htarget))
  · exact absurd (Option.some.inj (ho.symm.trans (Fs.lookup_of_append hrel htarget))) hdir

private theorem pathsFit_iff_entries (hdir : fs.lookup p = some .directory) :
    PathsFit fs path p ↔ Fits path ∧ ∀ done c todo, fs.children p = done ++ c :: todo →
      PathsFit (fs.removeEntries p done) (path ++ [c]) (p ++ [c]) := by
  constructor
  · intro h
    refine ⟨?_, fun done c todo hsplit rel o ho ↦ ?_⟩
    · have hself := h [] .directory (by rwa [List.append_nil])
      rwa [List.append_nil] at hself
    · rw [List.append_assoc, List.singleton_append, Fs.lookup_entry hsplit] at ho
      rw [← List.append_cons]
      exact h (c :: rel) o ho
  · rintro ⟨hself, hentries⟩ rel o ho
    match rel with
    | [] => rwa [List.append_nil]
    | c :: rel =>
      have hentry : ∃ o, fs.lookup (p ++ [c]) = some o := by
        rw [List.append_cons] at ho
        exact Fs.exists_lookup_of_append ho
      obtain ⟨done, todo, hsplit⟩ := List.append_of_mem (Fs.mem_children_iff.mpr hentry)
      have hfits := hentries done c todo hsplit rel o
        (by rwa [List.append_assoc, List.singleton_append, Fs.lookup_entry hsplit])
      rwa [← List.append_cons] at hfits

private theorem pathsFit_of_ne_directory {o : Object} (ho : fs.lookup p = some o)
    (hdir : o ≠ .directory) (hfits : Fits path) : PathsFit fs path p := by
  intro rel o' ho'
  by_cases hrel : rel = []
  · rwa [hrel, List.append_nil]
  · exact absurd (Option.some.inj (ho.symm.trans (Fs.lookup_of_append hrel ho'))) hdir

private theorem removable_iff_entries (hdir : fs.lookup p = some .directory) :
    Removable fs path p ↔ Fits path ∧ ∀ done c todo, fs.children p = done ++ c :: todo →
      Removable (fs.removeEntries p done) (path ++ [c]) (p ++ [c]) := by
  rw [Removable, pathsFit_iff_entries hdir, linksHarmless_iff_entries hdir]
  constructor
  · rintro ⟨⟨hself, hpaths⟩, hlinks⟩
    exact ⟨hself, fun done c todo hsplit ↦ ⟨hpaths done c todo hsplit, hlinks done c todo hsplit⟩⟩
  · rintro ⟨hself, hentries⟩
    exact ⟨⟨hself, fun done c todo hsplit ↦ (hentries done c todo hsplit).1⟩,
      fun done c todo hsplit ↦ (hentries done c todo hsplit).2⟩

end Links

/-! ## A removal that goes through -/

/-- The walk is not too deep for what is at `p` and below it, and has not entered any of it. -/
structure Fresh (fuel : ℕ) (s : Ftw) (p : Path) : Prop where
  depth : ∀ q o, s.fs.lookup (p ++ q) = some o → q.length < fuel
  seen : ∀ y ∈ s.seen, ¬p <+: y

section Visit

variable {fs : Fs} {fuel : ℕ} {s s₁ s' : Ftw} {path d p : Path} {c c' n : Name} {o : Object}
  {done todo : List Name}

theorem Fresh.entry (h : Fresh (fuel + 1) s p) (c : Name) :
    Fresh fuel { s with seen := p :: s.seen } (p ++ [c]) := by
  refine ⟨fun q o hq ↦ ?_, fun y hy hprefix ↦ ?_⟩
  · rw [List.append_assoc] at hq
    exact Nat.lt_of_succ_lt_succ (h.depth _ o hq)
  · rcases List.mem_cons.mp hy with rfl | hold
    · exact not_concat_prefix hprefix
    · exact h.seen y hold ((List.prefix_append p [c]).trans hprefix)

theorem Fresh.next {fs' : Fs} {seen' : List Path} (h : Fresh fuel s (p ++ [c']))
    (hsub : Fs.Sub fs' s.fs) (hseen : ∀ y ∈ seen', y ∈ s.seen ∨ p ++ [c] <+: y) (hne : c ≠ c') :
    Fresh fuel ⟨fs', seen'⟩ (p ++ [c']) := by
  refine ⟨fun q o hq ↦ h.depth q o (hsub _ _ hq), fun y hy hprefix ↦ ?_⟩
  rcases hseen y hy with hold | hbelow
  · exact h.seen y hold hprefix
  · exact hne (Fs.entry_prefix_entry hbelow hprefix)

private theorem visitNames_removes
    (hvisit : ∀ {s : Ftw} {path d : Path} {n : Name} {o : Object},
      s.fs.lookup (d ++ [n]) = some o → (s.fs.clear (d ++ [n])).stat path = .ok d →
      Fresh fuel s (d ++ [n]) → Removable s.fs (path ++ [n]) (d ++ [n]) →
      ∃ seen, visit rmRf fuel s (path ++ [n]) = some (0, ⟨s.fs.remove (d ++ [n]), seen⟩) ∧
        ∀ y ∈ seen, y ∈ s.seen ∨ d ++ [n] <+: y)
    (hsplit : fs.children p = done ++ todo) (hdir : fs.lookup p = some .directory)
    (hs : s.fs = fs.removeEntries p done) (hpath : (fs.clear p).stat path = .ok p)
    (hfresh : ∀ c ∈ todo, Fresh fuel s (p ++ [c])) (hall : Removable fs path p) :
    ∃ seen, visitNames (visit rmRf fuel) path todo s = some (0, ⟨fs.clear p, seen⟩) ∧
      ∀ y ∈ seen, y ∈ s.seen ∨ p <+: y := by
  induction todo generalizing done s with
  | nil =>
    rw [List.append_nil] at hsplit
    refine ⟨s.seen, ?_, fun y hy ↦ .inl hy⟩
    rw [visitNames, Fs.clear, hsplit, ← hs]
  | cons c todo ih =>
    obtain ⟨o, ho⟩ := Fs.mem_children_iff.mp
      (hsplit ▸ List.mem_append_right done List.mem_cons_self : c ∈ fs.children p)
    have hclear : Fs.Sub (fs.clear p) (s.fs.clear (p ++ [c])) := by
      apply Fs.sub_clear (hs ▸ Fs.clear_sub_removeEntries hsplit)
      exact Fs.children_of_lookup_none
        (Fs.lookup_append_of_children (Fs.children_clear fs p) (by simp))
    have hentry := ((removable_iff_entries hdir).mp hall).2 done c todo hsplit
    rw [← hs] at hentry
    have ho' : s.fs.lookup (p ++ [c]) = some o := by rw [hs, Fs.lookup_entry hsplit, ho]
    obtain ⟨seen, hc, hseen⟩ :=
      hvisit ho' (Fs.stat_mono hclear hpath) (hfresh c List.mem_cons_self) hentry
    have hsplit' : fs.children p = done ++ [c] ++ todo := by rw [hsplit, ← List.append_cons]
    obtain ⟨seen', hrest, hseen'⟩ := ih (s := ⟨s.fs.remove (p ++ [c]), seen⟩) hsplit'
      (by rw [hs, Fs.removeEntries_concat])
      (fun c' hc' ↦ (hfresh c' (List.mem_cons_of_mem c hc')).next (Fs.sub_remove _ _) hseen
        fun heq ↦ Fs.not_mem_todo hsplit (heq ▸ hc'))
    refine ⟨seen', ?_, fun y hy ↦ ?_⟩
    · rw [visitNames, hc]
      exact hrest
    · rcases hseen' y hy with hold | hbelow
      · exact (hseen y hold).imp_right (List.prefix_append p [c]).trans
      · exact .inr hbelow

/-- **A removal that gets past everything goes through**, and removes the entry and what is below
it. -/
theorem visit_removes (ho : s.fs.lookup (d ++ [n]) = some o)
    (hpath : (s.fs.clear (d ++ [n])).stat path = .ok d) (hfresh : Fresh fuel s (d ++ [n]))
    (hall : Removable s.fs (path ++ [n]) (d ++ [n])) :
    ∃ seen, visit rmRf fuel s (path ++ [n]) = some (0, ⟨s.fs.remove (d ++ [n]), seen⟩) ∧
      ∀ y ∈ seen, y ∈ s.seen ∨ d ++ [n] <+: y := by
  induction fuel generalizing s path d n o with
  | zero => exact absurd (hfresh.depth [] o (by rwa [List.append_nil])) (Nat.not_lt_zero _)
  | succ fuel ih =>
    have hd : s.fs.stat path = .ok d := Fs.stat_mono (Fs.sub_removeEntries _ _ _) hpath
    have hfits : Fits (path ++ [n]) := by
      have hself := hall.1 [] o (by rwa [List.append_nil])
      rwa [List.append_nil] at hself
    rw [visit]
    by_cases hdir : o = .directory
    · obtain rfl := hdir
      have hnotin : d ++ [n] ∉ s.seen := fun hmem ↦ hfresh.seen _ hmem (List.prefix_refl _)
      have hclear : (s.fs.clear (d ++ [n])).lookup (d ++ [n]) = some .directory := by
        rw [Fs.lookup_clear_self, ho]
      have hsplit : s.fs.children (d ++ [n]) = [] ++ s.fs.children (d ++ [n]) := rfl
      obtain ⟨seen, hnames, hseen⟩ := visitNames_removes
        (s := { s with seen := (d ++ [n]) :: s.seen }) (fun h₁ h₂ h₃ h₄ ↦ ih h₁ h₂ h₃ h₄) hsplit ho
        rfl (Fs.stat_concat hpath hclear (by simp)) (fun c _ ↦ hfresh.entry c) hall
      rw [Fs.stat_concat hd ho (by simp)]
      simp only [if_pos ho, if_neg hnotin, hnames, if_true]
      refine ⟨seen, ?_, fun y hy ↦ ?_⟩
      · have hne : d ++ [n] ≠ [] := List.append_ne_nil_of_right_ne_nil d (by simp)
        rw [Ftw.call, rmRf_rmdir hfits (Fs.place_concat hpath) hne hclear (Fs.children_clear _ _),
          Fs.clear, Fs.removeEntries_remove]
      · rcases hseen y hy with hmem | hbelow
        · rcases List.mem_cons.mp hmem with rfl | hold
          · exact .inr (List.prefix_refl _)
          · exact .inl hold
        · exact .inr hbelow
    · -- a file, or a link to one
      have hfile : ∃ c, s.fs.stat (path ++ [n]) = .ok c ∧ s.fs.lookup c ≠ some .directory := by
        cases o with
        | directory => exact absurd rfl hdir
        | link target =>
          obtain ⟨c, hc, hne⟩ := hall.2 [] target (by rwa [List.append_nil])
          rw [List.append_nil] at hc
          exact ⟨c, hc, hne⟩
        | regular _ =>
          have hstat := Fs.stat_concat hd ho (by simp)
          exact ⟨_, hstat, fun h ↦ hdir (Option.some.inj (ho.symm.trans h))⟩
        | special _ =>
          have hstat := Fs.stat_concat hd ho (by simp)
          exact ⟨_, hstat, fun h ↦ hdir (Option.some.inj (ho.symm.trans h))⟩
      obtain ⟨c, hc, hne⟩ := hfile
      rw [hc]
      simp only [if_neg hne]
      refine ⟨s.seen, ?_, fun y hy ↦ .inl hy⟩
      rw [Ftw.call, rmRf_unlink hfits (Fs.place_concat hd) ho hdir]

/-! ## What goes through was harmless -/

/-- The visit of a directory ends with zero only if all of it was removed, and then the path named
the directory itself and was not too long. -/
theorem visit_directory_zero (hstat : s.fs.stat path = .ok p)
    (hdir : s.fs.lookup p = some .directory) (hseen : p ∉ s.seen)
    (h : visit rmRf fuel s path = some (0, s')) :
    ∃ fuel' s₁ e, fuel = fuel' + 1 ∧ Fits path ∧
      visitNames (visit rmRf fuel') path (s.fs.children p) { s with seen := p :: s.seen } =
        some (0, s₁) ∧
      Fs.Sub s₁.fs s.fs ∧ s₁.fs.place path = some e ∧ e ≠ [] ∧
      s₁.fs.lookup e = some .directory ∧ s₁.fs.children e = [] ∧ s'.fs = s₁.fs.remove e := by
  cases fuel with
  | zero => cases h
  | succ fuel =>
    rw [visit, hstat] at h
    simp only [if_pos hdir, if_neg hseen] at h
    obtain ⟨r, s₁, hnames, hend⟩ := directory_end h
    have hentered : ∀ c, ({ s with seen := p :: s.seen } : Ftw).fs.stat path = .ok c → c = p :=
      fun c hc ↦ Except.ok.inj (hc.symm.trans hstat)
    have hsub := (visitNames_keeps (fun _ _ _ _ hpath hv ↦ visit_keeps rmRf_local hpath hv)
      hentered hnames).sub
    rcases hend with ⟨rfl, hlast⟩ | ⟨hr, rfl, -⟩
    · obtain ⟨hzero, hs'⟩ := Prod.mk.inj hlast
      rcases rmRf_cases s₁.fs path .dp with hfail | ⟨e, hfits, hplace, hne, hempty, hlookup, hok⟩
      · rw [hfail] at hzero
        exact absurd hzero (by simp)
      · refine ⟨fuel, s₁, e, rfl, hfits, hnames, hsub, hplace, hne, hlookup (by simp), hempty, ?_⟩
        rw [← hs', hok]
    · exact absurd rfl hr

private theorem visitNames_zero
    (hvisit : ∀ {s s' : Ftw} {path d : Path} {n : Name} {o : Object},
      s.fs.lookup (d ++ [n]) = some o → s.fs.stat path = .ok d → Fresh fuel s (d ++ [n]) →
      visit rmRf fuel s (path ++ [n]) = some (0, s') →
      Removable s.fs (path ++ [n]) (d ++ [n]) ∨ s' = s)
    (hfs : fs.stat path = .ok p) (hsplit : fs.children p = done ++ todo)
    (hs : s.fs = fs.removeEntries p done) (hfresh : ∀ c ∈ todo, Fresh fuel s (p ++ [c]))
    (hp : p ∈ s.seen)
    (h : visitNames (visit rmRf fuel) path todo s = some (0, s₁))
    (hempty : s₁.fs.children p = []) (hpath : s₁.fs.stat path = .ok p) :
    ∀ done' c todo', todo = done' ++ c :: todo' →
      Removable (fs.removeEntries p (done ++ done')) (path ++ [c]) (p ++ [c]) := by
  induction todo generalizing done s with
  | nil =>
    intro done' c todo' heq
    exact absurd heq (by simp)
  | cons c todo ih =>
    obtain ⟨r, s₂, hc, ⟨rfl, h⟩ | ⟨hr, rfl, -⟩⟩ := visitNames_cons h
    · obtain ⟨o, ho⟩ := Fs.mem_children_iff.mp
        (hsplit ▸ List.mem_append_right done List.mem_cons_self : c ∈ fs.children p)
      have ho' : s.fs.lookup (p ++ [c]) = some o := by rw [hs, Fs.lookup_entry hsplit, ho]
      have hstat : ∀ e, s.fs.stat path = .ok e → e = p := fun e he ↦
        Except.ok.inj ((Fs.stat_mono (hs ▸ Fs.sub_removeEntries fs p done) he).symm.trans hfs)
      have hkeep := visit_keeps rmRf_local hstat hc
      have hrest := visitNames_keeps (fun _ _ _ _ hpath hv ↦ visit_keeps rmRf_local hpath hv)
        (fun e he ↦ hstat e (Fs.stat_mono hkeep.sub he)) h
      have hsub := hrest.sub.trans hkeep.sub
      have hnone : s₁.fs.lookup (p ++ [c]) = none := Fs.lookup_append_of_children hempty (by simp)
      rcases hvisit ho' (Fs.stat_mono hsub hpath) (hfresh c List.mem_cons_self) hc with hgood | rfl
      · have hclear := Fs.sub_clear hsub (Fs.children_of_lookup_none hnone)
        obtain ⟨seen, hremoves, hseen⟩ := visit_removes ho' (Fs.stat_mono hclear hpath)
          (hfresh c List.mem_cons_self) hgood
        obtain ⟨-, rfl⟩ := Prod.mk.inj (Option.some.inj (hc.symm.trans hremoves))
        have hsplit' : fs.children p = done ++ [c] ++ todo := by rw [hsplit, ← List.append_cons]
        have hothers := ih hsplit' (by rw [hs, Fs.removeEntries_concat])
          (fun c' hc' ↦ (hfresh c' (List.mem_cons_of_mem c hc')).next (Fs.sub_remove _ _) hseen
            fun heq ↦ Fs.not_mem_todo hsplit (heq ▸ hc')) (hkeep.seen hp) h
        intro done' c' todo' heq
        cases done' with
        | nil =>
          obtain ⟨rfl, -⟩ := List.cons.inj heq
          rwa [List.append_nil, ← hs]
        | cons n done' =>
          obtain ⟨rfl, htodo⟩ := List.cons.inj heq
          rw [List.append_cons]
          exact hothers done' c' todo' htodo
      · -- a link that was passed over is still there
        have hleft := hrest.keep p hp c (by
          rintro ⟨m, hm, heq⟩
          exact Fs.not_mem_todo hsplit (List.singleton_inj.mp (List.append_cancel_left heq) ▸ hm))
        rw [hnone, ho'] at hleft
        exact absurd hleft (by simp)
    · exact absurd rfl hr

/-- **Nothing else goes through**: or the entry is a link that was passed over. -/
theorem visit_zero (ho : s.fs.lookup (d ++ [n]) = some o) (hd : s.fs.stat path = .ok d)
    (hfresh : Fresh fuel s (d ++ [n])) (h : visit rmRf fuel s (path ++ [n]) = some (0, s')) :
    Removable s.fs (path ++ [n]) (d ++ [n]) ∨ s' = s ∧ o ≠ .directory := by
  induction fuel generalizing s s' path d n o with
  | zero => cases h
  | succ fuel ih =>
    by_cases hdir : o = .directory
    · obtain rfl := hdir
      have hstat := Fs.stat_concat hd ho (by simp)
      have hnotin : d ++ [n] ∉ s.seen := fun hmem ↦ hfresh.seen _ hmem (List.prefix_refl _)
      obtain ⟨fuel', s₁, e, hfuel, hfits, hnames, hsub, hplace, -, hlast, hempty, -⟩ :=
        visit_directory_zero hstat ho hnotin h
      obtain rfl := Nat.succ.inj hfuel
      obtain ⟨d', hd', rfl⟩ := Fs.place_concat_eq_some hplace
      obtain rfl : d' = d := Except.ok.inj ((Fs.stat_mono hsub hd').symm.trans hd)
      have hall : s.fs.children (d' ++ [n]) = [] ++ s.fs.children (d' ++ [n]) := rfl
      refine .inl ((removable_iff_entries ho).mpr ⟨hfits, fun done c todo hsplit ↦ ?_⟩)
      exact visitNames_zero (s := { s with seen := (d' ++ [n]) :: s.seen })
        (fun h₁ h₂ h₃ h₄ ↦ (ih h₁ h₂ h₃ h₄).imp_right And.left) hstat hall rfl
        (fun c _ ↦ hfresh.entry c) List.mem_cons_self hnames hempty
        (Fs.stat_concat hd' hlast (by simp)) done c todo hsplit
    · -- what is removed at the end of a visit is this entry, so it is no directory that was left
      have hnodir : ∀ {s₁ : Ftw} {e : Path}, Fs.Sub s₁.fs s.fs →
          s₁.fs.place (path ++ [n]) = some e → s₁.fs.lookup e ≠ some .directory := by
        intro s₁ e hsub hplace hlast
        obtain ⟨d', hd', rfl⟩ := Fs.place_concat_eq_some hplace
        obtain rfl : d' = d := Except.ok.inj ((Fs.stat_mono hsub hd').symm.trans hd)
        exact hdir (Option.some.inj (ho.symm.trans (hsub _ _ hlast)))
      cases hstat : s.fs.stat (path ++ [n]) with
      | error e =>
        rw [visit, hstat] at h
        cases e with
        | noent =>
          obtain ⟨hzero, -⟩ := Prod.mk.inj (Option.some.inj h)
          rcases rmRf_cases s.fs (path ++ [n]) _ with hfail | ⟨e, -, hplace, -, -, hlookup, -⟩
          · rw [hfail] at hzero
            exact absurd hzero (by simp)
          · refine absurd (hlookup ?_) (hnodir (Fs.Sub.refl _) hplace)
            split
            all_goals simp
        | notdir => exact absurd h (by simp)
        | loop => exact absurd h (by simp)
      | ok c =>
        by_cases hc : s.fs.lookup c = some .directory
        · by_cases hseen : c ∈ s.seen
          · rw [visit, hstat] at h
            simp only [if_pos hc, if_pos hseen] at h
            exact .inr ⟨(Prod.mk.inj (Option.some.inj h)).2.symm, hdir⟩
          · obtain ⟨-, s₁, e, -, -, -, hsub, hplace, -, hlast, -, -⟩ :=
              visit_directory_zero hstat hc hseen h
            exact absurd hlast (hnodir hsub hplace)
        · rw [visit, hstat] at h
          simp only [if_neg hc] at h
          obtain ⟨hzero, -⟩ := Prod.mk.inj (Option.some.inj h)
          rcases rmRf_cases s.fs (path ++ [n]) .f with hfail | ⟨-, hfits, -⟩
          · rw [hfail] at hzero
            exact absurd hzero (by simp)
          · exact .inl ⟨pathsFit_of_ne_directory ho hdir hfits,
              linksHarmless_of_ne_directory ho hdir fun _ _ ↦ ⟨c, hstat, hc⟩⟩

end Visit

/-! ## The removal -/

/-- The walk of a removal always ends. -/
theorem ncRmRf_total (fs : Fs) (path : Path) : ∃ r fs', ncRmRf fs path = some (r, fs') := by
  obtain ⟨r, fs', h, -⟩ := nftw_total rmRf_local fs path
  exact ⟨decide (r = 0), fs', by rw [ncRmRf, h]; rfl⟩

theorem ncRmRf_eq_true_iff {fs fs' : Fs} {path : Path} : ncRmRf fs path = some (true, fs') ↔
    ∃ seen, visit rmRf (fs.objects.length + fs.height + 2) ⟨fs, []⟩ (trimSlashes path) =
      some (0, ⟨fs', seen⟩) := by
  rw [ncRmRf, nftw, Option.map_map, Option.map_eq_some_iff]
  constructor
  · rintro ⟨⟨r, s⟩, hvisit, heq⟩
    obtain ⟨hr, rfl⟩ := Prod.mk.inj heq
    obtain rfl : r = 0 := of_decide_eq_true hr
    exact ⟨s.seen, hvisit⟩
  · rintro ⟨seen, hvisit⟩
    exact ⟨_, hvisit, rfl⟩

theorem fresh_start (fs : Fs) (p : Path) :
    Fresh (fs.objects.length + fs.height + 2) ⟨fs, []⟩ p := by
  refine ⟨fun q o (hq : fs.lookup (p ++ q) = some o) ↦ ?_, fun _ hy ↦ absurd hy List.not_mem_nil⟩
  have hle := Fs.length_le_height hq
  show q.length < fs.objects.length + fs.height + 2
  rw [List.length_append] at hle
  omega

end ClrDebugInfo
