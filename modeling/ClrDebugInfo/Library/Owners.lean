import Mathlib.Logic.Function.Basic
import ClrDebugInfo.Library.MakeDir

/-!
# Owners and inodes

A file system whose objects have an inode and an owner. What is made gets an inode that was not used
before, and belongs to the user of the process that makes it; what is there keeps both. So an inode
tells a directory from one that was made later at the same place.

A path with nothing but directories on the way (`Fs.Plain`) leads to the place it spells, if it
leads anywhere.
-/

namespace FileTree

/-! ## Plain paths -/

namespace Fs

/-- Nothing but directories is on the way to a place, nor at it. -/
def Plain (fs : Fs) (p : Path) : Prop :=
  ∀ q, q <+: p → fs.lookup q = none ∨ fs.lookup q = some .directory

variable {fs fs' : Fs} {p q d : Path} {n : Name} {o : Object} {path : List UInt8}

theorem Plain.of_prefix (h : fs.Plain p) (hq : q <+: p) : fs.Plain q :=
  fun r hr ↦ h r (hr.trans hq)

theorem Plain.mono (h : fs.Plain p)
    (hnew : ∀ q o, fs'.lookup q = some o → fs.lookup q = some o ∨ o = .directory) :
    fs'.Plain p := by
  intro q hq
  cases ho : fs'.lookup q with
  | none => exact .inl rfl
  | some o =>
    right
    rcases hnew q o ho with hold | rfl
    · rcases h q hq with hnone | hdir
      · exact absurd (hnone.symm.trans hold) (by simp)
      · exact hold.symm.trans hdir
    · rfl

theorem Plain.concat (h : fs.Plain p)
    (hn : fs.lookup (p ++ [n]) = none ∨ fs.lookup (p ++ [n]) = some .directory) :
    fs.Plain (p ++ [n]) := by
  intro q hq
  rcases List.prefix_concat_iff.mp hq with rfl | hq
  · exact hn
  · exact h q hq

theorem plain_of_directory (h : fs.lookup p = some .directory) : fs.Plain p := by
  rintro q ⟨r, rfl⟩
  by_cases hr : r = []
  · rw [hr, List.append_nil] at h
    exact .inr h
  · exact .inr (lookup_of_append hr h)

theorem walk_name (hvalid : ValidName n) {k : ℕ} (h : fs.walk k d [n] = .ok p) :
    ∃ o, fs.lookup (d ++ [n]) = some o ∧ ((∀ target, o ≠ .link target) → p = d ++ [n]) := by
  obtain ⟨hdot, hdots⟩ := validName_ne hvalid
  have hwalk : ∀ follow : Path → List UInt8 → Path → Except Errno Path,
      fs.walkWith follow d [n] = .ok p →
        ∃ o, fs.lookup (d ++ [n]) = some o ∧ ((∀ target, o ≠ .link target) → p = d ++ [n]) := by
    intro follow h
    cases ho : fs.lookup (d ++ [n]) with
    | none =>
      rw [walkWith, ho, if_neg hdot, if_neg hdots] at h
      split_ifs at h
    | some o =>
      refine ⟨o, rfl, fun hlink ↦ ?_⟩
      rw [walkWith_append ho hlink] at h
      exact (Except.ok.inj h).symm
  cases k with
  | zero => exact hwalk _ h
  | succ k => exact hwalk _ h

/-- **A plain path spells the place that it leads to.** -/
theorem Plain.stat_eq (h : fs.Plain p) (hvalid : ∀ n ∈ p, ValidName n) (hstat : fs.stat p = .ok d) :
    d = p ∧ fs.lookup p = some .directory := by
  induction p using List.reverseRecOn generalizing d with
  | nil => exact ⟨(Except.ok.inj hstat).symm, rfl⟩
  | append_singleton p n ih =>
    obtain ⟨d', j, hleads, hj⟩ := walk_concat hstat
    obtain ⟨rfl, -⟩ := ih (h.of_prefix (List.prefix_append p [n]))
      (fun m hm ↦ hvalid m (List.mem_append_left _ hm)) hleads.1
    have hlast : fs.walk j d' [n] = .ok d := (hj _).symm.trans hstat
    obtain ⟨o, ho, hd⟩ := walk_name (hvalid n (by simp)) hlast
    rcases h _ (List.prefix_refl _) with hnone | hdir
    · exact absurd (hnone.symm.trans ho) (by simp)
    · obtain rfl := Option.some.inj (hdir.symm.trans ho)
      exact ⟨hd (by simp), hdir⟩

theorem stat_of_directory (h : fs.lookup p = some .directory) : fs.stat p = .ok p :=
  @walkWith_append fs p [] _ _ h (by simp)

theorem place_of_plain (h : fs.Plain p) (hvalid : ∀ n ∈ p, ValidName n) :
    (fs.place (p ++ [n])).bind fs.lookup = fs.lookup (p ++ [n]) := by
  rcases h p (List.prefix_refl p) with hnone | hdir
  · have hbelow : fs.lookup (p ++ [n]) = none :=
      lookup_append_of_children (children_of_lookup_none hnone) (by simp)
    rw [hbelow, place, List.getLast?_concat, List.dropLast_concat]
    cases hstat : fs.stat p with
    | error e => rfl
    | ok d =>
      obtain ⟨-, hdir⟩ := h.stat_eq hvalid hstat
      exact absurd (hnone.symm.trans hdir) (by simp)
  · rw [place_concat (stat_of_directory hdir), Option.bind_some]

theorem place_eq_of_plain (h : fs.Plain p) (hvalid : ∀ n ∈ p, ValidName n)
    (hplace : fs.place (p ++ [n]) = some q) : q = p ++ [n] := by
  obtain ⟨d, hd, rfl⟩ := place_concat_eq_some hplace
  rw [(h.stat_eq hvalid hd).1]

theorem resolve_of_plain (h : fs.Plain p) (hpath : components path = p ++ [n])
    (hvalid : ∀ m ∈ p ++ [n], ValidName m) (hresolve : fs.resolve [] path = .ok q) :
    ∃ o, fs.lookup (p ++ [n]) = some o ∧ ((∀ target, o ≠ .link target) → q = p ++ [n]) := by
  have hstart : start [] path = [] := ite_self _
  rw [resolve, hstart, hpath] at hresolve
  split_ifs at hresolve
  cases hwalk : fs.walk 40 [] (p ++ [n]) with
  | error e =>
    rw [hwalk] at hresolve
    exact absurd hresolve (by simp)
  | ok d =>
    simp only [hwalk] at hresolve
    split_ifs at hresolve
    obtain rfl := Except.ok.inj hresolve
    obtain ⟨d', j, hleads, hj⟩ := walk_concat hwalk
    obtain ⟨rfl, -⟩ := h.stat_eq (fun m hm ↦ hvalid m (List.mem_append_left _ hm)) hleads.1
    exact walk_name (hvalid n (by simp)) ((hj _).symm.trans hwalk)

theorem resolve_of_directory (hpath : components path = p) (hne : path ≠ [])
    (h : fs.lookup p = some .directory) : fs.resolve [] path = .ok p := by
  have hstart : start [] path = [] := ite_self _
  have hwalk : fs.walk 40 [] p = .ok p := stat_of_directory h
  rw [resolve, hstart, hpath, if_neg hne, hwalk]
  exact if_neg fun hslash ↦ hslash.2 h

end Fs

/-! ## Volumes -/

/-- A file system whose objects have inodes and owners. -/
structure Volume where
  fs : Fs
  ino : Path → ℕ
  uid : Path → ℕ
  /-- No inode from this one on has been used. -/
  unused : ℕ
  ino_lt : ∀ p o, fs.lookup p = some o → ino p < unused

/-- What `lstat` says of an object. -/
structure Lstat where
  ino : ℕ
  uid : ℕ
  object : Object
  deriving DecidableEq

namespace Volume

variable {v : Volume} {fs : Fs} {p : Path} {n : Name} {o : Object} {path : List UInt8} {maker : ℕ}

/-- `lstat`, of an absolute path. -/
def lstat (v : Volume) (path : List UInt8) : Option Lstat :=
  (v.fs.place (components path)).bind fun p ↦
    (v.fs.lookup p).map fun o ↦ ⟨v.ino p, v.uid p, o⟩

/-- `chown`, which follows links. -/
def chown (v : Volume) (path : List UInt8) (uid : ℕ) : Option Volume :=
  match v.fs.resolve [] path with
  | .error _ => none
  | .ok p => some { v with uid := Function.update v.uid p uid }

/-- `open`, of an absolute path and for reading: the inode and what it is. -/
def openRead (v : Volume) (path : List UInt8) : Option (ℕ × Object) :=
  match v.fs.resolve [] path with
  | .error _ => none
  | .ok p => (v.fs.lookup p).map fun o ↦ (v.ino p, o)

/-- The volume once a process of this user has made and removed objects, so that these are left. -/
def left (v : Volume) (maker : ℕ) (fs : Fs) : Volume where
  fs := fs
  ino p := if v.fs.lookup p = none then v.unused + (fs.objects.map Prod.fst).idxOf p else v.ino p
  uid p := if v.fs.lookup p = none then maker else v.uid p
  unused := v.unused + fs.objects.length
  ino_lt := by
    intro p o ho
    by_cases hnone : v.fs.lookup p = none
    · have hp : p ≠ [] := by
        rintro rfl
        exact absurd hnone (by simp)
      have hmem : p ∈ fs.objects.map Prod.fst :=
        List.mem_map_of_mem ((Fs.lookup_eq_some_iff hp).mp ho)
      have hlt := List.idxOf_lt_length_of_mem hmem
      rw [List.length_map] at hlt
      rw [if_pos hnone]
      omega
    · obtain ⟨o', ho'⟩ := Option.ne_none_iff_exists'.mp hnone
      have hlt := v.ino_lt p o' ho'
      rw [if_neg hnone]
      omega

@[simp] theorem left_fs (v : Volume) (maker : ℕ) (fs : Fs) : (v.left maker fs).fs = fs := rfl

theorem unused_le_left (v : Volume) (maker : ℕ) (fs : Fs) : v.unused ≤ (v.left maker fs).unused :=
  Nat.le_add_right _ _

theorem chown_eq_some {v' : Volume} {uid : ℕ} (h : v.chown path uid = some v') :
    ∃ q, v.fs.resolve [] path = .ok q ∧ v' = { v with uid := Function.update v.uid q uid } := by
  rw [chown] at h
  cases hresolve : v.fs.resolve [] path with
  | error e =>
    rw [hresolve] at h
    exact absurd h (by simp)
  | ok q =>
    simp only [hresolve] at h
    exact ⟨q, rfl, (Option.some.inj h).symm⟩

/-! ### A name in a plain directory -/

section Plain

variable (hplain : v.fs.Plain p) (hvalid : ∀ m ∈ p ++ [n], ValidName m)
  (hpath : components path = p ++ [n])
include hplain hvalid hpath

theorem lstat_of_plain : v.lstat path =
    (v.fs.lookup (p ++ [n])).map fun o ↦ ⟨v.ino (p ++ [n]), v.uid (p ++ [n]), o⟩ := by
  have hvalid' : ∀ m ∈ p, ValidName m := fun m hm ↦ hvalid m (List.mem_append_left _ hm)
  rw [lstat, hpath, ← Fs.place_of_plain hplain hvalid']
  cases hplace : v.fs.place (p ++ [n]) with
  | none => rfl
  | some q =>
    obtain rfl := Fs.place_eq_of_plain hplain hvalid' hplace
    rfl

theorem lstat_chown {v' : Volume} {path' : List UInt8} {uid : ℕ}
    (hchown : v.chown path' uid = some v') : v'.lstat path = v.lstat path ∨
      ∃ st, v.lstat path = some st ∧ v'.lstat path = some { st with uid } ∧
        v.fs.resolve [] path' = .ok (p ++ [n]) := by
  obtain ⟨q, hresolve, rfl⟩ := chown_eq_some hchown
  rw [lstat_of_plain hplain hvalid hpath,
    lstat_of_plain (v := { v with uid := Function.update v.uid q uid }) hplain hvalid hpath]
  by_cases hq : q = p ++ [n]
  · obtain rfl := hq
    cases ho : v.fs.lookup (p ++ [n]) with
    | none => exact .inl rfl
    | some o =>
      refine .inr ⟨_, rfl, ?_, hresolve⟩
      simp only [Option.map_some, Function.update_self]
  · simp only [Function.update_of_ne (Ne.symm hq)]
    exact .inl trivial

end Plain

theorem lstat_left (hplain : fs.Plain p) (hvalid : ∀ m ∈ p ++ [n], ValidName m)
    (hpath : components path = p ++ [n]) : (v.left maker fs).lstat path =
    (fs.lookup (p ++ [n])).map fun o ↦
      if v.fs.lookup (p ++ [n]) = none then
        ⟨v.unused + (fs.objects.map Prod.fst).idxOf (p ++ [n]), maker, o⟩
      else ⟨v.ino (p ++ [n]), v.uid (p ++ [n]), o⟩ := by
  rw [lstat_of_plain hplain hvalid hpath]
  cases ho : fs.lookup (p ++ [n]) with
  | none => rw [left_fs, ho]; rfl
  | some o =>
    rw [left_fs, ho, Option.map_some, Option.map_some]
    by_cases hnone : v.fs.lookup (p ++ [n]) = none
    · rw [if_pos hnone, left]
      simp only [if_pos hnone]
    · rw [if_neg hnone, left]
      simp only [if_neg hnone]

end Volume

end FileTree
