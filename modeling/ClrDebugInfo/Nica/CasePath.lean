import ClrDebugInfo.Library.Inodes
import ClrDebugInfo.Nica.Hashmap

/-!
# Paths up to case (`src/nica/files.c`)

`nc_build_case_correct_path` appends its arguments to a path one after the other. For each it looks
through the directory that the path leads to by then, and takes the name of the first entry that is
the argument up to case, if there is one. When there is no path yet, and an entry matches, the
branch that should take over the name frees the path instead and leaves none: the argument is lost,
and the next one comes first.

## Conventions

* Every allocation succeeds. A string is the list of its bytes before the NUL.
* The file system does not change during the call.
-/

namespace ClrDebugInfo

open FileTree Inodes

/-! ## The code -/

/-- `tolower`, for ASCII. -/
def tolower (c : UInt8) : UInt8 := if 65 ≤ c ∧ c ≤ 90 then c + 32 else c

/-- What the call is made in. -/
structure CaseEnv where
  disk : Disk
  process : Process
  pathMax : ℕ
  /-- `opendir` opens this directory. -/
  opens : Bytes → Bool
  /-- No name has a slash in it. -/
  names : ∀ i parent entries, disk.dir i = some (parent, entries) → ∀ e ∈ entries, 47 ∉ e.1

/-- The names that the loop over a directory comes to. There are none if `stat` or `opendir` fails,
or if it is no directory. -/
def CaseEnv.listing (env : CaseEnv) (dir : Bytes) : List Name :=
  match env.disk.readdir env.pathMax env.process dir with
  | .error _ => []
  | .ok entries => if env.opens dir then entries.map (·.1) else []

/-- The tests of an entry, for the argument `p`. -/
def takesName (p dName : Bytes) : Bool :=
  -- `strncmp(ent->d_name, ".", 1)`, `strncmp(ent->d_name, "..", 2)` and `strcasecmp`
  !([46].isPrefixOf dName || [46, 46].isPrefixOf dName) && dName.map tolower == p.map tolower

/-- One turn of the loop, with the argument `p`: `root` afterwards. -/
def caseStep (env : CaseEnv) (root : Option Bytes) (p : Bytes) : Option Bytes :=
  let sav := root
  let root := match sav with
    | none => p
    | some sav => sav ++ 47 :: p
  match (env.listing (dirname root)).find? (takesName p) with
  | none => some root
  | some dName =>
    match sav with
    | some sav => some (sav ++ 47 :: dName)
    -- `root` is freed
    | none => none

/-- `nc_build_case_correct_path` -/
def ncBuildCaseCorrectPath (env : CaseEnv) (args : List Bytes) : Option Bytes :=
  args.foldl (caseStep env) none

/-! ## What is asked of it -/

/-- The arguments with slashes between them. -/
def joined (args : List Bytes) : Bytes := [47].intercalate args

/-- The directory that a path leads to, which is the working directory if the path is empty, has an
entry `n`. -/
def CaseEnv.HasEntry (env : CaseEnv) (path : Bytes) (n : Name) : Prop :=
  ∃ i j, env.disk.walk env.process.root 40 (env.process.start path) (components path) = .ok i ∧
    env.disk.entry i n = some j

/-- The names are the arguments up to case, all of them, and where a name is another one than the
argument, the directory that the names before lead to has it. -/
structure CaseNames (env : CaseEnv) (args names : List Bytes) : Prop where
  fold : (joined names).map tolower = (joined args).map tolower
  length : names.length = args.length
  entry : ∀ k c n, args[k]? = some c → names[k]? = some n →
    n.map tolower = c.map tolower ∧ (n ≠ c → env.HasEntry (joined (names.take k)) n)

/-- The call changes nothing but case. -/
def CaseCorrect (env : CaseEnv) (args : List Bytes) (ret : Option Bytes) : Prop :=
  ∃ names, ret = some (joined names) ∧ CaseNames env args names

variable {env : CaseEnv} {p r n c : Bytes} {args names rest : List Bytes}

/-! ## Joined arguments -/

private theorem joined_concat (hne : args ≠ []) (c : Bytes) :
    joined (args ++ [c]) = joined args ++ 47 :: c := by
  induction args with
  | nil => exact absurd rfl hne
  | cons a args ih =>
    rw [joined] at ih ⊢
    match args with
    | [] => simp [joined]
    | b :: args =>
      rw [joined, List.cons_append, List.intercalate_cons_of_ne_nil (by simp), ih (by simp),
        List.intercalate_cons_of_ne_nil (by simp)]
      simp only [joined, List.append_assoc]

private theorem length_joined_cons (c : Bytes) (args : List Bytes) :
    (joined (c :: args)).length =
      c.length + if args = [] then 0 else (joined args).length + 1 := by
  match args with
  | [] => simp [joined]
  | b :: args =>
    rw [joined, List.intercalate_cons_of_ne_nil (by simp), if_neg (by simp)]
    simp only [joined, List.length_append, List.length_singleton]
    omega

/-! ## The directory of a path -/

private theorem eq_slash_of_tolower {b : UInt8} (h : tolower b = 47) : b = 47 := by
  rw [tolower] at h
  split_ifs at h with hb
  · have hsum := congrArg UInt8.toNat h
    have hlow := UInt8.le_iff_toNat_le.mp hb.1
    have hhigh := UInt8.le_iff_toNat_le.mp hb.2
    simp only [UInt8.toNat_add, UInt8.toNat_ofNat] at hsum hlow hhigh
    omega
  · exact h

private theorem takesName_iff : takesName p n = true ↔
    n.head? ≠ some 46 ∧ n.map tolower = p.map tolower := by
  rw [takesName, Bool.and_eq_true, beq_iff_eq]
  refine and_congr_left fun _ ↦ ?_
  match n with
  | [] => simp
  | b :: n =>
    by_cases hdot : b = 46
    · simp [hdot]
    · have hne : (46 == b) = false := beq_eq_false_iff_ne.mpr (Ne.symm hdot)
      simp [List.isPrefixOf, hne, hdot]

private theorem components_dirname (hr : r ≠ []) (hp : p ≠ []) (hslash : 47 ∉ p) :
    components (dirname (r ++ 47 :: p)) = components r ∧
      (dirname (r ++ 47 :: p)).head? = r.head? := by
  have hplain : ∀ b ∈ p, (b == 47) = false := by
    intro b hb
    rw [beq_eq_false_iff_ne]
    rintro rfl
    exact hslash hb
  have hpath : components (r ++ 47 :: p) = components r ++ [p] := by
    rw [components, @Words.words_append_blank_cons _ (· == 47) 47 rfl,
      Words.words_singleton hp hplain, components]
  have hhead : (r ++ 47 :: p).head? = r.head? := List.head?_append_of_ne_nil r hr
  rcases dirname_components hpath with ⟨-, hnil, hrel⟩ | ⟨-, hcs, hsame⟩
  · -- only slashes have no names, and they begin with one
    rw [hhead] at hrel
    cases r with
    | nil => exact absurd rfl hr
    | cons b r =>
      have hb := Words.blank_of_words_nil hnil b List.mem_cons_self
      exact absurd (congrArg some (beq_iff_eq.mp hb)) hrel
  · exact ⟨hcs, hsame.trans hhead⟩

private theorem mem_listing {dir : Bytes} (h : n ∈ env.listing dir) (hdot : n.head? ≠ some 46) :
    ∃ i parent entries j, env.disk.stat env.pathMax env.process dir = .ok i ∧
      env.disk.dir i = some (parent, entries) ∧ (n, j) ∈ entries := by
  rw [CaseEnv.listing, Disk.readdir] at h
  cases hstat : env.disk.stat env.pathMax env.process dir with
  | error e =>
    rw [hstat] at h
    exact absurd h List.not_mem_nil
  | ok i =>
    rw [hstat] at h
    simp only at h
    cases hdir : env.disk.dir i with
    | none =>
      rw [hdir] at h
      exact absurd h List.not_mem_nil
    | some e =>
      obtain ⟨parent, entries⟩ := e
      rw [hdir] at h
      simp only at h
      split_ifs at h
      · rw [List.map_cons, List.map_cons, List.map_map, List.mem_cons, List.mem_cons,
          List.mem_map] at h
        rcases h with rfl | rfl | ⟨⟨n', j⟩, hmem, rfl⟩
        · exact absurd rfl hdot
        · exact absurd rfl hdot
        · exact ⟨i, parent, entries, j, rfl, hdir, hmem⟩
      · exact absurd h List.not_mem_nil

private theorem hasEntry_of_mem_listing (hr : r ≠ []) (hp : p ≠ [])
    (h : n ∈ env.listing (dirname (r ++ 47 :: p))) (ht : takesName p n = true) :
    env.HasEntry r n := by
  obtain ⟨hdot, hcase⟩ := takesName_iff.mp ht
  obtain ⟨i, parent, entries, j, hstat, hdir, hmem⟩ := mem_listing h hdot
  have hslash : 47 ∉ p := by
    intro hp
    have hlower := List.mem_map_of_mem (f := tolower) hp
    rw [← hcase, List.mem_map] at hlower
    obtain ⟨b, hb, heq⟩ := hlower
    exact env.names i parent entries hdir _ hmem (eq_slash_of_tolower heq ▸ hb)
  obtain ⟨hcomponents, hhead⟩ := components_dirname hr hp hslash
  have hwalk := Disk.walk_of_stat hstat
  have hstart : env.process.start (dirname (r ++ 47 :: p)) = env.process.start r := by
    rw [Process.start, Process.start, hhead]
  rw [hcomponents, hstart] at hwalk
  have hentry : (entries.lookup n).isSome = true := by
    rw [List.lookup_isSome_iff]
    exact ⟨(n, j), hmem, beq_self_eq_true n⟩
  obtain ⟨j', hj'⟩ := Option.isSome_iff_exists.mp hentry
  exact ⟨i, j', hwalk, by rw [Disk.entry, hdir, Option.bind_some, hj']⟩

/-! ## One argument -/

private theorem caseStep_some (hr : r ≠ []) (hp : p ≠ []) :
    ∃ n, caseStep env (some r) p = some (r ++ 47 :: n) ∧ n.map tolower = p.map tolower ∧
      (n ≠ p → env.HasEntry r n) := by
  rw [caseStep]
  cases hfind : (env.listing (dirname (r ++ 47 :: p))).find? (takesName p) with
  | none => exact ⟨p, rfl, rfl, fun hne ↦ absurd rfl hne⟩
  | some n =>
    have ht := List.find?_some hfind
    exact ⟨n, rfl, (takesName_iff.mp ht).2,
      fun _ ↦ hasEntry_of_mem_listing hr hp (List.mem_of_find?_eq_some hfind) ht⟩

theorem CaseNames.concat (H : CaseNames env args names) (hne : args ≠ [])
    (hfold : n.map tolower = c.map tolower) (hentry : n ≠ c → env.HasEntry (joined names) n) :
    CaseNames env (args ++ [c]) (names ++ [n]) where
  fold := by
    have hnames : names ≠ [] := by
      rintro rfl
      exact hne (List.length_eq_zero_iff.mp H.length.symm)
    rw [joined_concat hnames, joined_concat hne, List.map_append, List.map_append, List.map_cons,
      List.map_cons, H.fold, hfold]
  length := by rw [List.length_append, List.length_append, H.length, List.length_singleton,
    List.length_singleton]
  entry k c' n' hc hn := by
    have hlen := H.length
    rcases Nat.lt_or_ge k args.length with hk | hk
    · rw [List.getElem?_append_left hk] at hc
      rw [List.getElem?_append_left (by omega)] at hn
      rw [List.take_append_of_le_length (by omega)]
      exact H.entry k c' n' hc hn
    · obtain ⟨hlt, -⟩ := List.getElem?_eq_some_iff.mp hc
      rw [List.length_append, List.length_singleton] at hlt
      obtain rfl : k = args.length := by omega
      rw [List.getElem?_concat_length, Option.some_inj] at hc
      rw [← hlen, List.getElem?_concat_length, Option.some_inj] at hn
      rw [← hc, ← hn, ← hlen, List.take_left]
      exact ⟨hfold, hentry⟩

private theorem joined_ne_nil (hc : c ≠ []) (args : List Bytes) : joined (c :: args) ≠ [] := by
  intro hnil
  have hlen := length_joined_cons c args
  rw [hnil, List.length_nil] at hlen
  exact hc (List.length_eq_zero_iff.mp (by omega))

/-! ## The loop -/

/-- **The loop**, once there is a path. -/
theorem caseCorrect_foldl (H : CaseNames env (c :: args) names) (hc : c ≠ [])
    (hrest : ∀ c ∈ rest, c ≠ []) :
    CaseCorrect env (c :: args ++ rest) (rest.foldl (caseStep env) (some (joined names))) := by
  induction rest generalizing args names with
  | nil =>
    rw [List.append_nil]
    exact ⟨names, rfl, H⟩
  | cons p rest ih =>
    have hpath : joined names ≠ [] := by
      intro hnil
      have hfold := H.fold
      rw [hnil, List.map_nil, eq_comm, List.map_eq_nil_iff] at hfold
      exact joined_ne_nil hc args hfold
    obtain ⟨n, hstep, hcase, hentry⟩ :=
      @caseStep_some env p (joined names) hpath (hrest p List.mem_cons_self)
    have hnames : names ≠ [] := by
      rintro rfl
      exact hpath rfl
    have H' := H.concat (List.cons_ne_nil c args) hcase hentry
    rw [List.cons_append] at H'
    have hall := ih H' fun c hc ↦ hrest c (List.mem_cons_of_mem p hc)
    rw [joined_concat hnames] at hall
    rw [List.foldl_cons, hstep]
    simpa using hall

private theorem length_foldl_some (h : rest.foldl (caseStep env) (some c) = some r)
    (hc : c ≠ []) (hrest : ∀ c ∈ rest, c ≠ []) : r.length = (joined (c :: rest)).length := by
  induction rest generalizing c with
  | nil =>
    rw [← Option.some.inj h, joined, List.intercalate_singleton]
  | cons p rest ih =>
    obtain ⟨n, hstep, hcase, -⟩ := @caseStep_some env p c hc (hrest p List.mem_cons_self)
    have hlen := congrArg List.length hcase
    rw [List.length_map, List.length_map] at hlen
    rw [List.foldl_cons, hstep] at h
    rw [ih h (by simp) fun c hc ↦ hrest c (List.mem_cons_of_mem p hc), length_joined_cons,
      length_joined_cons, length_joined_cons, if_neg (List.cons_ne_nil p rest), List.length_append,
      List.length_cons, hlen]
    omega

private theorem caseStep_none (env : CaseEnv) (c : Bytes) : caseStep env none c =
    if ∃ n ∈ env.listing (dirname c), takesName c n = true then none else some c := by
  rw [caseStep]
  cases hfind : (env.listing (dirname c)).find? (takesName c) with
  | none =>
    rw [List.find?_eq_none] at hfind
    exact (if_neg fun ⟨n, hn, ht⟩ ↦ hfind n hn ht).symm
  | some n =>
    exact (if_pos ⟨n, List.mem_of_find?_eq_some hfind, List.find?_some hfind⟩).symm

private theorem length_foldl_none (h : rest.foldl (caseStep env) none = some r)
    (hrest : ∀ c ∈ rest, c ≠ []) : r.length ≤ (joined rest).length := by
  induction rest with
  | nil => exact absurd h (by simp)
  | cons c rest ih =>
    have hrest' := fun c' hc' ↦ hrest c' (List.mem_cons_of_mem c hc')
    rw [List.foldl_cons, caseStep_none] at h
    split_ifs at h
    · have hle := ih h hrest'
      have hlen := length_joined_cons c rest
      split_ifs at hlen with hnil
      · rw [hnil] at h
        exact absurd h (by simp)
      · omega
    · exact (length_foldl_some h (hrest c List.mem_cons_self) hrest').le

/-- **Only case.** The call changes nothing but case exactly if no entry of the directory of the
first argument, other than those that begin with a dot, is that argument up to case. -/
theorem caseCorrect_iff (env : CaseEnv) {c : Bytes} {rest : List Bytes}
    (hne : ∀ c' ∈ c :: rest, c' ≠ []) :
    CaseCorrect env (c :: rest) (ncBuildCaseCorrectPath env (c :: rest)) ↔
      ¬∃ n ∈ env.listing (dirname c), n.head? ≠ some 46 ∧ n.map tolower = c.map tolower := by
  have hc := hne c List.mem_cons_self
  have hrest := fun c' hc' ↦ hne c' (List.mem_cons_of_mem c hc')
  simp only [← takesName_iff]
  rw [ncBuildCaseCorrectPath, List.foldl_cons, caseStep_none]
  by_cases htaken : ∃ n ∈ env.listing (dirname c), takesName c n = true
  · rw [if_pos htaken]
    refine iff_of_false ?_ (not_not_intro htaken)
    rintro ⟨names, hret, H⟩
    have hle := length_foldl_none hret hrest
    have hsame := congrArg List.length H.fold
    have hlen := length_joined_cons c rest
    rw [List.length_map, List.length_map] at hsame
    have hpos := List.length_pos_of_ne_nil hc
    split_ifs at hlen with hnil
    · rw [hnil] at hret
      exact absurd hret (by simp)
    · omega
  · rw [if_neg htaken]
    refine iff_of_true ?_ htaken
    have hone : CaseNames env [c] [c] := by
      refine ⟨rfl, rfl, fun k c' n hc' hn ↦ ?_⟩
      obtain rfl := Option.some.inj (hc'.symm.trans hn)
      exact ⟨rfl, fun hne ↦ absurd rfl hne⟩
    have hall := caseCorrect_foldl hone hc hrest
    rw [joined, List.intercalate_singleton] at hall
    exact hall

/-- A directory `boot` with a directory `EFI` in it, below the root, where the process works. -/
def bootEnv : CaseEnv where
  disk := ⟨[.directory 0 [(bytes "boot", 1)], .directory 0 [(bytes "EFI", 2)], .directory 1 []]⟩
  process := ⟨0, 0⟩
  pathMax := 4096
  opens _ := true
  names := by
    rintro (_ | _ | _ | i) parent entries hdir
    all_goals
      simp only [Disk.dir] at hdir
    · obtain ⟨-, rfl⟩ := hdir
      decide
    · obtain ⟨-, rfl⟩ := hdir
      decide
    · obtain ⟨-, rfl⟩ := hdir
      decide
    · simp at hdir

/-- `"/boot"` and `"efi"` make `"/boot/EFI"`. -/
theorem caseCorrect_iff_efi :
    ncBuildCaseCorrectPath bootEnv [bytes "/boot", bytes "efi"] = some (bytes "/boot/EFI") ∧
      (CaseCorrect bootEnv [bytes "/boot", bytes "efi"]
          (ncBuildCaseCorrectPath bootEnv [bytes "/boot", bytes "efi"]) ↔
        ¬∃ n ∈ bootEnv.listing (dirname (bytes "/boot")), n.head? ≠ some 46 ∧
          n.map tolower = (bytes "/boot").map tolower) :=
  ⟨by decide, caseCorrect_iff bootEnv (by decide)⟩

/-- `"boot"` and `"efi"` make `"efi"`, and `"boot"` alone makes nothing. -/
theorem not_caseCorrect_boot : ncBuildCaseCorrectPath bootEnv [bytes "boot"] = none ∧
    ncBuildCaseCorrectPath bootEnv [bytes "boot", bytes "efi"] = some (bytes "efi") ∧
    ¬CaseCorrect bootEnv [bytes "boot", bytes "efi"]
      (ncBuildCaseCorrectPath bootEnv [bytes "boot", bytes "efi"]) := by
  have hret : ncBuildCaseCorrectPath bootEnv [bytes "boot", bytes "efi"] = some (bytes "efi") := by
    decide
  refine ⟨by decide, hret, ?_⟩
  rw [hret]
  rintro ⟨names, hnames, H⟩
  have hlen := congrArg List.length H.fold
  rw [← Option.some.inj hnames] at hlen
  exact absurd hlen (by decide)

end ClrDebugInfo
