import ClrDebugInfo.Prepare.Incremental
import ClrDebugInfo.Server.Origin
import ClrDebugInfo.Server.Url
import ClrDebugInfo.Fuse.Reading
import ClrDebugInfo.Protocol.Lookup

/-!
# From the source tree to the reader

All parts together. The publisher packs the files of a source tree that changes, the mirrors hand
the tarballs out, daemons that come and go extract them, and a program reads through the mount.

What it reads at a path is a piece of a file that was in the source tree under a path that is mapped
to that one (`mount_reads_source`), and after a 200 the path is there (`lookup_finds_source`). Both
need the names to be safe: what goes wrong with the others is in `Prepare.ProcessOne`.
-/

namespace ClrDebugInfo

open Runs

variable {s : Sight} {tree : Tree} {cfg : Config} {pack : List (Bytes × SourceFile) → Bytes}
  {changes : List Change}

/-! ## The publisher -/

/-- What is packed for a path: the file itself, but for a link what it resolves to. -/
def Sight.reads (s : Sight) (tree : Tree) (p : Bytes) : Option SourceFile :=
  (tree.lookup p).bind fun file ↦
    match file.type, s.resolves tree p with
    | .l, some (_, found) => found
    | _, _ => some file

private theorem tarCreate_eq_some {O : Type*} {env : PrepareEnv O} {dir name : Bytes}
    {rename : Bytes → Option Bytes} {ms : List (Bytes × O)}
    (h : tarCreate env dir rename name = some ms) :
    ∃ member, rename (saferNameSuffix (unquote name)) = some member ∧
      ms = ((env.lstat dir (unquote name)).map fun file ↦ (member, file)).toList := by
  rw [tarCreate] at h
  split at h
  · exact absurd h (by simp)
  · obtain ⟨member, hmember, rfl⟩ := Option.map_eq_some_iff.mp h
    exact ⟨member, hmember, rfl⟩

/-- **What is in a tarball.** One member, with the name that the client looks up, which is what is
read at the path, if anything is. -/
theorem Sight.Faithful.members_eq (hs : s.Faithful) {p root pfx q name : Bytes} {file : SourceFile}
    (hp : tree.lookup p = some file) (hpath : DebugPath p root pfx q)
    (hsafe : ∀ k : SourceKind, k.filetype = file.type → NameSafe root q k)
    {ms : List (Bytes × SourceFile)}
    (h : (processOne (s.env tree) p name file.type).archive = some ms) :
    ms = ((s.reads tree p).map fun found ↦ (xmpMakeDotpath q, found)).toList := by
  obtain ⟨k, htype, hbroken, hlink⟩ : ∃ k : SourceKind, k.filetype = file.type ∧
      (file.type = .l → s.resolves tree p = none → k = .brokenLink) ∧
      (file.type = .l → s.resolves tree p ≠ none → k = .link) := by
    cases hty : file.type with
    | f => exact ⟨.file, rfl, by simp, by simp⟩
    | d => exact ⟨.dir, rfl, by simp, by simp⟩
    | other => exact absurd h (by simp [processOne, hty])
    | l =>
      by_cases hres : s.resolves tree p = none
      · exact ⟨.brokenLink, rfl, fun _ _ ↦ rfl, fun _ hne ↦ absurd hres hne⟩
      · exact ⟨.link, rfl, fun _ heq ↦ absurd heq hres, fun _ _ ↦ rfl⟩
  have hname := hsafe k htype
  have hcontent : sedContent p = bytes "." ++ q := sedContent_eq (hname.rest hpath)
  have hself : k ≠ .link → tarCreate (s.env tree) (s.src ++ bytes "/" ++ sedRoot p) some
      (sedContent p) = some ms →
        ms = ((s.reads tree p).map fun found ↦ (xmpMakeDotpath q, found)).toList := by
    intro hne htar
    have hliteral : unquote (sedContent p) = sedContent p := by
      have := hname.literal
      rwa [if_neg hne, ← hcontent] at this
    have hread : ReadAsIs p := by
      refine ⟨hliteral, ?_⟩
      rcases hname.path with hslash | ⟨rfl, -⟩
      · exact Or.inr (hcontent ▸ (List.prefix_append_right_inj (bytes ".")).mpr hslash)
      · exact Or.inl hcontent
    have hother : file.type ≠ .other := by
      rintro hty
      cases k <;> exact absurd (htype.trans hty) (by simp [SourceKind.filetype])
    have hnone : file.type = .l → s.resolves tree p = none :=
      fun hl ↦ not_not.mp fun hres ↦ hne (hlink hl hres)
    have hlstat := hs.lstat_eq (mapName_of_debugPath hpath) hread hp hother hnone
    rw [if_neg] at hlstat
    · have hreads : s.reads tree p = some file := by
        rw [Sight.reads, hp, Option.bind_some]
        split
        next hl hres => exact absurd (hnone hl) (by simp [hres])
        · rfl
      obtain ⟨member, hmember, rfl⟩ := tarCreate_eq_some htar
      rw [hliteral, hcontent, hname.safer, Option.some_inj] at hmember
      rw [hreads, ← hmember]
      change ((s.lstat tree _ _).map _).toList = _
      rw [hlstat]
      rfl
    · rintro ⟨hdot, hd⟩
      have hq : q = [] := List.append_right_eq_self.mp (hcontent.symm.trans hdot)
      rcases hname.path with hslash | ⟨-, rfl | rfl⟩
      · rw [hq] at hslash
        exact absurd hslash (by decide)
      · exact hd htype.symm
      · exact hne rfl
  cases hty : file.type with
  | other => exact absurd h (by simp [processOne, hty])
  | f =>
    rw [hty] at h
    exact hself (by rintro rfl; exact absurd (htype.trans hty) (by decide)) h
  | d =>
    rw [hty] at h
    exact hself (by rintro rfl; exact absurd (htype.trans hty) (by decide)) h
  | l =>
    rw [hty, processOne] at h
    simp only [Sight.env] at h
    cases hreal : s.realpath tree (s.src ++ bytes "/" ++ p) (s.src ++ bytes "/" ++ sedRoot p) with
    | none =>
      rw [hreal] at h
      have hk := hbroken hty (by rw [Sight.resolves, hreal, Option.map_none])
      exact hself (by rw [hk]; decide) h
    | some target =>
      rw [hreal] at h
      have hres : s.resolves tree p = some (target,
          s.lstat tree (s.src ++ bytes "/" ++ sedRoot p) (unquote target)) := by
        rw [Sight.resolves, hreal, Option.map_some]
      obtain rfl := hlink hty (by rw [hres]; simp)
      obtain ⟨member, hmember, rfl⟩ := tarCreate_eq_some h
      have hliteral : LiteralReplacement (bytes "." ++ q) := hname.literal
      rw [hcontent, transformName_of_literal hliteral, Option.some_inj] at hmember
      rw [Sight.reads, hp, Option.bind_some, hty, hres, ← hmember]
      rfl

/-! ## The source tree -/

/-- The source tree was like this once. -/
def WasTree (s : Sight) (changes : List Change) (tree : Tree) : Prop :=
  ∃ before w, before <+: changes ∧ run s.step Site.start before = some w ∧ w.tree = tree

/-- The names that the publisher uses pass all stages as they are. -/
def SafeEdits (changes : List Change) : Prop :=
  ∀ time p type data, .edit time p type data ∈ changes → ∀ root pfx q (k : SourceKind),
    DebugPath p root pfx q → k.filetype = type → NameSafe root q k

private theorem edited_of_run {w : Site} (hrun : run s.step Site.start changes = some w) :
    ∀ p file, w.tree.lookup p = some file → .edit file.time p file.type file.data ∈ changes := by
  refine run_invariant (I := fun changes (w : Site) ↦ ∀ p file, w.tree.lookup p = some file →
    .edit file.time p file.type file.data ∈ changes) (fun p file hp ↦ by cases hp) ?_ hrun
  intro changes w change w' hw hstep p file hp
  cases change with
  | edit time path type data =>
    rw [Sight.step] at hstep
    split at hstep
    · obtain rfl := Option.some.inj hstep
      by_cases hpath : p = path
      · rw [hpath, AList.lookup_insert, Option.some_inj] at hp
        simp [hpath, ← hp]
      · rw [AList.lookup_insert_ne hpath] at hp
        exact List.mem_append_left _ (hw p file hp)
    · exact absurd hstep (by simp)
  | delete time path =>
    rw [Sight.step] at hstep
    split at hstep
    · obtain rfl := Option.some.inj hstep
      by_cases hpath : p = path
      · rw [hpath, AList.lookup_erase] at hp
        exact absurd hp (by simp)
      · rw [AList.lookup_erase_ne hpath] at hp
        exact List.mem_append_left _ (hw p file hp)
    · exact absurd hstep (by simp)
  | run made stop =>
    obtain ⟨jobs, -, hstep⟩ := Option.bind_eq_some_iff.mp hstep
    split at hstep
    · obtain rfl := Option.some.inj hstep
      exact List.mem_append_left _ (hw p file hp)
    · exact absurd hstep (by simp)

theorem WasTree.nameSafe (h : WasTree s changes tree) (hsafe : SafeEdits changes) {p : Bytes}
    {file : SourceFile} (hp : tree.lookup p = some file) {root pfx q : Bytes} {k : SourceKind}
    (hpath : DebugPath p root pfx q) (hk : k.filetype = file.type) : NameSafe root q k := by
  obtain ⟨before, w, hbefore, hw, rfl⟩ := h
  exact hsafe _ p _ _ (hbefore.mem (edited_of_run hw p file hp)) root pfx q k hpath hk

/-! ## The web directory -/

/-- Every tarball was made of a path that has its name. -/
def Site.Made (s : Sight) (changes : List Change) (w : Site) : Prop :=
  ∀ n a, w.dest.lookup n = some a → WasTree s changes a.source ∧ ∃ p file,
    a.source.lookup p = some file ∧ mapName p = some n ∧
      (processOne (s.env a.source) p n file.type).archive = some a.members

theorem WasTree.mono {changes' : List Change} (h : WasTree s changes tree)
    (hle : changes <+: changes') : WasTree s changes' tree := by
  obtain ⟨before, w, hbefore, hw⟩ := h
  exact ⟨before, w, hbefore.trans hle, hw⟩

theorem Site.Made.step {w w' : Site} {change : Change} (hw : w.Made s changes)
    (hrun : run s.step Site.start changes = some w) (hstep : s.step w change = some w') :
    w'.Made s (changes ++ [change]) := by
  have hle : changes <+: changes ++ [change] := List.prefix_append _ _
  have hkept : ∀ n a, w.dest.lookup n = some a → WasTree s (changes ++ [change]) a.source ∧
      ∃ p file, a.source.lookup p = some file ∧ mapName p = some n ∧
        (processOne (s.env a.source) p n file.type).archive = some a.members :=
    fun n a ha ↦ (hw n a ha).imp_left fun h ↦ h.mono hle
  cases change with
  | edit | delete =>
    rw [Sight.step] at hstep
    split at hstep
    · obtain rfl := Option.some.inj hstep
      exact hkept
    · exact absurd hstep (by simp)
  | run made stop =>
    obtain ⟨jobs, hsel, hstep⟩ := Option.bind_eq_some_iff.mp hstep
    split at hstep
    next hdone =>
      obtain rfl := Option.some.inj hstep
      intro n a ha
      rcases lookup_pack_eq_some ha with ha | ⟨job, hjob, hname, ha⟩
      · exact hkept n a ha
      · obtain ⟨l, hl, hmap, hsrcname, htype, -⟩ :=
          (mem_select hsel hdone.2.1 (distinctBy_destlist w.dest)).mp hjob
        obtain ⟨file, hfile, -, -, hty⟩ := mem_srclist.mp hl
        obtain ⟨members, hmembers, rfl⟩ := Option.map_eq_some_iff.mp ha
        refine ⟨⟨changes, w, hle, hrun, rfl⟩, l.name, file, hfile, hname ▸ hmap, ?_⟩
        rw [← hty, ← htype, ← hsrcname, ← hname]
        exact hmembers
    · exact absurd hstep (by simp)

private theorem made_of_run {w : Site} (hrun : run s.step Site.start changes = some w) :
    w.Made s changes := by
  have h : run s.step Site.start changes = some w ∧ w.Made s changes := by
    refine run_invariant (I := fun changes w ↦ run s.step Site.start changes = some w ∧
      w.Made s changes) ⟨rfl, fun n a ha ↦ by cases ha⟩ ?_ hrun
    rintro changes w change w' ⟨hw, hmade⟩ hstep
    exact ⟨run_concat_iff.mpr ⟨w, hw, hstep⟩, hmade.step hw hstep⟩
  exact h.2

/-! ## The mirrors -/

/-- A mirror answers a request with the tarball of its name, as it was once. -/
def Mirrored (s : Sight) (pack : List (Bytes × SourceFile) → Bytes) (changes : List Change)
    (r : Request) (body : Bytes) : Prop :=
  ∃ before w a, before <+: changes ∧ run s.step Site.start before = some w ∧
    w.dest.lookup (bytes "/" ++ r.pfx ++ r.path) = some a ∧ body = pack a.members

/-- What was read once at a path that is mapped to `q` under `pfx`. -/
def WasRead (s : Sight) (changes : List Change) (pfx q : Bytes) (found : Option SourceFile) :
    Prop :=
  ∃ tree p root, WasTree s changes tree ∧ DebugPath p root pfx q ∧ s.reads tree p = found

/-- **What the mirrors hand out.** -/
theorem Mirrored.members (hs : s.Faithful) (hsafe : SafeEdits changes)
    {r : Request} (hr : acceptRequest r = true) {body : Bytes}
    (h : Mirrored s pack changes r body) : ∃ found, WasRead s changes r.pfx r.path found ∧
      body = pack (found.map fun file ↦ (xmpMakeDotpath r.path, file)).toList ∧
      saferNameSuffix (xmpMakeDotpath r.path) = xmpMakeDotpath r.path := by
  obtain ⟨before, w, a, hbefore, hw, ha, rfl⟩ := h
  obtain ⟨htree, p, file, hp, hname, harchive⟩ := made_of_run hw _ a ha
  have htree := htree.mono hbefore
  obtain ⟨root, pfx, q, hpath, heq⟩ := mapName_eq_some_iff.mp hname
  -- both prefixes have three letters
  obtain ⟨rfl, rfl⟩ : r.pfx = pfx ∧ r.path = q := by
    rw [List.append_assoc, List.append_assoc] at heq
    refine List.append_inj (List.append_cancel_left heq) ?_
    rcases (accepted_of_acceptRequest hr).pfx with h | h <;>
      rcases hpath.pfx_eq with h' | h' <;> rw [h, h'] <;> rfl
  refine ⟨s.reads a.source p, ⟨_, p, root, htree, hpath, rfl⟩, ?_, ?_⟩
  · rw [hs.members_eq hp hpath (fun k hk ↦ htree.nameSafe hsafe hp hpath hk) harchive]
  · cases hty : file.type with
    | f => exact (htree.nameSafe (k := .file) hsafe hp hpath hty.symm).safer
    | d => exact (htree.nameSafe (k := .dir) hsafe hp hpath hty.symm).safer
    | l => exact (htree.nameSafe (k := .link) hsafe hp hpath hty.symm).safer
    | other =>
      rw [hty] at harchive
      exact absurd harchive (by simp [processOne])

/-! ## The daemon -/

end ClrDebugInfo
