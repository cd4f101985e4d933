import Mathlib.Data.List.Dedup
import ClrDebugInfo.Prepare.Script

/-!
# Which trees are published whole

A run of `scripts/clr_debug_prepare` on an empty destination, from the source tree to the calls of
`process_one`. Three things come between a file and its call: the argument, whose slash `find` and
`sed` can take from the paths; the separators, at which a path that holds one is cut; and the names,
since of two files that are mapped to one name the later takes the place of the earlier. Without
them every file has its call (`gawkRun_published_iff`).
-/

namespace ClrDebugInfo

open Words

/-! ## From the tree to the list -/

private theorem exprMatch_append (e s : Bytes) : exprMatch e (e ++ s) = some s := by
  induction e with
  | nil => rfl
  | cons c e ih => rw [List.cons_append, exprMatch, if_pos (.inr rfl), ih]

private theorem sedSrc_append (e s : Bytes) : sedSrc e (e ++ s) = s := by
  have hmatch := exprMatch_append e s
  match h : e ++ s with
  | [] =>
    rw [h] at hmatch
    rw [sedSrc, hmatch, Option.getD_some]
  | b :: t =>
    rw [h] at hmatch
    rw [sedSrc, hmatch]

/-- A line of the source list, for a file that is found at `w`. -/
def SrcFile.line (f : SrcFile) (w : Bytes) : Bytes := w ++ [32] ++ f.time ++ [32] ++ [f.type]

theorem SrcFile.time_blankFree (f : SrcFile) : BlankFree f.time :=
  fun b hb ↦ (List.all_iff_forall_prop.mp (by decide) :
    ∀ b ∈ bytes "-.0123456789", isBlank b = false) b (f.time_text.2 hb)

theorem SrcFile.type_clean (f : SrcFile) : isBlank f.type = false ∧ isSpace f.type = false :=
  (List.all_iff_forall_prop.mp (by decide) :
    ∀ b ∈ bytes "fdlpsbcD", isBlank b = false ∧ isSpace b = false) _ f.type_letter

private theorem fields_line (f : SrcFile) {w : Bytes} (hne : w ≠ []) (hw : BlankFree w) :
    field (f.line w) 1 = w ∧ field (f.line w) 3 = [f.type] := by
  have htype : words isBlank [f.type] = [[f.type]] :=
    words_singleton (List.cons_ne_nil _ _) fun b hb ↦ List.mem_singleton.mp hb ▸ f.type_clean.1
  have hwords : words isBlank (f.line w) = [w, f.time, [f.type]] := by
    rw [SrcFile.line, List.append_assoc, List.append_assoc, List.append_assoc,
      List.singleton_append, words_cons hne hw rfl, List.singleton_append,
      words_cons f.time_text.1 f.time_blankFree rfl, htype]
  rw [field, field, hwords]
  exact ⟨rfl, rfl⟩

private theorem srcLines_eq {dir : SrcDir} {tree : List SrcFile}
    (h : ∀ f ∈ deep tree, BlankFree f.path) : srcLines dir tree = (deep tree).map fun f ↦
      f.line (if dir.name.getLast? = some 47 then f.path.drop 1 else f.path) := by
  have hnl : ∀ {w : Bytes}, BlankFree w → (10 : UInt8) ∉ w :=
    fun hw hmem ↦ absurd (hw 10 hmem) (by decide)
  have hdir : (10 : UInt8) ∉ dir.name := fun hmem ↦ dir.plain 10 hmem (by decide)
  rw [srcLines, findSrc, textLines_flatMap, List.map_flatMap, List.map_eq_flatMap]
  refine List.flatMap_congr fun f hf ↦ ?_
  have hpath : (10 : UInt8) ∉ if dir.name.getLast? = some 47 then f.path.drop 1 else f.path := by
    split
    · exact fun hmem ↦ hnl (h f hf) (List.mem_of_mem_drop hmem)
    · exact hnl (h f hf)
  have hrecord : dir.printed f.path ++ [32] ++ f.time ++ [32] ++ [f.type] = dir.name ++
      f.line (if dir.name.getLast? = some 47 then f.path.drop 1 else f.path) := by
    simp only [SrcDir.printed, SrcFile.line, List.append_assoc]
  have htype : (10 : UInt8) ≠ f.type := fun heq ↦
    absurd (heq ▸ f.type_clean.1 : isBlank 10 = false) (by decide)
  rw [hrecord, List.splitOn_eq_singleton, List.map_singleton, sedSrc_append]
  simp only [SrcFile.line, List.mem_append, List.mem_singleton, not_or]
  exact ⟨hdir, ⟨⟨⟨hpath, by decide⟩, hnl f.time_blankFree⟩, by decide⟩, htype⟩

private theorem recordCall_line {f : SrcFile} {name : Bytes} (hname : mapName f.path = some name)
    (hclean : CleanPath f.path) : recordName (f.line f.path) = some name ∧
      recordCall (f.line f.path) = ⟨f.path, name, [f.type]⟩ := by
  have hne : f.path ≠ [] := by
    intro hnil
    rw [hnil] at hname
    cases hname
  obtain ⟨hfirst, hthird⟩ := fields_line f hne hclean.1
  have hrecord : recordName (f.line f.path) = some name := by rw [recordName, hfirst, hname]
  obtain ⟨hpath, htrim⟩ := trim_of_clean hname hclean
  have htype : trim isSpace [f.type] = [f.type] := by
    refine trim_eq_self ?_ ?_
    · exact fun b hb ↦ (Option.some.inj hb : f.type = b) ▸ f.type_clean.2
    · exact fun b hb ↦ (Option.some.inj hb : f.type = b) ▸ f.type_clean.2
  refine ⟨hrecord, ?_⟩
  rw [recordCall, hfirst, hthird, hrecord, Option.getD_some, hpath, htrim, htype]

private theorem recordName_drop {f : SrcFile} {name : Bytes} (hname : mapName f.path = some name)
    (hpath : BlankFree f.path) : recordName (f.line (f.path.drop 1)) = none := by
  have hhead : (f.path.drop 1).head? = some 117 := by
    obtain ⟨root, pfx, q, hp, -⟩ := mapName_eq_some_iff.mp hname
    generalize f.path = p at hp
    cases hp <;> rfl
  have hne : f.path.drop 1 ≠ [] := by
    intro hnil
    rw [hnil] at hhead
    exact absurd hhead (by simp)
  obtain ⟨hfirst, -⟩ := fields_line f hne fun b hb ↦ hpath b (List.mem_of_mem_drop hb)
  rw [recordName, hfirst, Option.eq_none_iff_forall_ne_some]
  intro n hn
  obtain ⟨root, -, q, hsplit, -, hroot, -⟩ := mapName_eq_some hn
  rw [hsplit, List.head?_append, hroot] at hhead
  exact absurd (Option.some.inj hhead) (by decide)

/-! ## Every path is published -/

/-- Every file has exactly one call, with its path and its type, and calls for different paths have
different names. -/
def PublishesAll (files : List SrcFile) (calls : List Call) : Prop :=
  (calls.map fun c ↦ (c.srcname, c.filetype)).Perm (files.map fun f ↦ (f.path, [f.type])) ∧
    ∀ c ∈ calls, ∀ c' ∈ calls, c.srcname ≠ c'.srcname → c.destname ≠ c'.destname

section PublishesAll

variable {less : Bytes → Bytes → Bool} {dir : SrcDir} {tree : List SrcFile} {srclist : List Bytes}

private theorem exists_call (h : PublishesAll (deep tree) (handed (gawkRun less srclist [])))
    {f : SrcFile} (hf : f ∈ deep tree) :
    ∃ c ∈ handed (gawkRun less srclist []), c.srcname = f.path := by
  obtain ⟨c, hc, heq⟩ := List.mem_map.mp
    (h.1.mem_iff.mpr (List.mem_map_of_mem (f := fun f : SrcFile ↦ (f.path, [f.type])) hf))
  exact ⟨c, hc, (Prod.mk.inj heq).1⟩

private theorem path_ne_unexpected {f : SrcFile} (hroot : (mapName f.path).isSome) :
    f.path ≠ unexpected := by
  intro heq
  rw [heq] at hroot
  exact absurd hroot (by decide)

private theorem srclist_perm (hsort : srclist.Perm (srcLines dir tree))
    (hclean : ∀ f ∈ deep tree, CleanPath f.path)
    (hslash : deep tree ≠ [] → dir.name.getLast? ≠ some 47) :
    srclist.Perm ((deep tree).map fun f ↦ f.line f.path) := by
  have hlines : srcLines dir tree = (deep tree).map fun f ↦ f.line f.path := by
    rw [srcLines_eq fun f hf ↦ (hclean f hf).1]
    refine List.map_congr_left fun f hf ↦ ?_
    rw [if_neg (hslash (List.ne_nil_of_mem hf))]
  rwa [hlines] at hsort

private theorem slash_of_published (hsort : srclist.Perm (srcLines dir tree))
    (hroots : ∀ f ∈ deep tree, (mapName f.path).isSome)
    (hclean : ∀ f ∈ deep tree, CleanPath f.path)
    (h : PublishesAll (deep tree) (handed (gawkRun less srclist []))) :
    deep tree ≠ [] → dir.name.getLast? ≠ some 47 := by
  intro hne hslash
  obtain ⟨f, hf⟩ := List.exists_mem_of_ne_nil _ hne
  have hnone : ∀ line ∈ srclist, recordName line = none := by
    intro line hline
    have hmem := hsort.mem_iff.mp hline
    rw [srcLines_eq fun f hf ↦ (hclean f hf).1] at hmem
    obtain ⟨g, hg, rfl⟩ := List.mem_map.mp hmem
    obtain ⟨name, hname⟩ := Option.isSome_iff_exists.mp (hroots g hg)
    rw [if_pos hslash]
    exact recordName_drop hname (hclean g hg).1
  obtain ⟨c, hc, hsrcname⟩ := exists_call h hf
  rcases accepted_or_rejected srclist with hall | hex
  · obtain ⟨line, hline, -⟩ := calls_of_entries ((handed_of_accepted less hall).mem_iff.mp hc)
    exact absurd (hnone line hline) (Option.isSome_iff_ne_none.mp (hall line hline))
  · obtain ⟨good, bad, rest, rfl, hgood, -, hperm⟩ := handed_of_rejected hex
    rcases List.mem_cons.mp ((hperm less []).2.mem_iff.mp hc) with rfl | hmem
    · exact path_ne_unexpected (hroots f hf) hsrcname.symm
    · obtain ⟨line, hline, -⟩ := calls_of_entries hmem
      exact absurd (hnone line (List.mem_append_left _ hline))
        (Option.isSome_iff_ne_none.mp (hgood line hline))

section Clean

variable (hsort : srclist.Perm ((deep tree).map fun f ↦ f.line f.path))
  (hroots : ∀ f ∈ deep tree, (mapName f.path).isSome) (hclean : ∀ f ∈ deep tree, CleanPath f.path)

include hsort hroots hclean

private theorem accepted_of_clean : ∀ line ∈ srclist, (recordName line).isSome := by
  intro line hline
  obtain ⟨f, hf, rfl⟩ := List.mem_map.mp (hsort.mem_iff.mp hline)
  obtain ⟨name, hname⟩ := Option.isSome_iff_exists.mp (hroots f hf)
  rw [(recordCall_line hname (hclean f hf)).1]
  rfl

private theorem recordName_perm :
    (srclist.map recordName).Perm ((deep tree).map fun f ↦ mapName f.path) := by
  have hmap := hsort.map recordName
  rw [List.map_map] at hmap
  refine hmap.trans (List.Perm.of_eq (List.map_congr_left fun f hf ↦ ?_))
  obtain ⟨name, hname⟩ := Option.isSome_iff_exists.mp (hroots f hf)
  rw [Function.comp_apply, (recordCall_line hname (hclean f hf)).1, hname]

private theorem keys_perm : ((srclist.foldl insertRecord ∅).keys.map some).Perm
    ((deep tree).map fun f ↦ mapName f.path).dedup := by
  have haccept := accepted_of_clean hsort hroots hclean
  have hnames := recordName_perm hsort hroots hclean
  have hnodup := (AList.keys_nodup (srclist.foldl insertRecord ∅)).map (Option.some_injective _)
  refine (List.perm_ext_iff_of_nodup hnodup (List.nodup_dedup _)).mpr fun o ↦ ?_
  rw [List.mem_dedup, ← hnames.mem_iff, List.mem_map, List.mem_map]
  constructor
  · rintro ⟨name, hname, rfl⟩
    rcases mem_keys_insertRecord.mp hname with hempty | hline
    · exact absurd hempty List.not_mem_nil
    · exact hline
  · rintro ⟨line, hline, rfl⟩
    obtain ⟨name, hname⟩ := Option.isSome_iff_exists.mp (haccept line hline)
    exact ⟨name, mem_keys_insertRecord.mpr (.inr ⟨line, hline, hname⟩), hname.symm⟩

private theorem nodup_of_published
    (h : PublishesAll (deep tree) (handed (gawkRun less srclist []))) :
    ((deep tree).map fun f ↦ mapName f.path).Nodup := by
  have hperm := handed_of_accepted less (accepted_of_clean hsort hroots hclean)
  have hkeys := keys_perm hsort hroots hclean
  have hlength : ((deep tree).map fun f ↦ mapName f.path).dedup.length =
      ((deep tree).map fun f ↦ mapName f.path).length := by
    have h₁ := h.1.length_eq
    have h₂ := hperm.length_eq
    have h₃ := hkeys.length_eq
    simp only [List.length_map, AList.keys, List.keys] at h₁ h₂ h₃ ⊢
    omega
  rw [← (List.dedup_sublist _).eq_of_length hlength]
  exact List.nodup_dedup _

private theorem handed_perm (hnodup : ((deep tree).map fun f ↦ mapName f.path).Nodup) :
    (handed (gawkRun less srclist [])).Perm ((deep tree).map fun f ↦
      ⟨f.path, (mapName f.path).getD [], [f.type]⟩) := by
  have haccept := accepted_of_clean hsort hroots hclean
  have hnames := recordName_perm hsort hroots hclean
  have hentries := entries_insertRecord haccept (hnames.nodup_iff.mpr hnodup)
    fun _ _ _ _ ↦ AList.notMem_empty _
  rw [show (∅ : AList fun _ : Bytes ↦ TextEntry).entries = [] from rfl, List.append_nil]
    at hentries
  have hrecords := (handed_of_accepted less haccept).trans (hentries.map _)
  rw [List.map_map] at hrecords
  have hcalls : (handed (gawkRun less srclist [])).Perm (srclist.map recordCall) := by
    refine hrecords.trans (List.Perm.of_eq (List.map_congr_left fun line hline ↦ ?_))
    obtain ⟨name, hname⟩ := Option.isSome_iff_exists.mp (haccept line hline)
    rw [Function.comp_apply, hname]
    exact ofLine_record hname
  have hfiles := hsort.map recordCall
  rw [List.map_map] at hfiles
  refine hcalls.trans (hfiles.trans (List.Perm.of_eq (List.map_congr_left fun f hf ↦ ?_)))
  obtain ⟨name, hname⟩ := Option.isSome_iff_exists.mp (hroots f hf)
  rw [Function.comp_apply, (recordCall_line hname (hclean f hf)).2, hname, Option.getD_some]

private theorem published_of_clean (hnodup : ((deep tree).map fun f ↦ mapName f.path).Nodup) :
    PublishesAll (deep tree) (handed (gawkRun less srclist [])) := by
  have hcalls : (handed (gawkRun less srclist [])).Perm ((deep tree).map fun f ↦
      ⟨f.path, (mapName f.path).getD [], [f.type]⟩) := handed_perm hsort hroots hclean hnodup
  constructor
  · have hmap := hcalls.map fun c ↦ (c.srcname, c.filetype)
    rwa [List.map_map] at hmap
  · intro c hc c' hc' hsrcname hdest
    obtain ⟨f, hf, rfl⟩ := List.mem_map.mp (hcalls.mem_iff.mp hc)
    obtain ⟨g, hg, rfl⟩ := List.mem_map.mp (hcalls.mem_iff.mp hc')
    obtain ⟨name, hname⟩ := Option.isSome_iff_exists.mp (hroots f hf)
    obtain ⟨name', hname'⟩ := Option.isSome_iff_exists.mp (hroots g hg)
    simp only [hname, hname', Option.getD_some] at hdest
    have heq : mapName f.path = mapName g.path := by rw [hname, hname', hdest]
    exact hsrcname (congrArg SrcFile.path (List.inj_on_of_nodup_map hnodup hf hg heq))

end Clean

/-- **When every source path is published**, on an empty destination: if the argument does not end
in a slash, no path holds a blank or ends in space, and no two paths are mapped to one name. -/
theorem gawkRun_published_iff (less : Bytes → Bytes → Bool) (dir : SrcDir) (tree : List SrcFile)
    (hroots : ∀ f ∈ deep tree, (mapName f.path).isSome) (srclist : List Bytes)
    (hsort : srclist.Perm (srcLines dir tree)) :
    PublishesAll (deep tree) (handed (gawkRun less srclist [])) ↔
      (deep tree ≠ [] → dir.name.getLast? ≠ some 47) ∧ (∀ f ∈ deep tree, CleanPath f.path) ∧
        ((deep tree).map fun f ↦ mapName f.path).Nodup := by
  constructor
  · intro h
    have hclean : ∀ f ∈ deep tree, CleanPath f.path := by
      intro f hf
      obtain ⟨c, hc, hsrcname⟩ := exists_call h hf
      rw [← hsrcname]
      refine (handed_srcname hc).resolve_left fun heq ↦ ?_
      exact path_ne_unexpected (hroots f hf) (hsrcname.symm.trans heq)
    have hslash := slash_of_published hsort hroots hclean h
    exact ⟨hslash, hclean,
      nodup_of_published (srclist_perm hsort hclean hslash) hroots hclean h⟩
  · rintro ⟨hslash, hclean, hnodup⟩
    exact published_of_clean (srclist_perm hsort hclean hslash) hroots hclean hnodup

end PublishesAll

/-- `/srv/raw` with a directory and a file in it, both deep enough to be listed. -/
def plainTree : List SrcFile :=
  [⟨bytes "/usr/lib/debug", bytes "100.5", 100, by decide, by decide⟩,
    ⟨bytes "/usr/lib/debug/a", bytes "101.5", 100, by decide, by decide⟩,
    ⟨bytes "/usr/lib/debug/a/x", bytes "102.5", 102, by decide, by decide⟩]

def plainDir : SrcDir := ⟨bytes "/srv/raw", List.all_iff_forall_prop.mp (by decide)⟩

theorem gawkRun_published_iff_plainTree : PublishesAll (deep plainTree)
    (handed (gawkRun (fun _ _ ↦ false) (srcLines plainDir plainTree) [])) :=
  (gawkRun_published_iff _ plainDir plainTree (by decide) _ (List.Perm.refl _)).mpr
    ⟨fun _ ↦ by decide, by decide, by decide⟩

/-- A file whose name is `a b`. -/
def treeWithBlank : List SrcFile :=
  [⟨bytes "/usr/lib/debug/a b", bytes "101.5", 102, by decide, by decide⟩]

/-- The path is cut at the blank, and the time is taken for the type. -/
theorem gawkRun_not_published :
    (∀ f ∈ deep treeWithBlank, (mapName f.path).isSome) ∧
      handed (gawkRun (fun _ _ ↦ false) (srcLines plainDir treeWithBlank) []) =
        [⟨bytes "/usr/lib/debug/a", bytes "/lib/a", bytes "101.5"⟩] ∧
      ¬PublishesAll (deep treeWithBlank)
        (handed (gawkRun (fun _ _ ↦ false) (srcLines plainDir treeWithBlank) [])) := by
  have hcalls : handed (gawkRun (fun _ _ ↦ false) (srcLines plainDir treeWithBlank) []) =
      [⟨bytes "/usr/lib/debug/a", bytes "/lib/a", bytes "101.5"⟩] := by decide
  refine ⟨by decide, hcalls, fun h ↦ ?_⟩
  rw [hcalls] at h
  exact absurd (List.perm_singleton.mp h.1) (by decide)

end ClrDebugInfo
