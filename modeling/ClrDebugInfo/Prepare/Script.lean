import Mathlib.Data.Bool.AllAny
import ClrDebugInfo.Library.Words
import ClrDebugInfo.Prepare.Selection

/-!
# The script as a pipeline

What passes between the programs of `scripts/clr_debug_prepare` is text: `find` prints a line for
each file, `sed` removes the name of the directory from it, `sort` orders the lines, gawk takes
them apart at blanks, and parallel takes the lines that gawk prints apart at tabs and calls
`process_one` with the columns. A path is safe on this way only if it holds none of the separators.

The records of `Prepare.Selection` are the same program for lines that are already taken apart, as
`Prepare.Records` shows. What records leave out is the error: it does not end the output, since gawk
still runs the rule `END` over what it has read so far (`handed_of_rejected`).
-/

namespace ClrDebugInfo

open Words

/-! ## The list of the source -/

/-- A file below the source directory: what `%p`, `%T@` and `%y` print for it. -/
structure SrcFile where
  /-- The path from the directory, which starts with a slash. -/
  path : Bytes
  time : Bytes
  type : UInt8
  time_text : time ≠ [] ∧ time ⊆ bytes "-.0123456789"
  type_letter : type ∈ bytes "fdlpsbcD"

/-- `"$SRC"`, which `sed` reads as an expression: of the special characters it has only the dot. -/
structure SrcDir where
  name : Bytes
  plain : ∀ b ∈ name, b ∉ bytes "*[\\^$|\n"

/-- `%p`. With a slash at the end of the argument, `find` adds none. -/
def SrcDir.printed (dir : SrcDir) (path : Bytes) : Bytes :=
  dir.name ++ if dir.name.getLast? = some 47 then path.drop 1 else path

/-- `-mindepth 4` -/
def deep (tree : List SrcFile) : List SrcFile := tree.filter fun f ↦ 4 ≤ f.path.count 47

/-- `find "$SRC" -mindepth 4 -printf "%p %T@ %y\n"` -/
def findSrc (dir : SrcDir) (tree : List SrcFile) : Bytes :=
  (deep tree).flatMap fun f ↦
    dir.printed f.path ++ [32] ++ f.time ++ [32] ++ [f.type] ++ [10]

/-- What is left after a match of an expression at the start. -/
def exprMatch : Bytes → Bytes → Option Bytes
  | [], s => some s
  | _ :: _, [] => none
  | c :: e, b :: s => if c = 46 ∨ c = b then exprMatch e s else none

/-- `sed "s|$SRC||"`: the first match, wherever it is in the line. -/
def sedSrc (e : Bytes) : Bytes → Bytes
  | [] => (exprMatch e []).getD []
  | b :: s =>
    match exprMatch e (b :: s) with
    | some rest => rest
    | none => b :: sedSrc e s

/-- The lines that are sorted. -/
def srcLines (dir : SrcDir) (tree : List SrcFile) : List Bytes :=
  (textLines 10 (findSrc dir tree)).map (sedSrc dir.name)

/-! ## The program -/

/-- What separates the fields of a record. -/
def isBlank (b : UInt8) : Bool := b = 32 || b = 9 || b = 10

/-- `$n` -/
def field (line : Bytes) (n : ℕ) : Bytes := (words isBlank line).getD (n - 1) []

/-- `src[name]` -/
structure TextEntry where
  srcname : Bytes
  time : Bytes
  type : Bytes
  done : Bool

/-- The variables of the program, and the arguments of each `print` so far. -/
structure TextGawk where
  src : AList fun _ : Bytes ↦ TextEntry
  destContent : Bool
  out : List (List Bytes)

def TextGawk.init : TextGawk := ⟨∅, false, []⟩

def TextEntry.args (e : TextEntry) (name : Bytes) : List Bytes := [e.srcname, name, e.type]

def unexpected : Bytes := bytes "Error: unexpected debuginfo file:"

/-- `LIST == "src"`; an error is `exit 1`. -/
def srcRecord (st : TextGawk) (line : Bytes) : Except TextGawk TextGawk :=
  let srcname := field line 1
  match mapName srcname with
  | none => .error { st with out := st.out ++ [[unexpected, srcname]] }
  | some name =>
    .ok { st with src := st.src.insert name ⟨srcname, field line 2, field line 3, false⟩ }

/-- `LIST == "dest"`; `less` is how gawk compares two times. -/
def destRecord (less : Bytes → Bytes → Bool) (st : TextGawk) (line : Bytes) : TextGawk :=
  let name := field line 1
  match st.src.lookup name with
  | none => { st with destContent := true }
  | some e =>
    let src := st.src.insert name { e with done := true }
    if e.type = bytes "d" then ⟨src, true, st.out⟩
    else if less (field line 2) e.time then ⟨src, true, st.out ++ [e.args name]⟩
    else ⟨src, true, st.out⟩

/-- `END`, with the indices in ascending order. -/
def endAction (st : TextGawk) : List (List Bytes) :=
  let indices := st.src.keys.insertionSort (· ≤ ·)
  if st.destContent = false then
    st.out ++ indices.filterMap fun s ↦ (st.src.lookup s).map fun e ↦ e.args s
  else
    st.out ++ indices.filterMap fun s ↦
      (st.src.lookup s).bind fun e ↦ if e.done = false then some (e.args s) else none

structure GawkRun where
  out : List (List Bytes)
  status : ℕ

/-- The program, for the lines of the source list and of the destination list. After `exit` no more
lines are read, but `END` is run. -/
def gawkRun (less : Bytes → Bytes → Bool) (srclist destlist : List Bytes) : GawkRun :=
  match srclist.foldlM srcRecord TextGawk.init with
  | .error st => ⟨endAction st, 1⟩
  | .ok st => ⟨endAction (destlist.foldl (destRecord less) st), 0⟩

/-! ## The calls -/

/-- The arguments of a call of `process_one`. -/
@[ext] structure Call where
  srcname : Bytes
  destname : Bytes
  filetype : Bytes
  deriving DecidableEq

/-- A line that gawk prints, with `OFS = "\t"`. -/
def printLine (args : List Bytes) : Bytes := [9].intercalate args

/-- `parallel --colsep '\t' process_one`: the columns of a line, without the space around them. -/
def Call.ofLine (line : Bytes) : Call :=
  let columns := (line.splitOn 9).map (trim isSpace)
  ⟨columns.getD 0 [], columns.getD 1 [], columns.getD 2 []⟩

/-- What parallel reads is every line that gawk prints. -/
def handed (run : GawkRun) : List Call := run.out.map fun args ↦ Call.ofLine (printLine args)

/-! ## The array -/

/-- The name of the tarball for a line of the source list. -/
def recordName (line : Bytes) : Option Bytes := mapName (field line 1)

/-- `src[name]` for a line of the source list. -/
def recordEntry (line : Bytes) : TextEntry := ⟨field line 1, field line 2, field line 3, false⟩

/-- The array after a line that is accepted. -/
def insertRecord (src : AList fun _ : Bytes ↦ TextEntry) (line : Bytes) :
    AList fun _ : Bytes ↦ TextEntry :=
  match recordName line with
  | none => src
  | some name => src.insert name (recordEntry line)

variable {lines : List Bytes} {src : AList fun _ : Bytes ↦ TextEntry} {st : TextGawk}

/-- **The rule for the source list, over a list.** Either every line is accepted, or the program
stops at the first that is not, with the message as the last that it has printed so far. -/
theorem foldlM_srcRecord (lines : List Bytes) (st : TextGawk) :
    (∀ line ∈ lines, (recordName line).isSome) ∧
      lines.foldlM srcRecord st = .ok { st with src := lines.foldl insertRecord st.src } ∨
    ∃ good bad rest, lines = good ++ bad :: rest ∧ (∀ line ∈ good, (recordName line).isSome) ∧
      recordName bad = none ∧ lines.foldlM srcRecord st = .error
        { st with src := good.foldl insertRecord st.src,
                  out := st.out ++ [[unexpected, field bad 1]] } := by
  induction lines generalizing st with
  | nil => exact .inl ⟨fun _ h ↦ absurd h List.not_mem_nil, rfl⟩
  | cons line lines ih =>
    rw [List.foldlM_cons]
    cases hname : recordName line with
    | none =>
      refine .inr ⟨[], line, lines, rfl, fun _ h ↦ absurd h List.not_mem_nil, hname, ?_⟩
      rw [srcRecord, show mapName (field line 1) = none from hname]
      rfl
    | some name =>
      have hstep : srcRecord st line = .ok { st with src := insertRecord st.src line } := by
        rw [srcRecord, insertRecord, hname, show mapName (field line 1) = some name from hname]
        rfl
      rw [hstep]
      have haccept : (recordName line).isSome := by
        rw [hname]
        rfl
      rcases ih { st with src := insertRecord st.src line } with ⟨hall, hok⟩ | hbad
      · exact .inl ⟨List.forall_mem_cons.mpr ⟨haccept, hall⟩, hok⟩
      · obtain ⟨good, bad, rest, rfl, hgood, hnone, herror⟩ := hbad
        exact .inr ⟨line :: good, bad, rest, rfl, List.forall_mem_cons.mpr ⟨haccept, hgood⟩, hnone,
          herror⟩

theorem mem_keys_insertRecord {name : Bytes} : name ∈ (lines.foldl insertRecord src).keys ↔
    name ∈ src.keys ∨ ∃ line ∈ lines, recordName line = some name := by
  induction lines generalizing src with
  | nil => simp
  | cons line lines ih =>
    rw [List.foldl_cons, ih, insertRecord]
    simp only [List.mem_cons, exists_eq_or_imp]
    rw [← or_assoc]
    apply or_congr_left
    cases hname : recordName line with
    | none => simp
    | some n =>
      rw [← AList.mem_keys, AList.mem_insert, AList.mem_keys, Option.some_inj, or_comm,
        eq_comm (a := n)]

private theorem lookup_insertRecord {name : Bytes} {e : TextEntry}
    (h : (lines.foldl insertRecord src).lookup name = some e) :
    src.lookup name = some e ∨
      ∃ line ∈ lines, recordName line = some name ∧ e = recordEntry line := by
  induction lines generalizing src with
  | nil => exact .inl h
  | cons line lines ih =>
    rcases ih h with hstep | ⟨l, hl, hline⟩
    · rw [insertRecord] at hstep
      cases hname : recordName line with
      | none =>
        rw [hname] at hstep
        exact .inl hstep
      | some n =>
        simp only [hname] at hstep
        by_cases heq : name = n
        · obtain rfl := heq
          rw [AList.lookup_insert] at hstep
          exact .inr ⟨line, List.mem_cons_self, hname, (Option.some.inj hstep).symm⟩
        · rw [AList.lookup_insert_ne heq] at hstep
          exact .inl hstep
    · exact .inr ⟨l, List.mem_cons_of_mem line hl, hline⟩

theorem entries_insertRecord (haccept : ∀ line ∈ lines, (recordName line).isSome)
    (hnodup : (lines.map recordName).Nodup)
    (hnew : ∀ line ∈ lines, ∀ name ∈ recordName line, name ∉ src) :
    (lines.foldl insertRecord src).entries.Perm
      (lines.map (fun line ↦ ⟨(recordName line).getD [], recordEntry line⟩) ++ src.entries) := by
  induction lines generalizing src with
  | nil => exact List.Perm.refl _
  | cons line lines ih =>
    rw [List.map_cons, List.nodup_cons] at hnodup
    obtain ⟨n, hn⟩ := Option.isSome_iff_exists.mp (haccept line List.mem_cons_self)
    have hsrc : insertRecord src line = src.insert n (recordEntry line) := by
      rw [insertRecord, hn]
    have hrest : ∀ l ∈ lines, ∀ name ∈ recordName l, name ∉ insertRecord src line := by
      intro l hl name hname hmem
      rw [hsrc, AList.mem_insert] at hmem
      rcases hmem with rfl | hmem
      · refine hnodup.1 (List.mem_map.mpr ⟨l, hl, ?_⟩)
        rw [hn, ← Option.mem_def.mp hname]
      · exact hnew l (List.mem_cons_of_mem line hl) name hname hmem
    have hperm := ih (fun l hl ↦ haccept l (List.mem_cons_of_mem line hl)) hnodup.2 hrest
    rw [hsrc, AList.entries_insert_of_notMem (hnew line List.mem_cons_self n hn)] at hperm
    rw [List.foldl_cons, hsrc, List.map_cons, hn]
    exact hperm.trans List.perm_middle

private theorem endAction_perm (st : TextGawk) (h : st.destContent = false) :
    (endAction st).Perm (st.out ++ st.src.entries.map fun e ↦ e.2.args e.1) := by
  rw [endAction, if_pos h]
  apply List.Perm.append_left _
  have hentries : st.src.keys.filterMap (fun s ↦ (st.src.lookup s).map fun e ↦ e.args s) =
      st.src.entries.map fun e ↦ e.2.args e.1 := by
    rw [AList.keys, List.keys, List.filterMap_map, ← List.filterMap_eq_map]
    refine List.filterMap_congr fun e he ↦ ?_
    have hlookup : st.src.lookup e.1 = some e.2 := AList.mem_lookup_iff.mpr he
    simp only [Function.comp_apply, hlookup, Option.map_some]
  rw [← hentries]
  exact (List.perm_insertionSort _ _).filterMap _

/-! ## What a call can carry -/

def BlankFree (w : Bytes) : Prop := ∀ b ∈ w, isBlank b = false

/-- A path that goes through the script as it is: without blanks in it and without space at its
end. -/
def CleanPath (p : Bytes) : Prop := BlankFree p ∧ ∀ b, p.getLast? = some b → isSpace b = false

instance (p : Bytes) : Decidable (CleanPath p) :=
  decidable_of_iff ((p.all fun b ↦ decide (isBlank b = false)) = true ∧
      (p.getLast?.all fun b ↦ decide (isSpace b = false)) = true) (by
    rw [CleanPath, BlankFree, List.all_iff_forall_prop, Option.all_eq_true]
    simp only [decide_eq_true_eq])

theorem BlankFree.no_tab {w : Bytes} (h : BlankFree w) : 9 ∉ w :=
  fun hmem ↦ absurd (h 9 hmem) (by decide)

private theorem field_blankFree (line : Bytes) (n : ℕ) : BlankFree (field line n) := by
  rw [field, List.getD_eq_getElem?_getD]
  cases hw : (words isBlank line)[n - 1]? with
  | none => exact fun _ h ↦ absurd h List.not_mem_nil
  | some w => exact fun b hb ↦ mem_words (List.mem_of_getElem? hw) hb

theorem mapName_eq_some {p name : Bytes} (h : mapName p = some name) : ∃ root pre q,
    p = root ++ q ∧ name = pre ++ q ∧ root.head? = some 47 ∧
      (pre = bytes "/lib" ∨ pre = bytes "/src") := by
  obtain ⟨root, pfx, q, hp, rfl⟩ := mapName_eq_some_iff.mp h
  refine ⟨root, bytes "/" ++ pfx, q, hp.eq_append, rfl, ?_, ?_⟩
  · cases hp <;> rfl
  · rcases hp.pfx_eq with rfl | rfl
    · exact .inl rfl
    · exact .inr rfl

private theorem blankFree_mapName {p name : Bytes} (h : mapName p = some name) (hp : BlankFree p) :
    BlankFree name := by
  obtain ⟨root, pre, q, rfl, rfl, -, hpre⟩ := mapName_eq_some h
  intro b hb
  rcases List.mem_append.mp hb with hb | hb
  · rcases hpre with rfl | rfl
    · exact (List.all_iff_forall_prop.mp (by decide) : ∀ b ∈ bytes "/lib", isBlank b = false) b hb
    · exact (List.all_iff_forall_prop.mp (by decide) : ∀ b ∈ bytes "/src", isBlank b = false) b hb
  · exact hp b (List.mem_append_right root hb)

theorem trim_of_clean {p name : Bytes} (h : mapName p = some name) (hp : CleanPath p) :
    trim isSpace p = p ∧ trim isSpace name = name := by
  obtain ⟨root, pre, q, rfl, rfl, hroot, hpre⟩ := mapName_eq_some h
  have hslash : isSpace 47 = false := rfl
  have hhead : ∀ w : Bytes, w.head? = some 47 →
      ∀ b, (w ++ q).head? = some b → isSpace b = false := by
    intro w hw b hb
    rw [List.head?_append, hw] at hb
    exact Option.some.inj hb ▸ hslash
  refine ⟨trim_eq_self (hhead root hroot) hp.2, trim_eq_self (hhead pre ?_) fun b hb ↦ ?_⟩
  · rcases hpre with rfl | rfl <;> rfl
  · rw [List.getLast?_append] at hb
    cases hq : q.getLast? with
    | some b' =>
      rw [hq] at hb
      refine hp.2 b ?_
      rw [List.getLast?_append, hq]
      exact hb
    | none =>
      rw [hq] at hb
      rcases hpre with rfl | rfl
      · exact (Option.some.inj hb : (98 : UInt8) = b) ▸ rfl
      · exact (Option.some.inj hb : (99 : UInt8) = b) ▸ rfl

private theorem ofLine_printLine {args : List Bytes} (hne : args ≠ []) (h : ∀ a ∈ args, 9 ∉ a) :
    Call.ofLine (printLine args) = ⟨(args.map (trim isSpace)).getD 0 [],
      (args.map (trim isSpace)).getD 1 [], (args.map (trim isSpace)).getD 2 []⟩ := by
  rw [Call.ofLine, printLine, List.splitOn_intercalate 9 h hne]

private theorem ofLine_args {a b c : Bytes} (ha : BlankFree a) (hb : BlankFree b)
    (hc : BlankFree c) :
    Call.ofLine (printLine [a, b, c]) = ⟨trim isSpace a, trim isSpace b, trim isSpace c⟩ := by
  apply ofLine_printLine (List.cons_ne_nil _ _)
  simp only [List.forall_mem_cons]
  exact ⟨ha.no_tab, hb.no_tab, hc.no_tab, fun _ h ↦ absurd h List.not_mem_nil⟩

private theorem ofLine_unexpected {a : Bytes} (ha : BlankFree a) :
    Call.ofLine (printLine [unexpected, a]) = ⟨unexpected, trim isSpace a, []⟩ := by
  apply ofLine_printLine (List.cons_ne_nil _ _)
  simp only [List.forall_mem_cons]
  exact ⟨by decide, ha.no_tab, fun _ h ↦ absurd h List.not_mem_nil⟩

/-- The call for a line of the source list. -/
def recordCall (line : Bytes) : Call :=
  ⟨trim isSpace (field line 1), trim isSpace ((recordName line).getD []),
    trim isSpace (field line 3)⟩

theorem ofLine_record {line name : Bytes} (h : recordName line = some name) :
    Call.ofLine (printLine ((recordEntry line).args name)) = recordCall line := by
  rw [TextEntry.args, recordEntry, recordCall, h, ofLine_args (field_blankFree line 1)
    (blankFree_mapName h (field_blankFree line 1)) (field_blankFree line 3)]
  rfl

theorem calls_of_entries {lines : List Bytes} {c : Call}
    (h : c ∈ ((lines.foldl insertRecord ∅).entries.map fun e ↦
      Call.ofLine (printLine (e.2.args e.1)))) : ∃ line ∈ lines, c = recordCall line := by
  obtain ⟨⟨name, e⟩, he, rfl⟩ := List.mem_map.mp h
  rcases lookup_insertRecord (AList.mem_lookup_iff.mpr he) with hnone | ⟨line, hl, hname, rfl⟩
  · exact absurd hnone (by simp)
  · exact ⟨line, hl, ofLine_record hname⟩

/-- **What parallel is handed when a line is rejected**, whatever the destination holds: the
message, and then a call for every entry that was made before it. -/
theorem handed_of_rejected (h : ∃ line ∈ lines, recordName line = none) :
    ∃ good bad rest, lines = good ++ bad :: rest ∧ (∀ line ∈ good, (recordName line).isSome) ∧
      recordName bad = none ∧ ∀ less destlist, (gawkRun less lines destlist).status = 1 ∧
        (handed (gawkRun less lines destlist)).Perm
          (⟨unexpected, trim isSpace (field bad 1), []⟩ ::
            (good.foldl insertRecord ∅).entries.map fun e ↦
              Call.ofLine (printLine (e.2.args e.1))) := by
  rcases foldlM_srcRecord lines TextGawk.init with ⟨hall, -⟩ | hbad
  · obtain ⟨line, hline, hnone⟩ := h
    exact absurd hnone (Option.isSome_iff_ne_none.mp (hall line hline))
  · obtain ⟨good, bad, rest, hsplit, hgood, hnone, herror⟩ := hbad
    refine ⟨good, bad, rest, hsplit, hgood, hnone, fun less destlist ↦ ?_⟩
    rw [handed, gawkRun, herror]
    refine ⟨rfl, ?_⟩
    have hperm := (endAction_perm { TextGawk.init with
      src := good.foldl insertRecord TextGawk.init.src,
      out := TextGawk.init.out ++ [[unexpected, field bad 1]] } rfl).map
        fun args ↦ Call.ofLine (printLine args)
    rw [List.map_append, List.map_map] at hperm
    rw [← ofLine_unexpected (field_blankFree bad 1)]
    exact hperm

/-- **What parallel is handed when every line is accepted** and the destination is empty: a call for
every entry. -/
theorem handed_of_accepted (less : Bytes → Bytes → Bool)
    (h : ∀ line ∈ lines, (recordName line).isSome) :
    (handed (gawkRun less lines [])).Perm ((lines.foldl insertRecord ∅).entries.map fun e ↦
      Call.ofLine (printLine (e.2.args e.1))) := by
  rcases foldlM_srcRecord lines TextGawk.init with ⟨-, hok⟩ | ⟨good, bad, rest, rfl, -, hnone, -⟩
  · rw [handed, gawkRun, hok]
    have hperm := (endAction_perm { TextGawk.init with
      src := lines.foldl insertRecord TextGawk.init.src } rfl).map
        fun args ↦ Call.ofLine (printLine args)
    rwa [List.map_append, List.map_map] at hperm
  · have hbad := h bad (List.mem_append_right good List.mem_cons_self)
    exact absurd hnone (Option.isSome_iff_ne_none.mp hbad)

theorem accepted_or_rejected (lines : List Bytes) :
    (∀ line ∈ lines, (recordName line).isSome) ∨ ∃ line ∈ lines, recordName line = none := by
  by_cases h : ∃ line ∈ lines, recordName line = none
  · exact .inr h
  · push Not at h
    exact .inl fun line hline ↦ Option.isSome_iff_ne_none.mpr (h line hline)

/-- No call carries a path with a blank in it. -/
theorem handed_srcname {less : Bytes → Bytes → Bool} {c : Call}
    (h : c ∈ handed (gawkRun less lines [])) : c.srcname = unexpected ∨ CleanPath c.srcname := by
  have hclean : ∀ line, CleanPath (recordCall line).srcname := fun line ↦
    ⟨fun b hb ↦ field_blankFree line 1 b (mem_of_mem_trim hb), fun b hb ↦ space_getLast?_trim hb⟩
  rcases accepted_or_rejected lines with hall | hex
  · obtain ⟨line, -, rfl⟩ := calls_of_entries ((handed_of_accepted less hall).mem_iff.mp h)
    exact .inr (hclean line)
  · obtain ⟨good, bad, rest, -, -, -, hperm⟩ := handed_of_rejected hex
    rcases List.mem_cons.mp ((hperm less []).2.mem_iff.mp h) with rfl | hmem
    · exact .inl rfl
    · obtain ⟨line, -, rfl⟩ := calls_of_entries hmem
      exact .inr (hclean line)

/-! ## An unexpected file -/

theorem mapName_append {p : Bytes} (h : (mapName p).isSome) (s : Bytes) :
    (mapName (p ++ s)).isSome := by
  obtain ⟨name, hname⟩ := Option.isSome_iff_exists.mp h
  obtain ⟨root, pfx, q, hp, -⟩ := mapName_eq_some_iff.mp hname
  have hmore : ∃ root pfx q', DebugPath (p ++ s) root pfx q' := by
    cases hp with
    | lib =>
      rw [List.append_assoc]
      exact ⟨_, _, _, .lib (q ++ s)⟩
    | src =>
      rw [List.append_assoc]
      exact ⟨_, _, _, .src (q ++ s)⟩
    | shareSrc =>
      rw [List.append_assoc]
      exact ⟨_, _, _, .shareSrc (q ++ s)⟩
    | share q hq =>
      rw [List.append_assoc]
      by_cases hsrc : bytes "/src" <+: q ++ s
      · obtain ⟨t, ht⟩ := hsrc
        rw [← ht, ← List.append_assoc,
          show bytes "/usr/share/debug" ++ bytes "/src" = bytes "/usr/share/debug/src" by decide]
        exact ⟨_, _, _, .shareSrc t⟩
      · exact ⟨_, _, _, .share (q ++ s) hsrc⟩
  obtain ⟨root', pfx', q', hp'⟩ := hmore
  rw [mapName_of_debugPath hp']
  rfl

/-- A path that is not accepted gives a line that is not accepted, also when the line is cut inside
it. -/
theorem recordName_of_rejected {p : Bytes} (hp : mapName p = none) (hslash : p.head? = some 47)
    (s : Bytes) : recordName (p ++ 32 :: s) = none := by
  obtain ⟨w, r, rfl, hw, hr⟩ : ∃ w r, p = w ++ r ∧ BlankFree w ∧
      ∀ b, r.head? = some b → isBlank b = true :=
    ⟨p.takeWhile fun b ↦ !isBlank b, p.dropWhile fun b ↦ !isBlank b,
      List.takeWhile_append_dropWhile.symm,
      fun b hb ↦ by simpa using List.mem_takeWhile_imp hb,
      fun b hb ↦ by
        have hhead := List.head?_dropWhile_not (fun b ↦ !isBlank b) p
        rw [hb] at hhead
        simpa using hhead⟩
  have hne : w ≠ [] := by
    rintro rfl
    exact absurd (hr 47 hslash) (by decide)
  obtain ⟨b, t, hb, hline⟩ : ∃ b t, isBlank b = true ∧ w ++ r ++ 32 :: s = w ++ b :: t := by
    match r with
    | [] => exact ⟨32, s, rfl, by rw [List.append_nil]⟩
    | b :: r => exact ⟨b, r ++ 32 :: s, hr b rfl, by rw [List.append_assoc]; rfl⟩
  have hfield : field (w ++ r ++ 32 :: s) 1 = w := by
    rw [field, hline, words_cons hne hw hb]
    rfl
  rw [recordName, hfield]
  by_contra hsome
  have happend := mapName_append (Option.isSome_iff_ne_none.mpr hsome) r
  rw [hp] at happend
  exact absurd happend (by simp)

/-- What a rejected file should come to: no call of `process_one`, and a failure. -/
def CleanReject (run : GawkRun) : Prop := handed run = [] ∧ run.status ≠ 0

instance (run : GawkRun) : Decidable (CleanReject run) :=
  inferInstanceAs (Decidable (handed run = [] ∧ run.status ≠ 0))

/-- **A rejected file never comes to that.** The program fails, but its message goes where its jobs
go, and so do the jobs for the files before it. -/
theorem gawkRun_not_cleanReject (less : Bytes → Bytes → Bool) (srclist destlist : List Bytes)
    (h : ∃ line ∈ srclist, recordName line = none) :
    ¬CleanReject (gawkRun less srclist destlist) := by
  obtain ⟨good, bad, rest, -, -, -, hrun⟩ := handed_of_rejected h
  intro hclean
  have hlength := (hrun less destlist).2.length_eq
  rw [hclean.1] at hlength
  exact absurd hlength (by simp)

/-- A file outside the debug roots, listed after one that is accepted. -/
def listWithUnexpected : List Bytes :=
  [bytes "/usr/lib/debug/a 100.5 d", bytes "/usr/share/doc/x 101.5 f"]

theorem gawkRun_not_cleanReject_listWithUnexpected :
    ¬CleanReject (gawkRun (fun _ _ ↦ false) listWithUnexpected []) :=
  gawkRun_not_cleanReject _ _ _ ⟨bytes "/usr/share/doc/x 101.5 f", by decide, by decide⟩

/-- Both files reach `process_one`: the directory as a job, the other with the message. -/
theorem handed_listWithUnexpected :
    recordName (bytes "/usr/share/doc/x 101.5 f") = none ∧
      handed (gawkRun (fun _ _ ↦ false) listWithUnexpected []) =
        [⟨unexpected, bytes "/usr/share/doc/x", []⟩,
          ⟨bytes "/usr/lib/debug/a", bytes "/lib/a", bytes "d"⟩] ∧
      ¬CleanReject (gawkRun (fun _ _ ↦ false) listWithUnexpected []) := by
  decide

end ClrDebugInfo
