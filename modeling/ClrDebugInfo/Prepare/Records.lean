import ClrDebugInfo.Prepare.Script

/-!
# Lines and records

`Prepare.Selection` has the gawk program on records: a name, a time in ticks, and a file type.
`Prepare.Script` has it on lines of text. Every step of the one is a step of the other
(`srcRecord_simulates`, `destRecord_simulates`), so what is selected from records is what is printed
for their lines, and the error exit of the one is the failure of the other (`select_eq_gawkRun`).
-/

namespace ClrDebugInfo

/-- The file type that `process_one` takes a text for. -/
def FileType.ofText (text : Bytes) : FileType :=
  if text = bytes "f" then .f
  else if text = bytes "d" then .d
  else if text = bytes "l" then .l
  else .other

theorem FileType.ofText_eq_d_iff {text : Bytes} : FileType.ofText text = .d ↔ text = bytes "d" := by
  rw [FileType.ofText]
  split_ifs with hf hd hl
  · rw [hf]
    decide
  · simp [hd]
  · simp [hd]
  · simp [hd]

/-- The record of a line. `ticks` is the number that gawk takes a time for. -/
def Line.ofText (ticks : Bytes → ℕ) (line : Bytes) : Line :=
  ⟨field line 1, ticks (field line 2), FileType.ofText (field line 3)⟩

def TextEntry.record (ticks : Bytes → ℕ) (e : TextEntry) : SrcEntry :=
  ⟨e.srcname, ticks e.time, FileType.ofText e.type, e.done⟩

/-- The job of a line that is printed. -/
def PackJob.ofArgs (args : List Bytes) : PackJob :=
  ⟨args.getD 0 [], args.getD 1 [], FileType.ofText (args.getD 2 [])⟩

/-- The state `g` on records is the state `st` on lines. -/
structure Simulates (ticks : Bytes → ℕ) (g : Gawk) (st : TextGawk) : Prop where
  keys : g.src.keys = st.src.keys
  lookup : ∀ name, g.src.lookup name = (st.src.lookup name).map (TextEntry.record ticks)
  content : g.destContent = st.destContent
  out : g.out = st.out.map PackJob.ofArgs

section Simulates

variable {ticks : Bytes → ℕ} {less : Bytes → Bytes → Bool} {g : Gawk} {st st' : TextGawk}
  {line : Bytes}

theorem Simulates.insert (h : Simulates ticks g st) (name : Bytes) (e : TextEntry) (content : Bool)
    {jobs : List PackJob} {out : List (List Bytes)} (hout : jobs = out.map PackJob.ofArgs) :
    Simulates ticks ⟨g.src.insert name (e.record ticks), content, jobs⟩
      ⟨st.src.insert name e, content, out⟩ := by
  refine ⟨?_, fun n ↦ ?_, rfl, hout⟩
  · rw [AList.keys_insert, AList.keys_insert, h.keys]
  · by_cases hn : n = name
    · rw [hn, AList.lookup_insert, AList.lookup_insert]
      rfl
    · rw [AList.lookup_insert_ne hn, AList.lookup_insert_ne hn, h.lookup]

private theorem srcRecord_simulates (h : Simulates ticks g st) (line : Bytes) :
    (∃ g' st', srcRule g (Line.ofText ticks line) = some g' ∧ srcRecord st line = .ok st' ∧
      Simulates ticks g' st') ∨
    srcRule g (Line.ofText ticks line) = none ∧ ∃ st', srcRecord st line = .error st' := by
  cases hname : mapName (field line 1) with
  | none =>
    refine .inr ⟨?_, { st with out := st.out ++ [[unexpected, field line 1]] }, ?_⟩
    · rw [srcRule, Line.ofText, hname]
      rfl
    · rw [srcRecord, hname]
  | some name =>
    refine .inl ⟨_, _, ?_, ?_, h.insert name (recordEntry line) st.destContent h.out⟩
    · rw [srcRule, Line.ofText, hname, Option.map_some, h.content]
      rfl
    · rw [srcRecord, hname]
      rfl

private theorem foldlM_simulates (lines : List Bytes) (h : Simulates ticks g st) :
    (∃ g' st', (lines.map (Line.ofText ticks)).foldlM srcRule g = some g' ∧
      lines.foldlM srcRecord st = .ok st' ∧ Simulates ticks g' st') ∨
    (lines.map (Line.ofText ticks)).foldlM srcRule g = none ∧
      ∃ st', lines.foldlM srcRecord st = .error st' := by
  induction lines generalizing g st with
  | nil => exact .inl ⟨g, st, rfl, rfl, h⟩
  | cons line lines ih =>
    rw [List.map_cons, List.foldlM_cons, List.foldlM_cons]
    rcases srcRecord_simulates h line with ⟨g', st', hg, hst, h'⟩ | ⟨hg, st', hst⟩
    · rw [hg, hst]
      exact ih h'
    · rw [hg, hst]
      exact .inr ⟨rfl, st', rfl⟩

private theorem destRecord_simulates (hless : ∀ a b, less a b = decide (ticks a < ticks b))
    (h : Simulates ticks g st) (line : Bytes) :
    Simulates ticks (destRule g (Line.ofText ticks line)) (destRecord less st line) := by
  have hlookup := h.lookup (field line 1)
  rw [destRecord]
  cases he : st.src.lookup (field line 1) with
  | none =>
    rw [he] at hlookup
    rw [destRule_of_lookup_eq_none hlookup]
    exact ⟨h.keys, h.lookup, rfl, h.out⟩
  | some e =>
    rw [he] at hlookup
    rw [destRule_of_lookup_eq_some hlookup]
    have hinsert : ∀ {jobs : List PackJob} {out : List (List Bytes)},
        jobs = out.map PackJob.ofArgs → Simulates ticks
          ⟨g.src.insert (field line 1) { e.record ticks with done := true }, true, jobs⟩
          ⟨st.src.insert (field line 1) { e with done := true }, true, out⟩ :=
      fun hout ↦ h.insert (field line 1) { e with done := true } true hout
    by_cases htype : e.type = bytes "d"
    · simp only [if_pos htype]
      apply hinsert
      rw [if_neg fun hne ↦ hne.1 (FileType.ofText_eq_d_iff.mpr htype), h.out]
    · simp only [if_neg htype, hless, decide_eq_true_eq]
      have hne : (e.record ticks).type ≠ .d := fun heq ↦ htype (FileType.ofText_eq_d_iff.mp heq)
      by_cases htime : ticks (field line 2) < ticks e.time
      · simp only [if_pos htime]
        apply hinsert
        rw [if_pos ⟨hne, htime⟩, List.map_append, h.out]
        rfl
      · simp only [if_neg htime]
        apply hinsert
        rw [if_neg fun hlt ↦ htime hlt.2, h.out]

private theorem foldl_simulates (hless : ∀ a b, less a b = decide (ticks a < ticks b))
    (lines : List Bytes) (h : Simulates ticks g st) : Simulates ticks
      ((lines.map (Line.ofText ticks)).foldl destRule g) (lines.foldl (destRecord less) st) := by
  induction lines generalizing g st with
  | nil => exact h
  | cons line lines ih => exact ih (destRecord_simulates hless h line)

private theorem endAction_simulates (h : Simulates ticks g st) :
    endRule g = (endAction st).map PackJob.ofArgs := by
  rw [endRule, endAction, h.content, h.keys]
  split_ifs with hcontent
  · rw [List.map_append, List.map_filterMap, h.out]
    refine congrArg _ (List.filterMap_congr fun s _ ↦ ?_)
    rw [h.lookup, Option.map_map, Option.map_map]
    rfl
  · rw [List.map_append, List.map_filterMap, h.out]
    refine congrArg _ (List.filterMap_congr fun s _ ↦ ?_)
    rw [h.lookup]
    cases st.src.lookup s with
    | none => rfl
    | some e =>
      rw [Option.map_some, Option.bind_some, Option.bind_some, apply_ite (Option.map _)]
      rfl

end Simulates

/-- **The two programs agree.** What is selected from the records of two lists is what is printed
for their lines, if the program does not fail. -/
theorem select_eq_gawkRun {ticks : Bytes → ℕ} {less : Bytes → Bytes → Bool}
    (hless : ∀ a b, less a b = decide (ticks a < ticks b)) (srclist destlist : List Bytes) :
    select (srclist.map (Line.ofText ticks)) (destlist.map (Line.ofText ticks)) =
      if (gawkRun less srclist destlist).status = 0 then
        some ((gawkRun less srclist destlist).out.map PackJob.ofArgs)
      else none := by
  have hinit : Simulates ticks Gawk.init TextGawk.init := ⟨rfl, fun _ ↦ rfl, rfl, rfl⟩
  rcases foldlM_simulates srclist hinit with ⟨g, st, hg, hst, h⟩ | ⟨hg, st, hst⟩
  · rw [select, gawkRun, hg, hst, Option.map_some, endAction_simulates (foldl_simulates hless _ h)]
    rfl
  · rw [select, gawkRun, hg, hst]
    rfl

end ClrDebugInfo
