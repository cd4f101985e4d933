import ClrDebugInfo.Server.Reply

/-!
# Fail-over between mirrors

A fetch whose response is an error moves `urlcounter` on by one, from wherever the counter stands
by then. The mirror that failed is where it stood when the fetch chose it, and every other fetch
that failed meanwhile has moved it too. So the next request goes elsewhere exactly if the sum of
these moves is not a multiple of the number of mirrors.
-/

namespace ClrDebugInfo

open Runs

variable {cfg : Config} {s s' : Daemon} {acts : List Act}

/-! ## The counter in a run -/

/-- A transfer ends with a response that moves the counter on. -/
def Act.moves : Act → Bool
  | .thread _ (.perform t) => t.response ≠ 200 && t.response ≠ 404 && t.response ≠ 304
  | _ => false

/-- How often the counter is moved on. -/
def moves (acts : List Act) : ℕ := acts.countP Act.moves

theorem step_urlcounter {a : Act} (hstep : step cfg s a = some s') :
    s'.sh.urlcounter = if a.moves then s.sh.urlcounter + 1 else s.sh.urlcounter := by
  cases step_cases hstep with
  | main h =>
    generalize s.loop = l at h
    cases h <;> rfl
  | thread _ _ h =>
    cases h with
    | @refuse job t h200 => simp [bumpUrlcounter, Act.moves, and_assoc]
    | @receive job t h200 => simp [Act.moves, h200]
    | _ => rfl
  | tick => rfl

theorem run_urlcounter (hrun : run (step cfg) s acts = some s') :
    s'.sh.urlcounter = s.sh.urlcounter + Int32.ofNat (moves acts) := by
  induction acts generalizing s with
  | nil =>
    rw [run_nil, Option.some_inj] at hrun
    simp [hrun, moves]
  | cons a acts ih =>
    obtain ⟨s₁, hs₁, hrest⟩ := run_cons_iff.mp hrun
    rw [ih hrest, step_urlcounter hs₁, moves, moves, List.countP_cons]
    by_cases ha : a.moves
    · rw [if_pos ha, if_pos ha, Nat.add_comm, Int32.ofNat_add, Int32.add_assoc]
      rfl
    · rw [if_neg ha, if_neg ha, Nat.add_zero]

/-! ## The next mirror -/

/-- How far `k` steps take the counter: as far as they are many, unless it overflows. -/
def advance (c : Int32) (k : ℕ) : ℤ := (c + Int32.ofNat k).toInt - c.toInt

theorem advance_eq {c : Int32} {k : ℕ} (hc : 0 ≤ c.toInt) (h : c.toInt + k < 2 ^ 31) :
    advance c k = k := by
  rw [advance, Int32.toInt_add, Int32.toInt_ofNat_of_lt (by omega), Int.bmod_eq_of_le (by omega)
    (by omega)]
  omega

private theorem makeUrl_mirror {i : ℕ} {job : Job}
    (hstep : step cfg s (.thread i (.makeUrl true)) = some s')
    (hjob : s'.threads[i]? = some (.built job)) :
    job.mirror = mirrorIndex s.sh.urlcounter cfg.urls ∧ 0 ≤ job.mirror ∧ cfg.urls ≠ [] := by
  cases step_cases hstep with
  | thread _ hpc h =>
    cases h with
    | @build r base _ hbase =>
      obtain ⟨hnonneg, hget⟩ := mirrorUrl_eq_some hbase
      rcases thread_of_set hjob with ⟨-, heq⟩ | ⟨hne, -⟩
      · obtain rfl := Pc.built.inj heq
        refine ⟨rfl, hnonneg, ?_⟩
        rintro hnil
        rw [hnil] at hget
        exact absurd hget (by simp)
      · exact absurd rfl hne

/-- **Fail-over.** A handler `i` makes its URL, and after the steps `mid` the transfer for it ends
with a response that moves the counter on. Then the next handler that makes its URL before another
transfer ends goes to a different mirror exactly if the moves since, counted from the first
handler's choice to its own failure, do not lead round to the same mirror. -/
theorem nextMirror_ne_iff {s₁ s₂ s₃ s₄ s₅ : Daemon} {i j : ℕ} {t : Transfer} {mid rest : List Act}
    {job job' : Job}
    (hchoice : step cfg s (.thread i (.makeUrl true)) = some s₁)
    (hjob : s₁.threads[i]? = some (.built job))
    (hmid : run (step cfg) s₁ mid = some s₂)
    (hfail : step cfg s₂ (.thread i (.perform t)) = some s₃)
    (hmoves : (Act.thread i (.perform t)).moves = true)
    (hrest : run (step cfg) s₃ rest = some s₄) (hquiet : ∀ k t, .thread k (.perform t) ∉ rest)
    (hnext : step cfg s₄ (.thread j (.makeUrl true)) = some s₅)
    (hjob' : s₅.threads[j]? = some (.built job')) :
    job'.mirror ≠ job.mirror ↔
      ¬(cfg.urls.length : ℤ) ∣ advance s.sh.urlcounter (moves mid + 1) := by
  obtain ⟨hm, hnonneg, hne⟩ := makeUrl_mirror hchoice hjob
  obtain ⟨hm', hnonneg', -⟩ := makeUrl_mirror hnext hjob'
  -- without an end of a transfer the counter stays
  have hrest0 : moves rest = 0 := by
    rw [moves, List.countP_eq_zero]
    intro a ha
    cases a with
    | thread k b =>
      cases b with
      | perform t => exact absurd ha (hquiet k t)
      | _ => exact Bool.false_ne_true
    | _ => exact Bool.false_ne_true
  have hcounter : s₄.sh.urlcounter = s.sh.urlcounter + Int32.ofNat (moves mid + 1) := by
    have hstay : (Act.thread i (.makeUrl true)).moves = false := rfl
    rw [run_urlcounter hrest, hrest0, step_urlcounter hfail, if_pos hmoves, run_urlcounter hmid,
      step_urlcounter hchoice, hstay, if_neg Bool.false_ne_true, Int32.ofNat_add,
      Int32.add_assoc s.sh.urlcounter]
    exact Int32.add_zero _
  rw [hm] at hnonneg ⊢
  rw [hm'] at hnonneg' ⊢
  rw [Ne, mirrorIndex_eq_iff hnonneg hnonneg' hne, hcounter, advance]

/-- A connection for a file of `lib` that is not cached, and its handler up to the transfer. -/
def fetchOf (i : ℕ) (path : Bytes) : List Act :=
  requestOf i (bytes "0:lib:" ++ path ++ [0]) ++ [.thread i .avoidDupes]

/-- The answer of a server that is not available. -/
def unavailable : Transfer := ⟨0, 503, []⟩

/-- Two handlers choose the first mirror and fail there, one after the other; then comes the next
request. -/
def twoFailures : List Act :=
  fetchOf 0 (bytes "/x") ++ fetchOf 1 (bytes "/y") ++
    [.thread 0 (.perform unavailable), .thread 1 (.perform unavailable)] ++
      requestOf 2 (bytes "0:lib:/z" ++ [0])

/-- A request for a file of `lib` that is not cached, on a mirror with a base URL. -/
def jobFor (path : Bytes) (mirror : ℤ) (base : Bytes) : Job :=
  ⟨⟨0, bytes "lib", path⟩, mirror, base ++ bytes "lib" ++ path ++ bytes ".tar"⟩

theorem twoFailures_same_mirror : ∃ s,
    run (step emptyArchives) (Daemon.start 0 0 Cache.empty) twoFailures = some s ∧
      s.threads = [.returned (jobFor (bytes "/x") 0 (bytes "a/")) 503,
        .returned (jobFor (bytes "/y") 0 (bytes "a/")) 503,
        .built (jobFor (bytes "/z") 0 (bytes "a/"))] := by
  have hmap : (run (step emptyArchives) (Daemon.start 0 0 Cache.empty) twoFailures).map
      (·.threads) = some [.returned (jobFor (bytes "/x") 0 (bytes "a/")) 503,
        .returned (jobFor (bytes "/y") 0 (bytes "a/")) 503,
        .built (jobFor (bytes "/z") 0 (bytes "a/"))] := by decide +kernel
  exact Option.map_eq_some_iff.mp hmap

/-- What comes between the choice and the failure of the first handler: the other one fails. -/
def otherFailure : List Act :=
  .thread 0 .avoidDupes :: fetchOf 1 (bytes "/y") ++ [.thread 1 (.perform unavailable)]

theorem nextMirror_ne_iff_otherFailure : ∃ s s₅,
    run (step emptyArchives) (Daemon.start 0 0 Cache.empty)
        (requestOf 0 (bytes "0:lib:/x" ++ [0])).dropLast = some s ∧
      run (step emptyArchives) s (.thread 0 (.makeUrl true) :: otherFailure ++
        [.thread 0 (.perform unavailable)] ++ requestOf 2 (bytes "0:lib:/z" ++ [0])) = some s₅ ∧
      s₅.threads[2]? = some (.built (jobFor (bytes "/z") 0 (bytes "a/"))) ∧
      ((jobFor (bytes "/z") 0 (bytes "a/")).mirror ≠ (jobFor (bytes "/x") 0 (bytes "a/")).mirror ↔
        ¬(emptyArchives.urls.length : ℤ) ∣ advance s.sh.urlcounter (moves otherFailure + 1)) := by
  obtain ⟨s, s₁, s₂, s₃, s₄, s₅, hrun, h₁, hjob, h₂, h₃, h₄, h₅, hjob'⟩ : ∃ s s₁ s₂ s₃ s₄ s₅,
      run (step emptyArchives) (Daemon.start 0 0 Cache.empty)
          (requestOf 0 (bytes "0:lib:/x" ++ [0])).dropLast = some s ∧
        step emptyArchives s (.thread 0 (.makeUrl true)) = some s₁ ∧
        s₁.threads[0]? = some (.built (jobFor (bytes "/x") 0 (bytes "a/"))) ∧
        run (step emptyArchives) s₁ otherFailure = some s₂ ∧
        step emptyArchives s₂ (.thread 0 (.perform unavailable)) = some s₃ ∧
        run (step emptyArchives) s₃ (requestOf 2 (bytes "0:lib:/z" ++ [0])).dropLast = some s₄ ∧
        step emptyArchives s₄ (.thread 2 (.makeUrl true)) = some s₅ ∧
        s₅.threads[2]? = some (.built (jobFor (bytes "/z") 0 (bytes "a/"))) :=
    ⟨_, _, _, _, _, _, rfl, rfl, rfl, rfl, rfl, rfl, rfl, rfl⟩
  refine ⟨s, s₅, hrun, ?_, hjob', nextMirror_ne_iff h₁ hjob h₂ h₃ rfl h₄ ?_ h₅ hjob'⟩
  · rw [run_append_iff]
    refine ⟨s₃, ?_, ?_⟩
    · exact run_concat_iff.mpr ⟨s₂, run_cons_iff.mpr ⟨s₁, h₁, h₂⟩, h₃⟩
    · exact run_concat_iff.mpr ⟨s₄, h₄, h₅⟩
  · simp [requestOf]

end ClrDebugInfo
