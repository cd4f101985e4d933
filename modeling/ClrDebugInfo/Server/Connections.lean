import ClrDebugInfo.Server.Daemon

/-!
# Connections and the end of the daemon

`current_connection_count` against the handlers that are there, and what `main` does when no
connection has come for 600 seconds.

Both rest on one fact about a step of a handler: it is counted once, in `thread_end`, and it ends
there and nowhere else (`HandlerStep.count`). What the counter says is then a matter of the loop of
`main`: the increment stands before `pthread_create`, whose failure nobody looks at.
-/

namespace ClrDebugInfo

open Runs

variable {cfg : Config} {c : Int32} {now : Int64} {cache : Cache} {acts : List Act} {s : Daemon}

/-! ## Live handlers -/

/-- The handlers that have been started and have not yet run `dec_connection_count`. -/
def Daemon.live (s : Daemon) : ℕ := s.threads.countP fun pc ↦ decide (pc ≠ .ended)

theorem HandlerStep.count {sh sh' : Shared} {pc pc' : Pc} {a : HandlerAct}
    (h : HandlerStep cfg sh pc a sh' pc') :
    pc ≠ .ended ∧ ((pc' ≠ .ended ∧ sh'.count = sh.count) ∨
      (pc' = .ended ∧ sh'.count = sh.count - 1)) := by
  cases h with
  | finish => exact ⟨by simp, Or.inr ⟨rfl, rfl⟩⟩
  | _ => exact ⟨by simp, Or.inl ⟨by simp, rfl⟩⟩

theorem live_set {i : ℕ} {pc : Pc} (hpc : s.threads[i]? = some pc) (hlive : pc ≠ .ended)
    (sh' : Shared) (pc' : Pc) :
    ({ s with sh := sh', threads := s.threads.set i pc' } : Daemon).live +
      (if pc' = .ended then 1 else 0) = s.live := by
  obtain ⟨hi, rfl⟩ := List.getElem?_eq_some_iff.mp hpc
  have hpos : 0 < s.threads.countP fun pc ↦ decide (pc ≠ .ended) :=
    List.countP_pos_iff.mpr ⟨_, List.getElem_mem hi, by simpa using hlive⟩
  rw [Daemon.live, Daemon.live, List.countP_set hi, if_pos (by simpa using hlive)]
  by_cases hend : pc' = .ended
  · rw [if_pos hend, if_neg (by simpa using hend)]
    omega
  · rw [if_neg hend, if_pos (by simpa using hend)]
    omega

/-! ## The connection count -/

/-- A connection that is counted and whose handler is not there yet. -/
def Loop.pending : Loop → ℤ
  | .counted _ => 1
  | _ => 0

/-- How often `pthread_create` failed. -/
def failedCreates (acts : List Act) : ℕ :=
  acts.countP fun a ↦ match a with
    | .main (.create false) => true
    | _ => false

private theorem failedCreates_eq_zero :
    failedCreates acts = 0 ↔ Act.main (.create false) ∉ acts := by
  rw [failedCreates, List.countP_eq_zero]
  constructor
  · intro h hmem
    exact h _ hmem rfl
  · intro h a ha
    split
    · exact absurd ha h
    · exact Bool.false_ne_true

@[simp] theorem failedCreates_concat (acts : List Act) (a : Act) :
    failedCreates (acts ++ [a]) = failedCreates acts + failedCreates [a] :=
  List.countP_append

/-- What the count says in the course of a run: it is that of the live handlers, the pending one,
and one for each failure of `pthread_create`; and it respects the limit. -/
structure Counted (acts : List Act) (s : Daemon) : Prop where
  count_eq : s.sh.count = s.live + s.loop.pending + failedCreates acts
  le_max : s.sh.count ≤ maxConnections
  room : ∀ fd, s.loop = .admitted fd → s.sh.count < maxConnections

theorem Counted.main {s' : Daemon} {a : MainAct} (hs : Counted acts s)
    (h : MainStep s s.loop a s') : Counted (acts ++ [.main a]) s' := by
  obtain ⟨hcount, hmax, hroom⟩ := hs
  generalize hl : s.loop = l at h hcount
  have hkeep : s.sh.count = s.live + l.pending + (failedCreates acts + 0 : ℕ) := hcount
  cases h with
  | inc =>
    refine ⟨?_, hroom _ hl, fun _ h ↦ absurd h (by simp)⟩
    rw [failedCreates_concat]
    have hbefore : s.sh.count = s.live + 0 + (failedCreates acts + 0 : ℕ) := hkeep
    change s.sh.count + 1 = s.live + 1 + (failedCreates acts + 0 : ℕ)
    omega
  | create =>
    refine ⟨?_, hmax, fun _ h ↦ absurd h (by simp)⟩
    rw [failedCreates_concat, Daemon.live, List.countP_append]
    change s.sh.count = (s.live + 1 : ℕ) + 0 + (failedCreates acts + 0 : ℕ)
    have hbefore : s.sh.count = s.live + 1 + (failedCreates acts + 0 : ℕ) := hkeep
    omega
  | noThread =>
    refine ⟨?_, hmax, fun _ h ↦ absurd h (by simp)⟩
    rw [failedCreates_concat]
    change s.sh.count = s.live + 0 + (failedCreates acts + 1 : ℕ)
    have hbefore : s.sh.count = s.live + 1 + (failedCreates acts + 0 : ℕ) := hkeep
    omega
  | room hlt => exact ⟨by rw [failedCreates_concat]; exact hkeep, hmax, fun _ _ ↦ hlt⟩
  | _ => exact ⟨by rw [failedCreates_concat]; exact hkeep, hmax, fun _ h ↦ absurd h (by simp)⟩

/-- **The count in a run.** -/
theorem counted (hrun : run (step cfg) (Daemon.start c now cache) acts = some s) :
    Counted acts s := by
  refine run_invariant ⟨rfl, show (0 : ℤ) ≤ 16 by decide, fun _ h ↦ Loop.noConfusion h⟩ ?_ hrun
  intro acts s act s' hs hstep
  cases step_cases hstep with
  | main h => exact hs.main h
  | @thread i a pc sh' pc' _ hpc h =>
    obtain ⟨hcount, hmax, hroom⟩ := hs
    obtain ⟨hne, hend⟩ := h.count
    have hset := live_set hpc hne sh' pc'
    have hleak : failedCreates [Act.thread i a] = 0 := rfl
    rcases hend with ⟨hpc', hsame⟩ | ⟨hpc', hdec⟩
    · rw [if_neg hpc'] at hset
      refine ⟨?_, hsame ▸ hmax, fun fd h ↦ hsame ▸ hroom fd h⟩
      rw [failedCreates_concat, hleak, ← hset.symm.trans (Nat.add_zero _), hsame, hcount]
      simp
    · rw [if_pos hpc'] at hset
      refine ⟨?_, by simp only [hdec]; omega, fun fd h ↦ ?_⟩
      · simp only [failedCreates_concat, hleak, hdec, hcount]
        omega
      · have := hroom fd h
        simp only [hdec]
        omega
  | tick => exact ⟨by rw [failedCreates_concat]; exact hs.count_eq, hs.le_max, hs.room⟩

/-! ## Accounting -/

/-- The next connection that comes is given a handler. -/
def AdmitsNext (cfg : Config) (s : Daemon) : Prop :=
  ∀ fd, ∃ s', run (step cfg) s [.main .ready, .main (.accept fd), .main .check] = some s' ∧
    s'.loop = .admitted fd

theorem admitsNext_iff {since : ℕ} (hsel : s.loop = .select since) :
    AdmitsNext cfg s ↔ s.sh.count < maxConnections := by
  have hrun : ∀ fd, run (step cfg) s [.main .ready, .main (.accept fd), .main .check] =
      some { s with loop :=
        if maxConnections ≤ s.sh.count then .select s.sh.elapsed else .admitted fd } := by
    intro fd
    simp [run, step, mainStep, hsel]
  constructor
  · intro h
    obtain ⟨s', hs', hloop⟩ := h 0
    rw [hrun, Option.some_inj] at hs'
    by_contra hfull
    rw [← hs', if_pos (by omega)] at hloop
    exact absurd hloop (by simp)
  · exact fun hroom fd ↦ ⟨_, hrun fd, if_neg (by omega)⟩

/-- The count is that of the live handlers, within its bounds, and with no handler left the next
connection gets one. -/
structure Accounted (cfg : Config) (s : Daemon) : Prop where
  count_eq : s.sh.count = s.live
  nonneg : 0 ≤ s.sh.count
  le_max : s.sh.count ≤ maxConnections
  admits : s.live = 0 → AdmitsNext cfg s

/-- **Connection accounting.** Whenever `main` is back at `select`, the connections are accounted
for exactly if `pthread_create` has never failed: a failure leaves its connection counted for
ever. -/
theorem accounted_iff (hrun : run (step cfg) (Daemon.start c now cache) acts = some s)
    {since : ℕ} (hsel : s.loop = .select since) :
    Accounted cfg s ↔ Act.main (.create false) ∉ acts := by
  obtain ⟨hcount, hmax, -⟩ := counted hrun
  have hpending : s.loop.pending = 0 := by
    rw [hsel]
    rfl
  rw [hpending, add_zero] at hcount
  rw [← failedCreates_eq_zero]
  constructor
  · intro h
    have := h.count_eq
    omega
  · intro hzero
    rw [hzero, Nat.cast_zero, add_zero] at hcount
    refine ⟨hcount, by omega, hmax, fun hlive ↦ (admitsNext_iff hsel).mpr ?_⟩
    rw [hcount, hlive]
    decide

/-- The two mirrors `a/` and `b/`, and archives that `tar` takes for empty. -/
def emptyArchives : Config := ⟨twoMirrors, fun _ ↦ some []⟩

/-- A connection for which `pthread_create` fails. -/
def connectionWithoutThread : List Act :=
  [.main .ready, .main (.accept 5), .main .check, .main .inc, .main (.create false)]

/-- Sixteen times `pthread_create` fails; then the daemon serves nobody, and nobody is served. -/
theorem sixteenFailures_not_accounted : ∃ s,
    run (step emptyArchives) (Daemon.start 0 0 Cache.empty)
        (List.replicate 16 connectionWithoutThread).flatten = some s ∧
      s.loop = .select 0 ∧ s.live = 0 ∧ s.sh.count = 16 ∧ ¬AdmitsNext emptyArchives s ∧
      ¬Accounted emptyArchives s := by
  refine ⟨_, rfl, rfl, rfl, rfl, ?_, fun h ↦ absurd h.count_eq (by decide)⟩
  rw [admitsNext_iff rfl]
  decide

/-- A connection that is counted, read, and closed again. -/
def shortConnection : List Act :=
  [.main .ready, .main (.accept 5), .main .check, .main .inc, .main (.create true),
    .thread 0 (.read none), .thread 0 .finish]

theorem accounted_iff_shortConnection : ∃ s,
    run (step emptyArchives) (Daemon.start 0 0 Cache.empty) shortConnection = some s ∧
      (Accounted emptyArchives s ↔ Act.main (.create false) ∉ shortConnection) :=
  ⟨_, rfl, accounted_iff rfl rfl⟩

/-! ## The end of the daemon -/

/-- Once the tables are freed or `main` has returned, no counted handler is left. -/
def Graceful (s : Daemon) : Prop := s.loop = .freed ∨ s.loop = .exited → s.live = 0

/-- When `select` times out or fails, no handler is live. -/
def QuietEnd (s : Daemon) (a : Act) : Prop :=
  a = .main .timeout ∨ a = .main .error → s.live = 0

private theorem quietEnd_step {s' : Daemon} {a : Act}
    (hs : s.loop = .left ∨ s.loop = .freed ∨ s.loop = .exited → s.live = 0) (hq : QuietEnd s a)
    (h : Step cfg s a s') :
    s'.loop = .left ∨ s'.loop = .freed ∨ s'.loop = .exited → s'.live = 0 := by
  cases h with
  | @main a s' h =>
    generalize hl : s.loop = l at h hs
    cases h with
    | timeout => exact fun _ ↦ hq (Or.inl rfl)
    | error => exact fun _ ↦ hq (Or.inr rfl)
    | free => exact fun _ ↦ hs (Or.inl rfl)
    | ret => exact fun _ ↦ hs (Or.inr (Or.inl rfl))
    | _ => simp
  | @thread i a pc sh' pc' _ hpc h =>
    have hset := live_set hpc h.count.1 sh' pc'
    intro hl
    have := hs hl
    omega
  | tick => exact hs

/-- **Graceful exit.** In a run in which every `select` that times out or fails finds all handlers
ended, `main` never frees its tables and never returns while a handler is live. -/
theorem graceful_of_quietEnd
    (hquiet : AllSteps (step cfg) QuietEnd (Daemon.start c now cache) acts)
    (hrun : run (step cfg) (Daemon.start c now cache) acts = some s) : Graceful s := by
  have hinv := hquiet.run_invariant
    (I := fun s ↦ s.loop = .left ∨ s.loop = .freed ∨ s.loop = .exited → s.live = 0)
    (by simp [Daemon.start]) (fun s a s' hs hq h ↦ quietEnd_step hs hq (step_cases h)) hrun
  exact fun h ↦ hinv (Or.inr h)

/-- The condition cannot be spared: after a time-out that finds a handler live, the next thing that
`main` does is to free the tables. -/
theorem not_graceful_of_timeout {s' : Daemon} (h : step cfg s (.main .timeout) = some s')
    (hlive : s.live ≠ 0) : ∃ s'', step cfg s' (.main .free) = some s'' ∧ ¬Graceful s'' := by
  rw [step] at h
  generalize hl : s.loop = l at h
  cases mainStep_cases h
  exact ⟨_, rfl, fun hg ↦ hlive (hg (Or.inl rfl))⟩

/-- A handler waits for its download while 600 seconds pass without a connection. -/
def slowDownload : List Act :=
  [.main .ready, .main (.accept 5), .main .check, .main .inc, .main (.create true),
    .thread 0 (.read (some (bytes "0:lib:/x" ++ [0]))), .thread 0 (.makeUrl true),
    .thread 0 .avoidDupes, .tick 600 600, .main .timeout, .main .free]

theorem slowDownload_not_graceful : ∃ s,
    run (step emptyArchives) (Daemon.start 0 0 Cache.empty) slowDownload = some s ∧
      s.loop = .freed ∧ s.live = 1 ∧ ¬Graceful s := by
  have hmap : (run (step emptyArchives) (Daemon.start 0 0 Cache.empty) slowDownload).map
      (fun s ↦ (s.loop, s.live)) = some (.freed, 1) := by decide +kernel
  obtain ⟨s, hrun, hs⟩ := Option.map_eq_some_iff.mp hmap
  obtain ⟨hloop, hlive⟩ := Prod.mk.inj hs
  refine ⟨s, hrun, hloop, hlive, fun h ↦ ?_⟩
  rw [h (Or.inl hloop)] at hlive
  exact absurd hlive (by decide)

/-- The daemon ends after a short connection. -/
theorem graceful_of_quietEnd_short : ∃ s,
    run (step emptyArchives) (Daemon.start 0 0 Cache.empty)
        (shortConnection ++ [.tick 600 600, .main .timeout, .main .free]) = some s ∧
      s.loop = .freed ∧ Graceful s := by
  have hmap : (run (step emptyArchives) (Daemon.start 0 0 Cache.empty)
      (shortConnection ++ [.tick 600 600, .main .timeout, .main .free])).map (·.loop) =
        some .freed := by decide +kernel
  obtain ⟨s, hrun, hs⟩ := Option.map_eq_some_iff.mp hmap
  have hquiet : AllSteps (step emptyArchives) QuietEnd (Daemon.start 0 0 Cache.empty)
      ((shortConnection ++ [.tick 600 600]) ++ [.main .timeout, .main .free]) := by
    refine AllSteps.append (AllSteps.of_forall_mem ?_) fun t ht ↦ ⟨fun _ ↦ ?_, ?_⟩
    · simp [shortConnection, QuietEnd]
    · obtain rfl := Option.some.inj ht
      rfl
    · exact fun s' _ ↦ ⟨by simp [QuietEnd], fun _ _ ↦ trivial⟩
  exact ⟨s, hrun, hs, graceful_of_quietEnd hquiet hrun⟩

end ClrDebugInfo
