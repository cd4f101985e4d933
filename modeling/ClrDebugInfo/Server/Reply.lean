import ClrDebugInfo.Server.Connections

/-!
# What the reply means

A handler writes "ok" when `curl_get_file` has returned, whatever it returned. For a request that
`avoid_dupes` dropped that is at once, while the handler that was let through for the same URL may
still be at its download.

The invariant that excludes this is that while one handler fetches a URL, no other handler owes a
reply for it (`Unrivalled`). Only the calls of `avoid_dupes` can break it, so the condition is on
the states in which those calls are made.
-/

namespace ClrDebugInfo

open Runs

variable {cfg : Config} {c : Int32} {now : Int64} {cache : Cache} {acts : List Act} {s : Daemon}

/-! ## Fetches and replies -/

/-- The URL for which `avoid_dupes` let the handler go ahead, until its extraction has ended. -/
def Pc.fetching : Pc → Option Bytes
  | .admitted job | .received job _ | .filled job _ | .tested job _ | .extracting job _ _ =>
    some job.url
  | _ => none

/-- The URL for which the handler has called `avoid_dupes` and not yet replied. -/
def Pc.owing : Pc → Option Bytes
  | .returned job _ => some job.url
  | pc => pc.fetching

theorem HandlerStep.fetching_owing {sh sh' : Shared} {pc pc' : Pc} {a : HandlerAct}
    (h : HandlerStep cfg sh pc a sh' pc') (ha : a ≠ .avoidDupes) {u : Bytes} :
    (pc'.fetching = some u → pc.fetching = some u) ∧ (pc'.owing = some u → pc.owing = some u) := by
  cases h with
  | drop | letThrough => exact absurd rfl ha
  | _ => exact ⟨by simp [Pc.fetching], by simp [Pc.owing, Pc.fetching]⟩

/-- While a handler fetches a URL, no other handler owes a reply for it. -/
def Unrivalled (s : Daemon) : Prop :=
  ∀ (i j : ℕ) (pc pc' : Pc) (u : Bytes), i ≠ j → s.threads[i]? = some pc →
    s.threads[j]? = some pc' → pc.fetching = some u → pc'.owing ≠ some u

/-! ## The condition and the property -/

/-- A handler that calls `avoid_dupes` finds no other handler at a fetch of the same URL; and if it
is let through, no other handler that owes a reply for that URL either. -/
def AloneAtCall (cfg : Config) (s : Daemon) (a : Act) : Prop :=
  ∀ i job, a = .thread i .avoidDupes → s.threads[i]? = some (.built job) →
    ∀ j pc, j ≠ i → s.threads[j]? = some pc →
      pc.fetching ≠ some job.url ∧
      ((∃ dupes, avoidDupes cfg.alloc s.sh.dupes job.url s.sh.now = some (0, dupes)) →
        pc.owing ≠ some job.url)

/-- A handler that writes "ok" finds no other handler at a fetch of the same URL. -/
def ReplyMeansDone (s : Daemon) (a : Act) : Prop :=
  ∀ i job ret, a = .thread i .reply → s.threads[i]? = some (.returned job ret) →
    ∀ j pc, j ≠ i → s.threads[j]? = some pc → pc.fetching ≠ some job.url

theorem Unrivalled.set {i : ℕ} (hs : Unrivalled s) (sh' : Shared) {pc' : Pc}
    (hfetch : ∀ j pc u, j ≠ i → s.threads[j]? = some pc → pc'.fetching = some u →
      pc.owing ≠ some u)
    (howe : ∀ j pc u, j ≠ i → s.threads[j]? = some pc → pc.fetching = some u →
      pc'.owing ≠ some u) :
    Unrivalled { s with sh := sh', threads := s.threads.set i pc' } := by
  intro j k p q u hjk hj hk hp
  rcases thread_of_set hj with ⟨rfl, rfl⟩ | ⟨hji, hjs⟩
  · rcases thread_of_set hk with ⟨rfl, -⟩ | ⟨hki, hks⟩
    · exact absurd rfl hjk
    · exact hfetch k q u hki hks hp
  · rcases thread_of_set hk with ⟨rfl, rfl⟩ | ⟨hki, hks⟩
    · exact howe j p u hji hjs hp
    · exact hs j k p q u hjk hjs hks hp

private theorem unrivalled_step {s' : Daemon} {a : Act} (hs : Unrivalled s)
    (ha : AloneAtCall cfg s a) (h : Step cfg s a s') : Unrivalled s' := by
  cases h with
  | @main a s' h =>
    generalize s.loop = l at h
    cases h with
    | create =>
      -- the new handler neither fetches nor owes
      intro i j pc pc' u hij hi hj hpc
      rcases thread_of_concat hi with hi | rfl
      · rcases thread_of_concat hj with hj | rfl
        · exact hs i j pc pc' u hij hi hj hpc
        · exact fun h ↦ by cases h
      · cases hpc
    | _ => exact hs
  | @thread i a pc sh' pc' _ hpc h =>
    by_cases hcall : a = .avoidDupes
    · subst hcall
      cases h with
      | @drop job =>
        refine hs.set _ (fun _ _ _ _ _ h ↦ by cases h) fun j p u hj hp hfetch howe ↦ ?_
        obtain rfl := Option.some.inj howe
        exact (ha i job rfl hpc j p hj hp).1 hfetch
      | @letThrough job dupes _ hrun =>
        refine hs.set _ (fun j p u hj hp hfetch howe ↦ ?_) fun j p u hj hp hfetch howe ↦ ?_
        · obtain rfl := Option.some.inj hfetch
          exact (ha i job rfl hpc j p hj hp).2 ⟨dupes, hrun⟩ howe
        · obtain rfl := Option.some.inj howe
          exact (ha i job rfl hpc j p hj hp).1 hfetch
    · refine hs.set sh' (fun j p u hj hp hfetch howe ↦ ?_) (fun j p u hj hp hfetch howe ↦ ?_)
      · exact hs i j pc p u (Ne.symm hj) hpc hp ((h.fetching_owing hcall).1 hfetch) howe
      · exact hs j i p pc u hj hp hpc hfetch ((h.fetching_owing hcall).2 howe)
  | tick => exact hs

/-- **Meaning of the reply.** In a run in which every call of `avoid_dupes` is made with no other
handler at a fetch of the same URL, and every one that is let through with no other handler owing a
reply for it, every "ok" is written after all fetches of its URL have ended. -/
theorem replyMeansDone_of_aloneAtCall
    (halone : AllSteps (step cfg) (AloneAtCall cfg) (Daemon.start c now cache) acts) :
    AllSteps (step cfg) ReplyMeansDone (Daemon.start c now cache) acts := by
  refine halone.of_invariant (I := Unrivalled) ?_
    (fun s a s' hs ha h ↦ unrivalled_step hs ha (step_cases h)) ?_
  · intro i j pc pc' u _ hi
    cases hi
  · intro s a hs _ i job ret _ hpc j pc hj hp hfetch
    exact hs j i pc (.returned job ret) job.url hj hp hpc hfetch rfl

/-- A connection, and its handler up to the call of `avoid_dupes`. -/
def requestOf (i : ℕ) (msg : Bytes) : List Act :=
  [.main .ready, .main (.accept 5), .main .check, .main .inc, .main (.create true),
    .thread i (.read (some msg)), .thread i (.makeUrl true)]

/-- The message for `/x` of `lib` without a cached copy. -/
def messageForX : Bytes := bytes "0:lib:/x" ++ [0]

/-- The fetch of `/x` from the first mirror. -/
def jobForX : Job := ⟨⟨0, bytes "lib", bytes "/x"⟩, 0, bytes "a/lib/x.tar"⟩

/-- A request, and another one for the same file while the first is at its download. -/
def secondRequest : List Act :=
  requestOf 0 messageForX ++ [.thread 0 .avoidDupes] ++ requestOf 1 messageForX ++
    [.thread 1 .avoidDupes]

theorem secondRequest_replies_early : ∃ s s',
    run (step emptyArchives) (Daemon.start 0 0 Cache.empty) secondRequest = some s ∧
      s.threads = [.admitted jobForX, .returned jobForX 300] ∧
      step emptyArchives s (.thread 1 .reply) = some s' ∧
      ¬ReplyMeansDone s (.thread 1 .reply) := by
  have hmap : (run (step emptyArchives) (Daemon.start 0 0 Cache.empty) secondRequest).map
      (fun s ↦ (s.loop, s.threads)) =
        some (.select 0, [.admitted jobForX, .returned jobForX 300]) := by decide +kernel
  obtain ⟨s, hrun, hs⟩ := Option.map_eq_some_iff.mp hmap
  obtain ⟨hloop, hthreads⟩ := Prod.mk.inj hs
  refine ⟨s, _, hrun, hthreads, by rw [step, hloop, hthreads]; rfl, fun h ↦ ?_⟩
  refine h 1 jobForX 300 rfl (by rw [hthreads]; rfl) 0 (.admitted jobForX) (by decide) ?_ rfl
  rw [hthreads]
  rfl

/-- Two handlers that have both made the URL: the first is let through and fails with 404. -/
def firstAnswered : List Act :=
  requestOf 0 messageForX ++ requestOf 1 messageForX ++
    [.thread 0 .avoidDupes, .thread 0 (.perform ⟨0, 404, []⟩), .thread 0 .reply]

/-- The second handler calls `avoid_dupes` when the first has replied. -/
theorem replyMeansDone_of_aloneAtCall_answered :
    (run (step emptyArchives) (Daemon.start 0 0 Cache.empty) (firstAnswered ++
      [.thread 1 .avoidDupes, .thread 1 .reply])).map (·.threads) = some [.leaving, .leaving] ∧
    AllSteps (step emptyArchives) ReplyMeansDone (Daemon.start 0 0 Cache.empty)
      (firstAnswered ++ [.thread 1 .avoidDupes, .thread 1 .reply]) := by
  have hcalls : (run (step emptyArchives) (Daemon.start 0 0 Cache.empty)
        (requestOf 0 messageForX ++ requestOf 1 messageForX)).map (·.threads) =
          some [.built jobForX, .built jobForX] ∧
      (run (step emptyArchives) (Daemon.start 0 0 Cache.empty) firstAnswered).map (·.threads) =
        some [.leaving, .built jobForX] := by decide +kernel
  refine ⟨by decide +kernel, replyMeansDone_of_aloneAtCall ?_⟩
  refine AllSteps.append (AllSteps.append (AllSteps.of_forall_mem ?_) fun t ht ↦ ⟨?_, fun t' _ ↦
    AllSteps.of_forall_mem ?_⟩) fun t ht ↦ ⟨?_, fun t' _ ↦ AllSteps.of_forall_mem ?_⟩
  · simp [requestOf, AloneAtCall]
  · have hthreads := hcalls.1
    rw [ht, Option.map_some, Option.some_inj] at hthreads
    rintro i job ha - j pc hji hj
    obtain rfl : 0 = i := by simpa using ha
    rw [hthreads] at hj
    -- the other handler has only made the URL
    obtain ⟨rfl, rfl⟩ : j = 1 ∧ pc = .built jobForX := by
      rcases j with - | - | j
      · exact absurd rfl hji
      · exact ⟨rfl, (Option.some.inj hj).symm⟩
      · exact absurd hj (by simp)
    exact ⟨by simp [Pc.fetching], fun _ ↦ by simp [Pc.owing, Pc.fetching]⟩
  · simp [AloneAtCall]
  · have hthreads := hcalls.2
    rw [ht, Option.map_some, Option.some_inj] at hthreads
    rintro i job ha - j pc hji hj
    obtain rfl : 1 = i := by simpa using ha
    rw [hthreads] at hj
    obtain ⟨rfl, rfl⟩ : j = 0 ∧ pc = .leaving := by
      rcases j with - | - | j
      · exact ⟨rfl, (Option.some.inj hj).symm⟩
      · exact absurd rfl hji
      · exact absurd hj (by simp)
    exact ⟨by simp [Pc.fetching], fun _ ↦ by simp [Pc.owing, Pc.fetching]⟩
  · simp [AloneAtCall]

end ClrDebugInfo
