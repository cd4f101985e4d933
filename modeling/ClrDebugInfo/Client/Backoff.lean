import Mathlib.Data.Int.Notation
import Mathlib.Data.List.Basic
import Mathlib.Order.Basic
import ClrDebugInfo.Library.Runs

/-!
# The dead time after a timeout

The calls of `try_to_get` of `src/client.c` in one FUSE process, in any interleaving. They share
`deadtime`; everything else of a call is its own. Times are what `time(NULL)` returns, whole
seconds that never go back.

A call reads `deadtime` and the clock in its deadline test, in either order and with steps of other
calls in between; setting `deadtime = time(NULL) + 4` is one step.
-/

open Runs

namespace ClrDebugInfo

/-- `TIMEOUT` -/
def clientTimeout : ℕ := 75000

/-- `TIMEOUT2` -/
def clientTimeout2 : ℕ := 1500

/-! ## The calls -/

/-- Where a call is. -/
inductive Stage
  /-- Before the deadline test: the connection, the credentials and the message. -/
  | connecting
  /-- One of the two reads of the deadline test is done. -/
  | testing
  | tested
  /-- In `select`. -/
  | waiting
  | waited
  /-- After the last `if`, before `close`. -/
  | finished
  | returned
  deriving DecidableEq

/-- The deadline test of a call and what it decides. -/
structure DeadlineTest where
  /-- The step at which it began. Steps are counted over the whole process. -/
  began : Option ℕ
  /-- What `time(NULL)` has returned. -/
  clock : Option ℤ
  /-- What has been read of `deadtime`. -/
  dead : Option ℤ
  /-- `tv.tv_usec` -/
  usec : ℕ
  shorttime : Bool

/-- A call of `try_to_get`. -/
structure TryCall where
  stage : Stage
  timestamp : ℤ
  test : DeadlineTest
  ret : ℤ
  -- the rest is history
  /-- The step of the call. -/
  entered : ℕ
  /-- The time at which `select` was called. -/
  waitFrom : Option ℤ
  /-- The time at which it returned. -/
  waitTo : Option ℤ
  /-- The step of the return. -/
  left : Option ℕ

/-- The process. -/
structure Client where
  now : ℤ
  deadtime : ℤ
  calls : List TryCall
  /-- The number of steps so far. -/
  steps : ℕ
  /-- The steps that have stored to `deadtime`, with what `time(NULL)` returned there. -/
  stores : List (ℕ × ℤ)

/-- A step of one call. -/
inductive Move
  /-- The return on a failed `socket`, `connect` or `asprintf`, or on a recursion. -/
  | giveUp
  | readClock
  | readDead
  | select
  | wake (ret : ℤ)
  | finish
  | leave
  deriving DecidableEq

inductive ClientAction
  | tick (seconds : ℕ)
  | enter (timestamp : ℤ)
  | move (i : ℕ) (m : Move)

/-- A call of `try_to_get`, up to its `connect`. -/
def tryToGet (timestamp : ℤ) (entered : ℕ) : TryCall where
  stage := .connecting
  timestamp := timestamp
  test := ⟨none, none, none, clientTimeout, false⟩
  ret := 0
  entered := entered
  waitFrom := none
  waitTo := none
  left := none

/-- `if (deadtime > time(NULL))`, once both are read. -/
def deadlineTest (c : TryCall) (test : DeadlineTest) : TryCall :=
  match test.clock, test.dead with
  | some t, some d =>
    { c with
      stage := .tested
      test := if d > t then { test with usec := clientTimeout2, shorttime := true } else test }
  | _, _ => { c with stage := .testing, test := test }

/-- The call after a step of its own. -/
def callStep (s : Client) (c : TryCall) : Move → Option TryCall
  | .giveUp =>
    if c.stage = .connecting then some { c with stage := .returned, left := some s.steps }
    else none
  | .readClock =>
    if (c.stage = .connecting ∨ c.stage = .testing) ∧ c.test.clock = none then
      some (deadlineTest c { c.test with
        began := c.test.began.or (some s.steps)
        clock := some s.now })
    else none
  | .readDead =>
    if (c.stage = .connecting ∨ c.stage = .testing) ∧ c.test.dead = none then
      some (deadlineTest c { c.test with
        began := c.test.began.or (some s.steps)
        dead := some s.deadtime })
    else none
  | .select =>
    if c.stage = .tested then
      if c.timestamp = 0 then some { c with stage := .waiting, ret := 1, waitFrom := some s.now }
      else some { c with stage := .waited, ret := 1 }
    else none
  | .wake ret =>
    if c.stage = .waiting then some { c with stage := .waited, ret := ret, waitTo := some s.now }
    else none
  | .finish => if c.stage = .waited then some { c with stage := .finished } else none
  | .leave =>
    if c.stage = .finished then some { c with stage := .returned, left := some s.steps } else none

/-- `if (ret == 0 && !shorttime)` -/
def movesDeadtime (c : TryCall) (m : Move) : Bool := m = .finish && c.ret == 0 && !c.test.shorttime

def clientStep (s : Client) : ClientAction → Option Client
  | .tick seconds => some { s with now := s.now + seconds, steps := s.steps + 1 }
  | .enter timestamp =>
    some { s with calls := s.calls ++ [tryToGet timestamp s.steps], steps := s.steps + 1 }
  | .move i m =>
    s.calls[i]?.bind fun c ↦ (callStep s c m).map fun c' ↦
      { now := s.now
        deadtime := if movesDeadtime c m then s.now + 4 else s.deadtime
        calls := s.calls.set i c'
        steps := s.steps + 1
        stores := if movesDeadtime c m then (s.steps, s.now) :: s.stores else s.stores }

/-- `deadtime` starts as 0. -/
def Client.start (now : ℤ) : Client where
  now := now
  deadtime := 0
  calls := []
  steps := 0
  stores := []

/-- The wait of the call had the full length and ended in a timeout. -/
def FullTimeout (c : TryCall) : Prop := c.test.usec = clientTimeout ∧ c.waitTo ≠ none ∧ c.ret = 0

/-! ## What one step of a call does -/

variable {s s' : Client} {c c' : TryCall} {m : Move} {a : ClientAction}

/-- What no step of a call goes back on. -/
structure Later (s s' : Client) : Prop where
  now : s.now ≤ s'.now
  steps : s.steps < s'.steps
  stores : ∀ e ∈ s.stores, e ∈ s'.stores
  fresh : ∀ e ∈ s'.stores, e ∈ s.stores ∨ e = (s.steps, s.now)

private theorem clientStep_later (h : clientStep s a = some s') : Later s s' := by
  cases a with
  | tick seconds =>
    obtain rfl := Option.some.inj h
    exact ⟨Int.le_add_of_nonneg_right (Int.natCast_nonneg _), Nat.lt_succ_self _, fun e he ↦ he,
      fun e he ↦ Or.inl he⟩
  | enter timestamp =>
    obtain rfl := Option.some.inj h
    exact ⟨Int.le_refl _, Nat.lt_succ_self _, fun e he ↦ he, fun e he ↦ Or.inl he⟩
  | move i m =>
    obtain ⟨c, -, h⟩ := Option.bind_eq_some_iff.mp h
    obtain ⟨c', -, rfl⟩ := Option.map_eq_some_iff.mp h
    refine ⟨Int.le_refl _, Nat.lt_succ_self _, fun e he ↦ ?_, fun e he ↦ ?_⟩
    · by_cases hmoves : movesDeadtime c m
      · simp [hmoves, he]
      · simp [hmoves, he]
    · by_cases hmoves : movesDeadtime c m
      · simpa [hmoves, or_comm] using he
      · exact Or.inl (by simpa [hmoves] using he)

private theorem mem_calls_of_clientStep (h : clientStep s a = some s') (hc : c' ∈ s'.calls) :
    c' ∈ s.calls ∨ (∃ timestamp, c' = tryToGet timestamp s.steps) ∨
      ∃ c ∈ s.calls, ∃ m, callStep s c m = some c' ∧
        (movesDeadtime c m = true → (s.steps, s.now) ∈ s'.stores) := by
  cases a with
  | tick seconds =>
    obtain rfl := Option.some.inj h
    exact Or.inl hc
  | enter timestamp =>
    obtain rfl := Option.some.inj h
    rcases List.mem_append.mp hc with hc | hc
    · exact Or.inl hc
    · exact Or.inr (Or.inl ⟨timestamp, List.mem_singleton.mp hc⟩)
  | move i m =>
    obtain ⟨c, hi, h⟩ := Option.bind_eq_some_iff.mp h
    obtain ⟨c₁, hc₁, rfl⟩ := Option.map_eq_some_iff.mp h
    rcases List.mem_or_eq_of_mem_set hc with hc | rfl
    · exact Or.inl hc
    · refine Or.inr (Or.inr ⟨c, List.mem_of_getElem? hi, m, hc₁, fun hmoves ↦ ?_⟩)
      simp [hmoves]

/-- `deadtime` is moved by the call that timed out after a full wait, and by nothing else. -/
theorem deadtime_of_clientStep (h : clientStep s a = some s') :
    (s'.deadtime = s.deadtime ∧ s'.stores = s.stores) ∨
      (s'.deadtime = s.now + 4 ∧ ∃ i c, a = .move i .finish ∧ s.calls[i]? = some c ∧
        c.stage = .waited ∧ c.ret = 0 ∧ c.test.shorttime = false) := by
  cases a with
  | tick seconds =>
    obtain rfl := Option.some.inj h
    exact Or.inl ⟨rfl, rfl⟩
  | enter timestamp =>
    obtain rfl := Option.some.inj h
    exact Or.inl ⟨rfl, rfl⟩
  | move i m =>
    obtain ⟨c, hi, h⟩ := Option.bind_eq_some_iff.mp h
    obtain ⟨c', hc', rfl⟩ := Option.map_eq_some_iff.mp h
    by_cases hmoves : movesDeadtime c m = true
    · have hm : (m = .finish ∧ c.ret = 0) ∧ c.test.shorttime = false := by
        simpa [movesDeadtime] using hmoves
      obtain ⟨⟨rfl, hret⟩, hshort⟩ := hm
      have hstage : c.stage = .waited := by
        by_contra hstage
        rw [callStep, if_neg hstage] at hc'
        exact nomatch hc'
      exact Or.inr ⟨if_pos hmoves, i, c, rfl, hi, hstage, hret, hshort⟩
    · exact Or.inl ⟨if_neg hmoves, if_neg hmoves⟩

/-! ## The invariant -/

/-- What holds of the stores. -/
def StoresValid (s : Client) : Prop :=
  ∀ k u, (k, u) ∈ s.stores → k < s.steps ∧ u ≤ s.now ∧ u + 4 ≤ s.deadtime

/-- What holds of a deadline test. -/
structure DeadlineTest.Valid (s : Client) (test : DeadlineTest) : Prop where
  began_lt : ∀ j, test.began = some j → j < s.steps
  clock_le : ∀ t, test.clock = some t → t ≤ s.now
  /-- The deadline that was read covers every store before the test. -/
  le_dead : ∀ d, test.dead = some d → ∃ j, test.began = some j ∧
    ∀ k u, (k, u) ∈ s.stores → k < j → u + 4 ≤ d
  usec_eq : test.usec = if test.shorttime then clientTimeout2 else clientTimeout
  shorttime_iff : test.shorttime = true ↔ ∃ t d, test.clock = some t ∧ test.dead = some d ∧ t < d

/-- What holds of a call. -/
structure TryCall.Valid (s : Client) (c : TryCall) : Prop where
  test : c.test.Valid s
  entered_le : ∀ j, c.test.began = some j → c.entered ≤ j
  entered_lt : c.entered < s.steps
  tested : c.stage = .tested → c.test.clock ≠ none ∧ c.test.dead ≠ none
  waiting : c.stage = .waiting → c.waitFrom ≠ none
  le_waitFrom : ∀ w, c.waitFrom = some w →
    c.test.dead ≠ none ∧ ∃ t, c.test.clock = some t ∧ t ≤ w
  waitTo_le : ∀ w, c.waitTo = some w → c.waitFrom ≠ none ∧ w ≤ s.now ∧
    (c.stage = .waited ∨ c.stage = .finished ∨ c.stage = .returned)
  unasked : c.stage = .waited → c.waitTo = none → c.ret = 1
  left_some : ∀ l, c.left = some l → c.stage = .returned
  /-- A full wait that timed out has stored the deadline. -/
  stored : ∀ w, c.waitTo = some w → c.ret = 0 → c.test.shorttime = false → c.stage ≠ .waited →
    ∃ k u, (k, u) ∈ s.stores ∧ w ≤ u ∧ ∀ l, c.left = some l → k < l

/-- A store moves `deadtime` forward: it adds 4 to a later time than the stores before it. -/
theorem StoresValid.step (hs : StoresValid s) (h : clientStep s a = some s') : StoresValid s' := by
  intro k u hku
  have hl := clientStep_later h
  rcases hl.fresh _ hku with hold | hnew
  · obtain ⟨hk, hu, hdead⟩ := hs k u hold
    refine ⟨Nat.lt_trans hk hl.steps, Int.le_trans hu hl.now, ?_⟩
    rcases deadtime_of_clientStep h with ⟨heq, -⟩ | ⟨heq, -⟩
    · omega
    · omega
  · rcases deadtime_of_clientStep h with ⟨-, heq⟩ | ⟨heq, -⟩
    · obtain ⟨hk, -⟩ := hs k u (heq ▸ hku)
      rw [(Prod.mk.inj hnew).1] at hk
      exact absurd hk (Nat.lt_irrefl _)
    · obtain ⟨rfl, rfl⟩ := Prod.mk.inj hnew
      exact ⟨hl.steps, hl.now, Int.le_of_eq heq.symm⟩

theorem DeadlineTest.Valid.later {test : DeadlineTest} (hl : Later s s') (ht : test.Valid s) :
    test.Valid s' where
  began_lt j hj := Nat.lt_trans (ht.began_lt j hj) hl.steps
  clock_le t hclock := Int.le_trans (ht.clock_le t hclock) hl.now
  le_dead d hd := by
    obtain ⟨j, hj, hcover⟩ := ht.le_dead d hd
    refine ⟨j, hj, fun k u hku hkj ↦ ?_⟩
    rcases hl.fresh _ hku with hku | heq
    · exact hcover k u hku hkj
    · obtain ⟨rfl, -⟩ := Prod.mk.inj heq
      exact absurd (ht.began_lt j hj) (Nat.not_lt_of_lt hkj)
  usec_eq := ht.usec_eq
  shorttime_iff := ht.shorttime_iff

theorem TryCall.Valid.later (hl : Later s s') (hc : c.Valid s) : c.Valid s' where
  test := hc.test.later hl
  entered_le := hc.entered_le
  entered_lt := Nat.lt_trans hc.entered_lt hl.steps
  tested := hc.tested
  waiting := hc.waiting
  le_waitFrom := hc.le_waitFrom
  waitTo_le w hw := by
    obtain ⟨hfrom, hle, hstage⟩ := hc.waitTo_le w hw
    exact ⟨hfrom, Int.le_trans hle hl.now, hstage⟩
  unasked := hc.unasked
  left_some := hc.left_some
  stored w hw hret hshort hstage := by
    obtain ⟨k, u, hku, hwu, hleft⟩ := hc.stored w hw hret hshort hstage
    exact ⟨k, u, hl.stores _ hku, hwu, hleft⟩

private theorem tryToGet_valid {timestamp : ℤ} {k : ℕ} (hk : k < s.steps) :
    (tryToGet timestamp k).Valid s where
  test := ⟨nofun, nofun, nofun, rfl, by simp [tryToGet]⟩
  entered_le := nofun
  entered_lt := hk
  tested := nofun
  waiting := nofun
  le_waitFrom := nofun
  waitTo_le := nofun
  unasked := nofun
  left_some := nofun
  stored := nofun

theorem TryCall.Valid.left_eq_none (hc : c.Valid s) (hstage : c.stage ≠ .returned) :
    c.left = none := by
  by_contra hleft
  obtain ⟨l, hl⟩ := Option.ne_none_iff_exists'.mp hleft
  exact hstage (hc.left_some l hl)

theorem TryCall.Valid.not_waited (hc : c.Valid s)
    (hstage : c.stage = .connecting ∨ c.stage = .testing ∨ c.stage = .tested) :
    c.waitTo = none ∧ c.left = none := by
  constructor
  · cases hw : c.waitTo with
    | none => rfl
    | some w =>
      obtain ⟨-, -, hwaited⟩ := hc.waitTo_le w hw
      rcases hstage with h | h | h <;> simp [h] at hwaited
  · exact hc.left_eq_none (by rcases hstage with h | h | h <;> simp [h])

theorem TryCall.Valid.deadlineTest {test : DeadlineTest} (hc : c.Valid s)
    (hstage : c.stage = .connecting ∨ c.stage = .testing) (hfrom : c.waitFrom = none)
    (hbegan : ∀ j, test.began = some j → j < s.steps ∧ c.entered ≤ j)
    (hclock : ∀ t, test.clock = some t → t ≤ s.now)
    (hdead : ∀ d, test.dead = some d → ∃ j, test.began = some j ∧
      ∀ k u, (k, u) ∈ s.stores → k < j → u + 4 ≤ d)
    (husec : test.usec = clientTimeout ∧ test.shorttime = false) :
    (deadlineTest c test).Valid s := by
  obtain ⟨hto, hleft⟩ := hc.not_waited (hstage.imp_right Or.inl)
  obtain ⟨began, clock, dead, usec, shorttime⟩ := test
  obtain ⟨rfl, rfl⟩ := husec
  have hbegan_lt : ∀ j, began = some j → j < s.steps := fun j hj ↦ (hbegan j hj).1
  have hentered_le : ∀ j, began = some j → c.entered ≤ j := fun j hj ↦ (hbegan j hj).2
  have hdone : ∀ t d usec shorttime, clock = some t → dead = some d →
      usec = (if shorttime then clientTimeout2 else clientTimeout) → (shorttime = true ↔ t < d) →
      ({ c with stage := .tested, test := ⟨began, clock, dead, usec, shorttime⟩ } :
        TryCall).Valid s := by
    rintro t d usec shorttime rfl rfl husec hshort
    exact {
      test := ⟨hbegan_lt, hclock, hdead, husec, by simp [hshort]⟩
      entered_le := hentered_le
      entered_lt := hc.entered_lt
      tested := fun _ ↦ ⟨nofun, nofun⟩
      waiting := nofun
      le_waitFrom := by simp [hfrom]
      waitTo_le := by simp [hto]
      unasked := nofun
      left_some := by simp [hleft]
      stored := by simp [hto] }
  have hhalf : (clock = none ∨ dead = none) → ({ c with
      stage := .testing
      test := ⟨began, clock, dead, clientTimeout, false⟩ } : TryCall).Valid s := by
    intro hnone
    exact {
      test := ⟨hbegan_lt, hclock, hdead, rfl, by rcases hnone with rfl | rfl <;> simp⟩
      entered_le := hentered_le
      entered_lt := hc.entered_lt
      tested := nofun
      waiting := nofun
      le_waitFrom := by simp [hfrom]
      waitTo_le := by simp [hto]
      unasked := nofun
      left_some := by simp [hleft]
      stored := by simp [hto] }
  cases clock with
  | none => exact hhalf (Or.inl rfl)
  | some t =>
    cases dead with
    | none => exact hhalf (Or.inr rfl)
    | some d =>
      by_cases hlt : d > t
      · simpa [ClrDebugInfo.deadlineTest, hlt] using
          hdone t d clientTimeout2 true rfl rfl rfl (by simpa using hlt)
      · simpa [ClrDebugInfo.deadlineTest, hlt] using
          hdone t d clientTimeout false rfl rfl rfl (by simpa using hlt)

theorem TryCall.Valid.untested (hc : c.Valid s)
    (hnone : c.test.clock = none ∨ c.test.dead = none) :
    c.waitFrom = none ∧ c.test.usec = clientTimeout ∧ c.test.shorttime = false := by
  have hshort : c.test.shorttime = false := by
    rw [← Bool.not_eq_true, hc.test.shorttime_iff]
    rintro ⟨t, d, hclock, hdead, -⟩
    simp [hclock, hdead] at hnone
  refine ⟨?_, by rw [hc.test.usec_eq, hshort]; rfl, hshort⟩
  cases hw : c.waitFrom with
  | none => rfl
  | some w =>
    obtain ⟨hdead, t, hclock, -⟩ := hc.le_waitFrom w hw
    simp [hclock, hdead] at hnone

theorem TryCall.Valid.began_or (hc : c.Valid s) {j : ℕ}
    (hj : c.test.began.or (some s.steps) = some j) : j ≤ s.steps ∧ c.entered ≤ j := by
  cases hbegan : c.test.began with
  | none =>
    rw [hbegan, Option.none_or, Option.some_inj] at hj
    exact ⟨Nat.le_of_eq hj.symm, hj ▸ Nat.le_of_lt hc.entered_lt⟩
  | some k =>
    rw [hbegan, Option.some_or, Option.some_inj] at hj
    subst hj
    exact ⟨Nat.le_of_lt (hc.test.began_lt k hbegan), hc.entered_le k hbegan⟩

theorem TryCall.Valid.began_or_lt (hc : c.Valid s) (hl : Later s s') {j : ℕ}
    (hj : c.test.began.or (some s.steps) = some j) : j < s'.steps ∧ c.entered ≤ j := by
  obtain ⟨hle, hentered⟩ := hc.began_or hj
  exact ⟨Nat.lt_of_le_of_lt hle hl.steps, hentered⟩

/-- **What a step of a call preserves.** -/
theorem callStep_valid (hs : StoresValid s) (hc : c.Valid s) (hl : Later s s')
    (h : callStep s c m = some c')
    (hmoves : movesDeadtime c m = true → (s.steps, s.now) ∈ s'.stores) : c'.Valid s' := by
  have hc' := hc.later hl
  cases m with
  | giveUp =>
    obtain ⟨hstage, h⟩ := Option.ite_none_right_eq_some.mp h
    obtain rfl := Option.some.inj h
    obtain ⟨hto, -⟩ := hc.not_waited (Or.inl hstage)
    exact { hc' with
      tested := nofun
      waiting := nofun
      waitTo_le := by simp [hto]
      unasked := nofun
      left_some := fun _ _ ↦ rfl
      stored := by simp [hto] }
  | readClock =>
    obtain ⟨⟨hstage, hnone⟩, h⟩ := Option.ite_none_right_eq_some.mp h
    obtain rfl := Option.some.inj h
    obtain ⟨hfrom, husec⟩ := hc.untested (Or.inl hnone)
    refine hc'.deadlineTest hstage hfrom (fun j hj ↦ hc.began_or_lt hl hj) ?_ ?_ husec
    · rintro t ht
      obtain rfl := Option.some.inj ht
      exact hl.now
    · intro d hd
      obtain ⟨j, hj, hcover⟩ := hc'.test.le_dead d hd
      exact ⟨j, by rw [hj]; rfl, hcover⟩
  | readDead =>
    obtain ⟨⟨hstage, hnone⟩, h⟩ := Option.ite_none_right_eq_some.mp h
    obtain rfl := Option.some.inj h
    obtain ⟨hfrom, husec⟩ := hc.untested (Or.inr hnone)
    refine hc'.deadlineTest hstage hfrom (fun j hj ↦ hc.began_or_lt hl hj) hc'.test.clock_le ?_
      husec
    rintro d hd
    obtain rfl := Option.some.inj hd
    obtain ⟨j, hj⟩ : ∃ j, c.test.began.or (some s.steps) = some j :=
      Option.isSome_iff_exists.mp (by simp)
    refine ⟨j, hj, fun k u hku hkj ↦ ?_⟩
    rcases hl.fresh _ hku with hold | hnew
    · exact (hs k u hold).2.2
    · have hle := (hc.began_or hj).1
      rw [(Prod.mk.inj hnew).1] at hkj
      exact absurd hkj (Nat.not_lt_of_le hle)
  | select =>
    obtain ⟨hstage, h⟩ := Option.ite_none_right_eq_some.mp h
    obtain ⟨hto, hleft⟩ := hc.not_waited (Or.inr (Or.inr hstage))
    obtain ⟨hclock, hdead⟩ := hc.tested hstage
    by_cases hsync : c.timestamp = 0
    · rw [if_pos hsync] at h
      obtain rfl := Option.some.inj h
      obtain ⟨t, ht⟩ := Option.ne_none_iff_exists'.mp hclock
      refine { hc' with
        tested := nofun
        waiting := fun _ ↦ nofun
        le_waitFrom := fun w hw ↦ ⟨hdead, t, ht, ?_⟩
        waitTo_le := by simp [hto]
        unasked := nofun
        left_some := by simp [hleft]
        stored := by simp [hto] }
      obtain rfl := Option.some.inj hw
      exact hc.test.clock_le t ht
    · rw [if_neg hsync] at h
      obtain rfl := Option.some.inj h
      exact { hc' with
        tested := nofun
        waiting := nofun
        waitTo_le := by simp [hto]
        unasked := fun _ _ ↦ rfl
        left_some := by simp [hleft]
        stored := by simp [hto] }
  | wake ret =>
    obtain ⟨hstage, h⟩ := Option.ite_none_right_eq_some.mp h
    obtain rfl := Option.some.inj h
    have hleft := hc.left_eq_none (by simp [hstage])
    refine { hc' with
      tested := nofun
      waiting := nofun
      waitTo_le := fun w hw ↦ ⟨hc.waiting hstage, ?_, Or.inl rfl⟩
      unasked := nofun
      left_some := by simp [hleft]
      stored := fun w _ _ _ hne ↦ absurd rfl hne }
    obtain rfl := Option.some.inj hw
    exact hl.now
  | finish =>
    obtain ⟨hstage, h⟩ := Option.ite_none_right_eq_some.mp h
    obtain rfl := Option.some.inj h
    have hleft := hc.left_eq_none (by simp [hstage])
    refine { hc' with
      tested := nofun
      waiting := nofun
      waitTo_le := fun w hw ↦ ?_
      unasked := nofun
      left_some := by simp [hleft]
      stored := fun w hw hret hshort _ ↦ ⟨s.steps, s.now, hmoves ?_, ?_, by simp [hleft]⟩ }
    · obtain ⟨hfrom, hle, -⟩ := hc'.waitTo_le w hw
      exact ⟨hfrom, hle, Or.inr (Or.inl rfl)⟩
    · have hret : c.ret = 0 := hret
      have hshort : c.test.shorttime = false := hshort
      simp [movesDeadtime, hret, hshort]
    · exact (hc.waitTo_le w hw).2.1
  | leave =>
    obtain ⟨hstage, h⟩ := Option.ite_none_right_eq_some.mp h
    obtain rfl := Option.some.inj h
    refine { hc' with
      tested := nofun
      waiting := nofun
      waitTo_le := fun w hw ↦ ?_
      unasked := nofun
      left_some := fun _ _ ↦ rfl
      stored := fun w hw hret hshort _ ↦ ?_ }
    · obtain ⟨hfrom, hle, -⟩ := hc'.waitTo_le w hw
      exact ⟨hfrom, hle, Or.inr (Or.inr rfl)⟩
    · obtain ⟨k, u, hku, hwu, -⟩ := hc.stored w hw hret hshort (by simp [hstage])
      refine ⟨k, u, hl.stores _ hku, hwu, fun l hleft ↦ ?_⟩
      obtain rfl := Option.some.inj hleft
      exact (hs k u hku).1

/-! ## Runs -/

/-- What holds in every state of the process. -/
structure Client.Valid (s : Client) : Prop where
  stores : StoresValid s
  calls : ∀ c ∈ s.calls, c.Valid s

private theorem clientStep_valid (hs : s.Valid) (h : clientStep s a = some s') : s'.Valid where
  stores := hs.stores.step h
  calls c' hc' := by
    have hl := clientStep_later h
    rcases mem_calls_of_clientStep h hc' with hc' | ⟨timestamp, rfl⟩ | ⟨c, hc, m, hm, hmoves⟩
    · exact (hs.calls c' hc').later hl
    · exact tryToGet_valid hl.steps
    · exact callStep_valid hs.stores (hs.calls c hc) hl hm hmoves

private theorem start_valid (now : ℤ) : (Client.start now).Valid where
  stores _ _ h := absurd h List.not_mem_nil
  calls _ h := absurd h List.not_mem_nil

private theorem valid_of_run {now : ℤ} {acts : List ClientAction}
    (hrun : run clientStep (Client.start now) acts = some s) : s.Valid :=
  run_invariant (I := fun _ s ↦ s.Valid) (start_valid now)
    (fun _ _ _ _ hs h ↦ clientStep_valid hs h) hrun

/-- What the back-off promises, in a state of the process. -/
structure BacksOff (s : Client) : Prop where
  /-- A synchronous request that makes its deadline test after a store, and less than 4 seconds
  after it, waits for the short time. -/
  short_of_store : ∀ c ∈ s.calls, c.timestamp = 0 → ∀ j t k u, c.test.began = some j →
    c.test.clock = some t → c.test.dead ≠ none → (k, u) ∈ s.stores → k < j → t < u + 4 →
    c.test.usec = clientTimeout2
  /-- `deadtime` is only ever moved by the end of a full wait that timed out. -/
  full_of_moved : ∀ a s', clientStep s a = some s' → s'.deadtime ≠ s.deadtime →
    ∃ i c, a = .move i .finish ∧ s.calls[i]? = some c ∧ FullTimeout c
  /-- From the end of a full wait that timed out to the start of another one, in a call that is
  made after the return, there are 4 seconds. -/
  apart : ∀ c ∈ s.calls, ∀ c' ∈ s.calls, ∀ l, c.left = some l → l < c'.entered →
    FullTimeout c → FullTimeout c' →
    ∃ w w', c.waitTo = some w ∧ c'.waitFrom = some w' ∧ w + 4 ≤ w'

theorem Client.Valid.short_of_store (hs : s.Valid) (hc : c ∈ s.calls) {j k : ℕ} {t u : ℤ}
    (hbegan : c.test.began = some j) (hclock : c.test.clock = some t)
    (hdead : c.test.dead ≠ none) (hku : (k, u) ∈ s.stores) (hkj : k < j) (ht : t < u + 4) :
    c.test.shorttime = true := by
  have hv := (hs.calls c hc).test
  obtain ⟨d, hd⟩ := Option.ne_none_iff_exists'.mp hdead
  obtain ⟨j', hj', hcover⟩ := hv.le_dead d hd
  obtain rfl := Option.some.inj (hbegan.symm.trans hj')
  have hud := hcover k u hku hkj
  exact hv.shorttime_iff.mpr ⟨t, d, hclock, hd, by omega⟩

theorem FullTimeout.shorttime (hv : c.test.Valid s) (h : FullTimeout c) :
    c.test.shorttime = false := by
  by_contra hshort
  have husec := hv.usec_eq
  rw [Bool.not_eq_false] at hshort
  rw [hshort, if_pos rfl, h.1] at husec
  exact absurd husec (by decide)

theorem Client.Valid.apart (hs : s.Valid) (hc : c ∈ s.calls) (hc' : c' ∈ s.calls) {l : ℕ}
    (hleft : c.left = some l) (hl : l < c'.entered) (h : FullTimeout c) (h' : FullTimeout c') :
    ∃ w w', c.waitTo = some w ∧ c'.waitFrom = some w' ∧ w + 4 ≤ w' := by
  have hv := hs.calls c hc
  have hv' := hs.calls c' hc'
  obtain ⟨w, hw⟩ := Option.ne_none_iff_exists'.mp h.2.1
  obtain ⟨v, hvto⟩ := Option.ne_none_iff_exists'.mp h'.2.1
  obtain ⟨w', hw'⟩ := Option.ne_none_iff_exists'.mp (hv'.waitTo_le v hvto).1
  refine ⟨w, w', hw, hw', ?_⟩
  -- the first call has stored the deadline before the test of the second one began
  obtain ⟨k, u, hku, hwu, hkl⟩ := hv.stored w hw h.2.2 (h.shorttime hv.test)
    (by simp [hv.left_some l hleft])
  obtain ⟨hdead, t, hclock, htw⟩ := hv'.le_waitFrom w' hw'
  obtain ⟨d, hd⟩ := Option.ne_none_iff_exists'.mp hdead
  obtain ⟨j, hj, -⟩ := hv'.test.le_dead d hd
  have hkj : k < j :=
    Nat.lt_of_lt_of_le (Nat.lt_trans (hkl l hleft) hl) (hv'.entered_le j hj)
  -- the second wait was a full one, so the 4 seconds were over
  have hfar : ¬t < u + 4 := by
    intro ht
    have hshort := hs.short_of_store hc' hj hclock hdead hku hkj ht
    rw [h'.shorttime hv'.test] at hshort
    exact Bool.false_ne_true hshort
  omega

/-- **Back-off after a timeout**, in every run. -/
theorem run_backsOff {now : ℤ} {acts : List ClientAction}
    (hrun : run clientStep (Client.start now) acts = some s) : BacksOff s := by
  have hs := valid_of_run hrun
  refine ⟨?_, ?_, ?_⟩
  · intro c hc _ j t k u hbegan hclock hdead hku hkj ht
    rw [(hs.calls c hc).test.usec_eq, if_pos]
    exact hs.short_of_store hc hbegan hclock hdead hku hkj ht
  · intro a s' h hmoved
    rcases deadtime_of_clientStep h with ⟨heq, -⟩ | ⟨-, i, c, ha, hi, hstage, hret, hshort⟩
    · exact absurd heq hmoved
    · have hv := hs.calls c (List.mem_of_getElem? hi)
      refine ⟨i, c, ha, hi, ?_, ?_, hret⟩
      · rw [hv.test.usec_eq, hshort]
        rfl
      · intro hto
        exact absurd (hret.symm.trans (hv.unasked hstage hto)) (by decide)
  · exact fun c hc c' hc' l hleft hl h h' ↦ hs.apart hc hc' hleft hl h h'

/-- Two full waits that time out, one 5 seconds after the other, and a short one in between. -/
def threeTimeouts : List ClientAction :=
  [.enter 0, .move 0 .readDead, .move 0 .readClock, .move 0 .select, .tick 1, .move 0 (.wake 0),
    .move 0 .finish, .move 0 .leave,
    .enter 0, .tick 2, .move 1 .readClock, .move 1 .readDead, .move 1 .select, .move 1 (.wake 0),
    .move 1 .finish, .move 1 .leave,
    .tick 3, .enter 0, .move 2 .readDead, .move 2 .readClock, .move 2 .select, .move 2 (.wake 0)]

theorem run_backsOff_threeTimeouts : ∃ s, run clientStep (Client.start 100) threeTimeouts = some s ∧
    s.calls.map (fun c ↦ (c.test.usec, c.waitFrom, c.waitTo)) =
      [(clientTimeout, some 100, some 101), (clientTimeout2, some 103, some 103),
        (clientTimeout, some 106, some 106)] ∧
    BacksOff s :=
  ⟨_, rfl, rfl, @run_backsOff _ 100 threeTimeouts rfl⟩

end ClrDebugInfo
