import Mathlib.Logic.Function.Basic
import ClrDebugInfo.Library.Runs

/-!
# Programs that make calls

A program returns, or makes a call and goes on with the answer. What a call does is given by a
machine, in a state that several programs share: they take their calls in any order, and between
two calls the state may change from outside. A machine that has a choice leaves it to the action.

Three things are said of programs and proved of all runs of several programs at once: what calls
they make (`Prog.All`), how many (`Prog.Within`), and that they give back what they have taken from
a table that they share (`Prog.Tidy`).
-/

namespace Programs

open Runs

/-! ## Programs -/

/-- A program with calls `C`, answers `A` and results `R`. -/
inductive Prog (C A R : Type*)
  | ret (r : R)
  | call (c : C) (k : A → Prog C A R)

namespace Prog

variable {C C' A R N : Type*}

/-- The same program with other calls. -/
def map (f : C → C') : Prog C A R → Prog C' A R
  | ret r => ret r
  | call c k => call (f c) fun a ↦ (k a).map f

/-- Every call meets `P`, whatever the answers. -/
def All (P : C → Prop) : Prog C A R → Prop
  | ret _ => True
  | call c k => P c ∧ ∀ a, (k a).All P

/-- There are at most `n` calls, whatever the answers. -/
def Within : Prog C A R → ℕ → Prop
  | ret _, _ => True
  | call _ _, 0 => False
  | call _ k, n + 1 => ∀ a, (k a).Within n

/-- What a call does to a table of names. -/
inductive Use (N A : Type*)
  | nothing
  /-- It enters a name, which depends on the answer. -/
  | acquire (name : A → Option N)
  | use (n : N)
  | release (n : N)

/-- The program has at most one name at a time. It uses no other, and has none at the end. -/
def Tidy (use : C → Use N A) : Prog C A R → Option N → Prop
  | ret _, own => own = none
  | call c k, own =>
    match use c with
    | .nothing => ∀ a, (k a).Tidy use own
    | .acquire name => own = none ∧ ∀ a, (k a).Tidy use (name a)
    | .use n => own = some n ∧ ∀ a, (k a).Tidy use own
    | .release n => own = some n ∧ ∀ a, (k a).Tidy use none

end Prog

/-! ## Several programs -/

/-- What programs share, and the program of each. -/
structure State (W ι C A R : Type*) where
  world : W
  prog : ι → Prog C A R

inductive ProgAct (ι X E : Type*)
  | turn (i : ι) (x : X)
  | outside (e : E)

variable {W ι C C' A R X E N V : Type*}

/-- The same state of programs with other calls. -/
def State.map (f : C → C') (s : State W ι C A R) : State W ι C' A R :=
  ⟨s.world, fun i ↦ (s.prog i).map f⟩

variable [DecidableEq ι]

/-- A step under the machine `m` and changes `env` from outside. -/
def progStep (m : W → C → X → Option (W × A)) (env : W → E → Option W) (s : State W ι C A R) :
    ProgAct ι X E → Option (State W ι C A R)
  | .turn i x =>
    match s.prog i with
    | .ret _ => none
    | .call c k => (m s.world c x).map fun r ↦ ⟨r.1, Function.update s.prog i (k r.2)⟩
  | .outside e => (env s.world e).map fun w ↦ ⟨w, s.prog⟩

variable {m : W → C → X → Option (W × A)} {env : W → E → Option W} {s s' t : State W ι C A R}
  {i : ι} {x : X} {e : E} {as : List (ProgAct ι X E)}

theorem progStep_turn_iff : progStep m env s (.turn i x) = some s' ↔
    ∃ c k w a, s.prog i = .call c k ∧ m s.world c x = some (w, a) ∧
      s' = ⟨w, Function.update s.prog i (k a)⟩ := by
  rw [progStep]
  cases hp : s.prog i with
  | ret r => simp
  | call c k =>
    simp only [Option.map_eq_some_iff, Prod.exists]
    constructor
    · rintro ⟨w, a, hm, rfl⟩
      exact ⟨c, k, w, a, rfl, hm, rfl⟩
    · rintro ⟨c', k', w, a, hcall, hm, rfl⟩
      obtain ⟨rfl, rfl⟩ := Prog.call.inj hcall
      exact ⟨w, a, hm, rfl⟩

theorem progStep_outside_iff : progStep m env s (.outside e) = some s' ↔
    ∃ w, env s.world e = some w ∧ s' = ⟨w, s.prog⟩ := by
  rw [progStep, Option.map_eq_some_iff]
  exact exists_congr fun w ↦ and_congr_right fun _ ↦ eq_comm

/-! ## One program alone -/

/-- The whole program, with a choice for each call. -/
def exec (m : W → C → X → Option (W × A)) (w : W) : Prog C A R → List X → Option (W × R)
  | .ret r, [] => some (w, r)
  | .ret _, _ :: _ => none
  | .call _ _, [] => none
  | .call c k, x :: xs => (m w c x).bind fun r ↦ exec m r.1 (k r.2) xs

theorem run_of_exec {p : Prog C A R} {xs : List X} {w : W} {r : R} (hp : s.prog i = p)
    (h : exec m s.world p xs = some (w, r)) :
    run (progStep m env) s (xs.map (ProgAct.turn i)) =
      some ⟨w, Function.update s.prog i (.ret r)⟩ := by
  induction xs generalizing s p with
  | nil =>
    cases p with
    | ret r' =>
      obtain ⟨rfl, rfl⟩ := Prod.mk.inj (Option.some.inj h)
      rw [List.map_nil, run_nil, ← hp, Function.update_eq_self]
    | call c k => cases h
  | cons x xs ih =>
    cases p with
    | ret r' => cases h
    | call c k =>
      rw [exec, Option.bind_eq_some_iff] at h
      obtain ⟨⟨w', a⟩, hm, hrest⟩ := h
      rw [List.map_cons, run_cons_iff]
      refine ⟨_, progStep_turn_iff.mpr ⟨c, k, w', a, hp, hm, rfl⟩, ?_⟩
      have hrun := @ih ⟨w', Function.update s.prog i (k a)⟩ (k a)
        (Function.update_self i (k a) s.prog) hrest
      rwa [Function.update_idem] at hrun

/-! ## What is true of every program stays true -/

theorem forall_prog_step {P : ι → Prog C A R → Prop}
    (hP : ∀ i c k a, P i (.call c k) → P i (k a)) (h : ∀ i, P i (s.prog i)) {a : ProgAct ι X E}
    (hstep : progStep m env s a = some s') : ∀ i, P i (s'.prog i) := by
  cases a with
  | turn i x =>
    obtain ⟨c, k, w, a, hp, -, rfl⟩ := progStep_turn_iff.mp hstep
    intro j
    by_cases hj : j = i
    · subst hj
      show P j (Function.update s.prog j (k a) j)
      rw [Function.update_self]
      exact hP j c k a (hp ▸ h j)
    · show P j (Function.update s.prog i (k a) j)
      rw [Function.update_of_ne hj]
      exact h j
  | outside e =>
    obtain ⟨w, -, rfl⟩ := progStep_outside_iff.mp hstep
    exact h

theorem forall_all_step {P : ι → C → Prop} (h : ∀ i, (s.prog i).All (P i)) {a : ProgAct ι X E}
    (hstep : progStep m env s a = some s') : ∀ i, (s'.prog i).All (P i) :=
  forall_prog_step (fun _ _ _ a hk ↦ hk.2 a) h hstep

/-- How often a program takes a step. -/
def turns (i : ι) (as : List (ProgAct ι X E)) : ℕ :=
  as.countP fun
    | .turn j _ => j = i
    | .outside _ => false

/-- **The number of calls.** -/
theorem turns_le {n : ℕ} (h : (s.prog i).Within n) (hrun : run (progStep m env) s as = some t) :
    turns i as ≤ n := by
  induction as generalizing s n with
  | nil => exact Nat.zero_le n
  | cons a as ih =>
    obtain ⟨s₁, hs₁, hrest⟩ := run_cons_iff.mp hrun
    rw [turns, List.countP_cons, ← turns]
    cases a with
    | outside e =>
      obtain ⟨w, -, rfl⟩ := progStep_outside_iff.mp hs₁
      have hle := @ih ⟨w, s.prog⟩ n h hrest
      simpa using hle
    | turn j x =>
      obtain ⟨c, k, w, a, hp, -, rfl⟩ := progStep_turn_iff.mp hs₁
      by_cases hj : j = i
      · subst hj
        rw [hp] at h
        cases n with
        | zero => exact absurd h id
        | succ n =>
          have hle := ih (n := n) (by
            show Prog.Within (Function.update s.prog j (k a) j) n
            rw [Function.update_self]
            exact h a) hrest
          simpa using hle
      · have hle := ih (n := n) (by
          show Prog.Within (Function.update s.prog j (k a) i) n
          rwa [Function.update_of_ne (Ne.symm hj)]) hrest
        simpa [hj] using hle

/-! ## Two machines -/

/-- The call that comes next does the same in both machines. -/
def Alike (m : W → C → X → Option (W × A)) (m' : W → C' → X → Option (W × A)) (f : C → C')
    (s : State W ι C A R) : ProgAct ι X E → Prop
  | .turn i x => ∀ c k, s.prog i = .call c k → m s.world c x = m' s.world (f c) x
  | .outside _ => True

theorem progStep_map {m' : W → C' → X → Option (W × A)} {f : C → C'} {a : ProgAct ι X E}
    (h : Alike m m' f s a) :
    progStep m' env (s.map f) a = (progStep m env s a).map (State.map f) := by
  cases a with
  | turn i x =>
    show (match (s.prog i).map f with
      | .ret _ => none
      | .call c k => (m' s.world c x).map fun (r : W × A) ↦
        (⟨r.1, Function.update (s.map f).prog i (k r.2)⟩ : State W ι C' A R)) = _
    rw [progStep]
    cases hp : s.prog i with
    | ret r => rfl
    | call c k =>
      simp only [Prog.map, ← h c k hp, Option.map_map]
      refine Option.map_congr fun r _ ↦ congrArg (State.mk r.1) (funext fun j ↦ ?_)
      show Function.update (s.map f).prog i ((k r.2).map f) j =
        (Function.update s.prog i (k r.2) j).map f
      by_cases hj : j = i
      · subst hj
        rw [Function.update_self, Function.update_self]
      · rw [Function.update_of_ne hj, Function.update_of_ne hj]
        rfl
  | outside e =>
    rw [progStep, progStep, Option.map_map]
    rfl

/-- **Two machines.** Programs whose calls do the same go the same way. -/
theorem run_map {m' : W → C' → X → Option (W × A)} {f : C → C'}
    (h : AllSteps (progStep m env) (Alike m m' f) s as) :
    run (progStep m' env) (s.map f) as = (run (progStep m env) s as).map (State.map f) := by
  induction as generalizing s with
  | nil => rfl
  | cons a as ih =>
    rw [run, run, progStep_map h.1]
    cases hs : progStep m env s a with
    | none => rfl
    | some s' => exact ih (h.2 s' hs)

/-! ## A table of names -/

/-- The machine does to the table what its calls are said to do, and nothing else. -/
def Respects (m : W → C → X → Option (W × A)) (table : W → N → Option V)
    (use : C → Prog.Use N A) : Prop :=
  ∀ w c x w' a, m w c x = some (w', a) →
    match use c with
    | .nothing => table w' = table w
    | .acquire name => match name a with
      | none => table w' = table w
      | some n => table w n = none ∧ table w' n ≠ none ∧ ∀ l, l ≠ n → table w' l = table w l
    | .use _ => table w' = table w
    | .release n => table w' n = none ∧ ∀ l, l ≠ n → table w' l = table w l

/-- Each name in the table is as it was at the start, or is that of one program. -/
structure Owned (table : W → N → Option V) (use : C → Prog.Use N A) (base : N → Option V)
    (own : ι → Option N) (s : State W ι C A R) : Prop where
  tidy : ∀ i, (s.prog i).Tidy use (own i)
  apart : ∀ i j n, own i = some n → own j = some n → i = j
  entered : ∀ i n, own i = some n → base n = none ∧ table s.world n ≠ none
  others : ∀ n, (∀ i, own i ≠ some n) → table s.world n = base n

variable {table : W → N → Option V} {use : C → Prog.Use N A} {base : N → Option V}
  {own : ι → Option N}

/-- **One call.** The other programs keep their names, and what the table says of these. -/
theorem Owned.turn (h : Owned table use base own s) (hm : Respects m table use)
    (hstep : progStep m env s (.turn i x) = some s') :
    ∃ o, Owned table use base (Function.update own i o) s' ∧
      ∀ j n, j ≠ i → own j = some n → table s'.world n = table s.world n := by
  obtain ⟨c, k, w, a, hp, hcall, rfl⟩ := progStep_turn_iff.mp hstep
  have htidy := h.tidy i
  rw [hp, Prog.Tidy] at htidy
  have hkeep := hm s.world c x w a hcall
  -- the programs and the names after the call, whatever the program then has
  have hprogs : ∀ o, (k a).Tidy use o → ∀ j,
      (Function.update s.prog i (k a) j).Tidy use (Function.update own i o j) := by
    intro o ho j
    by_cases hj : j = i
    · subst hj
      rwa [Function.update_self, Function.update_self]
    · rw [Function.update_of_ne hj, Function.update_of_ne hj]
      exact h.tidy j
  -- a call that leaves the table alone
  have hsame : ∀ o, own i = o → (k a).Tidy use o → table w = table s.world →
      Owned table use base (Function.update own i o) ⟨w, Function.update s.prog i (k a)⟩ := by
    rintro o rfl ho htable
    have hprogs := hprogs _ ho
    rw [Function.update_eq_self] at hprogs ⊢
    exact ⟨hprogs, h.apart, fun j n hj ↦ htable ▸ h.entered j n hj, fun n hn ↦
      htable ▸ h.others n hn⟩
  cases huse : use c with
  | nothing =>
    simp only [huse] at htidy hkeep
    exact ⟨own i, hsame _ rfl (htidy a) hkeep, fun _ _ _ _ ↦ congrFun hkeep _⟩
  | use n =>
    simp only [huse] at htidy hkeep
    exact ⟨own i, hsame _ rfl (htidy.2 a) hkeep, fun _ _ _ _ ↦ congrFun hkeep _⟩
  | acquire name =>
    simp only [huse] at htidy hkeep
    obtain ⟨hnone, hk⟩ := htidy
    cases hname : name a with
    | none =>
      simp only [hname] at hkeep
      exact ⟨none, hsame none hnone (hname ▸ hk a) hkeep, fun _ _ _ _ ↦ congrFun hkeep _⟩
    | some n =>
      simp only [hname] at hkeep
      obtain ⟨hfree, hnew, hrest⟩ := hkeep
      -- the name was in use by nobody
      have hfresh : ∀ j, own j ≠ some n := fun j hj ↦ (h.entered j n hj).2 hfree
      refine ⟨some n, ⟨hprogs _ (hname ▸ hk a), ?_, ?_, ?_⟩, ?_⟩
      · intro j l q hj hl
        by_cases hji : j = i <;> by_cases hli : l = i
        · rw [hji, hli]
        · rw [hji, Function.update_self, Option.some_inj] at hj
          rw [Function.update_of_ne hli] at hl
          exact absurd (hj ▸ hl) (hfresh l)
        · rw [hli, Function.update_self, Option.some_inj] at hl
          rw [Function.update_of_ne hji] at hj
          exact absurd (hl ▸ hj) (hfresh j)
        · rw [Function.update_of_ne hji] at hj
          rw [Function.update_of_ne hli] at hl
          exact h.apart j l q hj hl
      · intro j q hj
        by_cases hji : j = i
        · rw [hji, Function.update_self, Option.some_inj] at hj
          subst hj
          exact ⟨(h.others n hfresh).symm.trans hfree, hnew⟩
        · rw [Function.update_of_ne hji] at hj
          have hq : q ≠ n := fun hq ↦ hfresh j (hq ▸ hj)
          exact ⟨(h.entered j q hj).1, by
            show table w q ≠ none
            rw [hrest q hq]
            exact (h.entered j q hj).2⟩
      · intro q hq
        have hqn : q ≠ n := fun hqn ↦ hq i (by rw [Function.update_self, hqn])
        refine (hrest q hqn).trans (h.others q fun j hj ↦ ?_)
        by_cases hji : j = i
        · rw [hji, hnone] at hj
          cases hj
        · exact hq j (by rwa [Function.update_of_ne hji])
      · exact fun j q _ hj ↦ hrest q fun hq ↦ hfresh j (hq ▸ hj)
  | release n =>
    simp only [huse] at htidy hkeep
    obtain ⟨hown, hk⟩ := htidy
    obtain ⟨hgone, hrest⟩ := hkeep
    refine ⟨none, ⟨hprogs _ (hk a), ?_, ?_, ?_⟩, ?_⟩
    · intro j l q hj hl
      by_cases hji : j = i
      · rw [hji, Function.update_self] at hj
        cases hj
      by_cases hli : l = i
      · rw [hli, Function.update_self] at hl
        cases hl
      rw [Function.update_of_ne hji] at hj
      rw [Function.update_of_ne hli] at hl
      exact h.apart j l q hj hl
    · intro j q hj
      by_cases hji : j = i
      · rw [hji, Function.update_self] at hj
        cases hj
      rw [Function.update_of_ne hji] at hj
      have hq : q ≠ n := fun hq ↦ hji (h.apart j i n (hq ▸ hj) hown)
      exact ⟨(h.entered j q hj).1, by
        show table w q ≠ none
        rw [hrest q hq]
        exact (h.entered j q hj).2⟩
    · intro q hq
      by_cases hqn : q = n
      · rw [hqn]
        exact hgone.trans (h.entered i n hown).1.symm
      · refine (hrest q hqn).trans (h.others q fun j hj ↦ ?_)
        by_cases hji : j = i
        · rw [hji, hown, Option.some_inj] at hj
          exact hqn hj.symm
        · exact hq j (by rwa [Function.update_of_ne hji])
    · intro j q hji hj
      exact hrest q fun hq ↦ hji (h.apart j i n (hq ▸ hj) hown)

theorem Owned.outside (h : Owned table use base own s)
    (henv : ∀ w e w', env w e = some w' → table w' = table w)
    (hstep : progStep m env s (.outside e) = some s') : Owned table use base own s' := by
  obtain ⟨w, hw, rfl⟩ := progStep_outside_iff.mp hstep
  have htable := henv _ _ _ hw
  exact ⟨h.tidy, h.apart, fun j n hj ↦ htable ▸ h.entered j n hj, fun n hn ↦
    htable ▸ h.others n hn⟩

omit [DecidableEq ι] in
theorem owned_start (hown : ∀ i, (s.prog i).Tidy use none) :
    Owned table use (table s.world) (fun _ ↦ none) s :=
  ⟨hown, fun i _ n hi ↦ absurd hi (by simp), fun i n hi ↦ absurd hi (by simp), fun _ _ ↦ rfl⟩

/-- **Every run.** -/
theorem owned_of_run (hm : Respects m table use)
    (henv : ∀ w e w', env w e = some w' → table w' = table w)
    (h : ∀ i, (s.prog i).Tidy use none) (hrun : run (progStep m env) s as = some t) :
    ∃ own, Owned table use (table s.world) own t := by
  refine @run_invariant _ _ _ _ _ _ (fun _ t ↦ ∃ own, Owned table use (table s.world) own t)
    ⟨_, owned_start h⟩ ?_ hrun
  rintro - s₁ a s₂ ⟨own, hown⟩ hstep
  cases a with
  | turn i x =>
    obtain ⟨o, ho, -⟩ := hown.turn hm hstep
    exact ⟨_, ho⟩
  | outside e => exact ⟨own, hown.outside henv hstep⟩

omit [DecidableEq ι] in
theorem Owned.next (h : Owned table use base own s) {c : C} {k : A → Prog C A R} {n : N}
    (hp : s.prog i = .call c k) (hc : use c = .use n ∨ use c = .release n) :
    own i = some n ∧ base n = none ∧ table s.world n ≠ none ∧ ∀ j, own j = some n → j = i := by
  have htidy := h.tidy i
  have hown : own i = some n := by
    rw [hp, Prog.Tidy] at htidy
    rcases hc with hc | hc
    · simp only [hc] at htidy
      exact htidy.1
    · simp only [hc] at htidy
      exact htidy.1
  exact ⟨hown, (h.entered i n hown).1, (h.entered i n hown).2, fun j hj ↦ h.apart j i n hj hown⟩

end Programs
