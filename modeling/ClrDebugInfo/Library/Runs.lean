import Mathlib.Data.List.Induction
import Mathlib.Logic.Basic

/-!
# Runs of a deterministic step function

A system whose nondeterminism is in its labels: `step s a` is the state after the action `a`, or
`none` if `a` is not possible in `s`. A run is a list of actions.

Safety statements come in two shapes. A statement about the states reached is an invariant; a
statement about the steps taken, or about a run all of whose steps meet a condition, is
`AllSteps`. Both reduce to what one step preserves (`run_invariant`, `AllSteps.of_invariant`).
-/

namespace Runs

variable {S A : Type*} {step : S → A → Option S} {s s' t : S} {a : A} {as bs : List A}

/-- The state after the actions `as`, if they are possible one after the other. -/
def run (step : S → A → Option S) : S → List A → Option S
  | s, [] => some s
  | s, a :: as => (step s a).bind fun s' ↦ run step s' as

@[simp] theorem run_nil (step : S → A → Option S) (s : S) : run step s [] = some s := rfl

theorem run_singleton : run step s [a] = step s a := by
  rw [run]
  exact Option.bind_fun_some _

theorem run_cons_iff : run step s (a :: as) = some t ↔
    ∃ s', step s a = some s' ∧ run step s' as = some t := by
  rw [run, Option.bind_eq_some_iff]

theorem run_append_iff : run step s (as ++ bs) = some t ↔
    ∃ s', run step s as = some s' ∧ run step s' bs = some t := by
  induction as generalizing s with
  | nil => simp
  | cons a as ih =>
    rw [List.cons_append, run_cons_iff]
    constructor
    · rintro ⟨s₁, hs₁, hrest⟩
      obtain ⟨s', has, hbs⟩ := ih.mp hrest
      exact ⟨s', run_cons_iff.mpr ⟨s₁, hs₁, has⟩, hbs⟩
    · rintro ⟨s', has, hbs⟩
      obtain ⟨s₁, hs₁, has⟩ := run_cons_iff.mp has
      exact ⟨s₁, hs₁, ih.mpr ⟨s', has, hbs⟩⟩

theorem run_concat_iff : run step s (as ++ [a]) = some t ↔
    ∃ s', run step s as = some s' ∧ step s' a = some t := by
  rw [run_append_iff]
  simp [run]

/-! ## Invariants -/

/-- **The invariant rule.** The invariant may look at the actions so far. -/
theorem run_invariant {I : List A → S → Prop} (h0 : I [] s)
    (hstep : ∀ as s a s', I as s → step s a = some s' → I (as ++ [a]) s')
    (hrun : run step s as = some t) : I as t := by
  induction as using List.reverseRecOn generalizing t with
  | nil =>
    rw [run_nil, Option.some_inj] at hrun
    rwa [← hrun]
  | append_singleton as a ih =>
    obtain ⟨s', has, ha⟩ := run_concat_iff.mp hrun
    exact hstep as s' a t (ih has) ha

/-- **The progress rule.** A run that meets `C` all along exists if its steps do. -/
theorem run_total {I : List A → S → Prop} {C : List A → Prop} (h0 : I [] s)
    (hpre : ∀ as a, C (as ++ [a]) → C as)
    (hstep : ∀ as s a, C (as ++ [a]) → I as s → ∃ s', step s a = some s' ∧ I (as ++ [a]) s')
    (hC : C as) : ∃ t, run step s as = some t ∧ I as t := by
  induction as using List.reverseRecOn with
  | nil => exact ⟨s, rfl, h0⟩
  | append_singleton as a ih =>
    obtain ⟨s', hrun, hI⟩ := ih (hpre as a hC)
    obtain ⟨t, ht, hI'⟩ := hstep as s' a hC hI
    exact ⟨t, run_concat_iff.mpr ⟨s', hrun, ht⟩, hI'⟩

/-! ## Statements about every step of a run -/

/-- Every step of the run of `as` from `s` satisfies `C` of the state before it. -/
def AllSteps (step : S → A → Option S) (C : S → A → Prop) : S → List A → Prop
  | _, [] => True
  | s, a :: as => C s a ∧ ∀ s', step s a = some s' → AllSteps step C s' as

variable {C P : S → A → Prop}

@[simp] theorem allSteps_nil : AllSteps step C s [] := trivial

theorem AllSteps.cons (hC : C s a) (hs : step s a = some s') (h : AllSteps step C s' as) :
    AllSteps step C s (a :: as) := by
  refine ⟨hC, fun t ht ↦ ?_⟩
  obtain rfl := Option.some.inj (hs.symm.trans ht)
  exact h

/-- A condition on every step that can be computed. -/
def checkSteps (step : S → A → Option S) (c : S → A → Bool) : S → List A → Bool
  | _, [] => true
  | s, a :: as => c s a && (step s a).all fun s' ↦ checkSteps step c s' as

theorem AllSteps.of_check {c : S → A → Bool} (h : checkSteps step c s as = true)
    (hC : ∀ s a, c s a = true → C s a) : AllSteps step C s as := by
  induction as generalizing s with
  | nil => trivial
  | cons a as ih =>
    obtain ⟨ha, hrest⟩ := (Bool.and_eq_true _ _).mp h
    exact ⟨hC s a ha, fun s' hs' ↦ ih ((Option.all_eq_true _ _).mp hrest s' hs')⟩

theorem AllSteps.of_forall_mem (h : ∀ a ∈ as, ∀ s, C s a) : AllSteps step C s as := by
  induction as generalizing s with
  | nil => trivial
  | cons a as ih =>
    exact ⟨h a List.mem_cons_self s, fun s' _ ↦ ih fun b hb ↦ h b (List.mem_cons_of_mem a hb)⟩

theorem AllSteps.and (h : AllSteps step C s as) (h' : AllSteps step P s as) :
    AllSteps step (fun s a ↦ C s a ∧ P s a) s as := by
  induction as generalizing s with
  | nil => trivial
  | cons a as ih => exact ⟨⟨h.1, h'.1⟩, fun s' hs' ↦ ih (h.2 s' hs') (h'.2 s' hs')⟩

theorem AllSteps.mono (h : AllSteps step C s as) (himp : ∀ s a, C s a → P s a) :
    AllSteps step P s as := by
  induction as generalizing s with
  | nil => trivial
  | cons a as ih => exact ⟨himp s a h.1, fun s' hs' ↦ ih (h.2 s' hs')⟩

theorem AllSteps.of_prefix (h : AllSteps step C s as) (hbs : bs <+: as) :
    AllSteps step C s bs := by
  induction bs generalizing s as with
  | nil => trivial
  | cons b bs ih =>
    obtain ⟨cs, rfl⟩ := hbs
    exact ⟨h.1, fun s' hs' ↦ ih (h.2 s' hs') (List.prefix_append bs cs)⟩

theorem AllSteps.append (h : AllSteps step C s as)
    (h' : ∀ t, run step s as = some t → AllSteps step C t bs) : AllSteps step C s (as ++ bs) := by
  induction as generalizing s with
  | nil => exact h' s rfl
  | cons a as ih =>
    exact ⟨h.1, fun s' hs' ↦ ih (h.2 s' hs') fun t ht ↦ h' t (run_cons_iff.mpr ⟨s', hs', ht⟩)⟩

theorem AllSteps.of_append (h : AllSteps step C s (as ++ bs)) (hrun : run step s as = some t) :
    AllSteps step C t bs := by
  induction as generalizing s with
  | nil =>
    rw [run_nil, Option.some_inj] at hrun
    exact hrun ▸ h
  | cons a as ih =>
    obtain ⟨s₁, hs₁, hrest⟩ := run_cons_iff.mp hrun
    exact ih (h.2 s₁ hs₁) hrest

theorem AllSteps.of_split (h : ∀ b ∈ as ++ bs, ∀ s, C s b)
    (ha : ∀ t, run step s as = some t → C t a) : AllSteps step C s (as ++ a :: bs) := by
  refine AllSteps.append (AllSteps.of_forall_mem fun b hb ↦ h b (List.mem_append_left _ hb))
    fun t ht ↦ ⟨ha t ht, fun s' _ ↦ ?_⟩
  exact AllSteps.of_forall_mem fun b hb ↦ h b (List.mem_append_right _ hb)

theorem AllSteps.of_run (hrun : run step s as = some t) :
    AllSteps step (fun s a ↦ step s a ≠ none) s as := by
  induction as generalizing s with
  | nil => trivial
  | cons a as ih =>
    obtain ⟨s₁, hs₁, hrest⟩ := run_cons_iff.mp hrun
    refine ⟨by simp [hs₁], fun s' hs' ↦ ?_⟩
    obtain rfl := Option.some.inj (hs₁.symm.trans hs')
    exact ih hrest

theorem AllSteps.at (h : AllSteps step C s (as ++ a :: bs)) (hrun : run step s as = some t) :
    C t a :=
  (h.of_append hrun).1

/-- **The conditional invariant rule.** Under a condition on the steps, an invariant that those
steps keep gives a property of each of them. -/
theorem AllSteps.of_invariant {I : S → Prop} (h : AllSteps step C s as) (h0 : I s)
    (hstep : ∀ s a s', I s → C s a → step s a = some s' → I s')
    (hprop : ∀ s a, I s → C s a → P s a) : AllSteps step P s as := by
  induction as generalizing s with
  | nil => trivial
  | cons a as ih =>
    exact ⟨hprop s a h0 h.1, fun s' hs' ↦ ih (h.2 s' hs') (hstep s a s' h0 h.1 hs')⟩

theorem AllSteps.run_invariant {I : S → Prop} (h : AllSteps step C s as) (h0 : I s)
    (hstep : ∀ s a s', I s → C s a → step s a = some s' → I s')
    (hrun : run step s as = some t) : I t := by
  induction as generalizing s with
  | nil =>
    rw [run_nil, Option.some_inj] at hrun
    rwa [← hrun]
  | cons a as ih =>
    obtain ⟨s₁, hs₁, hrest⟩ := run_cons_iff.mp hrun
    exact ih (h.2 s₁ hs₁) (hstep s a s₁ h0 h.1 hs₁) hrest

/-- **Two systems.** Steps that do the same in both, under a condition and as long as an invariant
holds, make up the same runs. -/
theorem AllSteps.run_eq {step' : S → A → Option S} {I : S → Prop} (h : AllSteps step C s as)
    (h0 : I s) (hstep : ∀ s a s', I s → C s a → step s a = some s' → I s')
    (heq : ∀ s a, I s → C s a → step s a = step' s a) : run step s as = run step' s as := by
  induction as generalizing s with
  | nil => rfl
  | cons a as ih =>
    rw [run, run, ← heq s a h0 h.1]
    cases hs : step s a with
    | none => rfl
    | some s' => exact ih (h.2 s' hs) (hstep s a s' h0 h.1 hs)

/-- **The exact condition on the steps.** All steps meet `D`. If those that meet `C` too are
possible and keep an invariant that gives `Q`, and the others end `Q`, then the run meets `C` all
along exactly if it is possible and `Q` holds all along. -/
theorem AllSteps.iff_of_invariant {D : S → A → Prop} {I Q : S → Prop} (hD : AllSteps step D s as)
    (h0 : I s) (hstep : ∀ s a, I s → D s a → C s a → ∃ s', step s a = some s' ∧ I s')
    (hprop : ∀ s, I s → Q s)
    (hfail : ∀ s a s', I s → D s a → ¬C s a → step s a = some s' → ¬Q s') :
    AllSteps step C s as ↔ ∀ bs, bs <+: as → ∃ t, run step s bs = some t ∧ Q t := by
  induction as generalizing s with
  | nil =>
    refine iff_of_true trivial fun bs hbs ↦ ?_
    rw [List.prefix_nil.mp hbs]
    exact ⟨s, rfl, hprop s h0⟩
  | cons a as ih =>
    obtain ⟨hDa, hD⟩ := hD
    constructor
    · rintro ⟨hC, hrest⟩ bs hbs
      obtain ⟨s', hs', hI⟩ := hstep s a h0 hDa hC
      rcases List.prefix_cons_iff.mp hbs with rfl | ⟨cs, rfl, hcs⟩
      · exact ⟨s, rfl, hprop s h0⟩
      · obtain ⟨t, ht, hQ⟩ := (ih (hD s' hs') hI).mp (hrest s' hs') cs hcs
        exact ⟨t, run_cons_iff.mpr ⟨s', hs', ht⟩, hQ⟩
    · intro h
      obtain ⟨t, ht, hQ⟩ := h [a] (List.cons_prefix_cons.mpr ⟨rfl, List.nil_prefix⟩)
      obtain ⟨s₁, hs₁, hnil⟩ := run_cons_iff.mp ht
      obtain rfl := Option.some.inj hnil
      have hC : C s a := by
        by_contra hC
        exact hfail s a s₁ h0 hDa hC hs₁ hQ
      obtain ⟨s', hs', hI⟩ := hstep s a h0 hDa hC
      obtain rfl := Option.some.inj (hs₁.symm.trans hs')
      refine ⟨hC, fun s' hs' ↦ ?_⟩
      obtain rfl := Option.some.inj (hs₁.symm.trans hs')
      refine (ih (hD _ hs₁) hI).mpr fun cs hcs ↦ ?_
      obtain ⟨t, ht, hQ⟩ := h (a :: cs) (List.cons_prefix_cons.mpr ⟨rfl, hcs⟩)
      obtain ⟨s', hs', hrest⟩ := run_cons_iff.mp ht
      obtain rfl := Option.some.inj (hs₁.symm.trans hs')
      exact ⟨t, hrest, hQ⟩

theorem allSteps_iff_of_invariant {I Q : S → Prop} (h0 : I s)
    (hstep : ∀ s a, I s → C s a → ∃ s', step s a = some s' ∧ I s')
    (hprop : ∀ s, I s → Q s)
    (hfail : ∀ s a s', I s → ¬C s a → step s a = some s' → ¬Q s') :
    AllSteps step C s as ↔ ∀ bs, bs <+: as → ∃ t, run step s bs = some t ∧ Q t :=
  AllSteps.iff_of_invariant (AllSteps.of_forall_mem fun _ _ _ ↦ trivial)
    h0 (fun s a hI (_ : True) ↦ hstep s a hI) hprop fun s a s' hI (_ : True) ↦ hfail s a s' hI

/-! ## What has happened since -/

/-- A step that meets `C` was taken in the run, and every state since then meets `Q`. -/
def Since (step : S → A → Option S) (C : S → A → Prop) (Q : S → Prop) (s : S) (as : List A) :
    Prop :=
  ∃ bs a cs t, as = bs ++ a :: cs ∧ run step s bs = some t ∧ C t a ∧
    ∀ ds, ds <+: cs → ∀ u, run step s (bs ++ a :: ds) = some u → Q u

theorem Since.of_step {Q : S → Prop} (hrun : run step s as = some t) (hC : C t a)
    (hQ : ∀ u, step t a = some u → Q u) : Since step C Q s (as ++ [a]) := by
  refine ⟨as, a, [], t, rfl, hrun, hC, fun ds hds u hu ↦ ?_⟩
  rw [List.prefix_nil.mp hds] at hu
  obtain ⟨t', ht', ha⟩ := run_concat_iff.mp hu
  obtain rfl := Option.some.inj (hrun.symm.trans ht')
  exact hQ u ha

theorem Since.concat {Q : S → Prop} (h : Since step C Q s as)
    (hQ : ∀ u, run step s (as ++ [a]) = some u → Q u) : Since step C Q s (as ++ [a]) := by
  obtain ⟨bs, b, cs, t, rfl, hrun, hC, hsince⟩ := h
  refine ⟨bs, b, cs ++ [a], t, by simp, hrun, hC, fun ds hds u hu ↦ ?_⟩
  rcases List.prefix_concat_iff.mp hds with rfl | hds
  · exact hQ u (by simpa using hu)
  · exact hsince ds hds u hu

/-! ## Two levels -/

/-- What a run is at another level: each action stands for one there, or for none. -/
def trace {B : Type*} (step : S → A → Option S) (label : S → A → Option B) : S → List A → List B
  | _, [] => []
  | s, a :: as => (label s a).toList ++ (step s a).elim [] fun s' ↦ trace step label s' as

theorem trace_cons {B : Type*} {label : S → A → Option B} (h : step s a = some s') (as : List A) :
    trace step label s (a :: as) = (label s a).toList ++ trace step label s' as := by
  rw [trace, h, Option.elim_some]

/-- **The simulation rule.** If, under a condition, what each step stands for is a step between
related states of the other system, then what a run stands for is a run of it. -/
theorem AllSteps.run_trace_rel {T B : Type*} {step' : T → B → Option T} {label : S → A → Option B}
    {R : S → T → Prop} {u : T} (h : AllSteps step C s as) (hR : R s u)
    (hstep : ∀ s a s' u, R s u → C s a → step s a = some s' →
      ∃ u', R s' u' ∧ run step' u (label s a).toList = some u')
    (hrun : run step s as = some t) :
    ∃ u', run step' u (trace step label s as) = some u' ∧ R t u' := by
  induction as generalizing s u with
  | nil =>
    rw [run_nil, Option.some_inj] at hrun
    exact ⟨u, rfl, hrun ▸ hR⟩
  | cons a as ih =>
    obtain ⟨s₁, hs₁, hrest⟩ := run_cons_iff.mp hrun
    obtain ⟨u₁, hR₁, hu₁⟩ := hstep s a s₁ u hR h.1 hs₁
    obtain ⟨u', hu', hR'⟩ := ih (h.2 s₁ hs₁) hR₁ hrest
    rw [trace_cons hs₁]
    exact ⟨u', run_append_iff.mpr ⟨u₁, hu₁, hu'⟩, hR'⟩

theorem AllSteps.run_trace {T B : Type*} {step' : T → B → Option T} {label : S → A → Option B}
    {I : S → Prop} (f : S → T) (h : AllSteps step C s as) (h0 : I s)
    (hstep : ∀ s a s', I s → C s a → step s a = some s' →
      I s' ∧ run step' (f s) (label s a).toList = some (f s'))
    (hrun : run step s as = some t) :
    run step' (f s) (trace step label s as) = some (f t) := by
  obtain ⟨_, hu, -, rfl⟩ := h.run_trace_rel (R := fun s u ↦ I s ∧ u = f s) ⟨h0, rfl⟩ (by
    rintro s a s' _ ⟨hI, rfl⟩ hC hs
    obtain ⟨hI', hsim⟩ := hstep s a s' hI hC hs
    exact ⟨f s', ⟨hI', rfl⟩, hsim⟩) hrun
  exact hu

end Runs
