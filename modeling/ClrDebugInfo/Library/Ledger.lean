import Mathlib.Data.List.Nodup
import Mathlib.Logic.Function.Basic
import ClrDebugInfo.Library.Runs

/-!
# Ledgers of resources

A thread acquires, uses and releases resources: memory, descriptors, handles. What is live is what
was acquired and not released. To use or to release what is not live is a fault; that nothing is
acquired which is live is a promise of the system that gives the resources out.

`wp ops Q live` says of the operations of one thread that, when it owns `live`, none is a fault and
what it owns in the end meets `Q`, if the system keeps its promise (`wp_iff_inTurn`). The rule of
interleaving (`interleave_inOrder`): where this holds of every thread for itself, it holds of them
all together, in any order of their steps, although the system may give to one thread what another
has released.
-/

namespace Ledger

open Runs

/-! ## One thread -/

inductive Op (R : Type*) where
  | acquire (r : R)
  | use (r : R)
  | release (r : R)

variable {R : Type*} [DecidableEq R]

/-- What is live after an operation. -/
def step (live : List R) : Op R → Option (List R)
  | .acquire r => if r ∈ live then none else some (r :: live)
  | .use r => if r ∈ live then some live else none
  | .release r => if r ∈ live then some (live.erase r) else none

/-- The weakest precondition. -/
def wp : List (Op R) → (List R → Prop) → List R → Prop
  | [], Q, live => Q live
  | .acquire r :: ops, Q, live => r ∉ live → wp ops Q (r :: live)
  | .use r :: ops, Q, live => r ∈ live ∧ wp ops Q live
  | .release r :: ops, Q, live => r ∈ live ∧ wp ops Q (live.erase r)

variable {ops ops' : List (Op R)} {op : Op R} {Q : List R → Prop} {live live' : List R} {r : R}

@[simp] theorem wp_nil : wp [] Q live ↔ Q live := Iff.rfl

@[simp] theorem wp_acquire : wp (.acquire r :: ops) Q live ↔ (r ∉ live → wp ops Q (r :: live)) :=
  Iff.rfl

@[simp] theorem wp_use : wp (.use r :: ops) Q live ↔ r ∈ live ∧ wp ops Q live := Iff.rfl

@[simp] theorem wp_release :
    wp (.release r :: ops) Q live ↔ r ∈ live ∧ wp ops Q (live.erase r) := Iff.rfl

theorem wp_uses (h : ∀ op ∈ ops, ∃ r ∈ live, op = .use r) :
    wp (ops ++ ops') Q live ↔ wp ops' Q live := by
  induction ops with
  | nil => rfl
  | cons op ops ih =>
    obtain ⟨r, hr, rfl⟩ := h op List.mem_cons_self
    rw [List.cons_append, wp_use, and_iff_right hr]
    exact ih fun op hop ↦ h op (List.mem_cons_of_mem _ hop)

theorem of_wp_uses (h : ∀ op ∈ ops, ∃ r, op = .use r) (hwp : wp (ops ++ ops') Q live) :
    wp ops' Q live := by
  induction ops with
  | nil => exact hwp
  | cons op ops ih =>
    obtain ⟨r, rfl⟩ := h op List.mem_cons_self
    exact ih (fun op hop ↦ h op (List.mem_cons_of_mem _ hop)) hwp.2

theorem wp_step (h : wp (op :: ops) Q live) :
    (∃ live', step live op = some live' ∧ wp ops Q live') ∨ ∃ r ∈ live, op = .acquire r := by
  cases op with
  | acquire r =>
    by_cases hr : r ∈ live
    · exact .inr ⟨r, hr, rfl⟩
    · exact .inl ⟨r :: live, if_neg hr, h hr⟩
  | use r => exact .inl ⟨live, if_pos h.1, h.2⟩
  | release r => exact .inl ⟨live.erase r, if_pos h.1, h.2⟩

/-- What comes next is no fault; if nothing comes, what is live meets `Q`. -/
def InTurn (Q : List R → Prop) (live : List R) : List (Op R) → Prop
  | [] => Q live
  | op :: _ => (∃ r ∈ live, op = .acquire r) ∨ ∃ live', step live op = some live'

/-- **What the weakest precondition says**: wherever a thread that runs alone has come to, what
comes next is in order. -/
theorem wp_iff_inTurn : wp ops Q live ↔ ∀ done todo live', ops = done ++ todo →
    run step live done = some live' → InTurn Q live' todo := by
  induction ops generalizing live with
  | nil =>
    constructor
    · rintro h done todo live' hsplit hrun
      obtain ⟨rfl, rfl⟩ := List.append_eq_nil_iff.mp hsplit.symm
      obtain rfl := Option.some.inj hrun
      exact h
    · exact fun h ↦ h [] [] live rfl rfl
  | cons op ops ih =>
    constructor
    · intro h done todo live' hsplit hrun
      rcases wp_step h with ⟨live₁, hlive₁, hrest⟩ | hpromise
      · cases done with
        | nil =>
          obtain rfl := Option.some.inj hrun
          rw [← (show op :: ops = todo from hsplit)]
          exact .inr ⟨live₁, hlive₁⟩
        | cons op' done =>
          obtain ⟨rfl, hsplit'⟩ := List.cons.inj hsplit
          obtain ⟨live₂, hlive₂, hrun'⟩ := run_cons_iff.mp hrun
          obtain rfl := Option.some.inj (hlive₁.symm.trans hlive₂)
          exact ih.mp hrest done todo live' hsplit' hrun'
      · obtain ⟨r, hr, rfl⟩ := hpromise
        cases done with
        | nil =>
          obtain rfl := Option.some.inj hrun
          rw [← (show .acquire r :: ops = todo from hsplit)]
          exact .inl ⟨r, hr, rfl⟩
        | cons op' done =>
          obtain ⟨rfl, -⟩ := List.cons.inj hsplit
          obtain ⟨live₂, hlive₂, -⟩ := run_cons_iff.mp hrun
          rw [step, if_pos hr] at hlive₂
          exact absurd hlive₂ (by simp)
    · intro h
      have hrest : ∀ live₁, step live op = some live₁ → wp ops Q live₁ := by
        intro live₁ hlive₁
        refine ih.mpr fun done todo live' hsplit hrun ↦ ?_
        exact h (op :: done) todo live' (by rw [hsplit, List.cons_append])
          (run_cons_iff.mpr ⟨live₁, hlive₁, hrun⟩)
      have hnow := h [] (op :: ops) live rfl rfl
      cases op with
      | acquire r => exact fun hr ↦ hrest _ (if_neg hr)
      | use r =>
        have hr : r ∈ live := by
          by_contra hr
          simp [InTurn, step, hr] at hnow
        exact ⟨hr, hrest _ (if_pos hr)⟩
      | release r =>
        have hr : r ∈ live := by
          by_contra hr
          simp [InTurn, step, hr] at hnow
        exact ⟨hr, hrest _ (if_pos hr)⟩

/-! ## Operations that acquire nothing -/

/-- How much is released. -/
def releases : List (Op R) → ℕ
  | [] => 0
  | .release _ :: ops => releases ops + 1
  | _ :: ops => releases ops

variable {left : List R}

theorem length_of_wp (hfree : ∀ r, .acquire r ∉ ops) (h : wp ops (· = left) live) :
    live.length = left.length + releases ops := by
  induction ops generalizing live with
  | nil => exact congrArg List.length h
  | cons op ops ih =>
    have hfree' : ∀ r, .acquire r ∉ ops := fun r hr ↦ hfree r (List.mem_cons_of_mem op hr)
    cases op with
    | acquire r => exact absurd List.mem_cons_self (hfree r)
    | use r => exact ih hfree' h.2
    | release r =>
      have hlen := ih hfree' h.2
      rw [List.length_erase_of_mem h.1] at hlen
      have hpos := List.length_pos_of_mem h.1
      rw [releases]
      omega

/-- **One release too many**, of whatever it is, spoils what comes after. -/
theorem not_wp_release (hfree : ∀ r, .acquire r ∉ ops) (h : wp ops (· = left) live) (r : R) :
    ¬wp (.release r :: ops) (· = left) live := by
  rintro ⟨hr, hrest⟩
  have hlen := length_of_wp hfree h
  have hlen' := length_of_wp hfree hrest
  rw [List.length_erase_of_mem hr] at hlen'
  have hpos := List.length_pos_of_mem hr
  omega

/-! ## Many threads -/

variable {ι : Type*} [DecidableEq ι]

/-- What the threads have still to do, and what is live. -/
structure Threads (ι R : Type*) where
  todo : ι → List (Op R)
  live : List R

/-- The next operation of a thread. It is not possible if it is a fault, or if the system would have
to break its promise. -/
def interleave (s : Threads ι R) (i : ι) : Option (Threads ι R) :=
  match s.todo i with
  | [] => none
  | op :: ops => (step s.live op).map fun live ↦ ⟨Function.update s.todo i ops, live⟩

/-- Each thread owns what it has acquired, and nothing is owned by two. -/
structure Owned (Q : ι → List R → Prop) (s : Threads ι R) (own : ι → List R) : Prop where
  wp : ∀ i, wp (s.todo i) (Q i) (own i)
  live : ∀ r, r ∈ s.live ↔ ∃ i, r ∈ own i
  apart : ∀ i j r, r ∈ own i → r ∈ own j → i = j
  nodup : s.live.Nodup
  nodup_own : ∀ i, (own i).Nodup

variable {P : ι → List R → Prop} {s s' : Threads ι R} {own : ι → List R} {i : ι}

theorem Owned.update {own' live' : List R} (h : Owned P s own) (hwp : Ledger.wp ops (P i) own')
    (hlive : ∀ r, r ∈ live' ↔ r ∈ own' ∨ ∃ j, j ≠ i ∧ r ∈ own j)
    (hapart : ∀ r ∈ own', ∀ j, j ≠ i → r ∉ own j) (hnodup : live'.Nodup) (hown : own'.Nodup) :
    Owned P ⟨Function.update s.todo i ops, live'⟩ (Function.update own i own') := by
  have hother : ∀ j, j ≠ i → Function.update own i own' j = own j := fun j hj ↦
    Function.update_of_ne hj _ _
  constructor
  · intro j
    by_cases hj : j = i
    · subst hj
      simpa using hwp
    · simpa [hj] using h.wp j
  · intro r
    rw [hlive]
    constructor
    · rintro (hr | ⟨j, hj, hr⟩)
      · exact ⟨i, by simpa using hr⟩
      · exact ⟨j, by rwa [hother j hj]⟩
    · rintro ⟨j, hr⟩
      by_cases hj : j = i
      · subst hj
        exact .inl (by simpa using hr)
      · exact .inr ⟨j, hj, by rwa [hother j hj] at hr⟩
  · intro j k r hj hk
    by_contra hne
    by_cases hji : j = i
    · subst hji
      rw [Function.update_self] at hj
      rw [hother k (Ne.symm hne)] at hk
      exact hapart r hj k (Ne.symm hne) hk
    · rw [hother j hji] at hj
      by_cases hki : k = i
      · subst hki
        rw [Function.update_self] at hk
        exact hapart r hk j hji hj
      · rw [hother k hki] at hk
        exact hne (h.apart j k r hj hk)
  · exact hnodup
  · intro j
    by_cases hj : j = i
    · subst hj
      simpa using hown
    · rw [hother j hj]
      exact h.nodup_own j

theorem Owned.mem_live (h : Owned P s own) (i : ι) :
    r ∈ s.live ↔ r ∈ own i ∨ ∃ j, j ≠ i ∧ r ∈ own j := by
  rw [h.live]
  constructor
  · rintro ⟨j, hr⟩
    by_cases hj : j = i
    · exact .inl (hj ▸ hr)
    · exact .inr ⟨j, hj, hr⟩
  · rintro (hr | ⟨j, -, hr⟩)
    · exact ⟨i, hr⟩
    · exact ⟨j, hr⟩

/-- **One step.** What is in order for what a thread owns is in order for all that is live, unless
the system breaks its promise; and it leaves what the others own alone. -/
theorem Owned.step (h : Owned P s own) (hi : s.todo i = op :: ops) :
    (∃ r ∈ s.live, op = .acquire r) ∨
      ∃ s' own', interleave s i = some s' ∧ Owned P s' (Function.update own i own') := by
  have hwp := h.wp i
  rw [hi] at hwp
  have hapart : ∀ r ∈ own i, ∀ j, j ≠ i → r ∉ own j := fun r hr j hj hrj ↦
    hj (h.apart j i r hrj hr)
  rw [interleave, hi]
  cases op with
  | acquire r =>
    by_cases hr : r ∈ s.live
    · exact .inl ⟨r, hr, rfl⟩
    have hfree : ∀ j, r ∉ own j := fun j hj ↦ hr ((h.live r).mpr ⟨j, hj⟩)
    refine .inr ⟨_, r :: own i, congrArg (Option.map _) (if_neg hr),
      h.update (hwp (hfree i)) (fun q ↦ ?_) (fun q hq j hj ↦ ?_) (List.nodup_cons.mpr ⟨hr, h.nodup⟩)
      (List.nodup_cons.mpr ⟨hfree i, h.nodup_own i⟩)⟩
    · rw [List.mem_cons, List.mem_cons, h.mem_live i, or_assoc]
    · rcases List.mem_cons.mp hq with rfl | hq
      · exact hfree j
      · exact hapart q hq j hj
  | use r =>
    have hr : r ∈ s.live := (h.live r).mpr ⟨i, hwp.1⟩
    exact .inr ⟨_, own i, congrArg (Option.map _) (if_pos hr),
      h.update hwp.2 (fun q ↦ h.mem_live i) hapart h.nodup (h.nodup_own i)⟩
  | release r =>
    have hr : r ∈ s.live := (h.live r).mpr ⟨i, hwp.1⟩
    refine .inr ⟨_, (own i).erase r, congrArg (Option.map _) (if_pos hr),
      h.update hwp.2 (fun q ↦ ?_) (fun q hq ↦ hapart q (List.mem_of_mem_erase hq))
      (h.nodup.erase r) ((h.nodup_own i).erase r)⟩
    rw [h.nodup.mem_erase_iff, (h.nodup_own i).mem_erase_iff, h.mem_live i, and_or_left]
    refine or_congr_right (and_iff_right_of_imp ?_)
    rintro ⟨j, hj, hq⟩ rfl
    exact hapart q hwp.1 j hj hq

/-- What holds of the threads together. -/
structure InOrder (P : ι → List R → Prop) (s : Threads ι R) : Prop where
  /-- The next operation of each is no fault. -/
  no_fault : ∀ i op ops, s.todo i = op :: ops →
    (∃ r ∈ s.live, op = .acquire r) ∨ ∃ s', interleave s i = some s'
  /-- When nothing is left to do, what is live is what each has kept. -/
  at_rest : (∀ i, s.todo i = []) → ∃ own : ι → List R, (∀ i, P i (own i)) ∧
    (∀ r, r ∈ s.live ↔ ∃ i, r ∈ own i) ∧ ∀ i j r, r ∈ own i → r ∈ own j → i = j

/-- **Interleaving.** Threads that are each in order for themselves are in order together. -/
theorem interleave_inOrder {progs : ι → List (Op R)} (h : ∀ i, wp (progs i) (P i) [])
    {is : List ι} (hrun : run interleave ⟨progs, []⟩ is = some s) : InOrder P s := by
  have hinv : ∃ own, Owned P s own := by
    refine run_invariant (I := fun _ s ↦ ∃ own, Owned P s own) ⟨fun _ ↦ [], h, ?_, ?_, ?_, ?_⟩
      ?_ hrun
    · simp
    · simp
    · exact List.nodup_nil
    · exact fun _ ↦ List.nodup_nil
    · rintro - s i s' ⟨own, hown⟩ hstep
      cases htodo : s.todo i with
      | nil =>
        rw [interleave, htodo] at hstep
        exact absurd hstep (by simp)
      | cons op ops =>
        rcases hown.step htodo with ⟨r, hr, rfl⟩ | ⟨s'', own', hs'', hown'⟩
        · rw [interleave, htodo] at hstep
          simp [Ledger.step, hr] at hstep
        · obtain rfl := Option.some.inj (hs''.symm.trans hstep)
          exact ⟨_, hown'⟩
  obtain ⟨own, hown⟩ := hinv
  constructor
  · intro i op ops hi
    refine (hown.step hi).imp_right ?_
    rintro ⟨s', -, hs', -⟩
    exact ⟨s', hs'⟩
  · intro hrest
    refine ⟨own, fun i ↦ ?_, hown.live, hown.apart⟩
    have hwp := hown.wp i
    rwa [hrest i] at hwp

end Ledger
