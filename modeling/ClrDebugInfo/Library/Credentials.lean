import Mathlib.Data.Nat.Notation
import Mathlib.Tactic.SplitIfs

/-!
# Credentials of a process

The user ids and group ids of a process, and the two capabilities that let it choose them freely,
with the calls of Linux that change them. User ids decide on capabilities: a process that no longer
has the user id 0 in any place loses them.

A process may give up all this for good. `Locked` says that no calls whatever change the
credentials again, and `locked_iff` what that takes: each of the three ids has to be the same, and
no capability may be left.
-/

namespace Credentials

/-! ## Ids -/

/-- The ids of one kind, user or group. -/
structure Ids where
  real : ℕ
  eff : ℕ
  saved : ℕ
  deriving DecidableEq

/-- One of the ids. -/
def Ids.has (ids : Ids) (id : ℕ) : Bool := id == ids.real || id == ids.eff || id == ids.saved

/-- `setuid` or `setgid` -/
def Ids.set (ids : Ids) (privileged : Bool) (id : ℕ) : Option Ids :=
  if privileged then some ⟨id, id, id⟩
  else if id = ids.real ∨ id = ids.saved then some { ids with eff := id }
  else none

/-- `setreuid` or `setregid`; an id that is not given stays. -/
def Ids.setRe (ids : Ids) (privileged : Bool) (r e : Option ℕ) : Option Ids :=
  let real := r.getD ids.real
  let eff := e.getD ids.eff
  if privileged || (r.all fun id ↦ id == ids.real || id == ids.eff) && e.all ids.has then
    some ⟨real, eff, if r.isSome ∨ e.isSome ∧ eff ≠ ids.real then eff else ids.saved⟩
  else none

/-- `setresuid` or `setresgid` -/
def Ids.setRes (ids : Ids) (privileged : Bool) (r e s : Option ℕ) : Option Ids :=
  if privileged || r.all ids.has && e.all ids.has && s.all ids.has then
    some ⟨r.getD ids.real, e.getD ids.eff, s.getD ids.saved⟩
  else none

/-- There is nothing to choose from. -/
def Ids.Same (ids : Ids) : Prop := ids.real = ids.eff ∧ ids.saved = ids.eff

/-! ## Processes -/

/-- `CAP_SETUID` and `CAP_SETGID` -/
structure Caps where
  setuid : Bool
  setgid : Bool
  deriving DecidableEq

def Caps.none : Caps := ⟨false, false⟩

def Caps.le (a b : Caps) : Bool := (!a.setuid || b.setuid) && (!a.setgid || b.setgid)

theorem Caps.le_refl (caps : Caps) : caps.le caps = true := by
  simp [Caps.le]

theorem Caps.none_le (caps : Caps) : Caps.none.le caps = true := rfl

theorem Caps.le_none {caps : Caps} (h : caps.le .none = true) : caps = .none := by
  obtain ⟨setuid, setgid⟩ := caps
  simpa [Caps.le, Caps.none] using h

/-- What a process may do. The capabilities in force are among those it may have. -/
structure Cred where
  uids : Ids
  gids : Ids
  groups : List ℕ
  permitted : Caps
  effective : Caps
  effective_le : effective.le permitted = true
  deriving DecidableEq

/-- All user ids that are 0 are given up. -/
def Cred.leavesRoot (c : Cred) (ids : Ids) : Bool := c.uids.has 0 && !ids.has 0

/-- New user ids, and what becomes of the capabilities: the flag that keeps them is not set. -/
def Cred.setUids (c : Cred) (ids : Ids) : Cred :=
  { c with
    uids := ids
    permitted := if c.leavesRoot ids then .none else c.permitted
    effective :=
      if c.leavesRoot ids ∨ c.uids.eff = 0 ∧ ids.eff ≠ 0 then .none
      else if c.uids.eff ≠ 0 ∧ ids.eff = 0 then c.permitted
      else c.effective
    effective_le := by
      by_cases h : c.leavesRoot ids = true
      · rw [if_pos (.inl h)]
        exact Caps.none_le _
      · rw [if_neg h]
        split_ifs
        · exact Caps.none_le _
        · exact Caps.le_refl _
        · exact c.effective_le }

inductive Call
  | setuid (id : ℕ)
  | setreuid (r e : Option ℕ)
  | setresuid (r e s : Option ℕ)
  | setgid (id : ℕ)
  | setregid (r e : Option ℕ)
  | setresgid (r e s : Option ℕ)
  | setgroups (groups : List ℕ)
  | capset (permitted effective : Caps)

/-- One call; `none` is an error. -/
def Cred.call (c : Cred) : Call → Option Cred
  | .setuid id => (c.uids.set c.effective.setuid id).map c.setUids
  | .setreuid r e => (c.uids.setRe c.effective.setuid r e).map c.setUids
  | .setresuid r e s => (c.uids.setRes c.effective.setuid r e s).map c.setUids
  | .setgid id => (c.gids.set c.effective.setgid id).map fun ids ↦ { c with gids := ids }
  | .setregid r e => (c.gids.setRe c.effective.setgid r e).map fun ids ↦ { c with gids := ids }
  | .setresgid r e s =>
    (c.gids.setRes c.effective.setgid r e s).map fun ids ↦ { c with gids := ids }
  | .setgroups groups => if c.effective.setgid then some { c with groups := groups } else none
  | .capset permitted effective =>
    if h : effective.le permitted = true then
      if permitted.le c.permitted then some { c with permitted, effective, effective_le := h }
      else none
    else none

/-- The credentials after some calls; those that fail change nothing. -/
def Cred.after (c : Cred) (calls : List Call) : Cred :=
  calls.foldl (fun c a ↦ (c.call a).getD c) c

/-- No calls change the credentials. -/
def Cred.Locked (c : Cred) : Prop := ∀ calls, c.after calls = c

/-! ## What locks credentials -/

variable {ids ids' : Ids} {c c' : Cred} {id : ℕ} {r e t : Option ℕ} {b : Bool}

theorem Ids.Same.exists_eq (h : ids.Same) : ∃ id, ids = ⟨id, id, id⟩ := by
  obtain ⟨real, eff, saved⟩ := ids
  obtain ⟨hreal, hsaved⟩ := h
  exact ⟨eff, by rw [show real = eff from hreal, show saved = eff from hsaved]⟩

theorem getD_of_all (h : r.all (Ids.has ⟨id, id, id⟩) = true) : r.getD id = id := by
  cases r with
  | none => rfl
  | some id' => simpa [Ids.has] using h

theorem Ids.Same.set (h : ids.Same) (hset : ids.set false id = some ids') : ids' = ids := by
  obtain ⟨own, rfl⟩ := h.exists_eq
  rw [Ids.set, if_neg Bool.false_ne_true] at hset
  split at hset
  next hid =>
    rw [← Option.some.inj hset, (or_self_iff.mp hid : id = own)]
  · exact absurd hset (by simp)

theorem Ids.Same.setRe (h : ids.Same) (hset : ids.setRe false r e = some ids') : ids' = ids := by
  obtain ⟨own, rfl⟩ := h.exists_eq
  simp only [Ids.setRe, Bool.or_self, Bool.false_or] at hset
  split at hset
  next hall =>
    obtain ⟨hr, he⟩ := Bool.and_eq_true_iff.mp hall
    have hr' : r.getD own = own := by
      cases r with
      | none => rfl
      | some id => simpa using hr
    rw [← Option.some.inj hset, hr', getD_of_all he, ite_self]
  · exact absurd hset (by simp)

theorem Ids.Same.setRes (h : ids.Same) (hset : ids.setRes false r e t = some ids') :
    ids' = ids := by
  obtain ⟨own, rfl⟩ := h.exists_eq
  simp only [Ids.setRes, Bool.false_or] at hset
  split at hset
  next hall =>
    simp only [Bool.and_eq_true] at hall
    rw [← Option.some.inj hset, getD_of_all hall.1.1, getD_of_all hall.1.2, getD_of_all hall.2]
  · exact absurd hset (by simp)

theorem Cred.setUids_self (c : Cred) : c.setUids c.uids = c := by
  have hkeeps : c.leavesRoot c.uids = false := Bool.and_not_self _
  simp only [Cred.setUids, hkeeps, Bool.false_eq_true, if_false, false_or]
  congr 1
  rw [if_neg fun h ↦ h.2 h.1, if_neg fun h ↦ h.1 h.2]

theorem Cred.effective_none (h : c.permitted = .none) : c.effective = .none :=
  Caps.le_none (h ▸ c.effective_le)

/-- **One call.** -/
theorem Cred.call_locked (huids : c.uids.Same) (hgids : c.gids.Same) (hnone : c.permitted = .none)
    {a : Call} (h : c.call a = some c') : c' = c := by
  have heff := Cred.effective_none hnone
  have hsetuid : c.effective.setuid = false := by rw [heff]; rfl
  have hsetgid : c.effective.setgid = false := by rw [heff]; rfl
  cases a with
  | setuid id =>
    obtain ⟨ids, hids, rfl⟩ := Option.map_eq_some_iff.mp h
    rw [hsetuid] at hids
    rw [huids.set hids, Cred.setUids_self]
  | setreuid r e =>
    obtain ⟨ids, hids, rfl⟩ := Option.map_eq_some_iff.mp h
    rw [hsetuid] at hids
    rw [huids.setRe hids, Cred.setUids_self]
  | setresuid r e t =>
    obtain ⟨ids, hids, rfl⟩ := Option.map_eq_some_iff.mp h
    rw [hsetuid] at hids
    rw [huids.setRes hids, Cred.setUids_self]
  | setgid id =>
    obtain ⟨ids, hids, rfl⟩ := Option.map_eq_some_iff.mp h
    rw [hsetgid] at hids
    rw [hgids.set hids]
  | setregid r e =>
    obtain ⟨ids, hids, rfl⟩ := Option.map_eq_some_iff.mp h
    rw [hsetgid] at hids
    rw [hgids.setRe hids]
  | setresgid r e t =>
    obtain ⟨ids, hids, rfl⟩ := Option.map_eq_some_iff.mp h
    rw [hsetgid] at hids
    rw [hgids.setRes hids]
  | setgroups groups =>
    rw [Cred.call, hsetgid] at h
    exact absurd h (by simp)
  | capset permitted effective =>
    rw [Cred.call, hnone] at h
    split_ifs at h with he hp
    obtain rfl := Caps.le_none hp
    obtain rfl := Caps.le_none he
    cases c
    cases hnone
    cases heff
    exact (Option.some.inj h).symm

theorem Ids.setRes_real :
    ids.setRes b none (some ids.real) none = some { ids with eff := ids.real } := by
  simp [Ids.setRes, Ids.has]

theorem Ids.setRes_saved :
    ids.setRes b none (some ids.saved) none = some { ids with eff := ids.saved } := by
  simp [Ids.setRes, Ids.has]

/-- The effective id may always become one of the other two. -/
theorem Ids.same_of_setRes (h : ∀ id ids', ids.setRes b none (some id) none = some ids' →
    ids'.eff = ids.eff) : ids.Same :=
  ⟨h _ _ Ids.setRes_real, h _ _ Ids.setRes_saved⟩

/-- **What locks credentials**: no choice of ids, and no capabilities. -/
theorem Cred.locked_iff : c.Locked ↔ c.uids.Same ∧ c.gids.Same ∧ c.permitted = .none := by
  constructor
  · intro h
    have hcall : ∀ a c', c.call a = some c' → c' = c := by
      intro a c' ha
      have hone := h [a]
      rwa [Cred.after, List.foldl_cons, List.foldl_nil, ha] at hone
    have hcaps : { c with permitted := .none, effective := .none, effective_le := rfl } = c :=
      hcall (.capset .none .none) _ rfl
    refine ⟨Ids.same_of_setRes (b := c.effective.setuid) ?_,
      Ids.same_of_setRes (b := c.effective.setgid) ?_, (congrArg Cred.permitted hcaps).symm⟩
    · intro id ids' hids
      have hself := hcall (.setresuid none (some id) none) _
        (Option.map_eq_some_iff.mpr ⟨_, hids, rfl⟩)
      exact congrArg (·.uids.eff) hself
    · intro id ids' hids
      have hself := hcall (.setresgid none (some id) none) _
        (Option.map_eq_some_iff.mpr ⟨_, hids, rfl⟩)
      exact congrArg (·.gids.eff) hself
  · rintro ⟨huids, hgids, hnone⟩ calls
    induction calls with
    | nil => rfl
    | cons a calls ih =>
      rw [Cred.after, List.foldl_cons]
      cases ha : c.call a with
      | none => exact ih
      | some c' =>
        rw [Option.getD_some, Cred.call_locked huids hgids hnone ha]
        exact ih

end Credentials
