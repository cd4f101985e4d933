import ClrDebugInfo.Library.Credentials

/-!
# Privileges of the daemon (`src/server.c`)

The daemon is started by root, and goes on as the user `dbginfo`. What `main` does between, with the
directories of the cache and the socket, needs the rights of root and changes no credentials. Then
`main` gives the rights up: first the group, then the other groups, the user last. If a call fails,
the daemon exits.

A call that succeeds need not give everything up. `setuid` sets all three ids only for a process
that may choose its ids, and capabilities are lost only with the last id that is 0. And if there is
no user `dbginfo`, it is root that the daemon goes on as.
-/

namespace ClrDebugInfo

open Credentials

/-! ## The code -/

/-- An entry of the password database. -/
structure Account where
  uid : ℕ
  gid : ℕ

/-- `dbg_user` and `dbg_group`, from the answer of `getpwnam`. -/
def dbgAccount (passwd : Option Account) : Account := passwd.getD ⟨0, 0⟩

/-- The end of the startup of `main`; `none` is an exit. -/
def dropPrivileges (a : Account) (c : Cred) : Option Cred := do
  let c ← c.call (.setgid a.gid)
  let c ← c.call (.setgroups [a.gid])
  c.call (.setuid a.uid)

/-- What the startup makes of the credentials that the daemon was started with. -/
structure Drops (a : Account) (c : Cred) (r : Option Cred) : Prop where
  /-- When it does not exit. -/
  goes_on_iff : r.isSome ↔ c.effective.setgid = true ∧
    (c.effective.setuid = true ∨ a.uid = c.uids.real ∨ a.uid = c.uids.saved)
  /-- What it goes on as. -/
  account : ∀ c' ∈ r, c'.uids.eff = a.uid ∧ c'.gids = ⟨a.gid, a.gid, a.gid⟩ ∧ c'.groups = [a.gid]
  /-- When no calls lead back. -/
  locked_iff : ∀ c' ∈ r, c'.Locked ↔ a.uid ≠ 0 ∧ c.uids.has 0 = true ∧
    (c.effective.setuid = true ∨ c.uids.real = a.uid ∧ c.uids.saved = a.uid)

/-! ## The three calls -/

variable {a : Account} {c c' : Cred} {ids : Ids}

/-- The credentials with one group only. -/
def inGroup (c : Cred) (gid : ℕ) : Cred := { c with gids := ⟨gid, gid, gid⟩, groups := [gid] }

theorem dropPrivileges_eq (a : Account) (c : Cred) : dropPrivileges a c =
    if c.effective.setgid then (inGroup c a.gid).call (.setuid a.uid) else none := by
  cases hgid : c.effective.setgid with
  | true =>
    have hset : c.call (.setgid a.gid) = some { c with gids := ⟨a.gid, a.gid, a.gid⟩ } := by
      rw [Cred.call, Ids.set, if_pos hgid, Option.map_some]
    have hgroups : Cred.call { c with gids := ⟨a.gid, a.gid, a.gid⟩ } (.setgroups [a.gid]) =
        some (inGroup c a.gid) := if_pos hgid
    rw [if_pos rfl, dropPrivileges, hset, Option.bind_eq_bind, Option.bind_some, hgroups]
    rfl
  | false =>
    rw [if_neg Bool.false_ne_true, dropPrivileges]
    cases hset : c.call (.setgid a.gid) with
    | none => rfl
    | some c₁ =>
      obtain ⟨ids, -, rfl⟩ := Option.map_eq_some_iff.mp hset
      simp [Cred.call, hgid]

theorem set_cases {b : Bool} {id : ℕ} (h : c.uids.set b id = some ids) : ids.eff = id ∧
    (ids.Same ↔ b = true ∨ c.uids.real = id ∧ c.uids.saved = id) := by
  cases b with
  | true =>
    rw [Ids.set, if_pos rfl] at h
    obtain rfl := Option.some.inj h
    simp [Ids.Same]
  | false =>
    rw [Ids.set, if_neg Bool.false_ne_true] at h
    split_ifs at h
    obtain rfl := Option.some.inj h
    simp [Ids.Same]

private theorem has_zero_of_same (h : ids.Same) : ids.has 0 = true ↔ ids.eff = 0 := by
  obtain ⟨id, rfl⟩ := h.exists_eq
  simp only [Ids.has, Bool.or_self, beq_iff_eq]
  exact eq_comm

private theorem permitted_setUids (hgid : c.effective.setgid = true) :
    (c.setUids ids).permitted = .none ↔ c.leavesRoot ids = true := by
  have hpermitted : c.permitted ≠ .none := by
    intro hnone
    rw [Cred.effective_none hnone] at hgid
    exact absurd hgid (by simp [Caps.none])
  by_cases h : c.leavesRoot ids = true
  · exact iff_of_true (if_pos h) h
  · exact iff_of_false (fun hnone ↦ hpermitted ((if_neg h).symm.trans hnone)) h

/-! ## The credentials of the daemon -/

/-- **What the daemon goes on as.** If `main` comes to its loop, the daemon has the user id and the
only group of the account. It can never change its credentials again exactly if the account is not
that of root, one of its user ids was that of root, and it could choose its ids or had none but that
of the account to go back to. -/
theorem dropPrivileges_drops (passwd : Option Account) (c : Cred) :
    Drops (dbgAccount passwd) c (dropPrivileges (dbgAccount passwd) c) := by
  generalize dbgAccount passwd = a
  rw [dropPrivileges_eq]
  cases hgid : c.effective.setgid with
  | false =>
    rw [if_neg Bool.false_ne_true]
    exact ⟨by simp [hgid], by simp, by simp⟩
  | true =>
    rw [if_pos rfl]
    have hreached : ∀ c' ∈ (inGroup c a.gid).call (.setuid a.uid), ∃ ids,
        c.uids.set c.effective.setuid a.uid = some ids ∧ c' = (inGroup c a.gid).setUids ids := by
      intro c' hc'
      obtain ⟨ids, hids, rfl⟩ := Option.map_eq_some_iff.mp hc'
      exact ⟨ids, hids, rfl⟩
    constructor
    · rw [Cred.call, Option.isSome_map]
      have hids : (inGroup c a.gid).uids.set (inGroup c a.gid).effective.setuid a.uid =
          c.uids.set c.effective.setuid a.uid := rfl
      rw [hids, Ids.set, hgid]
      split_ifs with hpriv hown
      · simp [hpriv]
      · simp [hown]
      · simp [hpriv, hown]
    · intro c' hc'
      obtain ⟨ids, hids, rfl⟩ := hreached c' hc'
      exact ⟨(set_cases hids).1, rfl, rfl⟩
    · intro c' hc'
      obtain ⟨ids, hids, rfl⟩ := hreached c' hc'
      obtain ⟨heff, hsame⟩ := set_cases hids
      have hgid' : (inGroup c a.gid).effective.setgid = true := hgid
      rw [Cred.locked_iff, permitted_setUids hgid']
      have hgids : ((inGroup c a.gid).setUids ids).gids.Same := ⟨rfl, rfl⟩
      have huids : ((inGroup c a.gid).setUids ids).uids = ids := rfl
      have hleaves : (inGroup c a.gid).leavesRoot ids = (c.uids.has 0 && !ids.has 0) := rfl
      rw [huids, hleaves, ← hsame, Bool.and_eq_true, Bool.not_eq_true']
      constructor
      · rintro ⟨hids', -, hroot, hnot⟩
        refine ⟨fun hzero ↦ ?_, hroot, hids'⟩
        rw [(has_zero_of_same hids').mpr (heff.trans hzero)] at hnot
        exact absurd hnot (by simp)
      · rintro ⟨hne, hroot, hids'⟩
        refine ⟨hids', hgids, hroot, ?_⟩
        rw [Bool.eq_false_iff]
        exact fun hzero ↦ hne (heff.symm.trans ((has_zero_of_same hids').mp hzero))

/-- Root, with both capabilities. -/
def rootCred (groups : List ℕ) : Cred :=
  ⟨⟨0, 0, 0⟩, ⟨0, 0, 0⟩, groups, ⟨true, true⟩, ⟨true, true⟩, rfl⟩

/-- A daemon that root starts is locked exactly if there is a user `dbginfo` other than root. -/
theorem dropPrivileges_root (passwd : Option Account) (groups : List ℕ) :
    ∃ c', dropPrivileges (dbgAccount passwd) (rootCred groups) = some c' ∧
      (c'.Locked ↔ ∃ a, passwd = some a ∧ a.uid ≠ 0) := by
  have hdrops := dropPrivileges_drops passwd (rootCred groups)
  obtain ⟨c', hc'⟩ := Option.isSome_iff_exists.mp (hdrops.goes_on_iff.mpr ⟨rfl, .inl rfl⟩)
  refine ⟨c', hc', (hdrops.locked_iff c' hc').trans ?_⟩
  cases passwd with
  | none => simp [dbgAccount]
  | some a => simp [dbgAccount, rootCred, Ids.has]

end ClrDebugInfo
