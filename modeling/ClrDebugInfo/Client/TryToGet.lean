import Mathlib.Data.List.Perm.Basic
import ClrDebugInfo.Client.Backoff
import ClrDebugInfo.Client.Message

/-!
# The calls of `try_to_get`, from end to end

`try_to_get` of `src/client.c` with what a call does to the process: the descriptor of its socket,
the message that `asprintf` makes, and the deadline test, which is that of `Client.Backoff`. The
calls of the threads of one FUSE process interleave freely; each line with a system call, or with a
use of `deadtime`, is a step.

A thread closes the number that it was given by `socket`. That another thread has been given the
same number in between is excluded by what the table of open descriptors says of all calls at once
(`Descriptors`). The message is freed by nobody.
-/

namespace ClrDebugInfo

open Runs

/-! ## The calls -/

/-- The arguments of a call. -/
structure TryArgs where
  path : Bytes
  pid : ℤ
  timestamp : Int64
  deriving DecidableEq

/-- Where a call is, with the descriptor `sockfd`. -/
inductive Place
  | socket
  | connect (fd : ℕ)
  /-- At `getsockopt`. -/
  | peer (fd : ℕ)
  /-- At `asprintf`. -/
  | format (fd : ℕ)
  | send (fd : ℕ)
  /-- From the deadline test to the `close` at the end. -/
  | wait (fd : ℕ)
  /-- At one of the other calls of `close`. -/
  | close (fd : ℕ)
  | returned
  deriving DecidableEq

/-- The descriptor of a call. -/
def Place.fd : Place → Option ℕ
  | .socket | .returned => none
  | .connect fd | .peer fd | .format fd | .send fd | .wait fd | .close fd => some fd

/-- A call of `try_to_get`. -/
structure Getter where
  args : TryArgs
  place : Place
  /-- The message has been made. This is history. -/
  formatted : Bool

/-- A FUSE process. -/
structure TryProcess where
  pfx : Bytes
  /-- The clock, `deadtime`, and the deadline tests of the calls. -/
  client : Client
  calls : List Getter
  /-- The open descriptors of sockets. -/
  fds : List ℕ
  /-- The messages that `asprintf` has made. -/
  blocks : List Bytes

inductive IoAct
  | socket (fd : Option ℕ)
  | connect (ok : Bool)
  /-- `getsockopt`: `cred.pid`, if it succeeds. -/
  | peer (cred : Option ℤ)
  | format (ok : Bool)
  /-- `write`, whose result nobody looks at. -/
  | write (ok : Bool)
  | timer (m : Move)
  | close
  deriving DecidableEq

inductive TryAct
  | tick (seconds : ℕ)
  | enter (args : TryArgs)
  | io (i : ℕ) (a : IoAct)
  deriving DecidableEq

/-- The message of a call. -/
def TryArgs.message (args : TryArgs) (pfx : Bytes) : Bytes :=
  requestMessage args.timestamp pfx args.path

/-- A step of the deadline test of a call. -/
def TryProcess.move (s : TryProcess) (i : ℕ) (m : Move) : Option TryProcess :=
  (clientStep s.client (.move i m)).map fun client ↦ { s with client }

/-- A step of the call `i`: the process, and where the call is then. -/
def placeStep (s : TryProcess) (i : ℕ) (args : TryArgs) :
    Place → IoAct → Option (TryProcess × Place)
  | .socket, .socket none => (s.move i .giveUp).map (·, .returned)
  | .socket, .socket (some fd) =>
    -- the kernel gives out a number that is free
    if fd ∈ s.fds then none else some ({ s with fds := s.fds ++ [fd] }, .connect fd)
  | .connect fd, .connect ok => some (s, if ok then .peer fd else .close fd)
  | .peer fd, .peer cred => some (s, if cred = some args.pid then .close fd else .format fd)
  | .format fd, .format ok =>
    if ok then some ({ s with blocks := s.blocks ++ [args.message s.pfx] }, .send fd)
    else some (s, .close fd)
  | .send fd, .write _ => some (s, .wait fd)
  | .wait fd, .timer m => if m = .leave ∨ m = .giveUp then none else (s.move i m).map (·, .wait fd)
  | .wait fd, .close =>
    (s.move i .leave).map fun s ↦ ({ s with fds := s.fds.erase fd }, .returned)
  | .close fd, .close =>
    (s.move i .giveUp).map fun s ↦ ({ s with fds := s.fds.erase fd }, .returned)
  | _, _ => none

/-- A step of the process. -/
def tryStep (s : TryProcess) : TryAct → Option TryProcess
  | .tick seconds => (clientStep s.client (.tick seconds)).map fun client ↦ { s with client }
  | .enter args => (clientStep s.client (.enter args.timestamp.toInt)).map fun client ↦
      { s with client, calls := s.calls ++ [⟨args, .socket, false⟩] }
  | .io i a =>
    s.calls[i]?.bind fun g ↦ (placeStep s i g.args g.place a).map fun r ↦
      { r.1 with calls := r.1.calls.set i ⟨g.args, r.2, g.formatted || decide (a = .format true)⟩ }

/-- A process before its first call, when `time(NULL)` is `now`. -/
def TryProcess.start (pfx : Bytes) (now : ℤ) : TryProcess := ⟨pfx, Client.start now, [], [], []⟩

/-! ## What a step can do -/

variable {s s' t : TryProcess} {i : ℕ} {args : TryArgs} {place place' : Place} {a : IoAct}
  {pfx : Bytes} {now : ℤ} {acts : List TryAct}

/-- The steps of a call, one constructor for each way it can go. -/
inductive PlaceStep (s : TryProcess) (i : ℕ) (args : TryArgs) :
    Place → IoAct → TryProcess → Place → Prop
  | noSocket {s₁ : TryProcess} (h : s.move i .giveUp = some s₁) :
    PlaceStep s i args .socket (.socket none) s₁ .returned
  | socket {fd} (hfree : fd ∉ s.fds) :
    PlaceStep s i args .socket (.socket (some fd)) { s with fds := s.fds ++ [fd] } (.connect fd)
  | connect {fd} : PlaceStep s i args (.connect fd) (.connect true) s (.peer fd)
  | refused {fd} : PlaceStep s i args (.connect fd) (.connect false) s (.close fd)
  | recursion {fd} : PlaceStep s i args (.peer fd) (.peer (some args.pid)) s (.close fd)
  | peer {fd cred} (hpid : cred ≠ some args.pid) :
    PlaceStep s i args (.peer fd) (.peer cred) s (.format fd)
  | format {fd} : PlaceStep s i args (.format fd) (.format true)
      { s with blocks := s.blocks ++ [args.message s.pfx] } (.send fd)
  | noMemory {fd} : PlaceStep s i args (.format fd) (.format false) s (.close fd)
  | write {fd ok} : PlaceStep s i args (.send fd) (.write ok) s (.wait fd)
  | timer {fd m} {s₁ : TryProcess} (hm : m ≠ .leave ∧ m ≠ .giveUp) (h : s.move i m = some s₁) :
    PlaceStep s i args (.wait fd) (.timer m) s₁ (.wait fd)
  | leave {fd} {s₁ : TryProcess} (h : s.move i .leave = some s₁) :
    PlaceStep s i args (.wait fd) .close { s₁ with fds := s₁.fds.erase fd } .returned
  | giveUp {fd} {s₁ : TryProcess} (h : s.move i .giveUp = some s₁) :
    PlaceStep s i args (.close fd) .close { s₁ with fds := s₁.fds.erase fd } .returned

theorem placeStep_cases (h : placeStep s i args place a = some (s', place')) :
    PlaceStep s i args place a s' place' := by
  unfold placeStep at h
  split at h
  · obtain ⟨s₁, hmove, heq⟩ := Option.map_eq_some_iff.mp h
    obtain ⟨rfl, rfl⟩ := Prod.mk.inj heq
    exact .noSocket hmove
  · split at h
    · exact absurd h (by simp)
    next hfree =>
      obtain ⟨rfl, rfl⟩ := h
      exact .socket hfree
  next ok =>
    obtain ⟨rfl, rfl⟩ := h
    cases ok with
    | true => exact .connect
    | false => exact .refused
  · obtain ⟨rfl, rfl⟩ := h
    split
    next hpid =>
      rw [hpid]
      exact .recursion
    next hpid => exact .peer hpid
  next ok =>
    cases ok with
    | true =>
      obtain ⟨rfl, rfl⟩ := h
      exact .format
    | false =>
      obtain ⟨rfl, rfl⟩ := h
      exact .noMemory
  · obtain ⟨rfl, rfl⟩ := h
    exact .write
  · split at h
    · exact absurd h (by simp)
    next hm =>
      obtain ⟨s₁, hmove, heq⟩ := Option.map_eq_some_iff.mp h
      obtain ⟨rfl, rfl⟩ := Prod.mk.inj heq
      exact .timer (not_or.mp hm) hmove
  · obtain ⟨s₁, hmove, heq⟩ := Option.map_eq_some_iff.mp h
    obtain ⟨rfl, rfl⟩ := Prod.mk.inj heq
    exact .leave hmove
  · obtain ⟨s₁, hmove, heq⟩ := Option.map_eq_some_iff.mp h
    obtain ⟨rfl, rfl⟩ := Prod.mk.inj heq
    exact .giveUp hmove
  · exact absurd h (by simp)

theorem move_eq {m : Move} (h : s.move i m = some s') :
    ∃ client, clientStep s.client (.move i m) = some client ∧ s' = { s with client } := by
  obtain ⟨client, hstep, rfl⟩ := Option.map_eq_some_iff.mp h
  exact ⟨client, hstep, rfl⟩

theorem PlaceStep.calls_pfx (h : PlaceStep s i args place a s' place') :
    s'.calls = s.calls ∧ s'.pfx = s.pfx := by
  cases h with
  | noSocket h | timer _ h =>
    obtain ⟨client, -, rfl⟩ := move_eq h
    exact ⟨rfl, rfl⟩
  | leave h | giveUp h =>
    obtain ⟨client, -, rfl⟩ := move_eq h
    exact ⟨rfl, rfl⟩
  | _ => exact ⟨rfl, rfl⟩

/-! ## Descriptors and messages -/

/-- The messages that a call has made. -/
def Getter.made (pfx : Bytes) (g : Getter) : List Bytes :=
  if g.formatted then [g.args.message pfx] else []

/-- The table of open descriptors is that of the calls in progress, no two of which have the same;
and the messages are those that the calls have made. -/
structure TryProcess.Accounts (s : TryProcess) : Prop where
  nodup : s.fds.Nodup
  fds : s.fds.Perm (s.calls.flatMap fun g ↦ g.place.fd.toList)
  blocks : s.blocks.Perm (s.calls.flatMap (Getter.made s.pfx))
  late : ∀ g ∈ s.calls, g.formatted = true →
    g.place = .returned ∨ ∃ fd, g.place = .send fd ∨ g.place = .wait fd

theorem accounts_iff {g : Getter} (hi : s.calls[i]? = some g) :
    s.Accounts ↔ s.fds.Nodup ∧
      s.fds.Perm (g.place.fd.toList ++ (s.calls.eraseIdx i).flatMap fun g ↦ g.place.fd.toList) ∧
      s.blocks.Perm (g.made s.pfx ++ (s.calls.eraseIdx i).flatMap (Getter.made s.pfx)) ∧
      ∀ g' ∈ g :: s.calls.eraseIdx i, g'.formatted = true →
        g'.place = .returned ∨ ∃ fd, g'.place = .send fd ∨ g'.place = .wait fd := by
  obtain ⟨hlt, rfl⟩ := List.getElem?_eq_some_iff.mp hi
  have hperm : (s.calls[i] :: s.calls.eraseIdx i).Perm s.calls :=
    List.getElem_cons_eraseIdx_perm hlt
  have hfds := hperm.flatMap_right fun g ↦ g.place.fd.toList
  have hblocks := hperm.flatMap_right (Getter.made s.pfx)
  rw [List.flatMap_cons] at hfds hblocks
  constructor
  · intro h
    exact ⟨h.nodup, h.fds.trans hfds.symm, h.blocks.trans hblocks.symm,
      fun g' hg' ↦ h.late g' (hperm.mem_iff.mp hg')⟩
  · rintro ⟨hnodup, h₁, h₂, hlate⟩
    exact ⟨hnodup, h₁.trans hfds, h₂.trans hblocks, fun g' hg' ↦ hlate g' (hperm.mem_iff.mpr hg')⟩

theorem PlaceStep.fds (h : PlaceStep s i args place a s' place') {others : List ℕ}
    (hnodup : s.fds.Nodup) (hfds : s.fds.Perm (place.fd.toList ++ others)) :
    s'.fds.Nodup ∧ s'.fds.Perm (place'.fd.toList ++ others) := by
  have herase : ∀ {fd}, place.fd = some fd → (s.fds.erase fd).Perm others := by
    intro fd hfd
    rw [hfd] at hfds
    have herase := hfds.erase fd
    rwa [Option.toList_some, List.singleton_append, List.erase_cons_head] at herase
  cases h with
  | noSocket h | timer _ h =>
    obtain ⟨client, -, rfl⟩ := move_eq h
    exact ⟨hnodup, hfds⟩
  | leave h | giveUp h =>
    obtain ⟨client, -, rfl⟩ := move_eq h
    exact ⟨hnodup.erase _, herase rfl⟩
  | @socket fd hfree =>
    have hnew : (s.fds ++ [fd]).Perm (fd :: s.fds) := List.perm_append_singleton fd s.fds
    exact ⟨hnew.nodup_iff.mpr (List.nodup_cons.mpr ⟨hfree, hnodup⟩), hnew.trans (hfds.cons fd)⟩
  | _ => exact ⟨hnodup, hfds⟩

theorem PlaceStep.blocks (h : PlaceStep s i args place a s' place') :
    (a = .format true ∧ (∃ fd, place = .format fd ∧ place' = .send fd) ∧
        s'.blocks = s.blocks ++ [args.message s.pfx]) ∨
      a ≠ .format true ∧ s'.blocks = s.blocks := by
  cases h with
  | noSocket h | timer _ h =>
    obtain ⟨client, -, rfl⟩ := move_eq h
    exact Or.inr ⟨by simp, rfl⟩
  | leave h | giveUp h =>
    obtain ⟨client, -, rfl⟩ := move_eq h
    exact Or.inr ⟨by simp, rfl⟩
  | format => exact Or.inl ⟨rfl, ⟨_, rfl, rfl⟩, rfl⟩
  | _ => exact Or.inr ⟨by simp, rfl⟩

theorem PlaceStep.late (h : PlaceStep s i args place a s' place')
    (hlate : place = .returned ∨ ∃ fd, place = .send fd ∨ place = .wait fd) :
    place' = .returned ∨ ∃ fd, place' = .send fd ∨ place' = .wait fd := by
  cases h with
  | write => exact Or.inr ⟨_, Or.inr rfl⟩
  | timer => exact Or.inr ⟨_, Or.inr rfl⟩
  | leave => exact Or.inl rfl
  | _ => simp at hlate

/-- **One step of a call.** -/
theorem PlaceStep.accounts {g : Getter} (hs : s.Accounts) (hi : s.calls[i]? = some g)
    (h : PlaceStep s i g.args g.place a s' place') : TryProcess.Accounts { s' with
      calls := s'.calls.set i ⟨g.args, place', g.formatted || decide (a = .format true)⟩ } := by
  obtain ⟨hcalls, hpfx⟩ := h.calls_pfx
  have hlt : i < s.calls.length := (List.getElem?_eq_some_iff.mp hi).1
  have hset : (s'.calls.set i ⟨g.args, place', g.formatted || decide (a = .format true)⟩)[i]? =
      some ⟨g.args, place', g.formatted || decide (a = .format true)⟩ := by
    rw [hcalls, List.getElem?_set_self hlt]
  rw [accounts_iff hi] at hs
  rw [accounts_iff (s := { s' with calls := _ }) hset]
  simp only [hcalls, hpfx, List.eraseIdx_set_eq]
  obtain ⟨hnodup, hfds, hblocks, hlate⟩ := hs
  obtain ⟨hnodup', hfds'⟩ := h.fds hnodup hfds
  have hrest := fun g' hg' ↦ hlate g' (List.mem_cons_of_mem _ hg')
  refine ⟨hnodup', hfds', ?_⟩
  rcases h.blocks with ⟨ha, ⟨fd, hplace, hplace'⟩, hmade⟩ | ⟨ha, hsame⟩
  · -- it has made none before
    have hnone : g.formatted = false := by
      rw [← Bool.not_eq_true]
      intro hformatted
      simpa [hplace] using hlate g List.mem_cons_self hformatted
    simp only [Getter.made, hnone, Bool.false_eq_true, if_false, List.nil_append] at hblocks
    refine ⟨?_, fun g' hg' _ ↦ ?_⟩
    · rw [hmade, Getter.made, ha]
      simp only [decide_true, Bool.or_true, if_true]
      exact (List.perm_append_singleton _ _).trans (hblocks.cons _)
    · rcases List.mem_cons.mp hg' with rfl | hg'
      · exact Or.inr ⟨fd, Or.inl hplace'⟩
      · exact hrest g' hg' ‹_›
  · simp only [ha, decide_false, Bool.or_false]
    refine ⟨by rw [hsame]; exact hblocks, fun g' hg' hformatted ↦ ?_⟩
    rcases List.mem_cons.mp hg' with rfl | hg'
    · exact h.late (hlate g List.mem_cons_self hformatted)
    · exact hrest g' hg' hformatted

/-! ## The deadline tests -/

/-- What the place of a call says of its deadline test. -/
def Place.Fits (c : TryCall) : Place → Prop
  | .returned => c.stage = .returned
  | .wait _ => c.stage ≠ .returned ∧
    (c.stage = .connecting → c.test.clock = none ∧ c.test.dead = none) ∧
    (c.stage = .testing → (c.test.clock = none ↔ c.test.dead ≠ none))
  | _ => c.stage = .connecting ∧ c.test.clock = none ∧ c.test.dead = none

/-- Every call has a deadline test, which is where the call is. -/
structure TryProcess.Timed (s : TryProcess) : Prop where
  length : s.client.calls.length = s.calls.length
  fits : ∀ (i : ℕ) (g : Getter) (c : TryCall), s.calls[i]? = some g →
    s.client.calls[i]? = some c → g.place.Fits c

private theorem move_calls {m : Move} (h : s.move i m = some s') :
    ∃ c c', s.client.calls[i]? = some c ∧
    callStep s.client c m = some c' ∧ s'.client.calls = s.client.calls.set i c' := by
  obtain ⟨client, hstep, rfl⟩ := move_eq h
  obtain ⟨c, hc, hrest⟩ := Option.bind_eq_some_iff.mp hstep
  obtain ⟨c', hc', rfl⟩ := Option.map_eq_some_iff.mp hrest
  exact ⟨c, c', hc, hc', rfl⟩

private theorem deadlineTest_fits {fd : ℕ} {c : TryCall} {test : DeadlineTest}
    (h : test.clock ≠ none ∨ test.dead ≠ none) : Place.Fits (deadlineTest c test) (.wait fd) := by
  rw [deadlineTest]
  split
  · exact ⟨by simp, by simp, by simp⟩
  next hboth =>
    refine ⟨by simp, by simp, fun _ ↦ ?_⟩
    cases hclock : test.clock with
    | none => simpa [hclock] using h
    | some t =>
      cases hdead : test.dead with
      | none => simp
      | some d => exact absurd hdead (hboth t d hclock)

private theorem callStep_fits {fd : ℕ} {client : Client} {c c' : TryCall} {m : Move}
    (hm : m ≠ .leave ∧ m ≠ .giveUp) (h : callStep client c m = some c') :
    Place.Fits c' (.wait fd) := by
  cases m with
  | giveUp => exact absurd rfl hm.2
  | leave => exact absurd rfl hm.1
  | readClock | readDead =>
    rw [callStep] at h
    split at h
    · obtain rfl := Option.some.inj h
      exact deadlineTest_fits (by simp)
    · exact absurd h (by simp)
  | select =>
    rw [callStep] at h
    split_ifs at h <;> obtain rfl := Option.some.inj h <;> exact ⟨by simp, by simp, by simp⟩
  | wake ret | finish =>
    rw [callStep] at h
    split_ifs at h
    obtain rfl := Option.some.inj h
    exact ⟨by simp, by simp, by simp⟩

theorem callStep_returned {client : Client} {c c' : TryCall} {m : Move}
    (hm : m = .leave ∨ m = .giveUp) (h : callStep client c m = some c') :
    c'.stage = .returned := by
  rcases hm with rfl | rfl
  · rw [callStep] at h
    split_ifs at h
    obtain rfl := Option.some.inj h
    rfl
  · rw [callStep] at h
    split_ifs at h
    obtain rfl := Option.some.inj h
    rfl

theorem PlaceStep.tests (h : PlaceStep s i args place a s' place') :
    (s'.client = s.client ∧ ∀ c, place.Fits c → place'.Fits c) ∨
      ∃ c c', s.client.calls[i]? = some c ∧ s'.client.calls = s.client.calls.set i c' ∧
        place'.Fits c' := by
  cases h with
  | noSocket h =>
    obtain ⟨c, c', hc, hstep, hset⟩ := move_calls h
    exact Or.inr ⟨c, c', hc, hset, callStep_returned (Or.inr rfl) hstep⟩
  | leave h =>
    obtain ⟨c, c', hc, hstep, hset⟩ := move_calls h
    exact Or.inr ⟨c, c', hc, hset, callStep_returned (Or.inl rfl) hstep⟩
  | giveUp h =>
    obtain ⟨c, c', hc, hstep, hset⟩ := move_calls h
    exact Or.inr ⟨c, c', hc, hset, callStep_returned (Or.inr rfl) hstep⟩
  | timer hm h =>
    obtain ⟨c, c', hc, hstep, hset⟩ := move_calls h
    exact Or.inr ⟨c, c', hc, hset, callStep_fits hm hstep⟩
  | write =>
    refine Or.inl ⟨rfl, ?_⟩
    rintro c ⟨hstage, hclock, hdead⟩
    exact ⟨by simp [hstage], fun _ ↦ ⟨hclock, hdead⟩, by simp [hstage]⟩
  | _ => exact Or.inl ⟨rfl, fun c h ↦ h⟩

theorem PlaceStep.timed {g : Getter} (hs : s.Timed) (hi : s.calls[i]? = some g) {formatted : Bool}
    (h : PlaceStep s i g.args g.place a s' place') :
    TryProcess.Timed { s' with calls := s'.calls.set i ⟨g.args, place', formatted⟩ } := by
  obtain ⟨hcalls, -⟩ := h.calls_pfx
  have hlt : i < s.calls.length := (List.getElem?_eq_some_iff.mp hi).1
  rcases h.tests with ⟨hclient, hfits⟩ | ⟨c₁, c₂, hc₁, hset, hfits⟩
  · refine ⟨by simp [hclient, hcalls, hs.length], fun j g' c hj hc ↦ ?_⟩
    simp only [hcalls, hclient] at hj hc
    by_cases hij : i = j
    · subst hij
      rw [List.getElem?_set_self hlt, Option.some_inj] at hj
      rw [← hj]
      exact hfits c (hs.fits i g c hi hc)
    · rw [List.getElem?_set_ne hij] at hj
      exact hs.fits j g' c hj hc
  · have hlt' : i < s.client.calls.length := (List.getElem?_eq_some_iff.mp hc₁).1
    refine ⟨by simp [hset, hcalls, hs.length], fun j g' c hj hc ↦ ?_⟩
    simp only [hcalls, hset] at hj hc
    by_cases hij : i = j
    · subst hij
      rw [List.getElem?_set_self hlt, Option.some_inj] at hj
      rw [List.getElem?_set_self hlt', Option.some_inj] at hc
      rw [← hj, ← hc]
      exact hfits
    · rw [List.getElem?_set_ne hij] at hj hc
      exact hs.fits j g' c hj hc

/-! ## Every run -/

/-- How many steps a deadline test has before it, at most. -/
def Stage.rank : Stage → ℕ
  | .connecting => 8
  | .testing => 7
  | .tested => 6
  | .waiting => 5
  | .waited => 4
  | .finished => 3
  | .returned => 0

/-- How many steps a call has before it, at most. -/
def Place.rank (c : TryCall) : Place → ℕ
  | .socket => 13
  | .connect _ => 12
  | .peer _ => 11
  | .format _ => 10
  | .send _ => 9
  | .wait _ => c.stage.rank
  | .close _ => 1
  | .returned => 0

/-- How many steps of a run are steps of the call `i`. -/
def ownSteps (i : ℕ) (acts : List TryAct) : ℕ :=
  acts.countP fun act ↦ match act with
    | .io j _ => j = i
    | _ => false

@[simp] theorem ownSteps_concat (i : ℕ) (acts : List TryAct) (act : TryAct) :
    ownSteps i (acts ++ [act]) = ownSteps i acts + ownSteps i [act] := List.countP_append

private theorem ownSteps_io (i j : ℕ) (a : IoAct) :
    ownSteps i [.io j a] = if j = i then 1 else 0 := by
  rw [ownSteps, List.countP_singleton]
  simp

theorem deadlineTest_rank {c : TryCall} {test : DeadlineTest}
    (hstage : c.stage = .connecting ∨ c.stage = .testing)
    (h : c.stage = .testing → test.clock ≠ none ∧ test.dead ≠ none) :
    (deadlineTest c test).stage.rank < c.stage.rank := by
  rw [deadlineTest]
  rcases hstage with hstage | hstage
  · rw [hstage]
    split
    · exact Nat.lt_of_sub_eq_succ rfl
    · exact Nat.lt_of_sub_eq_succ rfl
  · obtain ⟨hclock, hdead⟩ := h hstage
    obtain ⟨t, ht⟩ := Option.ne_none_iff_exists'.mp hclock
    obtain ⟨d, hd⟩ := Option.ne_none_iff_exists'.mp hdead
    rw [hstage, ht, hd]
    exact Nat.lt_of_sub_eq_succ rfl

theorem callStep_rank {fd : ℕ} {client : Client} {c c' : TryCall} {m : Move}
    (hc : Place.Fits c (.wait fd)) (hm : m ≠ .leave ∧ m ≠ .giveUp)
    (h : callStep client c m = some c') : c'.stage.rank < c.stage.rank := by
  obtain ⟨-, -, htesting⟩ := hc
  cases m with
  | giveUp => exact absurd rfl hm.2
  | leave => exact absurd rfl hm.1
  | readClock =>
    rw [callStep] at h
    split at h
    next hread =>
      obtain rfl := Option.some.inj h
      exact deadlineTest_rank hread.1 fun hstage ↦ ⟨by simp, (htesting hstage).mp hread.2⟩
    · exact absurd h (by simp)
  | readDead =>
    rw [callStep] at h
    split at h
    next hread =>
      obtain rfl := Option.some.inj h
      refine deadlineTest_rank hread.1 fun hstage ↦ ⟨fun hclock ↦ ?_, by simp⟩
      exact (htesting hstage).mp hclock hread.2
    · exact absurd h (by simp)
  | select =>
    rw [callStep] at h
    split_ifs at h with hstage htime
    · obtain rfl := Option.some.inj h
      rw [hstage]
      exact Nat.lt_of_sub_eq_succ rfl
    · obtain rfl := Option.some.inj h
      rw [hstage]
      exact Nat.lt_of_sub_eq_succ rfl
  | wake ret | finish =>
    rw [callStep] at h
    split_ifs at h with hstage
    obtain rfl := Option.some.inj h
    rw [hstage]
    exact Nat.lt_of_sub_eq_succ rfl

private theorem exists_callStep {fd : ℕ} {c : TryCall} (client : Client)
    (hc : Place.Fits c (.wait fd)) :
    c.stage = .finished ∨ ∃ m c', m ≠ .leave ∧ m ≠ .giveUp ∧ callStep client c m = some c' := by
  obtain ⟨hreturned, hconnecting, htesting⟩ := hc
  cases hstage : c.stage with
  | returned => exact absurd hstage hreturned
  | finished => exact Or.inl rfl
  | connecting =>
    exact Or.inr ⟨.readClock, _, by simp, by simp,
      if_pos ⟨Or.inl hstage, (hconnecting hstage).1⟩⟩
  | testing =>
    by_cases hclock : c.test.clock = none
    · exact Or.inr ⟨.readClock, _, by simp, by simp, if_pos ⟨Or.inr hstage, hclock⟩⟩
    · have hdead : c.test.dead = none := by
        by_contra hdead
        exact hclock ((htesting hstage).mpr hdead)
      exact Or.inr ⟨.readDead, _, by simp, by simp, if_pos ⟨Or.inr hstage, hdead⟩⟩
  | tested =>
    by_cases htime : c.timestamp = 0
    · exact Or.inr ⟨.select, _, by simp, by simp, by rw [callStep, if_pos hstage, if_pos htime]⟩
    · exact Or.inr ⟨.select, _, by simp, by simp, by rw [callStep, if_pos hstage, if_neg htime]⟩
  | waiting => exact Or.inr ⟨.wake 0, _, by simp, by simp, if_pos hstage⟩
  | waited => exact Or.inr ⟨.finish, _, by simp, by simp, if_pos hstage⟩

/-- **A step of a call brings it nearer to its end.** -/
theorem PlaceStep.rank {c : TryCall} (h : PlaceStep s i args place a s' place')
    (hi : s.client.calls[i]? = some c) (hfits : place.Fits c) :
    ∃ c', s'.client.calls[i]? = some c' ∧ place'.rank c' < place.rank c := by
  have hlt : i < s.client.calls.length := (List.getElem?_eq_some_iff.mp hi).1
  cases h with
  | noSocket h | giveUp h =>
    obtain ⟨-, c', -, -, hset⟩ := move_calls h
    refine ⟨c', ?_, Nat.succ_pos _⟩
    simp only [hset]
    exact List.getElem?_set_self hlt
  | leave h =>
    obtain ⟨c₁, c', hc₁, hstep, hset⟩ := move_calls h
    obtain rfl := Option.some.inj (hi.symm.trans hc₁)
    refine ⟨c', ?_, ?_⟩
    · simp only [hset]
      exact List.getElem?_set_self hlt
    · rw [callStep] at hstep
      split_ifs at hstep with hstage
      rw [Place.rank, Place.rank, hstage]
      exact Nat.succ_pos _
  | timer hm h =>
    obtain ⟨c₁, c', hc₁, hstep, hset⟩ := move_calls h
    obtain rfl := Option.some.inj (hi.symm.trans hc₁)
    refine ⟨c', ?_, callStep_rank hfits hm hstep⟩
    rw [hset]
    exact List.getElem?_set_self hlt
  | write =>
    refine ⟨c, hi, ?_⟩
    rw [Place.rank, Place.rank, hfits.1]
    exact Nat.lt_succ_self _
  | _ => exact ⟨c, hi, by rw [Place.rank, Place.rank]; omega⟩

theorem getElem?_concat_cases {α : Type} {l : List α} {x y : α} {i : ℕ}
    (h : (l ++ [x])[i]? = some y) : l[i]? = some y ∨ i = l.length ∧ y = x := by
  rw [List.getElem?_append] at h
  split at h
  · exact Or.inl h
  · rw [List.getElem?_singleton] at h
    split at h
    · exact Or.inr ⟨by omega, (Option.some.inj h).symm⟩
    · exact absurd h (by simp)

/-- What a step of the process is. -/
inductive TryStep (s : TryProcess) : TryAct → TryProcess → Prop
  | tick {seconds client} (hcalls : client.calls = s.client.calls) :
    TryStep s (.tick seconds) { s with client }
  | enter {args client}
    (hcalls : client.calls = s.client.calls ++ [tryToGet args.timestamp.toInt s.client.steps]) :
    TryStep s (.enter args) { s with client, calls := s.calls ++ [⟨args, .socket, false⟩] }
  | io {i a g s₁ place'} (hi : s.calls[i]? = some g)
    (h : PlaceStep s i g.args g.place a s₁ place') : TryStep s (.io i a)
      { s₁ with calls := s₁.calls.set i ⟨g.args, place', g.formatted || decide (a = .format true)⟩ }

theorem tryStep_cases {act : TryAct} (h : tryStep s act = some s') : TryStep s act s' := by
  cases act with
  | tick seconds =>
    obtain rfl := Option.some.inj h
    exact .tick rfl
  | enter args =>
    obtain rfl := Option.some.inj h
    exact .enter rfl
  | io i a =>
    obtain ⟨g, hi, hrest⟩ := Option.bind_eq_some_iff.mp h
    obtain ⟨⟨s₁, place'⟩, hstep, rfl⟩ := Option.map_eq_some_iff.mp hrest
    exact .io hi (placeStep_cases hstep)

theorem TryProcess.Accounts.step {act : TryAct} (hs : s.Accounts) (h : TryStep s act s') :
    s'.Accounts := by
  cases h with
  | tick => exact ⟨hs.nodup, hs.fds, hs.blocks, hs.late⟩
  | enter =>
    refine ⟨hs.nodup, ?_, ?_, fun g hg hformatted ↦ ?_⟩
    · simpa [Place.fd] using hs.fds
    · simpa [Getter.made] using hs.blocks
    · rcases List.mem_append.mp hg with hg | hg
      · exact hs.late g hg hformatted
      · rw [List.mem_singleton.mp hg] at hformatted
        exact absurd hformatted (by simp)
  | io hi h => exact h.accounts hs hi

theorem TryProcess.Timed.step {act : TryAct} (hs : s.Timed) (h : TryStep s act s') :
    s'.Timed := by
  cases h with
  | tick hcalls => exact ⟨hcalls ▸ hs.length, fun i g c hi hc ↦ hs.fits i g c hi (hcalls ▸ hc)⟩
  | enter hcalls =>
    refine ⟨by simp [hcalls, hs.length], fun i g c hi hc ↦ ?_⟩
    have hlength := hs.length
    simp only [hcalls] at hc
    rcases getElem?_concat_cases hi with hi | ⟨rfl, rfl⟩
    · rcases getElem?_concat_cases hc with hc | ⟨rfl, rfl⟩
      · exact hs.fits i g c hi hc
      · exact absurd (List.getElem?_eq_some_iff.mp hi).1 (by omega)
    · rcases getElem?_concat_cases hc with hc | ⟨-, rfl⟩
      · exact absurd (List.getElem?_eq_some_iff.mp hc).1 (by omega)
      · exact ⟨rfl, rfl, rfl⟩
  | io hi h => exact h.timed hs hi

/-- How many steps each call has made, and how many it has before it, at most. -/
structure TryProcess.Paced (acts : List TryAct) (s : TryProcess) : Prop where
  timed : s.Timed
  steps : ∀ (i : ℕ) (g : Getter) (c : TryCall), s.calls[i]? = some g →
    s.client.calls[i]? = some c → ownSteps i acts + g.place.rank c ≤ 13
  new : ∀ i, s.calls.length ≤ i → ownSteps i acts = 0

theorem TryProcess.Paced.step {act : TryAct} (hs : s.Paced acts) (h : TryStep s act s') :
    s'.Paced (acts ++ [act]) := by
  have htimed := hs.timed.step h
  have hlength := hs.timed.length
  cases h with
  | tick hcalls =>
    refine ⟨htimed, fun j g' c' hj hc' ↦ ?_, fun j hj ↦ ?_⟩
    · rw [ownSteps_concat]
      exact hs.steps j g' c' hj (hcalls ▸ hc')
    · rw [ownSteps_concat]
      exact hs.new j hj
  | @enter args client hcalls =>
    have hnone : ∀ j, ownSteps j [.enter args] = 0 := fun j ↦ rfl
    refine ⟨htimed, fun j g' c' hj hc' ↦ ?_, fun j hj ↦ ?_⟩
    · rw [ownSteps_concat, hnone, Nat.add_zero]
      simp only [hcalls] at hc'
      rcases getElem?_concat_cases hj with hj | ⟨rfl, rfl⟩
      · rcases getElem?_concat_cases hc' with hc' | ⟨rfl, -⟩
        · exact hs.steps j g' c' hj hc'
        · exact absurd (List.getElem?_eq_some_iff.mp hj).1 (by omega)
      · rw [hs.new _ le_rfl, Place.rank]
    · rw [ownSteps_concat, hnone, Nat.add_zero]
      simp only [List.length_append, List.length_singleton] at hj
      exact hs.new j (by omega)
  | @io i a g s₁ place' hi h =>
    obtain ⟨hcalls, -⟩ := h.calls_pfx
    have hlt : i < s.calls.length := (List.getElem?_eq_some_iff.mp hi).1
    have hlt' : i < s.client.calls.length := hlength ▸ hlt
    have hc : s.client.calls[i]? = some s.client.calls[i] := List.getElem?_eq_getElem hlt'
    refine ⟨htimed, fun j g' c' hj hc' ↦ ?_, fun j hj ↦ ?_⟩
    · rw [ownSteps_concat, ownSteps_io]
      by_cases hij : i = j
      · subst hij
        obtain ⟨c'', hc'', hrank⟩ := h.rank hc (hs.timed.fits i g _ hi hc)
        obtain rfl := Option.some.inj (hc'.symm.trans hc'')
        have hsteps := hs.steps i g _ hi hc
        simp only [hcalls] at hj
        rw [List.getElem?_set_self hlt, Option.some_inj] at hj
        subst hj
        rw [if_pos rfl]
        simp only
        omega
      · rw [if_neg hij, Nat.add_zero]
        simp only [hcalls] at hj
        rw [List.getElem?_set_ne hij] at hj
        rcases h.tests with ⟨hclient, -⟩ | ⟨-, c₂, -, hset, -⟩
        · exact hs.steps j g' c' hj (hclient ▸ hc')
        · refine hs.steps j g' c' hj ?_
          simp only [hset] at hc'
          rwa [List.getElem?_set_ne hij] at hc'
    · simp only [hcalls, List.length_set] at hj
      rw [ownSteps_concat, ownSteps_io, if_neg (by omega), Nat.add_zero]
      exact hs.new j hj

/-- The descriptor that a call closes is open, and no other call has it. -/
def ClosesOwn (s : TryProcess) (act : TryAct) : Prop :=
  ∀ (i : ℕ) (g : Getter) (fd : ℕ), act = .io i .close → s.calls[i]? = some g →
    g.place.fd = some fd → fd ∈ s.fds ∧
      ∀ (j : ℕ) (g' : Getter), j ≠ i → s.calls[j]? = some g' → g'.place.fd ≠ some fd

theorem TryProcess.Accounts.closesOwn (hs : s.Accounts) (act : TryAct) : ClosesOwn s act := by
  rintro i g fd - hi hfd
  obtain ⟨hnodup, hfds, -⟩ := (accounts_iff hi).mp hs
  rw [hfd, Option.toList_some, List.singleton_append] at hfds
  have hnot := (List.nodup_cons.mp (hfds.nodup_iff.mp hnodup)).1
  refine ⟨hfds.mem_iff.mpr List.mem_cons_self, fun j g' hj hg' hfd' ↦ hnot ?_⟩
  refine List.mem_flatMap.mpr ⟨g', List.mem_eraseIdx_iff_getElem?.mpr ⟨j, hj, hg'⟩, ?_⟩
  rw [hfd']
  exact List.mem_singleton_self fd

theorem TryProcess.Timed.exists_step (hs : s.Timed) {g : Getter} (hi : s.calls[i]? = some g)
    (hplace : g.place ≠ .returned) : ∃ a t, tryStep s (.io i a) = some t := by
  have hlt : i < s.client.calls.length := hs.length ▸ (List.getElem?_eq_some_iff.mp hi).1
  have hc : s.client.calls[i]? = some s.client.calls[i] := List.getElem?_eq_getElem hlt
  have hfits := hs.fits i g _ hi hc
  have hmove : ∀ {m c'}, callStep s.client s.client.calls[i] m = some c' →
      ∃ t, s.move i m = some t := by
    intro m c' h
    rw [TryProcess.move, clientStep, hc, Option.bind_some, h]
    exact ⟨_, rfl⟩
  have hgiveUp : s.client.calls[i].stage = .connecting → ∃ t, s.move i .giveUp = some t :=
    fun hstage ↦ hmove (if_pos hstage)
  obtain ⟨a, r, hr⟩ : ∃ a r, placeStep s i g.args g.place a = some r := by
    cases hg : g.place with
    | returned => exact absurd hg hplace
    | socket =>
      rw [hg] at hfits
      obtain ⟨t, ht⟩ := hgiveUp hfits.1
      exact ⟨.socket none, _, by rw [placeStep, ht]; rfl⟩
    | connect fd => exact ⟨.connect true, _, rfl⟩
    | peer fd => exact ⟨.peer none, _, rfl⟩
    | format fd => exact ⟨.format true, _, rfl⟩
    | send fd => exact ⟨.write true, _, rfl⟩
    | close fd =>
      rw [hg] at hfits
      obtain ⟨t, ht⟩ := hgiveUp hfits.1
      exact ⟨.close, _, by rw [placeStep, ht]; rfl⟩
    | wait fd =>
      rw [hg] at hfits
      rcases exists_callStep s.client hfits with hstage | ⟨m, c', hleave, hgive, hstep⟩
      · obtain ⟨t, ht⟩ := hmove (m := .leave) (if_pos hstage)
        exact ⟨.close, _, by rw [placeStep, ht]; rfl⟩
      · obtain ⟨t, ht⟩ := hmove hstep
        exact ⟨.timer m, _, by rw [placeStep, if_neg (not_or.mpr ⟨hleave, hgive⟩), ht]; rfl⟩
  exact ⟨a, _, by rw [tryStep, hi, Option.bind_some, hr]; rfl⟩

/-- How the calls of a process end: each after thirteen steps of its own at most, whatever the
system calls answer, and without a descriptor. -/
structure EndsClean (acts : List TryAct) (s : TryProcess) : Prop where
  accounts : s.Accounts
  steps : ∀ i, ownSteps i acts ≤ 13
  goesOn : ∀ (i : ℕ) (g : Getter), s.calls[i]? = some g → g.place ≠ .returned →
    ∃ a t, tryStep s (.io i a) = some t
  closed : (∀ g ∈ s.calls, g.place = .returned) → s.fds = []

private theorem start_accounts (pfx : Bytes) (now : ℤ) : (TryProcess.start pfx now).Accounts :=
  ⟨List.nodup_nil, List.Perm.refl _, List.Perm.refl _, fun _ hg ↦ absurd hg List.not_mem_nil⟩

private theorem paced_of_run (hrun : run tryStep (TryProcess.start pfx now) acts = some s) :
    s.Paced acts := by
  refine run_invariant (I := fun acts s ↦ s.Paced acts) ⟨⟨rfl, fun i g c hi ↦ ?_⟩,
    fun i g c hi ↦ ?_, fun _ _ ↦ rfl⟩ (fun _ _ _ _ hs h ↦ hs.step (tryStep_cases h)) hrun
  · exact absurd hi (by simp [TryProcess.start])
  · exact absurd hi (by simp [TryProcess.start])

/-- **The calls of a process**, in any interleaving. Each of them ends, and closes its own
descriptor and no other; but the messages that they have made stay. -/
theorem tryToGet_endsClean (hrun : run tryStep (TryProcess.start pfx now) acts = some s) :
    AllSteps tryStep ClosesOwn (TryProcess.start pfx now) acts ∧ EndsClean acts s := by
  have hkeep : ∀ s act s', TryProcess.Accounts s → True → tryStep s act = some s' →
      TryProcess.Accounts s' := fun _ _ _ hs _ h ↦ hs.step (tryStep_cases h)
  have hany : AllSteps tryStep (fun _ _ ↦ True) (TryProcess.start pfx now) acts :=
    AllSteps.of_forall_mem fun _ _ _ ↦ trivial
  have haccounts := hany.run_invariant (start_accounts pfx now) hkeep hrun
  have hpaced := paced_of_run hrun
  refine ⟨hany.of_invariant (start_accounts pfx now) hkeep fun s act hs _ ↦ hs.closesOwn act,
    haccounts, fun i ↦ ?_, fun i g hi hplace ↦ hpaced.timed.exists_step hi hplace, fun hall ↦ ?_⟩
  · rcases Nat.lt_or_ge i s.calls.length with hlt | hge
    · have hlt' : i < s.client.calls.length := hpaced.timed.length ▸ hlt
      have hsteps := hpaced.steps i s.calls[i] s.client.calls[i]
        (List.getElem?_eq_getElem hlt) (List.getElem?_eq_getElem hlt')
      omega
    · rw [hpaced.new i hge]
      exact Nat.zero_le 13
  · have hnone : s.calls.flatMap (fun g ↦ g.place.fd.toList) = [] := by
      rw [List.flatMap_eq_nil_iff]
      intro g hg
      rw [hall g hg]
      rfl
    rw [← List.perm_nil, ← hnone]
    exact haccounts.fds

/-- Two threads, of which the second is given the number that the first has closed. -/
def twoGetters : List TryAct :=
  [.enter ⟨bytes "/a", 7, 0⟩, .io 0 (.socket (some 3)), .io 0 (.connect true),
    .io 0 (.peer (some 7)), .enter ⟨bytes "/b", 8, 1⟩, .io 0 .close, .io 1 (.socket (some 3)),
    .io 1 (.connect true), .io 1 (.peer (some 9)), .io 1 (.format true), .io 1 (.write true),
    .io 1 (.timer .readClock), .io 1 (.timer .readDead), .io 1 (.timer .select),
    .io 1 (.timer .finish), .io 1 .close]

/-- The first is a recursion and makes no message; that of the second stays. -/
theorem tryToGet_endsClean_twoGetters : ∃ s,
    run tryStep (TryProcess.start (bytes "lib") 100) twoGetters = some s ∧ s.fds = [] ∧
      s.blocks = [bytes "1:lib:/b" ++ [0]] ∧
      AllSteps tryStep ClosesOwn (TryProcess.start (bytes "lib") 100) twoGetters ∧
      EndsClean twoGetters s := by
  have hmap : (run tryStep (TryProcess.start (bytes "lib") 100) twoGetters).map
      (fun s ↦ (s.fds, s.blocks)) = some ([], [bytes "1:lib:/b" ++ [0]]) := by decide +kernel
  obtain ⟨s, hrun, hs⟩ := Option.map_eq_some_iff.mp hmap
  obtain ⟨hfds, hblocks⟩ := Prod.mk.inj hs
  exact ⟨s, hrun, hfds, hblocks, tryToGet_endsClean hrun⟩

/-! ## The deadline tests of a run -/

/-- The step of a call as `Client.Backoff` has it. -/
def Place.move : Place → IoAct → Option Move
  | .socket, .socket none => some .giveUp
  | .wait _, .timer m => some m
  | .wait _, .close => some .leave
  | .close _, .close => some .giveUp
  | _, _ => none

def TryProcess.label (s : TryProcess) : TryAct → Option ClientAction
  | .tick seconds => some (.tick seconds)
  | .enter args => some (.enter args.timestamp.toInt)
  | .io i a => (s.calls[i]?.bind fun g ↦ g.place.move a).map (.move i)

theorem PlaceStep.client (h : PlaceStep s i args place a s' place') :
    place.move a = none ∧ s'.client = s.client ∨
      ∃ m, place.move a = some m ∧ clientStep s.client (.move i m) = some s'.client := by
  cases h with
  | noSocket h | timer _ h =>
    obtain ⟨client, hclient, rfl⟩ := move_eq h
    exact Or.inr ⟨_, rfl, hclient⟩
  | leave h | giveUp h =>
    obtain ⟨client, hclient, rfl⟩ := move_eq h
    exact Or.inr ⟨_, rfl, hclient⟩
  | _ => exact Or.inl ⟨rfl, rfl⟩

private theorem client_of_tryStep {act : TryAct} (h : tryStep s act = some s') :
    run clientStep s.client (s.label act).toList = some s'.client := by
  cases act with
  | tick seconds =>
    obtain rfl := Option.some.inj h
    rfl
  | enter args =>
    obtain rfl := Option.some.inj h
    rfl
  | io i a =>
    obtain ⟨g, hg, hrest⟩ := Option.bind_eq_some_iff.mp h
    obtain ⟨⟨s₁, place'⟩, hstep, rfl⟩ := Option.map_eq_some_iff.mp hrest
    rw [TryProcess.label, hg, Option.bind_some]
    rcases (placeStep_cases hstep).client with ⟨hnone, hsame⟩ | ⟨m, hm, hmove⟩
    · rw [hnone]
      exact congrArg some hsame.symm
    · rw [hm]
      exact run_singleton.trans hmove

/-- A run of the process is one of its deadline tests, as `Client.Backoff` has them. -/
theorem run_client (hrun : run tryStep s acts = some t) :
    run clientStep s.client (trace tryStep TryProcess.label s acts) = some t.client := by
  have hall : AllSteps tryStep (fun _ _ ↦ True) s acts :=
    AllSteps.of_forall_mem fun _ _ _ ↦ trivial
  exact hall.run_trace (I := fun _ ↦ True) TryProcess.client trivial
    (fun _ _ _ _ _ hs ↦ ⟨trivial, client_of_tryStep hs⟩) hrun

end ClrDebugInfo
