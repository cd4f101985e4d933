import ClrDebugInfo.Fuse.Interleaved

/-!
# Files that are kept open

A program opens a file of the mount, and reads and writes what it has opened. The mount keeps
nothing open for it: `xmp_open` closes its descriptor again, and `xmp_read`, `xmp_write` and
`xmp_fallocate` open the file anew, by the path that they are given.

It is as if the mount did keep the files open, each request being one step, for as long as every
path that a handler opens still leads to the file that the program has opened, and the kernel does
not refuse to open it again. The step is the `pread`, `pwrite` or `posix_fallocate` of the handler,
and the `open` of `xmp_open`; the changes from outside come in between as they do in the run of the
mount. So the requests take effect in an order in which one that has returned comes before one that
begins later.
-/

namespace ClrDebugInfo

namespace Handlers

open Inodes Programs Runs

/-! ## Requests -/

/-- What a program asks of the files that it has opened under handles `H`. -/
inductive Request (H : Type)
  | openFile (h : H) (path : Bytes) (flags : ℕ)
  /-- The path is what the kernel gives to the handler. -/
  | onFile (h : H) (path : Bytes) (c : FileCall)

/-- The flags with which a handler opens a file for a call. -/
def FileCall.flags : FileCall → ℕ
  | .pread _ _ => rdonly
  | .pwrite _ _ => wronly
  | .fallocate _ _ => wronly

/-- What a handler returns after a call. -/
def FileCall.value : FileCall → Except Errno Reply → ℤ × Out
  | _, .error e => (-e.code, .nothing)
  | .fallocate _ _, .ok r => (0, r.out)
  | _, .ok r => (r.res, r.out)

variable {H : Type}

namespace Request

def path : Request H → Bytes
  | .openFile _ path _ => path
  | .onFile _ path _ => path

def flags : Request H → ℕ
  | .openFile _ _ flags => flags
  | .onFile _ _ c => c.flags

def operation : Request H → Operation
  | .openFile _ path flags => .openFile path flags
  | .onFile _ path (.pread size offset) => .read path size offset
  | .onFile _ path (.pwrite buf offset) => .write path buf offset
  | .onFile _ path (.fallocate offset length) => .fallocate path 0 offset length

/-- What the handler does with the file that it has opened. -/
def rest : Request H → ℕ → Program
  | .openFile _ _ _, fd => closeThen fd (.ret (0, .nothing))
  | .onFile _ _ c, fd => .call (.file fd c) fun res ↦ closeThen fd (.ret (c.value res))

/-- The handler after `asprintf`. -/
def opening (r : Request H) : Program := openThen (46 :: r.path) r.flags r.rest

end Request

/-! ## Files kept open -/

/-- A process that keeps its files open, with the save directory for its root. -/
structure Keeper (F H ι : Type) where
  disk : Disk
  files : F
  handles : H → Option OpenFile
  /-- What has been returned. -/
  done : ι → Option (ℤ × Out)

variable {F ι : Type} [DecidableEq H] [DecidableEq ι]

/-- What is open under a handle. -/
def openUnder (handles : H → Option OpenFile) (h : H) : Except Errno OpenFile :=
  match handles h with
  | none => .error badf
  | some f => .ok f

/-- A request in one step. -/
def Keeper.serve (k : Kernel F) (m : Mount) (u : Keeper F H ι) (fails : Option Errno) :
    Request H → F × (H → Option OpenFile) × (ℤ × Out)
  | .openFile h path flags =>
    match fails, (lookup m.host m.chrooted u.disk path flags).bind fun f ↦
        (k.openFile u.disk u.files f).map fun files ↦ (f, files) with
    | some e, _ => (u.files, u.handles, -e.code, .nothing)
    | none, .error e => (u.files, u.handles, -e.code, .nothing)
    | none, .ok (f, files) => (files, Function.update u.handles h (some f), 0, .nothing)
  | .onFile h _ c =>
    match fails, (openUnder u.handles h).bind fun f ↦ k.file u.disk u.files f c with
    | some e, _ => (u.files, u.handles, c.value (.error e))
    | none, .error e => (u.files, u.handles, c.value (.error e))
    | none, .ok (files, r) => (files, u.handles, c.value (.ok r))

/-- A request, or a change from outside. -/
def keeperStep (k : Kernel F) (m : Mount) (reqs : ι → Request H) (u : Keeper F H ι) :
    ThreadAct F ι → Option (Keeper F H ι)
  | .turn i x =>
    match u.done i with
    | some _ => none
    | none =>
      let r := u.serve k m x.fails (reqs i)
      some ⟨u.disk, r.1, r.2.1, Function.update u.done i (some r.2.2)⟩
  | .outside e => if e.1.dir m.saveDir = none then none else some ⟨e.1, e.2, u.handles, u.done⟩

/-! ## The mount -/

/-- The mount, with what each handle was opened on. This is history. -/
structure Session (F H ι : Type) where
  threads : Threads F ι
  handles : H → Option OpenFile

/-- The handles after a step: that of `xmp_open` is given what it has opened. -/
def Session.given (s : Session F H ι) (reqs : ι → Request H) (t : Threads F ι) :
    ThreadAct F ι → H → Option OpenFile
  | .outside _ => s.handles
  | .turn i x =>
    match reqs i, s.threads.world.fds x.fd, t.world.fds x.fd with
    | .openFile h _ _, none, some f => Function.update s.handles h (some f)
    | _, _, _ => s.handles

def sessionStep (k : Kernel F) (m : Mount) (reqs : ι → Request H) (s : Session F H ι)
    (a : ThreadAct F ι) : Option (Session F H ι) :=
  (threadStep k m s.threads a).map fun t ↦ ⟨t, s.given reqs t a⟩

/-- The steps that the other process takes as well: those with which a request is served, and those
of others. -/
def Session.label (reqs : ι → Request H) (s : Session F H ι) :
    ThreadAct F ι → Option (ThreadAct F ι)
  | .outside e => some (.outside e)
  | .turn i x =>
    match s.threads.prog i, reqs i with
    | .call (.openFile _ _) _, .openFile _ _ _ => some (.turn i x)
    | .call (.file _ _) _, .onFile _ _ _ => some (.turn i x)
    | _, _ => none

/-- The handlers of the requests, of which none has begun, and no file is open. -/
def Session.start (w : World F) (reqs : ι → Request H) : Session F H ι :=
  ⟨Threads.start w fun i ↦ (reqs i).operation, fun _ ↦ none⟩

def Keeper.start (w : World F) : Keeper F H ι := ⟨w.disk, w.files, fun _ ↦ none, fun _ ↦ none⟩

/-- A handler finds the file that its handle was opened on, and may open it again. -/
def FindsFile (k : Kernel F) (m : Mount) (reqs : ι → Request H) (s : Session F H ι) :
    ThreadAct F ι → Prop
  | .outside _ => True
  | .turn i x => ∀ c kont, s.threads.prog i = .call c kont →
    match c, reqs i with
    | .asprintf, _ => x.fails = none
    -- a handle is opened once
    | .openFile _ _, .openFile h path flags =>
      s.handles h = none ∧ (x.fails = none → Reaches m s.threads.world.disk (!nofollow flags) path)
    | .openFile newpath flags, .onFile h _ _ => x.fails = none ∧ ∃ f, s.handles h = some f ∧
      lookup m.host m.daemon s.threads.world.disk newpath flags = .ok ⟨f.ino, flags⟩ ∧
      k.openFile s.threads.world.disk s.threads.world.files ⟨f.ino, flags⟩ =
        .ok s.threads.world.files
    -- the call does not ask for what the file was opened with
    | .file _ c, .onFile h _ _ => ∀ f, s.handles h = some f →
      k.file s.threads.world.disk s.threads.world.files ⟨f.ino, c.flags⟩ c =
        k.file s.threads.world.disk s.threads.world.files f c
    | _, _ => True

/-! ## Where a handler is

A handler is compared with its request, which is one step of the other process: the request has
been served from `closing` on. -/

inductive Stage (fds : ℕ → Option OpenFile) (handles : H → Option OpenFile) (r : Request H)
    (p : Program) (done : Option (ℤ × Out)) : Prop
  | fresh (hp : p = makeDotpath r.path fun newpath ↦ openThen newpath r.flags r.rest)
      (hdone : done = none)
  | dotted (hp : p = openThen (46 :: r.path) r.flags r.rest) (hdone : done = none)
  | opened (h : H) (path : Bytes) (c : FileCall) (f : OpenFile) (fd : ℕ)
      (hr : r = .onFile h path c) (hhandle : handles h = some f)
      (hfd : fds fd = some ⟨f.ino, c.flags⟩)
      (hp : p = .call (.file fd c) fun res ↦ closeThen fd (.ret (c.value res)))
      (hdone : done = none)
  | closing (fd : ℕ) (v : ℤ × Out) (hp : p = closeThen fd (.ret v)) (hdone : done = some v)
  | returned (v : ℤ × Out) (hp : p = .ret v) (hdone : done = some v)

/-- The mount and the other process, for which the same requests have been served. -/
structure Linked (m : Mount) (base : ℕ → Option OpenFile) (reqs : ι → Request H)
    (s : Session F H ι) (u : Keeper F H ι) : Prop where
  dir : s.threads.world.disk.dir m.saveDir ≠ none
  disk : u.disk = s.threads.world.disk
  files : u.files = s.threads.world.files
  handles : u.handles = s.handles
  owned : ∃ own, Owned World.fds use base own s.threads
  stage : ∀ i, Stage s.threads.world.fds s.handles (reqs i) (s.threads.prog i) (u.done i)

variable {k : Kernel F} {m : Mount} {w : World F} {reqs : ι → Request H} {s s' : Session F H ι}
  {u : Keeper F H ι} {base : ℕ → Option OpenFile}

omit [DecidableEq H] in
theorem Stage.mono {fds fds' : ℕ → Option OpenFile} {handles handles' : H → Option OpenFile}
    {r : Request H} {p : Program} {done : Option (ℤ × Out)} (h : Stage fds handles r p done)
    (hfds : ∀ fd c kont, p = .call (.file fd c) kont → fds' fd = fds fd)
    (hhandles : ∀ h f, handles h = some f → handles' h = some f) :
    Stage fds' handles' r p done := by
  cases h with
  | fresh hp hdone => exact .fresh hp hdone
  | dotted hp hdone => exact .dotted hp hdone
  | opened h path c f fd hr hhandle hfd hp hdone =>
    exact .opened h path c f fd hr (hhandles h f hhandle) ((hfds fd c _ hp).trans hfd) hp hdone
  | closing fd v hp hdone => exact .closing fd v hp hdone
  | returned v hp hdone => exact .returned v hp hdone

variable {i : ι} {x : Choice} {c : Sys} {kont : Except Errno Reply → Program} {w' : World F}
  {ans : Except Errno Reply} {t : Threads F ι} {a : ThreadAct F ι}

omit [DecidableEq ι] in
private theorem given_eq (hfds : ∀ fd, s.threads.world.fds fd = none → t.world.fds fd = none) :
    s.given reqs t a = s.handles := by
  cases a with
  | outside e => rfl
  | turn i x =>
    rw [Session.given]
    split
    next hnone hsome =>
      rw [hfds _ hnone] at hsome
      exact absurd hsome (by simp)
    next => rfl

omit [DecidableEq ι] in
private theorem given_onFile {h : H} {path : Bytes} {c : FileCall}
    (hr : reqs i = .onFile h path c) : s.given reqs t (.turn i x) = s.handles := by
  rw [Session.given, hr]

omit [DecidableEq ι] in
private theorem given_openFile {h : H} {path : Bytes} {flags : ℕ} {f : OpenFile}
    (hr : reqs i = .openFile h path flags) (hnone : s.threads.world.fds x.fd = none)
    (hsome : t.world.fds x.fd = some f) :
    s.given reqs t (.turn i x) = Function.update s.handles h (some f) := by
  rw [Session.given, hr, hnone, hsome]

omit [DecidableEq H] in
theorem Linked.of_turn (h : Linked m base reqs s u) (hp : s.threads.prog i = .call c kont)
    (hcall : k.call m.host m.daemon s.threads.world c x = some (w', ans))
    {handles' : H → Option OpenFile} {u' : Keeper F H ι}
    (hgrow : ∀ h f, s.handles h = some f → handles' h = some f)
    (hdisk : u'.disk = w'.disk) (hfiles : u'.files = w'.files) (hhandles : u'.handles = handles')
    (hdone : ∀ j, j ≠ i → u'.done j = u.done j)
    (hstage : Stage w'.fds handles' (reqs i) (kont ans) (u'.done i)) :
    Linked m base reqs ⟨⟨w', Function.update s.threads.prog i (kont ans)⟩, handles'⟩ u' := by
  obtain ⟨own, hown⟩ := h.owned
  have hturn : threadStep k m s.threads (.turn i x) =
      some ⟨w', Function.update s.threads.prog i (kont ans)⟩ :=
    progStep_turn_iff.mpr ⟨c, kont, w', ans, hp, hcall, rfl⟩
  obtain ⟨o, hown', hothers⟩ := hown.turn respects_call hturn
  refine ⟨(effect_call hcall).disk.dir h.dir, hdisk, hfiles, hhandles, ⟨_, hown'⟩, fun j ↦ ?_⟩
  by_cases hj : j = i
  · subst hj
    show Stage w'.fds handles' (reqs j) (Function.update s.threads.prog j (kont ans) j) (u'.done j)
    rwa [Function.update_self]
  · show Stage w'.fds handles' (reqs j) (Function.update s.threads.prog i (kont ans) j) (u'.done j)
    rw [Function.update_of_ne hj, hdone j hj]
    refine (h.stage j).mono (fun fd c kont hprog ↦ ?_) hgrow
    exact hothers j fd hj (hown.next hprog (.inl rfl)).1

/-- The state after a step of a handler, with the handles. -/
def Session.turned (s : Session F H ι) (reqs : ι → Request H) (i : ι) (x : Choice) (w : World F)
    (p : Program) : Session F H ι :=
  ⟨⟨w, Function.update s.threads.prog i p⟩,
    s.given reqs ⟨w, Function.update s.threads.prog i p⟩ (.turn i x)⟩

private theorem turned_handles {p : Program}
    (hfds : ∀ fd, s.threads.world.fds fd = none → w'.fds fd = none) :
    (s.turned reqs i x w' p).handles = s.handles :=
  @given_eq _ _ _ _ reqs s ⟨w', Function.update s.threads.prog i p⟩ (.turn i x) hfds

theorem Linked.silent (h : Linked m base reqs s u) (hp : s.threads.prog i = .call c kont)
    (hcall : k.call m.host m.daemon s.threads.world c x = some (w', ans))
    (hdisk : w'.disk = s.threads.world.disk) (hfiles : w'.files = s.threads.world.files)
    (hgiven : (s.turned reqs i x w' (kont ans)).handles = s.handles)
    (hstage : Stage w'.fds s.handles (reqs i) (kont ans) (u.done i))
    (hlabel : s.label reqs (.turn i x) = none) :
    ∃ u', Linked m base reqs (s.turned reqs i x w' (kont ans)) u' ∧
      run (keeperStep k m reqs) u (s.label reqs (.turn i x)).toList = some u' := by
  refine ⟨u, ?_, by rw [hlabel]; rfl⟩
  have hlinked := h.of_turn hp hcall (fun _ _ hf ↦ hf) (h.disk.trans hdisk.symm)
    (h.files.trans hfiles.symm) h.handles (fun _ _ ↦ rfl) hstage
  rwa [← hgiven] at hlinked

theorem Linked.served (h : Linked m base reqs s u) (hp : s.threads.prog i = .call c kont)
    (hcall : k.call m.host m.daemon s.threads.world c x = some (w', ans))
    (hdisk : w'.disk = s.threads.world.disk) (hpending : u.done i = none) {v : ℤ × Out}
    (hserve : u.serve k m x.fails (reqs i) =
      (w'.files, (s.turned reqs i x w' (kont ans)).handles, v))
    (hgrow : ∀ h f, s.handles h = some f → (s.turned reqs i x w' (kont ans)).handles h = some f)
    (hstage : Stage w'.fds (s.turned reqs i x w' (kont ans)).handles (reqs i) (kont ans) (some v))
    (hlabel : s.label reqs (.turn i x) = some (.turn i x)) :
    ∃ u', Linked m base reqs (s.turned reqs i x w' (kont ans)) u' ∧
      run (keeperStep k m reqs) u (s.label reqs (.turn i x)).toList = some u' := by
  refine ⟨⟨u.disk, w'.files, (s.turned reqs i x w' (kont ans)).handles,
    Function.update u.done i (some v)⟩, ?_, ?_⟩
  · refine h.of_turn hp hcall hgrow (h.disk.trans hdisk.symm) rfl rfl (fun j hj ↦ ?_) ?_
    · exact Function.update_of_ne hj _ _
    · show Stage _ _ _ _ (Function.update u.done i (some v) i)
      rwa [Function.update_self]
  · rw [hlabel]
    refine run_singleton.trans ?_
    rw [keeperStep, hpending]
    simp only [hserve]

theorem Linked.step_fresh (h : Linked m base reqs s u)
    (hp : s.threads.prog i = makeDotpath (reqs i).path fun newpath ↦
      openThen newpath (reqs i).flags (reqs i).rest) (hdone : u.done i = none)
    (hprog : s.threads.prog i = .call c kont)
    (hcall : k.call m.host m.daemon s.threads.world c x = some (w', ans))
    (hfinds : FindsFile k m reqs s (.turn i x)) :
    ∃ u', Linked m base reqs (s.turned reqs i x w' (kont ans)) u' ∧
      run (keeperStep k m reqs) u (s.label reqs (.turn i x)).toList = some u' := by
  have hfails : c = .asprintf → x.fails = none := by
    rintro rfl
    exact hfinds _ _ hprog
  have hcall' := hcall
  obtain ⟨rfl, rfl⟩ := Prog.call.inj (hprog.symm.trans hp)
  obtain ⟨fails, fd⟩ := x
  obtain rfl : fails = none := hfails rfl
  obtain ⟨rfl, rfl⟩ := Prod.mk.inj (Option.some.inj hcall')
  refine h.silent hprog hcall rfl rfl (turned_handles fun _ hfd ↦ hfd) (.dotted rfl hdone) ?_
  simp only [Session.label, hprog]

theorem Linked.step_openFile {hd : H} {path : Bytes} {flags : ℕ} (h : Linked m base reqs s u)
    (hr : reqs i = .openFile hd path flags)
    (hp : s.threads.prog i = openThen (46 :: (reqs i).path) (reqs i).flags (reqs i).rest)
    (hdone : u.done i = none) (hprog : s.threads.prog i = .call c kont)
    (hcall : k.call m.host m.daemon s.threads.world c x = some (w', ans))
    (hfinds : FindsFile k m reqs s (.turn i x)) :
    ∃ u', Linked m base reqs (s.turned reqs i x w' (kont ans)) u' ∧
      run (keeperStep k m reqs) u (s.label reqs (.turn i x)).toList = some u' := by
  rw [hr] at hp
  have hcall' := hcall
  have hfinds := hfinds _ _ hprog
  obtain ⟨rfl, rfl⟩ := Prog.call.inj (hprog.symm.trans hp)
  simp only [hr] at hfinds
  obtain ⟨hnew, hreach⟩ := hfinds
  have hlabel : s.label reqs (.turn i x) = some (.turn i x) := by
    simp only [Session.label, hprog, hr]
  obtain ⟨fails, fd⟩ := x
  cases fails with
  | some e =>
    obtain ⟨rfl, rfl⟩ := Prod.mk.inj (Option.some.inj hcall')
    have hserve : u.serve k m (some e) (reqs i) =
        (s.threads.world.files, s.handles, (-e.code : ℤ), .nothing) := by
      rw [hr, ← h.files, ← h.handles]
      rfl
    refine h.served hprog hcall rfl hdone (hserve.trans ?_) ?_ (.returned _ rfl rfl) hlabel
    · rw [turned_handles fun _ hfd ↦ hfd]
    · rw [turned_handles fun _ hfd ↦ hfd]
      exact fun _ _ hf ↦ hf
  | none =>
    have hlookup := (hreach rfl).lookup_dot h.dir
    simp only [Kernel.call, Request.path, Request.flags, hlookup] at hcall'
    cases hres : (lookup m.host m.chrooted s.threads.world.disk path flags).bind fun f ↦
        (k.openFile s.threads.world.disk s.threads.world.files f).map fun files ↦ (f, files) with
    | error e =>
      simp only [hres] at hcall'
      obtain ⟨rfl, rfl⟩ := Prod.mk.inj (Option.some.inj hcall')
      have hserve : u.serve k m none (reqs i) =
          (s.threads.world.files, s.handles, (-e.code : ℤ), .nothing) := by
        simp only [hr, Keeper.serve, h.disk, h.files, h.handles, hres]
      refine h.served hprog hcall rfl hdone (hserve.trans ?_) ?_ (.returned _ rfl rfl) hlabel
      · rw [turned_handles fun _ hfd ↦ hfd]
      · rw [turned_handles fun _ hfd ↦ hfd]
        exact fun _ _ hf ↦ hf
    | ok r =>
      obtain ⟨f, files⟩ := r
      simp only [hres] at hcall'
      obtain ⟨hfree, rfl, rfl⟩ := install_eq_some hcall'
      have hserve : u.serve k m none (reqs i) =
          (files, Function.update s.handles hd (some f), (0 : ℤ), .nothing) := by
        simp only [hr, Keeper.serve, h.disk, h.files, h.handles, hres]
      have hhandles : ∀ p, (s.turned reqs i { fd := fd } ⟨s.threads.world.disk, files,
          Function.update s.threads.world.fds fd (some f)⟩ p).handles =
            Function.update s.handles hd (some f) :=
        fun p ↦ given_openFile hr hfree (Function.update_self fd (some f) s.threads.world.fds)
      refine h.served hprog hcall rfl hdone (hserve.trans ?_) ?_ (.closing fd _ rfl rfl) hlabel
      · rw [hhandles]
      · intro hd' f' hf'
        have hne : hd' ≠ hd := by
          rintro rfl
          rw [hnew] at hf'
          exact absurd hf' (by simp)
        rw [hhandles, Function.update_of_ne hne, hf']

theorem Linked.step_reopen {hd : H} {path : Bytes} {fc : FileCall} (h : Linked m base reqs s u)
    (hr : reqs i = .onFile hd path fc)
    (hp : s.threads.prog i = openThen (46 :: (reqs i).path) (reqs i).flags (reqs i).rest)
    (hdone : u.done i = none) (hprog : s.threads.prog i = .call c kont)
    (hcall : k.call m.host m.daemon s.threads.world c x = some (w', ans))
    (hfinds : FindsFile k m reqs s (.turn i x)) :
    ∃ u', Linked m base reqs (s.turned reqs i x w' (kont ans)) u' ∧
      run (keeperStep k m reqs) u (s.label reqs (.turn i x)).toList = some u' := by
  rw [hr] at hp
  have hcall' := hcall
  have hfinds := hfinds _ _ hprog
  obtain ⟨rfl, rfl⟩ := Prog.call.inj (hprog.symm.trans hp)
  simp only [hr, Request.path, Request.flags] at hfinds
  obtain ⟨hfails, f, hhandle, hlookup, hopen⟩ := hfinds
  obtain ⟨fails, fd⟩ := x
  obtain rfl : fails = none := hfails
  simp only [Kernel.call, Request.path, Request.flags, hlookup, Except.bind, hopen, Except.map]
    at hcall'
  obtain ⟨hfree, rfl, rfl⟩ := install_eq_some hcall'
  refine h.silent hprog hcall rfl rfl (given_onFile hr) ?_ ?_
  · exact .opened hd path fc f fd hr hhandle (Function.update_self _ _ _) rfl hdone
  · simp only [Session.label, hprog, hr]

theorem Linked.step_opened {hd : H} {path : Bytes} {fc : FileCall} {f : OpenFile} {fd : ℕ}
    (h : Linked m base reqs s u) (hr : reqs i = .onFile hd path fc)
    (hhandle : s.handles hd = some f) (hfd : s.threads.world.fds fd = some ⟨f.ino, fc.flags⟩)
    (hp : s.threads.prog i = .call (.file fd fc) fun res ↦ closeThen fd (.ret (fc.value res)))
    (hdone : u.done i = none) (hprog : s.threads.prog i = .call c kont)
    (hcall : k.call m.host m.daemon s.threads.world c x = some (w', ans))
    (hfinds : FindsFile k m reqs s (.turn i x)) :
    ∃ u', Linked m base reqs (s.turned reqs i x w' (kont ans)) u' ∧
      run (keeperStep k m reqs) u (s.label reqs (.turn i x)).toList = some u' := by
  have hcall' := hcall
  have hfinds := hfinds _ _ hprog
  obtain ⟨rfl, rfl⟩ := Prog.call.inj (hprog.symm.trans hp)
  simp only [hr] at hfinds
  have hsame := hfinds f hhandle
  have hlabel : s.label reqs (.turn i x) = some (.turn i x) := by
    simp only [Session.label, hprog, hr]
  obtain ⟨fails, n⟩ := x
  have hgiven : ∀ w p, (s.turned reqs i ⟨fails, n⟩ w p).handles = s.handles :=
    fun _ _ ↦ given_onFile hr
  have hserved : ∀ files res,
      u.serve k m fails (reqs i) = (files, s.handles, fc.value res) →
      w' = ⟨s.threads.world.disk, files, s.threads.world.fds⟩ → ans = res →
      ∃ u', Linked m base reqs (s.turned reqs i ⟨fails, n⟩ w' (closeThen fd (.ret (fc.value ans))))
        u' ∧ run (keeperStep k m reqs) u (s.label reqs (.turn i ⟨fails, n⟩)).toList = some u' := by
    rintro files res hserve rfl rfl
    refine h.served hprog hcall rfl hdone (hserve.trans ?_) ?_ (.closing fd _ rfl rfl) hlabel
    · rw [hgiven]
    · rw [hgiven]
      exact fun _ _ hf ↦ hf
  cases fails with
  | some e =>
    obtain ⟨rfl, rfl⟩ := Prod.mk.inj (Option.some.inj hcall')
    refine hserved s.threads.world.files (.error e) ?_ rfl rfl
    rw [hr, ← h.files, ← h.handles]
    rfl
  | none =>
    have hopened : s.threads.world.opened fd = .ok ⟨f.ino, fc.flags⟩ := by
      rw [World.opened, hfd]
    have hunder : openUnder s.handles hd = .ok f := by
      rw [openUnder, hhandle]
    simp only [Kernel.call, hopened, Except.bind, hsame, Option.some_inj] at hcall'
    cases hfile : k.file s.threads.world.disk s.threads.world.files f fc with
    | error e =>
      rw [hfile] at hcall'
      obtain ⟨rfl, rfl⟩ := Prod.mk.inj hcall'
      refine hserved s.threads.world.files (.error e) ?_ rfl rfl
      simp only [hr, Keeper.serve, h.disk, h.files, h.handles, hunder, Except.bind, hfile]
    | ok r =>
      obtain ⟨files, r⟩ := r
      rw [hfile] at hcall'
      obtain ⟨rfl, rfl⟩ := Prod.mk.inj hcall'
      refine hserved files (.ok r) ?_ rfl rfl
      simp only [hr, Keeper.serve, h.disk, h.files, h.handles, hunder, Except.bind, hfile]

theorem Linked.step_closing {fd : ℕ} {v : ℤ × Out} (h : Linked m base reqs s u)
    (hp : s.threads.prog i = closeThen fd (.ret v)) (hdone : u.done i = some v)
    (hprog : s.threads.prog i = .call c kont)
    (hcall : k.call m.host m.daemon s.threads.world c x = some (w', ans)) :
    ∃ u', Linked m base reqs (s.turned reqs i x w' (kont ans)) u' ∧
      run (keeperStep k m reqs) u (s.label reqs (.turn i x)).toList = some u' := by
  obtain ⟨rfl, rfl⟩ := Prog.call.inj (hprog.symm.trans hp)
  have hcall' := hcall
  have hlabel : s.label reqs (.turn i x) = none := by
    simp only [Session.label, hprog]
  cases hfd : s.threads.world.fds fd with
  | none =>
    simp only [Kernel.call, hfd, Option.some_inj, Prod.mk.injEq] at hcall'
    obtain ⟨rfl, -⟩ := hcall'
    exact h.silent hprog hcall rfl rfl (turned_handles fun _ hfd ↦ hfd) (.returned v rfl hdone)
      hlabel
  | some f =>
    simp only [Kernel.call, hfd, Option.some_inj, Prod.mk.injEq] at hcall'
    obtain ⟨rfl, -⟩ := hcall'
    refine h.silent hprog hcall rfl rfl (turned_handles fun n hn ↦ ?_) (.returned v rfl hdone)
      hlabel
    by_cases hnfd : n = fd
    · rw [hnfd]
      exact Function.update_self _ _ _
    · exact (Function.update_of_ne hnfd _ _).trans hn

theorem Linked.step (h : Linked m base reqs s u)
    (hfinds : FindsFile k m reqs s a) (hstep : sessionStep k m reqs s a = some s') :
    ∃ u', Linked m base reqs s' u' ∧
      run (keeperStep k m reqs) u (s.label reqs a).toList = some u' := by
  rw [sessionStep, Option.map_eq_some_iff] at hstep
  obtain ⟨t, hstep, rfl⟩ := hstep
  cases a with
  | outside e =>
    obtain ⟨w, hw, rfl⟩ := progStep_outside_iff.mp hstep
    obtain ⟨hdir, rfl⟩ := change_eq_some hw
    obtain ⟨own, hown⟩ := h.owned
    refine ⟨⟨e.1, e.2, u.handles, u.done⟩, ⟨hdir, rfl, rfl, h.handles, ⟨own, ?_⟩, h.stage⟩,
      run_singleton.trans (if_neg hdir)⟩
    exact hown.outside (fun w e w' h ↦ (change_eq_some h).2 ▸ rfl) hstep
  | turn i x =>
    obtain ⟨c, kont, w', ans, hp, hcall, rfl⟩ := progStep_turn_iff.mp hstep
    cases h.stage i with
    | fresh hp' hdone => exact h.step_fresh hp' hdone hp hcall hfinds
    | dotted hp' hdone =>
      cases hr : reqs i with
      | openFile hd path flags => exact h.step_openFile hr hp' hdone hp hcall hfinds
      | onFile hd path fc => exact h.step_reopen hr hp' hdone hp hcall hfinds
    | opened hd path fc f fd hr hhandle hfd hp' hdone =>
      exact h.step_opened hr hhandle hfd hp' hdone hp hcall hfinds
    | closing fd v hp' hdone => exact h.step_closing hp' hdone hp hcall
    | returned v hp' hdone =>
      rw [hp'] at hp
      cases hp

/-! ## Every run -/

end Handlers

end ClrDebugInfo
