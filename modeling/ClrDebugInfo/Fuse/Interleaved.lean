import ClrDebugInfo.Fuse.Handlers

/-!
# The mount, whatever the threads do

Runs of any number of handlers at once, with changes from outside at any time.

The mount is compared with a process for which the save directory is the root and which makes the
same calls with the paths as they came. The target of a link is the one text that is no path of
the mount, so that a link that is made through the mount is another one.
-/

namespace ClrDebugInfo

namespace Handlers

open Inodes Programs Runs
open FileTree (components)

/-! ## Without the dot -/

/-- The call with the paths as they came. -/
def undotName : NameOp → NameOp
  | .mknod path type => .mknod path.tail type
  | .mkdir path => .mkdir path.tail
  | .unlink path => .unlink path.tail
  | .rmdir path => .rmdir path.tail
  | .symlink old new => .symlink old.tail new.tail
  | .rename old new => .rename old.tail new.tail
  | .link old new => .link old.tail new.tail

def undot : Sys → Sys
  | .inode follow path c => .inode follow path.tail c
  | .inodeAt fd path c => .inodeAt fd path.tail c
  | .readlink path size => .readlink path.tail size
  | .name op mode rdev => .name (undotName op) mode rdev
  | .create path mode => .create path.tail mode
  | .openFile path flags => .openFile path.tail flags
  | c => c

/-- A path means the same to the handlers and to the other process. -/
structure Reaches (m : Mount) (d : Disk) (follow : Bool) (path : Bytes) : Prop where
  inside : m.host.Inside d m.root m.saveDir path
  stays : follow = true ∨ Disk.lastFollowed path = true →
    d.stays m.root m.saveDir 40 m.saveDir (components path) = true

/-- A call that changes names means the same. -/
def NamePasses (m : Mount) (d : Disk) : NameOp → Prop
  | .mknod path _ => m.host.Inside d m.root m.saveDir path
  | .mkdir path => m.host.Inside d m.root m.saveDir path
  | .unlink path => m.host.Inside d m.root m.saveDir path
  | .rmdir path => m.host.Inside d m.root m.saveDir path ∧ components path ≠ []
  | .symlink target path => m.host.Inside d m.root m.saveDir path ∧
      ∃ e, m.host.symlink m.chrooted d target path = .error e ∧
        m.host.symlink m.chrooted d (46 :: target) path = .error e
  | .rename old new => m.host.Inside d m.root m.saveDir old ∧
      m.host.Inside d m.root m.saveDir new
  | .link old new => Reaches m d false old ∧ m.host.Inside d m.root m.saveDir new

/-- A call means the same. One that looks up its path from a descriptor does if this happens to be
the save directory. -/
def Passes {F : Type} (m : Mount) (w : World F) : Sys → Prop
  | .inode follow path _ => Reaches m w.disk follow path
  | .inodeAt fd path _ => Reaches m w.disk false path ∧ ∃ f, w.fds fd = some f ∧ f.ino = m.saveDir
  | .readlink path _ => Reaches m w.disk false path
  | .name op _ _ => NamePasses m w.disk op
  | .create path _ => m.host.Inside w.disk m.root m.saveDir path
  | .openFile path flags => Reaches m w.disk (!nofollow flags) path
  | _ => True

variable {F : Type} {k : Kernel F} {m : Mount} {d : Disk} {w w' : World F} {c : Sys} {x : Choice}
  {follow : Bool} {path : Bytes}

theorem Reaches.resolve_dot (h : Reaches m d follow path) (hdir : d.dir m.saveDir ≠ none) :
    resolve m.host m.daemon d follow (46 :: path) = resolve m.host m.chrooted d follow path := by
  rw [resolve, resolve]
  cases follow with
  | true => exact h.inside.stat_dot hdir (h.stays (.inl rfl))
  | false => exact h.inside.lstat_dot hdir fun hlast ↦ h.stays (.inr hlast)

theorem Reaches.lookup_dot {flags : ℕ} (h : Reaches m d (!nofollow flags) path)
    (hdir : d.dir m.saveDir ≠ none) :
    lookup m.host m.daemon d (46 :: path) flags = lookup m.host m.chrooted d path flags := by
  rw [lookup, lookup, h.resolve_dot hdir]

private theorem startAt_dot {fd : ℕ} {f : OpenFile} (hdir : w.disk.dir m.saveDir ≠ none)
    (hfd : w.fds fd = some f) (hf : f.ino = m.saveDir) (path : Bytes) :
    w.startAt m.daemon fd (46 :: path) = .ok m.daemon := by
  have hopened : w.opened fd = .ok f := by rw [World.opened, hfd]
  rw [World.startAt, if_neg (by simp), hopened, Except.bind, hf, if_neg hdir]
  rfl

private theorem eq_dot_cons (h : path.head? = some 46) : path = 46 :: path.tail :=
  List.eq_cons_of_mem_head? h

private theorem perform_undot {op : NameOp} (hdir : d.dir m.saveDir ≠ none)
    (hdot : ∀ q ∈ pathsOf op, q.head? = some 46) (h : NamePasses m d (undotName op)) :
    perform m.host m.daemon d op = perform m.host m.chrooted d (undotName op) := by
  cases op with
  | mknod path type =>
    rw [eq_dot_cons (hdot path (by simp [pathsOf]))]
    exact Host.mknod_dot hdir h type
  | mkdir path =>
    rw [eq_dot_cons (hdot path (by simp [pathsOf]))]
    exact Host.mkdir_dot hdir h
  | unlink path =>
    rw [eq_dot_cons (hdot path (by simp [pathsOf]))]
    exact Host.unlink_dot hdir h
  | rmdir path =>
    rw [eq_dot_cons (hdot path (by simp [pathsOf]))]
    exact Host.rmdir_dot hdir h.1 h.2
  | rename old new =>
    rw [eq_dot_cons (hdot old (by simp [pathsOf])), eq_dot_cons (hdot new (by simp [pathsOf]))]
    exact Host.rename_dot hdir h.1 h.2
  | link old new =>
    rw [eq_dot_cons (hdot old (by simp [pathsOf])), eq_dot_cons (hdot new (by simp [pathsOf]))]
    exact Host.link_dot hdir h.1.inside (fun hlast ↦ h.1.stays (.inr hlast)) h.2
  | symlink old new =>
    rw [eq_dot_cons (hdot old (by simp [pathsOf])), eq_dot_cons (hdot new (by simp [pathsOf]))]
    obtain ⟨hpath, e, hdirect, hhandle⟩ := h
    -- both texts are refused
    exact (Host.symlink_dot hdir hpath).trans (hhandle.trans hdirect.symm)

/-- **One call.** -/
theorem call_undot (hdir : w.disk.dir m.saveDir ≠ none) (hdot : ∀ q ∈ c.paths, q.head? = some 46)
    (h : x.fails = none → Passes m w (undot c)) :
    k.call m.host m.daemon w c x = k.call m.host m.chrooted w (undot c) x := by
  obtain ⟨fails, fd⟩ := x
  cases fails with
  | some e =>
    cases c with
    | close fd => rfl
    | _ => rfl
  | none =>
    have h := h rfl
    cases c with
    | inode follow path c =>
      rw [eq_dot_cons (hdot path (by simp [Sys.paths]))]
      have hres := Reaches.resolve_dot h hdir
      simp only [Kernel.call, undot, List.tail_cons, hres]
    | inodeAt fd path c =>
      rw [eq_dot_cons (hdot path (by simp [Sys.paths]))]
      obtain ⟨hreach, f, hfd, hf⟩ := h
      have hres := hreach.resolve_dot hdir
      have hstart : w.startAt m.chrooted fd path.tail = .ok m.chrooted :=
        if_pos hreach.inside.absolute
      simp only [Kernel.call, undot, List.tail_cons, startAt_dot hdir hfd hf, hstart, Except.bind,
        hres]
    | readlink path size =>
      rw [eq_dot_cons (hdot path (by simp [Sys.paths]))]
      have hlstat : w.disk.lstat m.host.pathMax m.daemon (46 :: path.tail) =
          w.disk.lstat m.host.pathMax m.chrooted path.tail := Reaches.resolve_dot h hdir
      simp only [Kernel.call, undot, List.tail_cons, Disk.readlink, hlstat]
    | name op mode rdev =>
      have hperform := perform_undot hdir hdot h
      simp only [Kernel.call, undot, hperform]
    | create path mode =>
      rw [eq_dot_cons (hdot path (by simp [Sys.paths]))]
      have hopen : m.host.openExcl m.daemon w.disk (46 :: path.tail) =
          m.host.openExcl m.chrooted w.disk path.tail := Host.openExcl_dot hdir h
      simp only [Kernel.call, undot, List.tail_cons, hopen]
    | openFile path flags =>
      rw [eq_dot_cons (hdot path (by simp [Sys.paths]))]
      have hlookup := Reaches.lookup_dot h hdir
      simp only [Kernel.call, undot, List.tail_cons, hlookup]
    | _ => rfl

/-! ## What a call changes -/

@[simp] theorem after_disk (r : Except Errno (F × Reply)) : (w.after r).1.disk = w.disk := by
  cases r with
  | error e => rfl
  | ok r => rfl

@[simp] theorem after_fds (r : Except Errno (F × Reply)) : (w.after r).1.fds = w.fds := by
  cases r with
  | error e => rfl
  | ok r => rfl

theorem install_eq_some {fd : ℕ} {f : OpenFile} {a : Except Errno Reply}
    (h : w.install fd f = some (w', a)) : w.fds fd = none ∧
      w' = { w with fds := Function.update w.fds fd (some f) } ∧ a = .ok ⟨fd, .nothing⟩ := by
  rw [World.install] at h
  split at h
  next => exact absurd h (by simp)
  next hfree =>
    obtain ⟨rfl, rfl⟩ := Prod.mk.inj (Option.some.inj h)
    exact ⟨hfree, rfl, rfl⟩

variable {host : Host} {p : Process} {a : Except Errno Reply}

/-- The disk after a call. -/
def DiskAfter (host : Host) (p : Process) (d d' : Disk) : Prop :=
  d' = d ∨ (∃ op, perform host p d op = .ok d') ∨ ∃ path, host.openExcl p d path = .ok d'

/-- What a call does to the disk and to the descriptors. -/
inductive Effect (host : Host) (p : Process) (w : World F) (c : Sys) (fd : ℕ) (w' : World F)
    (a : Except Errno Reply) : Prop
  | same (hdisk : DiskAfter host p w.disk w'.disk) (hfds : w'.fds = w.fds)
      (hc : use c = .nothing ∨ (∃ n, use c = .use n) ∨ use c = opens ∧ ∃ e, a = .error e)
  | opened (f : OpenFile) (hdisk : DiskAfter host p w.disk w'.disk) (hc : use c = opens)
      (hfree : w.fds fd = none) (ha : a = .ok ⟨fd, .nothing⟩)
      (hfds : w'.fds = Function.update w.fds fd (some f))
  | closed (n : ℕ) (hdisk : w'.disk = w.disk) (hc : c = .close n)
      (hfds : w'.fds = Function.update w.fds n none)

private theorem effect_after {n : ℕ} (r : Except Errno (F × Reply))
    (hc : use c = .nothing ∨ ∃ n, use c = .use n) (h : some (w.after r) = some (w', a)) :
    Effect host p w c n w' a := by
  have hw : (w.after r).1 = w' := congrArg Prod.fst (Option.some.inj h)
  subst hw
  exact .same (.inl (after_disk r)) (after_fds r) (hc.imp_right .inl)

theorem effect_call (h : k.call host p w c x = some (w', a)) : Effect host p w c x.fd w' a := by
  obtain ⟨fails, fd⟩ := x
  cases c with
  | close n =>
    cases hn : w.fds n with
    | none =>
      simp only [Kernel.call, hn, Option.some_inj, Prod.mk.injEq] at h
      obtain ⟨rfl, -⟩ := h
      exact .closed n rfl rfl (by rw [← hn, Function.update_eq_self])
    | some f =>
      simp only [Kernel.call, hn, Option.some_inj, Prod.mk.injEq] at h
      obtain ⟨rfl, -⟩ := h
      exact .closed n rfl rfl rfl
  | create path mode =>
    cases fails with
    | some e =>
      obtain ⟨rfl, rfl⟩ := Prod.mk.inj (Option.some.inj h)
      exact .same (.inl rfl) rfl (.inr (.inr ⟨rfl, _, rfl⟩))
    | none =>
      simp only [Kernel.call] at h
      split at h
      · obtain ⟨rfl, rfl⟩ := Prod.mk.inj (Option.some.inj h)
        exact .same (.inl rfl) rfl (.inr (.inr ⟨rfl, _, rfl⟩))
      next hd =>
        obtain ⟨hfree, rfl, rfl⟩ := install_eq_some h
        exact .opened _ (.inr (.inr ⟨path, hd⟩)) rfl hfree rfl rfl
  | openFile path flags =>
    cases fails with
    | some e =>
      obtain ⟨rfl, rfl⟩ := Prod.mk.inj (Option.some.inj h)
      exact .same (.inl rfl) rfl (.inr (.inr ⟨rfl, _, rfl⟩))
    | none =>
      simp only [Kernel.call] at h
      split at h
      · obtain ⟨rfl, rfl⟩ := Prod.mk.inj (Option.some.inj h)
        exact .same (.inl rfl) rfl (.inr (.inr ⟨rfl, _, rfl⟩))
      · obtain ⟨hfree, rfl, rfl⟩ := install_eq_some h
        exact .opened _ (.inl rfl) rfl hfree rfl rfl
  | name op mode rdev =>
    cases fails with
    | some e =>
      obtain ⟨rfl, rfl⟩ := Prod.mk.inj (Option.some.inj h)
      exact .same (.inl rfl) rfl (.inl rfl)
    | none =>
      simp only [Kernel.call] at h
      split at h
      · obtain ⟨rfl, rfl⟩ := Prod.mk.inj (Option.some.inj h)
        exact .same (.inl rfl) rfl (.inl rfl)
      next hd =>
        obtain ⟨rfl, rfl⟩ := Prod.mk.inj (Option.some.inj h)
        exact .same (.inr (.inl ⟨op, hd⟩)) rfl (.inl rfl)
  | file n c =>
    cases fails with
    | some e => exact effect_after (.error e) (.inr ⟨n, rfl⟩) h
    | none => exact effect_after _ (.inr ⟨n, rfl⟩) h
  | readdir n =>
    cases fails with
    | some e => exact effect_after (.error e) (.inr ⟨n, rfl⟩) h
    | none => exact effect_after _ (.inr ⟨n, rfl⟩) h
  | _ =>
    cases fails with
    | some e => exact effect_after (.error e) (.inl rfl) h
    | none => exact effect_after _ (.inl rfl) h

/-- **A directory stays one.** -/
theorem DiskAfter.dir {d' : Disk} {i : Ino} (h : DiskAfter host p d d') (hi : d.dir i ≠ none) :
    d'.dir i ≠ none := by
  rcases h with rfl | ⟨op, hop⟩ | ⟨path, hopen⟩
  · exact hi
  · cases op with
    | mkdir path => exact Host.dir_of_commit hi hop
    | unlink path => exact Host.dir_of_commit hi hop
    | rmdir path => exact Host.dir_of_commit hi hop
    | rename old new => exact Host.dir_of_commit hi hop
    | link old new => exact Host.dir_of_commit hi hop
    | symlink target path =>
      rw [perform, Host.symlink] at hop
      split_ifs at hop
      exact Host.dir_of_commit hi hop
    | mknod path type =>
      cases type with
      | of _ => exact Host.dir_of_commit hi hop
      | zero => exact Host.dir_of_commit hi hop
      | directory => cases hop
      | other => cases hop
  · exact Host.dir_of_commit hi hopen

theorem Effect.disk {fd : ℕ} (h : Effect host p w c fd w' a) :
    DiskAfter host p w.disk w'.disk := by
  cases h with
  | same hdisk hfds hc => exact hdisk
  | opened f hdisk hc hfree ha hfds => exact hdisk
  | closed n hdisk hc hfds => exact .inl hdisk

theorem respects_call : Respects (k.call host p) World.fds use := by
  intro w c x w' a h
  cases effect_call h with
  | same hdisk hfds hc =>
    rcases hc with hc | ⟨n, hc⟩ | ⟨hc, e, rfl⟩
    · rw [hc]
      exact hfds
    · rw [hc]
      exact hfds
    · rw [hc]
      exact hfds
  | opened f hdisk hc hfree ha hfds =>
    rw [hc, ha, opens]
    refine ⟨hfree, ?_, fun l hl ↦ ?_⟩
    · rw [hfds, Function.update_self]
      exact Option.some_ne_none f
    · rw [hfds, Function.update_of_ne hl]
  | closed n hdisk hc hfds =>
    rw [hc, use]
    exact ⟨by rw [hfds, Function.update_self], fun l hl ↦ by rw [hfds, Function.update_of_ne hl]⟩

theorem change_eq_some {e : Disk × F} (h : change m w e = some w') :
    e.1.dir m.saveDir ≠ none ∧ w' = ⟨e.1, e.2, w.fds⟩ := by
  rw [change] at h
  split_ifs at h with hdir
  exact ⟨hdir, (Option.some.inj h).symm⟩

/-! ## Every run -/

variable {ι : Type}

/-- The mount at work. -/
abbrev Threads (F ι : Type) := State (World F) ι Sys (Except Errno Reply) (ℤ × Out)

/-- A call of a handler, or a change from outside. -/
abbrev ThreadAct (F ι : Type) := ProgAct ι Choice (Disk × F)

/-- The handlers of the operations `ops`, of which none has begun. -/
def Threads.start (w : World F) (ops : ι → Operation) : Threads F ι := ⟨w, fun i ↦ xmpOper (ops i)⟩

/-- The call that a handler makes next, if it is not refused anyway, means the same to both. -/
def CallPasses (m : Mount) (s : Threads F ι) : ThreadAct F ι → Prop
  | .turn i x => ∀ c k, s.prog i = .call c k → x.fails = none → Passes m s.world (undot c)
  | .outside _ => True

variable {ops : ι → Operation} {s t : Threads F ι} {as : List (ThreadAct F ι)}

/-- What holds in every state of a run. -/
structure Serving (m : Mount) (ops : ι → Operation) (s : Threads F ι) : Prop where
  dir : s.world.disk.dir m.saveDir ≠ none
  calls : ∀ i, (s.prog i).All (Calls (ops i))

private theorem serving_start (hdir : w.disk.dir m.saveDir ≠ none) :
    Serving m ops (Threads.start w ops) :=
  ⟨hdir, fun i ↦ (sound_xmpOper (ops i)).calls⟩

variable [DecidableEq ι]

/-- The mount. -/
def threadStep (k : Kernel F) (m : Mount) : Threads F ι → ThreadAct F ι → Option (Threads F ι) :=
  progStep (k.call m.host m.daemon) (change m)

/-- The other process, which has the save directory for its root. -/
def directThreadStep (k : Kernel F) (m : Mount) :
    Threads F ι → ThreadAct F ι → Option (Threads F ι) :=
  progStep (k.call m.host m.chrooted) (change m)

theorem Serving.step {a : ThreadAct F ι} (h : Serving m ops s)
    (hstep : threadStep k m s a = some t) : Serving m ops t := by
  refine ⟨?_, forall_all_step h.calls hstep⟩
  cases a with
  | turn i x =>
    obtain ⟨c, kont, w, a, -, hcall, rfl⟩ := progStep_turn_iff.mp hstep
    exact (effect_call hcall).disk.dir h.dir
  | outside e =>
    obtain ⟨w, hw, rfl⟩ := progStep_outside_iff.mp hstep
    obtain ⟨hdir, rfl⟩ := change_eq_some hw
    exact hdir

/-- **The pass-through, for every operation and every interleaving.** -/
theorem mount_passesThrough (hdir : w.disk.dir m.saveDir ≠ none)
    (h : AllSteps (threadStep k m) (CallPasses m) (Threads.start w ops) as) :
    run (directThreadStep k m) ((Threads.start w ops).map undot) as =
      (run (threadStep k m) (Threads.start w ops) as).map (State.map undot) := by
  refine run_map (h.of_invariant (I := Serving m ops) (serving_start hdir)
    (fun s a s' hs _ hstep ↦ hs.step hstep) fun s a hs ha ↦ ?_)
  cases a with
  | outside e => trivial
  | turn i x =>
    intro c kont hp
    have hcalls := hs.calls i
    rw [hp] at hcalls
    exact call_undot hs.dir hcalls.1.dotted (ha c kont hp)

/-- A kernel that knows of the contents of files only. -/
def contentKernel : Kernel (Ino → Bytes) where
  inode _ files _ _ := .ok (files, {})
  openFile _ files _ := .ok files
  file _ files f
    | .pread size offset =>
      let bs := ((files f.ino).drop offset.toNat).take size
      .ok (files, ⟨bs.length, .bytes bs⟩)
    | .pwrite buf offset =>
      let old := files f.ino
      .ok (Function.update files f.ino (old.takeD offset.toNat 0 ++ buf ++
        old.drop (offset.toNat + buf.length)), ⟨buf.length, .nothing⟩)
    | .fallocate offset length =>
      let old := files f.ino
      .ok (Function.update files f.ino
        (old.takeD (max old.length (offset + length).toNat) 0), {})
  named files _ _ _ _ := files

/-- An empty file `a`, seen through the mount `emptyMount`. -/
def oneFile : World (Ino → Bytes) :=
  ⟨⟨[.directory 0 [([109], 1)], .directory 0 [([97], 2)], .file .regular]⟩, fun _ ↦ [],
    fun _ ↦ none⟩

omit [DecidableEq ι] in
private theorem callPasses_of_prog {s : Threads F ι} {i : ι} {kont : Except Errno Reply → Program}
    (hp : s.prog i = .call c kont) (h : x.fails = none → Passes m s.world (undot c)) :
    CallPasses m s (.turn i x) := by
  intro c' kont' hp'
  obtain ⟨rfl, -⟩ := Prog.call.inj (hp.symm.trans hp')
  exact h

/-- The file `a` is written and read. -/
def writeAndRead : Bool → Operation
  | true => .write [47, 97] [120] 0
  | false => .read [47, 97] 1 0

/-- Both handlers have the file open, and somebody else writes to it. -/
def bothOpen : List (ThreadAct (Ino → Bytes) Bool) :=
  [.turn true {}, .turn false {}, .turn true { fd := 3 }, .turn false { fd := 4 },
    .outside (oneFile.disk, fun _ ↦ [121, 122])]

theorem mount_passesThrough_writeAndRead :
    (run (threadStep contentKernel emptyMount) (Threads.start oneFile writeAndRead)
      (bothOpen ++ [.turn true {}, .turn false {}])).map (fun s ↦ s.world.files 2) =
        some [120, 122] ∧
    run (directThreadStep contentKernel emptyMount) ((Threads.start oneFile writeAndRead).map undot)
        (bothOpen ++ [.turn true {}, .turn false {}]) =
      (run (threadStep contentKernel emptyMount) (Threads.start oneFile writeAndRead)
        (bothOpen ++ [.turn true {}, .turn false {}])).map (State.map undot) := by
  have hopen : ∀ w : World (Ino → Bytes), w.disk = oneFile.disk → ∀ flags, nofollow flags = false →
      Passes emptyMount w (undot (.openFile [46, 47, 97] flags)) := by
    intro w hw flags hflags
    show Reaches emptyMount w.disk (!nofollow flags) [47, 97]
    rw [hw, hflags]
    exact ⟨⟨rfl, by decide, fun _ ↦ by decide⟩, fun _ ↦ by decide⟩
  refine ⟨rfl, mount_passesThrough (by decide) ?_⟩
  refine .cons (callPasses_of_prog rfl fun _ ↦ trivial) rfl ?_
  refine .cons (callPasses_of_prog rfl fun _ ↦ trivial) rfl ?_
  refine .cons (callPasses_of_prog rfl fun _ ↦ hopen _ rfl wronly rfl) rfl ?_
  refine .cons (callPasses_of_prog rfl fun _ ↦ hopen _ rfl rdonly rfl) rfl ?_
  refine .cons trivial rfl ?_
  refine .cons (callPasses_of_prog rfl fun _ ↦ trivial) rfl ?_
  exact .cons (callPasses_of_prog rfl fun _ ↦ trivial) rfl allSteps_nil

/-! ## One handler alone

With nobody else at work, a handler does what `Fuse.Mount` says of it in one step. -/

/-- The operation that a call of `Fuse.Mount` stands for. -/
def operation (mode rdev : ℕ) : NameOp → Operation
  | .mknod path type => .mknod path type mode rdev
  | .mkdir path => .mkdir path mode
  | .unlink path => .unlink path
  | .rmdir path => .rmdir path
  | .symlink old new => .symlink old new
  | .rename old new => .rename old new
  | .link old new => .link old new

/-- The choice for `asprintf`. -/
def allocChoice (alloc : Bool) : Choice := if alloc then {} else { fails := some .nomem }

private theorem exec_makeDotpath {alloc : Bool} {rest : Bytes → Program} {xs : List Choice} :
    exec (k.call host p) w (makeDotpath path rest) (allocChoice alloc :: xs) =
      match ClrDebugInfo.makeDotpath alloc path with
      | none => exec (k.call host p) w (returnError .nomem) xs
      | some newpath => exec (k.call host p) w (rest newpath) xs := by
  cases alloc with
  | false => rfl
  | true => rfl

private theorem exec_name {op : NameOp} {mode rdev : ℕ} : ∃ w',
    exec (k.call host p) w (.call (.name op mode rdev) returnZero) [{}] =
      some (w', ((returned w.disk (perform host p w.disk op)).1, .nothing)) ∧
    w'.disk = (returned w.disk (perform host p w.disk op)).2 := by
  cases hop : perform host p w.disk op with
  | error e => exact ⟨w, by simp [exec, Kernel.call, hop, returnZero, returnError, returned], rfl⟩
  | ok d =>
    exact ⟨_, by simp [exec, Kernel.call, hop, returnZero, returned]; rfl, rfl⟩

private theorem exec_naming (alloc : Bool) {op : Bytes → NameOp} {mode rdev : ℕ}
    {call : Bytes → Except Errno Disk}
    (hcall : ∀ q, perform host p w.disk (op q) = call q) : ∃ xs w',
    exec (k.call host p) w (naming path op mode rdev) xs =
      some (w', ((withDotpath alloc path call w.disk).1, .nothing)) ∧
    w'.disk = (withDotpath alloc path call w.disk).2 := by
  cases alloc with
  | false => exact ⟨[allocChoice false], w, rfl, rfl⟩
  | true =>
    obtain ⟨w', hw', hdisk⟩ := @exec_name F k w host p (op (46 :: path)) mode rdev
    rw [hcall] at hw' hdisk
    exact ⟨[allocChoice true, {}], w', hw', hdisk⟩

private theorem exec_namings (alloc alloc' : Bool) {old new : Bytes} {op : Bytes → Bytes → NameOp}
    {call : Bytes → Bytes → Except Errno Disk}
    (hcall : ∀ q q', perform host p w.disk (op q q') = call q q') : ∃ xs w',
    exec (k.call host p) w (namings old new op) xs =
      some (w', ((withDotpaths alloc alloc' old new call w.disk).1, .nothing)) ∧
    w'.disk = (withDotpaths alloc alloc' old new call w.disk).2 := by
  cases alloc with
  | false => exact ⟨[allocChoice false], w, rfl, rfl⟩
  | true =>
    cases alloc' with
    | false => exact ⟨[allocChoice true, allocChoice false], w, rfl, rfl⟩
    | true =>
      obtain ⟨w', hw', hdisk⟩ := @exec_name F k w host p (op (46 :: old) (46 :: new)) 0 0
      rw [hcall] at hw' hdisk
      exact ⟨[allocChoice true, allocChoice true, {}], w', hw', hdisk⟩

private theorem exec_xmpMknod (alloc : Bool) (closed : Option Errno) (path : Bytes)
    (type : ModeType) (mode rdev : ℕ) {fd : ℕ} (hfree : w.fds fd = none) :
    ∃ xs w', exec (k.call m.host m.daemon) w (xmpMknod path type mode rdev) xs =
      some (w', ((ClrDebugInfo.xmpMknod m w.disk alloc closed path type).1, .nothing)) ∧
    w'.disk = (ClrDebugInfo.xmpMknod m w.disk alloc closed path type).2 := by
  cases alloc with
  | false => exact ⟨[allocChoice false], w, rfl, rfl⟩
  | true =>
    have hname : ∀ type rdev, ∃ w', exec (k.call m.host m.daemon) w
        (.call (.name (.mknod (46 :: path) type) mode rdev) returnZero) [{}] =
          some (w', ((returned w.disk (m.host.mknod m.daemon w.disk (46 :: path) type)).1,
            .nothing)) ∧
        w'.disk = (returned w.disk (m.host.mknod m.daemon w.disk (46 :: path) type)).2 :=
      fun type rdev ↦ exec_name
    cases type with
    | of kind =>
      cases kind with
      | regular =>
        cases hopen : m.host.openExcl m.daemon w.disk (46 :: path) with
        | error e =>
          refine ⟨[allocChoice true, {}], w, ?_, ?_⟩
          · simp [xmpMknod, exec_makeDotpath, ClrDebugInfo.xmpMknod, ClrDebugInfo.makeDotpath, exec,
              Kernel.call, hopen, returnError]
          · simp [ClrDebugInfo.xmpMknod, ClrDebugInfo.makeDotpath, hopen]
        | ok d =>
          have hback : Function.update w.fds fd none = w.fds := by
            rw [← hfree, Function.update_eq_self]
          refine ⟨[allocChoice true, { fd := fd }, { fails := closed }],
            ⟨d, k.named w.files w.disk d mode 0, w.fds⟩, ?_, ?_⟩
          · cases closed with
            | none =>
              simp [xmpMknod, exec_makeDotpath, ClrDebugInfo.xmpMknod, ClrDebugInfo.makeDotpath,
                exec, Kernel.call, hopen, World.install, hfree, hback, returnZero]
            | some e =>
              simp [xmpMknod, exec_makeDotpath, ClrDebugInfo.xmpMknod, ClrDebugInfo.makeDotpath,
                exec, Kernel.call, hopen, World.install, hfree, hback, returnZero, returnError]
          · cases closed with
            | none => simp [ClrDebugInfo.xmpMknod, ClrDebugInfo.makeDotpath, hopen]
            | some e => simp [ClrDebugInfo.xmpMknod, ClrDebugInfo.makeDotpath, hopen]
      | fifo =>
        obtain ⟨w', hw', hdisk⟩ := hname (.of .fifo) 0
        exact ⟨[allocChoice true, {}], w', hw', hdisk⟩
      | charDevice =>
        obtain ⟨w', hw', hdisk⟩ := hname (.of .charDevice) rdev
        exact ⟨[allocChoice true, {}], w', hw', hdisk⟩
      | blockDevice =>
        obtain ⟨w', hw', hdisk⟩ := hname (.of .blockDevice) rdev
        exact ⟨[allocChoice true, {}], w', hw', hdisk⟩
      | socket =>
        obtain ⟨w', hw', hdisk⟩ := hname (.of .socket) rdev
        exact ⟨[allocChoice true, {}], w', hw', hdisk⟩
    | zero =>
      obtain ⟨w', hw', hdisk⟩ := hname .zero rdev
      exact ⟨[allocChoice true, {}], w', hw', hdisk⟩
    | directory =>
      obtain ⟨w', hw', hdisk⟩ := hname .directory rdev
      exact ⟨[allocChoice true, {}], w', hw', hdisk⟩
    | other =>
      obtain ⟨w', hw', hdisk⟩ := hname .other rdev
      exact ⟨[allocChoice true, {}], w', hw', hdisk⟩

/-- **Two levels.** What a handler does in one step it does call by call, if nothing comes between
its calls. -/
theorem exec_handle (a : MountCall) (mode rdev : ℕ) {fd : ℕ} (hfree : w.fds fd = none) :
    ∃ xs w', exec (k.call m.host m.daemon) w (xmpOper (operation mode rdev a.op)) xs =
      some (w', ((m.handle w.disk a).1, .nothing)) ∧ w'.disk = (m.handle w.disk a).2 := by
  obtain ⟨op, alloc, alloc', closed⟩ := a
  cases op with
  | mknod path type => exact exec_xmpMknod alloc closed path type mode rdev hfree
  | mkdir path => exact exec_naming alloc fun _ ↦ rfl
  | unlink path => exact exec_naming alloc fun _ ↦ rfl
  | rmdir path => exact exec_naming alloc fun _ ↦ rfl
  | symlink old new => exact exec_namings alloc alloc' fun _ _ ↦ rfl
  | rename old new => exact exec_namings alloc alloc' fun _ _ ↦ rfl
  | link old new => exact exec_namings alloc alloc' fun _ _ ↦ rfl

/-- It is a run of the mount, in which no other handler takes a step. -/
theorem run_handle {i : ι} (a : MountCall) (mode rdev : ℕ)
    (hp : s.prog i = xmpOper (operation mode rdev a.op)) {fd : ℕ} (hfree : s.world.fds fd = none) :
    ∃ (xs : List Choice) (w' : World F), run (threadStep k m) s (xs.map (ProgAct.turn i)) =
      some ⟨w', Function.update s.prog i (.ret ((m.handle s.world.disk a).1, .nothing))⟩ ∧
    w'.disk = (m.handle s.world.disk a).2 := by
  obtain ⟨xs, w', hexec, hdisk⟩ := @exec_handle F k m s.world a mode rdev fd hfree
  exact ⟨xs, w', run_of_exec hp hexec, hdisk⟩

theorem exec_xmpReadlink (alloc : Bool) (path : Bytes) (size : ℕ) : ∃ xs out,
    exec (k.call m.host m.daemon) w (xmpReadlink path size) xs =
      some (w, ((ClrDebugInfo.xmpReadlink m w.disk alloc path size).1, out)) ∧
    out.text = (ClrDebugInfo.xmpReadlink m w.disk alloc path size).2 := by
  cases alloc with
  | false => exact ⟨[allocChoice false], .nothing, rfl, rfl⟩
  | true =>
    cases hlink : w.disk.readlink m.host.pathMax m.daemon (46 :: path) (size - 1) with
    | error e =>
      refine ⟨[allocChoice true, {}], .nothing, ?_, ?_⟩
      · simp [xmpReadlink, exec_makeDotpath, ClrDebugInfo.xmpReadlink, ClrDebugInfo.makeDotpath,
          exec, Kernel.call, hlink, returnZero, returnError, Except.map, World.after]
      · simp [ClrDebugInfo.xmpReadlink, ClrDebugInfo.makeDotpath, hlink, Out.text]
    | ok text =>
      refine ⟨[allocChoice true, {}], .bytes text, ?_, ?_⟩
      · simp [xmpReadlink, exec_makeDotpath, ClrDebugInfo.xmpReadlink, ClrDebugInfo.makeDotpath,
          exec, Kernel.call, hlink, returnZero, Except.map, World.after]
      · simp [ClrDebugInfo.xmpReadlink, ClrDebugInfo.makeDotpath, hlink, Out.text]

/-- The same for `xmp_readdir`, if the kernel lets a directory be opened. -/
theorem exec_xmpReaddir (alloc : Bool) (path : Bytes) (room : ℕ) {fd : ℕ}
    (hopen : ∀ f, k.openFile w.disk w.files f = .ok w.files) (hfree : w.fds fd = none) :
    ∃ xs out, exec (k.call m.host m.daemon) w (xmpReaddir path room) xs =
      some (w, ((ClrDebugInfo.xmpReaddir m w.disk alloc path room).1, out)) ∧
    out.names = (ClrDebugInfo.xmpReaddir m w.disk alloc path room).2 := by
  cases alloc with
  | false => exact ⟨[allocChoice false], .nothing, rfl, rfl⟩
  | true =>
    have hflags : nofollow (rdonly + directory) = false := by decide
    have hdirectory : (rdonly + directory).testBit 16 = true := by decide
    cases hstat : w.disk.stat m.host.pathMax m.daemon (46 :: path) with
    | error e =>
      refine ⟨[allocChoice true, {}], .nothing, ?_, ?_⟩
      · simp [xmpReaddir, exec_makeDotpath, ClrDebugInfo.xmpReaddir, ClrDebugInfo.makeDotpath,
          exec, Kernel.call, lookup, resolve, hflags, hstat, Disk.readdir, returnError, openThen,
          Except.bind]
      · simp [ClrDebugInfo.xmpReaddir, ClrDebugInfo.makeDotpath, hstat, Disk.readdir, Out.names]
    | ok i =>
      cases hdir : w.disk.dir i with
      | none =>
        refine ⟨[allocChoice true, {}], .nothing, ?_, ?_⟩
        · simp [xmpReaddir, exec_makeDotpath, ClrDebugInfo.xmpReaddir, ClrDebugInfo.makeDotpath,
            exec, Kernel.call, lookup, resolve, hflags, hdirectory, hstat, hdir, Disk.readdir,
            returnError, openThen, Except.bind]
        · simp [ClrDebugInfo.xmpReaddir, ClrDebugInfo.makeDotpath, hstat, hdir, Disk.readdir,
            Out.names]
      | some e =>
        obtain ⟨parent, entries⟩ := e
        have hback : Function.update w.fds fd none = w.fds := by
          rw [← hfree, Function.update_eq_self]
        refine ⟨[allocChoice true, { fd := fd }, {}, {}],
          .entries (ClrDebugInfo.xmpReaddir m w.disk true path room).2, ?_, rfl⟩
        simp [xmpReaddir, exec_makeDotpath, ClrDebugInfo.xmpReaddir, ClrDebugInfo.makeDotpath,
            exec, Kernel.call, lookup, resolve, hflags, hdirectory, hstat, hdir, Disk.readdir,
            hopen, Except.bind, Except.map, World.install, World.opened, World.after, listing,
            hfree, taken, hback, openThen, closeThen]

/-- With anything but a directory as descriptor 0, `xmp_utimens` finds no path. -/
theorem exec_xmpUtimens_notdir {f : OpenFile} (hfd : w.fds 0 = some f)
    (hf : w.disk.dir f.ino = none) (path : Bytes) (atime mtime : ℤ × ℤ) :
    exec (k.call m.host m.daemon) w (xmpUtimens path atime mtime) [{}, {}] =
      some (w, ((-Errno.notdir.code : ℤ), .nothing)) := by
  have hstart : w.startAt m.daemon 0 (46 :: path) = .error .notdir := by
    rw [World.startAt, if_neg (by simp), World.opened, hfd, Except.bind, if_pos hf]
  simp [xmpUtimens, makeDotpath, exec, Kernel.call, hstart, Except.bind, World.after, returnZero,
    returnError]

/-! ## Descriptors -/

private theorem install_isSome {fd : ℕ} {f : OpenFile} (hfree : w.fds fd = none) :
    (w.install fd f).isSome := by
  rw [World.install, hfree]
  rfl

private theorem call_isSome (hfree : w.fds x.fd = none) : (k.call host p w c x).isSome := by
  obtain ⟨fails, fd⟩ := x
  cases c with
  | close n =>
    cases hn : w.fds n with
    | none => simp [Kernel.call, hn]
    | some f => simp [Kernel.call, hn]
  | create path mode =>
    cases fails with
    | some e => rfl
    | none =>
      simp only [Kernel.call]
      split
      · rfl
      · exact install_isSome hfree
  | openFile path flags =>
    cases fails with
    | some e => rfl
    | none =>
      simp only [Kernel.call]
      split
      · rfl
      · exact install_isSome hfree
  | name op mode rdev =>
    cases fails with
    | some e => rfl
    | none =>
      simp only [Kernel.call]
      split
      · rfl
      · rfl
  | _ =>
    cases fails with
    | some e => rfl
    | none => rfl

/-- The descriptor that a call is given. -/
def Sys.descriptor : Sys → Option ℕ
  | .inodeAt fd _ _ | .file fd _ | .readdir fd | .close fd => some fd
  | _ => none

private theorem use_of_descriptor {fd : ℕ} (h : c.descriptor = some fd) :
    (use c = .use fd ∨ use c = .release fd) ∨ ∃ q i, c = .inodeAt fd q i := by
  cases c with
  | inodeAt n q i =>
    obtain rfl := Option.some.inj h
    exact .inr ⟨q, i, rfl⟩
  | file n c =>
    obtain rfl := Option.some.inj h
    exact .inl (.inl rfl)
  | readdir n =>
    obtain rfl := Option.some.inj h
    exact .inl (.inl rfl)
  | close n =>
    obtain rfl := Option.some.inj h
    exact .inl (.inr rfl)
  | _ => exact absurd h (by simp [Sys.descriptor])

/-- The call that a handler makes next is on the descriptor. -/
def OnDescriptor (s : Threads F ι) (i : ι) (fd : ℕ) : Prop :=
  ∃ c kont, s.prog i = .call c kont ∧ c.descriptor = some fd

def Returned (s : Threads F ι) (i : ι) : Prop := ∃ r, s.prog i = .ret r

/-- **Descriptors.** In every state of every run, the descriptors from before are as they were, and
each other one is that of one handler, which is at work and has no other. A handler only names
its own, but for `xmp_utimens`, which names descriptor 0, whosever it is. It returns after at most
four calls, and none of these is stuck while a number is free. -/
theorem mount_descriptors (hrun : run (threadStep k m) (Threads.start w ops) as = some s) :
    (∀ i, turns i as ≤ 4) ∧
    (∀ i, Returned s i ∨
      ∀ x, s.world.fds x.fd = none → (threadStep k m s (.turn i x)).isSome) ∧
    (∀ fd, w.fds fd ≠ none → s.world.fds fd = w.fds fd) ∧
    ∃ own : ι → Option ℕ,
      (∀ fd, s.world.fds fd ≠ w.fds fd → ∃ i, ¬Returned s i ∧ own i = some fd) ∧
      ∀ i fd, OnDescriptor s i fd →
        (w.fds fd = none ∧ s.world.fds fd ≠ none ∧ ∀ j, own j = some fd ↔ j = i) ∨
          fd = 0 ∧ ∃ path atime mtime, ops i = .utimens path atime mtime := by
  obtain ⟨own, hown⟩ : ∃ own, Owned World.fds use w.fds own s :=
    owned_of_run respects_call (fun w e w' h ↦ (change_eq_some h).2 ▸ rfl)
      (fun i ↦ (sound_xmpOper (ops i)).tidy) hrun
  refine ⟨fun i ↦ turns_le (sound_xmpOper (ops i)).within hrun, fun i ↦ ?_, fun fd hfd ↦ ?_,
    own, fun fd hfd ↦ ?_, ?_⟩
  · cases hp : s.prog i with
    | ret r => exact .inl ⟨r, hp⟩
    | call c kont =>
      refine .inr fun x hx ↦ ?_
      rw [threadStep, progStep, hp]
      simpa using call_isSome hx
  · exact hown.others fd fun i hi ↦ hfd (hown.entered i fd hi).1
  · obtain ⟨i, hi⟩ : ∃ i, own i = some fd := by
      by_contra hnone
      exact hfd (hown.others fd fun i hi ↦ hnone ⟨i, hi⟩)
    refine ⟨i, ?_, hi⟩
    rintro ⟨r, hr⟩
    have htidy := hown.tidy i
    rw [hr, Prog.Tidy, hi] at htidy
    exact absurd htidy (by simp)
  · rintro i fd ⟨c, kont, hp, hc⟩
    rcases use_of_descriptor hc with huse | ⟨q, c', rfl⟩
    · obtain ⟨hi, hbase, hlive, honly⟩ := hown.next hp huse
      exact .inl ⟨hbase, hlive, fun j ↦ ⟨honly j, fun hj ↦ hj ▸ hi⟩⟩
    · have hcalls : ∀ i, (s.prog i).All (Calls (ops i)) :=
        run_invariant (I := fun _ s ↦ ∀ i, (s.prog i).All (Calls (ops i)))
          (fun i ↦ (sound_xmpOper (ops i)).calls) (fun _ _ _ _ h hs ↦ forall_all_step h hs) hrun
      have hi := hcalls i
      rw [hp] at hi
      exact .inr (hi.1.zero fd q c' rfl)

theorem mount_descriptors_writeAndRead : ∃ s : Threads (Ino → Bytes) Bool,
    run (threadStep contentKernel emptyMount) (Threads.start oneFile writeAndRead) bothOpen =
      some s ∧
    ∃ own : Bool → Option ℕ, (∀ i, own i = some 3 ↔ i = true) ∧ (∀ i, own i = some 4 ↔ i = false) ∧
      (∀ fd, s.world.fds fd ≠ oneFile.fds fd → ∃ i, ¬Returned s i ∧ own i = some fd) ∧
      ∀ fd, oneFile.fds fd ≠ none → s.world.fds fd = oneFile.fds fd := by
  refine ⟨_, rfl, ?_⟩
  have hrun : run (threadStep contentKernel emptyMount) (Threads.start oneFile writeAndRead)
      bothOpen = some _ := rfl
  obtain ⟨-, -, hkept, own, howned, hnamed⟩ := mount_descriptors hrun
  rcases hnamed true 3 ⟨_, _, rfl, rfl⟩ with ⟨-, -, htrue⟩ | ⟨hzero, -⟩
  · rcases hnamed false 4 ⟨_, _, rfl, rfl⟩ with ⟨-, -, hfalse⟩ | ⟨hzero, -⟩
    · exact ⟨own, htrue, hfalse, howned, hkept⟩
    · exact absurd hzero (by decide)
  · exact absurd hzero (by decide)

end Handlers

end ClrDebugInfo
