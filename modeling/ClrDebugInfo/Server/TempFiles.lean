import ClrDebugInfo.Server.Failover

/-!
# Temporary files

Between the transfer and the end of `curl_get_file` an archive is in a file in `/tmp`, and all that
is done to it, but for the writing, is done by name: `stat`, both calls of `tar`, and `unlink`.
After a failed transfer the file is unlinked twice, and between the two calls the name is free for
the `mkstemp` of another handler.

The daemon of `Server.Daemon` has no such files: there a handler has its archive to itself. That is
right exactly as long as no handler gets the name of one that has unlinked its file and has not
returned (`tempFiles_isolated_iff`), and then every run with files is one of that daemon
(`tempFiles_refine`).
-/

namespace ClrDebugInfo

open Runs

/-! ## Files -/

/-- The directory `/tmp`: the file that a name stands for, and what is in the files. -/
structure TmpDir where
  names : Bytes → Option ℕ
  data : ℕ → Bytes
  /-- Files from here on are new. -/
  next : ℕ

/-- `mkstemp`: a new file under a name. -/
def TmpDir.create (d : TmpDir) (name : Bytes) : TmpDir where
  names := fun n ↦ if n = name then some d.next else d.names n
  data := fun i ↦ if i = d.next then [] else d.data i
  next := d.next + 1

/-- What is written to a stream gets to the file. -/
def TmpDir.write (d : TmpDir) (ino : ℕ) (bs : Bytes) : TmpDir :=
  { d with data := fun i ↦ if i = ino then d.data i ++ bs else d.data i }

/-- `unlink` -/
def TmpDir.unlink (d : TmpDir) (name : Bytes) : TmpDir :=
  { d with names := fun n ↦ if n = name then none else d.names n }

/-- What is found under a name. -/
def TmpDir.read (d : TmpDir) (name : Bytes) : Option Bytes := (d.names name).map d.data

/-- The temporary file of a handler. -/
structure TmpFile where
  name : Bytes
  ino : ℕ
  /-- The handler has unlinked it after an error. -/
  unlinked : Bool
  deriving DecidableEq

/-! ## Handlers with files -/

/-- Where a handler stands. -/
inductive FilePc where
  /-- Before `mkstemp`, or after the end of `curl_get_file`. -/
  | outside (pc : Pc)
  /-- `curl_easy_perform` is running. -/
  | transfer (job : Job) (f : TmpFile)
  /-- It has returned an error. -/
  | failed (job : Job) (f : TmpFile) (response : ℕ)
  /-- Before the end of `fflush`. -/
  | flushing (job : Job) (f : TmpFile) (response : ℕ)
  /-- The response was 200. -/
  | counted (job : Job) (f : TmpFile)
  /-- The file is not empty. -/
  | sized (job : Job) (f : TmpFile)
  /-- `tar -tf` has succeeded. -/
  | tested (job : Job) (f : TmpFile)
  | extracting (job : Job) (f : TmpFile) (todo : List Member) (cur : Option (ℕ × Bytes))
  /-- At `out`. -/
  | out (job : Job) (f : TmpFile) (ret : ℕ)
  deriving DecidableEq

inductive FileAct where
  /-- A step that does not need the file. -/
  | handler (a : HandlerAct)
  | mkstemp (name : Bytes)
  | write (bs : Bytes)
  | perform (code response : ℕ)
  | unlink
  /-- `fflush` has returned, and `urlcounter` moves on. -/
  | count
  | stat
  | noCommand
  | tarTest (ok : Bool)
  | tarStart

/-- One step of a handler. -/
def fileStep (cfg : Config) (sh : Shared) (d : TmpDir) :
    FilePc → FileAct → Option (Shared × TmpDir × FilePc)
  | .outside (.admitted job), .mkstemp name =>
    if d.names name = none then some (sh, d.create name, .transfer job ⟨name, d.next, false⟩)
    else none
  | .outside _, .handler (.perform _) => none
  | .outside pc, .handler a => (handlerStep cfg sh pc a).map fun r ↦ (r.1, d, .outside r.2)
  | .transfer job f, .write bs => some (sh, d.write f.ino bs, .transfer job f)
  | .transfer job f, .perform code response =>
    some (sh, d, if code ≠ 0 then .failed job f response else .flushing job f response)
  | .failed job f response, .unlink =>
    some (sh, d.unlink f.name, .flushing job { f with unlinked := true } response)
  | .flushing job f response, .write bs => some (sh, d.write f.ino bs, .flushing job f response)
  | .flushing job f response, .count =>
    some ({ sh with urlcounter := bumpUrlcounter sh.urlcounter response }, d,
      if response = 200 then .counted job f else .out job f response)
  | .counted job f, .stat =>
    some (sh, d, if (d.read f.name).getD [] = [] then .out job f 418 else .sized job f)
  | .sized job f, .noCommand => some (sh, d, .out job f 418)
  | .sized job f, .tarTest ok =>
    if ok then ((d.read f.name).bind cfg.listing).map fun _ ↦ (sh, d, .tested job f)
    else some (sh, d, .out job f 418)
  | .tested job f, .noCommand => some (sh, d, .out job f 418)
  | .tested job f, .tarStart =>
    -- the file may not be the one that was tested
    match (d.read f.name).bind cfg.listing with
    | none => some (sh, d, .out job f 418)
    | some members => some (sh, d, .extracting job f members none)
  | .extracting job f todo cur, .handler a =>
    (handlerStep cfg sh (.extracting job todo cur) a).bind fun r ↦
      match r.2 with
      | .extracting job todo cur => some (r.1, d, .extracting job f todo cur)
      | .returned job ret => some (r.1, d, .out job f ret)
      | _ => none
  | .out job f ret, .unlink => some (sh, d.unlink f.name, .outside (.returned job ret))
  | _, _ => none

/-- The file of a handler. -/
def FilePc.file : FilePc → Option TmpFile
  | .outside _ => none
  | .transfer _ f | .failed _ f _ | .flushing _ f _ | .counted _ f | .sized _ f | .tested _ f
  | .extracting _ f _ _ | .out _ f _ => some f

/-- The daemon, and `/tmp`. -/
structure FilesDaemon where
  sh : Shared
  tmp : TmpDir
  loop : Loop
  threads : List FilePc

inductive FilesAct where
  | main (a : MainAct)
  | thread (i : ℕ) (a : FileAct)
  | tick (seconds : ℕ) (now : Int64)

/-- One step of the daemon. -/
def filesStep (cfg : Config) (s : FilesDaemon) : FilesAct → Option FilesDaemon
  | .main a => (mainStep ⟨s.sh, s.loop, []⟩ s.loop a).map fun d ↦
      ⟨d.sh, s.tmp, d.loop, s.threads ++ d.threads.map .outside⟩
  | .thread i a =>
    if s.loop = .exited then none
    else
      match s.threads[i]? with
      | none => none
      | some pc => (fileStep cfg s.sh s.tmp pc a).map fun r ↦
          { s with sh := r.1, tmp := r.2.1, threads := s.threads.set i r.2.2 }
  | .tick seconds now =>
    if s.loop = .exited then none
    else some { s with sh := { s.sh with elapsed := s.sh.elapsed + seconds, now := now } }

/-- A daemon at its first `select`, with files of others in `/tmp`. -/
def FilesDaemon.start (urlcounter : Int32) (now : Int64) (cache : Cache) (tmp : TmpDir) :
    FilesDaemon :=
  ⟨(Daemon.start urlcounter now cache).sh, tmp, .select 0, []⟩

/-! ## What a step can do -/

/-- The steps of a handler. -/
inductive FileStep (cfg : Config) (sh : Shared) (d : TmpDir) :
    FilePc → FileAct → Shared → TmpDir → FilePc → Prop
  | outside {pc a sh' pc'} (ha : ∀ t, a ≠ .perform t)
    (h : handlerStep cfg sh pc a = some (sh', pc')) :
    FileStep cfg sh d (.outside pc) (.handler a) sh' d (.outside pc')
  | create {job name} (hfree : d.names name = none) :
    FileStep cfg sh d (.outside (.admitted job)) (.mkstemp name) sh (d.create name)
      (.transfer job ⟨name, d.next, false⟩)
  | write {job f bs} :
    FileStep cfg sh d (.transfer job f) (.write bs) sh (d.write f.ino bs) (.transfer job f)
  | fail {job f code response} (hcode : code ≠ 0) :
    FileStep cfg sh d (.transfer job f) (.perform code response) sh d (.failed job f response)
  | done {job f response} :
    FileStep cfg sh d (.transfer job f) (.perform 0 response) sh d (.flushing job f response)
  | unlink {job f response} :
    FileStep cfg sh d (.failed job f response) .unlink sh (d.unlink f.name)
      (.flushing job { f with unlinked := true } response)
  | flush {job f response bs} :
    FileStep cfg sh d (.flushing job f response) (.write bs) sh (d.write f.ino bs)
      (.flushing job f response)
  | receive {job f} : FileStep cfg sh d (.flushing job f 200) .count sh d (.counted job f)
  | refuse {job f response} (h200 : response ≠ 200) :
    FileStep cfg sh d (.flushing job f response) .count
      { sh with urlcounter := bumpUrlcounter sh.urlcounter response } d (.out job f response)
  | empty {job f} (hread : (d.read f.name).getD [] = []) :
    FileStep cfg sh d (.counted job f) .stat sh d (.out job f 418)
  | fill {job f} (hread : (d.read f.name).getD [] ≠ []) :
    FileStep cfg sh d (.counted job f) .stat sh d (.sized job f)
  | noTest {job f} : FileStep cfg sh d (.sized job f) .noCommand sh d (.out job f 418)
  | invalid {job f} : FileStep cfg sh d (.sized job f) (.tarTest false) sh d (.out job f 418)
  | valid {job f members} (hread : (d.read f.name).bind cfg.listing = some members) :
    FileStep cfg sh d (.sized job f) (.tarTest true) sh d (.tested job f)
  | noExtract {job f} : FileStep cfg sh d (.tested job f) .noCommand sh d (.out job f 418)
  | noArchive {job f} (hread : (d.read f.name).bind cfg.listing = none) :
    FileStep cfg sh d (.tested job f) .tarStart sh d (.out job f 418)
  | start {job f members} (hread : (d.read f.name).bind cfg.listing = some members) :
    FileStep cfg sh d (.tested job f) .tarStart sh d (.extracting job f members none)
  | extract {job f todo cur a sh' job' todo' cur'}
    (h : handlerStep cfg sh (.extracting job todo cur) a =
      some (sh', .extracting job' todo' cur')) :
    FileStep cfg sh d (.extracting job f todo cur) (.handler a) sh' d
      (.extracting job' f todo' cur')
  | exit {job f todo cur a sh' job' ret}
    (h : handlerStep cfg sh (.extracting job todo cur) a = some (sh', .returned job' ret)) :
    FileStep cfg sh d (.extracting job f todo cur) (.handler a) sh' d (.out job' f ret)
  | leave {job f ret} :
    FileStep cfg sh d (.out job f ret) .unlink sh (d.unlink f.name) (.outside (.returned job ret))

theorem fileStep_cases {cfg : Config} {sh sh' : Shared} {d d' : TmpDir} {pc pc' : FilePc}
    {a : FileAct} (h : fileStep cfg sh d pc a = some (sh', d', pc')) :
    FileStep cfg sh d pc a sh' d' pc' := by
  unfold fileStep at h
  split at h
  · split at h
    next hfree =>
      obtain ⟨rfl, rfl, rfl⟩ := h
      exact .create hfree
    · exact absurd h (by simp)
  · exact absurd h (by simp)
  next hperform =>
    obtain ⟨⟨sh₁, pc₁⟩, hstep, heq⟩ := Option.map_eq_some_iff.mp h
    obtain ⟨rfl, rfl, rfl⟩ := heq
    exact .outside (fun t ht ↦ hperform t ht) hstep
  · obtain ⟨rfl, rfl, rfl⟩ := h
    exact .write
  next code response =>
    obtain ⟨rfl, rfl, rfl⟩ := h
    by_cases hcode : code = 0
    · rw [hcode, if_neg (not_not_intro rfl)]
      exact .done
    · rw [if_pos hcode]
      exact .fail hcode
  · obtain ⟨rfl, rfl, rfl⟩ := h
    exact .unlink
  · obtain ⟨rfl, rfl, rfl⟩ := h
    exact .flush
  next response =>
    by_cases h200 : response = 200
    · subst h200
      rw [if_pos rfl, bumpUrlcounter, if_neg fun hmoves ↦ hmoves.1 rfl] at h
      obtain ⟨rfl, rfl, rfl⟩ := h
      exact .receive
    · rw [if_neg h200] at h
      obtain ⟨rfl, rfl, rfl⟩ := h
      exact .refuse h200
  next job f =>
    by_cases hread : (d.read f.name).getD [] = []
    · rw [if_pos hread] at h
      obtain ⟨rfl, rfl, rfl⟩ := h
      exact .empty hread
    · rw [if_neg hread] at h
      obtain ⟨rfl, rfl, rfl⟩ := h
      exact .fill hread
  · obtain ⟨rfl, rfl, rfl⟩ := h
    exact .noTest
  · split at h
    next hok =>
      obtain ⟨members, hread, heq⟩ := Option.map_eq_some_iff.mp h
      obtain ⟨rfl, rfl, rfl⟩ := heq
      rw [hok]
      exact .valid hread
    next hok =>
      obtain ⟨rfl, rfl, rfl⟩ := h
      rw [Bool.not_eq_true] at hok
      rw [hok]
      exact .invalid
  · obtain ⟨rfl, rfl, rfl⟩ := h
    exact .noExtract
  · split at h
    next hread =>
      obtain ⟨rfl, rfl, rfl⟩ := h
      exact .noArchive hread
    next hread =>
      obtain ⟨rfl, rfl, rfl⟩ := h
      exact .start hread
  · obtain ⟨⟨sh₁, pc₁⟩, hstep, h⟩ := Option.bind_eq_some_iff.mp h
    split at h
    next hpc =>
      obtain ⟨rfl, rfl, rfl⟩ := h
      exact .extract (hpc ▸ hstep)
    next hpc =>
      obtain ⟨rfl, rfl, rfl⟩ := h
      exact .exit (hpc ▸ hstep)
    · exact absurd h (by simp)
  · obtain ⟨rfl, rfl, rfl⟩ := h
    exact .leave
  · exact absurd h (by simp)

/-! ## Files apart -/

/-- What a step does to `/tmp` and to the file of its handler. -/
inductive TmpStep (d : TmpDir) : Option TmpFile → TmpDir → Option TmpFile → Prop
  | same {f} : TmpStep d f d f
  | create {name} (hfree : d.names name = none) :
    TmpStep d none (d.create name) (some ⟨name, d.next, false⟩)
  | write {f bs} : TmpStep d (some f) (d.write f.ino bs) (some f)
  | unlink {f} : TmpStep d (some f) (d.unlink f.name) (some { f with unlinked := true })
  | leave {f} : TmpStep d (some f) (d.unlink f.name) none

theorem FileStep.tmp {cfg : Config} {sh sh' : Shared} {d d' : TmpDir} {pc pc' : FilePc}
    {a : FileAct} (h : FileStep cfg sh d pc a sh' d' pc') : TmpStep d pc.file d' pc'.file := by
  cases h with
  | create hfree => exact .create hfree
  | write | flush => exact .write
  | unlink => exact .unlink
  | leave => exact .leave
  | _ => exact .same

/-- The files of all handlers. -/
def FilesDaemon.files (s : FilesDaemon) (i : ℕ) : Option TmpFile := s.threads[i]?.bind FilePc.file

/-- No two handlers have the same file. -/
structure TmpApart (d : TmpDir) (files : ℕ → Option TmpFile) : Prop where
  names_lt : ∀ n ino, d.names n = some ino → ino < d.next
  lt : ∀ i f, files i = some f → f.ino < d.next
  inj : ∀ i j f g, files i = some f → files j = some g → f.ino = g.ino → i = j

/-- Every name stands for the file of its handler, until that has unlinked it. -/
def TmpIsolated (d : TmpDir) (files : ℕ → Option TmpFile) : Prop :=
  ∀ i f, files i = some f → d.names f.name = if f.unlinked then none else some f.ino

/-- What there is in `/tmp` beside what was there before belongs to a handler. -/
structure TmpClean (before : Bytes → Option ℕ) (d : TmpDir) (files : ℕ → Option TmpFile) :
    Prop where
  owned : ∀ n, d.names n = before n ∨ ∃ i f, files i = some f ∧ f.name = n
  new : ∀ i f, files i = some f → before f.name = none

section TmpStep

variable {d d' : TmpDir} {files : ℕ → Option TmpFile} {i : ℕ} {x : Option TmpFile}

private theorem of_update {j : ℕ} {f : TmpFile} (h : Function.update files i x j = some f) :
    j = i ∧ x = some f ∨ j ≠ i ∧ files j = some f := by
  by_cases hji : j = i
  · subst hji
    rw [Function.update_self] at h
    exact Or.inl ⟨rfl, h⟩
  · rw [Function.update_of_ne hji] at h
    exact Or.inr ⟨hji, h⟩

private theorem TmpApart.mono {files' : ℕ → Option TmpFile} (h : TmpApart d files)
    (hnames : ∀ n ino, d'.names n = some ino → d.names n = some ino) (hnext : d'.next = d.next)
    (hfiles : ∀ j g, files' j = some g → ∃ f, files j = some f ∧ f.ino = g.ino) :
    TmpApart d' files' := by
  refine ⟨fun n ino hn ↦ hnext ▸ h.names_lt n ino (hnames n ino hn), fun j g hj ↦ ?_, ?_⟩
  · obtain ⟨f, hf, hino⟩ := hfiles j g hj
    rw [← hino, hnext]
    exact h.lt j f hf
  · intro j k g g' hj hk heq
    obtain ⟨f, hf, hino⟩ := hfiles j g hj
    obtain ⟨f', hf', hino'⟩ := hfiles k g' hk
    exact h.inj j k f f' hf hf' (by rw [hino, hino', heq])

theorem TmpDir.unlink_names {name n : Bytes} {ino : ℕ} (h : (d.unlink name).names n = some ino) :
    d.names n = some ino ∧ n ≠ name := by
  simp only [TmpDir.unlink, Option.ite_none_left_eq_some] at h
  exact ⟨h.2, h.1⟩

theorem TmpApart.step (h : TmpApart d files) (hstep : TmpStep d (files i) d' x) :
    TmpApart d' (Function.update files i x) := by
  generalize hi : files i = o at hstep
  cases hstep with
  | same =>
    rw [← hi, Function.update_eq_self]
    exact h
  | @create name hfree =>
    have hlt : ∀ j f, files j = some f → f.ino < d.next + 1 :=
      fun j f hj ↦ Nat.lt_succ_of_lt (h.lt j f hj)
    refine ⟨fun n ino hn ↦ ?_, fun j f hj ↦ ?_, fun j k f g hj hk heq ↦ ?_⟩
    · simp only [TmpDir.create] at hn ⊢
      split at hn
      · rw [← Option.some.inj hn]
        exact Nat.lt_succ_self _
      · exact Nat.lt_succ_of_lt (h.names_lt n ino hn)
    · rcases of_update hj with ⟨rfl, hf⟩ | ⟨-, hf⟩
      · rw [← Option.some.inj hf]
        exact Nat.lt_succ_self _
      · exact hlt j f hf
    · rcases of_update hj with ⟨rfl, hf⟩ | ⟨-, hf⟩ <;> rcases of_update hk with ⟨rfl, hg⟩ | ⟨-, hg⟩
      · rfl
      · rw [← Option.some.inj hf] at heq
        exact absurd heq.symm (Nat.ne_of_lt (h.lt k g hg))
      · rw [← Option.some.inj hg] at heq
        exact absurd heq (Nat.ne_of_lt (h.lt j f hf))
      · exact h.inj j k f g hf hg heq
  | write =>
    rw [← hi, Function.update_eq_self]
    exact h.mono (fun _ _ hn ↦ hn) rfl fun j g hj ↦ ⟨g, hj, rfl⟩
  | @unlink f =>
    refine h.mono (fun _ _ hn ↦ (TmpDir.unlink_names hn).1) rfl fun j g hj ↦ ?_
    rcases of_update hj with ⟨rfl, hg⟩ | ⟨-, hg⟩
    · exact ⟨f, hi, by rw [← Option.some.inj hg]⟩
    · exact ⟨g, hg, rfl⟩
  | leave =>
    refine h.mono (fun _ _ hn ↦ (TmpDir.unlink_names hn).1) rfl fun j g hj ↦ ?_
    rcases of_update hj with ⟨-, hg⟩ | ⟨-, hg⟩
    · exact absurd hg (by simp)
    · exact ⟨g, hg, rfl⟩

theorem TmpIsolated.unlink (h : TmpIsolated d files) (hapart : TmpApart d files) {f g : TmpFile}
    {j : ℕ} (hi : files i = some f) (hj : files j = some g) (hne : j ≠ i) :
    (d.unlink f.name).names g.name = if g.unlinked then none else some g.ino := by
  simp only [TmpDir.unlink]
  split
  next heq =>
    have hg := h j g hj
    rw [heq, h i f hi] at hg
    cases hgu : g.unlinked with
    | true => rfl
    | false =>
      -- both names would stand for the file of `g`
      rw [hgu, if_neg Bool.false_ne_true] at hg
      split at hg
      · exact absurd hg (by simp)
      · exact absurd (hapart.inj j i g f hj hi (Option.some.inj hg).symm) hne
  · exact h j g hj

/-- **One step.** It keeps the names apart exactly if it takes no name of another handler. -/
theorem TmpIsolated.step_iff (h : TmpIsolated d files) (hapart : TmpApart d files)
    (hstep : TmpStep d (files i) d' x) : TmpIsolated d' (Function.update files i x) ↔
      ∀ f g, files i = none → x = some f → ∀ j, files j = some g → g.name ≠ f.name := by
  generalize hi : files i = o at hstep
  cases hstep with
  | same =>
    rw [← hi, Function.update_eq_self]
    exact iff_of_true h fun f g hnone hx ↦ absurd (hnone.symm.trans hx) (by simp)
  | @create name hfree =>
    have hnames : ∀ n, (d.create name).names n = if n = name then some d.next else d.names n :=
      fun _ ↦ rfl
    constructor
    · intro h' f g _ hf j hj hname
      obtain rfl := Option.some.inj hf
      have hne : j ≠ i := fun heq ↦ absurd (hj.symm.trans (heq ▸ hi)) (by simp)
      have hg := h' j g (by rw [Function.update_of_ne hne, hj])
      have hg₀ := h j g hj
      simp only at hname
      rw [hnames, if_pos hname] at hg
      rw [hname, hfree] at hg₀
      split at hg
      · exact absurd hg (by simp)
      next hu => exact absurd (hg₀.trans (if_neg hu)) (by simp)
    · intro hfresh j g hj
      rcases of_update hj with ⟨rfl, hg⟩ | ⟨-, hg⟩
      · obtain rfl := Option.some.inj hg
        rw [hnames, if_pos rfl]
        rfl
      · rw [hnames, if_neg (hfresh _ g rfl rfl j hg)]
        exact h j g hg
  | write =>
    rw [← hi, Function.update_eq_self]
    exact iff_of_true h fun f g hnone ↦ absurd (hnone.symm.trans hi) (by simp)
  | unlink =>
    refine iff_of_true (fun j g hj ↦ ?_) fun f g hnone ↦ absurd hnone (by simp)
    rcases of_update hj with ⟨rfl, hg⟩ | ⟨hne, hg⟩
    · obtain rfl := Option.some.inj hg
      exact if_pos rfl
    · exact h.unlink hapart hi hg hne
  | leave =>
    refine iff_of_true (fun j g hj ↦ ?_) fun f g _ hf ↦ absurd hf (by simp)
    rcases of_update hj with ⟨-, hg⟩ | ⟨hne, hg⟩
    · exact absurd hg (by simp)
    · exact h.unlink hapart hi hg hne

theorem TmpClean.step {before : Bytes → Option ℕ} (h : TmpClean before d files)
    (hstep : TmpStep d (files i) d' x) : TmpClean before d' (Function.update files i x) := by
  generalize hi : files i = o at hstep
  cases hstep with
  | same =>
    rw [← hi, Function.update_eq_self]
    exact h
  | @create name hfree =>
    have hnew : before name = none := by
      rcases h.owned name with hsame | ⟨j, f, hj, rfl⟩
      · rw [← hsame, hfree]
      · exact h.new j f hj
    refine ⟨fun n ↦ ?_, fun j f hj ↦ ?_⟩
    · by_cases hn : n = name
      · exact Or.inr ⟨i, _, Function.update_self .., hn.symm⟩
      · rcases h.owned n with hsame | ⟨j, f, hj, hname⟩
        · exact Or.inl ((if_neg hn).trans hsame)
        · refine Or.inr ⟨j, f, ?_, hname⟩
          rw [Function.update_of_ne fun heq ↦ absurd (hj.symm.trans (heq ▸ hi)) (by simp), hj]
    · rcases of_update hj with ⟨-, hf⟩ | ⟨-, hf⟩
      · rw [← Option.some.inj hf]
        exact hnew
      · exact h.new j f hf
  | write =>
    rw [← hi, Function.update_eq_self]
    exact ⟨h.owned, h.new⟩
  | @unlink f =>
    refine ⟨fun n ↦ ?_, fun j g hj ↦ ?_⟩
    · rcases h.owned n with hsame | ⟨j, g, hj, hname⟩
      · by_cases hn : n = f.name
        · exact Or.inr ⟨i, _, Function.update_self .., hn.symm⟩
        · exact Or.inl ((if_neg hn).trans hsame)
      · by_cases hji : j = i
        · subst hji
          obtain rfl := Option.some.inj (hi.symm.trans hj)
          exact Or.inr ⟨j, _, Function.update_self .., hname⟩
        · exact Or.inr ⟨j, g, by rw [Function.update_of_ne hji, hj], hname⟩
    · rcases of_update hj with ⟨-, hg⟩ | ⟨-, hg⟩
      · rw [← Option.some.inj hg]
        exact h.new i f hi
      · exact h.new j g hg
  | @leave f =>
    refine ⟨fun n ↦ ?_, fun j g hj ↦ ?_⟩
    · by_cases hn : n = f.name
      · -- what the handler has made is gone, whoever has it now
        refine Or.inl ((if_pos hn).trans ?_)
        rw [hn, h.new i f hi]
      · rcases h.owned n with hsame | ⟨j, g, hj, hname⟩
        · exact Or.inl ((if_neg hn).trans hsame)
        · refine Or.inr ⟨j, g, ?_, hname⟩
          rw [Function.update_of_ne, hj]
          rintro rfl
          obtain rfl := Option.some.inj (hi.symm.trans hj)
          exact hn hname.symm
    · rcases of_update hj with ⟨-, hg⟩ | ⟨-, hg⟩
      · exact absurd hg (by simp)
      · exact h.new j g hg

end TmpStep

/-! ## The daemon -/

/-- The steps of the daemon. -/
inductive FilesStep (cfg : Config) (s : FilesDaemon) : FilesAct → FilesDaemon → Prop
  | main {a d} (h : mainStep ⟨s.sh, s.loop, []⟩ s.loop a = some d) :
    FilesStep cfg s (.main a) ⟨d.sh, s.tmp, d.loop, s.threads ++ d.threads.map .outside⟩
  | thread {i a pc sh' d' pc'} (hloop : s.loop ≠ .exited) (hpc : s.threads[i]? = some pc)
    (h : FileStep cfg s.sh s.tmp pc a sh' d' pc') :
    FilesStep cfg s (.thread i a) { s with sh := sh', tmp := d', threads := s.threads.set i pc' }
  | tick {seconds now} (hloop : s.loop ≠ .exited) :
    FilesStep cfg s (.tick seconds now)
      { s with sh := { s.sh with elapsed := s.sh.elapsed + seconds, now := now } }

variable {cfg : Config} {s s' : FilesDaemon} {a : FilesAct}

theorem filesStep_cases (h : filesStep cfg s a = some s') : FilesStep cfg s a s' := by
  cases a with
  | main a =>
    obtain ⟨d, hd, rfl⟩ := Option.map_eq_some_iff.mp h
    exact .main hd
  | thread i a =>
    rw [filesStep] at h
    split at h
    · exact absurd h (by simp)
    next hloop =>
      split at h
      · exact absurd h (by simp)
      next hpc =>
        obtain ⟨⟨sh', d', pc'⟩, hstep, rfl⟩ := Option.map_eq_some_iff.mp h
        exact .thread hloop hpc (fileStep_cases hstep)
  | tick =>
    rw [filesStep] at h
    split at h
    · exact absurd h (by simp)
    next hloop =>
      obtain rfl := Option.some.inj h
      exact .tick hloop

/-- A handler gets a name that no other one has. -/
def FreshName (s : FilesDaemon) (a : FilesAct) : Prop :=
  ∀ i name, a = .thread i (.mkstemp name) → ∀ j f, s.files j = some f → f.name ≠ name

theorem FilesStep.tmp (h : FilesStep cfg s a s') : ∃ i x,
    TmpStep s.tmp (s.files i) s'.tmp x ∧ s'.files = Function.update s.files i x ∧
      (FreshName s a ↔ ∀ f g, s.files i = none → x = some f → ∀ j, s.files j = some g →
        g.name ≠ f.name) := by
  cases h with
  | tick =>
    refine ⟨0, s.files 0, .same, (Function.update_eq_self ..).symm, ?_⟩
    refine iff_of_true (fun _ _ ha ↦ absurd ha (by simp)) fun f g hnone hx ↦ ?_
    exact absurd (hnone.symm.trans hx) (by simp)
  | @main a d h =>
    refine ⟨0, s.files 0, .same, ?_, ?_⟩
    · rw [Function.update_eq_self]
      funext i
      rw [FilesDaemon.files, FilesDaemon.files, List.getElem?_append]
      split
      · rfl
      next hge =>
        rw [List.getElem?_eq_none (Nat.le_of_not_lt hge), List.getElem?_map]
        cases d.threads[i - s.threads.length]? <;> rfl
    · refine iff_of_true (fun _ _ ha ↦ absurd ha (by simp)) fun f g hnone hx ↦ ?_
      exact absurd (hnone.symm.trans hx) (by simp)
  | @thread i a pc sh' d' pc' hloop hpc h =>
    have hfile : s.files i = pc.file := by rw [FilesDaemon.files, hpc, Option.bind_some]
    refine ⟨i, pc'.file, hfile ▸ h.tmp, ?_, ?_⟩
    · funext j
      by_cases hji : j = i
      · subst hji
        rw [Function.update_self, FilesDaemon.files,
          List.getElem?_set_self (List.getElem?_eq_some_iff.mp hpc).1, Option.bind_some]
      · rw [Function.update_of_ne hji, FilesDaemon.files, FilesDaemon.files,
          List.getElem?_set_ne (Ne.symm hji)]
    · rw [hfile]
      cases h with
      | @create job name hfree =>
        constructor
        · intro hfresh f g _ hx j hj
          obtain rfl := Option.some.inj hx
          exact hfresh i name rfl j g hj
        · intro hfresh k name' ha j f hj
          obtain rfl := FileAct.mkstemp.inj (FilesAct.thread.inj ha).2
          exact hfresh _ f rfl rfl j hj
      | outside =>
        refine iff_of_true (fun _ _ ha ↦ absurd ha (by simp)) fun f g _ hx ↦ ?_
        exact absurd hx (by simp [FilePc.file])
      | _ =>
        refine iff_of_true (fun _ _ ha ↦ absurd ha (by simp)) fun f g hnone ↦ ?_
        exact absurd hnone (by simp [FilePc.file])

/-! ## Every run -/

variable {c₀ : Int32} {now : Int64} {cache : Cache} {tmp : TmpDir} {acts : List FilesAct}

private theorem files_start : (FilesDaemon.start c₀ now cache tmp).files = fun _ ↦ none := rfl

/-- **When handlers have their files to themselves.** In every state of a run each handler finds its
own file under its name, or nothing once it has unlinked it, exactly as long as `mkstemp` gives no
handler the name of another one. -/
theorem tempFiles_isolated_iff (htmp : ∀ n ino, tmp.names n = some ino → ino < tmp.next)
    (hrun : run (filesStep cfg) (FilesDaemon.start c₀ now cache tmp) acts = some s) :
    AllSteps (filesStep cfg) FreshName (FilesDaemon.start c₀ now cache tmp) acts ↔
      ∀ before, before <+: acts → ∃ t,
        run (filesStep cfg) (FilesDaemon.start c₀ now cache tmp) before = some t ∧
          TmpIsolated t.tmp t.files := by
  refine AllSteps.iff_of_invariant (AllSteps.of_run hrun)
    (I := fun s : FilesDaemon ↦ TmpApart s.tmp s.files ∧ TmpIsolated s.tmp s.files)
    ⟨⟨htmp, ?_, ?_⟩, ?_⟩ ?_ (fun s hs ↦ hs.2) ?_
  · exact fun i f hi ↦ absurd hi (by simp [files_start])
  · exact fun i j f g hi ↦ absurd hi (by simp [files_start])
  · exact fun i f hi ↦ absurd hi (by simp [files_start])
  · rintro s a ⟨hapart, hisolated⟩ hposs hfresh
    obtain ⟨s', hs'⟩ := Option.ne_none_iff_exists'.mp hposs
    obtain ⟨i, x, hstep, hfiles, hiff⟩ := (filesStep_cases hs').tmp
    refine ⟨s', hs', ?_⟩
    rw [hfiles]
    exact ⟨hapart.step hstep, (hisolated.step_iff hapart hstep).mpr (hiff.mp hfresh)⟩
  · rintro s a s' ⟨hapart, hisolated⟩ - hfresh hs' hisolated'
    obtain ⟨i, x, hstep, hfiles, hiff⟩ := (filesStep_cases hs').tmp
    rw [hfiles] at hisolated'
    exact hfresh (hiff.mpr ((hisolated.step_iff hapart hstep).mp hisolated'))

/-- An archive of one byte holds the file `./x`. -/
def archivesOfByte : Config :=
  ⟨twoMirrors, fun body ↦ if body = [1] then some [⟨bytes "./x", .file [1]⟩] else none⟩

/-- The steps of a daemon without files that it does with files as well. -/
def Act.withFiles : Act → FilesAct
  | .main a => .main a
  | .thread i a => .thread i (.handler a)
  | .tick seconds now => .tick seconds now

/-- Two requests, one below `src` and one below `lib`, up to `mkstemp`. -/
def twoRequests : List FilesAct :=
  (requestOf 0 (bytes "0:src:/y" ++ [0]) ++ [Act.thread 0 .avoidDupes] ++
    fetchOf 1 (bytes "/x")).map Act.withFiles

/-- The first transfer breaks off, and the second handler gets the name of the file. Then the first
handler goes on. -/
def nameTwice : List FilesAct :=
  twoRequests ++ [.thread 0 (.mkstemp [116]), .thread 0 (.perform 18 200), .thread 0 .unlink,
    .thread 1 (.mkstemp [116]), .thread 1 (.write [1]), .thread 1 (.perform 0 200),
    .thread 0 .count, .thread 0 .stat, .thread 0 (.tarTest true), .thread 0 .tarStart,
    .thread 0 (.handler .tarCreate), .thread 0 (.handler (.tarWrite 1)),
    .thread 0 (.handler .tarClose), .thread 0 (.handler (.tarExit true)), .thread 0 .unlink]

/-- The directory `/tmp` without files. -/
def emptyTmp : TmpDir := ⟨fun _ ↦ none, fun _ ↦ [], 0⟩

/-- The archive for `lib` is extracted below `src`, and the reply is that of a success. -/
theorem nameTwice_mixes : ∃ s,
    run (filesStep archivesOfByte) (FilesDaemon.start 0 0 Cache.empty emptyTmp) nameTwice =
        some s ∧
      s.sh.cache.lookup ⟨bytes "src", bytes "./x"⟩ = some ⟨[1], true⟩ ∧
      s.threads[0]? = some (.outside (.returned
        ⟨⟨0, bytes "src", bytes "/y"⟩, 0, bytes "a/src/y.tar"⟩ 200)) := by
  have hmap : (run (filesStep archivesOfByte) (FilesDaemon.start 0 0 Cache.empty emptyTmp)
      nameTwice).map (fun s ↦ (s.sh.cache.lookup ⟨bytes "src", bytes "./x"⟩, s.threads[0]?)) =
        some (some ⟨[1], true⟩, some (.outside (.returned
          ⟨⟨0, bytes "src", bytes "/y"⟩, 0, bytes "a/src/y.tar"⟩ 200))) := by
    decide +kernel
  obtain ⟨s, hs, hsees⟩ := Option.map_eq_some_iff.mp hmap
  obtain ⟨hlookup, hthread⟩ := Prod.mk.inj hsees
  exact ⟨s, hs, hlookup, hthread⟩

theorem tempFiles_isolated_iff_nameTwice : ∃ s,
    run (filesStep archivesOfByte) (FilesDaemon.start 0 0 Cache.empty emptyTmp) nameTwice =
        some s ∧
      (AllSteps (filesStep archivesOfByte) FreshName (FilesDaemon.start 0 0 Cache.empty emptyTmp)
          nameTwice ↔
        ∀ before, before <+: nameTwice → ∃ t,
          run (filesStep archivesOfByte) (FilesDaemon.start 0 0 Cache.empty emptyTmp) before =
              some t ∧ TmpIsolated t.tmp t.files) := by
  obtain ⟨s, hs, -⟩ := nameTwice_mixes
  exact ⟨s, hs, tempFiles_isolated_iff (fun n ino hn ↦ absurd hn (by simp [emptyTmp])) hs⟩

/-- **No temporary file is left.** Whatever names `mkstemp` gives, all that there is in `/tmp`
beside what was there at the start belongs to handlers that have not returned from `curl_get_file`,
and nothing that was there is gone. -/
theorem tempFiles_clean
    (hrun : run (filesStep cfg) (FilesDaemon.start c₀ now cache tmp) acts = some s) (n : Bytes) :
    s.tmp.names n = tmp.names n ∨ tmp.names n = none ∧ ∃ (i : ℕ) (pc : FilePc) (f : TmpFile),
      s.threads[i]? = some pc ∧ pc.file = some f ∧ f.name = n := by
  have hclean : TmpClean tmp.names s.tmp s.files := by
    refine run_invariant (I := fun _ s ↦ TmpClean tmp.names s.tmp s.files) ⟨?_, ?_⟩ ?_ hrun
    · exact fun n ↦ Or.inl rfl
    · exact fun i f hi ↦ absurd hi (by simp [files_start])
    · intro _ s a s' hs hs'
      obtain ⟨i, x, hstep, hfiles, -⟩ := (filesStep_cases hs').tmp
      rw [hfiles]
      exact hs.step hstep
  rcases hclean.owned n with hsame | ⟨i, f, hi, rfl⟩
  · exact Or.inl hsame
  · obtain ⟨pc, hpc, hf⟩ := Option.bind_eq_some_iff.mp hi
    exact Or.inr ⟨hclean.new i f hi, i, pc, f, hpc, hf, rfl⟩

theorem tempFiles_clean_nameTwice : ∃ s,
    run (filesStep archivesOfByte) (FilesDaemon.start 0 0 Cache.empty emptyTmp) nameTwice =
        some s ∧
      ∀ n, s.tmp.names n = emptyTmp.names n ∨ emptyTmp.names n = none ∧
        ∃ (i : ℕ) (pc : FilePc) (f : TmpFile),
          s.threads[i]? = some pc ∧ pc.file = some f ∧ f.name = n := by
  obtain ⟨s, hs, -⟩ := nameTwice_mixes
  exact ⟨s, hs, tempFiles_clean hs⟩

/-! ## The daemon without files -/

/-- Where a handler stands, but for its file. The transfer counts as done with `urlcounter`. -/
def FilePc.abs (d : TmpDir) : FilePc → Pc
  | .outside pc => pc
  | .transfer job _ | .failed job _ _ | .flushing job _ _ => .admitted job
  | .counted job f => .received job (if f.unlinked then [] else d.data f.ino)
  | .sized job f => .filled job (d.data f.ino)
  | .tested job f => .tested job (d.data f.ino)
  | .extracting job _ todo cur => .extracting job todo cur
  | .out job _ ret => .returned job ret

/-- What a handler has found to have a size is not unlinked. -/
def FilePc.Kept : FilePc → Prop
  | .sized _ f | .tested _ f => f.unlinked = false
  | _ => True

/-- The state as `Server.Daemon` has it. -/
def FilesDaemon.abs (s : FilesDaemon) : Daemon := ⟨s.sh, s.loop, s.threads.map (FilePc.abs s.tmp)⟩

/-- The step of a handler as `Server.Daemon` has it. There a transfer is one step, and brings what
is in the file. An archive that `tar -xf` refuses counts as a command that cannot be made. -/
def FilePc.label (cfg : Config) (d : TmpDir) : FilePc → FileAct → Option HandlerAct
  | _, .handler a => some a
  | .flushing _ f response, .count =>
    some (.perform ⟨if f.unlinked then 1 else 0, response, d.data f.ino⟩)
  | _, .stat => some .stat
  | _, .noCommand => some .noCommand
  | _, .tarTest ok => some (.tarTest ok)
  | .tested _ f, .tarStart =>
    some (if ((d.read f.name).bind cfg.listing).isSome then .tarStart else .noCommand)
  | _, _ => none

/-- The step of the daemon as `Server.Daemon` has it. -/
def FilesDaemon.label (cfg : Config) (s : FilesDaemon) : FilesAct → Option Act
  | .main a => some (.main a)
  | .thread i a => (s.threads[i]?.bind fun pc ↦ pc.label cfg s.tmp a).map (.thread i)
  | .tick seconds now => some (.tick seconds now)

private theorem read_of_isolated {d : TmpDir} {f : TmpFile}
    (h : d.names f.name = if f.unlinked then none else some f.ino) :
    d.read f.name = if f.unlinked then none else some (d.data f.ino) := by
  rw [TmpDir.read, h]
  split <;> rfl

/-- **One step of a handler** that finds its own file under its name. -/
theorem FileStep.refines {sh sh' : Shared} {d d' : TmpDir} {pc pc' : FilePc} {a : FileAct}
    (h : FileStep cfg sh d pc a sh' d' pc')
    (hown : ∀ f, pc.file = some f → d.names f.name = if f.unlinked then none else some f.ino)
    (hkept : pc.Kept) : pc'.Kept ∧
      (pc.label cfg d a = none ∧ sh' = sh ∧ pc'.abs d' = pc.abs d ∨
        ∃ b, pc.label cfg d a = some b ∧
          handlerStep cfg sh (pc.abs d) b = some (sh', pc'.abs d')) := by
  cases h with
  | outside _ h => exact ⟨trivial, Or.inr ⟨_, rfl, h⟩⟩
  | create | write | fail | done | unlink | flush | leave =>
    exact ⟨trivial, Or.inl ⟨rfl, rfl, rfl⟩⟩
  | @receive job f =>
    refine ⟨trivial, Or.inr ⟨_, rfl, ?_⟩⟩
    simp only [FilePc.abs, handlerStep, bumpUrlcounter, if_true]
    cases f.unlinked <;> rfl
  | @refuse job f response h200 =>
    refine ⟨trivial, Or.inr ⟨_, rfl, ?_⟩⟩
    simp only [FilePc.abs, handlerStep, if_neg h200]
  | @empty job f hread =>
    refine ⟨trivial, Or.inr ⟨_, rfl, ?_⟩⟩
    rw [read_of_isolated (hown f rfl)] at hread
    have hbody : (if f.unlinked then [] else d.data f.ino) = [] := by
      cases hu : f.unlinked with
      | true => rfl
      | false => simpa [hu] using hread
    simp only [FilePc.abs, handlerStep, hbody, if_true]
  | @fill job f hread =>
    rw [read_of_isolated (hown f rfl)] at hread
    cases hu : f.unlinked with
    | true => exact absurd hread (by simp [hu])
    | false =>
      refine ⟨hu, Or.inr ⟨_, rfl, ?_⟩⟩
      have hbody : d.data f.ino ≠ [] := by simpa [hu] using hread
      simp only [FilePc.abs, handlerStep, hu, Bool.false_eq_true, if_false, if_neg hbody]
  | noTest => exact ⟨trivial, Or.inr ⟨_, rfl, rfl⟩⟩
  | invalid => exact ⟨trivial, Or.inr ⟨_, rfl, rfl⟩⟩
  | @valid job f members hread =>
    have hu : f.unlinked = false := hkept
    refine ⟨hu, Or.inr ⟨_, rfl, ?_⟩⟩
    rw [read_of_isolated (hown f rfl), hu] at hread
    have hlist : cfg.listing (d.data f.ino) = some members := hread
    simp only [FilePc.abs, handlerStep, if_true, hlist, Option.map_some]
  | noExtract => exact ⟨trivial, Or.inr ⟨_, rfl, rfl⟩⟩
  | @noArchive job f hread =>
    refine ⟨trivial, Or.inr ⟨.noCommand, ?_, rfl⟩⟩
    rw [FilePc.label, hread]
    rfl
  | @start job f members hread =>
    have hu : f.unlinked = false := hkept
    refine ⟨trivial, Or.inr ⟨.tarStart, ?_, ?_⟩⟩
    · rw [FilePc.label, hread]
      rfl
    rw [read_of_isolated (hown f rfl), hu] at hread
    have hlist : cfg.listing (d.data f.ino) = some members := hread
    simp only [FilePc.abs, handlerStep, hlist, Option.map_some]
  | extract h | exit h => exact ⟨trivial, Or.inr ⟨_, rfl, h⟩⟩

theorem TmpStep.data {d d' : TmpDir} {o x : Option TmpFile} (h : TmpStep d o d' x) {ino : ℕ}
    (hlt : ino < d.next) (hne : ∀ f, o = some f → f.ino ≠ ino) : d'.data ino = d.data ino := by
  cases h with
  | same | unlink | leave => rfl
  | create => exact if_neg (Nat.ne_of_lt hlt)
  | write => exact if_neg (Ne.symm (hne _ rfl))

theorem FilePc.abs_congr {d d' : TmpDir} {pc : FilePc}
    (h : ∀ f, pc.file = some f → d'.data f.ino = d.data f.ino) : pc.abs d' = pc.abs d := by
  cases pc with
  | counted job f | sized job f | tested job f => simp only [FilePc.abs, h f rfl]
  | _ => rfl

private theorem mainStep_threads (sh : Shared) (loop l : Loop) (threads : List Pc) (a : MainAct) :
    mainStep ⟨sh, loop, threads⟩ l a =
      (mainStep ⟨sh, loop, []⟩ l a).map fun d ↦ ⟨d.sh, d.loop, threads ++ d.threads⟩ := by
  unfold mainStep
  split
  case h_7 fd ok => cases ok <;> simp
  case h_2 =>
    split <;> simp
  all_goals simp

/-- A step of one handler leaves where the others stand, since it has its file to itself. -/
private theorem FileStep.abs_threads {i : ℕ} {sh' : Shared} {d' : TmpDir} {pc pc' : FilePc}
    {b : FileAct} (h : FileStep cfg s.sh s.tmp pc b sh' d' pc') (hapart : TmpApart s.tmp s.files)
    (hpc : s.threads[i]? = some pc) :
    (s.threads.set i pc').map (FilePc.abs d') =
      (s.threads.map (FilePc.abs s.tmp)).set i (pc'.abs d') := by
  have hfiles : ∀ (j : ℕ) (q : FilePc), s.threads[j]? = some q → s.files j = q.file := by
    intro j q hq
    rw [FilesDaemon.files, hq, Option.bind_some]
  have hother : ∀ (j : ℕ) (q : FilePc), s.threads[j]? = some q → j ≠ i →
      q.abs d' = q.abs s.tmp := by
    intro j q hq hji
    refine FilePc.abs_congr fun g hg ↦ h.tmp.data (hapart.lt j g ((hfiles j q hq).trans hg)) ?_
    exact fun f hf heq ↦
      hji (hapart.inj j i g f ((hfiles j q hq).trans hg) ((hfiles i pc hpc).trans hf) heq.symm)
  rw [List.map_set]
  refine List.ext_getElem? fun j ↦ ?_
  by_cases hji : i = j
  · subst hji
    simp only [List.getElem?_set, List.length_map, if_true]
  · rw [List.getElem?_set_ne hji, List.getElem?_set_ne hji, List.getElem?_map, List.getElem?_map]
    cases hq : s.threads[j]? with
    | none => rfl
    | some q => rw [Option.map_some, Option.map_some, hother j q hq (Ne.symm hji)]

theorem FilesStep.refines (h : FilesStep cfg s a s') (hapart : TmpApart s.tmp s.files)
    (hisolated : TmpIsolated s.tmp s.files) (hkept : ∀ pc ∈ s.threads, pc.Kept) :
    (∀ pc ∈ s'.threads, pc.Kept) ∧
      run (step cfg) s.abs (s.label cfg a).toList = some s'.abs := by
  cases h with
  | tick hloop => exact ⟨hkept, run_singleton.trans (if_neg hloop)⟩
  | @main a d h =>
    constructor
    · intro pc hpc
      rcases List.mem_append.mp hpc with hpc | hpc
      · exact hkept pc hpc
      · obtain ⟨pc, -, rfl⟩ := List.mem_map.mp hpc
        trivial
    · refine run_singleton.trans ?_
      change mainStep ⟨s.sh, s.loop, _⟩ s.loop a = _
      rw [mainStep_threads, h, Option.map_some, FilesDaemon.abs, List.map_append, List.map_map]
      congr 3
      exact (List.map_id' d.threads).symm
  | @thread i a pc sh' d' pc' hloop hpc h =>
    have hfile : s.files i = pc.file := by rw [FilesDaemon.files, hpc, Option.bind_some]
    obtain ⟨hkept', hstep⟩ := h.refines (fun f hf ↦ hisolated i f (hfile.trans hf))
      (hkept pc (List.mem_of_getElem? hpc))
    have hthreads := h.abs_threads hapart hpc
    have habs : s.abs.threads[i]? = some (pc.abs s.tmp) := by
      rw [FilesDaemon.abs, List.getElem?_map, hpc, Option.map_some]
    refine ⟨fun q hq ↦ ?_, ?_⟩
    · rcases List.mem_or_eq_of_mem_set hq with hq | rfl
      · exact hkept q hq
      · exact hkept'
    · rw [FilesDaemon.label, hpc, Option.bind_some]
      rcases hstep with ⟨hlabel, rfl, hsame⟩ | ⟨b, hlabel, hb⟩
      · obtain ⟨hlt, heq⟩ := List.getElem?_eq_some_iff.mp habs
        rw [hlabel, FilesDaemon.abs, FilesDaemon.abs]
        simp only [hthreads, hsame, ← heq]
        exact congrArg (some ∘ Daemon.mk s.sh s.loop) (List.set_getElem_self hlt).symm
      · have hloop' : s.abs.loop ≠ .exited := hloop
        rw [hlabel]
        refine run_singleton.trans ?_
        rw [step, if_neg hloop']
        simp only [habs]
        change (handlerStep cfg s.sh (pc.abs s.tmp) b).map _ = _
        rw [hb, Option.map_some]
        simp only [FilesDaemon.abs, hthreads]

/-- **Every run with files is one without.** As long as no handler gets the name of another one, the
daemon does with its files what it does in `Server.Daemon`, where each handler has its archive to
itself: the same steps, but those with which the file is made, filled and unlinked. -/
theorem tempFiles_refine (htmp : ∀ n ino, tmp.names n = some ino → ino < tmp.next)
    (hfresh : AllSteps (filesStep cfg) FreshName (FilesDaemon.start c₀ now cache tmp) acts)
    (hrun : run (filesStep cfg) (FilesDaemon.start c₀ now cache tmp) acts = some s) :
    run (step cfg) (Daemon.start c₀ now cache) (trace (filesStep cfg) (FilesDaemon.label cfg)
      (FilesDaemon.start c₀ now cache tmp) acts) = some s.abs := by
  refine hfresh.run_trace (I := fun s : FilesDaemon ↦ TmpApart s.tmp s.files ∧
    TmpIsolated s.tmp s.files ∧ ∀ pc ∈ s.threads, pc.Kept) FilesDaemon.abs
    ⟨⟨htmp, ?_, ?_⟩, ?_, ?_⟩ ?_ hrun
  · exact fun i f hi ↦ absurd hi (by simp [files_start])
  · exact fun i j f g hi ↦ absurd hi (by simp [files_start])
  · exact fun i f hi ↦ absurd hi (by simp [files_start])
  · exact fun pc hpc ↦ absurd hpc List.not_mem_nil
  · rintro s a s' ⟨hapart, hisolated, hkept⟩ hfresh hs'
    have hcases := filesStep_cases hs'
    obtain ⟨hkept', hsim⟩ := hcases.refines hapart hisolated hkept
    obtain ⟨i, x, hstep, hfiles, hiff⟩ := hcases.tmp
    rw [hfiles]
    exact ⟨⟨hapart.step hstep, (hisolated.step_iff hapart hstep).mpr (hiff.mp hfresh), hkept'⟩,
      hsim⟩

/-- The two requests, with a file each: the first transfer breaks off, and the second archive is
extracted. -/
def twoFetches : List FilesAct :=
  (twoRequests ++ [.thread 0 (.mkstemp [116])]) ++ .thread 1 (.mkstemp [117]) ::
    [.thread 0 (.perform 18 200), .thread 1 (.write [1]), .thread 0 .unlink,
      .thread 1 (.perform 0 200), .thread 0 .count, .thread 1 .count, .thread 1 .stat,
      .thread 0 .stat, .thread 1 (.tarTest true), .thread 1 .tarStart, .thread 0 .unlink,
      .thread 1 (.handler .tarCreate), .thread 1 (.handler (.tarWrite 1)),
      .thread 1 (.handler .tarClose), .thread 1 (.handler (.tarExit true)), .thread 1 .unlink]

private theorem mem_of_files {j : ℕ} {f : TmpFile} (h : s.files j = some f) :
    some f ∈ s.threads.map FilePc.file := by
  obtain ⟨pc, hpc, hf⟩ := Option.bind_eq_some_iff.mp h
  exact List.mem_map.mpr ⟨pc, List.mem_of_getElem? hpc, hf⟩

theorem tempFiles_refine_twoFetches : ∃ s,
    run (filesStep archivesOfByte) (FilesDaemon.start 0 0 Cache.empty emptyTmp) twoFetches =
      some s ∧
    s.sh.cache.lookup ⟨bytes "lib", bytes "./x"⟩ = some ⟨[1], true⟩ ∧
    run (step archivesOfByte) (Daemon.start 0 0 Cache.empty) (trace (filesStep archivesOfByte)
      (FilesDaemon.label archivesOfByte) (FilesDaemon.start 0 0 Cache.empty emptyTmp) twoFetches) =
        some s.abs := by
  have hmap : (run (filesStep archivesOfByte) (FilesDaemon.start 0 0 Cache.empty emptyTmp)
      twoFetches).map (fun s ↦ s.sh.cache.lookup ⟨bytes "lib", bytes "./x"⟩) =
        some (some ⟨[1], true⟩) := by
    decide +kernel
  obtain ⟨s, hs, hlookup⟩ := Option.map_eq_some_iff.mp hmap
  have hfiles : (run (filesStep archivesOfByte) (FilesDaemon.start 0 0 Cache.empty emptyTmp)
        twoRequests).map (fun s ↦ s.threads.map FilePc.file) = some [none, none] ∧
      (run (filesStep archivesOfByte) (FilesDaemon.start 0 0 Cache.empty emptyTmp)
        (twoRequests ++ [.thread 0 (.mkstemp [116])])).map (fun s ↦ s.threads.map FilePc.file) =
          some [some ⟨[116], 0, false⟩, none] := by
    decide +kernel
  have hother : ∀ b ∈ twoRequests, ∀ t, FreshName t b := by
    rintro b hb t i name rfl
    exact absurd hb (by simp [twoRequests, fetchOf, requestOf, Act.withFiles])
  refine ⟨s, hs, hlookup, tempFiles_refine (fun n ino hn ↦ absurd hn (by simp [emptyTmp])) ?_ hs⟩
  refine AllSteps.append (AllSteps.of_split (by simpa using hother) fun t ht i name _ j f hj ↦ ?_)
    fun t ht ↦ ⟨fun i name hact j f hj ↦ ?_, fun _ _ ↦ AllSteps.of_forall_mem (by simp [FreshName])⟩
  · have hnone := hfiles.1
    rw [ht, Option.map_some, Option.some_inj] at hnone
    have hmem := hnone ▸ mem_of_files hj
    exact absurd hmem (by simp)
  · have hfirst := hfiles.2
    rw [ht, Option.map_some, Option.some_inj] at hfirst
    have hmem := hfirst ▸ mem_of_files hj
    obtain rfl : f = ⟨[116], 0, false⟩ := by simpa using hmem
    obtain ⟨-, hname⟩ := FilesAct.thread.inj hact
    rw [← FileAct.mkstemp.inj hname]
    decide

end ClrDebugInfo
