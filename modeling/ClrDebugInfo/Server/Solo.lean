import ClrDebugInfo.Server.Daemon

/-!
# A handler on its own

The transition system and the function `serverThread` embed the same code. A handler whose steps
are not interleaved with others ends in a state that `serverThread` computes from the same message,
for some answers of the world at the time that the clock shows (`serverThread_of_solo`). So what is
proved of sessions holds of such runs of the transition system.

The invariant `SoloAt` says for every place in the handler what its answers have been so far.
-/

namespace ClrDebugInfo

open Runs

variable {cfg : Config} {sh sh' : Shared} {msg : Option Bytes} {job : Job} {ret : ℕ}

/-- The static variables that outlive a handler. -/
def Shared.server (sh : Shared) : Server := ⟨sh.dupes, sh.urlcounter⟩

/-- One step of a handler, alone. -/
def soloStep (cfg : Config) (st : Shared × Pc) (a : HandlerAct) : Option (Shared × Pc) :=
  handlerStep cfg st.1 st.2 a

/-- The message is the request `r`. -/
def Reads (msg : Option Bytes) (r : Request) : Prop :=
  ∃ m, msg = some m ∧ parseRequest (requestBuffer m) = some (some r)

/-- The job is what a handler makes of the message. -/
def Called (cfg : Config) (sh : Shared) (msg : Option Bytes) (job : Job) : Prop :=
  Reads msg job.request ∧ ∃ base,
    mirrorUrl cfg.urls (mirrorIndex sh.urlcounter cfg.urls) = some base ∧
    job.mirror = mirrorIndex sh.urlcounter cfg.urls ∧ job.url = requestUrl base job.request

/-- `avoid_dupes` has let the job go ahead, and neither the table nor the counter has changed
since. -/
def LetThrough (cfg : Config) (sh : Shared) (msg : Option Bytes) (sh' : Shared) (job : Job) :
    Prop :=
  Called cfg sh msg job ∧ sh'.urlcounter = sh.urlcounter ∧
    avoidDupes cfg.alloc sh.dupes job.url sh.now = some (0, sh'.dupes)

/-- `serverThread` gives the result for the job, for some answers of the world. -/
def Served (cfg : Config) (sh : Shared) (msg : Option Bytes) (server : Server) (job : Job)
    (ret : ℕ) : Prop :=
  ∃ v f, v.read = msg ∧ v.env.now = sh.now ∧
    serverThread cfg.toMirrors sh.server v = some (some f, server) ∧
    f.request = job.request ∧ f.url = job.url ∧ f.ret = ret

/-- What is known of a handler that began in `sh` with a message, when it has come to a place. -/
def SoloAt (cfg : Config) (sh : Shared) (msg : Option Bytes) (sh' : Shared) : Pc → Prop
  | .entry _ => False
  | .parsed r => sh'.server = sh.server ∧ sh'.now = sh.now ∧ Reads msg r
  | .built job => sh'.server = sh.server ∧ sh'.now = sh.now ∧ Called cfg sh msg job
  | .admitted job => LetThrough cfg sh msg sh' job
  | .received job body => LetThrough cfg sh msg sh' job ∧
    ∃ t : Transfer, t.response = 200 ∧ body = if t.code ≠ 0 then [] else t.body
  | .filled job _ | .tested job _ | .extracting job _ _ => LetThrough cfg sh msg sh' job
  | .returned job ret => Served cfg sh msg sh'.server job ret
  | .leaving | .ended => ∃ v served, v.read = msg ∧ v.env.now = sh.now ∧
    serverThread cfg.toMirrors sh.server v = some (served, sh'.server)

/-! ## Results -/

private theorem served_of_called (h : Called cfg sh msg job) {env : FetchEnv}
    (hnow : env.now = sh.now) {dropped : Bool} {server : Server}
    (hget : curlGetFile cfg.toMirrors env sh.server job.url job.request.pfx job.request.timestamp =
      some (dropped, ret, server)) : Served cfg sh msg server job ret := by
  obtain ⟨⟨m, rfl, hparse⟩, base, hbase, hmirror, hurl⟩ := h
  refine ⟨⟨some m, true, env⟩, ⟨job.request, job.mirror, job.url, dropped, ret⟩, rfl, hnow, ?_,
    rfl, rfl, rfl⟩
  have hbase' : mirrorUrl cfg.urls (mirrorIndex sh.server.urlcounter cfg.urls) = some base := hbase
  rw [hurl] at hget
  simp only [serverThread, hparse, hbase', hget, Bool.not_true, Bool.false_eq_true, if_false,
    Option.map_some]
  rw [hmirror, hurl]
  rfl

private theorem served_of_letThrough (h : LetThrough cfg sh msg sh' job) (env : FetchEnv)
    (hnow : env.now = sh.now) {c : Int32}
    (hdownload : download env sh.urlcounter job.url job.request.pfx job.request.timestamp =
      (ret, c)) : Served cfg sh msg ⟨sh'.dupes, c⟩ job ret := by
  obtain ⟨hcalled, -, hdupes⟩ := h
  have hdupes' : avoidDupes cfg.alloc sh.server.dupes job.url env.now = some (0, sh'.dupes) := by
    rw [hnow]
    exact hdupes
  have hget : curlGetFile cfg.toMirrors env sh.server job.url job.request.pfx
      job.request.timestamp = some (false, ret, ⟨sh'.dupes, c⟩) := by
    have hdownload' : download env sh.server.urlcounter job.url job.request.pfx
        job.request.timestamp = (ret, c) := hdownload
    rw [curlGetFile, hdupes', Option.map_some, if_neg (not_not_intro rfl)]
    simp only [hdownload']
  exact served_of_called hcalled hnow hget

private theorem served_same_counter (h : LetThrough cfg sh msg sh' job) (env : FetchEnv)
    (hnow : env.now = sh.now)
    (hdownload : download env sh.urlcounter job.url job.request.pfx job.request.timestamp =
      (ret, sh.urlcounter)) : Served cfg sh msg sh'.server job ret := by
  have hserved := served_of_letThrough h env hnow hdownload
  rwa [← h.2.1] at hserved

/-- A world in which an archive arrives. -/
def archiveEnv (now : Int64) : FetchEnv := FetchEnv.ofTransfer now ⟨0, 200, bytes "archive"⟩

/-- A world in which only the second `tar` fails. -/
def brokenEnv (now : Int64) (pfx : Bytes) : FetchEnv :=
  { archiveEnv now with
    system := fun command ↦
      if command = tarCommand pfx (bytes "-tf") (bytes "/tmp/clr-debug-info-AbCdEf") then 0
      else 1 }

private theorem tarCommand_ne (pfx filename : Bytes) :
    tarCommand pfx (bytes "-xf") filename ≠ tarCommand pfx (bytes "-tf") filename := by
  intro h
  rw [tarCommand, tarCommand] at h
  have hmode := List.append_cancel_right (List.append_cancel_right h)
  exact absurd (List.append_cancel_left hmode) (by decide)

/-! ## The invariant -/

theorem SoloAt.step {sh'' : Shared} {pc pc' : Pc} {a : HandlerAct} (h : SoloAt cfg sh msg sh' pc)
    (hstep : HandlerStep cfg sh' pc a sh'' pc') : SoloAt cfg sh msg sh'' pc' := by
  cases hstep with
  | quit => exact h.elim
  | parse => exact h.elim
  | @noUrl r base _ hbase =>
    obtain ⟨hserver, -, m, rfl, hparse⟩ := h
    have hcounter : sh'.urlcounter = sh.urlcounter := congrArg Server.urlcounter hserver
    have hbase' : mirrorUrl cfg.urls (mirrorIndex sh.server.urlcounter cfg.urls) = some base := by
      rw [hcounter] at hbase
      exact hbase
    refine ⟨⟨some m, false, archiveEnv sh.now⟩, none, rfl, rfl, ?_⟩
    rw [hserver]
    simp only [serverThread, hparse, hbase', Bool.not_false, if_true]
  | @build r base _ hbase =>
    obtain ⟨hserver, hnow, hreads⟩ := h
    have hcounter : sh'.urlcounter = sh.urlcounter := congrArg Server.urlcounter hserver
    rw [hcounter] at hbase ⊢
    exact ⟨hserver, hnow, hreads, base, hbase, rfl, rfl⟩
  | @drop job dup dupes _ hdup hrun =>
    -- a dropped request downloads nothing, so any environment with this clock will do
    obtain ⟨hserver, hnow, hcalled⟩ := h
    have hdupes : sh'.dupes = sh.dupes := congrArg Server.dupes hserver
    have hcounter : sh'.urlcounter = sh.urlcounter := congrArg Server.urlcounter hserver
    rw [hdupes, hnow] at hrun
    have hget : curlGetFile cfg.toMirrors (archiveEnv sh.now) sh.server job.url job.request.pfx
        job.request.timestamp = some (true, 300, ⟨dupes, sh.urlcounter⟩) := by
      have hrun' : avoidDupes cfg.alloc sh.server.dupes job.url (archiveEnv sh.now).now =
        some (dup, dupes) := hrun
      rw [curlGetFile, hrun', Option.map_some, if_pos hdup]
      rfl
    have hserved := served_of_called hcalled rfl hget
    rwa [← hcounter] at hserved
  | @letThrough job dupes _ hrun =>
    obtain ⟨hserver, hnow, hcalled⟩ := h
    have hdupes : sh'.dupes = sh.dupes := congrArg Server.dupes hserver
    rw [hdupes, hnow] at hrun
    exact ⟨hcalled, congrArg Server.urlcounter hserver, hrun⟩
  | noCurl => exact served_same_counter h { archiveEnv sh.now with curlInit := false } rfl rfl
  | noFile => exact served_same_counter h { archiveEnv sh.now with nameAlloc := false } rfl rfl
  | @refuse job t h200 =>
    rw [h.2.1]
    apply served_of_letThrough h (FetchEnv.ofTransfer sh.now t) rfl
    simp [download, FetchEnv.ofTransfer, h200]
  | @receive job t h200 => exact ⟨h, t, h200, rfl⟩
  | @empty job =>
    obtain ⟨hlet, t, h200, hbody⟩ := h
    apply served_same_counter hlet (FetchEnv.ofTransfer sh.now t) rfl
    have hsize : (if t.code ≠ 0 then 0 else t.body.length) = 0 := by
      by_cases hcode : t.code = 0
      · rw [if_neg (not_not_intro hcode)] at hbody ⊢
        rw [← hbody]
        rfl
      · rw [if_pos hcode]
    have hunpack : ∀ env pfx filename, unpack env pfx filename t = 418 := by
      intro env pfx filename
      rw [unpack, hsize, if_pos rfl]
    simp [download, FetchEnv.ofTransfer, h200, hunpack, bumpUrlcounter]
  | fill => exact h.1
  | noTest => exact served_same_counter h { archiveEnv sh.now with testAlloc := false } rfl rfl
  | invalid =>
    exact served_same_counter h { archiveEnv sh.now with system := fun _ ↦ 1 } rfl rfl
  | valid => exact h
  | noExtract =>
    exact served_same_counter h { archiveEnv sh.now with extractAlloc := false } rfl rfl
  | start => exact h
  | unlink => exact h
  | create => exact h
  | write => exact h
  | close => exact h
  | extracted => exact served_same_counter h (archiveEnv sh.now) rfl rfl
  | @breakOff job =>
    -- `tar -xf` is the one command that fails
    apply served_same_counter h (brokenEnv sh.now job.request.pfx) rfl
    simp [download, unpack, brokenEnv, archiveEnv, FetchEnv.ofTransfer, bumpUrlcounter,
      tarCommand_ne]
  | reply =>
    obtain ⟨v, f, hread, hnow, hthread, -⟩ := h
    exact ⟨v, some f, hread, hnow, hthread⟩
  | finish => exact h

private theorem soloAt_of_run {fd : ℤ} (hfd : 0 ≤ fd) {acts : List HandlerAct} {pc : Pc}
    (hrun : run (soloStep cfg) (sh, .entry fd) (.read msg :: acts) = some (sh', pc)) :
    SoloAt cfg sh msg sh' pc := by
  obtain ⟨⟨sh₁, pc₁⟩, hfirst, hrest⟩ := run_cons_iff.mp hrun
  have hstart : SoloAt cfg sh msg sh₁ pc₁ := by
    simp only [soloStep, handlerStep, if_neg (not_lt.mpr hfd)] at hfirst
    cases msg with
    | none =>
      obtain ⟨rfl, rfl⟩ := hfirst
      exact ⟨⟨none, true, archiveEnv sh.now⟩, none, rfl, rfl, rfl⟩
    | some m =>
      cases hparse : parseRequest (requestBuffer m) with
      | none => simp [hparse] at hfirst
      | some parsed =>
        cases parsed with
        | none =>
          simp only [hparse] at hfirst
          obtain ⟨rfl, rfl⟩ := hfirst
          exact ⟨⟨some m, true, archiveEnv sh.now⟩, none, rfl, rfl, by simp [serverThread, hparse]⟩
        | some r =>
          simp only [hparse] at hfirst
          obtain ⟨rfl, rfl⟩ := hfirst
          exact ⟨rfl, rfl, m, rfl, hparse⟩
  exact run_invariant (I := fun _ st ↦ SoloAt cfg sh msg st.1 st.2) hstart
    (fun _ _ _ _ hst hstep ↦ hst.step (handlerStep_cases hstep)) hrest

/-- **A handler alone is `serverThread`.** -/
theorem serverThread_of_solo {fd : ℤ} (hfd : 0 ≤ fd) {acts : List HandlerAct}
    (hrun : run (soloStep cfg) (sh, .entry fd) (.read msg :: acts) = some (sh', .ended)) :
    ∃ v served, v.read = msg ∧ v.env.now = sh.now ∧
      serverThread cfg.toMirrors sh.server v = some (served, sh'.server) :=
  soloAt_of_run hfd hrun

/-! ## In the daemon -/

theorem run_last {sh sh' : Shared} {pc pc' : Pc} {as : List HandlerAct} (since : ℕ)
    (ts : List Pc) (h : run (soloStep cfg) (sh, pc) as = some (sh', pc')) :
    run (step cfg) ⟨sh, .select since, ts ++ [pc]⟩ (as.map (.thread ts.length)) =
      some ⟨sh', .select since, ts ++ [pc']⟩ := by
  induction as generalizing sh pc with
  | nil =>
    rw [run_nil, Option.some_inj] at h
    obtain ⟨rfl, rfl⟩ := Prod.mk.inj h
    rfl
  | cons a as ih =>
    obtain ⟨⟨sh₁, pc₁⟩, hstep, hrest⟩ := run_cons_iff.mp h
    rw [List.map_cons, run_cons_iff]
    refine ⟨⟨sh₁, .select since, ts ++ [pc₁]⟩, ?_, ih hrest⟩
    have hstep' : handlerStep cfg sh pc a = some (sh₁, pc₁) := hstep
    rw [step, if_neg Loop.noConfusion, List.getElem?_concat_length]
    simp [hstep']

end ClrDebugInfo
