import ClrDebugInfo.Client.Message
import ClrDebugInfo.Prepare.Selection
import ClrDebugInfo.Server.Fetch

/-!
# Conditional refresh

The way of one regular file from the source tree to the cache: `clr_debug_prepare` packs it into a
tarball, the web server offers the tarball, the client asks for it with the time of its cached
copy, and the daemon passes that time on as a condition.

Two times meet in the comparison. The web server knows when the tarball was made; the cached copy
carries the time of the source file, which `tar` stores and restores. `futimens` would put the
first on the second's place, but it is applied to the temporary file. So the answer "not modified"
says that the source file is not older than the tarball, to the second.
-/

namespace ClrDebugInfo

open Runs

/-! ## Times -/

/-- `struct timespec` -/
structure Timespec where
  sec : Int64
  nsec : Fin 1000000000
  deriving DecidableEq

/-- The time in nanoseconds. -/
def Timespec.ns (t : Timespec) : ℤ := t.sec.toInt * 1000000000 + (t.nsec : ℕ)

theorem Timespec.sec_le_of_ns_le {s t : Timespec} (h : s.ns ≤ t.ns) :
    s.sec.toInt ≤ t.sec.toInt := by
  rw [Timespec.ns, Timespec.ns] at h
  have := t.nsec.isLt
  omega

/-! ## The world around one file -/

/-- A tarball that `process_one` made. -/
structure Tarball where
  /-- How many were made before it. -/
  number : ℕ
  /-- The modification time of its member. -/
  member : Timespec
  /-- When it was made. -/
  time : Timespec
  body : Bytes

/-- The file in the cache. -/
structure Copy where
  /-- The number of the tarball it was extracted from. -/
  number : ℕ
  mtime : Timespec

structure World where
  clock : Timespec
  /-- The modification time of the source file. -/
  source : Timespec
  tarball : Option Tarball
  /-- How many tarballs have been made. -/
  made : ℕ
  cached : Option Copy
  server : Server

/-- A source file, and nothing else yet. -/
def World.start (clock source : Timespec) (urlcounter : Int32) : World :=
  ⟨clock, source, none, 0, none, ⟨Dupes.init, urlcounter⟩⟩

/-- The answer of the web server, which compares in seconds. -/
def webServer (tarball : Option Tarball) (ifModifiedSince : Option Int64) : Transfer :=
  match tarball with
  | none => ⟨0, 404, []⟩
  | some tar =>
    match ifModifiedSince with
    | none => ⟨0, 200, tar.body⟩
    | some t => if tar.time.sec.toInt ≤ t.toInt then ⟨0, 304, []⟩ else ⟨0, 200, tar.body⟩

/-- The world of a fetch: a transfer that does not break off is answered by the web server. -/
def World.env (w : World) (env : FetchEnv) : FetchEnv :=
  { env with perform := fun url ifModifiedSince ↦
      let t := env.perform url ifModifiedSince
      if t.code ≠ 0 then t else webServer w.tarball ifModifiedSince }

/-- `stbuf->st_mtime` after the first `lstat` of `xmp_getattr`. -/
def World.statMtime (w : World) : Int64 :=
  match w.cached with
  | none => 0
  | some copy => copy.mtime.sec

/-- The connection that `try_to_get` makes. -/
def World.visit (w : World) (pfx path : Bytes) (urlAlloc : Bool) (env : FetchEnv) : Visit :=
  ⟨some (readMessage (requestMessage w.statMtime pfx path)), urlAlloc, w.env env⟩

/-- `tar -xf` does not fail. -/
def extracts (env : FetchEnv) (pfx : Bytes) : Bool :=
  match env.mkstemp with
  | none => true
  | some filename => env.system (tarCommand pfx (bytes "-xf") filename) = 0

/-! ## Histories -/

inductive Event where
  /-- The source file is written; its modification time is set. -/
  | edit (mtime : Timespec)
  /-- `clr_debug_prepare` runs; the bytes are those of the tarball, if it makes one. -/
  | publish (time : Timespec) (body : Bytes)
  /-- `xmp_getattr` for the file. -/
  | request (urlAlloc : Bool) (env : FetchEnv)
  /-- Another daemon takes over. -/
  | restart (urlcounter : Int32)

/-- The gawk program lets `process_one` make a tarball: there is none, or it is older than the
source file. -/
def World.outdated (w : World) : Bool :=
  match w.tarball with
  | none => true
  | some tar => tar.time.ns < w.source.ns

/-- A time as the gawk program reads it. -/
def Timespec.ticks (t : Timespec) : ℕ := t.ns.toNat

/-- The file is outdated exactly if the gawk program selects it, given lists that have it, with a
time that is not negative, and its tarball. -/
theorem World.outdated_iff_selected {w : World} {p name : Bytes} {srclist destlist : List Line}
    {jobs : List PackJob} (hsel : select srclist destlist = some jobs)
    (hsrc : DistinctBy (fun l ↦ mapName l.name) srclist) (hdest : DistinctBy Line.name destlist)
    (hline : ⟨p, w.source.ticks, .f⟩ ∈ srclist) (hname : mapName p = some name)
    (htarball : ∀ time, (∃ old ∈ destlist, old.name = name ∧ old.time = time) ↔
      ∃ tar, w.tarball = some tar ∧ tar.time.ticks = time)
    (hnonneg : ∀ tar, w.tarball = some tar → 0 ≤ tar.time.ns) :
    w.outdated = true ↔ ⟨p, name, .f⟩ ∈ jobs := by
  have hjob : (⟨p, name, .f⟩ : PackJob) ∈ jobs ↔
      ∀ old ∈ destlist, old.name = name → old.time < w.source.ticks := by
    rw [mem_select hsel hsrc hdest]
    constructor
    · rintro ⟨l, hl, hmap, -, -, hall⟩ old hold hname'
      obtain rfl := hsrc l hl _ hline (hmap.trans hname.symm)
      exact (hall old hold hname').2
    · exact fun h ↦ ⟨_, hline, hname, rfl, rfl, fun old hold hname' ↦ ⟨by simp, h old hold hname'⟩⟩
  rw [hjob, World.outdated]
  cases htar : w.tarball with
  | none =>
    refine iff_of_true rfl fun old hold hname' ↦ ?_
    obtain ⟨tar, hsome, -⟩ := (htarball old.time).mp ⟨old, hold, hname', rfl⟩
    rw [htar] at hsome
    exact absurd hsome (by simp)
  | some tar =>
    have hlt : tar.time.ns < w.source.ns ↔ tar.time.ticks < w.source.ticks := by
      have := hnonneg tar htar
      rw [Timespec.ticks, Timespec.ticks]
      omega
    simp only [decide_eq_true_eq, hlt]
    constructor
    · intro h old hold hname'
      obtain ⟨tar', hsome, heq⟩ := (htarball old.time).mp ⟨old, hold, hname', rfl⟩
      rw [htar, Option.some_inj] at hsome
      rwa [← heq, ← hsome]
    · intro h
      obtain ⟨old, hold, hname', heq⟩ := (htarball tar.time.ticks).mpr ⟨tar, htar, rfl⟩
      rw [← heq]
      exact h old hold hname'

/-- What a run of `clr_debug_prepare` does. -/
def World.publish (w : World) (time : Timespec) (body : Bytes) : World :=
  if w.outdated then
    { w with clock := time, tarball := some ⟨w.made, w.source, time, body⟩, made := w.made + 1 }
  else { w with clock := time }

/-- What a handler leaves behind. -/
def World.serve (w : World) (r : Option Fetched × Server) : World :=
  { w with
    server := r.2
    cached :=
      match r.1, w.tarball with
      | some f, some tar => if f.ret = 200 then some ⟨tar.number, tar.member⟩ else w.cached
      | _, _ => w.cached }

/-- One event. Time does not go back, a source file is not packed before its modification time, and
no extraction breaks off. -/
def World.step (cfg : Mirrors) (pfx path : Bytes) (w : World) : Event → Option World
  | .edit mtime => some { w with source := mtime }
  | .publish time body =>
    if w.clock.ns ≤ time.ns ∧ (w.outdated → w.source.ns ≤ time.ns) then some (w.publish time body)
    else none
  | .request urlAlloc env =>
    if asksFor path ∧ extracts env pfx then
      (serverThread cfg w.server (w.visit pfx path urlAlloc env)).map w.serve
    else none
  | .restart urlcounter => some { w with server := ⟨Dupes.init, urlcounter⟩ }

variable {cfg : Mirrors} {pfx path : Bytes}

/-! ## What holds of tarballs and copies -/

/-- A tarball is not older than its member, and the cached copy comes from the tarball on the server
or an earlier one. -/
structure World.Ordered (w : World) : Prop where
  tarball : ∀ tar, w.tarball = some tar → tar.number < w.made ∧ tar.member.ns ≤ tar.time.ns ∧
    tar.time.ns ≤ w.clock.ns
  cached : ∀ copy, w.cached = some copy → ∃ tar, w.tarball = some tar ∧
    copy.mtime.ns ≤ tar.time.ns ∧ copy.number ≤ tar.number ∧
    (copy.number = tar.number → copy.mtime = tar.member)

theorem World.Ordered.step {w w' : World} {e : Event} (hw : w.Ordered)
    (hstep : w.step cfg pfx path e = some w') : w'.Ordered := by
  cases e with
  | edit mtime =>
    obtain rfl := Option.some.inj hstep
    exact ⟨hw.tarball, hw.cached⟩
  | publish time body =>
    rw [World.step] at hstep
    split at hstep
    next h =>
      obtain ⟨hclock, hsource⟩ := h
      obtain rfl := Option.some.inj hstep
      rw [World.publish]
      -- a new tarball is not older than the one it replaces, so not older than the copy
      by_cases hout : w.outdated = true
      · rw [if_pos hout]
        refine ⟨fun tar htar ↦ ?_, fun copy hcopy ↦ ?_⟩
        · obtain rfl := Option.some.inj htar
          exact ⟨Nat.lt_succ_self _, hsource hout, le_refl _⟩
        · obtain ⟨tar, htar, hle, hnumber, -⟩ := hw.cached copy hcopy
          obtain ⟨hmade, -, htime⟩ := hw.tarball tar htar
          exact ⟨_, rfl, hle.trans (htime.trans hclock), by simp only; omega,
            fun heq ↦ by simp only at heq; omega⟩
      · rw [if_neg hout]
        refine ⟨fun tar htar ↦ ?_, hw.cached⟩
        obtain ⟨hmade, hmember, htime⟩ := hw.tarball tar htar
        exact ⟨hmade, hmember, htime.trans hclock⟩
    · exact absurd hstep (by simp)
  | request urlAlloc env =>
    rw [World.step] at hstep
    split at hstep
    · obtain ⟨⟨served, server⟩, -, rfl⟩ := Option.map_eq_some_iff.mp hstep
      refine ⟨hw.tarball, fun copy hcopy ↦ ?_⟩
      simp only [World.serve] at hcopy ⊢
      split at hcopy
      next f tar htar =>
        by_cases hret : f.ret = 200
        · rw [if_pos hret] at hcopy
          obtain rfl := Option.some.inj hcopy
          exact ⟨tar, htar, (hw.tarball tar htar).2.1, le_refl _, fun _ ↦ rfl⟩
        · rw [if_neg hret] at hcopy
          exact hw.cached copy hcopy
      · exact hw.cached copy hcopy
    · exact absurd hstep (by simp)
  | restart urlcounter =>
    obtain rfl := Option.some.inj hstep
    exact ⟨hw.tarball, hw.cached⟩

private theorem ordered_of_run {clock source : Timespec} {c : Int32} {events : List Event}
    {w : World}
    (hrun : run (World.step cfg pfx path) (World.start clock source c) events = some w) :
    w.Ordered := by
  refine run_invariant (I := fun _ w ↦ w.Ordered) ?_ (fun _ _ _ _ hw hstep ↦ hw.step hstep) hrun
  exact ⟨fun _ h ↦ (by cases h), fun _ h ↦ (by cases h)⟩

/-! ## The answer -/

theorem download_eq_304_iff {env : FetchEnv} {url : Bytes} {timestamp : Int64} {t : Transfer}
    (ht : env.transfer url timestamp = some t) (c : Int32) (pfx : Bytes) :
    (download env c url pfx timestamp).1 = 304 ↔ t.response = 304 := by
  rw [FetchEnv.transfer] at ht
  rw [download]
  split at ht
  next h =>
    simp only [Bool.and_eq_true] at h
    obtain ⟨⟨hinit, hname⟩, htemp⟩ := h
    obtain ⟨filename, hfile⟩ := Option.isSome_iff_exists.mp htemp
    obtain rfl := Option.some.inj ht
    simp only [hinit, hname, hfile, Bool.not_true, Bool.false_eq_true, if_false]
    by_cases h200 :
        (env.perform url (if timestamp = 0 then none else some timestamp)).response = 200
    · rw [if_pos h200, h200]
      refine iff_of_false ?_ (by decide)
      rw [unpack]
      split_ifs <;> decide
    · rw [if_neg h200]
  · exact absurd ht (by simp)

theorem World.transfer_eq {w : World} {env : FetchEnv} {url : Bytes} {timestamp : Int64}
    {t : Transfer} (ht : (w.env env).transfer url timestamp = some t) (hcode : t.code = 0) :
    t = webServer w.tarball (if timestamp = 0 then none else some timestamp) := by
  rw [FetchEnv.transfer] at ht
  split at ht
  · obtain rfl := Option.some.inj ht
    generalize (if timestamp = 0 then none else some timestamp) = ifModifiedSince at hcode ⊢
    simp only [World.env] at hcode ⊢
    by_cases hcode' : (env.perform url ifModifiedSince).code = 0
    · rw [if_neg (not_not_intro hcode')]
    · rw [if_pos hcode'] at hcode
      exact absurd hcode hcode'
  · exact absurd ht (by simp)

private theorem webServer_code (tarball : Option Tarball) (ifModifiedSince : Option Int64) :
    (webServer tarball ifModifiedSince).code = 0 := by
  unfold webServer
  split
  · rfl
  · split
    · rfl
    · split <;> rfl

theorem webServer_eq_304_iff {tar : Tarball} {timestamp : Int64} :
    (webServer (some tar) (if timestamp = 0 then none else some timestamp)).response = 304 ↔
      timestamp ≠ 0 ∧ tar.time.sec.toInt ≤ timestamp.toInt := by
  by_cases h0 : timestamp = 0
  · simp [webServer, h0]
  · by_cases hle : tar.time.sec.toInt ≤ timestamp.toInt
    · simp [webServer, h0, hle]
    · simp [webServer, h0, hle]

/-- **The refresh is exact for a same-second file only.** A request for a cached path that is not
dropped and gets its answer is answered 304 exactly for the copy of the current tarball if and only
if: where the copy is that of the current tarball, the source file was last modified in the second
in which it was packed; and where it is of an earlier one, the source file packed then was last
modified in an earlier second than the current tarball was made. (The second 0 counts as no
time.) -/
theorem refresh_exact_iff {clock source : Timespec} {c : Int32} {events : List Event} {w : World}
    (hrun : run (World.step cfg pfx path) (World.start clock source c) events = some w)
    {urlAlloc : Bool} {env : FetchEnv} {f : Fetched} {server : Server}
    (hserve : serverThread cfg w.server (w.visit pfx path urlAlloc env) = some (some f, server))
    {copy : Copy} {tar : Tarball} (hcached : w.cached = some copy) (htar : w.tarball = some tar)
    (hlet : f.dropped = false) {t : Transfer}
    (hanswer : (w.env env).transfer f.url f.request.timestamp = some t) (hcode : t.code = 0) :
    (f.ret = 304 ↔ copy.number = tar.number) ↔
      if copy.number = tar.number then
        copy.mtime.sec.toInt = tar.time.sec.toInt ∧ copy.mtime.sec ≠ 0
      else copy.mtime.sec = 0 ∨ copy.mtime.sec.toInt < tar.time.sec.toInt := by
  obtain ⟨-, hordered⟩ := ordered_of_run hrun
  obtain ⟨tar', htar', hle, -⟩ := hordered copy hcached
  rw [htar, Option.some_inj] at htar'
  have hsec := Timespec.sec_le_of_ns_le (htar' ▸ hle)
  rcases serverThread_cases hserve with
    ⟨hnone, -⟩ | ⟨g, base, msg, hg, hread, hparse, -, -, -, hget⟩
  · exact absurd hnone (by simp)
  obtain rfl := Option.some.inj hg
  obtain rfl := Option.some.inj hread
  have htime : f.request.timestamp = copy.mtime.sec := by
    rw [parseRequest_timestamp hparse, World.statMtime, hcached]
  -- a request that is not dropped gets to the transfer, with the time of the copy
  obtain ⟨dup, -, ⟨-, hdropped, -⟩ | ⟨-, -, hdownload⟩⟩ := curlGetFile_eq_some hget
  · rw [hlet] at hdropped
    exact absurd hdropped (by simp)
  have hret : f.ret = 304 ↔ t.response = 304 := by
    have hiff := download_eq_304_iff hanswer w.server.urlcounter f.request.pfx
    have hresult : download (w.env env) w.server.urlcounter f.url f.request.pfx
        f.request.timestamp = (f.ret, server.urlcounter) := hdownload
    rwa [hresult] at hiff
  have hresponse : t.response = 304 ↔
      copy.mtime.sec ≠ 0 ∧ tar.time.sec.toInt ≤ copy.mtime.sec.toInt := by
    rw [World.transfer_eq hanswer hcode, htar, htime, webServer_eq_304_iff]
  rw [hret, hresponse]
  by_cases hsame : copy.number = tar.number
  · rw [if_pos hsame, iff_true_right hsame]
    exact ⟨fun h ↦ ⟨le_antisymm hsec h.2, h.1⟩, fun h ↦ ⟨h.2, h.1.ge⟩⟩
  · rw [if_neg hsame, iff_false_right hsame, not_and_or, not_not, not_le]

/-- A source file of second `source` is packed in second `packed`, and fetched. -/
def fetchedOnce (source packed : Int64) : Option World :=
  run (World.step twoMirrors (bytes "lib") (bytes "/x")) (World.start ⟨0, 0⟩ ⟨source, 0⟩ 0)
    [.publish ⟨packed, 0⟩ (bytes "archive"), .request true (FetchEnv.ofTransfer 0 ⟨0, 0, []⟩)]

/-- The second request for the file, 700 seconds after the first. -/
def World.secondRequest (w : World) : Visit :=
  w.visit (bytes "lib") (bytes "/x") true (FetchEnv.ofTransfer 700 ⟨0, 0, []⟩)

/-- A file of second 500 is packed in second 1000, and fetched twice from the same tarball. -/
theorem fetchedOnce_not_refreshed : ∃ w copy tar f server,
    fetchedOnce 500 1000 = some w ∧ w.cached = some copy ∧ w.tarball = some tar ∧
      serverThread twoMirrors w.server w.secondRequest = some (some f, server) ∧
      f.dropped = false ∧ copy.number = tar.number ∧ f.ret = 200 ∧
      ¬(f.ret = 304 ↔ copy.number = tar.number) := by
  refine ⟨_, _, _, ⟨⟨500, bytes "lib", bytes "/x"⟩, 0, bytes "a/lib/x.tar", false, 200⟩, _,
    rfl, rfl, rfl, rfl, rfl, rfl, rfl, fun h ↦ ?_⟩
  exact absurd (h.mpr rfl) (by decide)

/-- A file of second 1000 is packed in that second, and fetched twice. -/
theorem refresh_exact_iff_sameSecond : ∃ w copy tar f server,
    fetchedOnce 1000 1000 = some w ∧ w.cached = some copy ∧ w.tarball = some tar ∧
      serverThread twoMirrors w.server w.secondRequest = some (some f, server) ∧
      f.dropped = false ∧ f.ret = 304 ∧
      ((f.ret = 304 ↔ copy.number = tar.number) ↔
        if copy.number = tar.number then
          copy.mtime.sec.toInt = tar.time.sec.toInt ∧ copy.mtime.sec ≠ 0
        else copy.mtime.sec = 0 ∨ copy.mtime.sec.toInt < tar.time.sec.toInt) := by
  obtain ⟨w, copy, tar, server, hrun, hcached, htar, hserve⟩ : ∃ w copy tar server,
      fetchedOnce 1000 1000 = some w ∧ w.cached = some copy ∧ w.tarball = some tar ∧
        serverThread twoMirrors w.server w.secondRequest = some (some
          ⟨⟨1000, bytes "lib", bytes "/x"⟩, 0, bytes "a/lib/x.tar", false, 304⟩, server) :=
    ⟨_, _, _, _, rfl, rfl, rfl, rfl⟩
  obtain ⟨t, ht, hcode⟩ : ∃ t, (w.env (FetchEnv.ofTransfer 700 ⟨0, 0, []⟩)).transfer
      (bytes "a/lib/x.tar") 1000 = some t ∧ t.code = 0 :=
    ⟨webServer w.tarball (some 1000), rfl, webServer_code _ _⟩
  exact ⟨w, copy, tar, _, server, hrun, hcached, htar, hserve, rfl, rfl,
    refresh_exact_iff hrun hserve hcached htar rfl ht hcode⟩

end ClrDebugInfo
