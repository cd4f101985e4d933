import ClrDebugInfo.Server.Fetch

/-!
# The daemon

`main` and the handler threads of `src/server.c` as a transition system. A state holds what the
threads share, where `main` stands in its loop, and where every handler stands in `server_thread`;
an action is one step of one thread, or the passing of time. What the environment decides (what
`read`, `accept`, `pthread_create`, libcurl and `tar` answer) is part of the action, so `step` is a
function. `none` stands for an action that is not possible, and also for undefined behaviour: an
index outside `urls`, a scan past the request buffer, a table used after `main` freed it.

The handlers of one daemon and the steps of `tar` interleave freely. A step is what the source
does between two points where another thread can see a difference: one locked section, one
system call, one update of a shared counter.
-/

namespace ClrDebugInfo

open Runs

/-! ## The cache -/

/-- A file name below `CACHE_DIR/prefix`. -/
structure CachePath where
  pfx : Bytes
  name : Bytes
  deriving DecidableEq

/-- A regular file. -/
structure Inode where
  data : Bytes
  /-- `tar` has closed the file and set its times. -/
  closed : Bool
  deriving DecidableEq

inductive Node where
  | file (ino : ℕ)
  | dir
  | symlink (target : Bytes)
  deriving DecidableEq

/-- The cache tree. -/
structure Cache where
  nodes : CachePath → Option Node
  inodes : ℕ → Option Inode
  /-- Inode numbers from here on are free. -/
  next : ℕ

/-- An empty cache. -/
def Cache.empty : Cache := ⟨fun _ ↦ none, fun _ ↦ none, 0⟩

/-- What an archive holds under a name. -/
inductive Content where
  | file (data : Bytes)
  | dir
  | symlink (target : Bytes)
  deriving DecidableEq

/-- One entry of an archive. -/
structure Member where
  name : Bytes
  content : Content
  deriving DecidableEq

/-- `tar` can create an entry at once: nothing has its name, or a directory is wanted and is there.
It opens files with `O_EXCL`, so it never writes to one that is there already. -/
def Cache.Free (c : Cache) (p : CachePath) (content : Content) : Prop :=
  c.nodes p = none ∨ content = .dir ∧ c.nodes p = some .dir

instance (c : Cache) (p : CachePath) (content : Content) : Decidable (c.Free p content) :=
  inferInstanceAs (Decidable (_ ∨ _))

/-- After `EEXIST`, `tar` takes away what has the name. Whether a directory can be removed is for
the environment to say, as is every error. -/
def Cache.unlink (c : Cache) (p : CachePath) : Cache :=
  { c with nodes := fun q ↦ if q = p then none else c.nodes q }

/-- `tar` starts to extract an entry. A regular file gets a new inode, empty at first; its number
and the bytes still to be written are returned. -/
def Cache.create (c : Cache) (p : CachePath) : Content → Cache × Option (ℕ × Bytes)
  | .file data =>
    ({ nodes := fun q ↦ if q = p then some (.file c.next) else c.nodes q
       inodes := fun i ↦ if i = c.next then some ⟨[], false⟩ else c.inodes i
       next := c.next + 1 }, some (c.next, data))
  | .dir => ({ c with nodes := fun q ↦ if q = p then some .dir else c.nodes q }, none)
  | .symlink target =>
    ({ c with nodes := fun q ↦ if q = p then some (.symlink target) else c.nodes q }, none)

/-- `write` to an open file. -/
def Cache.write (c : Cache) (ino : ℕ) (bs : Bytes) : Cache :=
  { c with inodes := fun i ↦
      if i = ino then (c.inodes i).map fun f ↦ { f with data := f.data ++ bs } else c.inodes i }

/-- `tar` is done with a file. -/
def Cache.close (c : Cache) (ino : ℕ) : Cache :=
  { c with inodes := fun i ↦
      if i = ino then (c.inodes i).map fun f ↦ { f with closed := true } else c.inodes i }

/-- What a reader of a cached regular file finds, and whether `tar` is done with it. -/
def Cache.lookup (c : Cache) (p : CachePath) : Option Inode :=
  match c.nodes p with
  | some (.file ino) => c.inodes ino
  | _ => none

/-! ## States -/

/-- What a daemon is started with; `listing` is what `tar` finds in an archive, if it is one. -/
structure Config extends Mirrors where
  listing : Bytes → Option (List Member)

/-- What the threads share. -/
structure Shared where
  dupes : Dupes
  urlcounter : Int32
  /-- `main` has freed the tables. -/
  freed : Bool
  /-- `current_connection_count` -/
  count : ℤ
  /-- `time(NULL)` -/
  now : Int64
  /-- The seconds that have passed, as `select` counts them. -/
  elapsed : ℕ
  cache : Cache

/-- A request on its way through `curl_get_file`. -/
structure Job where
  request : Request
  mirror : ℤ
  url : Bytes
  deriving DecidableEq

/-- Where a handler stands. -/
inductive Pc where
  | entry (fd : ℤ)
  /-- The request is accepted. -/
  | parsed (r : Request)
  /-- The URL is made. -/
  | built (job : Job)
  /-- `avoid_dupes` has let the fetch go ahead. -/
  | admitted (job : Job)
  /-- The response was 200. -/
  | received (job : Job) (body : Bytes)
  /-- The file is not empty. -/
  | filled (job : Job) (body : Bytes)
  /-- `tar -tf` has succeeded. -/
  | tested (job : Job) (body : Bytes)
  /-- `tar -xf` is running: the entries to come, and the file being written. -/
  | extracting (job : Job) (todo : List Member) (cur : Option (ℕ × Bytes))
  /-- `curl_get_file` has returned. -/
  | returned (job : Job) (ret : ℕ)
  /-- At `thread_end`. -/
  | leaving
  | ended
  deriving DecidableEq

/-- Where `main` stands in its loop. -/
inductive Loop where
  | select (since : ℕ)
  | accept
  | accepted (fd : ℤ)
  /-- There is room for the connection. -/
  | admitted (fd : ℤ)
  /-- The connection is counted. -/
  | counted (fd : ℤ)
  /-- After the loop. -/
  | left
  /-- The tables are freed. -/
  | freed
  | exited
  deriving DecidableEq

structure Daemon where
  sh : Shared
  loop : Loop
  threads : List Pc

/-- A daemon at its first `select`. -/
def Daemon.start (urlcounter : Int32) (now : Int64) (cache : Cache) : Daemon :=
  ⟨⟨Dupes.init, urlcounter, false, 0, now, 0, cache⟩, .select 0, []⟩

/-! ## Steps -/

/-- `MAX_CONNECTIONS` -/
def maxConnections : ℤ := 16

/-- `TIMEOUT` -/
def timeout : ℕ := 600

inductive HandlerAct where
  | read (msg : Option Bytes)
  | makeUrl (ok : Bool)
  | avoidDupes
  /-- `curl_easy_init` fails. -/
  | noCurl
  /-- `asprintf` of the file name or `mkstemp` fails. -/
  | noFile
  | perform (t : Transfer)
  | stat
  /-- `asprintf` of a command fails. -/
  | noCommand
  | tarTest (ok : Bool)
  | tarStart
  | tarUnlink
  | tarCreate
  | tarWrite (n : ℕ)
  | tarClose
  | tarExit (ok : Bool)
  | reply
  | finish

inductive MainAct where
  | ready
  | timeout
  | error
  | accept (fd : ℤ)
  | check
  | inc
  | create (ok : Bool)
  | free
  | ret

inductive Act where
  | main (a : MainAct)
  | thread (i : ℕ) (a : HandlerAct)
  /-- Time passes; the clock of `time` may be set meanwhile. -/
  | tick (seconds : ℕ) (now : Int64)

/-- One step of `server_thread`. -/
def handlerStep (cfg : Config) (sh : Shared) : Pc → HandlerAct → Option (Shared × Pc)
  | .entry fd, .read msg =>
    -- without a socket nothing is read
    if fd < 0 then some (sh, .leaving)
    else
      match msg with
      | none => some (sh, .leaving)
      | some msg =>
        match parseRequest (requestBuffer msg) with
        | none => none
        | some none => some (sh, .leaving)
        | some (some r) => some (sh, .parsed r)
  | .parsed r, .makeUrl ok =>
    if sh.freed then none
    else
      match mirrorUrl cfg.urls (mirrorIndex sh.urlcounter cfg.urls) with
      | none => none
      | some base =>
        if ok then some (sh, .built ⟨r, mirrorIndex sh.urlcounter cfg.urls, requestUrl base r⟩)
        else some (sh, .leaving)
  | .built job, .avoidDupes =>
    if sh.freed then none
    else (avoidDupes cfg.alloc sh.dupes job.url sh.now).map fun r ↦
      ({ sh with dupes := r.2 }, if r.1 ≠ 0 then .returned job 300 else .admitted job)
  | .admitted job, .noCurl => some (sh, .returned job 301)
  | .admitted job, .noFile => some (sh, .returned job 418)
  | .admitted job, .perform t =>
    -- after an error the file is unlinked
    some ({ sh with urlcounter := bumpUrlcounter sh.urlcounter t.response },
      if t.response = 200 then .received job (if t.code ≠ 0 then [] else t.body)
      else .returned job t.response)
  | .received job body, .stat =>
    some (sh, if body = [] then .returned job 418 else .filled job body)
  | .filled job _, .noCommand => some (sh, .returned job 418)
  | .filled job body, .tarTest ok =>
    if ok then (cfg.listing body).map fun _ ↦ (sh, .tested job body)
    else some (sh, .returned job 418)
  | .tested job _, .noCommand => some (sh, .returned job 418)
  | .tested job body, .tarStart =>
    (cfg.listing body).map fun members ↦ (sh, .extracting job members none)
  | .extracting job (m :: ms) none, .tarUnlink =>
    if sh.cache.Free ⟨job.request.pfx, m.name⟩ m.content then none
    else some ({ sh with cache := sh.cache.unlink ⟨job.request.pfx, m.name⟩ },
      .extracting job (m :: ms) none)
  | .extracting job (m :: ms) none, .tarCreate =>
    -- another handler may have put something there since the name was taken away
    if sh.cache.Free ⟨job.request.pfx, m.name⟩ m.content then
      let r := sh.cache.create ⟨job.request.pfx, m.name⟩ m.content
      some ({ sh with cache := r.1 }, .extracting job ms r.2)
    else none
  | .extracting job ms (some (ino, bs)), .tarWrite n =>
    some ({ sh with cache := sh.cache.write ino (bs.take n) },
      .extracting job ms (some (ino, bs.drop n)))
  | .extracting job ms (some (ino, [])), .tarClose =>
    some ({ sh with cache := sh.cache.close ino }, .extracting job ms none)
  | .extracting job [] none, .tarExit true => some (sh, .returned job 200)
  | .extracting job _ _, .tarExit false => some (sh, .returned job 418)
  | .returned _ _, .reply => some (sh, .leaving)
  | .leaving, .finish => some ({ sh with count := sh.count - 1 }, .ended)
  | _, _ => none

/-- One step of the loop of `main`. -/
def mainStep (s : Daemon) : Loop → MainAct → Option Daemon
  | .select _, .ready => some { s with loop := .accept }
  | .select since, .timeout =>
    if since + timeout ≤ s.sh.elapsed then some { s with loop := .left } else none
  | .select _, .error => some { s with loop := .exited }
  | .accept, .accept fd => some { s with loop := .accepted fd }
  | .accepted fd, .check =>
    some { s with loop :=
      if maxConnections ≤ s.sh.count then .select s.sh.elapsed else .admitted fd }
  | .admitted fd, .inc =>
    some { s with sh := { s.sh with count := s.sh.count + 1 }, loop := .counted fd }
  | .counted fd, .create ok =>
    some { s with
      loop := .select s.sh.elapsed, threads := if ok then s.threads ++ [.entry fd] else s.threads }
  | .left, .free => some { s with sh := { s.sh with freed := true }, loop := .freed }
  | .freed, .ret => some { s with loop := .exited }
  | _, _ => none

/-- One step of the daemon. Nothing runs after the process has exited. -/
def step (cfg : Config) (s : Daemon) : Act → Option Daemon
  | .main a => mainStep s s.loop a
  | .thread i a =>
    if s.loop = .exited then none
    else
      match s.threads[i]? with
      | none => none
      | some pc => (handlerStep cfg s.sh pc a).map fun r ↦
          { s with sh := r.1, threads := s.threads.set i r.2 }
  | .tick seconds now =>
    if s.loop = .exited then none
    else some { s with sh := { s.sh with elapsed := s.sh.elapsed + seconds, now := now } }

/-! ## What a step can do -/

/-- The steps of a handler, one constructor for each way it can go. -/
inductive HandlerStep (cfg : Config) (sh : Shared) : Pc → HandlerAct → Shared → Pc → Prop
  | quit {fd msg} : HandlerStep cfg sh (.entry fd) (.read msg) sh .leaving
  | parse {fd msg r} (hfd : 0 ≤ fd) (hr : parseRequest (requestBuffer msg) = some (some r)) :
    HandlerStep cfg sh (.entry fd) (.read (some msg)) sh (.parsed r)
  | noUrl {r base} (hfreed : sh.freed = false)
    (hbase : mirrorUrl cfg.urls (mirrorIndex sh.urlcounter cfg.urls) = some base) :
    HandlerStep cfg sh (.parsed r) (.makeUrl false) sh .leaving
  | build {r base} (hfreed : sh.freed = false)
    (hbase : mirrorUrl cfg.urls (mirrorIndex sh.urlcounter cfg.urls) = some base) :
    HandlerStep cfg sh (.parsed r) (.makeUrl true) sh
      (.built ⟨r, mirrorIndex sh.urlcounter cfg.urls, requestUrl base r⟩)
  | drop {job dup dupes} (hfreed : sh.freed = false) (hdup : dup ≠ 0)
    (hrun : avoidDupes cfg.alloc sh.dupes job.url sh.now = some (dup, dupes)) :
    HandlerStep cfg sh (.built job) .avoidDupes { sh with dupes := dupes } (.returned job 300)
  | letThrough {job dupes} (hfreed : sh.freed = false)
    (hrun : avoidDupes cfg.alloc sh.dupes job.url sh.now = some (0, dupes)) :
    HandlerStep cfg sh (.built job) .avoidDupes { sh with dupes := dupes } (.admitted job)
  | noCurl {job} : HandlerStep cfg sh (.admitted job) .noCurl sh (.returned job 301)
  | noFile {job} : HandlerStep cfg sh (.admitted job) .noFile sh (.returned job 418)
  | refuse {job t} (h200 : t.response ≠ 200) :
    HandlerStep cfg sh (.admitted job) (.perform t)
      { sh with urlcounter := bumpUrlcounter sh.urlcounter t.response } (.returned job t.response)
  | receive {job t} (h200 : t.response = 200) :
    HandlerStep cfg sh (.admitted job) (.perform t) sh
      (.received job (if t.code ≠ 0 then [] else t.body))
  | empty {job} : HandlerStep cfg sh (.received job []) .stat sh (.returned job 418)
  | fill {job body} (hbody : body ≠ []) :
    HandlerStep cfg sh (.received job body) .stat sh (.filled job body)
  | noTest {job body} : HandlerStep cfg sh (.filled job body) .noCommand sh (.returned job 418)
  | invalid {job body} :
    HandlerStep cfg sh (.filled job body) (.tarTest false) sh (.returned job 418)
  | valid {job body members} (hlist : cfg.listing body = some members) :
    HandlerStep cfg sh (.filled job body) (.tarTest true) sh (.tested job body)
  | noExtract {job body} : HandlerStep cfg sh (.tested job body) .noCommand sh (.returned job 418)
  | start {job body members} (hlist : cfg.listing body = some members) :
    HandlerStep cfg sh (.tested job body) .tarStart sh (.extracting job members none)
  | unlink {job m ms} (hfree : ¬sh.cache.Free ⟨job.request.pfx, m.name⟩ m.content) :
    HandlerStep cfg sh (.extracting job (m :: ms) none) .tarUnlink
      { sh with cache := sh.cache.unlink ⟨job.request.pfx, m.name⟩ }
      (.extracting job (m :: ms) none)
  | create {job m ms} (hfree : sh.cache.Free ⟨job.request.pfx, m.name⟩ m.content) :
    HandlerStep cfg sh (.extracting job (m :: ms) none) .tarCreate
      { sh with cache := (sh.cache.create ⟨job.request.pfx, m.name⟩ m.content).1 }
      (.extracting job ms (sh.cache.create ⟨job.request.pfx, m.name⟩ m.content).2)
  | write {job ms ino bs n} :
    HandlerStep cfg sh (.extracting job ms (some (ino, bs))) (.tarWrite n)
      { sh with cache := sh.cache.write ino (bs.take n) }
      (.extracting job ms (some (ino, bs.drop n)))
  | close {job ms ino} :
    HandlerStep cfg sh (.extracting job ms (some (ino, []))) .tarClose
      { sh with cache := sh.cache.close ino } (.extracting job ms none)
  | extracted {job} :
    HandlerStep cfg sh (.extracting job [] none) (.tarExit true) sh (.returned job 200)
  | breakOff {job ms cur} :
    HandlerStep cfg sh (.extracting job ms cur) (.tarExit false) sh (.returned job 418)
  | reply {job ret} : HandlerStep cfg sh (.returned job ret) .reply sh .leaving
  | finish : HandlerStep cfg sh .leaving .finish { sh with count := sh.count - 1 } .ended

theorem handlerStep_cases {cfg : Config} {sh sh' : Shared} {pc pc' : Pc} {a : HandlerAct}
    (h : handlerStep cfg sh pc a = some (sh', pc')) : HandlerStep cfg sh pc a sh' pc' := by
  unfold handlerStep at h
  split at h
  · split at h
    · obtain ⟨rfl, rfl⟩ := h
      exact .quit
    next hfd =>
      split at h
      · obtain ⟨rfl, rfl⟩ := h
        exact .quit
      · split at h
        · exact absurd h (by simp)
        · obtain ⟨rfl, rfl⟩ := h
          exact .quit
        next hr =>
          obtain ⟨rfl, rfl⟩ := h
          exact .parse (by omega) hr
  · split at h
    · exact absurd h (by simp)
    next hfreed =>
      split at h
      · exact absurd h (by simp)
      next hbase =>
        split at h
        next hok =>
          obtain ⟨rfl, rfl⟩ := h
          rw [hok]
          exact .build (by simpa using hfreed) hbase
        next hok =>
          obtain ⟨rfl, rfl⟩ := h
          rw [Bool.not_eq_true] at hok
          rw [hok]
          exact .noUrl (by simpa using hfreed) hbase
  · split at h
    · exact absurd h (by simp)
    next hfreed =>
      obtain ⟨⟨dup, dupes⟩, hrun, hr⟩ := Option.map_eq_some_iff.mp h
      by_cases hdup : dup = 0
      · rw [if_neg (not_not_intro hdup)] at hr
        obtain ⟨rfl, rfl⟩ := hr
        exact .letThrough (by simpa using hfreed) (hdup ▸ hrun)
      · rw [if_pos hdup] at hr
        obtain ⟨rfl, rfl⟩ := hr
        exact .drop (by simpa using hfreed) hdup hrun
  · obtain ⟨rfl, rfl⟩ := h
    exact .noCurl
  · obtain ⟨rfl, rfl⟩ := h
    exact .noFile
  next t =>
    by_cases h200 : t.response = 200
    · rw [if_pos h200] at h
      obtain ⟨rfl, rfl⟩ := h
      rw [bumpUrlcounter, if_neg fun hmoves ↦ hmoves.1 h200]
      exact .receive h200
    · rw [if_neg h200] at h
      obtain ⟨rfl, rfl⟩ := h
      exact .refuse h200
  next body =>
    by_cases hbody : body = []
    · rw [if_pos hbody] at h
      obtain ⟨rfl, rfl⟩ := h
      rw [hbody]
      exact .empty
    · rw [if_neg hbody] at h
      obtain ⟨rfl, rfl⟩ := h
      exact .fill hbody
  · obtain ⟨rfl, rfl⟩ := h
    exact .noTest
  · split at h
    next hok =>
      obtain ⟨members, hlist, hr⟩ := Option.map_eq_some_iff.mp h
      obtain ⟨rfl, rfl⟩ := hr
      rw [hok]
      exact .valid hlist
    next hok =>
      obtain ⟨rfl, rfl⟩ := h
      rw [Bool.not_eq_true] at hok
      rw [hok]
      exact .invalid
  · obtain ⟨rfl, rfl⟩ := h
    exact .noExtract
  · obtain ⟨members, hlist, hr⟩ := Option.map_eq_some_iff.mp h
    obtain ⟨rfl, rfl⟩ := hr
    exact .start hlist
  · split at h
    · exact absurd h (by simp)
    next hfree =>
      obtain ⟨rfl, rfl⟩ := h
      exact .unlink hfree
  · split at h
    next hfree =>
      obtain ⟨rfl, rfl⟩ := h
      exact .create hfree
    · exact absurd h (by simp)
  · obtain ⟨rfl, rfl⟩ := h
    exact .write
  · obtain ⟨rfl, rfl⟩ := h
    exact .close
  · obtain ⟨rfl, rfl⟩ := h
    exact .extracted
  · obtain ⟨rfl, rfl⟩ := h
    exact .breakOff
  · obtain ⟨rfl, rfl⟩ := h
    exact .reply
  · obtain ⟨rfl, rfl⟩ := h
    exact .finish
  · exact absurd h (by simp)

/-- The steps of `main`. -/
inductive MainStep (s : Daemon) : Loop → MainAct → Daemon → Prop
  | ready {since} : MainStep s (.select since) .ready { s with loop := .accept }
  | timeout {since} (hlong : since + ClrDebugInfo.timeout ≤ s.sh.elapsed) :
    MainStep s (.select since) .timeout { s with loop := .left }
  | error {since} : MainStep s (.select since) .error { s with loop := .exited }
  | accept {fd} : MainStep s .accept (.accept fd) { s with loop := .accepted fd }
  | full {fd} (hfull : maxConnections ≤ s.sh.count) :
    MainStep s (.accepted fd) .check { s with loop := .select s.sh.elapsed }
  | room {fd} (hroom : s.sh.count < maxConnections) :
    MainStep s (.accepted fd) .check { s with loop := .admitted fd }
  | inc {fd} : MainStep s (.admitted fd) .inc
      { s with sh := { s.sh with count := s.sh.count + 1 }, loop := .counted fd }
  | create {fd} : MainStep s (.counted fd) (.create true)
      { s with loop := .select s.sh.elapsed, threads := s.threads ++ [.entry fd] }
  | noThread {fd} :
    MainStep s (.counted fd) (.create false) { s with loop := .select s.sh.elapsed }
  | free : MainStep s .left .free { s with sh := { s.sh with freed := true }, loop := .freed }
  | ret : MainStep s .freed .ret { s with loop := .exited }

theorem mainStep_cases {s s' : Daemon} {l : Loop} {a : MainAct} (h : mainStep s l a = some s') :
    MainStep s l a s' := by
  unfold mainStep at h
  split at h
  · obtain rfl := Option.some.inj h
    exact .ready
  · split at h
    next hlong =>
      obtain rfl := Option.some.inj h
      exact .timeout hlong
    · exact absurd h (by simp)
  · obtain rfl := Option.some.inj h
    exact .error
  · obtain rfl := Option.some.inj h
    exact .accept
  · obtain rfl := Option.some.inj h
    by_cases hfull : maxConnections ≤ s.sh.count
    · rw [if_pos hfull]
      exact .full hfull
    · rw [if_neg hfull]
      exact .room (by omega)
  · obtain rfl := Option.some.inj h
    exact .inc
  next ok =>
    obtain rfl := Option.some.inj h
    cases ok with
    | false => exact .noThread
    | true => exact .create
  · obtain rfl := Option.some.inj h
    exact .free
  · obtain rfl := Option.some.inj h
    exact .ret
  · exact absurd h (by simp)

/-- The steps of the daemon. -/
inductive Step (cfg : Config) (s : Daemon) : Act → Daemon → Prop
  | main {a s'} (h : MainStep s s.loop a s') : Step cfg s (.main a) s'
  | thread {i a pc sh' pc'} (hloop : s.loop ≠ .exited) (hpc : s.threads[i]? = some pc)
    (h : HandlerStep cfg s.sh pc a sh' pc') :
    Step cfg s (.thread i a) { s with sh := sh', threads := s.threads.set i pc' }
  | tick {seconds now} (hloop : s.loop ≠ .exited) :
    Step cfg s (.tick seconds now)
      { s with sh := { s.sh with elapsed := s.sh.elapsed + seconds, now := now } }

/-- **What a step can do.** -/
theorem step_cases {cfg : Config} {s s' : Daemon} {act : Act} (h : step cfg s act = some s') :
    Step cfg s act s' := by
  cases act with
  | main a => exact .main (mainStep_cases h)
  | thread i a =>
    rw [step] at h
    split at h
    · exact absurd h (by simp)
    next hloop =>
      split at h
      · exact absurd h (by simp)
      next pc hpc =>
        obtain ⟨⟨sh', pc'⟩, hrun, rfl⟩ := Option.map_eq_some_iff.mp h
        exact .thread hloop hpc (handlerStep_cases hrun)
  | tick seconds now =>
    rw [step] at h
    split at h
    · exact absurd h (by simp)
    next hloop =>
      obtain rfl := Option.some.inj h
      exact .tick hloop

theorem thread_of_concat {threads : List Pc} {new pc : Pc} {i : ℕ}
    (h : (threads ++ [new])[i]? = some pc) : threads[i]? = some pc ∨ pc = new := by
  rw [List.getElem?_append] at h
  split at h
  · exact Or.inl h
  · rw [List.getElem?_singleton] at h
    split at h
    · exact Or.inr (Option.some.inj h).symm
    · exact absurd h (by simp)

theorem thread_of_set {threads : List Pc} {new pc : Pc} {i j : ℕ}
    (h : (threads.set i new)[j]? = some pc) :
    (j = i ∧ pc = new) ∨ (j ≠ i ∧ threads[j]? = some pc) := by
  rw [List.getElem?_set] at h
  by_cases hij : i = j
  · rw [if_pos hij] at h
    split at h
    · exact Or.inl ⟨hij.symm, (Option.some.inj h).symm⟩
    · exact absurd h (by simp)
  · rw [if_neg hij] at h
    exact Or.inr ⟨Ne.symm hij, h⟩

end ClrDebugInfo
