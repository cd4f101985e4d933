import ClrDebugInfo.Library.Runs
import ClrDebugInfo.Server.AvoidDupes
import ClrDebugInfo.Server.Request

/-!
# One fetch

`curl_get_file` and `server_thread` of `src/server.c` as one handler runs them from end to end. What
libcurl, `mkstemp`, `asprintf` and `system` answer is an argument, so the functions are those of
the source with its exits in their order.

A session is a run of handlers one after the other. It remembers what it served: the duplicate
table and the mirror counter are all that a handler leaves behind for the next one.
-/

namespace ClrDebugInfo

open Runs

/-! ## The functions -/

/-- `CACHE_DIR`, as configured by default -/
def cacheDir : Bytes := bytes "/var/cache/debuginfo"

/-- What `curl_easy_perform` brings: its return value, the response code (0 without a response),
and the bytes that `fflush` has left in the file. -/
structure Transfer where
  code : ℕ
  response : ℕ
  body : Bytes

/-- What the world does to one call of `curl_get_file`. -/
structure FetchEnv where
  /-- `time(NULL)` -/
  now : Int64
  /-- `curl_easy_init` returns a handle. -/
  curlInit : Bool
  /-- `asprintf` makes the template of the file name. -/
  nameAlloc : Bool
  /-- The file that `mkstemp` creates. -/
  mkstemp : Option Bytes
  /-- `curl_easy_perform`, by the URL and the time of the time condition, if that was set. -/
  perform : Bytes → Option Int64 → Transfer
  /-- `asprintf` makes the command that tests the archive. -/
  testAlloc : Bool
  /-- `asprintf` makes the command that extracts it. -/
  extractAlloc : Bool
  /-- `system`, by the command. -/
  system : Bytes → ℤ

/-- `"tar -C %s/%s --no-same-owner --no-same-permissions -tf %s"`, or `-xf` for `-tf`. -/
def tarCommand (pfx mode filename : Bytes) : Bytes :=
  bytes "tar -C " ++ cacheDir ++ bytes "/" ++ pfx ++
    bytes " --no-same-owner --no-same-permissions " ++ mode ++ bytes " " ++ filename

/-- The branch `ret == 200` of `curl_get_file`. -/
def unpack (env : FetchEnv) (pfx filename : Bytes) (t : Transfer) : ℕ :=
  -- after an error the file is unlinked, and `stat` leaves the zeroed buffer alone
  let size := if t.code ≠ 0 then 0 else t.body.length
  if size = 0 then 418
  else if !env.testAlloc then 418
  else if env.system (tarCommand pfx (bytes "-tf") filename) ≠ 0 then 418
  else if !env.extractAlloc then 418
  else if env.system (tarCommand pfx (bytes "-xf") filename) ≠ 0 then 418
  else 200

/-- `curl_get_file` once `avoid_dupes` has let it go ahead: its result and the new `urlcounter`. -/
def download (env : FetchEnv) (urlcounter : Int32) (url pfx : Bytes) (timestamp : Int64) :
    ℕ × Int32 :=
  if !env.curlInit then (301, urlcounter)
  else if !env.nameAlloc then (418, urlcounter)
  else
    match env.mkstemp with
    | none => (418, urlcounter)
    | some filename =>
      let t := env.perform url (if timestamp = 0 then none else some timestamp)
      (if t.response = 200 then unpack env pfx filename t else t.response,
        bumpUrlcounter urlcounter t.response)

/-- The static variables of the daemon that outlive a handler. -/
structure Server where
  dupes : Dupes
  urlcounter : Int32

/-- What the daemon was started with: which allocations succeed, and the mirrors. -/
structure Mirrors where
  alloc : Alloc
  urls : List Bytes

/-- What `curl_get_file` was called for and what it did. -/
structure Fetched where
  request : Request
  /-- The index into `urls`. -/
  mirror : ℤ
  url : Bytes
  /-- `avoid_dupes` returned 1. -/
  dropped : Bool
  ret : ℕ

/-- `curl_get_file`: whether `avoid_dupes` dropped the call, and the result. -/
def curlGetFile (cfg : Mirrors) (env : FetchEnv) (s : Server) (url pfx : Bytes)
    (timestamp : Int64) : Option (Bool × ℕ × Server) :=
  (avoidDupes cfg.alloc s.dupes url env.now).map fun r ↦
    if r.1 ≠ 0 then (true, 300, { s with dupes := r.2 })
    else
      let d := download env s.urlcounter url pfx timestamp
      (false, d.1, ⟨r.2, d.2⟩)

/-- A connection: what `read` returns for it, whether `asprintf` makes the URL, and the rest. -/
structure Visit where
  read : Option Bytes
  urlAlloc : Bool
  env : FetchEnv

/-- `server_thread`: what it replied "ok" to, if it did. A run in which an index or a scan leaves
its array has no result. -/
def serverThread (cfg : Mirrors) (s : Server) (v : Visit) : Option (Option Fetched × Server) :=
  match v.read with
  | none => some (none, s)
  | some msg =>
    match parseRequest (requestBuffer msg) with
    | none => none
    | some none => some (none, s)
    | some (some r) =>
      let mirror := mirrorIndex s.urlcounter cfg.urls
      match mirrorUrl cfg.urls mirror with
      | none => none
      | some base =>
        let url := requestUrl base r
        if !v.urlAlloc then some (none, s)
        else (curlGetFile cfg v.env s url r.pfx r.timestamp).map fun d ↦
          (some ⟨r, mirror, url, d.1, d.2.1⟩, d.2.2)

/-! ## What a fetch leaves behind -/

/-- The transfer that a fetch gets to, if `curl_easy_init`, `asprintf` and `mkstemp` let it. -/
def FetchEnv.transfer (env : FetchEnv) (url : Bytes) (timestamp : Int64) : Option Transfer :=
  if env.curlInit && env.nameAlloc && env.mkstemp.isSome then
    some (env.perform url (if timestamp = 0 then none else some timestamp))
  else none

/-- `curl_get_file` returned anything but 200, 300, 304 or 404. -/
def Failed (ret : ℕ) : Prop := ret ≠ 200 ∧ ret ≠ 300 ∧ ret ≠ 304 ∧ ret ≠ 404

theorem download_urlcounter {env : FetchEnv} {c : Int32} {url pfx : Bytes} {timestamp : Int64}
    (hfail : Failed (download env c url pfx timestamp).1) :
    ((∃ t, env.transfer url timestamp = some t ∧ t.response ≠ 200) ∧
        (download env c url pfx timestamp).2 = c + 1) ∨
      ((¬∃ t, env.transfer url timestamp = some t ∧ t.response ≠ 200) ∧
        (download env c url pfx timestamp).2 = c) := by
  revert hfail
  rw [FetchEnv.transfer, download]
  cases env.curlInit with
  | false => exact fun _ ↦ Or.inr ⟨by simp, rfl⟩
  | true =>
    cases env.nameAlloc with
    | false => exact fun _ ↦ Or.inr ⟨by simp, rfl⟩
    | true =>
      cases env.mkstemp with
      | none => exact fun _ ↦ Or.inr ⟨by simp, rfl⟩
      | some filename =>
        simp only [Bool.not_true, Bool.false_eq_true, if_false, Bool.and_true, Option.isSome_some,
          if_true, Option.some_inj, exists_eq_left']
        generalize env.perform url _ = t
        intro hfail
        by_cases h200 : t.response = 200
        · exact Or.inr ⟨not_not_intro h200, by simp [bumpUrlcounter, h200]⟩
        · rw [if_neg h200] at hfail
          exact Or.inl ⟨h200, if_pos ⟨h200, hfail.2.2.2, hfail.2.2.1⟩⟩

theorem curlGetFile_eq_some {cfg : Mirrors} {env : FetchEnv} {s s' : Server} {url pfx : Bytes}
    {timestamp : Int64} {dropped : Bool} {ret : ℕ}
    (h : curlGetFile cfg env s url pfx timestamp = some (dropped, ret, s')) :
    ∃ dup, avoidDupes cfg.alloc s.dupes url env.now = some (dup, s'.dupes) ∧
      ((dup ≠ 0 ∧ dropped = true ∧ ret = 300 ∧ s'.urlcounter = s.urlcounter) ∨
        (dup = 0 ∧ dropped = false ∧
          download env s.urlcounter url pfx timestamp = (ret, s'.urlcounter))) := by
  obtain ⟨⟨dup, d⟩, hdup, hr⟩ := Option.map_eq_some_iff.mp h
  by_cases h0 : dup = 0
  · rw [if_neg (not_not_intro h0)] at hr
    obtain ⟨rfl, rfl, rfl⟩ := hr
    exact ⟨dup, hdup, Or.inr ⟨h0, rfl, rfl⟩⟩
  · rw [if_pos h0] at hr
    obtain ⟨rfl, rfl, rfl⟩ := hr
    exact ⟨dup, hdup, Or.inl ⟨h0, rfl, rfl, rfl⟩⟩

/-- What a handler does: it leaves without a trace, or it calls `curl_get_file` for the mirror under
the counter and replies. -/
theorem serverThread_cases {cfg : Mirrors} {s s' : Server} {v : Visit} {served : Option Fetched}
    (h : serverThread cfg s v = some (served, s')) :
    (served = none ∧ s' = s) ∨
      ∃ f base msg, served = some f ∧ v.read = some msg ∧
        parseRequest (requestBuffer msg) = some (some f.request) ∧
        mirrorUrl cfg.urls (mirrorIndex s.urlcounter cfg.urls) = some base ∧
        f.mirror = mirrorIndex s.urlcounter cfg.urls ∧ f.url = requestUrl base f.request ∧
        curlGetFile cfg v.env s f.url f.request.pfx f.request.timestamp =
          some (f.dropped, f.ret, s') := by
  rw [serverThread] at h
  cases hread : v.read with
  | none =>
    rw [hread] at h
    obtain ⟨rfl, rfl⟩ := h
    exact Or.inl ⟨rfl, rfl⟩
  | some msg =>
    rw [hread] at h
    cases hparse : parseRequest (requestBuffer msg) with
    | none => simp [hparse] at h
    | some parsed =>
      cases parsed with
      | none =>
        simp only [hparse] at h
        obtain ⟨rfl, rfl⟩ := h
        exact Or.inl ⟨rfl, rfl⟩
      | some r =>
        cases hbase : mirrorUrl cfg.urls (mirrorIndex s.urlcounter cfg.urls) with
        | none => simp [hparse, hbase] at h
        | some base =>
          simp only [hparse, hbase] at h
          by_cases halloc : (!v.urlAlloc) = true
          · rw [if_pos halloc] at h
            obtain ⟨rfl, rfl⟩ := h
            exact Or.inl ⟨rfl, rfl⟩
          · rw [if_neg halloc] at h
            obtain ⟨⟨dropped, ret, s''⟩, hget, hr⟩ := Option.map_eq_some_iff.mp h
            obtain ⟨rfl, rfl⟩ := hr
            exact Or.inr ⟨_, base, msg, rfl, rfl, hparse, rfl, rfl, rfl, hget⟩

/-- **The duplicate table after a handler.** Nothing is in it but what was there and the URL that
the handler was let through for; a handler is dropped only for an entry younger than 600
seconds. -/
theorem serverThread_table {cfg : Mirrors} {s s' : Server} {v : Visit} {served : Option Fetched}
    {dict : Bytes → Option UInt64} (hs : Table s.dupes dict)
    (h : serverThread cfg s v = some (served, s')) :
    ∃ dict', Table s'.dupes dict' ∧
      (∀ url tm, dict' url = some tm → dict url = some tm ∨
        ∃ f, served = some f ∧ f.url = url ∧ f.dropped = false ∧ v.env.now.toUInt64 = tm) ∧
      ∀ f, served = some f → f.dropped = true →
        ∃ tm, dict f.url = some tm ∧ v.env.now.toUInt64 - tm < 600 := by
  rcases serverThread_cases h with ⟨rfl, rfl⟩ | ⟨f, base, msg, rfl, -, -, -, -, -, hget⟩
  · exact ⟨dict, hs, fun _ _ h ↦ Or.inl h, fun _ h ↦ absurd h (by simp)⟩
  obtain ⟨dup, hdup, hcases⟩ := curlGetFile_eq_some hget
  rcases avoidDupes_spec cfg.alloc hs f.url v.env.now with
    ⟨tm, d, hdict, hd, hrun⟩ | ⟨hdict, d, hrun, hd⟩ | ⟨-, -, hrun⟩
  · rw [hdup, Option.some_inj, Prod.mk.injEq] at hrun
    obtain ⟨rfl, rfl⟩ := hrun
    refine ⟨dict, hd, fun _ _ h ↦ Or.inl h, ?_⟩
    rintro g hg hdrop
    obtain rfl := Option.some.inj hg
    refine ⟨tm, hdict, ?_⟩
    by_contra hlt
    rcases hcases with ⟨hne, -⟩ | ⟨-, hfalse, -⟩
    · exact hne (if_neg hlt)
    · rw [hfalse] at hdrop
      exact absurd hdrop (by simp)
  · rw [hdup, Option.some_inj, Prod.mk.injEq] at hrun
    obtain ⟨rfl, rfl⟩ := hrun
    obtain ⟨hne, -⟩ | ⟨-, hlet, -⟩ := hcases
    · exact absurd rfl hne
    have hdrop : ∀ g, some f = some g → g.dropped = true →
        ∃ tm, dict g.url = some tm ∧ v.env.now.toUInt64 - tm < 600 := by
      rintro g hg hdrop
      rw [← Option.some.inj hg, hlet] at hdrop
      exact absurd hdrop (by simp)
    rcases hd with hd | ⟨hd, -⟩
    · refine ⟨_, hd, fun url tm htm ↦ ?_, hdrop⟩
      by_cases hu : url = f.url
      · rw [hu, Function.update_self, Option.some_inj] at htm
        exact Or.inr ⟨f, rfl, hu.symm, hlet, htm⟩
      · rw [Function.update_of_ne hu] at htm
        exact Or.inl htm
    · exact ⟨dict, hd, fun _ _ h ↦ Or.inl h, hdrop⟩
  · rw [hdup] at hrun
    exact absurd hrun (by simp)

/-! ## Sessions -/

/-- A daemon that serves one connection after the other, with what it served so far. -/
structure Session where
  server : Server
  served : List (Visit × Option Fetched)

/-- A daemon that has just started. -/
def Session.start (urlcounter : Int32) : Session := ⟨⟨Dupes.init, urlcounter⟩, []⟩

def Session.step (cfg : Mirrors) (s : Session) (v : Visit) : Option Session :=
  (serverThread cfg s.server v).map fun r ↦ ⟨r.2, s.served ++ [(v, r.1)]⟩

/-- In the 600 seconds before `now`, `avoid_dupes` let a fetch of `url` go ahead. -/
def AskedWithin (served : List (Visit × Option Fetched)) (url : Bytes) (now : Int64) : Prop :=
  ∃ v f, (v, some f) ∈ served ∧ f.url = url ∧ f.dropped = false ∧
    now.toInt - v.env.now.toInt < 600

theorem Session.table {cfg : Mirrors} {c : Int32} {visits : List Visit} {s : Session}
    (hrun : run (Session.step cfg) (Session.start c) visits = some s) :
    ∃ dict, Table s.server.dupes dict ∧ ∀ url tm, dict url = some tm →
      ∃ v f, (v, some f) ∈ s.served ∧ f.url = url ∧ f.dropped = false ∧
        v.env.now.toUInt64 = tm := by
  refine run_invariant (I := fun _ s ↦ ∃ dict, Table s.server.dupes dict ∧
    ∀ url tm, dict url = some tm → ∃ v f, (v, some f) ∈ s.served ∧ f.url = url ∧
      f.dropped = false ∧ v.env.now.toUInt64 = tm)
    ⟨_, table_init, fun _ _ h ↦ absurd h (by simp)⟩ ?_ hrun
  rintro - s v s' ⟨dict, hdict, hold⟩ hstep
  obtain ⟨⟨served, server⟩, hthread, rfl⟩ := Option.map_eq_some_iff.mp hstep
  obtain ⟨dict', hdict', hnew, -⟩ := serverThread_table hdict hthread
  refine ⟨dict', hdict', fun url tm htm ↦ ?_⟩
  rcases hnew url tm htm with hin | ⟨f, hserved, hf⟩
  · obtain ⟨w, g, hmem, hg⟩ := hold url tm hin
    exact ⟨w, g, List.mem_append_left _ hmem, hg⟩
  · refine ⟨v, f, ?_, hf⟩
    rw [hserved]
    exact List.mem_append_right _ List.mem_cons_self

/-! ## Retries -/

theorem requestUrl_inj {base base' : Bytes} {r r' : Request} (hpfx : r'.pfx = r.pfx)
    (hpath : r'.path = r.path) : requestUrl base' r' = requestUrl base r ↔ base' = base := by
  rw [requestUrl, requestUrl, hpfx, hpath, List.append_cancel_right_eq,
    List.append_cancel_right_eq, List.append_cancel_right_eq]

theorem mirrorUrl_eq_some {urls : List Bytes} {i : ℤ} {base : Bytes}
    (h : mirrorUrl urls i = some base) : 0 ≤ i ∧ urls[i.toNat]? = some base := by
  rw [mirrorUrl] at h
  by_cases hi : 0 ≤ i
  · exact ⟨hi, by rwa [if_pos hi] at h⟩
  · rw [if_neg hi] at h
    exact absurd h (by simp)

private theorem mirrorUrl_ne {urls : List Bytes} (hd : urls.Nodup) {i j : ℤ} {base base' : Bytes}
    (hi : mirrorUrl urls i = some base) (hj : mirrorUrl urls j = some base') (hij : j ≠ i) :
    base' ≠ base := by
  obtain ⟨hi0, hi⟩ := mirrorUrl_eq_some hi
  obtain ⟨hj0, hj⟩ := mirrorUrl_eq_some hj
  rintro rfl
  have := (List.getElem?_inj (List.getElem?_eq_some_iff.mp hj).1 hd).mp (hj.trans hi.symm)
  omega

/-- The second fetch goes to another mirror than the first, and is not dropped as a duplicate
unless that mirror itself had been asked in the last 600 seconds before the first fetch. -/
def RetriedElsewhere (served : List (Visit × Option Fetched)) (f f' : Fetched) (now : Int64) :
    Prop :=
  f'.mirror ≠ f.mirror ∧ (f'.dropped = true → AskedWithin served f'.url now)

/-- **Retry after failure.** When a fetch has failed and the next request of the session is for
the same file, it is tried on another mirror exactly if the failed fetch got as far as a transfer
and the response to it was not 200: a transfer that breaks off after a 200, an archive that `tar`
rejects, or a missing temporary file leave the counter where it was. -/
theorem failedFetch_retried_iff {cfg : Mirrors} (hn : 2 ≤ cfg.urls.length) (hd : cfg.urls.Nodup)
    {c : Int32} {visits : List Visit} {s : Session}
    (hrun : run (Session.step cfg) (Session.start c) visits = some s)
    {v v' : Visit} {f f' : Fetched} {s₁ s₂ : Server}
    (hv : serverThread cfg s.server v = some (some f, s₁))
    (hv' : serverThread cfg s₁ v' = some (some f', s₂))
    (hpfx : f'.request.pfx = f.request.pfx) (hpath : f'.request.path = f.request.path)
    (hfail : Failed f.ret) :
    RetriedElsewhere s.served f f' v'.env.now ↔
      ∃ t, v.env.transfer f.url f.request.timestamp = some t ∧ t.response ≠ 200 := by
  obtain ⟨dict, hdict, hasked⟩ := Session.table hrun
  obtain ⟨dict₁, hdict₁, hnew, -⟩ := serverThread_table hdict hv
  obtain ⟨-, -, -, hdropped⟩ := serverThread_table hdict₁ hv'
  rcases serverThread_cases hv with
    ⟨hnone, -⟩ | ⟨g, base, msg, hg, -, -, hbase, hmirror, hurl, hget⟩
  · exact absurd hnone (by simp)
  rcases serverThread_cases hv' with
    ⟨hnone, -⟩ | ⟨g', base', msg', hg', -, -, hbase', hmirror', hurl', -⟩
  · exact absurd hnone (by simp)
  obtain rfl := Option.some.inj hg
  obtain rfl := Option.some.inj hg'
  obtain ⟨dup, -, ⟨-, -, h300, -⟩ | ⟨-, -, hdownload⟩⟩ := curlGetFile_eq_some hget
  · exact absurd h300 hfail.2.1
  have hfail' :
      Failed (download v.env s.server.urlcounter f.url f.request.pfx f.request.timestamp).1 := by
    rw [hdownload]
    exact hfail
  have hmoves := download_urlcounter hfail'
  rw [hdownload] at hmoves
  -- the counter has moved on by one or not at all, and the next request takes its mirror from it
  rcases hmoves with ⟨hmoved, hcounter⟩ | ⟨hstayed, hcounter⟩
  · refine iff_of_true ?_ hmoved
    simp only at hcounter
    have hne : f'.mirror ≠ f.mirror := by
      rw [hmirror, hmirror', hcounter]
      exact mirrorIndex_add_one_ne (mirrorUrl_eq_some hbase).1
        (hcounter ▸ (mirrorUrl_eq_some hbase').1) hn
    refine ⟨hne, fun hdrop ↦ ?_⟩
    obtain ⟨tm, htm, hlt⟩ := hdropped f' rfl hdrop
    have hurls : f'.url ≠ f.url := by
      rw [hurl, hurl', Ne, requestUrl_inj hpfx hpath]
      rw [hmirror, hmirror'] at hne
      exact mirrorUrl_ne hd hbase hbase' hne
    -- the entry is from before the failed fetch, which entered the URL of its own mirror
    rcases hnew f'.url tm htm with hin | ⟨g, hg, hgurl, -⟩
    · obtain ⟨w, g, hmem, hgurl, hglet, hgtm⟩ := hasked f'.url tm hin
      refine ⟨w, g, hmem, hgurl, hglet, ?_⟩
      rw [← hgtm] at hlt
      exact toInt_sub_lt_of_toUInt64_sub_lt hlt
    · rw [← Option.some.inj hg] at hgurl
      exact absurd hgurl.symm hurls
  · simp only at hcounter
    refine iff_of_false (fun h ↦ h.1 ?_) hstayed
    rw [hmirror, hmirror', hcounter]

/-- A world in which nothing fails but perhaps the transfer. -/
def FetchEnv.ofTransfer (now : Int64) (t : Transfer) : FetchEnv :=
  ⟨now, true, true, some (bytes "/tmp/clr-debug-info-AbCdEf"), fun _ _ ↦ t, true, true, fun _ ↦ 0⟩

/-- A connection for `/x` of `lib` without a cached copy. -/
def askForX (now : Int64) (t : Transfer) : Visit :=
  ⟨some (bytes "0:lib:/x" ++ [0]), true, FetchEnv.ofTransfer now t⟩

/-- Two mirrors. -/
def twoMirrors : Mirrors := ⟨Alloc.ok, [bytes "a/", bytes "b/"]⟩

/-- The transfer of a file breaks off (`CURLE_PARTIAL_FILE`), and a second later the file is asked
for again. -/
theorem failedFetch_not_retried : ∃ f f' s₁ s₂,
    serverThread twoMirrors (Session.start 0).server (askForX 0 ⟨18, 200, bytes "half"⟩) =
        some (some f, s₁) ∧
      serverThread twoMirrors s₁ (askForX 1 ⟨0, 200, bytes "whole"⟩) = some (some f', s₂) ∧
      f'.request = f.request ∧ Failed f.ret ∧
      f'.mirror = f.mirror ∧ f'.dropped = true ∧ ¬RetriedElsewhere [] f f' 1 := by
  refine ⟨⟨⟨0, bytes "lib", bytes "/x"⟩, 0, bytes "a/lib/x.tar", false, 418⟩,
    ⟨⟨0, bytes "lib", bytes "/x"⟩, 0, bytes "a/lib/x.tar", true, 300⟩, _, _, rfl, rfl, rfl,
    by simp [Failed], rfl, rfl, fun h ↦ h.1 rfl⟩

/-- The first mirror answers 503, and a second later the file is asked for again. -/
theorem failedFetch_retried_iff_unavailable : ∃ f f' s₁ s₂,
    serverThread twoMirrors (Session.start 0).server (askForX 0 ⟨0, 503, []⟩) = some (some f, s₁) ∧
      serverThread twoMirrors s₁ (askForX 1 ⟨0, 200, bytes "whole"⟩) = some (some f', s₂) ∧
      (RetriedElsewhere [] f f' 1 ↔
        ∃ t, (askForX 0 ⟨0, 503, []⟩).env.transfer f.url f.request.timestamp = some t ∧
          t.response ≠ 200) := by
  obtain ⟨s₁, s₂, hv, hv'⟩ : ∃ s₁ s₂,
      serverThread twoMirrors (Session.start 0).server (askForX 0 ⟨0, 503, []⟩) =
          some (some ⟨⟨0, bytes "lib", bytes "/x"⟩, 0, bytes "a/lib/x.tar", false, 503⟩, s₁) ∧
        serverThread twoMirrors s₁ (askForX 1 ⟨0, 200, bytes "whole"⟩) =
          some (some ⟨⟨0, bytes "lib", bytes "/x"⟩, 1, bytes "b/lib/x.tar", false, 200⟩, s₂) :=
    ⟨_, _, rfl, rfl⟩
  have hiff := failedFetch_retried_iff (by decide) (by decide)
    (run_nil (Session.step twoMirrors) (Session.start 0)) hv hv' rfl rfl (by simp [Failed])
  exact ⟨_, _, s₁, s₂, hv, hv', hiff⟩

end ClrDebugInfo
