import ClrDebugInfo.Library.Ledger
import ClrDebugInfo.Server.Fetch

/-!
# Memory and descriptors (`src/server.c`)

What one connection acquires, uses and releases on its way through `main`, `server_thread` and
`curl_get_file`: its descriptor, the strings that `asprintf` makes, the temporary file with its
stream, the handle of libcurl, and the copy of the URL that the duplicate table keeps. A variable
declared with `autofree` is released at the end of its block if it is no null pointer.

On almost every way all of it is given back. There are three ways on which it is not. A descriptor
stays open when no thread can be created for it. When `fdopen` fails, the null pointer is closed all
the same. And `asprintf` need not set its pointer when it fails: for the second command, that is the
pointer that was freed just before.

## Conventions

* What a step of the source does with the duplicate table is left out but for the copy of the URL.
* Pointers and descriptors are numbers.
-/

namespace ClrDebugInfo

open Ledger Runs

/-! ## The code -/

inductive Res where
  | memory (p : ℕ)
  | descriptor (n : ℕ)
  /-- A stream, by its pointer, which may be null. -/
  | stream (p : Option ℕ)
  /-- A handle of libcurl. -/
  | easy (p : ℕ)
  deriving DecidableEq

/-- The names that the system gives for one connection. What is live at the same time has different
names. -/
structure Handles where
  connection : ℕ
  url : ℕ
  /-- The copy of the URL. -/
  copy : ℕ
  curl : ℕ
  filename : ℕ
  fd : ℕ
  /-- What `fdopen` returns. -/
  file : Option ℕ
  /-- The response has a time. -/
  changed : Bool
  /-- The command that tests the archive, and the one that extracts it. -/
  command : ℕ
  command' : ℕ
  /-- What `asprintf` leaves in a pointer when it fails, by what the pointer was. -/
  left : Option ℕ → Option ℕ
  nodup : [url, copy, filename, command].Nodup
  nodup' : [url, copy, filename, command'].Nodup
  fd_ne : fd ≠ connection

/-- The end of the block of a variable. -/
def autofree (p : Option ℕ) : List (Op Res) :=
  match p with
  | none => []
  | some p => [.release (.memory p)]

/-- The branch `ret == 200` of `curl_get_file`. -/
def unpackOps (env : FetchEnv) (pfx filename : Bytes) (t : Transfer) (h : Handles) :
    List (Op Res) :=
  let size := if t.code ≠ 0 then 0 else t.body.length
  if size = 0 then []
  else
    .use (.memory h.filename) ::
      if !env.testAlloc then autofree (h.left none)
      else
        .acquire (.memory h.command) :: .use (.memory h.command) ::
          if env.system (tarCommand pfx (bytes "-tf") filename) ≠ 0 then autofree (some h.command)
          else
            .release (.memory h.command) :: .use (.memory h.filename) ::
              if !env.extractAlloc then autofree (h.left (some h.command))
              else
                -- whatever `system` returns
                .acquire (.memory h.command') :: .use (.memory h.command') ::
                  autofree (some h.command')

/-- `curl_get_file` from `fdopen` to the test of the size. -/
def transferOps (t : Transfer) (h : Handles) : List (Op Res) :=
  [.use (.easy h.curl), .use (.memory h.url)] ++
    (if t.body = [] then [] else [.use (.stream h.file)]) ++
    (if t.code = 0 then [] else [.use (.memory h.filename)]) ++
    -- `fflush` takes a null pointer for all streams
    (if h.file = none then [] else [.use (.stream h.file)]) ++
    if t.response = 200 then
      (if h.changed then [.use (.descriptor h.fd)] else []) ++ [.use (.memory h.filename)]
    else []

/-- `curl_get_file` from `out` on. `fclose` closes the descriptor of the stream as well. -/
def outOps (h : Handles) : List (Op Res) :=
  [.use (.memory h.filename), .release (.easy h.curl), .release (.stream h.file),
    .release (.descriptor h.fd)] ++ autofree (some h.filename)

/-- `curl_get_file` from `curl_easy_init` on. -/
def downloadOps (env : FetchEnv) (url pfx : Bytes) (timestamp : Int64) (h : Handles) :
    List (Op Res) :=
  if !env.curlInit then []
  else
    .acquire (.easy h.curl) ::
      if !env.nameAlloc then .release (.easy h.curl) :: autofree (h.left none)
      else
        .acquire (.memory h.filename) :: .use (.memory h.filename) ::
          match env.mkstemp with
          | none => .release (.easy h.curl) :: autofree (some h.filename)
          | some filename =>
            let t := env.perform url (if timestamp = 0 then none else some timestamp)
            .acquire (.descriptor h.fd) ::
              (match h.file with
                | none => []
                | some p => [.acquire (.stream (some p))]) ++
              transferOps t h ++
              (if t.response = 200 then unpackOps env pfx filename t h else []) ++
              outOps h

/-- What `avoid_dupes` does for a call. -/
inductive Admission where
  | dropped
  /-- The table has the URL, from long ago. -/
  | known
  /-- The table gets a copy of the URL. -/
  | recorded
  deriving DecidableEq

/-- `curl_get_file` -/
def curlGetFileOps (env : FetchEnv) (url pfx : Bytes) (timestamp : Int64) (d : Admission)
    (h : Handles) : List (Op Res) :=
  .use (.memory h.url) ::
    match d with
    | .dropped => []
    | .known => downloadOps env url pfx timestamp h
    | .recorded => .acquire (.memory h.copy) :: downloadOps env url pfx timestamp h

/-- `server_thread` once `curl_get_file` has returned. -/
def closeOps (h : Handles) : List (Op Res) :=
  [.use (.descriptor h.connection), .release (.descriptor h.connection)] ++ autofree (some h.url)

/-- `server_thread`, with the URL of the mirror. A scan that leaves the buffer has no result. -/
def serverThreadOps (v : Visit) (base : Bytes) (d : Admission) (h : Handles) :
    Option (List (Op Res)) :=
  match v.read with
  | none => some [.use (.descriptor h.connection), .release (.descriptor h.connection)]
  | some msg =>
    match parseRequest (requestBuffer msg) with
    | none => none
    | some none => some [.use (.descriptor h.connection), .release (.descriptor h.connection)]
    | some (some r) =>
      some (.use (.descriptor h.connection) ::
        if !v.urlAlloc then .release (.descriptor h.connection) :: autofree (h.left none)
        else
          .acquire (.memory h.url) ::
            curlGetFileOps v.env (requestUrl base r) r.pfx r.timestamp d h ++ closeOps h)

/-- What becomes of a connection that `main` accepts. -/
inductive Fate where
  | turnedAway
  /-- `pthread_create` fails. -/
  | notStarted
  | handled (v : Visit) (base : Bytes) (d : Admission)

/-- A connection, from `accept` to its end. -/
def connectionOps (fate : Fate) (h : Handles) : Option (List (Op Res)) :=
  match fate with
  | .turnedAway => some [.acquire (.descriptor h.connection), .use (.descriptor h.connection),
      .release (.descriptor h.connection)]
  | .notStarted => some [.acquire (.descriptor h.connection)]
  | .handled v base d =>
    (serverThreadOps v base d h).map (.acquire (.descriptor h.connection) :: ·)

/-! ## When all is given back -/

/-- The request that a handler accepts, if it does. -/
def Visit.request (v : Visit) : Option Request :=
  v.read.bind fun msg ↦ (parseRequest (requestBuffer msg)).join

/-- The copy that the duplicate table keeps. -/
def kept (fate : Fate) (h : Handles) : List Res :=
  match fate with
  | .handled v _ d =>
    if v.request.isSome ∧ v.urlAlloc ∧ d = .recorded then [.memory h.copy] else []
  | _ => []

/-- An `asprintf` that fails leaves a null pointer, in the branch `ret == 200`. -/
def UnpackClean (env : FetchEnv) (pfx filename : Bytes) (t : Transfer) (h : Handles) : Prop :=
  (if t.code ≠ 0 then 0 else t.body.length) ≠ 0 →
    (env.testAlloc = false → h.left none = none) ∧
      (env.testAlloc = true → env.system (tarCommand pfx (bytes "-tf") filename) = 0 →
        env.extractAlloc = false → h.left (some h.command) = none)

/-- The same from `curl_easy_init` on, and `fdopen` returns a stream. -/
def DownloadClean (env : FetchEnv) (url pfx : Bytes) (timestamp : Int64) (h : Handles) : Prop :=
  env.curlInit = true →
    (env.nameAlloc = false → h.left none = none) ∧
      (env.nameAlloc = true → ∀ filename, env.mkstemp = some filename →
        h.file.isSome ∧
          ((env.perform url (if timestamp = 0 then none else some timestamp)).response = 200 →
            UnpackClean env pfx filename
              (env.perform url (if timestamp = 0 then none else some timestamp)) h))

/-- The same for a connection, and a thread is created for it. -/
def Clean (fate : Fate) (h : Handles) : Prop :=
  match fate with
  | .turnedAway => True
  | .notStarted => False
  | .handled v base d =>
    ∀ r, v.request = some r →
      (v.urlAlloc = false → h.left none = none) ∧
        (v.urlAlloc = true → d ≠ .dropped →
          DownloadClean v.env (requestUrl base r) r.pfx r.timestamp h)

section

variable {env : FetchEnv} {url pfx filename : Bytes} {timestamp : Int64} {t : Transfer}
  {h : Handles} {tail : List (Op Res)} {live left : List Res} {Q : List Res → Prop}

private theorem wp_autofree (hfree : ∀ r, .acquire r ∉ tail) (htail : wp tail (· = left) live)
    (p : Option ℕ) : wp (autofree p ++ tail) (· = left) live ↔ p = none := by
  cases p with
  | none => exact iff_of_true htail rfl
  | some p => exact iff_of_false (not_wp_release hfree htail _) (by simp)

private theorem wp_unpackOps (hfree : ∀ r, .acquire r ∉ tail) (htail : wp tail (· = left) live)
    (hname : .memory h.filename ∈ live) (hcmd : .memory h.command ∉ live)
    (hcmd' : .memory h.command' ∉ live) :
    wp (unpackOps env pfx filename t h ++ tail) (· = left) live ↔
      UnpackClean env pfx filename t h := by
  simp only [unpackOps, UnpackClean]
  generalize (if t.code ≠ 0 then 0 else t.body.length) = size
  by_cases hsize : size = 0
  · rw [if_pos hsize]
    exact iff_of_true htail fun hne ↦ absurd hsize hne
  rw [if_neg hsize, List.cons_append, wp_use, and_iff_right hname]
  cases htest : env.testAlloc with
  | false =>
    have hiff := wp_autofree hfree htail (h.left none)
    simp [hiff, hsize]
  | true =>
    by_cases hsystem : env.system (tarCommand pfx (bytes "-tf") filename) = 0
    · cases hextract : env.extractAlloc with
      | false =>
        have hiff := wp_autofree hfree htail (h.left (some h.command))
        simp [hsystem, hcmd, hname, hiff, hsize]
      | true => simp [hsystem, hcmd, hname, hcmd', autofree, htail]
    · simp [hsystem, hcmd, autofree, htail]

private theorem exists_wp_of_unpackOps (hcmd : .memory h.command ∉ live)
    (hcmd' : .memory h.command' ∉ live) (hwp : wp (unpackOps env pfx filename t h ++ tail) Q live) :
    ∃ live', live' ⊆ live ∧ wp tail Q live' := by
  have hfreed : ∀ p, wp (autofree p ++ tail) Q live → ∃ live', live' ⊆ live ∧ wp tail Q live' := by
    intro p hp
    cases p with
    | none => exact ⟨live, List.Subset.refl _, hp⟩
    | some p => exact ⟨_, List.erase_subset, hp.2⟩
  simp only [unpackOps] at hwp
  generalize (if t.code ≠ 0 then 0 else t.body.length) = size at hwp
  by_cases hsize : size = 0
  · rw [if_pos hsize] at hwp
    exact ⟨live, List.Subset.refl _, hwp⟩
  rw [if_neg hsize] at hwp
  obtain ⟨-, hwp⟩ := hwp
  cases htest : env.testAlloc with
  | false =>
    rw [htest] at hwp
    exact hfreed _ hwp
  | true =>
    by_cases hsystem : env.system (tarCommand pfx (bytes "-tf") filename) = 0
    · cases hextract : env.extractAlloc with
      | false =>
        simp [htest, hsystem, hextract, hcmd] at hwp
        exact hfreed _ hwp.2
      | true =>
        simp [htest, hsystem, hextract, hcmd, hcmd', autofree] at hwp
        exact ⟨live, List.Subset.refl _, hwp.2⟩
    · simp [htest, hsystem, hcmd, autofree] at hwp
      exact ⟨live, List.Subset.refl _, hwp⟩

/-- What is live before `curl_easy_init`: the URL, and nothing that `curl_get_file` acquires. -/
structure Before (h : Handles) (live : List Res) : Prop where
  url : .memory h.url ∈ live
  curl : .easy h.curl ∉ live
  file : ∀ p, .stream p ∉ live
  fd : .descriptor h.fd ∉ live
  filename : .memory h.filename ∉ live
  command : .memory h.command ∉ live
  command' : .memory h.command' ∉ live

theorem Handles.copy_ne (h : Handles) : h.copy ≠ h.url := by
  have hnodup := h.nodup
  simp only [List.nodup_cons, List.mem_cons, not_or] at hnodup
  exact Ne.symm hnodup.1.1

theorem Handles.filename_ne (h : Handles) : h.command ≠ h.filename ∧ h.command' ≠ h.filename := by
  have hnodup := h.nodup
  have hnodup' := h.nodup'
  simp only [List.nodup_cons, List.mem_cons, not_or] at hnodup hnodup'
  exact ⟨Ne.symm hnodup.2.2.1.1, Ne.symm hnodup'.2.2.1.1⟩

/-- What is live between `fdopen` and `out`. -/
def during (h : Handles) (p : ℕ) (live : List Res) : List Res :=
  .stream (some p) :: .descriptor h.fd :: .memory h.filename :: .easy h.curl :: live

private theorem mem_transferOps {op : Op Res} (hop : op ∈ transferOps t h) :
    op = .use (.easy h.curl) ∨ op = .use (.memory h.url) ∨ op = .use (.stream h.file) ∨
      op = .use (.memory h.filename) ∨ op = .use (.descriptor h.fd) := by
  simp only [transferOps, List.mem_append] at hop
  grind

theorem Before.transferOps {p : ℕ} (hb : Before h live) (hfile : h.file = some p) :
    ∀ op ∈ transferOps t h, ∃ r ∈ during h p live, op = .use r := by
  intro op hop
  rcases mem_transferOps hop with rfl | rfl | rfl | rfl | rfl
  · exact ⟨_, by simp [during], rfl⟩
  · exact ⟨_, by simp [during, hb.url], rfl⟩
  · exact ⟨_, by simp [during, hfile], rfl⟩
  · exact ⟨_, by simp [during], rfl⟩
  · exact ⟨_, by simp [during], rfl⟩

private theorem wp_outOps {p : ℕ} (hfile : h.file = some p) (htail : wp tail Q live) :
    wp (outOps h ++ tail) Q (during h p live) := by
  simp [outOps, autofree, during, hfile, htail]

private theorem acquire_notMem_outOps (hfree : ∀ r, .acquire r ∉ tail) (r : Res) :
    .acquire r ∉ outOps h ++ tail := by
  simp [outOps, autofree, hfree r]

private theorem wp_transfer {p : ℕ} (hfree : ∀ r, .acquire r ∉ tail)
    (htail : wp tail (· = left) live) (hb : Before h live) (hfile : h.file = some p) :
    wp (transferOps t h ++ ((if t.response = 200 then unpackOps env pfx filename t h else []) ++
      (outOps h ++ tail))) (· = left) (during h p live) ↔
        (t.response = 200 → UnpackClean env pfx filename t h) := by
  obtain ⟨hcmd, hcmd'⟩ := h.filename_ne
  have hout := wp_outOps hfile htail
  have hunpack : wp (unpackOps env pfx filename t h ++ (outOps h ++ tail)) (· = left)
      (during h p live) ↔ UnpackClean env pfx filename t h :=
    wp_unpackOps (acquire_notMem_outOps hfree) hout (by simp [during])
      (by simp [during, hcmd, hb.command]) (by simp [during, hcmd', hb.command'])
  rw [wp_uses (hb.transferOps hfile)]
  by_cases h200 : t.response = 200
  · simp [h200, hunpack]
  · simp [h200, hout]

private theorem not_wp_transfer (hb : Before h live) (hfile : h.file = none) :
    ¬wp (transferOps t h ++ ((if t.response = 200 then unpackOps env pfx filename t h else []) ++
      (outOps h ++ tail))) Q
        (.descriptor h.fd :: .memory h.filename :: .easy h.curl :: live) := by
  intro hwp
  obtain ⟨hcmd, hcmd'⟩ := h.filename_ne
  have huses : ∀ op ∈ transferOps t h, ∃ r, op = .use r := by
    intro op hop
    rcases mem_transferOps hop with rfl | rfl | rfl | rfl | rfl
    all_goals exact ⟨_, rfl⟩
  have hwp := of_wp_uses huses hwp
  obtain ⟨live', hsub, hout⟩ : ∃ live',
      live' ⊆ .descriptor h.fd :: .memory h.filename :: .easy h.curl :: live ∧
        wp (outOps h ++ tail) Q live' := by
    by_cases h200 : t.response = 200
    · rw [if_pos h200] at hwp
      exact exists_wp_of_unpackOps (by simp [hcmd, hb.command]) (by simp [hcmd', hb.command']) hwp
    · rw [if_neg h200] at hwp
      exact ⟨_, List.Subset.refl _, hwp⟩
  have hnull : .stream none ∈ live' := by
    have hrelease := hout.2.2.1
    rw [hfile] at hrelease
    exact List.mem_of_mem_erase hrelease
  have hlive := hsub hnull
  simp [hb.file] at hlive

private theorem wp_downloadOps (hfree : ∀ r, .acquire r ∉ tail) (htail : wp tail (· = left) live)
    (hb : Before h live) :
    wp (downloadOps env url pfx timestamp h ++ tail) (· = left) live ↔
      DownloadClean env url pfx timestamp h := by
  simp only [downloadOps, DownloadClean]
  cases hcurl : env.curlInit with
  | false => simp [htail]
  | true =>
    cases hname : env.nameAlloc with
    | false =>
      have hiff := wp_autofree hfree htail (h.left none)
      simp [hb.curl, hiff]
    | true =>
      cases hmk : env.mkstemp with
      | none => simp [hb.curl, hb.filename, autofree, htail]
      | some filename =>
        generalize env.perform url (if timestamp = 0 then none else some timestamp) = t
        cases hfile : h.file with
        | none =>
          have hnot := @not_wp_transfer env pfx filename t h tail live (· = left) hb hfile
          simpa [hb.curl, hb.filename, hb.fd] using hnot
        | some p =>
          have hiff := @wp_transfer env pfx filename t h tail live left p hfree htail hb hfile
          rw [during] at hiff
          simpa [hb.curl, hb.filename, hb.fd, hb.file] using hiff

/-! ## Connections -/

private theorem before_known (h : Handles) :
    Before h [.memory h.url, .descriptor h.connection] := by
  have hnodup := h.nodup
  have hnodup' := h.nodup'
  simp only [List.nodup_cons, List.mem_cons, List.not_mem_nil, not_or] at hnodup hnodup'
  constructor <;> simp [h.fd_ne, Ne.symm hnodup.1.2.1, Ne.symm hnodup.1.2.2.1,
    Ne.symm hnodup'.1.2.2.1]

private theorem before_recorded (h : Handles) :
    Before h [.memory h.copy, .memory h.url, .descriptor h.connection] := by
  have hnodup := h.nodup
  have hnodup' := h.nodup'
  have hb := before_known h
  simp only [List.nodup_cons, List.mem_cons, List.not_mem_nil, not_or] at hnodup hnodup'
  constructor
  · simp
  · simp
  · simp
  · simpa using hb.fd
  · simpa [Ne.symm hnodup.2.1.1] using hb.filename
  · simpa [Ne.symm hnodup.2.1.2.1] using hb.command
  · simpa [Ne.symm hnodup'.2.1.2.1] using hb.command'

theorem serverThreadOps_cases {v : Visit} {base : Bytes} {d : Admission} {ops : List (Op Res)}
    (hops : serverThreadOps v base d h = some ops) :
    v.request = none ∧
        ops = [.use (.descriptor h.connection), .release (.descriptor h.connection)] ∨
      ∃ r, v.request = some r ∧ ops = .use (.descriptor h.connection) ::
        if !v.urlAlloc then .release (.descriptor h.connection) :: autofree (h.left none)
        else
          .acquire (.memory h.url) ::
            curlGetFileOps v.env (requestUrl base r) r.pfx r.timestamp d h ++ closeOps h := by
  rw [serverThreadOps] at hops
  rw [Visit.request]
  cases hread : v.read with
  | none =>
    simp only [hread] at hops
    exact .inl ⟨rfl, (Option.some.inj hops).symm⟩
  | some msg =>
    simp only [hread] at hops
    cases hparse : parseRequest (requestBuffer msg) with
    | none =>
      rw [hparse] at hops
      exact absurd hops (by simp)
    | some r =>
      rw [hparse] at hops
      cases r with
      | none => exact .inl ⟨by simp [hparse], (Option.some.inj hops).symm⟩
      | some r => exact .inr ⟨r, by simp [hparse], (Option.some.inj hops).symm⟩

/-- **One connection.** -/
theorem wp_connectionOps {fate : Fate} {ops : List (Op Res)}
    (hops : connectionOps fate h = some ops) : wp ops (· = kept fate h) [] ↔ Clean fate h := by
  cases fate with
  | turnedAway =>
    obtain rfl := Option.some.inj hops
    simp [kept, Clean]
  | notStarted =>
    obtain rfl := Option.some.inj hops
    simp [kept, Clean]
  | handled v base d =>
    obtain ⟨ops, hthread, rfl⟩ := Option.map_eq_some_iff.mp hops
    simp only [Clean, kept]
    rcases serverThreadOps_cases hthread with ⟨hnone, rfl⟩ | ⟨r, hr, rfl⟩
    · simp [hnone]
    simp only [hr, Option.isSome_some, true_and, Option.some.injEq, forall_eq']
    cases hurl : v.urlAlloc with
    | false =>
      have hiff : wp (autofree (h.left none) ++ []) (· = []) [] ↔ h.left none = none :=
        wp_autofree (by simp) (by simp) _
      simpa using hiff
    | true =>
      have hfree : ∀ r, .acquire r ∉ closeOps h := by
        intro r
        simp [closeOps, autofree]
      cases d with
      | dropped => simp [curlGetFileOps, closeOps, autofree]
      | known =>
        have hclose : wp (closeOps h) (· = []) [.memory h.url, .descriptor h.connection] := by
          simp [closeOps, autofree]
        have hiff : wp (downloadOps v.env (requestUrl base r) r.pfx r.timestamp h ++ closeOps h)
            (· = []) [.memory h.url, .descriptor h.connection] ↔
              DownloadClean v.env (requestUrl base r) r.pfx r.timestamp h :=
          wp_downloadOps hfree hclose (before_known h)
        simpa [curlGetFileOps] using hiff
      | recorded =>
        have hcopy := h.copy_ne
        have hclose : wp (closeOps h) (· = [.memory h.copy])
            [.memory h.copy, .memory h.url, .descriptor h.connection] := by
          simp [closeOps, autofree, hcopy]
        have hiff : wp (downloadOps v.env (requestUrl base r) r.pfx r.timestamp h ++ closeOps h)
            (· = [.memory h.copy]) [.memory h.copy, .memory h.url, .descriptor h.connection] ↔
              DownloadClean v.env (requestUrl base r) r.pfx r.timestamp h :=
          wp_downloadOps hfree hclose (before_recorded h)
        simpa [curlGetFileOps, hcopy] using hiff

end

/-! ## All connections -/

/-- What becomes of what the connections acquire. -/
structure Accounts (fates : ℕ → Fate) (h : ℕ → Handles) (progs : ℕ → List (Op Res)) : Prop where
  /-- Alone, a connection uses and releases only what it has, and gives all back that the duplicate
  table does not keep. -/
  alone_iff : ∀ i, (∀ done todo live, progs i = done ++ todo →
      run Ledger.step [] done = some live → InTurn (· = kept (fates i) (h i)) live todo) ↔
    Clean (fates i) (h i)
  /-- And so do all together, in any order of their steps. -/
  together : (∀ i, Clean (fates i) (h i)) → ∀ is s, run interleave ⟨progs, []⟩ is = some s →
    InOrder (fun i live ↦ live = kept (fates i) (h i)) s

/-- **All is given back** of what connections acquire, but for the copies that the duplicate table
keeps, and nothing is used that is not there: exactly if a thread is created for each connection,
`fdopen` succeeds, and an `asprintf` that fails leaves a null pointer. -/
theorem connections_accounts {fates : ℕ → Fate} {h : ℕ → Handles} {progs : ℕ → List (Op Res)}
    (hops : ∀ i, connectionOps (fates i) (h i) = some (progs i)) : Accounts fates h progs where
  alone_iff i := wp_iff_inTurn.symm.trans (wp_connectionOps (hops i))
  together hclean _ _ hrun :=
    interleave_inOrder (fun i ↦ (wp_connectionOps (hops i)).mpr (hclean i)) hrun

/-- A fetch that succeeds, unless the second command cannot be made. -/
def fetchFate (extractAlloc : Bool) : Fate :=
  .handled ⟨some (bytes "0:lib:/a"), true,
    ⟨0, true, true, some (bytes "/tmp/clr-debug-info-aaaaaa"), fun _ _ ↦ ⟨0, 200, [1]⟩, true,
      extractAlloc, fun _ ↦ 0⟩⟩ (bytes "http://m/") .recorded

/-- The names of a connection, when `asprintf` leaves its pointer alone if it fails. -/
def fetchHandles : Handles where
  connection := 5
  url := 1
  copy := 2
  curl := 1
  filename := 3
  fd := 6
  file := some 1
  changed := true
  command := 4
  command' := 4
  left := id
  nodup := by decide
  nodup' := by decide
  fd_ne := by decide

/-- The second command cannot be made for the connection 1: the first one is freed twice. -/
theorem connections_accounts_doubleFree : ∃ progs,
    Accounts (fun i ↦ fetchFate (i ≠ 1)) (fun _ ↦ fetchHandles) progs ∧
      Clean (fetchFate true) fetchHandles ∧ ¬Clean (fetchFate false) fetchHandles := by
  have hsome : ∀ b, (connectionOps (fetchFate b) fetchHandles).isSome = true := by decide +kernel
  refine ⟨fun i ↦ (connectionOps (fetchFate (i ≠ 1)) fetchHandles).get (hsome _),
    connections_accounts fun i ↦ (Option.some_get _).symm, ?_, ?_⟩
  · intro r _
    simp [DownloadClean, UnpackClean, fetchHandles]
  · intro hclean
    have hrequest : Visit.request ⟨some (bytes "0:lib:/a"), true,
      ⟨0, true, true, some (bytes "/tmp/clr-debug-info-aaaaaa"), fun _ _ ↦ ⟨0, 200, [1]⟩, true,
        false, fun _ ↦ 0⟩⟩ = some ⟨0, bytes "lib", bytes "/a"⟩ := by decide +kernel
    have hdownload := (hclean _ hrequest).2 rfl (by simp)
    have hunpack := ((hdownload rfl).2 rfl _ rfl).2 rfl
    exact absurd ((hunpack (by simp)).2 rfl rfl rfl) (by simp [fetchHandles])

end ClrDebugInfo
