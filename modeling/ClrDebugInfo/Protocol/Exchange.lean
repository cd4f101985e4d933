import ClrDebugInfo.Protocol.Ends
import ClrDebugInfo.Server.Connections

/-!
# The exchange

What holds of the clients and the daemon in every run: whose request the daemon has in hand
(`net_ownRequest`), what becomes of every connection (`net_orderly`), and what a call that is woken
before its timeout may conclude (`net_wokenFor`).
-/

namespace ClrDebugInfo

open Runs

variable {cfg : Config} {n n' : Net} {mounts : List (Bytes × ℤ)} {c : Int32} {now : Int64}
  {cache : Cache} {acts : List NetAct}

/-! ## Every run -/

/-- What every step of the system keeps. -/
structure Net.Sound (n : Net) : Prop where
  placed : n.Placed
  called : n.Called
  handles : n.Handles

theorem Net.Sound.step {act : NetAct} (hn : n.Sound) (h : netStep cfg n act = some n') :
    n'.Sound := by
  have hstep := netStep_cases h
  exact ⟨hn.placed.step hstep, hn.called.step hstep, hn.handles.step hn.placed hn.called hstep⟩

private theorem netStart_sound (mounts : List (Bytes × ℤ)) (c : Int32) (now : Int64)
    (cache : Cache) : (Net.start mounts (Daemon.start c now cache)).Sound where
  placed := ⟨List.Perm.refl _, rfl, by simp [Net.start, Daemon.start, Loop.fd],
    by simp [Net.start]⟩
  called := ⟨by simp [Net.start], List.nodup_nil⟩
  handles := ⟨by simp [Net.start], by simp [Net.start], by simp [Net.start]⟩

theorem netSound_of_run
    (hrun : run (netStep cfg) (Net.start mounts (Daemon.start c now cache)) acts = some n) :
    n.Sound :=
  run_invariant (I := fun _ n ↦ Net.Sound n) (netStart_sound mounts c now cache)
    (fun _ _ _ _ hn h ↦ hn.step h) hrun

theorem Net.Placed.place {k : ℕ} {conn : Conn} (hn : n.Placed) (hk : n.conns[k]? = some conn) :
    (k ∈ n.backlog ∨ n.clientsock = some k ∨ k ∈ n.lost) ∨ k ∈ n.away ∨
      ∃ (i : ℕ) (pc : Pc), n.served[i]? = some (some k) ∧ n.daemon.threads[i]? = some pc := by
  have hmem : k ∈ n.places := hn.perm.mem_iff.mpr
    (List.mem_range.mpr (List.getElem?_eq_some_iff.mp hk).1)
  simp only [Net.places, List.mem_append, Option.mem_toList, List.reduceOption_mem_iff] at hmem
  rcases hmem with (((hmem | hmem) | hmem) | hmem) | hmem
  · exact Or.inl (Or.inl hmem)
  · exact Or.inl (Or.inr (Or.inl hmem))
  · obtain ⟨i, hi⟩ := List.mem_iff_getElem?.mp hmem
    have hlt : i < n.daemon.threads.length := hn.length ▸ (List.getElem?_eq_some_iff.mp hi).1
    exact Or.inr (Or.inr ⟨i, _, hi, List.getElem?_eq_getElem hlt⟩)
  · exact Or.inr (Or.inl hmem)
  · exact Or.inl (Or.inr (Or.inr hmem))

theorem Net.Sound.fate {k : ℕ} {conn : Conn} (hn : n.Sound) (hk : n.conns[k]? = some conn) :
    conn.Untouched true ∨ k ∈ n.away ∧ conn.Untouched false ∨
      ∃ (i : ℕ) (pc : Pc), n.served[i]? = some (some k) ∧ n.daemon.threads[i]? = some pc ∧
        conn.Handled pc := by
  rcases hn.placed.place hk with hwait | haway | ⟨i, pc, hi, hpc⟩
  · exact Or.inl (hn.handles.waiting k conn hwait hk)
  · exact Or.inr (Or.inl ⟨haway, hn.handles.away k conn haway hk⟩)
  · exact Or.inr (Or.inr ⟨i, pc, hi, hpc, hn.handles.handler i k pc conn hi hpc hk⟩)

theorem Conn.Handled.settled_of_reply {conn : Conn} {pc : Pc} (h : conn.Handled pc)
    (hreply : conn.reply ≠ none) : conn.Settled := by
  by_cases hleaving : pc = .leaving
  · exact h.settled (Or.inl hleaving)
  · by_cases hended : pc = .ended
    · exact h.settled (Or.inr hended)
    · exact absurd (h.busy hleaving hended).1 hreply

theorem Net.Sound.asks_of_reply {k ret : ℕ} {conn : Conn} {job : Job} (hn : n.Sound)
    (hk : n.conns[k]? = some conn) (hreply : conn.reply = some (job, ret)) :
    conn.Asks job.request := by
  have hne : conn.reply ≠ none := by simp [hreply]
  rcases hn.fate hk with hnone | ⟨-, hnone⟩ | ⟨i, pc, -, -, hhandled⟩
  · exact absurd hnone.1 hne
  · exact absurd hnone.1 hne
  · cases hhandled.settled_of_reply hne with
    | replied hreply' hasks =>
      obtain ⟨rfl, -⟩ := Prod.mk.inj (Option.some.inj (hreply.symm.trans hreply'))
      exact hasks
    | dropped hnone => exact absurd hnone hne

/-! ## Whose request it is -/

/-- The request that the daemon has in hand for a connection, or has replied to. -/
def Net.Serves (n : Net) (k : ℕ) (r : Request) : Prop :=
  (∃ (i : ℕ) (pc : Pc), n.served[i]? = some (some k) ∧ n.daemon.threads[i]? = some pc ∧
    pc.request = some r) ∨
  ∃ conn job ret, n.conns[k]? = some conn ∧ conn.reply = some (job, ret) ∧ job.request = r

theorem Net.Sound.asks {k : ℕ} {conn : Conn} {r : Request} (hn : n.Sound)
    (hk : n.conns[k]? = some conn) (hr : n.Serves k r) : conn.Asks r := by
  rcases hr with ⟨i, pc, hi, hpc, hr⟩ | ⟨conn', job, ret, hk', hreply, rfl⟩
  · exact (hn.handles.handler i k pc conn hi hpc hk).asks r hr
  · obtain rfl := Option.some.inj (hk.symm.trans hk')
    exact hn.asks_of_reply hk hreply

private theorem eq_of_parseRequest_message {args : TryArgs} {pfx : Bytes} {r : Request}
    (hpfx : 58 ∉ pfx ∧ 0 ∉ pfx) (hpath : 0 ∉ args.path)
    (hlen : (args.message pfx).length ≤ pathMax + 8)
    (h : parseRequest (requestBuffer (readMessage (args.message pfx))) = some (some r)) :
    r = ⟨args.timestamp, pfx, args.path⟩ := by
  have hsep : ∀ b ∈ pfx, b ≠ 58 ∧ b ≠ 0 := by
    intro b hb
    exact ⟨fun h58 ↦ hpfx.1 (h58 ▸ hb), fun h0 ↦ hpfx.2 (h0 ▸ hb)⟩
  obtain ⟨rest, hbuf⟩ : ∃ rest, requestBuffer (readMessage (args.message pfx)) =
      ullText args.timestamp.toUInt64 ++ 58 :: (pfx ++ 58 :: (args.path ++ 0 :: rest)) := by
    rw [readMessage, List.take_of_length_le hlen, requestBuffer, TryArgs.message, requestMessage]
    exact ⟨_, by simp only [bytes, List.append_assoc]; rfl⟩
  rw [parseRequest, hbuf, strchr_append fun b hb ↦ ne_of_mem_ullText hb] at h
  simp only at h
  rw [strchr_append hsep] at h
  simp only at h
  rw [cstring_append hpath] at h
  split at h
  · exact absurd h (by simp)
  next path heq =>
    obtain rfl := Option.some.inj heq
    split at h
    · rw [strtoull_ullText, args.timestamp.toInt64_toUInt64] at h
      exact (Option.some.inj (Option.some.inj h)).symm
    · exact absurd h (by simp)

/-- The request of a connection is that of the call that has made it. -/
def OwnRequest (n : Net) (conn : Conn) (r : Request) : Prop :=
  ∃ s g, n.mounts[conn.caller.1]? = some s ∧ s.calls[conn.caller.2]? = some g ∧
    parseRequest (requestBuffer (readMessage (g.args.message s.pfx))) = some (some r) ∧
    -- the timestamp always arrives, and the rest does if the message fits the buffer
    r.timestamp = g.args.timestamp ∧
    (58 ∉ s.pfx ∧ 0 ∉ s.pfx → 0 ∉ g.args.path → (g.args.message s.pfx).length ≤ pathMax + 8 →
      r = ⟨g.args.timestamp, s.pfx, g.args.path⟩)

theorem Net.Sound.ownRequest {k : ℕ} {conn : Conn} {r : Request} (hn : n.Sound)
    (hk : n.conns[k]? = some conn) (hr : n.Serves k r) : OwnRequest n conn r := by
  obtain ⟨msg, hmsg, hparse⟩ := hn.asks hk hr
  obtain ⟨s, g, hs, hg, hholds⟩ := hn.called.holds k conn hk
  obtain rfl := hholds.sent msg hmsg
  exact ⟨s, g, hs, hg, hparse, parseRequest_timestamp hparse,
    fun hpfx hpath hlen ↦ eq_of_parseRequest_message hpfx hpath hlen hparse⟩

/-- **No request is answered for another.** Whatever the calls of the clients, `main` and the
handlers do in between, what a handler has in hand for a connection, and what its reply is about, is
the request of the call that has made the connection. -/
theorem net_ownRequest {k : ℕ} {conn : Conn} {r : Request}
    (hrun : run (netStep cfg) (Net.start mounts (Daemon.start c now cache)) acts = some n)
    (hk : n.conns[k]? = some conn) (hr : n.Serves k r) : OwnRequest n conn r :=
  (netSound_of_run hrun).ownRequest hk hr

/-- A call for `path` without a cached copy, up to its `connect`. -/
def callFor (p : ℕ) (path : Bytes) : List NetAct :=
  [.client p (.enter ⟨path, 7, 0⟩), .client p (.io 0 (.socket (some 3))),
    .client p (.io 0 (.connect true)), .client p (.io 0 (.peer (some 9)))]

/-- `main` takes a connection. -/
def takeConnection (fd : ℤ) : List NetAct :=
  [.daemon (.main .ready), .daemon (.main (.accept fd)), .daemon (.main .check),
    .daemon (.main .inc), .daemon (.main (.create true))]

/-- The deadline test of a call, up to its `select`. -/
def waitFor (p : ℕ) : List NetAct :=
  [.client p (.io 0 (.format true)), .client p (.io 0 (.write true)),
    .client p (.io 0 (.timer .readClock)), .client p (.io 0 (.timer .readDead)),
    .client p (.io 0 (.timer .select))]

/-- A handler reads a message, finds nothing on the web server, and replies. -/
def answer (i : ℕ) (msg : Bytes) : List NetAct :=
  [.daemon (.thread i (.read (some msg))), .daemon (.thread i (.makeUrl true)),
    .daemon (.thread i .avoidDupes), .daemon (.thread i (.perform ⟨0, 404, []⟩)),
    .daemon (.thread i .reply)]

/-- The two mounts ask for different files at once, and the second is answered first. -/
def twoLookups : List NetAct :=
  callFor 0 (bytes "/x") ++ callFor 1 (bytes "/y") ++ takeConnection 5 ++ takeConnection 6 ++
    waitFor 1 ++ waitFor 0 ++ answer 1 (bytes "0:src:/y" ++ [0]) ++
    answer 0 (bytes "0:lib:/x" ++ [0])

theorem net_ownRequest_twoLookups : ∃ n conn job ret,
    run (netStep emptyArchives)
      (Net.start [(bytes "lib", 100), (bytes "src", 100)] (Daemon.start 0 0 Cache.empty))
      twoLookups = some n ∧
    n.conns[1]? = some conn ∧ conn.caller = (1, 0) ∧ conn.reply = some (job, ret) ∧
    job.request = ⟨0, bytes "src", bytes "/y"⟩ ∧ OwnRequest n conn job.request := by
  have hmap : (run (netStep emptyArchives)
      (Net.start [(bytes "lib", 100), (bytes "src", 100)] (Daemon.start 0 0 Cache.empty))
      twoLookups).map (fun n ↦ n.conns[1]?.map fun conn ↦ (conn.caller, conn.reply)) =
        some (some ((1, 0),
          some (⟨⟨0, bytes "src", bytes "/y"⟩, 0, bytes "a/src/y.tar"⟩, 404))) := by
    decide +kernel
  obtain ⟨n, hrun, hn⟩ := Option.map_eq_some_iff.mp hmap
  obtain ⟨conn, hk, hconn⟩ := Option.map_eq_some_iff.mp hn
  obtain ⟨hcaller, hreply⟩ := Prod.mk.inj hconn
  exact ⟨n, conn, _, _, hrun, hk, hcaller, hreply, rfl,
    net_ownRequest hrun hk (Or.inr ⟨conn, _, _, hk, hreply, rfl⟩)⟩

/-! ## Where a connection ends -/

theorem Conn.Settled.reply_iff {conn : Conn} (h : conn.Settled) :
    conn.reply ≠ none ↔ conn.failed = false ∧ ∃ r, conn.Asks r := by
  cases h with
  | replied hreply hasks hfailed =>
    exact iff_of_true (by simp [hreply]) ⟨hfailed, _, hasks⟩
  | dropped hreply hwhy =>
    refine iff_of_false (not_not_intro hreply) ?_
    rintro ⟨hfailed, r, msg, hsent, hparse⟩
    rcases hwhy with hwhy | ⟨msg', hsent', hparse'⟩ | ⟨hnone, -⟩
    · exact absurd (hwhy.symm.trans hfailed) (by simp)
    · obtain rfl := Option.some.inj (hsent.symm.trans hsent')
      exact absurd (hparse.symm.trans hparse') (by simp)
    · exact absurd (hnone.symm.trans hsent) (by simp)

theorem Net.Sound.shut_iff {k : ℕ} {conn : Conn} (hn : n.Sound) (hk : n.conns[k]? = some conn) :
    conn.serverOpen = false ↔ k ∈ n.away ∨
      ∃ i : ℕ, n.served[i]? = some (some k) ∧ n.daemon.threads[i]? = some .ended := by
  constructor
  · intro hshut
    rcases hn.fate hk with hopen | ⟨haway, -⟩ | ⟨i, pc, hi, hpc, hhandled⟩
    · exact absurd (hopen.2.2.symm.trans hshut) (by simp)
    · exact Or.inl haway
    · refine Or.inr ⟨i, hi, ?_⟩
      have hended : ¬pc ≠ .ended := by
        rw [← hhandled.isOpen, hshut]
        simp
      rw [hpc, not_not.mp hended]
  · rintro (haway | ⟨i, hi, hpc⟩)
    · exact (hn.handles.away k conn haway hk).2.2
    · rw [← Bool.not_eq_true, (hn.handles.handler i k _ conn hi hpc hk).isOpen]
      exact not_not_intro rfl

private theorem netLost_of_run
    (hrun : run (netStep cfg) (Net.start mounts (Daemon.start c now cache)) acts = some n)
    (hcreate : .daemon (.main (.create false)) ∉ acts) : n.lost = [] := by
  refine run_invariant (I := fun acts n ↦ .daemon (.main (.create false)) ∉ acts → n.lost = [])
    (fun _ ↦ rfl) (fun acts n act n' hn h hnot ↦ ?_) hrun hcreate
  rw [List.mem_append, not_or, List.mem_singleton] at hnot
  rw [← hn hnot.1]
  cases netStep_cases h with
  | io _ _ _ hio => cases hio <;> rfl
  | client | thread | tick => rfl
  | main h hn₁ =>
    unfold Net.main at hn₁
    split at hn₁
    · split at hn₁
      · obtain rfl := Option.some.inj hn₁
        rfl
      · split at hn₁
        · exact absurd hn₁ (by simp)
        · obtain rfl := Option.some.inj hn₁
          rfl
    · split at hn₁
      · obtain rfl := Option.some.inj hn₁
        rfl
      · obtain rfl := Option.some.inj hn₁
        rfl
    · obtain rfl := Option.some.inj hn₁
      rfl
    · exact absurd rfl hnot.2
    · obtain rfl := Option.some.inj hn₁
      rfl

/-- Nobody is at anything. -/
structure Net.AtRest (n : Net) : Prop where
  calls : ∀ s ∈ n.mounts, ∀ g ∈ s.calls, g.place = .returned
  handlers : ∀ pc ∈ n.daemon.threads, pc = .ended
  main : n.backlog = [] ∧ n.clientsock = none

/-- What becomes of the connections. -/
structure Orderly (acts : List NetAct) (n : Net) : Prop where
  /-- Each is at one place, -/
  places : n.places.Perm (List.range n.conns.length)
  /-- and has one handler at most. -/
  one : ∀ i j k : ℕ, n.served[i]? = some (some k) → n.served[j]? = some (some k) → i = j
  /-- The daemon closes one by turning it away, or when its handler ends. -/
  shut : ∀ (k : ℕ) (conn : Conn), n.conns[k]? = some conn → (conn.serverOpen = false ↔
    k ∈ n.away ∨ ∃ i : ℕ, n.served[i]? = some (some k) ∧ n.daemon.threads[i]? = some .ended)
  /-- By then it has been answered, exactly if a request came and nothing failed. -/
  answered : ∀ (i k : ℕ) (conn : Conn), n.served[i]? = some (some k) →
    n.daemon.threads[i]? = some .ended → n.conns[k]? = some conn →
    (conn.reply ≠ none ↔ conn.failed = false ∧ ∃ r, conn.Asks r)
  /-- In the end all are closed, but for those that were lost. -/
  rest : n.AtRest → ∀ (k : ℕ) (conn : Conn), n.conns[k]? = some conn →
    conn.clientOpen = false ∧ (conn.serverOpen = true ↔ k ∈ n.lost)
  lost : .daemon (.main (.create false)) ∉ acts → n.lost = []

/-- A handler writes to a connection that has not been answered. -/
def RepliesOnce (cfg : Config) (n : Net) (act : NetAct) : Prop :=
  ∀ (i k : ℕ) (conn : Conn), act = .daemon (.thread i .reply) → netStep cfg n act ≠ none →
    n.served[i]? = some (some k) → n.conns[k]? = some conn → conn.reply = none

theorem Net.Sound.repliesOnce (hn : n.Sound) (act : NetAct) : RepliesOnce cfg n act := by
  rintro i k conn rfl hstep hi hk
  obtain ⟨n', hn'⟩ := Option.ne_none_iff_exists'.mp hstep
  cases netStep_cases hn' with
  | thread hpc h =>
    have hcases := handlerStep_cases h
    cases hcases
    exact ((hn.handles.handler i k _ conn hi hpc hk).busy (by simp) (by simp)).1

theorem Net.Sound.rest {k : ℕ} {conn : Conn} (hn : n.Sound) (hrest : n.AtRest)
    (hk : n.conns[k]? = some conn) :
    conn.clientOpen = false ∧ (conn.serverOpen = true ↔ k ∈ n.lost) := by
  obtain ⟨hcalls, hhandlers, hbacklog, hsock⟩ := hrest
  constructor
  · obtain ⟨s, g, hs, hg, hholds⟩ := hn.called.holds k conn hk
    rw [← Bool.not_eq_true, hholds.isOpen,
      hcalls s (List.mem_of_getElem? hs) g (List.mem_of_getElem? hg)]
    exact not_not_intro rfl
  · rw [← not_iff_not, Bool.not_eq_true, hn.shut_iff hk]
    constructor
    · rintro hshut hlost
      have hopen := (hn.handles.waiting k conn (Or.inr (Or.inr hlost)) hk).2.2
      exact absurd (hopen.symm.trans ((hn.shut_iff hk).mpr hshut)) (by simp)
    · intro hnot
      rcases hn.placed.place hk with (hmem | hmem | hmem) | haway | ⟨i, pc, hi, hpc⟩
      · exact absurd (hbacklog ▸ hmem) List.not_mem_nil
      · exact absurd (hsock.symm.trans hmem) (by simp)
      · exact absurd hmem hnot
      · exact Or.inl haway
      · rw [hhandlers pc (List.mem_of_getElem? hpc)] at hpc
        exact Or.inr ⟨i, hi, hpc⟩

/-- **Every connection ends once.** In any run, every connection is at one place and at most one
handler has it; it is answered at most once, and closed at both ends. Only `pthread_create` loses
connections. -/
theorem net_orderly
    (hrun : run (netStep cfg) (Net.start mounts (Daemon.start c now cache)) acts = some n) :
    AllSteps (netStep cfg) (RepliesOnce cfg) (Net.start mounts (Daemon.start c now cache)) acts ∧
      Orderly acts n := by
  have hn := netSound_of_run hrun
  have hany : AllSteps (netStep cfg) (fun _ _ ↦ True)
      (Net.start mounts (Daemon.start c now cache)) acts :=
    AllSteps.of_forall_mem fun _ _ _ ↦ trivial
  refine ⟨hany.of_invariant (I := Net.Sound) (netStart_sound mounts c now cache)
    (fun _ _ _ hn _ h ↦ hn.step h) fun _ act hn _ ↦ hn.repliesOnce act, hn.placed.perm,
    fun i j k hi hj ↦ (hn.placed.apart_served hj).2 i hi, fun k conn hk ↦ hn.shut_iff hk,
    fun i k conn hi hpc hk ↦ ?_, fun hrest k conn hk ↦ hn.rest hrest hk, netLost_of_run hrun⟩
  exact ((hn.handles.handler i k _ conn hi hpc hk).settled (Or.inr rfl)).reply_iff

/-- A call is woken and returns. -/
def returnWoken (p : ℕ) : List NetAct :=
  [.client p (.io 0 (.timer (.wake 1))), .client p (.io 0 (.timer .finish)),
    .client p (.io 0 .close)]

/-- The two lookups, to their end. -/
def twoLookupsDone : List NetAct :=
  twoLookups ++ returnWoken 0 ++ [.daemon (.thread 0 .finish), .daemon (.thread 1 .finish)] ++
    returnWoken 1

theorem net_orderly_twoLookups : ∃ n,
    run (netStep emptyArchives)
      (Net.start [(bytes "lib", 100), (bytes "src", 100)] (Daemon.start 0 0 Cache.empty))
      twoLookupsDone = some n ∧
    n.conns.map (fun conn ↦ (conn.clientOpen, conn.serverOpen)) =
      [(false, false), (false, false)] ∧
    AllSteps (netStep emptyArchives) (RepliesOnce emptyArchives)
      (Net.start [(bytes "lib", 100), (bytes "src", 100)] (Daemon.start 0 0 Cache.empty))
      twoLookupsDone ∧
    Orderly twoLookupsDone n := by
  have hmap : (run (netStep emptyArchives)
      (Net.start [(bytes "lib", 100), (bytes "src", 100)] (Daemon.start 0 0 Cache.empty))
      twoLookupsDone).map (fun n ↦
        n.conns.map fun conn ↦ (conn.clientOpen, conn.serverOpen)) =
          some [(false, false), (false, false)] := by
    decide +kernel
  obtain ⟨n, hrun, hn⟩ := Option.map_eq_some_iff.mp hmap
  exact ⟨n, hrun, hn, net_orderly hrun⟩

/-! ## What a wake-up means -/

/-- What `select` has found when it wakes the call `i` of the process `p`: a reply to the request of
that very call, a connection that was turned away or given up, or that the daemon has exited. -/
def WokenFor (cfg : Config) (n : Net) (act : NetAct) : Prop :=
  ∀ (p i : ℕ) (ret : ℤ) (s : TryProcess) (g : Getter),
    act = .client p (.io i (.timer (.wake ret))) → 0 < ret → netStep cfg n act ≠ none →
    n.mounts[p]? = some s → s.calls[i]? = some g →
    n.daemon.loop = .exited ∨ ∃ (k : ℕ) (conn : Conn), n.conns[k]? = some conn ∧
      conn.caller = (p, i) ∧
      ((∃ job ret, conn.reply = some (job, ret) ∧ OwnRequest n conn job.request) ∨
        k ∈ n.away ∨
        (∃ j : ℕ, n.served[j]? = some (some k) ∧ n.daemon.threads[j]? = some .ended) ∧
          (conn.failed = true ∨
            parseRequest (requestBuffer (readMessage (g.args.message s.pfx))) = some none))

theorem readable_of_wake {p i : ℕ} {ret : ℤ} {s : TryProcess} {g : Getter} (hret : 0 < ret)
    (h : netStep cfg n (.client p (.io i (.timer (.wake ret)))) = some n')
    (hp : n.mounts[p]? = some s) (hi : s.calls[i]? = some g) :
    (∃ fd, g.place = .wait fd) ∧
      ∃ conn ∈ n.conns, conn.caller = (p, i) ∧ n.Readable conn := by
  obtain ⟨s₀, hs₀, hrest⟩ := Option.bind_eq_some_iff.mp h
  obtain rfl := Option.some.inj (hp.symm.trans hs₀)
  obtain ⟨s', hs', hrest⟩ := Option.bind_eq_some_iff.mp hrest
  obtain ⟨n₁, hn₁, -⟩ := Option.map_eq_some_iff.mp hrest
  rw [Net.client, hi, Option.bind_some, Net.io] at hn₁
  split at hn₁
  next hready =>
    refine ⟨?_, hready hret⟩
    cases tryStep_cases hs' with
    | io hi' hplace =>
      obtain rfl := Option.some.inj (hi.symm.trans hi')
      generalize g.place = place at hplace
      cases hplace
      exact ⟨_, rfl⟩
  · exact absurd hn₁ (by simp)

theorem Net.Sound.wokenFor (hn : n.Sound) (act : NetAct) : WokenFor cfg n act := by
  rintro p i ret s g rfl hret hstep hp hi
  obtain ⟨n', hn'⟩ := Option.ne_none_iff_exists'.mp hstep
  obtain ⟨⟨fd, hplace⟩, conn, hmem, hcaller, hreadable⟩ := readable_of_wake hret hn' hp hi
  obtain ⟨k, hk⟩ := List.mem_iff_getElem?.mp hmem
  have hreplied : ∀ {job ret}, conn.reply = some (job, ret) →
      OwnRequest n conn job.request := fun hreply ↦
    hn.ownRequest hk (Or.inr ⟨conn, _, _, hk, hreply, rfl⟩)
  rcases hreadable with hreply | hshut | hexited
  · obtain ⟨⟨job, ret⟩, hreply⟩ := Option.ne_none_iff_exists'.mp hreply
    exact Or.inr ⟨k, conn, hk, hcaller, Or.inl ⟨job, ret, hreply, hreplied hreply⟩⟩
  · refine Or.inr ⟨k, conn, hk, hcaller, ?_⟩
    rcases (hn.shut_iff hk).mp hshut with haway | ⟨j, hj, hpc⟩
    · exact Or.inr (Or.inl haway)
    · cases (hn.handles.handler j k _ conn hj hpc hk).settled (Or.inr rfl) with
      | replied hreply => exact Or.inl ⟨_, _, hreply, hreplied hreply⟩
      | dropped hreply hwhy =>
        refine Or.inr (Or.inr ⟨⟨j, hj, hpc⟩, ?_⟩)
        obtain ⟨s₀, g₀, hs₀, hg₀, hholds⟩ := hn.called.holds k conn hk
        rw [hcaller, hp, Option.some_inj] at hs₀
        rw [hcaller, ← hs₀, hi, Option.some_inj] at hg₀
        rw [← hs₀, ← hg₀] at hholds
        rcases hwhy with hfailed | ⟨msg, hsent, hparse⟩ | ⟨-, hclosed⟩
        · exact Or.inl hfailed
        · exact Or.inr (hholds.sent msg hsent ▸ hparse)
        · -- a call that waits has its end open
          have hopen := hholds.isOpen.mpr (by simp [hplace, Place.fd])
          exact absurd (hopen.symm.trans hclosed) (by simp)
  · exact Or.inl hexited

/-- **What a wake-up means.** A call of `try_to_get` that does not run into its timeout has been
answered for its own request, or turned away, or the daemon has refused the message, failed to read
it, or exited: the answers for other calls never wake it. -/
theorem net_wokenFor (cfg : Config) (mounts : List (Bytes × ℤ)) (c : Int32) (now : Int64)
    (cache : Cache) (acts : List NetAct) :
    AllSteps (netStep cfg) (WokenFor cfg) (Net.start mounts (Daemon.start c now cache)) acts := by
  have hany : AllSteps (netStep cfg) (fun _ _ ↦ True)
      (Net.start mounts (Daemon.start c now cache)) acts :=
    AllSteps.of_forall_mem fun _ _ _ ↦ trivial
  exact hany.of_invariant (I := Net.Sound) (netStart_sound mounts c now cache)
    (fun _ _ _ hn _ h ↦ hn.step h) fun _ act hn _ ↦ hn.wokenFor act

end ClrDebugInfo
