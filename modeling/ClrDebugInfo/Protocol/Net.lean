import Mathlib.Data.List.ReduceOption
import ClrDebugInfo.Client.TryToGet
import ClrDebugInfo.Server.Daemon

/-!
# Clients and daemon

The FUSE processes and the daemon on one socket: the calls of `try_to_get` of any number of
processes (`tryStep`), `main` and the handlers of one daemon (`step`), and the connections between
them. A step is one of a process or of the daemon, with what it does to a connection.

The kernel is modelled as far as it carries the exchange. A connection waits in the backlog until
`accept` takes the first one; a message is delivered whole, as the one `write` sent it; `read`
returns nothing if the other end is closed and has sent nothing; and `select` finds a connection
readable once something has been written to it or its other end is closed. Every call may fail.

Where the connections are is kept apart from what they have seen: that no two handlers share one is
a matter of the places alone (`Net.Placed`).
-/

namespace ClrDebugInfo

open Runs

/-! ## The system -/

/-- A connection. -/
structure Conn where
  /-- The process that has made it, and the call there. -/
  caller : ℕ × ℕ
  /-- What has been written at the end of the client. -/
  sent : Option Bytes
  clientOpen : Bool
  serverOpen : Bool
  -- the rest is history
  /-- The "ok", with the fetch before it and what `curl_get_file` returned. -/
  reply : Option (Job × ℕ)
  /-- A `read` or the `asprintf` of the URL has failed in its handler. -/
  failed : Bool

/-- A connection that has just been made. -/
def Conn.new (caller : ℕ × ℕ) : Conn := ⟨caller, none, true, true, none, false⟩

/-- The processes, the daemon, and the connections in the order in which they were made. The lists
below hold the numbers of connections. -/
structure Net where
  mounts : List TryProcess
  daemon : Daemon
  conns : List Conn
  /-- The connections to be accepted. -/
  backlog : List ℕ
  /-- The connection that `main` has in hand. -/
  clientsock : Option ℕ
  /-- The connection of each handler, if it was given one. -/
  served : List (Option ℕ)
  /-- The connections that were turned away. -/
  away : List ℕ
  /-- The connections for which `pthread_create` failed. -/
  lost : List ℕ

inductive NetAct
  | client (p : ℕ) (a : TryAct)
  | daemon (a : Act)

/-- What `select` finds ready. -/
def Net.Readable (n : Net) (c : Conn) : Prop :=
  c.reply ≠ none ∨ c.serverOpen = false ∨ n.daemon.loop = .exited

instance (n : Net) (c : Conn) : Decidable (n.Readable c) :=
  inferInstanceAs (Decidable (_ ∨ _ ∨ _))

/-- The connections after a change to that of one call. -/
def Net.edit (n : Net) (caller : ℕ × ℕ) (f : Conn → Conn) : List Conn :=
  n.conns.map fun c ↦ if c.caller = caller then f c else c

/-- What a step of a call does to its connection; `msg` is its message. -/
def Net.io (n : Net) (caller : ℕ × ℕ) (msg : Bytes) : IoAct → Option Net
  | .connect true => some { n with
      conns := n.conns ++ [Conn.new caller]
      backlog := n.backlog ++ [n.conns.length] }
  | .write true => some { n with conns := n.edit caller fun c ↦ { c with sent := some msg } }
  | .close => some { n with conns := n.edit caller fun c ↦ { c with clientOpen := false } }
  | .timer (.wake ret) =>
    if 0 < ret → ∃ c ∈ n.conns, c.caller = caller ∧ n.Readable c then some n else none
  | _ => some n

/-- A step of a process. -/
def Net.client (n : Net) (p : ℕ) (s : TryProcess) : TryAct → Option Net
  | .io i a => s.calls[i]?.bind fun g ↦ n.io (p, i) (g.args.message s.pfx) a
  | _ => some n

/-- What `read` can return at the end of the daemon. -/
def Conn.Offers (c : Conn) (msg : Bytes) : Prop :=
  c.sent.map readMessage = some msg ∨ c.sent = none ∧ c.clientOpen = false ∧ msg = []

instance (c : Conn) (msg : Bytes) : Decidable (c.Offers msg) :=
  inferInstanceAs (Decidable (_ ∨ _))

/-- What a step of a handler that stands at a place does to its connection. -/
def Conn.handler (c : Conn) : Pc → HandlerAct → Option Conn
  | .entry _, .read none => some { c with failed := true }
  | .entry _, .read (some msg) => if c.Offers msg then some c else none
  | .parsed _, .makeUrl false => some { c with failed := true }
  | .returned job ret, .reply => some { c with reply := some (job, ret) }
  | .leaving, .finish => some { c with serverOpen := false }
  | _, _ => some c

/-- A step of the handler `i`. One that was given no connection does nothing to any. -/
def Net.handler (n : Net) (i : ℕ) (pc : Pc) (a : HandlerAct) : Option (List Conn) :=
  match n.served[i]?.join with
  | none => some n.conns
  | some k => n.conns[k]?.bind fun c ↦ (c.handler pc a).map fun c' ↦ n.conns.set k c'

/-- A step of `main`. -/
def Net.main (n : Net) : MainAct → Option Net
  | .accept fd =>
    if fd < 0 then some n
    else
      match n.backlog with
      | [] => none
      | k :: ks => some { n with backlog := ks, clientsock := some k }
  | .check =>
    if maxConnections ≤ n.daemon.sh.count then
      -- `shutdown` and `close`
      some { n with
        conns := match n.clientsock with
          | none => n.conns
          | some k => n.conns.modify k fun c ↦ { c with serverOpen := false }
        clientsock := none
        away := n.away ++ n.clientsock.toList }
    else some n
  | .create true => some { n with clientsock := none, served := n.served ++ [n.clientsock] }
  | .create false => some { n with clientsock := none, lost := n.lost ++ n.clientsock.toList }
  | _ => some n

/-- One step of the system. -/
def netStep (cfg : Config) (n : Net) : NetAct → Option Net
  | .client p a => n.mounts[p]?.bind fun s ↦ (tryStep s a).bind fun s' ↦
      (n.client p s a).map fun n' ↦ { n' with mounts := n.mounts.set p s' }
  | .daemon (.main a) => (step cfg n.daemon (.main a)).bind fun daemon ↦
      (n.main a).map fun n' ↦ { n' with daemon }
  | .daemon (.thread i a) => n.daemon.threads[i]?.bind fun pc ↦
      (step cfg n.daemon (.thread i a)).bind fun daemon ↦
        (n.handler i pc a).map fun conns ↦ { n with daemon, conns }
  | .daemon (.tick seconds now) =>
    (step cfg n.daemon (.tick seconds now)).map fun daemon ↦ { n with daemon }

/-- The processes of some mounts, each with its prefix, and a daemon, before the first call. -/
def Net.start (mounts : List (Bytes × ℤ)) (daemon : Daemon) : Net :=
  ⟨mounts.map fun m ↦ TryProcess.start m.1 m.2, daemon, [], [], none, [], [], []⟩

/-! ## What a step can do -/

variable {cfg : Config} {n n' : Net}

/-- What a step of a call does to the connections. -/
inductive IoStep (n : Net) (caller : ℕ × ℕ) (msg : Bytes) : IoAct → Net → Prop
  | connect : IoStep n caller msg (.connect true)
      { n with conns := n.conns ++ [Conn.new caller], backlog := n.backlog ++ [n.conns.length] }
  | write : IoStep n caller msg (.write true)
      { n with conns := n.edit caller fun c ↦ { c with sent := some msg } }
  | close : IoStep n caller msg .close
      { n with conns := n.edit caller fun c ↦ { c with clientOpen := false } }
  | other {a} (ha : a ≠ .connect true ∧ a ≠ .write true ∧ a ≠ .close) : IoStep n caller msg a n

theorem io_cases {caller : ℕ × ℕ} {msg : Bytes} {a : IoAct} (h : n.io caller msg a = some n') :
    IoStep n caller msg a n' := by
  unfold Net.io at h
  split at h
  · obtain rfl := Option.some.inj h
    exact .connect
  · obtain rfl := Option.some.inj h
    exact .write
  · obtain rfl := Option.some.inj h
    exact .close
  · split at h
    · obtain rfl := Option.some.inj h
      exact .other (by simp)
    · exact absurd h (by simp)
  next hconnect hwrite hclose _ =>
    obtain rfl := Option.some.inj h
    exact .other ⟨hconnect, hwrite, hclose⟩

/-- The steps of the system. -/
inductive NetStep (cfg : Config) (n : Net) : NetAct → Net → Prop
  | io {p i a g s s₁ place' n₁} (hp : n.mounts[p]? = some s) (hi : s.calls[i]? = some g)
    (h : PlaceStep s i g.args g.place a s₁ place')
    (hn : IoStep n (p, i) (g.args.message s.pfx) a n₁) :
    NetStep cfg n (.client p (.io i a)) { n₁ with mounts := n.mounts.set p { s₁ with
      calls := s₁.calls.set i ⟨g.args, place', g.formatted || decide (a = .format true)⟩ } }
  | client {p a s s'} (hp : n.mounts[p]? = some s) (h : TryStep s a s')
    (ha : ∀ i b, a ≠ .io i b) :
    NetStep cfg n (.client p a) { n with mounts := n.mounts.set p s' }
  | main {a d n₁} (h : MainStep n.daemon n.daemon.loop a d) (hn : n.main a = some n₁) :
    NetStep cfg n (.daemon (.main a)) { n₁ with daemon := d }
  | thread {i a pc sh' pc' conns} (hpc : n.daemon.threads[i]? = some pc)
    (h : handlerStep cfg n.daemon.sh pc a = some (sh', pc'))
    (hn : n.handler i pc a = some conns) :
    NetStep cfg n (.daemon (.thread i a)) { n with
      daemon := { n.daemon with sh := sh', threads := n.daemon.threads.set i pc' }
      conns }
  | tick {seconds now} : NetStep cfg n (.daemon (.tick seconds now)) { n with
      daemon := { n.daemon with
        sh := { n.daemon.sh with elapsed := n.daemon.sh.elapsed + seconds, now := now } } }

theorem netStep_cases {act : NetAct} (h : netStep cfg n act = some n') :
    NetStep cfg n act n' := by
  cases act with
  | client p a =>
    obtain ⟨s, hp, hrest⟩ := Option.bind_eq_some_iff.mp h
    obtain ⟨s', hs', hrest⟩ := Option.bind_eq_some_iff.mp hrest
    obtain ⟨n₁, hn, rfl⟩ := Option.map_eq_some_iff.mp hrest
    cases tryStep_cases hs' with
    | @io i a g s₁ place' hi hstep =>
      rw [Net.client, hi, Option.bind_some] at hn
      exact .io hp hi hstep (io_cases hn)
    | tick hcalls =>
      obtain rfl := Option.some.inj hn
      exact .client hp (.tick hcalls) (by simp)
    | enter hcalls =>
      obtain rfl := Option.some.inj hn
      exact .client hp (.enter hcalls) (by simp)
  | daemon act =>
    cases act with
    | main a =>
      obtain ⟨d, hd, hrest⟩ := Option.bind_eq_some_iff.mp h
      obtain ⟨n₁, hn, rfl⟩ := Option.map_eq_some_iff.mp hrest
      exact .main (mainStep_cases hd) hn
    | thread i a =>
      obtain ⟨pc, hpc, hrest⟩ := Option.bind_eq_some_iff.mp h
      obtain ⟨d, hd, hrest⟩ := Option.bind_eq_some_iff.mp hrest
      obtain ⟨conns, hn, rfl⟩ := Option.map_eq_some_iff.mp hrest
      rw [step, hpc] at hd
      split at hd
      · exact absurd hd (by simp)
      · obtain ⟨⟨sh', pc'⟩, hstep, rfl⟩ := Option.map_eq_some_iff.mp hd
        exact .thread hpc hstep hn
    | tick seconds now =>
      obtain ⟨d, hd, rfl⟩ := Option.map_eq_some_iff.mp h
      rw [step] at hd
      split at hd
      · exact absurd hd (by simp)
      · obtain rfl := Option.some.inj hd
        exact .tick

/-! ## Where the connections are -/

/-- What `accept` has returned, while `main` has it in hand. -/
def Loop.fd : Loop → Option ℤ
  | .accepted fd | .admitted fd | .counted fd => some fd
  | _ => none

/-- The connections by place. -/
def Net.places (n : Net) : List ℕ :=
  n.backlog ++ n.clientsock.toList ++ n.served.reduceOption ++ n.away ++ n.lost

/-- Every connection is at one place, and every handler is given what `accept` has returned. -/
structure Net.Placed (n : Net) : Prop where
  perm : n.places.Perm (List.range n.conns.length)
  length : n.served.length = n.daemon.threads.length
  sock : n.clientsock ≠ none ↔ ∃ fd, n.daemon.loop.fd = some fd ∧ 0 ≤ fd
  entry : ∀ (i : ℕ) (o : Option ℕ) (fd : ℤ), n.served[i]? = some o →
    n.daemon.threads[i]? = some (.entry fd) → (o ≠ none ↔ 0 ≤ fd)

theorem Net.Placed.nodup (hn : n.Placed) : n.places.Nodup := hn.perm.nodup_iff.mpr List.nodup_range

theorem Net.Placed.lt (hn : n.Placed) {k : ℕ} (hk : k ∈ n.places) : k < n.conns.length :=
  List.mem_range.mp (hn.perm.mem_iff.mp hk)

theorem served_injective {served : List (Option ℕ)} (h : served.reduceOption.Nodup) {i j k : ℕ}
    (hi : served[i]? = some (some k)) (hj : served[j]? = some (some k)) : i = j := by
  induction served generalizing i j with
  | nil => exact absurd hi (by simp)
  | cons o served ih =>
    have hmem : ∀ {i : ℕ}, served[i]? = some (some k) → k ∈ served.reduceOption :=
      fun h ↦ List.reduceOption_mem_iff.mpr (List.mem_of_getElem? h)
    have htail : served.reduceOption.Nodup := by
      cases o with
      | none => exact h
      | some k' => exact (List.nodup_cons.mp h).2
    cases i with
    | zero =>
      cases j with
      | zero => rfl
      | succ j =>
        obtain rfl := Option.some.inj hi
        exact absurd (hmem hj) (List.nodup_cons.mp h).1
    | succ i =>
      cases j with
      | zero =>
        obtain rfl := Option.some.inj hj
        exact absurd (hmem hi) (List.nodup_cons.mp h).1
      | succ j => exact congrArg Nat.succ (ih htail hi hj)

theorem Net.Placed.of_client {n₁ : Net} {caller : ℕ × ℕ} {msg : Bytes} {a : IoAct}
    (hn : n.Placed) (h : IoStep n caller msg a n₁) (mounts : List TryProcess) :
    Net.Placed { n₁ with mounts } := by
  obtain ⟨hperm, hlength, hsock, hentry⟩ := hn
  cases h with
  | connect =>
    refine ⟨?_, hlength, hsock, hentry⟩
    rw [List.perm_iff_count] at hperm ⊢
    intro k
    have hk := hperm k
    simp only [Net.places, List.count_append, List.length_append, List.length_singleton,
      List.range_succ] at hk ⊢
    omega
  | write | close => exact ⟨by simpa [Net.places, Net.edit] using hperm, hlength, hsock, hentry⟩
  | other => exact ⟨hperm, hlength, hsock, hentry⟩

theorem Net.Placed.main {a : MainAct} {d : Daemon} {n₁ : Net} (hn : n.Placed)
    (h : MainStep n.daemon n.daemon.loop a d) (hn₁ : n.main a = some n₁) :
    Net.Placed { n₁ with daemon := d } := by
  obtain ⟨hperm, hlength, hsock, hentry⟩ := hn
  rw [Net.places, List.perm_iff_count] at hperm
  generalize n.daemon.loop = l at h hsock
  cases h with
  | @accept fd =>
    have hnone : n.clientsock = none := by
      by_contra hsome
      exact absurd (hsock.mp hsome) (by simp [Loop.fd])
    rw [Net.main] at hn₁
    split at hn₁
    next hneg =>
      obtain rfl := Option.some.inj hn₁
      refine ⟨List.perm_iff_count.mpr hperm, hlength, ?_, hentry⟩
      simp only [hnone, Loop.fd]
      simpa using hneg
    next hfd =>
      split at hn₁
      · exact absurd hn₁ (by simp)
      next k ks hbacklog =>
        obtain rfl := Option.some.inj hn₁
        refine ⟨List.perm_iff_count.mpr fun j ↦ ?_, hlength, ?_, hentry⟩
        · have hj := hperm j
          simp only [hbacklog, hnone, Net.places, List.count_append, Option.toList_none,
            Option.toList_some, List.count_nil, List.count_cons] at hj ⊢
          omega
        · simpa [Loop.fd] using hfd
  | @full fd hfull =>
    rw [Net.main, if_pos hfull] at hn₁
    obtain rfl := Option.some.inj hn₁
    refine ⟨List.perm_iff_count.mpr fun j ↦ ?_, hlength, by simp [Loop.fd], hentry⟩
    have hj := hperm j
    have hlen : ∀ (o : Option ℕ) (f : Conn → Conn), (match o with
        | none => n.conns
        | some k => n.conns.modify k f).length = n.conns.length := by
      intro o f
      split
      · rfl
      · exact List.length_modify ..
    simp only [Net.places, List.count_append, Option.toList_none, List.count_nil, hlen] at hj ⊢
    omega
  | room hroom =>
    rw [Net.main, if_neg (by omega)] at hn₁
    obtain rfl := Option.some.inj hn₁
    exact ⟨List.perm_iff_count.mpr hperm, hlength, hsock, hentry⟩
  | @create fd =>
    obtain rfl := Option.some.inj hn₁
    refine ⟨List.perm_iff_count.mpr fun j ↦ ?_, by simp [hlength], by simp [Loop.fd], ?_⟩
    · have hj := hperm j
      simp only [Net.places, List.reduceOption_append, List.reduceOption_singleton,
        List.count_append, Option.toList_none, List.count_nil] at hj ⊢
      omega
    · intro i o fd' hi hpc
      rcases getElem?_concat_cases hi with hi | ⟨rfl, rfl⟩
      · rcases getElem?_concat_cases hpc with hpc | ⟨rfl, -⟩
        · exact hentry i o fd' hi hpc
        · exact absurd (List.getElem?_eq_some_iff.mp hi).1 (by omega)
      · rcases getElem?_concat_cases hpc with hpc | ⟨-, heq⟩
        · exact absurd (List.getElem?_eq_some_iff.mp hpc).1 (by omega)
        · obtain rfl := Pc.entry.inj heq
          simpa [Loop.fd] using hsock
  | noThread =>
    obtain rfl := Option.some.inj hn₁
    refine ⟨List.perm_iff_count.mpr fun j ↦ ?_, hlength, by simp [Loop.fd], hentry⟩
    have hj := hperm j
    simp only [Net.places, List.count_append, Option.toList_none, List.count_nil] at hj ⊢
    omega
  | inc =>
    obtain rfl := Option.some.inj hn₁
    exact ⟨List.perm_iff_count.mpr hperm, hlength, hsock, hentry⟩
  | _ =>
    obtain rfl := Option.some.inj hn₁
    exact ⟨List.perm_iff_count.mpr hperm, hlength, by simpa [Loop.fd] using hsock, hentry⟩

theorem handler_cases {i : ℕ} {pc : Pc} {a : HandlerAct} {conns : List Conn}
    (h : n.handler i pc a = some conns) :
    (conns = n.conns ∧ ∀ k, n.served[i]? ≠ some (some k)) ∨
      ∃ k c c', n.served[i]? = some (some k) ∧ n.conns[k]? = some c ∧
        c.handler pc a = some c' ∧ conns = n.conns.set k c' := by
  rw [Net.handler] at h
  split at h
  next hnone =>
    obtain rfl := Option.some.inj h
    refine Or.inl ⟨rfl, fun k hk ↦ ?_⟩
    rw [hk] at hnone
    exact absurd hnone (by simp)
  next k hk =>
    obtain ⟨c, hc, hrest⟩ := Option.bind_eq_some_iff.mp h
    obtain ⟨c', hc', rfl⟩ := Option.map_eq_some_iff.mp hrest
    exact Or.inr ⟨k, c, c', Option.join_eq_some_iff.mp hk, hc, hc', rfl⟩

theorem HandlerStep.ne_entry {sh sh' : Shared} {pc pc' : Pc} {a : HandlerAct}
    (h : HandlerStep cfg sh pc a sh' pc') (fd : ℤ) : pc' ≠ .entry fd := by
  cases h <;> simp

theorem Net.Placed.step {act : NetAct} (hn : n.Placed) (h : NetStep cfg n act n') :
    n'.Placed := by
  cases h with
  | io _ _ _ hio => exact hn.of_client hio _
  | client => exact ⟨hn.perm, hn.length, hn.sock, hn.entry⟩
  | main h hn₁ => exact hn.main h hn₁
  | tick => exact ⟨hn.perm, hn.length, hn.sock, hn.entry⟩
  | @thread i a pc sh' pc' conns hpc h hconns =>
    have hlen : conns.length = n.conns.length := by
      rcases handler_cases hconns with ⟨rfl, -⟩ | ⟨k, c, c', -, -, -, rfl⟩
      · rfl
      · exact List.length_set
    refine ⟨by simpa [Net.places, hlen] using hn.perm, by simp [hn.length], hn.sock, ?_⟩
    intro j o fd hj hpc
    rcases thread_of_set hpc with ⟨-, heq⟩ | ⟨-, hpc⟩
    · exact absurd heq.symm ((handlerStep_cases h).ne_entry fd)
    · exact hn.entry j o fd hj hpc

end ClrDebugInfo
