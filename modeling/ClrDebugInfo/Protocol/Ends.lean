import ClrDebugInfo.Protocol.Net

/-!
# The two ends of a connection

What the call that has made a connection and the handler that has got it say of it, kept by every
step of the system. The client's end says whose message was sent (`Net.Called`), the daemon's end
what has been read and answered (`Net.Handles`). A step of one end leaves what the other end says
true: the daemon does not touch the client's end at all, and a client does to its own end only what
`Conn.After` allows.
-/

namespace ClrDebugInfo

variable {cfg : Config} {n n' : Net}

/-! ## The ends of the clients -/

/-- What a call says of the connection that it has made. -/
structure Getter.Holds (pfx : Bytes) (g : Getter) (c : Conn) : Prop where
  connected : g.place ≠ .socket ∧ ∀ fd, g.place ≠ .connect fd
  isOpen : c.clientOpen = true ↔ g.place.fd ≠ none
  unsent : ∀ fd, g.place = .peer fd ∨ g.place = .format fd ∨ g.place = .send fd → c.sent = none
  sent : ∀ m, c.sent = some m → m = g.args.message pfx

/-- Every connection is that of a call, and no call has two. -/
structure Net.Called (n : Net) : Prop where
  holds : ∀ (k : ℕ) (c : Conn), n.conns[k]? = some c → ∃ s g,
    n.mounts[c.caller.1]? = some s ∧ s.calls[c.caller.2]? = some g ∧ g.Holds s.pfx c
  nodup : (n.conns.map Conn.caller).Nodup

/-- The end of the client after a step of a call. -/
def Conn.client (c : Conn) (msg : Bytes) : IoAct → Conn
  | .write true => { c with sent := some msg }
  | .close => { c with clientOpen := false }
  | _ => c

theorem PlaceStep.holds {s s' : TryProcess} {i : ℕ} {g : Getter} {place' : Place} {a : IoAct}
    {c : Conn} {formatted : Bool} (h : PlaceStep s i g.args g.place a s' place')
    (hc : g.Holds s.pfx c) : a ≠ .connect true ∧
      Getter.Holds s.pfx ⟨g.args, place', formatted⟩ (c.client (g.args.message s.pfx) a) := by
  obtain ⟨hconnected, hopen, hunsent, hsent⟩ := hc
  generalize hplace : g.place = place at h hconnected hopen hunsent
  cases h with
  | noSocket | socket => exact absurd rfl hconnected.1
  | connect | refused => exact absurd rfl (hconnected.2 _)
  | recursion | noMemory =>
    refine ⟨by simp, by simp, ?_, by simp, hsent⟩
    simpa [Place.fd, Conn.client] using hopen
  | peer | format =>
    refine ⟨by simp, by simp, ?_, ?_, hsent⟩
    · simpa [Place.fd, Conn.client] using hopen
    · simpa [Conn.client] using hunsent
  | @write fd ok =>
    cases ok with
    | true =>
      refine ⟨by simp, by simp, ?_, by simp, fun m hm ↦ (Option.some.inj hm).symm⟩
      simpa [Place.fd, Conn.client] using hopen
    | false =>
      refine ⟨by simp, by simp, ?_, by simp, hsent⟩
      simpa [Place.fd, Conn.client] using hopen
  | timer =>
    refine ⟨by simp, by simp, ?_, by simp, hsent⟩
    simpa [Place.fd, Conn.client] using hopen
  | leave | giveUp => exact ⟨by simp, by simp, by simp [Place.fd, Conn.client], by simp, hsent⟩

theorem IoStep.conns {n₁ : Net} {caller : ℕ × ℕ} {msg : Bytes} {a : IoAct}
    (h : IoStep n caller msg a n₁) {k : ℕ} {c' : Conn} (hc' : n₁.conns[k]? = some c') :
    (∃ c, n.conns[k]? = some c ∧ c' = if c.caller = caller then c.client msg a else c) ∨
      a = .connect true ∧ k = n.conns.length ∧ c' = Conn.new caller := by
  have hedit : ∀ {f : Conn → Conn}, (n.edit caller f)[k]? = some c' →
      ∃ c, n.conns[k]? = some c ∧ c' = if c.caller = caller then f c else c := by
    intro f hf
    rw [Net.edit, List.getElem?_map, Option.map_eq_some_iff] at hf
    obtain ⟨c, hc, rfl⟩ := hf
    exact ⟨c, hc, rfl⟩
  cases h with
  | connect =>
    rcases getElem?_concat_cases hc' with hc | ⟨rfl, rfl⟩
    · exact Or.inl ⟨c', hc, (ite_self c').symm⟩
    · exact Or.inr ⟨rfl, rfl, rfl⟩
  | write | close => exact Or.inl (hedit hc')
  | other ha =>
    refine Or.inl ⟨c', hc', ?_⟩
    rw [Conn.client, ite_self]
    · exact fun h ↦ ha.2.1 h
    · exact fun h ↦ ha.2.2 h

/-- What a step of the daemon leaves alone. -/
def Conn.clientEnd (c : Conn) : (ℕ × ℕ) × Option Bytes × Bool := (c.caller, c.sent, c.clientOpen)

private theorem map_set_of_eq {α β : Type} {l : List α} {f : α → β} {k : ℕ} {x x' : α}
    (hx : l[k]? = some x) (h : f x' = f x) : (l.set k x').map f = l.map f := by
  obtain ⟨hk, rfl⟩ := List.getElem?_eq_some_iff.mp hx
  rw [List.map_set, h, ← List.getElem_map f (h := by simpa using hk), List.set_getElem_self]

private theorem map_modify_of_eq {α β : Type} {l : List α} {f : α → β} {g : α → α} (k : ℕ)
    (h : ∀ x, f (g x) = f x) : (l.modify k g).map f = l.map f := by
  refine List.ext_getElem? fun j ↦ ?_
  rw [List.getElem?_map, List.getElem?_map, List.getElem?_modify]
  cases l[j]? with
  | none => rfl
  | some x =>
    by_cases hkj : k = j
    · simp [hkj, h]
    · simp [hkj]

theorem Net.Called.of_daemon (hn : n.Called) (hmounts : n'.mounts = n.mounts)
    (hconns : n'.conns.map Conn.clientEnd = n.conns.map Conn.clientEnd) : n'.Called := by
  constructor
  · intro k c' hc'
    have hk : (n.conns.map Conn.clientEnd)[k]? = some c'.clientEnd := by
      rw [← hconns, List.getElem?_map, hc', Option.map_some]
    rw [List.getElem?_map, Option.map_eq_some_iff] at hk
    obtain ⟨c, hc, heq⟩ := hk
    obtain ⟨hcaller, hrest⟩ := Prod.mk.inj heq
    obtain ⟨hsent, hopen⟩ := Prod.mk.inj hrest
    obtain ⟨s, g, hs, hg, hholds⟩ := hn.holds k c hc
    rw [hmounts, ← hcaller]
    exact ⟨s, g, hs, hg, hholds.connected, hopen ▸ hholds.isOpen, hsent ▸ hholds.unsent,
      hsent ▸ hholds.sent⟩
  · have hcallers : ∀ l : List Conn, l.map Conn.caller = (l.map Conn.clientEnd).map (·.1) :=
      fun l ↦ by
        rw [List.map_map]
        rfl
    rw [hcallers, hconns, ← hcallers]
    exact hn.nodup

private theorem handler_clientEnd {c c' : Conn} {pc : Pc} {a : HandlerAct}
    (h : c.handler pc a = some c') : c'.clientEnd = c.clientEnd := by
  unfold Conn.handler at h
  split at h
  · obtain rfl := Option.some.inj h
    rfl
  · split at h
    · obtain rfl := Option.some.inj h
      rfl
    · exact absurd h (by simp)
  all_goals
    obtain rfl := Option.some.inj h
    rfl

private theorem main_clientEnd {a : MainAct} {n₁ : Net} (h : n.main a = some n₁) :
    n₁.mounts = n.mounts ∧ n₁.conns.map Conn.clientEnd = n.conns.map Conn.clientEnd := by
  unfold Net.main at h
  split at h
  · split at h
    · obtain rfl := Option.some.inj h
      exact ⟨rfl, rfl⟩
    · split at h
      · exact absurd h (by simp)
      · obtain rfl := Option.some.inj h
        exact ⟨rfl, rfl⟩
  · split at h
    · obtain rfl := Option.some.inj h
      refine ⟨rfl, ?_⟩
      simp only
      split
      · rfl
      · exact map_modify_of_eq _ fun c ↦ rfl
    · obtain rfl := Option.some.inj h
      exact ⟨rfl, rfl⟩
  all_goals
    obtain rfl := Option.some.inj h
    exact ⟨rfl, rfl⟩

private theorem edit_caller (caller : ℕ × ℕ) {f : Conn → Conn} (hf : ∀ c, (f c).caller = c.caller) :
    (n.edit caller f).map Conn.caller = n.conns.map Conn.caller := by
  rw [Net.edit, List.map_map]
  refine List.map_congr_left fun c _ ↦ ?_
  rw [Function.comp_apply]
  split
  · exact hf c
  · rfl

private theorem client_caller (c : Conn) (msg : Bytes) (a : IoAct) :
    (c.client msg a).caller = c.caller := by
  unfold Conn.client
  split <;> rfl

/-- **One step of a call**, as the connections of its process see it. -/
theorem Net.Called.io {p i : ℕ} {a : IoAct} {g : Getter} {s s₁ s' : TryProcess} {place' : Place}
    {n₁ : Net} {formatted : Bool} (hn : n.Called) (hp : n.mounts[p]? = some s)
    (hi : s.calls[i]? = some g) (h : PlaceStep s i g.args g.place a s₁ place')
    (hio : IoStep n (p, i) (g.args.message s.pfx) a n₁)
    (hcalls : s'.calls = s.calls.set i ⟨g.args, place', formatted⟩) (hpfx : s'.pfx = s.pfx) :
    Net.Called { n₁ with mounts := n.mounts.set p s' } := by
  have hp' : (n.mounts.set p s')[p]? = some s' :=
    List.getElem?_set_self (List.getElem?_eq_some_iff.mp hp).1
  have hi' : s'.calls[i]? = some ⟨g.args, place', formatted⟩ := by
    rw [hcalls]
    exact List.getElem?_set_self (List.getElem?_eq_some_iff.mp hi).1
  -- a connection of this call, and what its step makes of it
  have hown : ∀ (k : ℕ) (c : Conn), n.conns[k]? = some c → c.caller = (p, i) →
      a ≠ .connect true ∧
        Getter.Holds s.pfx ⟨g.args, place', formatted⟩ (c.client (g.args.message s.pfx) a) := by
    intro k c hc hcaller
    obtain ⟨s₀, g₀, hs₀, hg₀, hholds⟩ := hn.holds k c hc
    rw [hcaller, hp, Option.some_inj] at hs₀
    rw [hcaller, ← hs₀, hi, Option.some_inj] at hg₀
    rw [← hs₀, ← hg₀] at hholds
    exact h.holds hholds
  constructor
  · intro k c' hc'
    rcases hio.conns hc' with ⟨c, hc, rfl⟩ | ⟨rfl, rfl, rfl⟩
    · by_cases hcaller : c.caller = (p, i)
      · rw [if_pos hcaller, client_caller, hcaller]
        exact ⟨s', _, hp', hi', hpfx ▸ (hown k c hc hcaller).2⟩
      · rw [if_neg hcaller]
        obtain ⟨s₀, g₀, hs₀, hg₀, hholds⟩ := hn.holds k c hc
        by_cases hsame : p = c.caller.1
        · have hne : i ≠ c.caller.2 := fun hi ↦ hcaller (Prod.ext hsame.symm hi.symm)
          rw [← hsame, hp, Option.some_inj] at hs₀
          subst hs₀
          refine ⟨s', g₀, hsame ▸ hp', ?_, hpfx ▸ hholds⟩
          rw [hcalls, List.getElem?_set_ne hne]
          exact hg₀
        · refine ⟨s₀, g₀, ?_, hg₀, hholds⟩
          rw [← hs₀]
          exact List.getElem?_set_ne hsame
    · refine ⟨s', _, hp', hi', ?_⟩
      generalize g.place = place at h
      cases h
      exact ⟨by simp, by simp [Conn.new, Place.fd], fun _ _ ↦ rfl, fun m hm ↦ by cases hm⟩
  · cases hio with
    | connect =>
      rw [List.map_append, List.map_singleton, List.nodup_append]
      refine ⟨hn.nodup, List.nodup_singleton _, fun x hx y hy heq ↦ ?_⟩
      obtain ⟨c, hc, rfl⟩ := List.mem_map.mp hx
      obtain ⟨k, hk⟩ := List.mem_iff_getElem?.mp hc
      exact (hown k c hk (heq.trans (List.mem_singleton.mp hy))).1 rfl
    | write | close =>
      rw [edit_caller]
      · exact hn.nodup
      · exact fun _ ↦ rfl
    | other => exact hn.nodup

theorem Net.Called.step {act : NetAct} (hn : n.Called) (h : NetStep cfg n act n') :
    n'.Called := by
  cases h with
  | io hp hi h hio =>
    obtain ⟨hcalls, hpfx⟩ := h.calls_pfx
    exact hn.io hp hi h hio (by rw [hcalls]) hpfx
  | main _ hn₁ =>
    obtain ⟨hmounts, hconns⟩ := main_clientEnd hn₁
    exact hn.of_daemon hmounts hconns
  | tick => exact hn.of_daemon rfl rfl
  | thread _ _ hconns =>
    rcases handler_cases hconns with ⟨rfl, -⟩ | ⟨k, c, c', -, hc, hc', rfl⟩
    · exact hn.of_daemon rfl rfl
    · exact hn.of_daemon rfl (map_set_of_eq hc (handler_clientEnd hc'))
  | @client p a s s' hp h ha =>
    refine ⟨fun k c hc ↦ ?_, hn.nodup⟩
    obtain ⟨s₀, g, hs₀, hg, hholds⟩ := hn.holds k c hc
    by_cases hp' : p = c.caller.1
    · have hplt : p < n.mounts.length := (List.getElem?_eq_some_iff.mp hp).1
      rw [← hp', hp, Option.some_inj] at hs₀
      subst hs₀
      refine ⟨s', g, hp' ▸ List.getElem?_set_self hplt, ?_⟩
      cases h with
      | io => exact absurd rfl (ha _ _)
      | tick => exact ⟨hg, hholds⟩
      | enter =>
        refine ⟨?_, hholds⟩
        rw [List.getElem?_append_left (List.getElem?_eq_some_iff.mp hg).1]
        exact hg
    · refine ⟨s₀, g, ?_, hg, hholds⟩
      rw [← hs₀]
      exact List.getElem?_set_ne hp'

/-! ## The ends of the daemon -/

/-- The request that a handler has in hand. -/
def Pc.request : Pc → Option Request
  | .parsed r => some r
  | .built job | .admitted job | .received job _ | .filled job _ | .tested job _
  | .extracting job _ _ | .returned job _ => some job.request
  | _ => none

/-- The request that the message of a connection makes. -/
def Conn.Asks (c : Conn) (r : Request) : Prop :=
  ∃ msg, c.sent = some msg ∧ parseRequest (requestBuffer (readMessage msg)) = some (some r)

/-- The message of a connection is none that the daemon takes. -/
def Conn.Refused (c : Conn) : Prop :=
  ∃ msg, c.sent = some msg ∧ parseRequest (requestBuffer (readMessage msg)) = some none

/-- The client has gone without a message. -/
def Conn.Silent (c : Conn) : Prop := c.sent = none ∧ c.clientOpen = false

/-- How an exchange ends: with a reply to the request, or without one for one of three reasons. -/
inductive Conn.Settled (c : Conn) : Prop
  | replied {job ret} (hreply : c.reply = some (job, ret)) (hasks : c.Asks job.request)
    (hfailed : c.failed = false)
  | dropped (hreply : c.reply = none) (hwhy : c.failed = true ∨ c.Refused ∨ c.Silent)

/-- What a connection has seen by the time its handler is at a place. -/
structure Conn.Handled (c : Conn) (pc : Pc) : Prop where
  asks : ∀ r, pc.request = some r → c.Asks r
  busy : pc ≠ .leaving → pc ≠ .ended → c.reply = none ∧ c.failed = false
  isOpen : c.serverOpen = true ↔ pc ≠ .ended
  settled : pc = .leaving ∨ pc = .ended → c.Settled

/-- A connection that no handler has. -/
def Conn.Untouched (c : Conn) (serverOpen : Bool) : Prop :=
  c.reply = none ∧ c.failed = false ∧ c.serverOpen = serverOpen

/-- Every connection has seen what its place says. -/
structure Net.Handles (n : Net) : Prop where
  handler : ∀ (i k : ℕ) (pc : Pc) (c : Conn), n.served[i]? = some (some k) →
    n.daemon.threads[i]? = some pc → n.conns[k]? = some c → c.Handled pc
  waiting : ∀ (k : ℕ) (c : Conn), k ∈ n.backlog ∨ n.clientsock = some k ∨ k ∈ n.lost →
    n.conns[k]? = some c → c.Untouched true
  away : ∀ (k : ℕ) (c : Conn), k ∈ n.away → n.conns[k]? = some c → c.Untouched false

/-- What a client can do to its end. -/
structure Conn.After (c c' : Conn) : Prop where
  reply : c'.reply = c.reply
  failed : c'.failed = c.failed
  serverOpen : c'.serverOpen = c.serverOpen
  sent : ∀ m, c.sent = some m → c'.sent = some m
  silent : c.Silent → c'.Silent

theorem Conn.After.refl (c : Conn) : c.After c := ⟨rfl, rfl, rfl, fun _ h ↦ h, fun h ↦ h⟩

theorem Conn.Asks.after {c c' : Conn} {r : Request} (h : c.Asks r) (hafter : c.After c') :
    c'.Asks r := by
  obtain ⟨msg, hsent, hparse⟩ := h
  exact ⟨msg, hafter.sent msg hsent, hparse⟩

theorem Conn.Settled.after {c c' : Conn} (h : c.Settled) (hafter : c.After c') : c'.Settled := by
  cases h with
  | replied hreply hasks hfailed =>
    exact .replied (hafter.reply.trans hreply) (hasks.after hafter) (hafter.failed.trans hfailed)
  | dropped hreply hwhy =>
    refine .dropped (hafter.reply.trans hreply) ?_
    rcases hwhy with hfailed | ⟨msg, hsent, hparse⟩ | hsilent
    · exact Or.inl (hafter.failed.trans hfailed)
    · exact Or.inr (Or.inl ⟨msg, hafter.sent msg hsent, hparse⟩)
    · exact Or.inr (Or.inr (hafter.silent hsilent))

theorem Conn.Handled.after {c c' : Conn} {pc : Pc} (h : c.Handled pc) (hafter : c.After c') :
    c'.Handled pc where
  asks r hr := (h.asks r hr).after hafter
  busy hleaving hended := by
    rw [hafter.reply, hafter.failed]
    exact h.busy hleaving hended
  isOpen := by
    rw [hafter.serverOpen]
    exact h.isOpen
  settled hpc := (h.settled hpc).after hafter

theorem Conn.Untouched.after {c c' : Conn} {b : Bool} (h : c.Untouched b) (hafter : c.After c') :
    c'.Untouched b :=
  ⟨hafter.reply.trans h.1, hafter.failed.trans h.2.1, hafter.serverOpen.trans h.2.2⟩

private theorem read_leaves {sh sh' : Shared} {fd : ℤ} {msg : Option Bytes} (hfd : 0 ≤ fd)
    (h : handlerStep cfg sh (.entry fd) (.read msg) = some (sh', .leaving)) :
    msg = none ∨ ∃ m, msg = some m ∧ parseRequest (requestBuffer m) = some none := by
  cases msg with
  | none => exact Or.inl rfl
  | some m =>
    refine Or.inr ⟨m, rfl, ?_⟩
    rw [handlerStep, if_neg (by omega)] at h
    split at h
    · exact absurd h (by simp)
    next hparse => exact hparse
    · exact absurd h (by simp)

/-- **One step of a handler**, as its connection sees it. -/
theorem Conn.Handled.step {conn conn' : Conn} {sh sh' : Shared} {pc pc' : Pc} {a : HandlerAct}
    (hc : conn.Handled pc) (hfd : ∀ fd, pc = .entry fd → 0 ≤ fd)
    (h : handlerStep cfg sh pc a = some (sh', pc')) (hconn : conn.handler pc a = some conn') :
    conn'.Handled pc' := by
  obtain ⟨hasks, hbusy, hopen, hsettled⟩ := hc
  have hcases := handlerStep_cases h
  cases hcases with
  | @quit fd msg =>
    obtain ⟨hreply, hfailed⟩ := hbusy (by simp) (by simp)
    have hopen' : conn.serverOpen = true := hopen.mpr (by simp)
    rcases read_leaves (hfd fd rfl) h with rfl | ⟨m, rfl, hparse⟩
    · obtain rfl := Option.some.inj hconn
      exact ⟨by simp [Pc.request], by simp, by simpa using hopen', fun _ ↦
        .dropped hreply (Or.inl rfl)⟩
    · rw [Conn.handler] at hconn
      split at hconn
      next hoffers =>
        obtain rfl := Option.some.inj hconn
        refine ⟨by simp [Pc.request], by simp, by simpa using hopen', fun _ ↦
          .dropped hreply (Or.inr ?_)⟩
        rcases hoffers with hsent | ⟨hsent, hclosed, -⟩
        · obtain ⟨msg, hmsg, rfl⟩ := Option.map_eq_some_iff.mp hsent
          exact Or.inl ⟨msg, hmsg, hparse⟩
        · exact Or.inr ⟨hsent, hclosed⟩
      · exact absurd hconn (by simp)
  | @parse fd msg r _ hparse =>
    rw [Conn.handler] at hconn
    split at hconn
    next hoffers =>
      obtain rfl := Option.some.inj hconn
      refine ⟨fun r' hr' ↦ ?_, fun _ _ ↦ hbusy (by simp) (by simp), by simpa using hopen, by simp⟩
      obtain rfl := Option.some.inj hr'
      rcases hoffers with hsent | ⟨-, -, rfl⟩
      · obtain ⟨m, hm, rfl⟩ := Option.map_eq_some_iff.mp hsent
        exact ⟨m, hm, hparse⟩
      · -- nothing at all is no request
        have hempty : parseRequest (requestBuffer []) = some none := by decide +kernel
        exact absurd (hempty.symm.trans hparse) (by simp)
    · exact absurd hconn (by simp)
  | noUrl =>
    obtain rfl := Option.some.inj hconn
    obtain ⟨hreply, -⟩ := hbusy (by simp) (by simp)
    exact ⟨by simp [Pc.request], by simp, by simpa using hopen, fun _ ↦
      .dropped hreply (Or.inl rfl)⟩
  | reply =>
    obtain rfl := Option.some.inj hconn
    obtain ⟨-, hfailed⟩ := hbusy (by simp) (by simp)
    obtain ⟨m, hm⟩ := hasks _ rfl
    exact ⟨by simp [Pc.request], by simp, by simpa using hopen, fun _ ↦
      .replied rfl ⟨m, hm⟩ hfailed⟩
  | finish =>
    obtain rfl := Option.some.inj hconn
    refine ⟨by simp [Pc.request], by simp, by simp, fun _ ↦ ?_⟩
    cases hsettled (Or.inl rfl) with
    | replied hreply hasks hfailed => exact .replied hreply hasks hfailed
    | dropped hreply hwhy => exact .dropped hreply hwhy
  | _ =>
    obtain rfl := Option.some.inj hconn
    refine ⟨fun r hr ↦ hasks r ?_, fun _ _ ↦ hbusy (by simp) (by simp), by simpa using hopen,
      by simp⟩
    simpa [Pc.request] using hr

theorem Net.Placed.apart_sock {k : ℕ} (hn : n.Placed) (hk : n.clientsock = some k) :
    k ∉ n.backlog ∧ some k ∉ n.served ∧ k ∉ n.away ∧ k ∉ n.lost := by
  have hcount := List.nodup_iff_count_le_one.mp hn.nodup k
  simp only [Net.places, List.count_append, hk, Option.toList_some, List.count_singleton_self]
    at hcount
  have hnone : ∀ {l : List ℕ}, l.count k = 0 → k ∉ l := List.count_eq_zero.mp
  refine ⟨hnone (by omega), fun hmem ↦ ?_, hnone (by omega), hnone (by omega)⟩
  exact hnone (l := n.served.reduceOption) (by omega) (List.reduceOption_mem_iff.mpr hmem)

theorem Net.Placed.apart_served {i k : ℕ} (hn : n.Placed) (hi : n.served[i]? = some (some k)) :
    (k ∉ n.backlog ∧ n.clientsock ≠ some k ∧ k ∉ n.away ∧ k ∉ n.lost) ∧
      ∀ j, n.served[j]? = some (some k) → j = i := by
  have hmem : k ∈ n.served.reduceOption :=
    List.reduceOption_mem_iff.mpr (List.mem_of_getElem? hi)
  have hpos := List.one_le_count_iff.mpr hmem
  have hcount := List.nodup_iff_count_le_one.mp hn.nodup k
  simp only [Net.places, List.count_append] at hcount
  have hnone : ∀ {l : List ℕ}, l.count k = 0 → k ∉ l := List.count_eq_zero.mp
  refine ⟨⟨hnone (by omega), fun hsock ↦ ?_, hnone (by omega), hnone (by omega)⟩, fun j hj ↦ ?_⟩
  · rw [hsock, Option.toList_some, List.count_singleton_self] at hcount
    omega
  · have hnodup := hn.nodup
    rw [Net.places, List.nodup_append, List.nodup_append, List.nodup_append] at hnodup
    exact served_injective hnodup.1.1.2.1 hj hi

private theorem client_after {c : Conn} {msg : Bytes} {a : IoAct}
    (hwrite : a = .write true → c.sent = none ∧ c.clientOpen = true) :
    c.After (c.client msg a) := by
  unfold Conn.client
  split
  · obtain ⟨hsent, hopen⟩ := hwrite rfl
    refine ⟨rfl, rfl, rfl, fun m hm ↦ ?_, fun hsilent ↦ ?_⟩
    · rw [hsent] at hm
      exact absurd hm (by simp)
    · exact absurd (hopen.symm.trans hsilent.2) (by simp)
  · exact ⟨rfl, rfl, rfl, fun _ h ↦ h, fun hsilent ↦ ⟨hsilent.1, rfl⟩⟩
  · exact Conn.After.refl c

theorem Net.Handles.io {p i : ℕ} {a : IoAct} {g : Getter} {s s₁ : TryProcess} {place' : Place}
    {n₁ : Net} (hn : n.Handles) (hplaced : n.Placed) (hcalled : n.Called)
    (hp : n.mounts[p]? = some s) (hi : s.calls[i]? = some g)
    (h : PlaceStep s i g.args g.place a s₁ place')
    (hio : IoStep n (p, i) (g.args.message s.pfx) a n₁) (mounts : List TryProcess) :
    Net.Handles { n₁ with mounts } := by
  -- a connection that is there is what it was, but for the client's end
  have hold : ∀ (k : ℕ) (c' : Conn), k < n.conns.length → n₁.conns[k]? = some c' →
      ∃ c, n.conns[k]? = some c ∧ c.After c' := by
    intro k c' hk hc'
    rcases hio.conns hc' with ⟨c, hc, rfl⟩ | ⟨-, rfl, -⟩
    · refine ⟨c, hc, ?_⟩
      split
      next hcaller =>
        refine client_after fun hwrite ↦ ?_
        obtain ⟨s₀, g₀, hs₀, hg₀, hholds⟩ := hcalled.holds k c hc
        rw [hcaller, hp, Option.some_inj] at hs₀
        rw [hcaller, ← hs₀, hi, Option.some_inj] at hg₀
        subst hwrite
        rw [← hg₀] at hholds
        generalize hplace : g.place = place at h
        cases h
        refine ⟨hholds.unsent _ (Or.inr (Or.inr hplace)), hholds.isOpen.mpr ?_⟩
        simp [hplace, Place.fd]
      · exact Conn.After.refl c
    · exact absurd hk (by omega)
  have hlists : n₁.served = n.served ∧ n₁.daemon = n.daemon ∧ n₁.clientsock = n.clientsock ∧
      n₁.away = n.away ∧ n₁.lost = n.lost := by
    cases hio <;> exact ⟨rfl, rfl, rfl, rfl, rfl⟩
  obtain ⟨hserved, hdaemon, hsock, haway, hlost⟩ := hlists
  have hlt : ∀ k, k ∈ n.backlog ∨ n.clientsock = some k ∨ k ∈ n.lost ∨ some k ∈ n.served ∨
      k ∈ n.away → k < n.conns.length := by
    intro k hk
    refine hplaced.lt ?_
    simp only [Net.places, List.mem_append, Option.mem_toList,
      List.reduceOption_mem_iff]
    tauto
  refine ⟨fun j k pc c' hj hpc hc' ↦ ?_, fun k c' hk hc' ↦ ?_, fun k c' hk hc' ↦ ?_⟩
  · simp only [hserved] at hj
    simp only [hdaemon] at hpc
    obtain ⟨c, hc, hafter⟩ := hold k c' (hlt k (by simp [List.mem_of_getElem? hj])) hc'
    exact (hn.handler j k pc c hj hpc hc).after hafter
  · simp only [hsock, hlost] at hk
    rcases hio.conns hc' with ⟨c, hc, -⟩ | ⟨-, -, rfl⟩
    · have hk' : k < n.conns.length := (List.getElem?_eq_some_iff.mp hc).1
      obtain ⟨c, hc, hafter⟩ := hold k c' hk' hc'
      refine (hn.waiting k c ?_ hc).after hafter
      cases hio with
      | connect =>
        rcases hk with hmem | hrest
        · rcases List.mem_append.mp hmem with hmem | hmem
          · exact Or.inl hmem
          · exact absurd (List.mem_singleton.mp hmem) (by omega)
        · exact Or.inr hrest
      | _ => exact hk
    · exact ⟨rfl, rfl, rfl⟩
  · simp only [haway] at hk
    obtain ⟨c, hc, hafter⟩ := hold k c' (hlt k (by simp [hk])) hc'
    exact (hn.away k c hk hc).after hafter

theorem Net.Handles.main {a : MainAct} {d : Daemon} {n₁ : Net} (hn : n.Handles)
    (hplaced : n.Placed) (h : MainStep n.daemon n.daemon.loop a d) (hn₁ : n.main a = some n₁) :
    Net.Handles { n₁ with daemon := d } := by
  have hsock := hplaced.sock
  generalize n.daemon.loop = l at h hsock
  cases h with
  | @accept fd =>
    rw [Net.main] at hn₁
    split at hn₁
    · obtain rfl := Option.some.inj hn₁
      exact ⟨hn.handler, hn.waiting, hn.away⟩
    · split at hn₁
      · exact absurd hn₁ (by simp)
      next k ks hbacklog =>
        obtain rfl := Option.some.inj hn₁
        refine ⟨hn.handler, fun j c hj hc ↦ hn.waiting j c ?_ hc, hn.away⟩
        rcases hj with hj | hj | hj
        · exact Or.inl (hbacklog ▸ List.mem_cons_of_mem k hj)
        · obtain rfl := Option.some.inj hj
          exact Or.inl (hbacklog ▸ List.mem_cons_self)
        · exact Or.inr (Or.inr hj)
  | @full fd hfull =>
    rw [Net.main, if_pos hfull] at hn₁
    obtain rfl := Option.some.inj hn₁
    cases hk : n.clientsock with
    | none =>
      refine ⟨hn.handler, fun j c hj hc ↦ hn.waiting j c ?_ hc, fun j c hj hc ↦ ?_⟩
      · simpa [hk] using hj
      · exact hn.away j c (by simpa using hj) hc
    | some k =>
      -- the connection in hand is shut, and the others are not
      obtain ⟨hbacklog, hserved, haway, hlost⟩ := hplaced.apart_sock hk
      have hother : ∀ (j : ℕ) (c : Conn), k ≠ j →
          (n.conns.modify k fun c ↦ { c with serverOpen := false })[j]? = some c →
          n.conns[j]? = some c := by
        intro j c hkj hc
        rwa [List.getElem?_modify_ne _ _ hkj] at hc
      refine ⟨fun i j pc c hj hpc hc ↦ ?_, fun j c hj hc ↦ ?_, fun j c hj hc ↦ ?_⟩
      · refine hn.handler i j pc c hj hpc (hother j c ?_ hc)
        rintro rfl
        exact hserved (List.mem_of_getElem? hj)
      · have hj' : j ∈ n.backlog ∨ j ∈ n.lost := by simpa using hj
        refine hn.waiting j c (hj'.imp_right Or.inr) (hother j c ?_ hc)
        rintro rfl
        exact hj'.elim hbacklog hlost
      · by_cases hkj : k = j
        · subst hkj
          simp only [List.getElem?_modify_eq, Option.map_eq_map, Option.map_eq_some_iff] at hc
          obtain ⟨c₀, hc₀, rfl⟩ := hc
          obtain ⟨hreply, hfailed, -⟩ := hn.waiting k c₀ (Or.inr (Or.inl hk)) hc₀
          exact ⟨hreply, hfailed, rfl⟩
        · refine hn.away j c ?_ (hother j c hkj hc)
          have hj' : j ∈ n.away ∨ j = k := by simpa using hj
          exact hj'.resolve_right (Ne.symm hkj)
  | room hroom =>
    rw [Net.main, if_neg (by omega)] at hn₁
    obtain rfl := Option.some.inj hn₁
    exact ⟨hn.handler, hn.waiting, hn.away⟩
  | @create fd =>
    obtain rfl := Option.some.inj hn₁
    refine ⟨fun i k pc c hi hpc hc ↦ ?_, fun k c hk hc ↦ hn.waiting k c ?_ hc, hn.away⟩
    · have hlength := hplaced.length
      rcases getElem?_concat_cases hi with hi | ⟨rfl, hk⟩
      · rcases getElem?_concat_cases hpc with hpc | ⟨rfl, -⟩
        · exact hn.handler i k pc c hi hpc hc
        · exact absurd (List.getElem?_eq_some_iff.mp hi).1 (by omega)
      · rcases getElem?_concat_cases hpc with hpc | ⟨-, rfl⟩
        · exact absurd (List.getElem?_eq_some_iff.mp hpc).1 (by omega)
        · obtain ⟨hreply, hfailed, hopen⟩ := hn.waiting k c (Or.inr (Or.inl hk.symm)) hc
          exact ⟨by simp [Pc.request], fun _ _ ↦ ⟨hreply, hfailed⟩, by simpa using hopen, by simp⟩
    · rcases hk with hk | hk | hk
      · exact Or.inl hk
      · exact absurd hk (by simp)
      · exact Or.inr (Or.inr hk)
  | noThread =>
    obtain rfl := Option.some.inj hn₁
    refine ⟨hn.handler, fun k c hk hc ↦ hn.waiting k c ?_ hc, hn.away⟩
    simp only [List.mem_append, Option.mem_toList, reduceCtorEq, false_or] at hk
    rcases hk with hk | hk | hk
    · exact Or.inl hk
    · exact Or.inr (Or.inr hk)
    · exact Or.inr (Or.inl hk)
  | _ =>
    obtain rfl := Option.some.inj hn₁
    exact ⟨hn.handler, hn.waiting, hn.away⟩

theorem Net.Handles.step {act : NetAct} (hn : n.Handles) (hplaced : n.Placed)
    (hcalled : n.Called) (h : NetStep cfg n act n') : n'.Handles := by
  cases h with
  | io hp hi h hio => exact hn.io hplaced hcalled hp hi h hio _
  | client => exact ⟨hn.handler, hn.waiting, hn.away⟩
  | main h hn₁ => exact hn.main hplaced h hn₁
  | tick => exact ⟨hn.handler, hn.waiting, hn.away⟩
  | @thread i a pc sh' pc' conns hpc h hconns =>
    rcases handler_cases hconns with ⟨rfl, hnone⟩ | ⟨k, c, c', hi, hc, hc', rfl⟩
    · refine ⟨fun j k pc c hj hpc hc ↦ ?_, hn.waiting, hn.away⟩
      rcases thread_of_set hpc with ⟨rfl, -⟩ | ⟨-, hpc⟩
      · exact absurd hj (hnone k)
      · exact hn.handler j k pc c hj hpc hc
    · obtain ⟨⟨hbacklog, hsock, haway, hlost⟩, honly⟩ := hplaced.apart_served hi
      have hother : ∀ (j : ℕ) (d : Conn), k ≠ j → (n.conns.set k c')[j]? = some d →
          n.conns[j]? = some d := by
        intro j d hkj hd
        rwa [List.getElem?_set_ne hkj] at hd
      refine ⟨fun j k₁ pc₁ d hj hpc₁ hd ↦ ?_, fun j d hj hd ↦ ?_, fun j d hj hd ↦ ?_⟩
      · rcases thread_of_set hpc₁ with ⟨rfl, rfl⟩ | ⟨hji, hpc₁⟩
        · obtain rfl := Option.some.inj (Option.some.inj (hi.symm.trans hj))
          simp only [List.getElem?_set_self (List.getElem?_eq_some_iff.mp hc).1] at hd
          obtain rfl := Option.some.inj hd
          refine (hn.handler j k pc c hi hpc hc).step ?_ h hc'
          rintro fd rfl
          exact (hplaced.entry j (some k) fd hi hpc).mp (by simp)
        · refine hn.handler j k₁ pc₁ d hj hpc₁ (hother k₁ d ?_ hd)
          rintro rfl
          exact hji (honly j hj)
      · refine hn.waiting j d hj (hother j d ?_ hd)
        rintro rfl
        exact hj.elim hbacklog fun hj ↦ hj.elim hsock hlost
      · refine hn.away j d hj (hother j d ?_ hd)
        rintro rfl
        exact haway hj

end ClrDebugInfo
