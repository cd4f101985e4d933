import ClrDebugInfo.Protocol.Exchange

/-!
# What a lookup finds

A reply says that `curl_get_file` has returned, and what it returned decides what the client finds
when it looks again. After a 200 the archive has been extracted to its end, and every name in it is
in the cache from then on, with one exception. `tar` does not write over what is there: it takes the
name away and puts the entry there anew, so while another handler extracts the same entry again the
name can be missing, and it stays so if that `tar` ends with an error in between.
-/

namespace ClrDebugInfo

open Runs

variable {cfg : Config} {n n' n₀ : Net} {mounts : List (Bytes × ℤ)} {c : Int32} {now : Int64}
  {cache : Cache} {acts : List NetAct} {p : CachePath}

/-! ## Names in the cache -/

/-- The name under which a handler is to put an entry next. -/
def Pc.due : Pc → Option CachePath
  | .extracting job (m :: _) none => some ⟨job.request.pfx, m.name⟩
  | _ => none

/-- A handler is to put an entry under the name next. -/
def Net.Due (n : Net) (p : CachePath) : Prop :=
  ∃ (i : ℕ) (pc : Pc), n.daemon.threads[i]? = some pc ∧ pc.due = some p

/-- `tar` ends with an error when it is to put an entry under the name. -/
def BreaksOff (p : CachePath) (n : Net) (act : NetAct) : Prop :=
  ∃ (i : ℕ) (pc : Pc), act = .daemon (.thread i (.tarExit false)) ∧
    n.daemon.threads[i]? = some pc ∧ pc.due = some p

/-- The name is in the cache, unless it is being replaced: a handler is to put an entry there next,
or one was when its `tar` ended with an error, and nothing has had the name since then. -/
def Net.Keeps (cfg : Config) (n n₀ : Net) (acts : List NetAct) (p : CachePath) : Prop :=
  n.daemon.sh.cache.nodes p ≠ none ∨ n.Due p ∨
    Since (netStep cfg) (BreaksOff p) (fun n ↦ n.daemon.sh.cache.nodes p = none) n₀ acts

private theorem create_nodes_ne_none (c : Cache) (p q : CachePath) (content : Content) :
    q = p ∨ c.nodes q ≠ none → (c.create p content).1.nodes q ≠ none := by
  intro h
  cases content with
  | file | dir | symlink =>
    simp only [Cache.create]
    split
    · simp
    next hq => exact h.resolve_left hq

/-- A handler takes a name away only when it is to put an entry there, and does so next unless its
`tar` ends with an error. -/
private theorem HandlerStep.names {sh sh' : Shared} {pc pc' : Pc} {a : HandlerAct}
    (h : HandlerStep cfg sh pc a sh' pc') :
    (sh.cache.nodes p ≠ none → sh'.cache.nodes p ≠ none ∨ pc'.due = some p) ∧
      (pc.due = some p →
        sh'.cache.nodes p ≠ none ∨ pc'.due = some p ∨ a = .tarExit false) := by
  cases h with
  | @unlink job m ms =>
    refine ⟨fun hp ↦ ?_, fun hdue ↦ Or.inr (Or.inl hdue)⟩
    by_cases hpm : p = ⟨job.request.pfx, m.name⟩
    · exact Or.inr (congrArg some hpm.symm)
    · exact Or.inl (by simpa [Cache.unlink, hpm] using hp)
  | create =>
    refine ⟨fun hp ↦ Or.inl (create_nodes_ne_none _ _ _ _ (Or.inr hp)), fun hdue ↦ Or.inl ?_⟩
    exact create_nodes_ne_none _ _ _ _ (Or.inl (Option.some.inj hdue).symm)
  | breakOff => exact ⟨Or.inl, fun _ ↦ Or.inr (Or.inr rfl)⟩
  | _ => exact ⟨Or.inl, fun hdue ↦ absurd hdue (by simp [Pc.due])⟩

private theorem NetStep.names {act : NetAct} (h : NetStep cfg n act n')
    (hp : n.daemon.sh.cache.nodes p ≠ none ∨ n.Due p) :
    n'.daemon.sh.cache.nodes p ≠ none ∨ n'.Due p ∨ BreaksOff p n act := by
  have hsame : n'.daemon.sh.cache = n.daemon.sh.cache →
      (∀ (i : ℕ) (pc : Pc), n.daemon.threads[i]? = some pc → n'.daemon.threads[i]? = some pc) →
      n'.daemon.sh.cache.nodes p ≠ none ∨ n'.Due p ∨ BreaksOff p n act := by
    intro hcache hthreads
    rcases hp with hp | ⟨i, pc, hpc, hdue⟩
    · exact Or.inl (hcache ▸ hp)
    · exact Or.inr (Or.inl ⟨i, pc, hthreads i pc hpc, hdue⟩)
  cases h with
  | io _ _ _ hio => cases hio <;> exact hsame rfl fun _ _ hpc ↦ hpc
  | client | tick => exact hsame rfl fun _ _ hpc ↦ hpc
  | main h =>
    generalize n.daemon.loop = l at h
    cases h with
    | create =>
      refine hsame rfl fun i pc hpc ↦ ?_
      exact (List.getElem?_append_left (List.getElem?_eq_some_iff.mp hpc).1).trans hpc
    | _ => exact hsame rfl fun _ _ hpc ↦ hpc
  | @thread i a pc sh' pc' conns hpc h =>
    obtain ⟨hnode, hdue⟩ := (handlerStep_cases h).names (p := p)
    have hself : (n.daemon.threads.set i pc')[i]? = some pc' :=
      List.getElem?_set_self (List.getElem?_eq_some_iff.mp hpc).1
    rcases hp with hp | ⟨j, pc₀, hj, hp⟩
    · rcases hnode hp with hp | hp
      · exact Or.inl hp
      · exact Or.inr (Or.inl ⟨i, pc', hself, hp⟩)
    · by_cases hij : i = j
      · subst hij
        obtain rfl := Option.some.inj (hpc.symm.trans hj)
        rcases hdue hp with hp' | hp' | rfl
        · exact Or.inl hp'
        · exact Or.inr (Or.inl ⟨i, pc', hself, hp'⟩)
        · exact Or.inr (Or.inr ⟨i, pc, rfl, hpc, hp⟩)
      · exact Or.inr (Or.inl ⟨j, pc₀, (List.getElem?_set_ne hij).trans hj, hp⟩)

theorem Net.Keeps.step {act : NetAct} (hp : n.Keeps cfg n₀ acts p)
    (hrun : run (netStep cfg) n₀ acts = some n) (hstep : netStep cfg n act = some n') :
    n'.Keeps cfg n₀ (acts ++ [act]) p := by
  by_cases hmissing : n'.daemon.sh.cache.nodes p = none
  · have hafter : ∀ u, netStep cfg n act = some u → u.daemon.sh.cache.nodes p = none := by
      intro u hu
      rwa [← Option.some.inj (hstep.symm.trans hu)]
    rcases or_assoc.mpr hp with hp | hcut
    · rcases (netStep_cases hstep).names hp with hp' | hdue | hbreak
      · exact Or.inl hp'
      · exact Or.inr (Or.inl hdue)
      · exact Or.inr (Or.inr (Since.of_step hrun hbreak hafter))
    · refine Or.inr (Or.inr (hcut.concat fun u hu ↦ ?_))
      obtain ⟨t, ht, hact⟩ := run_concat_iff.mp hu
      obtain rfl := Option.some.inj (hrun.symm.trans ht)
      exact hafter u hact
  · exact Or.inl hmissing

/-! ## Downloads -/

/-- The archive that the handler `i` has downloaded. -/
def Downloaded (acts : List NetAct) (i : ℕ) (body : Bytes) : Prop :=
  ∃ t, .daemon (.thread i (.perform t)) ∈ acts ∧ t.code = 0 ∧ t.response = 200 ∧ t.body = body

/-- Every entry of a list has a name that meets `N`. -/
def HasNames (N : CachePath → Prop) (pfx : Bytes) (ms : List Member) : Prop :=
  ∀ m ∈ ms, N ⟨pfx, m.name⟩

/-- All of an archive that meets `D` has names that meet `N`. -/
def Extracted (cfg : Config) (N : CachePath → Prop) (D : Bytes → Prop) (job : Job) : Prop :=
  ∃ body ms, D body ∧ cfg.listing body = some ms ∧ HasNames N job.request.pfx ms

/-- What a handler has done with its download, if that meets `D` for its job. -/
def Pc.Extracts (cfg : Config) (N : CachePath → Prop) (D : Job → Bytes → Prop) : Pc → Prop
  | .received job body => body = [] ∨ D job body
  | .filled job body | .tested job body => D job body
  | .extracting job todo _ => ∃ body done, D job body ∧
      cfg.listing body = some (done ++ todo) ∧ HasNames N job.request.pfx done
  | .returned job ret => ret = 200 → Extracted cfg N (D job) job
  | _ => True

variable {N N' : CachePath → Prop}

theorem HasNames.mono {pfx : Bytes} {ms : List Member} (h : HasNames N pfx ms)
    (hN : ∀ p, N p → N' p) : HasNames N' pfx ms :=
  fun m hm ↦ hN _ (h m hm)

theorem Extracted.mono {D D' : Bytes → Prop} {job : Job} (h : Extracted cfg N D job)
    (hN : ∀ p, N p → N' p) (hD : ∀ body, D body → D' body) : Extracted cfg N' D' job := by
  obtain ⟨body, ms, hbody, hlist, hhas⟩ := h
  exact ⟨body, ms, hD body hbody, hlist, hhas.mono hN⟩

theorem Pc.Extracts.mono {D D' : Job → Bytes → Prop} {pc : Pc} (h : pc.Extracts cfg N D)
    (hN : ∀ p, N p → N' p) (hD : ∀ job body, D job body → D' job body) :
    pc.Extracts cfg N' D' := by
  cases pc with
  | received => exact h.imp_right (hD _ _)
  | filled | tested => exact hD _ _ h
  | extracting =>
    obtain ⟨body, done, hbody, hlist, hhas⟩ := h
    exact ⟨body, done, hD _ body hbody, hlist, hhas.mono hN⟩
  | returned => exact fun h200 ↦ (h h200).mono hN (hD _)
  | _ => trivial

/-- **One step of a handler.** -/
theorem HandlerStep.extracts {sh sh' : Shared} {pc pc' : Pc} {a : HandlerAct}
    {D D' : Job → Bytes → Prop} (h : HandlerStep cfg sh pc a sh' pc')
    (hpc : pc.Extracts cfg N D) (hN : ∀ p, N p → N' p)
    (hmade : ∀ p, sh'.cache.nodes p ≠ none → N' p) (hD : ∀ job body, D job body → D' job body)
    (hnew : ∀ job t, pc = .admitted job → a = .perform t → t.code = 0 → t.response = 200 →
      D' job t.body) :
    pc'.Extracts cfg N' D' := by
  cases h with
  | @receive job t h200 =>
    by_cases hcode : t.code = 0
    · rw [if_neg (not_not_intro hcode)]
      exact Or.inr (hnew job t rfl rfl hcode h200)
    · exact Or.inl (if_pos hcode)
  | refuse h200 => exact fun hret ↦ absurd hret h200
  | fill hbody => exact hD _ _ (hpc.resolve_left hbody)
  | valid => exact hD _ _ hpc
  | start hlist => exact ⟨_, [], hD _ _ hpc, hlist, fun m hm ↦ absurd hm List.not_mem_nil⟩
  | @create job m ms =>
    obtain ⟨body, done, hbody, hlist, hhas⟩ := hpc
    refine ⟨body, done ++ [m], hD _ body hbody, by simpa using hlist, fun m' hm' ↦ ?_⟩
    rcases List.mem_append.mp hm' with hm' | hm'
    · exact hN _ (hhas m' hm')
    · rw [List.mem_singleton.mp hm']
      exact hmade _ (create_nodes_ne_none _ _ _ _ (Or.inl rfl))
  | unlink | write | close =>
    obtain ⟨body, done, hbody, hlist, hhas⟩ := hpc
    exact ⟨body, done, hD _ body hbody, hlist, hhas.mono hN⟩
  | extracted =>
    obtain ⟨body, done, hbody, hlist, hhas⟩ := hpc
    exact fun _ ↦ ⟨body, done, hD _ body hbody, by simpa using hlist, hhas.mono hN⟩
  | drop | noCurl | noFile | empty | noTest | invalid | noExtract | breakOff =>
    exact fun hret ↦ absurd hret (by decide)
  | _ => trivial

/-! ## Replies -/

theorem NetStep.reply {act : NetAct} {k : ℕ} {conn' : Conn} {r : Job × ℕ}
    (h : NetStep cfg n act n') (hk : n'.conns[k]? = some conn') (hr : conn'.reply = some r) :
    (∃ conn, n.conns[k]? = some conn ∧ conn.reply = some r) ∨
      ∃ i : ℕ, n.served[i]? = some (some k) ∧ n.daemon.threads[i]? = some (.returned r.1 r.2) := by
  cases h with
  | io hp hi h hio =>
    rcases hio.conns hk with ⟨conn, hconn, rfl⟩ | ⟨-, -, rfl⟩
    · refine Or.inl ⟨conn, hconn, ?_⟩
      rw [← hr]
      split
      · unfold Conn.client
        split <;> rfl
      · rfl
    · exact absurd hr (by simp [Conn.new])
  | client | tick => exact Or.inl ⟨conn', hk, hr⟩
  | main h hn₁ =>
    unfold Net.main at hn₁
    split at hn₁
    · split at hn₁
      · obtain rfl := Option.some.inj hn₁
        exact Or.inl ⟨conn', hk, hr⟩
      · split at hn₁
        · exact absurd hn₁ (by simp)
        · obtain rfl := Option.some.inj hn₁
          exact Or.inl ⟨conn', hk, hr⟩
    · split at hn₁
      · obtain rfl := Option.some.inj hn₁
        simp only at hk
        split at hk
        · exact Or.inl ⟨conn', hk, hr⟩
        · rw [List.getElem?_modify, Option.map_eq_map, Option.map_eq_some_iff] at hk
          obtain ⟨conn, hconn, rfl⟩ := hk
          refine Or.inl ⟨conn, hconn, ?_⟩
          rw [← hr]
          split <;> rfl
      · obtain rfl := Option.some.inj hn₁
        exact Or.inl ⟨conn', hk, hr⟩
    all_goals
      obtain rfl := Option.some.inj hn₁
      exact Or.inl ⟨conn', hk, hr⟩
  | @thread i a pc sh' pc' conns hpc h hconns =>
    rcases handler_cases hconns with ⟨rfl, -⟩ | ⟨k₀, conn, conn₁, hi, hconn, hstep, rfl⟩
    · exact Or.inl ⟨conn', hk, hr⟩
    · by_cases hkk : k₀ = k
      · subst hkk
        simp only [List.getElem?_set_self (List.getElem?_eq_some_iff.mp hconn).1] at hk
        obtain rfl := Option.some.inj hk
        unfold Conn.handler at hstep
        split at hstep
        · obtain rfl := Option.some.inj hstep
          exact Or.inl ⟨conn, hconn, hr⟩
        · split at hstep
          · obtain rfl := Option.some.inj hstep
            exact Or.inl ⟨conn, hconn, hr⟩
          · exact absurd hstep (by simp)
        · obtain rfl := Option.some.inj hstep
          exact Or.inl ⟨conn, hconn, hr⟩
        · obtain rfl := Option.some.inj hstep
          obtain rfl := Option.some.inj hr
          exact Or.inr ⟨i, hi, hpc⟩
        all_goals
          obtain rfl := Option.some.inj hstep
          exact Or.inl ⟨conn, hconn, hr⟩
      · simp only [List.getElem?_set_ne hkk] at hk
        exact Or.inl ⟨conn', hk, hr⟩

private theorem thread_of_main {s d : Daemon} {a : MainAct} {j : ℕ} {pc : Pc}
    (h : MainStep s s.loop a d) (hj : d.threads[j]? = some pc) :
    s.threads[j]? = some pc ∨ ∃ fd, pc = .entry fd := by
  generalize s.loop = l at h
  cases h with
  | create => exact (thread_of_concat hj).imp_right fun h ↦ ⟨_, h⟩
  | _ => exact Or.inl hj

theorem NetStep.served {act : NetAct} {i : ℕ} {o : Option ℕ} (h : NetStep cfg n act n')
    (hi : n.served[i]? = some o) : n'.served[i]? = some o := by
  cases h with
  | io _ _ _ hio => cases hio <;> exact hi
  | client | tick | thread => exact hi
  | @main a d n₁ h hn₁ =>
    have hserved : n₁.served = n.served ∨ n₁.served = n.served ++ [n.clientsock] := by
      unfold Net.main at hn₁
      split at hn₁
      · split at hn₁
        · obtain rfl := Option.some.inj hn₁
          exact Or.inl rfl
        · split at hn₁
          · exact absurd hn₁ (by simp)
          · obtain rfl := Option.some.inj hn₁
            exact Or.inl rfl
      · split at hn₁
        · obtain rfl := Option.some.inj hn₁
          exact Or.inl rfl
        · obtain rfl := Option.some.inj hn₁
          exact Or.inl rfl
      · obtain rfl := Option.some.inj hn₁
        exact Or.inr rfl
      all_goals
        obtain rfl := Option.some.inj hn₁
        exact Or.inl rfl
    rcases hserved with hserved | hserved
    · simp only [hserved]
      exact hi
    · simp only [hserved]
      rw [List.getElem?_append_left (List.getElem?_eq_some_iff.mp hi).1]
      exact hi

/-! ## Every run -/

/-- What a handler is given meets `P` for its job. -/
def NetServes (P : Job → Bytes → Prop) (n : Net) (act : NetAct) : Prop :=
  ∀ i job t, act = .daemon (.thread i (.perform t)) →
    n.daemon.threads[i]? = some (.admitted job) → t.code = 0 → t.response = 200 → P job t.body

theorem Downloaded.concat {i : ℕ} {body : Bytes} (h : Downloaded acts i body) (act : NetAct) :
    Downloaded (acts ++ [act]) i body := by
  obtain ⟨t, hmem, ht⟩ := h
  exact ⟨t, List.mem_append_left _ hmem, ht⟩

/-- What the handlers have done with their downloads since `n₀`, and what the replies say. -/
structure Net.Fetches (cfg : Config) (P : Job → Bytes → Prop) (n n₀ : Net) (acts : List NetAct) :
    Prop where
  handlers : ∀ (i : ℕ) (pc : Pc), n.daemon.threads[i]? = some pc →
    pc.Extracts cfg (n.Keeps cfg n₀ acts) fun job body ↦ Downloaded acts i body ∧ P job body
  replies : ∀ (k : ℕ) (conn : Conn) (job : Job), n.conns[k]? = some conn →
    conn.reply = some (job, 200) → ∃ i : ℕ, n.served[i]? = some (some k) ∧
      Extracted cfg (n.Keeps cfg n₀ acts) (fun body ↦ Downloaded acts i body ∧ P job body) job

theorem Net.Fetches.step {P : Job → Bytes → Prop} {act : NetAct} (hn : n.Fetches cfg P n₀ acts)
    (hrun : run (netStep cfg) n₀ acts = some n) (hserves : NetServes P n act)
    (hstep : netStep cfg n act = some n') : n'.Fetches cfg P n₀ (acts ++ [act]) := by
  have h := netStep_cases hstep
  have hnames : ∀ p, n.Keeps cfg n₀ acts p → n'.Keeps cfg n₀ (acts ++ [act]) p :=
    fun p hp ↦ hp.step hrun hstep
  have hmono : ∀ {i : ℕ} (job : Job) (body : Bytes), Downloaded acts i body ∧ P job body →
      Downloaded (acts ++ [act]) i body ∧ P job body :=
    fun _ _ hbody ↦ hbody.imp_left fun hdown ↦ hdown.concat act
  constructor
  · have hold : ∀ (i : ℕ) (pc : Pc), n.daemon.threads[i]? = some pc →
        pc.Extracts cfg (n'.Keeps cfg n₀ (acts ++ [act])) fun job body ↦
          Downloaded (acts ++ [act]) i body ∧ P job body :=
      fun i pc hpc ↦ (hn.handlers i pc hpc).mono hnames hmono
    intro j pc hj
    cases h with
    | io _ _ _ hio => cases hio <;> exact hold j pc hj
    | client | tick => exact hold j pc hj
    | main h =>
      rcases thread_of_main h hj with hj | ⟨fd, rfl⟩
      · exact hold j pc hj
      · trivial
    | @thread i a pc₀ sh' pc' conns hpc h =>
      rcases thread_of_set hj with ⟨rfl, rfl⟩ | ⟨-, hj⟩
      · refine (handlerStep_cases h).extracts (hn.handlers j pc₀ hpc) hnames
          (fun p hp ↦ Or.inl hp) hmono ?_
        rintro job t rfl rfl hcode h200
        exact ⟨⟨t, by simp, hcode, h200, rfl⟩, hserves j job t rfl hpc hcode h200⟩
      · exact hold j pc hj
  · intro k conn' job hk hr
    rcases h.reply hk hr with ⟨conn, hconn, hreply⟩ | ⟨i, hi, hpc⟩
    · obtain ⟨i, hi, hextracted⟩ := hn.replies k conn job hconn hreply
      exact ⟨i, h.served hi, hextracted.mono hnames (hmono job)⟩
    · exact ⟨i, h.served hi, (hn.handlers i _ hpc rfl).mono hnames (hmono job)⟩

end ClrDebugInfo
