import ClrDebugInfo.Server.Cache

/-!
# Where each cached file comes from

`Server.Cache` says that a cached file is one of the archives that were downloaded, whichever that
was. Here it is said of each path by itself: if what the web server answers to a request holds only
what may be under the paths of that request, then what is under a path is what may be there, as far
as it has been written.

The relation `O` says what may be under a path. Nothing is assumed about it.
-/

namespace ClrDebugInfo

open Runs

variable {cfg : Config} {O : CachePath → Bytes → Prop} {archives : List Bytes} {c : Cache}
  {w w' : ℕ → Option (ℕ × Bytes)}

/-! ## The cache -/

/-- Every cached file is the beginning of what may be under its path, and all of it once `tar` is
done; `w i` is what the handler `i` has still to write. -/
def Traced (O : CachePath → Bytes → Prop) (c : Cache) (w : ℕ → Option (ℕ × Bytes)) : Prop :=
  ∀ p ino, c.nodes p = some (.file ino) → ∃ data, O p data ∧
    ∀ f, c.inodes ino = some f → f.data <+: data ∧ (f.closed = true → f.data = data) ∧
      ∀ i bs, w i = some (ino, bs) → f.data ++ bs = data

theorem Traced.mono (h : Traced O c w) (hw : ∀ i x, w' i = some x → w i = some x) :
    Traced O c w' := by
  intro p ino hp
  obtain ⟨data, hdata, hfile⟩ := h p ino hp
  refine ⟨data, hdata, fun f hf ↦ ?_⟩
  obtain ⟨hpfx, hclosed, hwrite⟩ := hfile f hf
  exact ⟨hpfx, hclosed, fun i bs hi ↦ hwrite i bs (hw i _ hi)⟩

theorem Traced.unlink (h : Traced O c w) (p : CachePath) : Traced O (c.unlink p) w := by
  intro q ino hq
  simp only [Cache.unlink] at hq
  split at hq
  · exact absurd hq (by simp)
  · exact h q ino hq

theorem Traced.create (h : Traced O c w) (hs : CacheSound cfg archives c w) {p : CachePath}
    {content : Content} (hO : ∀ data, content = .file data → O p data) {i : ℕ}
    (hi : w i = none) :
    Traced O (c.create p content).1 (Function.update w i (c.create p content).2) := by
  cases content with
  | dir | symlink =>
    rw [Cache.create, ← hi, Function.update_eq_self]
    intro q ino hq
    simp only at hq
    split at hq
    · exact absurd hq (by simp)
    · exact h q ino hq
  | file data =>
    intro q ino hq
    simp only [Cache.create] at hq ⊢
    by_cases hqp : q = p
    · rw [if_pos hqp] at hq
      obtain rfl := Node.file.inj (Option.some.inj hq)
      refine ⟨data, hqp ▸ hO data rfl, fun f hf ↦ ?_⟩
      rw [if_pos rfl] at hf
      obtain rfl := Option.some.inj hf
      refine ⟨List.nil_prefix, fun hclosed ↦ absurd hclosed Bool.false_ne_true, fun j bs hj ↦ ?_⟩
      by_cases hji : j = i
      · rw [hji, Function.update_self] at hj
        rw [← (Prod.mk.inj (Option.some.inj hj)).2, List.nil_append]
      · rw [Function.update_of_ne hji] at hj
        exact absurd (hs.opened j _ bs hj) (Nat.lt_irrefl _)
    · rw [if_neg hqp] at hq
      have hne : ino ≠ c.next := Nat.ne_of_lt (hs.named q ino hq)
      obtain ⟨data', hdata', hfile⟩ := h q ino hq
      refine ⟨data', hdata', fun f hf ↦ ?_⟩
      rw [if_neg hne] at hf
      obtain ⟨hpfx, hclosed, hwrite⟩ := hfile f hf
      refine ⟨hpfx, hclosed, fun j bs hj ↦ ?_⟩
      by_cases hji : j = i
      · rw [hji, Function.update_self] at hj
        exact absurd (Prod.mk.inj (Option.some.inj hj)).1.symm hne
      · rw [Function.update_of_ne hji] at hj
        exact hwrite j bs hj

private theorem Traced.modify (h : Traced O c w) (hs : CacheSound cfg archives c w) {i ino : ℕ}
    {bs : Bytes} (hi : w i = some (ino, bs)) {g : Inode → Inode} {x : Option (ℕ × Bytes)}
    (hx : ∀ k bs', x = some (k, bs') → k = ino)
    (hg : ∀ f : Inode, (f.closed = true → f.data = f.data ++ bs) → (g f).data <+: f.data ++ bs ∧
      ((g f).closed = true → (g f).data = f.data ++ bs) ∧
      ∀ bs', x = some (ino, bs') → (g f).data ++ bs' = f.data ++ bs) :
    Traced O { c with inodes := fun k ↦ if k = ino then (c.inodes k).map g else c.inodes k }
      (Function.update w i x) := by
  intro p k hp
  obtain ⟨data, hdata, hfile⟩ := h p k hp
  refine ⟨data, hdata, fun f hf ↦ ?_⟩
  simp only at hf
  by_cases hk : k = ino
  · subst hk
    rw [if_pos rfl] at hf
    obtain ⟨f₀, hf₀, rfl⟩ := Option.map_eq_some_iff.mp hf
    obtain ⟨-, hclosed, hwrite⟩ := hfile f₀ hf₀
    obtain rfl := hwrite i bs hi
    obtain ⟨hpfx', hclosed', hx'⟩ := hg f₀ hclosed
    refine ⟨hpfx', hclosed', fun j bs' hj ↦ ?_⟩
    by_cases hji : j = i
    · rw [hji, Function.update_self] at hj
      exact hx' bs' hj
    · rw [Function.update_of_ne hji] at hj
      exact absurd (hs.writers j i k bs' bs hj hi) hji
  · rw [if_neg hk] at hf
    obtain ⟨hpfx, hclosed, hwrite⟩ := hfile f hf
    refine ⟨hpfx, hclosed, fun j bs' hj ↦ ?_⟩
    by_cases hji : j = i
    · rw [hji, Function.update_self] at hj
      exact absurd (hx k bs' hj) hk
    · rw [Function.update_of_ne hji] at hj
      exact hwrite j bs' hj

theorem Traced.write (h : Traced O c w) (hs : CacheSound cfg archives c w) {i ino : ℕ}
    {bs : Bytes} (hi : w i = some (ino, bs)) (n : ℕ) :
    Traced O (c.write ino (bs.take n)) (Function.update w i (some (ino, bs.drop n))) := by
  refine h.modify hs hi (fun k bs' hk ↦ (Prod.mk.inj (Option.some.inj hk)).1.symm)
    fun f hclosed ↦ ?_
  refine ⟨(List.prefix_append_right_inj f.data).mpr (List.take_prefix n bs), fun hc ↦ ?_, ?_⟩
  · have hnil : bs = [] := List.self_eq_append_right.mp (hclosed hc)
    simp [hnil]
  · intro bs' hbs'
    rw [← (Prod.mk.inj (Option.some.inj hbs')).2, List.append_assoc, List.take_append_drop]

theorem Traced.close (h : Traced O c w) (hs : CacheSound cfg archives c w) {i ino : ℕ}
    (hi : w i = some (ino, [])) : Traced O (c.close ino) (Function.update w i none) := by
  refine h.modify hs hi (fun k bs' hk ↦ absurd hk (by simp)) fun f _ ↦ ?_
  rw [List.append_nil]
  exact ⟨List.prefix_rfl, fun _ ↦ rfl, fun bs' hbs' ↦ absurd hbs' (by simp)⟩

/-! ## The handlers -/

/-- What an archive holds is what may be under the paths of a request. -/
def Yields (cfg : Config) (O : CachePath → Bytes → Prop) (job : Job) (body : Bytes) : Prop :=
  ∀ ms, cfg.listing body = some ms → ∀ m ∈ ms, ∀ data, m.content = .file data →
    O ⟨job.request.pfx, m.name⟩ data

/-- What a handler has in hand is what may be under the paths of its request. -/
def Pc.Yields (cfg : Config) (O : CachePath → Bytes → Prop) : Pc → Prop
  | .received job body => body = [] ∨ ClrDebugInfo.Yields cfg O job body
  | .filled job body | .tested job body => ClrDebugInfo.Yields cfg O job body
  | .extracting job todo _ => ∀ m ∈ todo, ∀ data, m.content = .file data →
      O ⟨job.request.pfx, m.name⟩ data
  | _ => True

/-- **One step of a handler.** -/
theorem HandlerStep.traced {sh sh' : Shared} {pc pc' : Pc} {a : HandlerAct} {i : ℕ}
    (h : HandlerStep cfg sh pc a sh' pc') (hpc : pc.Yields cfg O)
    (hs : CacheSound cfg archives sh.cache w) (hcache : Traced O sh.cache w)
    (hw : w i = pc.writing)
    (hnew : ∀ job t, pc = .admitted job → a = .perform t → t.code = 0 → t.response = 200 →
      Yields cfg O job t.body) :
    pc'.Yields cfg O ∧ Traced O sh'.cache (Function.update w i pc'.writing) := by
  have hstop : Traced O sh.cache (Function.update w i none) := by
    refine hcache.mono fun j x hj ↦ ?_
    by_cases hji : j = i
    · rw [hji, Function.update_self] at hj
      exact absurd hj (by simp)
    · rwa [Function.update_of_ne hji] at hj
  cases h with
  | @receive job t h200 =>
    refine ⟨?_, hstop⟩
    by_cases hcode : t.code = 0
    · rw [if_neg (not_not_intro hcode)]
      exact Or.inr (hnew job t rfl rfl hcode h200)
    · exact Or.inl (if_pos hcode)
  | fill hbody => exact ⟨hpc.resolve_left hbody, hstop⟩
  | valid => exact ⟨hpc, hstop⟩
  | start hlist => exact ⟨hpc _ hlist, hstop⟩
  | unlink => exact ⟨hpc, hstop.unlink _⟩
  | @create job m ms =>
    exact ⟨fun m' hm' ↦ hpc m' (List.mem_cons_of_mem m hm'),
      hcache.create hs (hpc m List.mem_cons_self) hw⟩
  | write => exact ⟨hpc, hcache.write hs hw _⟩
  | close => exact ⟨hpc, hcache.close hs hw⟩
  | _ => exact ⟨trivial, hstop⟩

/-! ## Daemons that come and go -/

/-- The web server answers a request with what may be under its paths. -/
def Serves (cfg : Config) (O : CachePath → Bytes → Prop) (s : Daemon) (a : Act) : Prop :=
  ∀ i job t, a = .thread i (.perform t) → s.threads[i]? = some (.admitted job) → t.code = 0 →
    t.response = 200 → Yields cfg O job t.body

/-- The cache is traced, and what the handlers have in hand. -/
structure Daemon.Traced (cfg : Config) (O : CachePath → Bytes → Prop) (s : Daemon) : Prop where
  sound : ∃ archives, s.Sound cfg archives
  cache : ClrDebugInfo.Traced O s.sh.cache s.writing
  threads : ∀ pc ∈ s.threads, pc.Yields cfg O

theorem Daemon.Traced.step {s s' : Daemon} {a : Act} (hs : s.Traced cfg O)
    (ha : Serves cfg O s a) (hstep : ClrDebugInfo.step cfg s a = some s') :
    s'.Traced cfg O := by
  obtain ⟨⟨archives, hsound⟩, hcache, hthreads⟩ := hs
  have hsound' : ∃ archives, s'.Sound cfg archives := ⟨_, hsound.step hstep⟩
  cases step_cases hstep with
  | main h =>
    generalize s.loop = l at h
    cases h with
    | create =>
      refine ⟨hsound', hcache.mono fun i x hi ↦ ?_, fun pc hpc ↦ ?_⟩
      · obtain ⟨pc, hpc, hx⟩ := Option.bind_eq_some_iff.mp hi
        rcases thread_of_concat hpc with hpc | rfl
        · exact Option.bind_eq_some_iff.mpr ⟨pc, hpc, hx⟩
        · exact absurd hx (by simp [Pc.writing])
      · rcases List.mem_append.mp hpc with hpc | hpc
        · exact hthreads pc hpc
        · rw [List.mem_singleton.mp hpc]
          trivial
    | _ => exact ⟨hsound', hcache, hthreads⟩
  | @thread i b pc sh' pc' _ hpc h =>
    obtain ⟨hpc', hcache'⟩ := h.traced (i := i) (hthreads pc (List.mem_of_getElem? hpc))
      hsound.cache hcache (by rw [Daemon.writing, hpc, Option.bind_some]) (by
        rintro job t rfl rfl hcode h200
        exact ha i job t rfl hpc hcode h200)
    refine ⟨hsound', hcache'.mono fun j x hj ↦ ?_, fun q hq ↦ ?_⟩
    · obtain ⟨q, hq, hx⟩ := Option.bind_eq_some_iff.mp hj
      rcases thread_of_set hq with ⟨rfl, rfl⟩ | ⟨hne, hq⟩
      · rw [Function.update_self, hx]
      · rw [Function.update_of_ne hne]
        exact Option.bind_eq_some_iff.mpr ⟨q, hq, hx⟩
    · rcases List.mem_or_eq_of_mem_set hq with hq | rfl
      · exact hthreads q hq
      · exact hpc'
  | tick => exact ⟨hsound', hcache, hthreads⟩

end ClrDebugInfo
