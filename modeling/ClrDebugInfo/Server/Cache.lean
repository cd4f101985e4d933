import Mathlib.Logic.Function.Basic
import ClrDebugInfo.Server.Failover

/-!
# The cache tree

What a reader of the cache finds while handlers extract archives into it, die in the middle of
that, and come back after a restart. The daemon has no staging area: `tar` writes a file under its
final name, so a reader sees it grow, and what an extraction that breaks off has written stays.

What does hold is that nothing comes from elsewhere. Every cached file is the beginning of a file of
the same name in an archive whose download was complete, and all of it once `tar` has closed the
file; and a fetch changes the cache only by running `tar -xf`.
-/

namespace ClrDebugInfo

open Runs

variable {cfg : Config}

/-! ## Where cached files come from -/

/-- An entry of one of the archives. -/
def InArchive (cfg : Config) (archives : List Bytes) (m : Member) : Prop :=
  ∃ body ∈ archives, ∃ members, cfg.listing body = some members ∧ m ∈ members

/-- The file `f` found at `p` is the beginning of a file of that name in one of the archives, and
all of it if `tar` is done with it. -/
def Published (cfg : Config) (archives : List Bytes) (p : CachePath) (f : Inode) : Prop :=
  ∃ m data, InArchive cfg archives m ∧ m.name = p.name ∧ m.content = .file data ∧
    f.data <+: data ∧ (f.closed = true → f.data = data)

theorem InArchive.mono {archives archives' : List Bytes} {m : Member}
    (h : InArchive cfg archives m) (hsub : archives ⊆ archives') : InArchive cfg archives' m := by
  obtain ⟨body, hbody, hlist⟩ := h
  exact ⟨body, hsub hbody, hlist⟩

/-! ## The file system under extraction

`w i` is the file that handler `i` has open, and what it has still to write to it. -/

/-- The files in the cache are those of the archives, as far as they have been written. -/
structure CacheSound (cfg : Config) (archives : List Bytes) (c : Cache)
    (w : ℕ → Option (ℕ × Bytes)) : Prop where
  fresh : ∀ ino f, c.inodes ino = some f → ino < c.next
  named : ∀ p ino, c.nodes p = some (.file ino) → ino < c.next
  opened : ∀ i ino bs, w i = some (ino, bs) → ino < c.next
  /-- No two handlers have the same file open. -/
  writers : ∀ i j ino bs bs', w i = some (ino, bs) → w j = some (ino, bs') → i = j
  sound : ∀ ino f, c.inodes ino = some f → ∃ m data, InArchive cfg archives m ∧
    m.content = .file data ∧ f.data <+: data ∧ (f.closed = true → f.data = data) ∧
    (∀ p, c.nodes p = some (.file ino) → m.name = p.name) ∧
    ∀ i bs, w i = some (ino, bs) → f.data ++ bs = data

variable {archives archives' : List Bytes} {c : Cache} {w w' : ℕ → Option (ℕ × Bytes)}

theorem CacheSound.published (h : CacheSound cfg archives c w) {p : CachePath} {f : Inode}
    (hf : c.lookup p = some f) : Published cfg archives p f := by
  rw [Cache.lookup] at hf
  split at hf
  next ino hp =>
    obtain ⟨m, data, hm, hdata, hpfx, hclosed, hname, -⟩ := h.sound ino f hf
    exact ⟨m, data, hm, hname p hp, hdata, hpfx, hclosed⟩
  · exact absurd hf (by simp)

theorem CacheSound.mono (h : CacheSound cfg archives c w) (hsub : archives ⊆ archives')
    (hw : ∀ i x, w' i = some x → w i = some x) : CacheSound cfg archives' c w' where
  fresh := h.fresh
  named := h.named
  opened i ino bs hi := h.opened i ino bs (hw i _ hi)
  writers i j ino bs bs' hi hj := h.writers i j ino bs bs' (hw i _ hi) (hw j _ hj)
  sound ino f hf := by
    obtain ⟨m, data, hm, hdata, hpfx, hclosed, hname, hwrite⟩ := h.sound ino f hf
    exact ⟨m, data, hm.mono hsub, hdata, hpfx, hclosed, hname,
      fun i bs hi ↦ hwrite i bs (hw i _ hi)⟩

private theorem CacheSound.replace (h : CacheSound cfg archives c w)
    {nodes : CachePath → Option Node}
    (hnodes : ∀ p ino, nodes p = some (.file ino) → c.nodes p = some (.file ino)) :
    CacheSound cfg archives { c with nodes := nodes } w where
  fresh := h.fresh
  named p ino hp := h.named p ino (hnodes p ino hp)
  opened := h.opened
  writers := h.writers
  sound ino f hf := by
    obtain ⟨m, data, hm, hdata, hpfx, hclosed, hname, hwrite⟩ := h.sound ino f hf
    exact ⟨m, data, hm, hdata, hpfx, hclosed, fun p hp ↦ hname p (hnodes p ino hp), hwrite⟩

private theorem CacheSound.createFile (h : CacheSound cfg archives c w) {m : Member}
    (hm : InArchive cfg archives m) {data : Bytes} (hdata : m.content = .file data)
    {p : CachePath} (hp : m.name = p.name) (i : ℕ) :
    CacheSound cfg archives (c.create p (.file data)).1
      (Function.update w i (some (c.next, data))) where
  fresh ino f hf := by
    by_cases hino : ino = c.next
    · exact hino ▸ Nat.lt_succ_self _
    · exact Nat.lt_succ_of_lt (h.fresh ino f ((if_neg hino).symm.trans hf))
  named q ino hq := by
    simp only [Cache.create] at hq
    by_cases hqp : q = p
    · rw [if_pos hqp] at hq
      obtain rfl := Node.file.inj (Option.some.inj hq)
      exact Nat.lt_succ_self _
    · rw [if_neg hqp] at hq
      exact Nat.lt_succ_of_lt (h.named q ino hq)
  opened j ino bs hj := by
    by_cases hji : j = i
    · rw [hji, Function.update_self] at hj
      obtain rfl := (Prod.mk.inj (Option.some.inj hj)).1
      exact Nat.lt_succ_self _
    · rw [Function.update_of_ne hji] at hj
      exact Nat.lt_succ_of_lt (h.opened j ino bs hj)
  writers j k ino bs bs' hj hk := by
    by_cases hji : j = i <;> by_cases hki : k = i
    · exact hji.trans hki.symm
    · rw [hji, Function.update_self] at hj
      rw [Function.update_of_ne hki] at hk
      obtain rfl := (Prod.mk.inj (Option.some.inj hj)).1
      exact absurd (h.opened k _ bs' hk) (Nat.lt_irrefl _)
    · rw [Function.update_of_ne hji] at hj
      rw [hki, Function.update_self] at hk
      obtain rfl := (Prod.mk.inj (Option.some.inj hk)).1
      exact absurd (h.opened j _ bs hj) (Nat.lt_irrefl _)
    · rw [Function.update_of_ne hji] at hj
      rw [Function.update_of_ne hki] at hk
      exact h.writers j k ino bs bs' hj hk
  sound ino f hf := by
    -- the new inode is empty and owed the whole file; an old one may lose the name `p`
    simp only [Cache.create] at hf ⊢
    by_cases hino : ino = c.next
    · rw [if_pos hino] at hf
      obtain rfl := Option.some.inj hf
      refine ⟨m, data, hm, hdata, List.nil_prefix,
        fun h ↦ absurd h Bool.false_ne_true, fun q hq ↦ ?_, fun j bs hj ↦ ?_⟩
      · by_cases hqp : q = p
        · rw [hqp, hp]
        · rw [if_neg hqp, hino] at hq
          exact absurd (h.named q _ hq) (Nat.lt_irrefl _)
      · by_cases hji : j = i
        · rw [hji, Function.update_self] at hj
          rw [← (Prod.mk.inj (Option.some.inj hj)).2, List.nil_append]
        · rw [Function.update_of_ne hji, hino] at hj
          exact absurd (h.opened j _ bs hj) (Nat.lt_irrefl _)
    · rw [if_neg hino] at hf
      obtain ⟨m', data', hm', hdata', hpfx, hclosed, hname, hwrite⟩ := h.sound ino f hf
      refine ⟨m', data', hm', hdata', hpfx, hclosed, fun q hq ↦ ?_, fun j bs hj ↦ ?_⟩
      · by_cases hqp : q = p
        · rw [if_pos hqp] at hq
          exact absurd (Node.file.inj (Option.some.inj hq)).symm hino
        · rw [if_neg hqp] at hq
          exact hname q hq
      · by_cases hji : j = i
        · rw [hji, Function.update_self] at hj
          exact absurd (Prod.mk.inj (Option.some.inj hj)).1.symm hino
        · rw [Function.update_of_ne hji] at hj
          exact hwrite j bs hj

theorem CacheSound.unlink (h : CacheSound cfg archives c w) (p : CachePath) :
    CacheSound cfg archives (c.unlink p) w := by
  refine h.replace fun q ino hq ↦ ?_
  split at hq
  · exact absurd hq (by simp)
  · exact hq

theorem CacheSound.create (h : CacheSound cfg archives c w) {m : Member}
    (hm : InArchive cfg archives m) (pfx : Bytes) {i : ℕ} (hi : w i = none) :
    CacheSound cfg archives (c.create ⟨pfx, m.name⟩ m.content).1
      (Function.update w i (c.create ⟨pfx, m.name⟩ m.content).2) := by
  cases hcontent : m.content with
  | file data => exact h.createFile hm hcontent rfl i
  | _ =>
    rw [Cache.create, ← hi, Function.update_eq_self]
    refine h.replace fun p ino hp ↦ ?_
    split at hp
    · exact absurd hp (by simp)
    · exact hp

private theorem CacheSound.modify (h : CacheSound cfg archives c w) {i ino : ℕ} {bs : Bytes}
    (hi : w i = some (ino, bs)) {g : Inode → Inode} {x : Option (ℕ × Bytes)}
    (hx : ∀ k bs', x = some (k, bs') → k = ino)
    (hg : ∀ f : Inode, (f.closed = true → f.data = f.data ++ bs) → (g f).data <+: f.data ++ bs ∧
      ((g f).closed = true → (g f).data = f.data ++ bs) ∧
      ∀ bs', x = some (ino, bs') → (g f).data ++ bs' = f.data ++ bs) :
    CacheSound cfg archives
      { c with inodes := fun k ↦ if k = ino then (c.inodes k).map g else c.inodes k }
      (Function.update w i x) := by
  -- every other handler has another file open
  have hother : ∀ j k bs', Function.update w i x j = some (k, bs') →
      (j = i ∧ k = ino) ∨ (j ≠ i ∧ w j = some (k, bs')) := by
    intro j k bs' hj
    by_cases hji : j = i
    · rw [hji, Function.update_self] at hj
      exact Or.inl ⟨hji, hx k bs' hj⟩
    · rw [Function.update_of_ne hji] at hj
      exact Or.inr ⟨hji, hj⟩
  refine ⟨fun k f hf ↦ ?_, h.named, fun j k bs' hj ↦ ?_, fun j l k bs' bs'' hj hl ↦ ?_, ?_⟩
  · by_cases hk : k = ino
    · exact hk ▸ h.opened i ino bs hi
    · exact h.fresh k f ((if_neg hk).symm.trans hf)
  · rcases hother j k bs' hj with ⟨-, rfl⟩ | ⟨-, hj⟩
    · exact h.opened i k bs hi
    · exact h.opened j k bs' hj
  · rcases hother j k bs' hj with ⟨rfl, rfl⟩ | ⟨hji, hj⟩ <;>
      rcases hother l _ bs'' hl with ⟨hl, hk⟩ | ⟨hli, hl⟩
    · exact hl.symm
    · exact absurd (h.writers l j k bs'' bs hl hi) hli
    · exact absurd (h.writers j i ino bs' bs (hk ▸ hj) hi) hji
    · exact h.writers j l k bs' bs'' hj hl
  · intro k f hf
    simp only at hf
    by_cases hk : k = ino
    · rw [if_pos hk, hk] at hf
      obtain ⟨f₀, hf₀, rfl⟩ := Option.map_eq_some_iff.mp hf
      obtain ⟨m, data, hm, hdata, -, hclosed, hname, hwrite⟩ := h.sound ino f₀ hf₀
      obtain rfl := hwrite i bs hi
      obtain ⟨hpfx, hclosed', hx'⟩ := hg f₀ hclosed
      refine ⟨m, _, hm, hdata, hpfx, hclosed', hk ▸ hname, fun j bs' hj ↦ ?_⟩
      rcases hother j k bs' hj with ⟨rfl, -⟩ | ⟨hji, hj⟩
      · rw [Function.update_self, hk] at hj
        exact hx' bs' hj
      · exact absurd (h.writers j i ino bs' bs (hk ▸ hj) hi) hji
    · rw [if_neg hk] at hf
      obtain ⟨m, data, hm, hdata, hpfx, hclosed, hname, hwrite⟩ := h.sound k f hf
      refine ⟨m, data, hm, hdata, hpfx, hclosed, hname, fun j bs' hj ↦ ?_⟩
      rcases hother j k bs' hj with ⟨-, hk'⟩ | ⟨-, hj⟩
      · exact absurd hk' hk
      · exact hwrite j bs' hj

theorem CacheSound.write (h : CacheSound cfg archives c w) {i ino : ℕ} {bs : Bytes}
    (hi : w i = some (ino, bs)) (n : ℕ) :
    CacheSound cfg archives (c.write ino (bs.take n))
      (Function.update w i (some (ino, bs.drop n))) := by
  refine h.modify hi (fun k bs' hk ↦ (Prod.mk.inj (Option.some.inj hk)).1.symm) fun f hclosed ↦ ?_
  refine ⟨(List.prefix_append_right_inj f.data).mpr (List.take_prefix n bs), fun hc ↦ ?_, ?_⟩
  · have hnil : bs = [] := List.self_eq_append_right.mp (hclosed hc)
    simp [hnil]
  · intro bs' hbs'
    rw [← (Prod.mk.inj (Option.some.inj hbs')).2, List.append_assoc, List.take_append_drop]

theorem CacheSound.close (h : CacheSound cfg archives c w) {i ino : ℕ}
    (hi : w i = some (ino, [])) :
    CacheSound cfg archives (c.close ino) (Function.update w i none) := by
  refine h.modify hi (fun k bs' hk ↦ absurd hk (by simp)) fun f _ ↦ ?_
  rw [List.append_nil]
  exact ⟨List.prefix_rfl, fun _ ↦ rfl, fun bs' hbs' ↦ absurd hbs' (by simp)⟩

/-! ## The invariant of the daemon -/

/-- The file that a handler has open. -/
def Pc.writing : Pc → Option (ℕ × Bytes)
  | .extracting _ _ cur => cur
  | _ => none

/-- The archive of a handler is one of those downloaded, and so are the entries it extracts. -/
def Pc.Sound (cfg : Config) (archives : List Bytes) : Pc → Prop
  | .received _ body => body = [] ∨ body ∈ archives
  | .filled _ body => body ∈ archives
  | .tested _ body => body ∈ archives
  | .extracting _ todo _ => ∀ m ∈ todo, InArchive cfg archives m
  | _ => True

/-- The files that the handlers of a daemon have open. -/
def Daemon.writing (s : Daemon) (i : ℕ) : Option (ℕ × Bytes) := s.threads[i]?.bind Pc.writing

/-- What holds of the cache and the handlers when the archives in `archives` have been
downloaded. -/
structure Daemon.Sound (cfg : Config) (archives : List Bytes) (s : Daemon) : Prop where
  cache : CacheSound cfg archives s.sh.cache s.writing
  threads : ∀ pc ∈ s.threads, pc.Sound cfg archives

/-- The download that a step completes. -/
def Act.completed : Act → List Bytes
  | .thread _ (.perform t) => if t.code = 0 ∧ t.response = 200 then [t.body] else []
  | _ => []

theorem Pc.Sound.mono {pc : Pc} (h : pc.Sound cfg archives) (hsub : archives ⊆ archives') :
    pc.Sound cfg archives' := by
  cases pc with
  | received => exact h.imp_right fun hmem ↦ hsub hmem
  | filled | tested => exact hsub h
  | extracting => exact fun m hm ↦ (h m hm).mono hsub
  | _ => trivial

theorem HandlerStep.sound {sh sh' : Shared} {pc pc' : Pc} {a : HandlerAct} {i : ℕ}
    (h : HandlerStep cfg sh pc a sh' pc') (hpc : pc.Sound cfg archives)
    (hcache : CacheSound cfg archives sh.cache w) (hw : w i = pc.writing) :
    pc'.Sound cfg (archives ++ (Act.thread i a).completed) ∧
      CacheSound cfg (archives ++ (Act.thread i a).completed) sh'.cache
        (Function.update w i pc'.writing) := by
  have hsub : archives ⊆ archives ++ (Act.thread i a).completed := List.subset_append_left _ _
  have hstop : CacheSound cfg (archives ++ (Act.thread i a).completed) sh.cache
      (Function.update w i none) := by
    refine hcache.mono hsub fun j x hj ↦ ?_
    by_cases hji : j = i
    · rw [hji, Function.update_self] at hj
      exact absurd hj (by simp)
    · rwa [Function.update_of_ne hji] at hj
  cases h with
  | @receive job t h200 =>
    refine ⟨?_, hstop⟩
    by_cases hcode : t.code = 0
    · simp [Pc.Sound, Act.completed, hcode, h200]
    · exact Or.inl (if_pos hcode)
  | fill hbody => exact ⟨hsub (hpc.resolve_left hbody), hstop⟩
  | valid => exact ⟨hsub hpc, hstop⟩
  | start hlist => exact ⟨fun m hm ↦ ⟨_, hsub hpc, _, hlist, hm⟩, hstop⟩
  | unlink => exact ⟨fun m hm ↦ (hpc m hm).mono hsub, hstop.unlink _⟩
  | @create job m ms =>
    simp only [Act.completed, List.append_nil]
    exact ⟨fun m' hm' ↦ hpc m' (List.mem_cons_of_mem m hm'),
      hcache.create (hpc m List.mem_cons_self) job.request.pfx hw⟩
  | write =>
    simp only [Act.completed, List.append_nil]
    exact ⟨hpc, hcache.write hw _⟩
  | close =>
    simp only [Act.completed, List.append_nil]
    exact ⟨hpc, hcache.close hw⟩
  | _ => exact ⟨trivial, hstop⟩

theorem Daemon.Sound.step {s s' : Daemon} {a : Act} (hs : s.Sound cfg archives)
    (hstep : step cfg s a = some s') : s'.Sound cfg (archives ++ a.completed) := by
  cases step_cases hstep with
  | @main a s' h =>
    have hnone : (Act.main a).completed = [] := rfl
    rw [hnone, List.append_nil]
    generalize s.loop = l at h
    cases h with
    | create =>
      refine ⟨hs.cache.mono (List.Subset.refl _) fun i x hi ↦ ?_, fun pc hpc ↦ ?_⟩
      · obtain ⟨pc, hpc, hx⟩ := Option.bind_eq_some_iff.mp hi
        rcases thread_of_concat hpc with hpc | rfl
        · exact Option.bind_eq_some_iff.mpr ⟨pc, hpc, hx⟩
        · cases hx
      · rcases List.mem_append.mp hpc with hpc | hpc
        · exact hs.threads pc hpc
        · rw [List.mem_singleton.mp hpc]
          trivial
    | _ => exact ⟨hs.cache, hs.threads⟩
  | @thread i a pc sh' pc' _ hpc h =>
    obtain ⟨hpc', hcache'⟩ := h.sound (i := i) (hs.threads pc (List.mem_of_getElem? hpc)) hs.cache
      (by rw [Daemon.writing, hpc, Option.bind_some])
    refine ⟨hcache'.mono (List.Subset.refl _) fun j x hj ↦ ?_, fun q hq ↦ ?_⟩
    · obtain ⟨q, hq, hx⟩ := Option.bind_eq_some_iff.mp hj
      rcases thread_of_set hq with ⟨rfl, rfl⟩ | ⟨hne, hq⟩
      · rw [Function.update_self, hx]
      · rw [Function.update_of_ne hne]
        exact Option.bind_eq_some_iff.mpr ⟨q, hq, hx⟩
    · rcases List.mem_or_eq_of_mem_set hq with hq | rfl
      · exact (hs.threads q hq).mono (List.subset_append_left _ _)
      · exact hpc'
  | @tick seconds now =>
    have hnone : (Act.tick seconds now).completed = [] := rfl
    rw [hnone, List.append_nil]
    exact ⟨hs.cache, hs.threads⟩

theorem Daemon.Sound.start (h : CacheSound cfg archives c w) (urlcounter : Int32) (now : Int64) :
    (Daemon.start urlcounter now c).Sound cfg archives :=
  ⟨h.mono (List.Subset.refl _) (fun _ x hx ↦ absurd (show none = some x from hx) (by simp)),
    fun _ hpc ↦ by cases hpc⟩

theorem CacheSound.empty : CacheSound cfg archives Cache.empty fun _ ↦ none where
  fresh _ f h := absurd (show none = some f from h) (by simp)
  named _ ino h := absurd (show none = some (Node.file ino) from h) (by simp)
  opened _ ino bs h := absurd (show none = some (ino, bs) from h) (by simp)
  writers _ _ ino bs _ h _ := absurd (show none = some (ino, bs) from h) (by simp)
  sound _ f h := absurd (show none = some f from h) (by simp)

/-- The archives whose download is completed in a run. -/
def completed (acts : List Act) : List Bytes := acts.flatMap Act.completed

theorem Daemon.Sound.run {s s' : Daemon} {acts : List Act} (hs : s.Sound cfg archives)
    (hrun : run (ClrDebugInfo.step cfg) s acts = some s') :
    s'.Sound cfg (archives ++ completed acts) := by
  refine run_invariant (I := fun acts s ↦ Daemon.Sound cfg (archives ++ completed acts) s) ?_ ?_
    hrun
  · rwa [completed, List.flatMap_nil, List.append_nil]
  · intro acts s a s' hs hstep
    rw [completed, List.flatMap_append, List.flatMap_singleton, ← List.append_assoc]
    exact hs.step hstep

/-! ## Daemons that come and go -/

/-- Where a handler can stand that has begun to extract, unless `tar` has failed. -/
def Pc.extracted : Pc → Prop
  | .extracting _ _ _ | .leaving | .ended => True
  | .returned _ ret => ret = 200
  | _ => False

/-- An archive with a single file `./x` of three bytes; nothing else is an archive. -/
def oneFile : Config :=
  ⟨twoMirrors, fun body ↦
    if body = bytes "archive" then some [⟨bytes "./x", .file (bytes "abc")⟩] else none⟩

end ClrDebugInfo
