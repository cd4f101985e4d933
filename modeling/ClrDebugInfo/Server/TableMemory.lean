import ClrDebugInfo.Nica.Effects
import ClrDebugInfo.Nica.Iterate
import ClrDebugInfo.Server.Failover

/-!
# Memory of the duplicate table (`src/server.c`)

`avoid_dupes` gives the table a copy of every URL that it has not seen, and nothing is ever taken
out of the table. So the copies are those of the different URLs that were asked for, the table has
a number of buckets that is linear in theirs, and when `main` frees the table in the end each copy
is freed once.
-/

namespace ClrDebugInfo

open Runs

/-! ## The copies -/

/-- The copies that `strdup` has made, in their order. -/
def copies (urls : List Bytes) : List StrPtr := (urls.zipIdx 1).map fun e ↦ .ptr e.2 e.1

/-- The bucket array is small for what the map holds, or as it was in the beginning. -/
def Roomy {K V : Type} (map : NcHashmap K V) (size : ℕ) : Prop :=
  map.nextSize = (map.nBuckets * 7 / 10 : ℕ) ∧
    (map.nBuckets = initialSize ∨ 7 * map.nBuckets ≤ 40 * size + 36)

theorem Roomy.mono {K V : Type} {map : NcHashmap K V} {n m : ℕ} (hr : Roomy map n) (h : n ≤ m) :
    Roomy map m := ⟨hr.1, hr.2.imp_right fun hle ↦ by omega⟩

/-- The table holds the copies of these URLs, and has freed none. -/
structure Copies (s : Dupes) (urls : List Bytes) : Prop where
  nodup : urls.Nodup
  strdups : s.strdups = urls.length
  freed : s.heap.freed = []
  no_table : s.hash = none → urls = []
  table : ∀ map, s.hash = some map → map.hash = ncStringHash ∧ map.compare = ncStringCompare ∧
    map.keyFree = true ∧ map.valueFree = false ∧ Roomy map urls.length ∧
    ∃ d, Holds s.heap map d ∧ d.map Prod.fst = copies urls

variable {s s' : Dupes} {urls : List Bytes} {url : Bytes} {alloc : Alloc} {now : Int64}

private theorem copies_concat (urls : List Bytes) (url : Bytes) :
    copies (urls ++ [url]) = copies urls ++ [.ptr (urls.length + 1) url] := by
  simp [copies, List.zipIdx_append, Nat.add_comm]

private theorem exists_mem_copies_iff :
    (∃ addr, StrPtr.ptr addr url ∈ copies urls) ↔ url ∈ urls := by
  induction urls using List.reverseRecOn with
  | nil => simp [copies]
  | append_singleton urls u ih =>
    simp only [copies_concat, List.mem_append, List.mem_singleton, StrPtr.ptr.injEq, ← ih]
    constructor
    · rintro ⟨addr, hmem | ⟨-, rfl⟩⟩
      · exact .inl ⟨addr, hmem⟩
      · exact .inr rfl
    · rintro (⟨addr, hmem⟩ | rfl)
      · exact ⟨addr, .inl hmem⟩
      · exact ⟨_, .inr ⟨rfl, rfl⟩⟩

private theorem addr_le_of_mem_copies {addr : ℕ} (h : StrPtr.ptr addr url ∈ copies urls) :
    addr ≤ urls.length := by
  induction urls using List.reverseRecOn with
  | nil => exact absurd h (by simp [copies])
  | append_singleton urls u ih =>
    rw [copies_concat, List.mem_append, List.mem_singleton] at h
    rw [List.length_append]
    rcases h with h | h
    · exact (ih h).trans (Nat.le_add_right _ _)
    · exact (StrPtr.ptr.inj h).1.le

private theorem copies_init : Copies Dupes.init [] where
  nodup := List.nodup_nil
  strdups := rfl
  freed := rfl
  no_table _ := rfl
  table _ h := absurd h (by simp [Dupes.init])

/-! ## One call -/

section

variable {K V : Type} [Zero K] [Zero V] {f : ℕ → Bool} {h h' : Heap K V} {map map' : NcHashmap K V}
  {hash : K → UInt32} {compare : K → K → Bool} {keyFree valueFree : Bool}

theorem ncHashmapNewFull_fields
    (hrun : ncHashmapNewFull f h hash compare keyFree valueFree = (some map, h')) :
    map.keyFree = keyFree ∧ map.valueFree = valueFree ∧ h'.freed = h.freed ∧ Roomy map 0 := by
  rw [ncHashmapNewFull, ncHashmapNewInternal] at hrun
  cases h₁ : f h.callocs with
  | false => simp [Heap.calloc, h₁] at hrun
  | true =>
    cases h₂ : f (h.callocs + 1) with
    | false => simp [Heap.calloc, h₁, h₂] at hrun
    | true =>
      simp only [Heap.calloc, h₁, h₂, if_true, ncHashmapUpdateNextSize] at hrun
      obtain ⟨hmap, rfl⟩ := Prod.mk.inj hrun
      obtain rfl := Option.some.inj hmap
      exact ⟨rfl, rfl, rfl, rfl, .inl rfl⟩

variable [DecidableEq K]

theorem Roomy.resize {n : ℕ} {ok : Bool} (hr : Roomy map n) (hsize : map.size = n)
    (hfull : ncHashmapMaybeResize map = true)
    (hrun : ncHashmapResize f h map = some (ok, h', map')) : Roomy map' n := by
  have hmaybe : map.nextSize ≤ map.size := by simpa [ncHashmapMaybeResize] using hfull
  rw [ncHashmapResize] at hrun
  split at hrun
  next =>
    obtain ⟨-, -, rfl⟩ := by simpa only [Option.some.injEq, Prod.mk.injEq] using hrun
    exact hr
  next =>
    split at hrun
    next => exact absurd hrun (by simp)
    next =>
      obtain ⟨h₃, -, heq⟩ := Option.map_eq_some_iff.mp hrun
      obtain ⟨-, -, rfl⟩ := by simpa only [Prod.mk.injEq] using heq
      refine ⟨rfl, .inr ?_⟩
      have hnext := hr.1
      show 7 * (map.nBuckets * increaseFactor) ≤ 40 * n + 36
      rw [increaseFactor]
      omega
    next =>
      obtain ⟨h₃, -, heq⟩ := Option.map_eq_some_iff.mp hrun
      obtain ⟨-, -, rfl⟩ := by simpa only [Prod.mk.injEq] using heq
      exact hr

theorem ncHashmapPut_fields {key : K} {value : V} {n : ℕ} (hr : Roomy map n) (hsize : map.size = n)
    (hrun : ncHashmapPut f h map key value = some (true, h', map')) :
    map'.keyFree = map.keyFree ∧ map'.valueFree = map.valueFree ∧ h'.freed = h.freed ∧
      Roomy map' n := by
  obtain ⟨ok, h₁, map₁, hgrow, hfields⟩ : ∃ ok h₁ map₁,
      (if ncHashmapMaybeResize map then ncHashmapResize f h map else some (true, h, map)) =
        some (ok, h₁, map₁) ∧
      (ok = true → map₁.keyFree = map.keyFree ∧ map₁.valueFree = map.valueFree ∧
        h₁.freed = h.freed ∧ Roomy map₁ n) := by
    rw [ncHashmapPut] at hrun
    by_cases hfull : ncHashmapMaybeResize map = true
    · rw [if_pos hfull] at hrun ⊢
      cases hres : ncHashmapResize f h map with
      | none =>
        rw [hres] at hrun
        exact absurd hrun (by simp)
      | some r =>
        obtain ⟨hkey, hvalue, hfreed⟩ := ncHashmapResize_freed hres
        exact ⟨r.1, r.2.1, r.2.2, rfl, fun hok ↦
          ⟨hkey, hvalue, hfreed hok, hr.resize hsize hfull hres⟩⟩
    · rw [if_neg hfull]
      exact ⟨true, h, map, rfl, fun _ ↦ ⟨rfl, rfl, rfl, hr⟩⟩
  rw [ncHashmapPut] at hrun
  simp only [hgrow] at hrun
  cases ok with
  | false => exact absurd hrun (by simp)
  | true =>
    obtain ⟨hkey, hvalue, hfreed, hroomy⟩ := hfields rfl
    simp only at hrun
    split at hrun
    next => exact absurd hrun (by simp)
    next inc h₂ hinsert =>
      split_ifs at hrun with hinc
      · obtain ⟨-, rfl, rfl⟩ := by simpa only [Option.some.injEq, Prod.mk.injEq] using hrun
        exact ⟨hkey, hvalue, (insertBucket_freed hinsert hinc).trans hfreed, hroomy⟩
      · exact absurd hrun (by simp)

end

theorem Copies.create (halloc : alloc.Succeeds) (hs : Copies s urls) (hnone : s.hash = none) :
    Copies (createHash alloc s) urls ∧ (createHash alloc s).hash.isSome := by
  obtain rfl := hs.no_table hnone
  rw [createHash]
  rcases ncHashmapNewFull_spec alloc.calloc s.heap ncStringHash ncStringCompare true false with
    ⟨map, h, hrun, hhash, hcmp, H⟩ | ⟨⟨k, hk⟩, -⟩
  · obtain ⟨hkey, hvalue, hfreed, hroomy⟩ := ncHashmapNewFull_fields hrun
    rw [hrun]
    refine ⟨⟨List.nodup_nil, hs.strdups, hfreed.trans hs.freed, fun _ ↦ rfl, ?_⟩, rfl⟩
    rintro map' hmap
    obtain rfl := Option.some.inj hmap
    exact ⟨hhash, hcmp, hkey, hvalue, hroomy, 0, H, rfl⟩
  · rw [halloc.1 k] at hk
    exact absurd hk (by simp)

theorem Copies.lookup (hs : Copies s urls) (hsome : s.hash.isSome) :
    ∃ found tm, lookupUrl s url = some (found, tm) ∧ (found = true ↔ url ∈ urls) := by
  obtain ⟨map, hmap⟩ := Option.isSome_iff_exists.mp hsome
  obtain ⟨hhash, hcmp, -, -, -, d, H, hd⟩ := hs.table map hmap
  have hmem : url ∈ urls ↔ ∃ addr tm, (StrPtr.ptr addr url, tm) ∈ d := by
    rw [← exists_mem_copies_iff]
    refine exists_congr fun addr ↦ ?_
    rw [← Multiset.mem_coe, ← hd, Multiset.mem_map]
    constructor
    · rintro ⟨⟨key, tm⟩, he, rfl⟩
      exact ⟨tm, he⟩
    · rintro ⟨tm, he⟩
      exact ⟨_, he, rfl⟩
  rw [lookupUrl, hmap]
  simp only
  rcases ncHashmapEnsureGet_string H hhash hcmp 0 url with ⟨addr, tm, he, hrun⟩ | ⟨hnone, hrun⟩
  · exact ⟨true, tm, hrun, iff_of_true rfl (hmem.mpr ⟨addr, tm, he⟩)⟩
  · refine ⟨false, 0, hrun, iff_of_false (by simp) fun h ↦ ?_⟩
    obtain ⟨addr, tm, he⟩ := hmem.mp h
    exact hnone addr tm he

theorem Copies.record (halloc : alloc.Succeeds) (hs : Copies s urls) (hsome : s.hash.isSome)
    (hnew : url ∉ urls) (tm : UInt64) :
    ∃ s', recordUrl alloc s url tm = some s' ∧ Copies s' (urls ++ [url]) := by
  obtain ⟨map, hmap⟩ := Option.isSome_iff_exists.mp hsome
  obtain ⟨hhash, hcmp, hkey, hvalue, hroomy, d, H, hd⟩ := hs.table map hmap
  -- the addresses of copies count up
  have hfresh : ∀ e ∈ d, e.1 ≠ StrPtr.ptr (s.strdups + 1) url := by
    intro e he heq
    have hcopy : e.1 ∈ copies urls := by
      rw [← Multiset.mem_coe, ← hd]
      exact Multiset.mem_map_of_mem _ he
    rw [heq] at hcopy
    have hle := addr_le_of_mem_copies hcopy
    rw [hs.strdups] at hle
    omega
  have hsize : map.size = urls.length := by
    rw [H.size, ← Multiset.card_map Prod.fst, hd]
    simp [copies]
  obtain ⟨ok, h', map', hput, hhash', hcmp', H', hfail⟩ :=
    ncHashmapPut_spec alloc.calloc tm H hfresh
  cases ok with
  | false =>
    obtain ⟨k, hk⟩ := hfail rfl
    rw [halloc.1] at hk
    exact absurd hk (by simp)
  | true =>
    obtain ⟨hkey', hvalue', hfreed, hroomy'⟩ := ncHashmapPut_fields hroomy hsize hput
    rw [recordUrl, hmap]
    simp only [halloc.2, if_true, hput, Option.map_some]
    refine ⟨_, rfl, ?_, ?_, hfreed.trans hs.freed, fun h ↦ absurd h (by simp), ?_⟩
    · exact List.nodup_append.mpr ⟨hs.nodup, List.nodup_singleton _, by
        rintro u hu _ hmem rfl
        rw [List.mem_singleton.mp hmem] at hu
        exact hnew hu⟩
    · show s.strdups + 1 = _
      rw [hs.strdups, List.length_append, List.length_singleton]
    · rintro map'' hmap''
      obtain rfl := Option.some.inj hmap''
      refine ⟨hhash'.trans hhash, hcmp'.trans hcmp, hkey'.trans hkey, hvalue'.trans hvalue,
        hroomy'.mono (by simp), _, H', ?_⟩
      rw [if_pos rfl, Multiset.map_cons, hd, copies_concat, hs.strdups]
      exact (Multiset.singleton_add _ _).symm.trans (Multiset.add_comm _ _)

/-- **One call.** -/
theorem Copies.call (halloc : alloc.Succeeds) (hs : Copies s urls) (url : Bytes)
    (now : Int64) : ∃ r s', avoidDupes alloc s url now = some (r, s') ∧
      Copies s' (if url ∈ urls then urls else urls ++ [url]) := by
  obtain ⟨s₁, hs₁, hcopies, hsome⟩ : ∃ s₁, (if s.hash.isNone then createHash alloc s else s) = s₁ ∧
      Copies s₁ urls ∧ s₁.hash.isSome := by
    refine ⟨_, rfl, ?_⟩
    cases hh : s.hash with
    | none => exact hs.create halloc hh
    | some map => exact ⟨hs, by simp [hh]⟩
  obtain ⟨found, tm, hlookup, hfound⟩ :
      ∃ found tm, lookupUrl s₁ url = some (found, tm) ∧ (found = true ↔ url ∈ urls) :=
    hcopies.lookup hsome
  rw [avoidDupes, hs₁]
  simp only [hlookup]
  cases found with
  | true =>
    rw [if_pos (hfound.mp rfl)]
    exact ⟨_, s₁, rfl, hcopies⟩
  | false =>
    have hnew : url ∉ urls := fun h ↦ absurd (hfound.mpr h) (by simp)
    obtain ⟨s', hrecord, hs'⟩ := hcopies.record halloc hsome hnew now.toUInt64
    rw [if_neg hnew]
    exact ⟨0, s', by simp [hrecord], hs'⟩

/-! ## The end of the table -/

theorem Holds.free {K V : Type} [Zero K] [Zero V] {h : Heap K V} {map : NcHashmap K V}
    {d : Multiset (K × V)} (H : Holds h map d) (hkey : map.keyFree = true)
    (hvalue : map.valueFree = false) : ∃ h' l, ncHashmapFree h map = some h' ∧
      h'.freed = h.freed ++ l ∧ (l : Multiset (K ⊕ V)) = (d.map Prod.fst).map Sum.inl := by
  obtain ⟨chains, B, -, rfl⟩ := H.table
  obtain ⟨h', hrun, -, hfreed⟩ := B.freeBuckets_nuke map
    (fun i hi ↦ List.mem_range.mp hi : ∀ i ∈ List.range map.nBuckets, i < map.nBuckets)
  refine ⟨h', _, hrun, hfreed, ?_⟩
  have hnuke : ∀ l : List ℕ, (l.flatMap fun a ↦ nukeFrees map (h.cell a)) =
      (l.filter fun a ↦ (h.cell a).occ).map fun a ↦ Sum.inl (h.cell a).hash := by
    intro l
    induction l with
    | nil => rfl
    | cons a l ih =>
      rw [List.flatMap_cons, ih, nukeFrees, hkey, hvalue]
      cases hocc : (h.cell a).occ <;> simp [hocc]
  rw [hnuke, content_eq_entries, Multiset.map_coe, Multiset.map_coe, List.map_map, List.map_map]
  rfl

/-- What `main` does to the table after its loop. -/
def freeTable (s : Dupes) : Option (Heap StrPtr UInt64) :=
  match s.hash with
  | none => some s.heap
  | some map => ncHashmapFree s.heap map

theorem Copies.settle (hs : Copies s urls) : ∃ h', freeTable s = some h' ∧
    h'.freed.Perm ((copies urls).map Sum.inl) := by
  rw [freeTable]
  cases hmap : s.hash with
  | none =>
    rw [hs.no_table hmap]
    exact ⟨s.heap, rfl, by rw [hs.freed]; exact List.Perm.nil⟩
  | some map =>
    obtain ⟨-, -, hkey, hvalue, -, d, H, hd⟩ := hs.table map hmap
    obtain ⟨h', l, hrun, hfreed, hl⟩ := H.free hkey hvalue
    refine ⟨h', hrun, ?_⟩
    rw [hfreed, hs.freed, List.nil_append, ← Multiset.coe_eq_coe, hl, hd, Multiset.map_coe]

/-! ## Runs of the daemon -/

/-- In a run a handler has called `avoid_dupes` for this URL. -/
def AskedFor (cfg : Config) (s : Daemon) (acts : List Act) (url : Bytes) : Prop :=
  ∃ before i job t, before ++ [.thread i .avoidDupes] <+: acts ∧
    run (step cfg) s before = some t ∧ t.threads[i]? = some (.built job) ∧ job.url = url

/-- What the table has acquired in a run, and gives back in the end. -/
structure TableMemory (cfg : Config) (s₀ : Daemon) (acts : List Act) (s : Dupes)
    (urls : List Bytes) : Prop where
  /-- These are the different URLs that were asked for. -/
  nodup : urls.Nodup
  mem_iff : ∀ url, url ∈ urls ↔ AskedFor cfg s₀ acts url
  /-- `strdup` has been called once for each, and the table has freed nothing. -/
  strdups : s.strdups = urls.length
  freed : s.heap.freed = []
  /-- The bucket array is as it was made, or linear in their number. -/
  buckets : ∀ map, s.hash = some map →
    map.nBuckets = initialSize ∨ 7 * map.nBuckets ≤ 40 * urls.length + 36
  /-- If `main` frees the table now, each copy is freed once, and nothing else. -/
  settled : ∃ h', freeTable s = some h' ∧ h'.freed.Perm ((copies urls).map Sum.inl)

variable {cfg : Config} {s₀ t t' : Daemon} {acts : List Act} {a : Act}

private theorem askedFor_concat (hrun : run (step cfg) s₀ acts = some t) (url : Bytes) :
    AskedFor cfg s₀ (acts ++ [a]) url ↔ AskedFor cfg s₀ acts url ∨
      ∃ i job, a = .thread i .avoidDupes ∧ t.threads[i]? = some (.built job) ∧ job.url = url := by
  constructor
  · rintro ⟨before, i, job, u, hprefix, hu, hpc, hurl⟩
    rcases List.prefix_concat_iff.mp hprefix with heq | hprefix
    · obtain ⟨rfl, ha⟩ := List.append_inj' heq rfl
      obtain rfl := Option.some.inj (hrun.symm.trans hu)
      exact .inr ⟨i, job, (List.singleton_inj.mp ha).symm, hpc, hurl⟩
    · exact .inl ⟨before, i, job, u, hprefix, hu, hpc, hurl⟩
  · rintro (⟨before, i, job, u, hprefix, hu, hpc, hurl⟩ | ⟨i, job, rfl, hpc, hurl⟩)
    · exact ⟨before, i, job, u, hprefix.trans (List.prefix_append _ _), hu, hpc, hurl⟩
    · exact ⟨acts, i, job, t, List.prefix_refl _, hrun, hpc, hurl⟩

/-- **One step of the daemon.** Only a call of `avoid_dupes` touches the table. -/
theorem Copies.daemonStep (halloc : cfg.alloc.Succeeds) (hs : Copies t.sh.dupes urls)
    (h : step cfg t a = some t') :
    (∃ i job, a = .thread i .avoidDupes ∧ t.threads[i]? = some (.built job) ∧
        Copies t'.sh.dupes (if job.url ∈ urls then urls else urls ++ [job.url])) ∨
      (∀ i job, a = .thread i .avoidDupes → t.threads[i]? ≠ some (.built job)) ∧
        Copies t'.sh.dupes urls := by
  have hsame : (∀ i, a ≠ .thread i .avoidDupes) → t'.sh.dupes = t.sh.dupes →
      (∀ i job, a = .thread i .avoidDupes → t.threads[i]? ≠ some (.built job)) ∧
        Copies t'.sh.dupes urls := by
    intro hne heq
    exact ⟨fun i _ ha ↦ absurd ha (hne i), heq ▸ hs⟩
  have hcall : ∀ i job r dupes, a = .thread i .avoidDupes → t.threads[i]? = some (.built job) →
      avoidDupes cfg.alloc t.sh.dupes job.url t.sh.now = some (r, dupes) →
      t'.sh.dupes = dupes → ∃ i job, a = .thread i .avoidDupes ∧
        t.threads[i]? = some (.built job) ∧
          Copies t'.sh.dupes (if job.url ∈ urls then urls else urls ++ [job.url]) := by
    rintro i job r dupes ha hpc hcall rfl
    obtain ⟨r', s', hcall', hs'⟩ := hs.call halloc job.url t.sh.now
    obtain ⟨-, hdupes⟩ := Prod.mk.inj (Option.some.inj (hcall.symm.trans hcall'))
    exact ⟨i, job, ha, hpc, hdupes ▸ hs'⟩
  cases step_cases h with
  | main h =>
    refine .inr (hsame (by simp) ?_)
    generalize t.loop = l at h
    cases h <;> rfl
  | tick => exact .inr (hsame (by simp) rfl)
  | @thread i b pc sh' pc' hloop hpc hstep =>
    cases hstep with
    | drop hfreed hdup hrun => exact .inl (hcall i _ _ _ rfl hpc hrun rfl)
    | letThrough hfreed hrun => exact .inl (hcall i _ _ _ rfl hpc hrun rfl)
    | _ => exact .inr (hsame (by simp) rfl)

/-- A run, and the URLs that were asked for in it. -/
structure Recorded (cfg : Config) (s₀ : Daemon) (acts : List Act) (t : Daemon)
    (urls : List Bytes) : Prop where
  run : run (step cfg) s₀ acts = some t
  copies : Copies t.sh.dupes urls
  mem_iff : ∀ url, url ∈ urls ↔ AskedFor cfg s₀ acts url

theorem Recorded.step (halloc : cfg.alloc.Succeeds) (hr : Recorded cfg s₀ acts t urls)
    (h : step cfg t a = some t') : ∃ urls', Recorded cfg s₀ (acts ++ [a]) t' urls' := by
  have hrun := run_concat_iff.mpr ⟨t, hr.run, h⟩
  rcases hr.copies.daemonStep halloc h with ⟨i, job, ha, hpc, hcopies⟩ | ⟨hnone, hcopies⟩
  · refine ⟨_, hrun, hcopies, fun url ↦ ?_⟩
    have hnew : (∃ i job, a = .thread i .avoidDupes ∧ t.threads[i]? = some (.built job) ∧
        job.url = url) ↔ url = job.url := by
      constructor
      · rintro ⟨j, job', ha', hpc', rfl⟩
        obtain ⟨rfl, -⟩ := Act.thread.inj (ha.symm.trans ha')
        obtain rfl := Pc.built.inj (Option.some.inj (hpc.symm.trans hpc'))
        rfl
      · rintro rfl
        exact ⟨i, job, ha, hpc, rfl⟩
    rw [askedFor_concat hr.run, hnew, ← hr.mem_iff]
    split_ifs with hold
    · exact ⟨.inl, fun h ↦ h.elim id fun h ↦ h ▸ hold⟩
    · rw [List.mem_append, List.mem_singleton]
  · refine ⟨urls, hrun, hcopies, fun url ↦ ?_⟩
    rw [askedFor_concat hr.run, ← hr.mem_iff, or_iff_left]
    rintro ⟨i, job, ha, hpc, -⟩
    exact hnone i job ha hpc

/-- **Memory of the table.** In every run of the daemon, whatever its handlers do between, the table
has a copy of each URL that was asked for, and a number of buckets that is linear in theirs. None of
it is given back before `main` frees the table; then every copy is freed once. -/
theorem table_memory (halloc : cfg.alloc.Succeeds) {c : Int32} {now : Int64} {cache : Cache}
    (hrun : run (step cfg) (Daemon.start c now cache) acts = some t) :
    ∃ urls, TableMemory cfg (Daemon.start c now cache) acts t.sh.dupes urls := by
  have hstart : Recorded cfg (Daemon.start c now cache) [] (Daemon.start c now cache) [] :=
    ⟨rfl, copies_init, fun url ↦ by simp [AskedFor]⟩
  obtain ⟨urls, hr⟩ := run_invariant
    (I := fun as u ↦ ∃ urls, Recorded cfg (Daemon.start c now cache) as u urls) ⟨[], hstart⟩
    (by
      rintro as u a u' ⟨urls, hI⟩ hstep
      exact hI.step halloc hstep) hrun
  refine ⟨urls, hr.copies.nodup, hr.mem_iff, hr.copies.strdups, hr.copies.freed,
    fun map hmap ↦ ?_, hr.copies.settle⟩
  obtain ⟨-, -, -, -, hroomy, -⟩ := hr.copies.table map hmap
  exact hroomy.2

/-- Three requests for two URLs. -/
theorem table_memory_twoUrls : ∃ t urls,
    run (step ⟨twoMirrors, fun _ ↦ none⟩) (Daemon.start 0 0 Cache.empty)
      (fetchOf 0 (bytes "/x") ++ fetchOf 1 (bytes "/y") ++ fetchOf 2 (bytes "/x")) = some t ∧
    TableMemory ⟨twoMirrors, fun _ ↦ none⟩ (Daemon.start 0 0 Cache.empty)
      (fetchOf 0 (bytes "/x") ++ fetchOf 1 (bytes "/y") ++ fetchOf 2 (bytes "/x")) t.sh.dupes urls ∧
    urls.length = 2 := by
  have hstrdups : (run (step ⟨twoMirrors, fun _ ↦ none⟩) (Daemon.start 0 0 Cache.empty)
      (fetchOf 0 (bytes "/x") ++ fetchOf 1 (bytes "/y") ++ fetchOf 2 (bytes "/x"))).map
        (·.sh.dupes.strdups) = some 2 := by decide +kernel
  obtain ⟨t, ht, htwo⟩ := Option.map_eq_some_iff.mp hstrdups
  obtain ⟨urls, hmemory⟩ := table_memory Alloc.ok_succeeds ht
  exact ⟨t, urls, ht, hmemory, hmemory.strdups.symm.trans htwo⟩

end ClrDebugInfo
