import ClrDebugInfo.Server.Failover
import ClrDebugInfo.Server.Mirrors
import ClrDebugInfo.Server.Solo

/-!
# The counter at its limit

`urlcounter` is an `int` that is only ever moved on, and `%` gives a negative remainder of a
negative number. So as long as the counter has not passed `INT_MAX` the index is one of the list,
and from there on only those values of the counter choose a mirror that are multiples of the number
of mirrors, until it has come round to 0.

The counter wraps around here, which the C language does not promise.
-/

namespace ClrDebugInfo

open Runs

variable {cfg : Config} {s : Daemon} {acts : List Act}

/-! ## The index -/

private theorem tmod_nonneg_iff {c : ℤ} {n : ℕ} : 0 ≤ c.tmod n ↔ 0 ≤ c ∨ (n : ℤ) ∣ c := by
  rcases Int.le_total 0 c with hc | hc
  · exact iff_of_true (Int.tmod_nonneg n hc) (.inl hc)
  · have hle : c.tmod n ≤ 0 := by
      have hneg := Int.tmod_nonneg (n : ℤ) (Int.neg_nonneg_of_nonpos hc)
      rw [Int.neg_tmod] at hneg
      omega
    rw [Int.dvd_iff_tmod_eq_zero]
    constructor
    · exact fun h ↦ .inr (Int.le_antisymm hle h)
    · rintro (h | h)
      · rw [Int.le_antisymm hc h, Int.zero_tmod]
      · exact h.ge

theorem mirrorIndex_nonneg_iff {urls : List Bytes} {c : Int32} {k : ℕ} :
    0 ≤ mirrorIndex (c + Int32.ofNat k) urls ↔ (c.toInt + k) % 2 ^ 32 < 2 ^ 31 ∨
      (urls.length : ℤ) ∣ 2 ^ 32 - (c.toInt + k) % 2 ^ 32 := by
  have hcounter : (c + Int32.ofNat k).toInt = Int.bmod (c.toInt + k) (2 ^ 32) := by
    rw [Int32.toInt_add, Int32.toInt_ofNat', Int.add_bmod_bmod]
    rfl
  rw [mirrorIndex, tmod_nonneg_iff, hcounter, Int.bmod_def]
  push_cast
  generalize c.toInt + k = x
  by_cases hx : x % 2 ^ 32 < 2 ^ 31
  · rw [if_pos (by omega)]
    exact iff_of_true (.inl (by omega)) (.inl hx)
  · -- past `INT_MAX` the counter is negative
    rw [if_neg (by omega), or_iff_right (by omega), or_iff_right (by omega), ← Int.neg_sub,
      Int.dvd_neg]

theorem mirrorIndex_lt {urls : List Bytes} (c : Int32) (hne : urls ≠ []) :
    mirrorIndex c urls < urls.length := by
  have hpos : (0 : ℤ) < urls.length := by
    exact_mod_cast List.length_pos_of_ne_nil hne
  exact Int.tmod_lt_of_pos _ hpos

private theorem mirrorUrl_of_nonneg {urls : List Bytes} {c : Int32} (hne : urls ≠ [])
    (h : 0 ≤ mirrorIndex c urls) :
    ∃ base ∈ urls, mirrorUrl urls (mirrorIndex c urls) = some base := by
  have hi : (mirrorIndex c urls).toNat < urls.length := by
    have hlt := mirrorIndex_lt c hne
    omega
  refine ⟨urls[(mirrorIndex c urls).toNat], List.getElem_mem hi, ?_⟩
  rw [mirrorUrl, if_pos h, List.getElem?_eq_getElem hi]

private theorem configureUrls_valid {alloc : ℕ → Bool} {env : Option Bytes} {n : ℕ} {st : UrlList}
    (h : configureUrls alloc env .init = .ok (n, st)) :
    st.urls ≠ [] ∧ st.urlsSize = st.urls.length := by
  have hinit : UrlList.init.urls ≠ [] ∧ UrlList.init.urlsSize = UrlList.init.urls.length :=
    ⟨List.cons_ne_nil _ _, rfl⟩
  cases env with
  | none =>
    obtain ⟨-, rfl⟩ := Prod.mk.inj (Except.ok.inj h)
    exact hinit
  | some value =>
    rw [configureUrls] at h
    cases hloop : configureLoop alloc (value ++ [0]) 0 [] with
    | error e =>
      rw [hloop] at h
      cases h
    | ok urlsNew =>
      rw [hloop] at h
      obtain ⟨-, rfl⟩ := Prod.mk.inj (Except.ok.inj h)
      by_cases hnil : urlsNew.length = 0
      · rw [if_pos hnil]
        exact hinit
      · rw [if_neg hnil]
        exact ⟨List.ne_nil_of_length_pos (Nat.pos_of_ne_zero hnil), rfl⟩

/-! ## Failing transfers -/

/-- The daemon with the mirrors compiled into it. -/
def outageConfig : Config := ⟨⟨Alloc.ok, urlsDefault⟩, fun _ ↦ none⟩

/-- A handler whose transfer fails. -/
def failedVisit : List HandlerAct :=
  [.read (some messageForX), .makeUrl true, .avoidDupes, .perform unavailable, .reply, .finish]

/-- A connection, and the handler for it from beginning to end. -/
def failedFetch (i : ℕ) : List Act :=
  [.main .ready, .main (.accept 5), .main .check, .main .inc, .main (.create true)] ++
    failedVisit.map (.thread i)

/-- A daemon without a connection. -/
def Daemon.idle (d : Dupes) (c : Int32) (now : Int64) (elapsed since n : ℕ) : Daemon :=
  ⟨⟨d, c, false, 0, now, elapsed, Cache.empty⟩, .select since, List.replicate n .ended⟩

theorem failedVisit_run (sh : Shared) {base : Bytes} {d' : Dupes} (hfreed : sh.freed = false)
    (hbase : mirrorUrl urlsDefault (mirrorIndex sh.urlcounter urlsDefault) = some base)
    (hlet : avoidDupes Alloc.ok sh.dupes (requestUrl base jobForX.request) sh.now = some (0, d')) :
    run (soloStep outageConfig) (sh, .entry 5) failedVisit =
      some ({ sh with dupes := d', urlcounter := sh.urlcounter + 1, count := sh.count - 1 },
        .ended) := by
  have hparse : parseRequest (requestBuffer messageForX) = some (some jobForX.request) := by
    decide +kernel
  have hread : handlerStep outageConfig sh (.entry 5) (.read (some messageForX)) =
      some (sh, .parsed jobForX.request) := by
    simp only [handlerStep, hparse]
    rfl
  obtain ⟨job, hurl, hbuild⟩ : ∃ job : Job, job.url = requestUrl base jobForX.request ∧
      handlerStep outageConfig sh (.parsed jobForX.request) (.makeUrl true) =
        some (sh, .built job) := by
    refine ⟨⟨jobForX.request, mirrorIndex sh.urlcounter urlsDefault, _⟩, rfl, ?_⟩
    have hbase' : mirrorUrl outageConfig.urls (mirrorIndex sh.urlcounter outageConfig.urls) =
      some base := hbase
    simp only [handlerStep, hfreed, hbase']
    rfl
  have hadmit : handlerStep outageConfig sh (.built job) .avoidDupes =
      some ({ sh with dupes := d' }, .admitted job) := by
    have hlet' : avoidDupes outageConfig.alloc sh.dupes job.url sh.now = some (0, d') := by
      rw [hurl]
      exact hlet
    simp only [handlerStep, hfreed, hlet']
    rfl
  rw [failedVisit, run_cons_iff]
  refine ⟨_, hread, run_cons_iff.mpr ⟨_, hbuild, run_cons_iff.mpr ⟨_, hadmit, ?_⟩⟩⟩
  rfl

theorem failedFetch_run {d d' : Dupes} {c : Int32} {now : Int64} (elapsed since n : ℕ)
    {base : Bytes} (hbase : mirrorUrl urlsDefault (mirrorIndex c urlsDefault) = some base)
    (hlet : avoidDupes Alloc.ok d (requestUrl base jobForX.request) now = some (0, d')) :
    run (step outageConfig) (.idle d c now elapsed since n) (failedFetch n) =
      some (.idle d' (c + 1) now elapsed elapsed (n + 1)) := by
  have hvisit := failedVisit_run ⟨d, c, false, 1, now, elapsed, Cache.empty⟩ rfl hbase hlet
  have hlast := run_last elapsed (List.replicate n .ended) hvisit
  rw [List.length_replicate, ← List.replicate_succ'] at hlast
  rw [failedFetch, run_append_iff]
  exact ⟨_, rfl, hlast⟩

/-- A table in which the URLs have been entered at time 0. -/
def recorded (urls : List Bytes) : Bytes → Option UInt64 :=
  fun url ↦ if url ∈ urls then some 0 else none

theorem avoidDupes_new {d : Dupes} {urls : List Bytes} {url : Bytes} (hd : Table d (recorded urls))
    (hurl : url ∉ urls) : ∃ d', Table d' (recorded (url :: urls)) ∧
      avoidDupes Alloc.ok d url 0 = some (0, d') := by
  have hnew : recorded urls url = none := if_neg hurl
  rcases avoidDupes_spec Alloc.ok hd url 0 with ⟨tm, _, hold, -⟩ | ⟨-, d', hrun, hd' | ⟨-, hfail⟩⟩ |
    ⟨-, hfail, -⟩
  · rw [hnew] at hold
    exact absurd hold (by simp)
  · refine ⟨d', ?_, hrun⟩
    convert hd' using 1
    funext url'
    by_cases hu : url' = url
    · rw [hu, Function.update_self, recorded, if_pos List.mem_cons_self]
      rfl
    · simp [recorded, hu]
  · exact absurd Alloc.ok_succeeds hfail
  · exact absurd Alloc.ok_succeeds hfail

theorem avoidDupes_old {d : Dupes} {urls : List Bytes} {url : Bytes} {now : Int64}
    (hd : Table d (recorded urls)) (hurl : url ∈ urls) (hnow : 600 ≤ now.toUInt64) :
    ∃ d', Table d' (recorded urls) ∧ avoidDupes Alloc.ok d url now = some (0, d') := by
  have hold : recorded urls url = some 0 := if_pos hurl
  rcases avoidDupes_spec Alloc.ok hd url now with ⟨tm, d', htm, hd', hrun⟩ | ⟨hnew, -⟩ | ⟨hnew, -⟩
  · refine ⟨d', hd', ?_⟩
    obtain rfl := Option.some.inj (hold.symm.trans htm)
    rw [hrun, UInt64.sub_zero, if_neg (UInt64.not_lt.mpr hnow)]
  · exact absurd (hold.symm.trans hnew) (by simp)
  · exact absurd (hold.symm.trans hnew) (by simp)

/-- The URL of the file on each mirror. -/
def urlsForX : List Bytes := urlsDefault.map (requestUrl · jobForX.request)

/-- The file is asked for on each mirror, and ten minutes later `n` times more, once a second. -/
def outage (n : ℕ) : List Act :=
  failedFetch 0 ++ failedFetch 1 ++ [.tick 599 599] ++
    (List.range n).flatMap fun k ↦ .tick 1 (Int64.ofNat (600 + k)) :: failedFetch (k + 2)

private theorem outage_succ (n : ℕ) :
    outage (n + 1) = outage n ++ .tick 1 (Int64.ofNat (600 + n)) :: failedFetch (n + 2) := by
  rw [outage, outage, List.range_succ, List.flatMap_append, List.append_assoc]
  simp

private theorem outage_run_zero : ∃ d, Table d (recorded urlsForX) ∧
    run (step outageConfig) (Daemon.start 1 0 Cache.empty) (outage 0) =
      some (.idle d 3 599 599 0 2) := by
  obtain ⟨b₀, b₁, hb⟩ : ∃ b₀ b₁, urlsDefault = [b₀, b₁] := ⟨_, _, rfl⟩
  have hurls : urlsForX = [requestUrl b₀ jobForX.request, requestUrl b₁ jobForX.request] := by
    rw [urlsForX, hb]
    rfl
  have hnodup : urlsForX.Nodup := by decide
  rw [hurls, List.nodup_cons] at hnodup
  have hinit : Table Dupes.init (recorded []) := table_init
  obtain ⟨d₁, hd₁, hlet₁⟩ := avoidDupes_new hinit List.not_mem_nil
  obtain ⟨d₂, hd₂, hlet₂⟩ := avoidDupes_new hd₁ hnodup.1
  have hmirror₁ : mirrorUrl urlsDefault (mirrorIndex 1 urlsDefault) = some b₁ := by
    have hindex : mirrorIndex 1 urlsDefault = 1 := by decide
    rw [hindex, hb]
    rfl
  have hmirror₀ : mirrorUrl urlsDefault (mirrorIndex 2 urlsDefault) = some b₀ := by
    have hindex : mirrorIndex 2 urlsDefault = 0 := by decide
    rw [hindex, hb]
    rfl
  have hfirst := failedFetch_run 0 0 0 hmirror₁ hlet₁
  have hsecond := failedFetch_run 0 0 1 hmirror₀ hlet₂
  refine ⟨d₂, hurls ▸ hd₂, ?_⟩
  rw [outage, run_append_iff]
  exact ⟨_, run_concat_iff.mpr ⟨_, run_append_iff.mpr ⟨_, hfirst, hsecond⟩, rfl⟩, rfl⟩

private theorem outage_run {k : ℕ} (hk : k ≤ 2 ^ 31 - 2) : ∃ d now elapsed since,
    Table d (recorded urlsForX) ∧
    run (step outageConfig) (Daemon.start 1 0 Cache.empty) (outage k) =
      some (.idle d (3 + Int32.ofNat k) now elapsed since (k + 2)) := by
  induction k with
  | zero =>
    obtain ⟨d, hd, hrun⟩ := outage_run_zero
    exact ⟨d, _, _, _, hd, hrun⟩
  | succ k ih =>
    obtain ⟨d, now, elapsed, since, hd, hrun⟩ := ih (by omega)
    -- the one negative value of the counter that comes up is even
    have hindex : 0 ≤ mirrorIndex (3 + Int32.ofNat k) urlsDefault := by
      have hthree : (3 : Int32).toInt = 3 := rfl
      have htwo : urlsDefault.length = 2 := rfl
      rw [mirrorIndex_nonneg_iff, hthree, htwo]
      omega
    obtain ⟨base, hmem, hbase⟩ := mirrorUrl_of_nonneg (by decide) hindex
    have hnow : 600 ≤ (Int64.ofNat (600 + k)).toUInt64 := by
      rw [Int64.toUInt64_ofNat', UInt64.le_iff_toNat_le,
        UInt64.toNat_ofNat_of_lt' (show 600 + k < 2 ^ 64 by omega)]
      exact Nat.le_add_right 600 k
    obtain ⟨d', hd', hlet⟩ := avoidDupes_old hd (List.mem_map_of_mem hmem) hnow
    have hfetch := failedFetch_run (elapsed + 1) since (k + 2) hbase hlet
    refine ⟨d', Int64.ofNat (600 + k), elapsed + 1, elapsed + 1, hd', ?_⟩
    rw [outage_succ, run_append_iff, Int32.ofNat_add, ← Int32.add_assoc]
    exact ⟨_, hrun, run_cons_iff.mpr ⟨_, rfl, hfetch⟩⟩

/-! ## The index in range -/

/-- **The index is in range** exactly as long as the counter is not negative, or is a multiple of
the number of mirrors, after as many increments as transfers have ended with an error. -/
theorem mirrorIndex_inRange_iff {alloc : ℕ → Bool} {env : Option Bytes} {n : ℕ} {st : UrlList}
    {now : Int64} {cache : Cache} (hst : configureUrls alloc env .init = .ok (n, st))
    (hurls : cfg.urls = st.urls)
    (hrun : run (step cfg) (Daemon.start st.urlcounter now cache) acts = some s) :
    (0 ≤ mirrorIndex s.sh.urlcounter cfg.urls ∧
        mirrorIndex s.sh.urlcounter cfg.urls < st.urlsSize) ↔
      (st.urlcounter.toInt + moves acts) % 2 ^ 32 < 2 ^ 31 ∨
        (st.urlsSize : ℤ) ∣ 2 ^ 32 - (st.urlcounter.toInt + moves acts) % 2 ^ 32 := by
  obtain ⟨hne, hsize⟩ := configureUrls_valid hst
  have hlt : mirrorIndex s.sh.urlcounter cfg.urls < st.urlsSize := by
    rw [hurls, hsize]
    exact mirrorIndex_lt _ hne
  rw [and_iff_left hlt, run_urlcounter hrun, hurls, hsize]
  exact mirrorIndex_nonneg_iff

/-- After 2^31 failures on the default mirrors the index is -1, and no handler gets a URL. -/
theorem mirrorIndex_outage_neg :
    configureUrls (fun _ ↦ true) none .init = .ok (0, .init) ∧ ∃ s,
      run (step outageConfig) (Daemon.start UrlList.init.urlcounter 0 Cache.empty)
        (outage (2 ^ 31 - 2)) = some s ∧
      mirrorIndex s.sh.urlcounter UrlList.init.urls = -1 ∧
      ∀ r, handlerStep outageConfig s.sh (.parsed r) (.makeUrl true) = none := by
  obtain ⟨d, now, elapsed, since, -, hrun⟩ := outage_run (Nat.le_refl (2 ^ 31 - 2))
  have hindex : mirrorIndex (3 + Int32.ofNat (2 ^ 31 - 2)) urlsDefault = -1 := by decide
  refine ⟨rfl, _, hrun, hindex, fun r ↦ ?_⟩
  have hmirror : mirrorUrl outageConfig.urls
      (mirrorIndex (3 + Int32.ofNat (2 ^ 31 - 2)) outageConfig.urls) = none := by
    have hurls : outageConfig.urls = urlsDefault := rfl
    rw [hurls, hindex]
    rfl
  simp only [handlerStep, Daemon.idle, hmirror, Bool.false_eq_true, if_false]

/-- One failure on each of the default mirrors. -/
theorem mirrorIndex_inRange_iff_default : ∃ s,
    run (step outageConfig) (Daemon.start UrlList.init.urlcounter 0 Cache.empty) (outage 0) =
        some s ∧
      ((0 ≤ mirrorIndex s.sh.urlcounter outageConfig.urls ∧
          mirrorIndex s.sh.urlcounter outageConfig.urls < UrlList.init.urlsSize) ↔
        (UrlList.init.urlcounter.toInt + moves (outage 0)) % 2 ^ 32 < 2 ^ 31 ∨
          (UrlList.init.urlsSize : ℤ) ∣
            2 ^ 32 - (UrlList.init.urlcounter.toInt + moves (outage 0)) % 2 ^ 32) := by
  obtain ⟨d, -, hrun⟩ := outage_run_zero
  have hst : configureUrls (fun _ ↦ true) none .init = .ok (0, .init) := rfl
  exact ⟨_, hrun, mirrorIndex_inRange_iff hst rfl hrun⟩

end ClrDebugInfo
