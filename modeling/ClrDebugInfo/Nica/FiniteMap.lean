import Mathlib.Data.UInt
import ClrDebugInfo.Library.Runs
import ClrDebugInfo.Nica.Growth

/-!
# The map as the daemon uses it

A program that keeps strings in the map, puts a string only if it is not there yet, and never
removes one. Its calls go to `nc_hashmap_put`, `nc_hashmap_ensure_get` and `nc_hashmap_size`, and
what they return is what a finite map from strings would return: the chains, the collisions and the
growths do not show.

A run remembers the calls made and the answers given. The bindings of the map are the puts of the
run, whatever addresses the strings were at.
-/

namespace ClrDebugInfo

open Runs

variable {V : Type}

/-! ## Calls -/

/-- A call, on a string at some address. -/
inductive MapCall (V : Type)
  | put (addr : ℕ) (str : Bytes) (value : V)
  | ensureGet (addr : ℕ) (str : Bytes)
  | size

/-- What a call returns. -/
inductive MapAnswer (V : Type)
  | put (ok : Bool)
  | ensureGet (found : Bool) (value : V)
  | size (n : ℤ)

/-- A map in use. -/
structure MapUse (V : Type) where
  heap : Heap StrPtr V
  map : NcHashmap StrPtr V
  past : List (MapCall V × MapAnswer V)

/-! ## The finite map -/

/-- What a call puts. -/
def MapCall.binding : MapCall V → Option (StrPtr × V)
  | .put addr str value => some (.ptr addr str, value)
  | _ => none

/-- What a call puts, as a string. -/
def MapCall.stored : MapCall V → Option (Bytes × V)
  | .put _ str value => some (str, value)
  | _ => none

/-- Every put is for a string that was not put before. -/
def PutsNew (calls : List (MapCall V)) : Prop :=
  ((calls.filterMap MapCall.stored).map Prod.fst).Nodup

instance (calls : List (MapCall V)) : Decidable (PutsNew calls) :=
  inferInstanceAs (Decidable (List.Nodup _))

/-- What a finite map answers after the calls `before`. -/
def Answers (before : List (MapCall V)) : MapCall V → MapAnswer V → Prop
  | .put _ _ _, a => a = .put true
  | .ensureGet _ str, a => ∃ found value, a = .ensureGet found value ∧
      ∀ v, found = true ∧ value = v ↔ (str, v) ∈ before.filterMap MapCall.stored
  | .size, a => a = .size (before.filterMap MapCall.stored).length

/-- Every call of the run was answered as by a finite map. -/
def AnswersAll (past : List (MapCall V × MapAnswer V)) : Prop :=
  ∀ (i : ℕ) (c : MapCall V) (a : MapAnswer V), past[i]? = some (c, a) →
    Answers ((past.take i).map Prod.fst) c a

private theorem mem_stored_iff {calls : List (MapCall V)} {str : Bytes} {value : V} :
    (str, value) ∈ calls.filterMap MapCall.stored ↔
      ∃ addr, (StrPtr.ptr addr str, value) ∈ calls.filterMap MapCall.binding := by
  simp only [List.mem_filterMap]
  constructor
  · rintro ⟨c, hc, hput⟩
    match c with
    | .put addr _ _ =>
      obtain ⟨rfl, rfl⟩ := Prod.mk.inj (Option.some.inj hput)
      exact ⟨addr, _, hc, rfl⟩
  · rintro ⟨addr, c, hc, hput⟩
    match c with
    | .put _ _ _ =>
      obtain ⟨hptr, rfl⟩ := Prod.mk.inj (Option.some.inj hput)
      obtain ⟨rfl, rfl⟩ := StrPtr.ptr.inj hptr
      exact ⟨_, hc, rfl⟩

private theorem length_stored (calls : List (MapCall V)) :
    (calls.filterMap MapCall.stored).length = (calls.filterMap MapCall.binding).length := by
  induction calls with
  | nil => rfl
  | cons c calls ih =>
    match c with
    | .put _ _ _ => exact congrArg (· + 1) ih
    | .ensureGet _ _ => exact ih
    | .size => exact ih

theorem PutsNew.of_concat {calls : List (MapCall V)} {c : MapCall V}
    (h : PutsNew (calls ++ [c])) : PutsNew calls := by
  rw [PutsNew, List.filterMap_append, List.map_append] at h
  exact h.of_append_left

theorem PutsNew.binding_ne {calls : List (MapCall V)} {addr : ℕ} {str : Bytes} {value : V}
    (h : PutsNew (calls ++ [.put addr str value])) :
    ∀ e ∈ calls.filterMap MapCall.binding, e.1 ≠ StrPtr.ptr addr str := by
  rintro ⟨key, v⟩ he rfl
  rw [PutsNew, List.filterMap_append, List.map_append, List.nodup_append] at h
  have hmem : str ∈ (calls.filterMap MapCall.stored).map Prod.fst :=
    List.mem_map.mpr ⟨(str, v), mem_stored_iff.mpr ⟨addr, he⟩, rfl⟩
  exact h.2.2 str hmem str List.mem_cons_self rfl

theorem AnswersAll.concat {past : List (MapCall V × MapAnswer V)} {c : MapCall V}
    {a : MapAnswer V} (h : AnswersAll past) (ha : Answers (past.map Prod.fst) c a) :
    AnswersAll (past ++ [(c, a)]) := by
  intro i c' a' hi
  by_cases hlt : i < past.length
  · rw [List.getElem?_append_left hlt] at hi
    rw [List.take_append_of_le_length hlt.le]
    exact h i c' a' hi
  · obtain ⟨hlen, -⟩ := List.getElem?_eq_some_iff.mp hi
    rw [List.length_append, List.length_singleton] at hlen
    obtain rfl : i = past.length := by omega
    rw [List.getElem?_concat_length, Option.some_inj, Prod.mk.injEq] at hi
    obtain ⟨rfl, rfl⟩ := hi
    rwa [List.take_left']
    rfl

/-! ## The run -/

variable [Zero V]

/-- A fresh map for strings. -/
def MapUse.start (alloc : ℕ → Bool) (h : Heap StrPtr V) (keyFree valueFree : Bool) :
    Option (MapUse V) :=
  match ncHashmapNewFull alloc h ncStringHash ncStringCompare keyFree valueFree with
  | (none, _) => none
  | (some map, h) => some ⟨h, map, []⟩

/-- One call. -/
def MapUse.step (alloc : ℕ → Bool) (s : MapUse V) : MapCall V → Option (MapUse V)
  | .put addr str value =>
    (ncHashmapPut alloc s.heap s.map (.ptr addr str) value).map fun r ↦
      ⟨r.2.1, r.2.2, s.past ++ [(.put addr str value, .put r.1)]⟩
  | .ensureGet addr str =>
    (ncHashmapEnsureGet s.heap s.map (.ptr addr str)).map fun r ↦
      { s with past := s.past ++ [(.ensureGet addr str, .ensureGet r.1 r.2)] }
  | .size => some { s with past := s.past ++ [(.size, .size (ncHashmapSize s.map))] }

/-- The map holds what the calls have put, and they were answered so. -/
structure MapUse.Follows (calls : List (MapCall V)) (s : MapUse V) : Prop where
  hash : s.map.hash = ncStringHash
  compare : s.map.compare = ncStringCompare
  holds : Holds s.heap s.map (calls.filterMap MapCall.binding)
  past : s.past.map Prod.fst = calls
  answers : AnswersAll s.past

theorem MapUse.start_follows {alloc : ℕ → Bool} (halloc : ∀ k, alloc k = true) (h : Heap StrPtr V)
    (keyFree valueFree : Bool) :
    ∃ s, MapUse.start alloc h keyFree valueFree = some s ∧ s.Follows [] := by
  rw [MapUse.start]
  rcases ncHashmapNewFull_spec alloc h ncStringHash ncStringCompare keyFree valueFree with
    ⟨map, h', hrun, hhash, hcmp, H⟩ | ⟨⟨k, hk⟩, -⟩
  · rw [hrun]
    exact ⟨_, rfl, hhash, hcmp, H, rfl, fun i c a hi ↦ absurd hi (by simp)⟩
  · rw [halloc k] at hk
    exact absurd hk (by simp)

theorem MapUse.Follows.ensureGet {calls : List (MapCall V)} {s : MapUse V} (hs : s.Follows calls)
    (hnew : PutsNew calls) (addr : ℕ) (str : Bytes) :
    ∃ found value, ncHashmapEnsureGet s.heap s.map (.ptr addr str) = some (found, value) ∧
      Answers calls (.ensureGet addr str) (.ensureGet found value) := by
  rcases ncHashmapEnsureGet_string hs.holds hs.hash hs.compare addr str with
    ⟨a, value, hmem, hrun⟩ | ⟨hnone, hrun⟩
  · have hstored := mem_stored_iff.mpr ⟨a, hmem⟩
    refine ⟨true, value, hrun, true, value, rfl, fun v ↦ ⟨?_, fun hv ↦ ⟨rfl, ?_⟩⟩⟩
    · rintro ⟨-, rfl⟩
      exact hstored
    · exact (Prod.mk.inj (List.inj_on_of_nodup_map hnew hstored hv rfl)).2
  · refine ⟨false, 0, hrun, false, 0, rfl, fun v ↦ ⟨fun hf ↦ absurd hf.1 (by decide), fun hv ↦ ?_⟩⟩
    obtain ⟨a, hmem⟩ := mem_stored_iff.mp hv
    exact absurd hmem (hnone a v)

theorem MapUse.Follows.put {alloc : ℕ → Bool} (halloc : ∀ k, alloc k = true)
    {calls : List (MapCall V)} {s : MapUse V} (hs : s.Follows calls) {addr : ℕ} {str : Bytes}
    {value : V} (hnew : PutsNew (calls ++ [.put addr str value])) :
    ∃ h' map', ncHashmapPut alloc s.heap s.map (.ptr addr str) value = some (true, h', map') ∧
      map'.hash = ncStringHash ∧ map'.compare = ncStringCompare ∧
      Holds h' map' ((calls ++ [MapCall.put addr str value]).filterMap MapCall.binding) := by
  obtain ⟨ok, h', map', hrun, hhash, hcmp, H, hlucky⟩ :=
    ncHashmapPut_spec alloc value hs.holds hnew.binding_ne
  cases ok with
  | false =>
    obtain ⟨k, hk⟩ := hlucky rfl
    rw [halloc k] at hk
    exact absurd hk (by simp)
  | true =>
    refine ⟨h', map', hrun, hhash.trans hs.hash, hcmp.trans hs.compare, ?_⟩
    rw [if_pos rfl, Multiset.cons_coe] at H
    rw [List.filterMap_append]
    convert H using 1
    exact Multiset.coe_eq_coe.mpr List.perm_append_comm

theorem MapUse.Follows.concat {calls : List (MapCall V)} {s : MapUse V} (hs : s.Follows calls)
    {c : MapCall V} {a : MapAnswer V} (hc : c.binding = none) (ha : Answers calls c a) :
    MapUse.Follows (calls ++ [c]) { s with past := s.past ++ [(c, a)] } := by
  refine ⟨hs.hash, hs.compare, ?_, ?_, hs.answers.concat (hs.past.symm ▸ ha)⟩
  · rw [List.filterMap_append, List.filterMap_cons_none hc, List.filterMap_nil, List.append_nil]
    exact hs.holds
  · rw [List.map_append, hs.past]
    rfl

/-- **One call.** It returns, and the map follows. -/
theorem MapUse.Follows.step {alloc : ℕ → Bool} (halloc : ∀ k, alloc k = true)
    {calls : List (MapCall V)} {s : MapUse V} (hs : s.Follows calls) {c : MapCall V}
    (hnew : PutsNew (calls ++ [c])) :
    ∃ s', MapUse.step alloc s c = some s' ∧ s'.Follows (calls ++ [c]) := by
  match c with
  | .put addr str value =>
    obtain ⟨h', map', hrun, hhash, hcmp, H⟩ := hs.put halloc hnew
    have ha : Answers (s.past.map Prod.fst) (.put addr str value) (.put true) := rfl
    refine ⟨_, by rw [MapUse.step, hrun, Option.map_some], hhash, hcmp, H, ?_,
      hs.answers.concat ha⟩
    rw [List.map_append, hs.past]
    rfl
  | .ensureGet addr str =>
    obtain ⟨found, value, hrun, ha⟩ := hs.ensureGet hnew.of_concat addr str
    exact ⟨_, by rw [MapUse.step, hrun, Option.map_some], hs.concat rfl ha⟩
  | .size =>
    refine ⟨_, rfl, hs.concat rfl ?_⟩
    rw [Answers, length_stored, ncHashmapSize, hs.holds.size, Multiset.coe_card]

/-- **The map is a finite map.** In a run in which every put is for a new string, every call
returns what a finite map from strings would. -/
theorem mapUse_finiteMap {alloc : ℕ → Bool} (halloc : ∀ k, alloc k = true) (h : Heap StrPtr V)
    (keyFree valueFree : Bool) {calls : List (MapCall V)} (hnew : PutsNew calls) :
    ∃ s₀ s, MapUse.start alloc h keyFree valueFree = some s₀ ∧
      run (MapUse.step alloc) s₀ calls = some s ∧ s.past.map Prod.fst = calls ∧
      AnswersAll s.past := by
  obtain ⟨s₀, hstart, hs₀⟩ := MapUse.start_follows halloc h keyFree valueFree
  obtain ⟨s, hrun, hs⟩ := run_total (I := MapUse.Follows) (C := PutsNew) hs₀
    (fun _ _ h ↦ h.of_concat) (fun _ _ _ hC hI ↦ hI.step halloc hC) hnew
  exact ⟨s₀, s, hstart, hrun, hs.past, hs.answers⟩

/-- Two puts, a lookup of the first string at another address, and the size. -/
theorem mapUse_finiteMap_two : ∃ s₀ s, MapUse.start (fun _ ↦ true) Heap.empty true false = some s₀ ∧
    run (MapUse.step fun _ ↦ true) s₀
      [.put 1 (bytes "a") (10 : UInt64), .put 2 (bytes "b") 20, .ensureGet 3 (bytes "a"), .size] =
        some s ∧
      s.past.map Prod.fst =
        [.put 1 (bytes "a") 10, .put 2 (bytes "b") 20, .ensureGet 3 (bytes "a"), .size] ∧
      AnswersAll s.past :=
  mapUse_finiteMap (fun _ ↦ rfl) Heap.empty true false (by decide)

end ClrDebugInfo
