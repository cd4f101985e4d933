import Mathlib.Data.Set.Card
import ClrDebugInfo.Nica.Removal

/-!
# Membership

Whether a key is in the map, as `nc_hashmap_ensure_get`, `nc_hashmap_contains`,
`nc_hashmap_remove` and `nc_hashmap_steal` tell it, and what `nc_hashmap_size` counts.

All four walk the chain of the key and stop at the first cell that `compare` takes for it. An
unoccupied cell holds the key `NULL`, so a key that equals `NULL` stops at the first unoccupied
cell, and the walk takes that for an entry. And `nc_hashmap_contains` takes an entry whose value is
`NULL` for none.
-/

namespace ClrDebugInfo

open LinkedChain Runs

variable {K V : Type}

/-! ## What is in the map -/

/-- Where the walk for a key starts. -/
def headOf (map : NcHashmap K V) (key : K) : ℕ :=
  map.buckets + (ncHashmapGetHash map key).toNat % map.nBuckets

/-- An occupied cell of the map. -/
def Occupied (s : Heap K V × NcHashmap K V) (a : ℕ) : Prop :=
  ∃ i < s.2.nBuckets, ∃ l, Chain s.1.next (some (s.2.buckets + i)) l ∧ a ∈ l ∧
    (s.1.cell a).occ = true

/-- A cell is an entry of a key: it is occupied, with an equal key. -/
def IsEntry (s : Heap K V × NcHashmap K V) (key : K) (a : ℕ) : Prop :=
  (s.1.cell a).occ = true ∧ s.2.compare (s.1.cell a).hash key = true

/-- There is an entry of the key. -/
def Stored (s : Heap K V × NcHashmap K V) (key : K) : Prop :=
  ∃ a, Occupied s a ∧ s.2.compare (s.1.cell a).hash key = true

/-- The key equals `NULL`, and on its chain an unoccupied cell comes before every entry of it. -/
def Hidden [Zero K] (s : Heap K V × NcHashmap K V) (key : K) : Prop :=
  s.2.compare 0 key = true ∧ ∃ front row back,
    Chain s.1.next (some (headOf s.2 key)) (front ++ row :: back) ∧
      (s.1.cell row).occ = false ∧ ∀ a ∈ front, ¬IsEntry s key a

/-- The first entry of the key, if there is one, has a value other than `NULL`. -/
def FirstValueSet [Zero V] (s : Heap K V × NcHashmap K V) (key : K) : Prop :=
  ∀ front row back, Chain s.1.next (some (headOf s.2 key)) (front ++ row :: back) →
    IsEntry s key row → (∀ a ∈ front, ¬IsEntry s key a) → (s.1.cell row).value ≠ 0

variable [Zero K] [Zero V] [DecidableEq V]

/-- The calls agree with what is in the map. -/
structure Consistent (s : Heap K V × NcHashmap K V) (key : K) : Prop where
  ensureGet : ∃ found value, ncHashmapEnsureGet s.1 s.2 key = some (found, value) ∧
    (found = true ↔ Stored s key)
  contains : ∃ found, ncHashmapContains s.1 s.2 key = some found ∧ (found = true ↔ Stored s key)
  remove : ∃ ok s', ncHashmapRemove s.1 s.2 key = some (ok, s') ∧ (ok = true ↔ Stored s key) ∧
    (ok = false → s' = s)
  steal : ∃ ok s', ncHashmapSteal s.1 s.2 key = some (ok, s') ∧ (ok = true ↔ Stored s key) ∧
    (ok = false → s' = s)
  size : ncHashmapSize s.2 = {a | Occupied s a}.ncard

/-- A removal or a steal is not of a hidden key. -/
def TakesNoHidden (s : Heap K V × NcHashmap K V) : MapAct K V → Prop
  | .put _ _ => True
  | .remove key => ¬Hidden s key
  | .steal key => ¬Hidden s key

/-! ## The walk -/

variable {s s' : Heap K V × NcHashmap K V} {chains : ℕ → List ℕ} {key : K}

/-- The test of `nc_hashmap_get_entry`. -/
def takenFor (s : Heap K V × NcHashmap K V) (key : K) (row : ℕ) : Bool :=
  s.2.compare (s.1.cell row).hash key

private theorem find?_append_cons_of_pos {p : ℕ → Bool} (front back : List ℕ) {row : ℕ}
    (hrow : p row = true) :
    (front ++ row :: back).find? p = some row ∧ (∀ a ∈ front, p a = false) ∨
      ∃ a ∈ front, (front ++ row :: back).find? p = some a ∧ p a = true := by
  rw [List.find?_append]
  cases hfront : front.find? p with
  | none =>
    rw [Option.none_or, List.find?_cons_of_pos hrow]
    refine Or.inl ⟨rfl, fun a ha ↦ ?_⟩
    simpa using List.find?_eq_none.mp hfront a ha
  | some a =>
    exact Or.inr ⟨a, List.mem_of_find?_eq_some hfront, rfl, List.find?_some hfront⟩

omit [DecidableEq V] in
theorem Buckets.hidden_iff (B : Buckets s.2.hash s.1 s.2.buckets s.2.nBuckets chains) :
    Hidden s key ↔ ∃ row, (chains ((s.2.hash key).toNat % s.2.nBuckets)).find?
      (takenFor s key) = some row ∧
        (s.1.cell row).occ = false := by
  have hi := B.index_lt (s.2.hash key)
  have hchain := B.chain _ hi
  constructor
  · rintro ⟨h0, front, row, back, hl, hocc, hfront⟩
    have heq := hchain.unique hl
    have hzero := (B.blank _ hi row (by rw [heq]; simp) hocc).1
    rw [heq]
    have hrow : takenFor s key row = true := by rwa [takenFor, hzero]
    rcases find?_append_cons_of_pos front back hrow with ⟨hfind, -⟩ | ⟨a, ha, hfind, hmatch⟩
    · exact ⟨row, hfind, hocc⟩
    · refine ⟨a, hfind, ?_⟩
      by_contra ho
      exact hfront a ha ⟨Bool.not_eq_false _ ▸ ho, hmatch⟩
  · rintro ⟨row, hfind, hocc⟩
    obtain ⟨hmatch, front, back, heq, hfront⟩ := List.find?_eq_some_iff_append.mp hfind
    have hzero := (B.blank _ hi row (List.mem_of_find?_eq_some hfind) hocc).1
    rw [takenFor, hzero] at hmatch
    refine ⟨hmatch, front, row, back, heq ▸ hchain, hocc, fun a ha he ↦ ?_⟩
    have hnot := hfront a ha
    rw [takenFor, he.2] at hnot
    exact absurd hnot (by simp)

omit [DecidableEq V] in
theorem Buckets.firstValueSet_iff (B : Buckets s.2.hash s.1 s.2.buckets s.2.nBuckets chains)
    (hseen : ¬Hidden s key) :
    FirstValueSet s key ↔ ∀ row, (chains ((s.2.hash key).toNat % s.2.nBuckets)).find?
      (takenFor s key) = some row → (s.1.cell row).value ≠ 0 := by
  have hi := B.index_lt (s.2.hash key)
  have hchain := B.chain _ hi
  have hocc : ∀ row, (chains ((s.2.hash key).toNat % s.2.nBuckets)).find?
      (takenFor s key) = some row →
      (s.1.cell row).occ = true := by
    intro row hfind
    by_contra ho
    exact hseen (B.hidden_iff.mpr ⟨row, hfind, Bool.not_eq_true _ ▸ ho⟩)
  constructor
  · intro hset row hfind
    obtain ⟨hmatch, front, back, heq, hfront⟩ := List.find?_eq_some_iff_append.mp hfind
    refine hset front row back (heq ▸ hchain) ⟨hocc row hfind, hmatch⟩ fun a ha he ↦ ?_
    have hnot := hfront a ha
    rw [takenFor, he.2] at hnot
    exact absurd hnot (by simp)
  · intro hset front row back hl hrow hfront
    rw [hchain.unique hl] at hset hocc
    have htaken : takenFor s key row = true := hrow.2
    rcases find?_append_cons_of_pos front back htaken with ⟨hfind, -⟩ | ⟨a, ha, hfind, hmatch⟩
    · exact hset row hfind
    · exact absurd ⟨hocc a hfind, hmatch⟩ (hfront a ha)

omit [DecidableEq V] in
theorem Buckets.occupied_iff (B : Buckets s.2.hash s.1 s.2.buckets s.2.nBuckets chains) {a : ℕ} :
    Occupied s a ↔ a ∈ entries s.1 s.2.nBuckets chains := by
  rw [mem_entries]
  constructor
  · rintro ⟨i, hi, l, hl, ha, hocc⟩
    exact ⟨i, hi, (B.chain i hi).unique hl ▸ ha, hocc⟩
  · rintro ⟨i, hi, ha, hocc⟩
    exact ⟨i, hi, _, B.chain i hi, ha, hocc⟩

omit [DecidableEq V] in
theorem Buckets.stored_iff (B : Buckets s.2.hash s.1 s.2.buckets s.2.nBuckets chains)
    (hcompat : ∀ k, s.2.compare k key = true → s.2.hash k = s.2.hash key) :
    Stored s key ↔ ∃ a ∈ chains ((s.2.hash key).toNat % s.2.nBuckets), IsEntry s key a := by
  have hi := B.index_lt (s.2.hash key)
  constructor
  · rintro ⟨a, ⟨i, hi, l, hl, ha, hocc⟩, hmatch⟩
    rw [← (B.chain i hi).unique hl] at ha
    have hplaced := B.placed i hi a ha hocc
    rw [hcompat _ hmatch] at hplaced
    exact ⟨a, hplaced ▸ ha, hocc, hmatch⟩
  · rintro ⟨a, ha, hocc, hmatch⟩
    exact ⟨a, ⟨_, hi, _, B.chain _ hi, ha, hocc⟩, hmatch⟩

/-- **The answers.** They agree with what is in the map exactly if the key is not hidden and its
value can be told from a missing one. -/
theorem Buckets.consistent_iff (B : Buckets s.2.hash s.1 s.2.buckets s.2.nBuckets chains)
    (hcompat : ∀ k, s.2.compare k key = true → s.2.hash k = s.2.hash key) :
    Consistent s key ↔ ¬Hidden s key ∧ FirstValueSet s key ∧
      ncHashmapSize s.2 = {a | Occupied s a}.ncard := by
  have hget : ncHashmapGetEntry s.1 s.2 key =
      some ((chains ((s.2.hash key).toNat % s.2.nBuckets)).find? (takenFor s key)) :=
    B.getEntry key
  constructor
  · intro C
    have hensure := C.ensureGet
    have hcontains := C.contains
    rw [ncHashmapEnsureGet, hget] at hensure
    rw [ncHashmapContains, ncHashmapGet, hget] at hcontains
    have hfound : ∀ row, (chains ((s.2.hash key).toNat % s.2.nBuckets)).find?
        (takenFor s key) = some row → (s.1.cell row).value ≠ 0 := by
      intro row hfind
      rw [hfind] at hensure hcontains
      obtain ⟨_, _, heq, hstored⟩ := hensure
      obtain ⟨_, heq', hstored'⟩ := hcontains
      obtain ⟨rfl, rfl⟩ := Prod.mk.inj (Option.some.inj heq)
      obtain rfl := Option.some.inj heq'
      exact of_decide_eq_true (hstored'.mpr (hstored.mp rfl))
    have hseen : ¬Hidden s key := by
      intro hhidden
      obtain ⟨row, hfind, hocc⟩ := B.hidden_iff.mp hhidden
      have hi := B.index_lt (s.2.hash key)
      exact hfound row hfind (B.blank _ hi row (List.mem_of_find?_eq_some hfind) hocc).2
    exact ⟨hseen, (B.firstValueSet_iff hseen).mpr hfound, C.size⟩
  · rintro ⟨hseen, hset, hsize⟩
    rw [B.firstValueSet_iff hseen] at hset
    cases hfind : (chains ((s.2.hash key).toNat % s.2.nBuckets)).find? (takenFor s key) with
    | none =>
      rw [hfind] at hget
      have hnot : ¬Stored s key := by
        rw [B.stored_iff hcompat]
        rintro ⟨a, ha, he⟩
        exact List.find?_eq_none.mp hfind a ha he.2
      have hfalse : false = true ↔ Stored s key := iff_of_false Bool.false_ne_true hnot
      refine ⟨⟨false, 0, ?_, hfalse⟩, ⟨false, ?_, hfalse⟩, ⟨false, s, ?_, hfalse, fun _ ↦ rfl⟩,
        ⟨false, s, ?_, hfalse, fun _ ↦ rfl⟩, hsize⟩
      · rw [ncHashmapEnsureGet, hget, Option.map_some]
      · rw [ncHashmapContains, ncHashmapGet, hget, Option.map_some, Option.map_some]
        simp
      · rw [ncHashmapRemove, ncHashmapRemoveInternal, hget, Option.map_some]
      · rw [ncHashmapSteal, ncHashmapRemoveInternal, hget, Option.map_some]
    | some row =>
      rw [hfind] at hget
      have hocc : (s.1.cell row).occ = true := by
        by_contra ho
        exact hseen (B.hidden_iff.mpr ⟨row, hfind, Bool.not_eq_true _ ▸ ho⟩)
      have htaken : takenFor s key row = true := List.find?_some hfind
      have hstored : Stored s key :=
        (B.stored_iff hcompat).mpr ⟨row, List.mem_of_find?_eq_some hfind, hocc, htaken⟩
      have htrue : true = true ↔ Stored s key := iff_of_true rfl hstored
      have hremove : ∀ remove, ∃ s', ncHashmapRemoveInternal s.1 s.2 key remove = some (true, s') :=
        fun remove ↦ ⟨_, by rw [ncHashmapRemoveInternal, hget, Option.map_some]⟩
      obtain ⟨s₁, hs₁⟩ := hremove true
      obtain ⟨s₂, hs₂⟩ := hremove false
      refine ⟨⟨true, (s.1.cell row).value, ?_, htrue⟩, ⟨true, ?_, htrue⟩,
        ⟨true, s₁, hs₁, htrue, by simp⟩, ⟨true, s₂, hs₂, htrue, by simp⟩, hsize⟩
      · rw [ncHashmapEnsureGet, hget, Option.map_some]
      · rw [ncHashmapContains, ncHashmapGet, hget, Option.map_some, Option.map_some]
        simpa using hset row hfind

/-! ## Runs -/

omit [DecidableEq V] in
theorem TableOf.ncard_occupied {d : Multiset (K × V)} (hs : TableOf s d) :
    {a | Occupied s a}.ncard = d.card := by
  obtain ⟨chains, B, rfl⟩ := hs
  have hset : {a | Occupied s a} = ((entries s.1 s.2.nBuckets chains).toFinset : Set ℕ) := by
    ext a
    simp [B.occupied_iff]
  rw [hset, Set.ncard_coe_finset, List.toFinset_card_of_nodup B.hasChains.nodup_entries,
    content_eq_entries, Multiset.coe_card, List.length_map]

omit [DecidableEq V] in
theorem TableOf.hidden_iff {d : Multiset (K × V)} (hs : TableOf s d) (key : K) :
    Hidden s key ↔ ∃ row, ncHashmapGetEntry s.1 s.2 key = some (some row) ∧
      (s.1.cell row).occ = false := by
  obtain ⟨chains, B, -⟩ := hs
  rw [B.hidden_iff, B.getEntry key]
  simp only [Option.some_inj]
  rfl

/-- Keys that are equal have the same hash. -/
def Compatible (map : NcHashmap K V) : Prop :=
  ∀ k l, map.compare k l = true → map.hash k = map.hash l

omit [Zero K] [Zero V] [DecidableEq V] in
theorem Compatible.of_same {map map' : NcHashmap K V} (h : Compatible map)
    (hsame : SameFunctions map map') : Compatible map' := by
  rw [Compatible, hsame.hash, hsame.compare]
  exact h

omit [Zero K] [Zero V] [DecidableEq V] in
theorem ncSimple_compatible {map : NcHashmap UInt64 V} (hcompare : map.compare = ncSimpleCompare) :
    Compatible map := by
  intro k l hkl
  rw [hcompare] at hkl
  rw [beq_iff_eq.mp hkl]

omit [Zero K] [Zero V] [DecidableEq V] in
theorem ncString_compatible {map : NcHashmap StrPtr V} (hhash : map.hash = ncStringHash)
    (hcompare : map.compare = ncStringCompare) : Compatible map := by
  intro k l hkl
  rw [hcompare] at hkl
  match k, l with
  | .ptr _ str, .ptr _ str' =>
    obtain rfl := of_decide_eq_true hkl
    rw [hhash]
    rfl

/-- The map is a table, and its size is the number of its bindings. -/
def Counts (s : Heap K V × NcHashmap K V) : Prop := ∃ d, TableOf s d ∧ s.2.size = d.card

omit [DecidableEq V] in
theorem Counts.isTable (hs : Counts s) : IsTable s := by
  obtain ⟨d, hd, -⟩ := hs
  exact hd.isTable

variable [DecidableEq K] {alloc : ℕ → Bool} {acts : List (MapAct K V)}

omit [DecidableEq V] in
theorem TableOf.take (alloc : ℕ → Bool) {d : Multiset (K × V)} (hs : TableOf s d)
    {a : MapAct K V} (ha : a = .remove key ∨ a = .steal key) :
    ∃ row ok s' d' remove, ncHashmapGetEntry s.1 s.2 key = some row ∧
      mapStep alloc s a = some s' ∧ TableOf s' d' ∧ RemoveEffect s d remove row ok s' d' ∧
      SameFunctions s.2 s'.2 := by
  rcases ha with rfl | rfl
  · obtain ⟨row, ok, s', d', hget, hrun, hs', E, hsame⟩ := hs.remove key true
    exact ⟨row, ok, s', d', true, hget, by rw [mapStep, ncHashmapRemove, hrun, Option.map_some],
      hs', E, hsame⟩
  · obtain ⟨row, ok, s', d', hget, hrun, hs', E, hsame⟩ := hs.remove key false
    exact ⟨row, ok, s', d', false, hget, by rw [mapStep, ncHashmapSteal, hrun, Option.map_some],
      hs', E, hsame⟩

omit [DecidableEq V] in
theorem Counts.take (alloc : ℕ → Bool) (hs : Counts s) {a : MapAct K V}
    (ha : a = .remove key ∨ a = .steal key) :
    ∃ s', mapStep alloc s a = some s' ∧ (¬Hidden s key → Counts s') ∧
      (Hidden s key → ncHashmapSize s'.2 ≠ {a | Occupied s' a}.ncard) := by
  obtain ⟨d, hd, hsize⟩ := hs
  obtain ⟨row, ok, s', d', remove, hget, hrun, hs', E, -⟩ := hd.take alloc ha
  refine ⟨s', hrun, ?_⟩
  rw [hs'.ncard_occupied, hd.hidden_iff, hget, ncHashmapSize]
  cases E with
  | absent => exact ⟨fun _ ↦ ⟨d, hd, hsize⟩, fun ⟨_, hnone, _⟩ ↦ absurd hnone (by simp)⟩
  | removed hocc hd' hfreed hsize' =>
    refine ⟨fun _ ↦ ⟨d', hs', ?_⟩, fun ⟨row', hrow', hocc'⟩ ↦ ?_⟩
    · rw [hsize', hsize, hd', Multiset.card_cons]
      omega
    · obtain rfl := Option.some.inj (Option.some.inj hrow')
      rw [hocc] at hocc'
      exact absurd hocc' (by simp)
  | hidden hocc hzero hfreed hsize' =>
    refine ⟨fun hseen ↦ absurd ⟨_, rfl, hocc⟩ hseen, fun _ ↦ ?_⟩
    rw [hsize', hsize]
    omega

omit [DecidableEq V] in
theorem Counts.step (hs : Counts s) {a : MapAct K V} (hforward : LinksForward s a)
    (htake : TakesNoHidden s a) : ∃ s', mapStep alloc s a = some s' ∧ Counts s' := by
  match a with
  | .put key value =>
    obtain ⟨d, hd, hsize⟩ := hs
    obtain ⟨ok, s', d', hrun, hs', -, -, hsize'⟩ := hd.put alloc value hforward
    exact ⟨s', by rw [mapStep, hrun, Option.map_some], d', hs', hsize' hsize⟩
  | .remove key =>
    obtain ⟨s', hrun, hcounts, -⟩ := hs.take alloc (Or.inl rfl)
    exact ⟨s', hrun, hcounts htake⟩
  | .steal key =>
    obtain ⟨s', hrun, hcounts, -⟩ := hs.take alloc (Or.inr rfl)
    exact ⟨s', hrun, hcounts htake⟩

omit [DecidableEq V] in
theorem IsTable.step_compatible (alloc : ℕ → Bool) (hs : IsTable s) (hcompat : Compatible s.2)
    {a : MapAct K V} (hforward : LinksForward s a) :
    ∃ s', mapStep alloc s a = some s' ∧ IsTable s' ∧ Compatible s'.2 := by
  obtain ⟨d, hd⟩ := hs.bindings
  match a with
  | .put key value =>
    obtain ⟨ok, s', d', hrun, hs', -, hsame, -⟩ := hd.put alloc value hforward
    exact ⟨s', by rw [mapStep, hrun, Option.map_some], hs'.isTable, hcompat.of_same hsame⟩
  | .remove key =>
    obtain ⟨_, _, s', _, _, -, hrun, hs', -, hsame⟩ := hd.take alloc (Or.inl rfl)
    exact ⟨s', hrun, hs'.isTable, hcompat.of_same hsame⟩
  | .steal key =>
    obtain ⟨_, _, s', _, _, -, hrun, hs', -, hsame⟩ := hd.take alloc (Or.inr rfl)
    exact ⟨s', hrun, hs'.isTable, hcompat.of_same hsame⟩

omit [DecidableEq V] in
/-- The chains end all along exactly if no put links a cell back. -/
theorem IsTable.chainsEnd_iff (hs : IsTable s) :
    (∀ before, before <+: acts → ∃ t, run (mapStep alloc) s before = some t ∧ ChainsEnd t) ↔
      AllSteps (mapStep alloc) LinksForward s acts :=
  (allSteps_iff_of_invariant hs (fun _ _ hI hC ↦ hI.step alloc hC) (fun _ hI ↦ hI.chainsEnd)
    fun _ _ _ hI hC hstep ↦ hI.not_chainsEnd hC hstep).symm

omit [DecidableEq V] in
/-- The size is right all along exactly if no removal and no steal is of a hidden key. -/
theorem Counts.size_iff (hs : Counts s) :
    AllSteps (mapStep alloc) (fun s a ↦ LinksForward s a ∧ TakesNoHidden s a) s acts ↔
      ∀ before, before <+: acts → ∃ t, run (mapStep alloc) s before = some t ∧ ChainsEnd t ∧
        ncHashmapSize t.2 = {a | Occupied t a}.ncard := by
  refine allSteps_iff_of_invariant hs (fun s a hI hC ↦ hI.step hC.1 hC.2) (fun s hI ↦ ?_) ?_
  · obtain ⟨d, hd, hsize⟩ := hI
    exact ⟨hd.isTable.chainsEnd, by rw [hd.ncard_occupied, ncHashmapSize, hsize]⟩
  · rintro s a s' hI hC hstep ⟨hends, hsize⟩
    by_cases hforward : LinksForward s a
    · have htake : ¬TakesNoHidden s a := fun htake ↦ hC ⟨hforward, htake⟩
      match a with
      | .put key value => exact htake trivial
      | .remove key =>
        obtain ⟨s₁, hrun, -, hwrong⟩ := hI.take alloc (Or.inl rfl)
        obtain rfl := Option.some.inj (hrun.symm.trans hstep)
        exact hwrong (not_not.mp htake) hsize
      | .steal key =>
        obtain ⟨s₁, hrun, -, hwrong⟩ := hI.take alloc (Or.inr rfl)
        obtain rfl := Option.some.inj (hrun.symm.trans hstep)
        exact hwrong (not_not.mp htake) hsize
    · exact hI.isTable.not_chainsEnd hforward hstep hends

omit [DecidableEq V] [DecidableEq K] in
theorem Created.counts (hs : Created alloc s) : Counts s := by
  obtain ⟨chains, B, -, hd⟩ := hs.holds.table
  exact ⟨_, ⟨chains, B, rfl⟩, by rw [hs.holds.size, hd]⟩

/-- **Membership.** In a run of a new map whose chains end, every call on `key` tells whether the
key is there, and the size is the number of entries, in every state reached, exactly if no removal
and no steal of the run is of a hidden key, and in no state reached `key` is hidden or the value of
its entry is `NULL`. -/
theorem membership_consistent_iff (hs : Created alloc s) (hcompat : Compatible s.2)
    (hends : ∀ before, before <+: acts →
      ∃ t, run (mapStep alloc) s before = some t ∧ ChainsEnd t) (key : K) :
    (∀ before, before <+: acts →
        ∃ t, run (mapStep alloc) s before = some t ∧ Consistent t key) ↔
      AllSteps (mapStep alloc) TakesNoHidden s acts ∧
        ∀ before, before <+: acts → ∀ t, run (mapStep alloc) s before = some t →
          ¬Hidden t key ∧ FirstValueSet t key := by
  have hcounts := hs.counts
  have hforward := hcounts.isTable.chainsEnd_iff.mp hends
  -- every state reached is a table
  have htable : ∀ before, before <+: acts → ∀ t, run (mapStep alloc) s before = some t →
      (Consistent t key ↔ ¬Hidden t key ∧ FirstValueSet t key ∧
        ncHashmapSize t.2 = {a | Occupied t a}.ncard) := by
    intro before hbefore t hrun
    obtain ⟨⟨chains, B⟩, hcompat⟩ := (hforward.of_prefix hbefore).run_invariant
      (I := fun t ↦ IsTable t ∧ Compatible t.2) ⟨hcounts.isTable, hcompat⟩
      (fun s a s' hI hC hstep ↦ by
        obtain ⟨s₁, hrun, hI'⟩ := hI.1.step_compatible alloc hI.2 hC
        obtain rfl := Option.some.inj (hrun.symm.trans hstep)
        exact hI') hrun
    exact B.consistent_iff fun k hk ↦ hcompat k key hk
  constructor
  · intro h
    constructor
    · refine (hcounts.size_iff.mpr fun before hbefore ↦ ?_).mono fun _ _ hC ↦ hC.2
      obtain ⟨t, hrun, C⟩ := h before hbefore
      obtain ⟨t', hrun', hend⟩ := hends before hbefore
      obtain rfl := Option.some.inj (hrun.symm.trans hrun')
      exact ⟨t, hrun, hend, C.size⟩
    · intro before hbefore t hrun
      obtain ⟨t', hrun', C⟩ := h before hbefore
      obtain rfl := Option.some.inj (hrun.symm.trans hrun')
      obtain ⟨hseen, hset, -⟩ := (htable before hbefore t hrun).mp C
      exact ⟨hseen, hset⟩
  · rintro ⟨htake, hclear⟩ before hbefore
    obtain ⟨t, hrun, -, hsize⟩ := hcounts.size_iff.mp (hforward.and htake) before hbefore
    obtain ⟨hseen, hset⟩ := hclear before hbefore t hrun
    exact ⟨t, hrun, (htable before hbefore t hrun).mpr ⟨hseen, hset, hsize⟩⟩

omit [DecidableEq V] in
theorem Created.linksForward (hs : Created alloc s) (key : K) (value : V) :
    LinksForward s (.put key value) := by
  obtain ⟨chains, B, hT, -⟩ := hs.holds.table
  have hi := B.index_lt (s.2.hash key)
  refine Or.inr fun l hl ↦ ?_
  rw [← (B.chain _ hi).unique hl]
  exact hT.not_linksBack hi

omit [DecidableEq V] [DecidableEq K] in
theorem TableOf.binding_mem {d : Multiset (K × V)} (hs : TableOf s d) {a : ℕ}
    (ha : Occupied s a) : binding s.1 a ∈ d := by
  obtain ⟨chains, B, rfl⟩ := hs
  rw [content_eq_entries]
  exact List.mem_map.mpr ⟨a, B.occupied_iff.mp ha, rfl⟩

/-- An integer that is put and removed again; and a string, which is removed by a copy of it. -/
theorem membership_consistent_iff_putRemove :
    (∃ s : Heap UInt64 UInt64 × NcHashmap UInt64 UInt64, Created (fun _ ↦ true) s ∧
      ((∀ before, before <+: [.put 1 10, .remove 1] →
          ∃ t, run (mapStep fun _ ↦ true) s before = some t ∧ Consistent t 1) ↔
        AllSteps (mapStep fun _ ↦ true) TakesNoHidden s [.put 1 10, .remove 1] ∧
          ∀ before, before <+: [.put 1 10, .remove 1] →
            ∀ t, run (mapStep fun _ ↦ true) s before = some t →
              ¬Hidden t 1 ∧ FirstValueSet t 1)) ∧
    ∃ s : Heap StrPtr UInt64 × NcHashmap StrPtr UInt64, Created (fun _ ↦ true) s ∧
      s.2.hash = ncStringHash ∧ s.2.compare = ncStringCompare ∧
      ((∀ before, before <+: [.put (.ptr 1 [97]) 10, .remove (.ptr 2 [97])] →
          ∃ t, run (mapStep fun _ ↦ true) s before = some t ∧ Consistent t (.ptr 2 [97])) ↔
        AllSteps (mapStep fun _ ↦ true) TakesNoHidden s
            [.put (.ptr 1 [97]) 10, .remove (.ptr 2 [97])] ∧
          ∀ before, before <+: [.put (.ptr 1 [97]) 10, .remove (.ptr 2 [97])] →
            ∀ t, run (mapStep fun _ ↦ true) s before = some t →
              ¬Hidden t (.ptr 2 [97]) ∧ FirstValueSet t (.ptr 2 [97])) := by
  constructor
  · obtain ⟨s, hs, hcompare⟩ : ∃ s : Heap UInt64 UInt64 × NcHashmap UInt64 UInt64,
        Created (fun _ ↦ true) s ∧ s.2.compare = ncSimpleCompare :=
      ⟨(_, _), ⟨Heap.empty, ncSimpleHash, ncSimpleCompare, Or.inl rfl⟩, rfl⟩
    refine ⟨s, hs, membership_consistent_iff hs (ncSimple_compatible hcompare) ?_ 1⟩
    exact hs.isTable.chainsEnd_iff.mpr
      ⟨hs.linksForward 1 10, fun _ _ ↦ ⟨trivial, fun _ _ ↦ trivial⟩⟩
  · obtain ⟨s, hs, hhash, hcompare⟩ : ∃ s : Heap StrPtr UInt64 × NcHashmap StrPtr UInt64,
        Created (fun _ ↦ true) s ∧ s.2.hash = ncStringHash ∧ s.2.compare = ncStringCompare :=
      ⟨(_, _), ⟨Heap.empty, ncStringHash, ncStringCompare, Or.inl rfl⟩, rfl, rfl⟩
    refine ⟨s, hs, hhash, hcompare,
      membership_consistent_iff hs (ncString_compatible hhash hcompare) ?_ (.ptr 2 [97])⟩
    exact hs.isTable.chainsEnd_iff.mpr
      ⟨hs.linksForward (.ptr 1 [97]) 10, fun _ _ ↦ ⟨trivial, fun _ _ ↦ trivial⟩⟩

/-- In a new map the key 0 is found, and can be removed; the size is -1 then. A key whose value is
`NULL` is not contained. -/
theorem not_consistent_null : ∃ s t u : Heap UInt64 UInt64 × NcHashmap UInt64 UInt64,
    Created (fun _ ↦ true) s ∧ ¬Stored s 0 ∧ ncHashmapEnsureGet s.1 s.2 0 = some (true, 0) ∧
      ncHashmapRemove s.1 s.2 0 = some (true, t) ∧ ncHashmapSize t.2 = -1 ∧ ¬Consistent s 0 ∧
      run (mapStep fun _ ↦ true) s [.put 5 0] = some u ∧ Stored u 5 ∧
      ncHashmapContains u.1 u.2 5 = some false ∧ ¬Consistent u 5 := by
  obtain ⟨s, t, u, hs, hget, hremove, hsize, hrun, hstored, hcontains⟩ :
      ∃ s t u : Heap UInt64 UInt64 × NcHashmap UInt64 UInt64, Created (fun _ ↦ true) s ∧
        ncHashmapEnsureGet s.1 s.2 0 = some (true, 0) ∧
        ncHashmapRemove s.1 s.2 0 = some (true, t) ∧ ncHashmapSize t.2 = -1 ∧
        run (mapStep fun _ ↦ true) s [.put 5 0] = some u ∧ Stored u 5 ∧
        ncHashmapContains u.1 u.2 5 = some false :=
    ⟨(_, _), _, _, ⟨Heap.empty, ncSimpleHash, ncSimpleCompare, Or.inl rfl⟩, rfl, rfl, rfl, rfl,
      ⟨5, ⟨5, by decide, [5], ⟨rfl, rfl⟩, List.mem_singleton.mpr rfl, rfl⟩, rfl⟩, rfl⟩
  have hnot : ¬Stored s 0 := by
    rintro ⟨a, ha, -⟩
    obtain ⟨chains, B, -, hd⟩ := hs.holds.table
    exact Multiset.notMem_zero _ (TableOf.binding_mem ⟨chains, B, hd⟩ ha)
  refine ⟨s, t, u, hs, hnot, hget, hremove, hsize, fun C ↦ ?_, hrun, hstored, hcontains, fun C ↦ ?_⟩
  · obtain ⟨found, value, hget', hfound⟩ := C.ensureGet
    obtain ⟨rfl, -⟩ := Prod.mk.inj (Option.some.inj (hget.symm.trans hget'))
    exact hnot (hfound.mp rfl)
  · obtain ⟨found, hcontains', hfound⟩ := C.contains
    obtain rfl := Option.some.inj (hcontains.symm.trans hcontains')
    exact Bool.false_ne_true (hfound.mpr hstored)

end ClrDebugInfo
