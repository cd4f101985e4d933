import Mathlib.Data.UInt
import ClrDebugInfo.Library.Runs
import ClrDebugInfo.Nica.Effects
import ClrDebugInfo.Nica.Iterate

/-!
# A map with removals

`nc_hashmap_remove` and `nc_hashmap_steal` leave an unoccupied cell on its chain, and a later put
into that bucket reuses the last such cell. It also makes the reused cell the successor of the last
cell of the chain. If the two are the same cell this does nothing; if not, the reused cell is
already on the chain before the last one, and the chain becomes a circle.

So the chains of a map end as long as no put links a cell back in this way, and the first put that
does ends that: `chainsEnd_iff` says so of every run. A put that makes the map grow cannot, since
the new chains have no unoccupied cell before another.
-/

namespace ClrDebugInfo

open LinkedChain Runs

variable {K V : Type} [Zero K] [Zero V] [DecidableEq K]

/-! ## Runs -/

/-- A call that changes the map. -/
inductive MapAct (K V : Type)
  | put (key : K) (value : V)
  | remove (key : K)
  | steal (key : K)

/-- The heap and the map after a call, if it returns. -/
def mapStep (alloc : ℕ → Bool) (s : Heap K V × NcHashmap K V) :
    MapAct K V → Option (Heap K V × NcHashmap K V)
  | .put key value => (ncHashmapPut alloc s.1 s.2 key value).map Prod.snd
  | .remove key => (ncHashmapRemove s.1 s.2 key).map Prod.snd
  | .steal key => (ncHashmapSteal s.1 s.2 key).map Prod.snd

/-- `n` calls of `nc_hashmap_iter_next`, or as many as there are until the index overflows. -/
def iterTimes (h : Heap K V) (map : NcHashmap K V) :
    ℕ → NcHashmapIter → Option (Except Int32 NcHashmapIter)
  | 0, it => some (.ok it)
  | n + 1, it => (ncHashmapIterNext h map it).bind fun
    | .error index => some (.error index)
    | .ok r => iterTimes h map n r.2

/-- Following `next` from every bucket ends, and so do the loops of the map, for every key. -/
structure LoopsEnd (alloc : ℕ → Bool) (s : Heap K V × NcHashmap K V) : Prop where
  chains : ∀ i < s.2.nBuckets, ∃ l, Chain s.1.next (some (s.2.buckets + i)) l
  getEntry : ∀ key, (ncHashmapGetEntry s.1 s.2 key).isSome
  insertBucket : ∀ key value, (ncHashmapInsertBucket alloc s.1 s.2 s.2.buckets s.2.nBuckets
    (ncHashmapGetHash s.2 key) key value).isSome
  resize : (ncHashmapResize alloc s.1 s.2).isSome
  iterNext : ∀ n, (iterTimes s.1 s.2 n ncHashmapIterInit).isSome
  freeBucket : ∀ i < s.2.nBuckets, ∀ nuke,
    (ncHashmapFreeBucket s.1 s.2 (s.2.buckets + i) nuke).isSome

/-- Following `next` from every bucket ends. -/
def ChainsEnd (s : Heap K V × NcHashmap K V) : Prop :=
  ∀ i < s.2.nBuckets, ∃ l, Chain s.1.next (some (s.2.buckets + i)) l

/-- A call does not link a cell back: a put makes the map grow, or finds its pointer or a chain in
order. -/
def LinksForward (s : Heap K V × NcHashmap K V) : MapAct K V → Prop
  | .put key _ => ncHashmapMaybeResize s.2 = true ∨
      ∀ l, Chain s.1.next
        (some (s.2.buckets + (ncHashmapGetHash s.2 key).toNat % s.2.nBuckets)) l →
          ¬LinksBack s.1 s.2 key l
  | _ => True

/-! ## The invariant -/

variable {alloc : ℕ → Bool} {h : Heap K V} {map : NcHashmap K V} {s s' : Heap K V × NcHashmap K V}

/-- The map is a table, whatever it holds. -/
def IsTable (s : Heap K V × NcHashmap K V) : Prop :=
  ∃ chains, Buckets s.2.hash s.1 s.2.buckets s.2.nBuckets chains

omit [DecidableEq K] in
theorem IsTable.bindings (hs : IsTable s) : ∃ d, TableOf s d := by
  obtain ⟨chains, B⟩ := hs
  exact ⟨_, chains, B, rfl⟩

omit [DecidableEq K] in
theorem TableOf.isTable {d : Multiset (K × V)} (hs : TableOf s d) : IsTable s := by
  obtain ⟨chains, B, -⟩ := hs
  exact ⟨chains, B⟩

omit [DecidableEq K] in
theorem IsTable.remove (hs : IsTable s) (key : K) (remove : Bool) :
    ∃ ok s', ncHashmapRemoveInternal s.1 s.2 key remove = some (ok, s') ∧ IsTable s' := by
  obtain ⟨d, hd⟩ := hs.bindings
  obtain ⟨_, ok, s', _, -, hrun, hs', -⟩ := hd.remove key remove
  exact ⟨ok, s', hrun, hs'.isTable⟩

theorem IsTable.put (alloc : ℕ → Bool) (hs : IsTable s) {key : K} {value : V}
    (hforward : LinksForward s (.put key value)) :
    ∃ ok s', ncHashmapPut alloc s.1 s.2 key value = some (ok, s') ∧ IsTable s' := by
  obtain ⟨d, hd⟩ := hs.bindings
  obtain ⟨ok, s', _, hrun, hs', -⟩ := hd.put alloc value hforward
  exact ⟨ok, s', hrun, hs'.isTable⟩

theorem IsTable.step (alloc : ℕ → Bool) (hs : IsTable s) {a : MapAct K V}
    (hforward : LinksForward s a) :
    ∃ s', mapStep alloc s a = some s' ∧ IsTable s' := by
  match a with
  | .put key value =>
    obtain ⟨ok, s', hrun, hs'⟩ := IsTable.put alloc hs hforward
    exact ⟨s', by rw [mapStep, hrun, Option.map_some], hs'⟩
  | .remove key =>
    obtain ⟨ok, s', hrun, hs'⟩ := hs.remove key true
    exact ⟨s', by rw [mapStep, ncHashmapRemove, hrun, Option.map_some], hs'⟩
  | .steal key =>
    obtain ⟨ok, s', hrun, hs'⟩ := hs.remove key false
    exact ⟨s', by rw [mapStep, ncHashmapSteal, hrun, Option.map_some], hs'⟩

/-! ## The loops -/

omit [Zero K] [Zero V] [DecidableEq K] in
theorem HasChains.iterTimes {chains : ℕ → List ℕ} (H : HasChains h map chains) (n : ℕ)
    {it : NcHashmapIter} {rest : List ℕ} (C : Cursor h map chains it rest) :
    (ClrDebugInfo.iterTimes h map n it).isSome := by
  induction n generalizing it rest with
  | zero => rfl
  | succ n ih =>
    obtain ⟨r, hrun, hends⟩ := C.next H
    rw [ClrDebugInfo.iterTimes, hrun, Option.bind_some]
    cases hends with
    | entry C' | done C' => exact ih C'
    | outside => rfl

theorem IsTable.loopsEnd (hs : IsTable s) : LoopsEnd alloc s := by
  obtain ⟨chains, B⟩ := hs
  refine ⟨fun i hi ↦ ⟨_, B.chain i hi⟩, fun key ↦ ?_, fun key value ↦ ?_, ?_, fun n ↦ ?_,
    fun i hi nuke ↦ ?_⟩
  · rw [B.getEntry key]
    rfl
  · obtain ⟨r, h', hrun, -⟩ := insertBucket_insertion alloc key value B
    rw [ncHashmapGetHash, hrun]
    rfl
  · obtain ⟨ok, h', map', hrun, -⟩ := ncHashmapResize_table alloc B
    rw [hrun]
    rfl
  · exact B.hasChains.iterTimes n (Cursor.init _ _ _)
  · rw [ncHashmapFreeBucket, scan_eq_scanList (B.chain i hi) (B.length_lt hi)]
    rfl

omit [Zero K] [Zero V] [DecidableEq K] in
theorem Heap.next_store_link (h : Heap K V) (t z : ℕ) (key : K) (value : V) :
    ((h.store t key value).link z t).next = Function.update h.next z (some t) := by
  funext a
  rw [← (h.store_rewritten t key value).next_eq]
  by_cases ha : a = z
  · simp [Heap.next, Heap.link, ha]
  · simp [Heap.next, Heap.link, ha]

theorem Insertion.not_chain {chains : ℕ → List ℕ} {base n i : ℕ} {key : K} {value : V} {r : ℤ}
    {h' : Heap K V} (B : Buckets map.hash h base n chains) (hi : i < n)
    (I : Insertion alloc h map key value (chains i) r h')
    (hback : LinksBack h map key (chains i)) (l : List ℕ) :
    ¬Chain h'.next (some (base + i)) l := by
  obtain ⟨hstop, front, z, hl, hz, t, ht, hocc⟩ := hback
  have hmem : t ∈ chains i := by
    rw [hl]
    exact List.mem_append_left _ ht
  cases I with
  | @replace a ha hmatch =>
    rw [hstop a ha] at hmatch
    exact absurd hmatch (by simp)
  | @reuse front' z' hl' _ hz' =>
    obtain ⟨-, hzz⟩ := List.append_inj' (hl.symm.trans hl') rfl
    rw [← List.head_eq_of_cons_eq hzz, hz] at hz'
    exact absurd hz' (by simp)
  | append _ _ hall =>
    rw [hall t hmem] at hocc
    exact absurd hocc (by simp)
  | noMemory _ hall =>
    rw [hall t hmem] at hocc
    exact absurd hocc (by simp)
  | @relink front' z' t' hl' _ _ ht' _ =>
    have hchain := B.chain i hi
    have hnodup := hchain.nodup
    rw [hl'] at hchain hnodup
    rw [Heap.next_store_link]
    refine hchain.not_chain_of_link ht' (fun a ha ↦ Function.update_of_ne ?_ _ _)
      (Function.update_self _ _ _)
    rintro rfl
    exact (List.nodup_append.mp hnodup).2.2 a ha a (List.mem_singleton.mpr rfl) rfl

omit [DecidableEq K] in
theorem IsTable.chainsEnd (hs : IsTable s) : ChainsEnd s := by
  obtain ⟨chains, B⟩ := hs
  exact fun i hi ↦ ⟨_, B.chain i hi⟩

/-- **A cell that is linked back closes a circle.** -/
theorem IsTable.not_chainsEnd (hs : IsTable s) {a : MapAct K V} (hback : ¬LinksForward s a)
    (hstep : mapStep alloc s a = some s') : ¬ChainsEnd s' := by
  obtain ⟨h, map⟩ := s
  obtain ⟨chains, B⟩ := hs
  match a with
  | .put key value =>
    rw [LinksForward] at hback
    push Not at hback
    obtain ⟨hm, l, hl, hback⟩ := hback
    have hi := B.index_lt (map.hash key)
    rw [hl.unique (B.chain _ hi)] at hback
    obtain ⟨r, h', hrun, I⟩ := insertBucket_insertion alloc key value B
    have hcircle := I.not_chain B hi hback
    rw [mapStep, ncHashmapPut] at hstep
    simp only [if_neg hm, ncHashmapGetHash, hrun] at hstep
    intro hends
    by_cases hr : r > 0
    · rw [if_pos hr, Option.map_some, Option.some_inj] at hstep
      obtain rfl := hstep
      obtain ⟨l, hl⟩ := hends _ hi
      exact hcircle l hl
    · rw [if_neg hr, Option.map_some, Option.some_inj] at hstep
      obtain rfl := hstep
      obtain ⟨l, hl⟩ := hends _ hi
      exact hcircle l hl
  | .remove key => exact absurd trivial hback
  | .steal key => exact absurd trivial hback

theorem IsTable.not_loopsEnd (hs : IsTable s) {a : MapAct K V} (hback : ¬LinksForward s a)
    (hstep : mapStep alloc s a = some s') : ¬LoopsEnd alloc s' :=
  fun L ↦ hs.not_chainsEnd hback hstep L.chains

/-! ## Every run -/

/-- A map that `nc_hashmap_new` or `nc_hashmap_new_full` has made. -/
def Created (alloc : ℕ → Bool) (s : Heap K V × NcHashmap K V) : Prop :=
  ∃ (h : Heap K V) (hash : K → UInt32) (compare : K → K → Bool),
    ncHashmapNew alloc h hash compare = (some s.2, s.1) ∨
      ∃ keyFree valueFree, ncHashmapNewFull alloc h hash compare keyFree valueFree = (some s.2, s.1)

omit [DecidableEq K] in
theorem Created.holds (hs : Created alloc s) : Holds s.1 s.2 0 := by
  obtain ⟨h, hash, compare, hnew⟩ := hs
  obtain ⟨keyFree, valueFree, hnew⟩ : ∃ keyFree valueFree,
      ncHashmapNewFull alloc h hash compare keyFree valueFree = (some s.2, s.1) :=
    hnew.elim (fun hnew ↦ ⟨false, false, hnew⟩) id
  rcases ncHashmapNewFull_spec alloc h hash compare keyFree valueFree with
    ⟨map, h', hrun, -, -, H⟩ | ⟨-, h', hrun⟩
  · obtain ⟨hmap, hheap⟩ := Prod.mk.inj (hnew.symm.trans hrun)
    obtain rfl := Option.some.inj hmap
    exact hheap ▸ H
  · exact absurd (hnew.symm.trans hrun) (by simp)

omit [DecidableEq K] in
theorem Created.isTable (hs : Created alloc s) : IsTable s := by
  obtain ⟨chains, B, -⟩ := hs.holds.table
  exact ⟨chains, B⟩

/-- **Chains end as long as no put links a cell back.** In a run of a new map, every call returns
and every loop ends in every state reached, exactly if none of its puts links a cell back. -/
theorem loopsEnd_iff (hs : Created alloc s) (acts : List (MapAct K V)) :
    (∀ before, before <+: acts → ∃ t, run (mapStep alloc) s before = some t ∧ LoopsEnd alloc t) ↔
      AllSteps (mapStep alloc) LinksForward s acts :=
  (allSteps_iff_of_invariant hs.isTable (fun _ _ hI hC ↦ hI.step alloc hC) (fun _ hI ↦ hI.loopsEnd)
    fun _ _ _ hI hC hstep ↦ hI.not_loopsEnd hC hstep).symm

/-- Three integers whose bucket is the same. The second one is removed, which leaves the unoccupied
cell at the end of the chain. -/
theorem loopsEnd_iff_tail : ∃ s : Heap UInt64 UInt64 × NcHashmap UInt64 UInt64,
    Created (fun _ ↦ true) s ∧
      ((∀ before, before <+: [.put 1 10, .put 62 20, .remove 62, .put 123 30] →
          ∃ t, run (mapStep fun _ ↦ true) s before = some t ∧ LoopsEnd (fun _ ↦ true) t) ↔
        AllSteps (mapStep fun _ ↦ true) LinksForward s
          [.put 1 10, .put 62 20, .remove 62, .put 123 30]) := by
  obtain ⟨s, hs⟩ : ∃ s : Heap UInt64 UInt64 × NcHashmap UInt64 UInt64, Created (fun _ ↦ true) s :=
    ⟨(_, _), Heap.empty, ncSimpleHash, ncSimpleCompare, Or.inl rfl⟩
  exact ⟨s, hs, loopsEnd_iff hs _⟩

/-- The first one is removed, and its cell is put behind the second one: a lookup of another integer
of that bucket does not return. -/
theorem not_loopsEnd_head : ∃ s t : Heap UInt64 UInt64 × NcHashmap UInt64 UInt64,
    Created (fun _ ↦ true) s ∧
      run (mapStep fun _ ↦ true) s [.put 1 10, .put 62 20, .remove 1, .put 123 30] = some t ∧
      ncHashmapGetEntry t.1 t.2 184 = none ∧ ¬LoopsEnd (fun _ ↦ true) t := by
  obtain ⟨s, t, hs, hrun, hget⟩ : ∃ s t : Heap UInt64 UInt64 × NcHashmap UInt64 UInt64,
      Created (fun _ ↦ true) s ∧
        run (mapStep fun _ ↦ true) s [.put 1 10, .put 62 20, .remove 1, .put 123 30] = some t ∧
        ncHashmapGetEntry t.1 t.2 184 = none :=
    ⟨(_, _), _, ⟨Heap.empty, ncSimpleHash, ncSimpleCompare, Or.inl rfl⟩, rfl, by decide⟩
  refine ⟨s, t, hs, hrun, hget, fun L ↦ ?_⟩
  have hsome := L.getEntry 184
  rw [hget] at hsome
  exact absurd hsome (by simp)

end ClrDebugInfo
