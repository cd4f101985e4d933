import ClrDebugInfo.Nica.Copying
import ClrDebugInfo.Nica.Removal

/-!
# A put that runs out of memory

`nc_hashmap_put` returns `false` when an allocation fails. If that is the new bucket array, or the
node of the new entry in a map that did not have to grow, nothing has happened. If it is a chain
node in the middle of `nc_hashmap_resize`, the new table is destroyed with `nuke` set, which frees
the keys and the values that were copied; the old table still holds them.
-/

namespace ClrDebugInfo

open LinkedChain Runs

variable {K V : Type}

/-! ## What must stay -/

/-- The map holds a binding, in a cell that following `next` from a bucket comes to. -/
def Bound (s : Heap K V × NcHashmap K V) (e : K × V) : Prop :=
  ∃ i < s.2.nBuckets, ∃ a, Leads s.1.next (s.2.buckets + i) a ∧ (s.1.cell a).occ = true ∧
    binding s.1 a = e

/-- A call has left the map as it was, and has freed nothing that it holds. -/
structure Intact (s s' : Heap K V × NcHashmap K V) : Prop where
  size : ncHashmapSize s'.2 = ncHashmapSize s.2
  bound : ∀ e, Bound s' e ↔ Bound s e
  iteration : ∀ chains, HasChains s.1 s.2 chains → ∃ chains', HasChains s'.1 s'.2 chains' ∧
    ((entries s'.1 s'.2.nBuckets chains').map (binding s'.1)).Perm
      ((entries s.1 s.2.nBuckets chains).map (binding s.1))
  freed : ∃ log, s'.1.freed = s.1.freed ++ log ∧
    ∀ e, Bound s e → Sum.inl e.1 ∉ log ∧ Sum.inr e.2 ∉ log

/-- The chains end, no allocation of a chain node fails while the map grows, and the size is the
number of entries. -/
def GrowsWhole (alloc : ℕ → Bool) (s : Heap K V × NcHashmap K V) : Prop :=
  ∃ chains : ℕ → List ℕ,
    (∀ i < s.2.nBuckets, Chain s.1.next (some (s.2.buckets + i)) (chains i)) ∧
      (∀ j < growthNodes s.1 s.2 chains, alloc (s.1.callocs + 1 + j) = true) ∧
      s.2.size = (entriesOf s.1 s.2 chains).length

/-- What holds of every map, whether its chains end or not. -/
structure WellPlaced (s : Heap K V × NcHashmap K V) : Prop where
  pos : 0 < s.2.nBuckets
  below : CellsBelow s.1 s.2

/-! ## Cells -/

variable {h h' : Heap K V} {map : NcHashmap K V} {s s' : Heap K V × NcHashmap K V} {e : K × V}

theorem CellsBelow.congr (hlow : CellsBelow h map) (hcells : ∀ a < h.brk, h'.cell a = h.cell a)
    (hbrk : h.brk ≤ h'.brk) : CellsBelow h' map :=
  fun i hi a ha ↦ (hlow i hi a ((hlow.leads_iff hcells hi a).mp ha)).trans_le hbrk

theorem CellsBelow.intact (hlow : CellsBelow s.1 s.2)
    (hcells : ∀ a < s.1.brk, h'.cell a = s.1.cell a) (hbrk : s.1.brk ≤ h'.brk)
    (hfreed : h'.freed = s.1.freed) : Intact s (h', s.2) := by
  refine ⟨rfl, fun e ↦ ?_, fun chains H ↦ ⟨chains, ⟨fun i hi ↦ ?_, fun i hi a ha ↦ ?_, H.disjoint⟩,
    ?_⟩, [], by rw [hfreed, List.append_nil], fun e _ ↦ ⟨by simp, by simp⟩⟩
  · refine exists_congr fun i ↦ and_congr_right fun hi ↦ exists_congr fun a ↦ ?_
    rw [hlow.leads_iff hcells hi]
    refine and_congr_right fun ha ↦ ?_
    rw [binding, hcells a (hlow i hi a ha), ← binding]
  · exact (H.chain i hi).congr fun a ha ↦
      congrArg NcHashmapEntry.next (hcells a (H.allocated i hi a ha))
  · exact (H.allocated i hi a ha).trans_le hbrk
  · have hsame : ∀ a ∈ (List.range s.2.nBuckets).flatMap chains, h'.cell a = s.1.cell a := by
      intro a ha
      obtain ⟨i, hi, ha⟩ := List.mem_flatMap.mp ha
      exact hcells a (H.allocated i (List.mem_range.mp hi) a ha)
    exact List.Perm.of_eq (bindingList_congr hsame)

variable [Zero K] [Zero V] {chains : ℕ → List ℕ}

theorem Buckets.mem_chain_iff (B : Buckets map.hash h map.buckets map.nBuckets chains) {i a : ℕ}
    (hi : i < map.nBuckets) : Leads h.next (map.buckets + i) a ↔ a ∈ chains i :=
  ⟨fun ha ↦ (B.chain i hi).mem_of_leads ha,
    fun ha ↦ (follows_none.mpr (B.chain i hi)).leads.1 a ha⟩

theorem Buckets.cellsBelow (B : Buckets map.hash h map.buckets map.nBuckets chains) :
    CellsBelow h map :=
  fun i hi a ha ↦ (B.bound i hi a ((B.mem_chain_iff hi).mp ha)).2

theorem Buckets.bound_iff (B : Buckets map.hash h map.buckets map.nBuckets chains) :
    Bound (h, map) e ↔ e ∈ content h map.nBuckets chains := by
  rw [mem_content]
  refine exists_congr fun i ↦ and_congr_right fun hi ↦ ?_
  rw [mem_bindings]
  exact exists_congr fun a ↦ and_congr_left fun _ ↦ B.mem_chain_iff hi

/-! ## Every map -/

variable [DecidableEq K] {alloc : ℕ → Bool} {key : K} {value : V}

omit [DecidableEq K] in
theorem Heap.next_append (h : Heap K V) (key : K) (value : V) (z : ℕ) :
    (h.append key value z).next =
      Function.update (Function.update h.next h.brk none) z (some h.brk) := by
  rw [Heap.append, Heap.next_store_link]
  congr 1
  funext a
  by_cases ha : a = h.brk
  · simp [Heap.next, ha, NcHashmapEntry.zero]
  · have hold : ¬(h.brk ≤ a ∧ a < h.brk + 1) := by omega
    rw [Function.update_of_ne ha]
    exact congrArg NcHashmapEntry.next (if_neg hold)

theorem CellsBelow.insertBucket (hlow : CellsBelow h map) (hpos : 0 < map.nBuckets)
    {hash : UInt32} {r : ℤ}
    (hrun : ncHashmapInsertBucket alloc h map map.buckets map.nBuckets hash key value =
      some (r, h')) : CellsBelow h' map := by
  obtain ⟨i, hkey⟩ : ∃ i, hash.toNat % map.nBuckets = i := ⟨_, rfl⟩
  have hi : i < map.nBuckets := hkey ▸ Nat.mod_lt _ hpos
  rw [ncHashmapInsertBucket, hkey] at hrun
  obtain ⟨⟨row, parent, tomb⟩, hscan, hinsert⟩ := Option.map_eq_some_iff.mp hrun
  -- the reused cell is one that the walk has come to
  have hvisit : ∀ (b : ℕ) (s : ℕ × Option ℕ), Leads h.next (map.buckets + i) b →
      (∀ t, s.2 = some t → Leads h.next (map.buckets + i) t) →
        ∀ t, (visitRow h s b).2 = some t → Leads h.next (map.buckets + i) t := by
    intro b s hb hs t ht
    by_cases ho : (h.cell b).occ = true
    · exact hs t (by simpa [visitRow, ho] using ht)
    · obtain rfl : b = t := by simpa [visitRow, ho] using ht
      exact hb
  obtain ⟨htomb, -⟩ := scan_leads
    (P := fun s : ℕ × Option ℕ ↦ ∀ t, s.2 = some t → Leads h.next (map.buckets + i) t)
    (s := (map.buckets + i, none)) (fun _ ht ↦ absurd ht (by simp)) hvisit hscan
  rcases insertRow_cases hinsert with
    ⟨a, -, -, rfl⟩ | ⟨t, ht, -, rfl⟩ | ⟨-, -, rfl⟩ | ⟨-, -, rfl⟩
  · have R : Rewritten h ({ h with freed := h.freed ++ replaceFrees map (h.cell a) }.store a
        key value) a ⟨key, value, (h.cell a).next, true⟩ := ⟨rfl, rfl, rfl⟩
    intro j hj b hb
    rw [R.next_eq] at hb
    exact hlow j hj b hb
  · intro j hj a ha
    by_cases heq : parent = t
    · rw [if_pos heq, (h.store_rewritten t key value).next_eq] at ha
      rw [if_pos heq]
      exact hlow j hj a ha
    · rw [if_neg heq, Heap.next_store_link] at ha
      rw [if_neg heq]
      exact (leads_link ha).elim (hlow j hj a) fun h ↦ hlow i hi a ((htomb t ht).trans h)
  · exact hlow
  · intro j hj a ha
    rw [Heap.next_append] at ha
    rcases leads_link ha with ha | ha
    · exact Nat.lt_succ_of_lt (hlow j hj a (leads_unlink ha).1)
    · rw [(leads_unlink ha).2 rfl]
      exact Nat.lt_succ_self _

theorem WellPlaced.grow (hs : WellPlaced s) {ok : Bool} {h₁ : Heap K V} {map₁ : NcHashmap K V}
    (hrun : (if ncHashmapMaybeResize s.2 then ncHashmapResize alloc s.1 s.2
      else some (true, s)) = some (ok, h₁, map₁)) : WellPlaced (h₁, map₁) := by
  by_cases hm : ncHashmapMaybeResize s.2 = true
  · rw [if_pos hm] at hrun
    cases ncHashmapResize_resized hs.pos hs.below hrun with
    | noArray => exact ⟨hs.pos, hs.below⟩
    | grown hok hchains hnodes hcallocs hsize htable => exact ⟨htable.pos, htable.cellsBelow⟩
    | noNode _ hfrom hprefix hused hfail hfreed hcells hbrk =>
      exact ⟨hs.pos, hs.below.congr hcells hbrk⟩
    | again _ hlucky hcells hbrk => exact ⟨hs.pos, hs.below.congr hcells hbrk⟩
  · rw [if_neg hm] at hrun
    obtain ⟨-, rfl⟩ := Prod.mk.inj (Option.some.inj hrun)
    exact hs

theorem WellPlaced.put (hs : WellPlaced s) {ok : Bool}
    (hrun : ncHashmapPut alloc s.1 s.2 key value = some (ok, s')) : WellPlaced s' := by
  rw [ncHashmapPut] at hrun
  split at hrun
  next => exact absurd hrun (by simp)
  next h₁ map₁ hgrow =>
    obtain ⟨-, rfl⟩ := Prod.mk.inj (Option.some.inj hrun)
    exact hs.grow hgrow
  next h₁ map₁ hgrow =>
    have hs₁ := hs.grow hgrow
    split at hrun
    next => exact absurd hrun (by simp)
    next inc h₂ hinsert =>
      have hlow := hs₁.below.insertBucket hs₁.pos hinsert
      by_cases hinc : inc > 0
      · rw [if_pos hinc] at hrun
        obtain ⟨-, rfl⟩ := Prod.mk.inj (Option.some.inj hrun)
        exact ⟨hs₁.pos, hlow⟩
      · rw [if_neg hinc] at hrun
        obtain ⟨-, rfl⟩ := Prod.mk.inj (Option.some.inj hrun)
        exact ⟨hs₁.pos, hlow⟩

omit [DecidableEq K] in
theorem WellPlaced.remove (hs : WellPlaced s) {remove ok : Bool}
    (hrun : ncHashmapRemoveInternal s.1 s.2 key remove = some (ok, s')) : WellPlaced s' := by
  obtain ⟨row, -, heq⟩ := Option.map_eq_some_iff.mp hrun
  cases row with
  | none =>
    obtain ⟨-, rfl⟩ := Prod.mk.inj heq
    exact hs
  | some row =>
    obtain ⟨-, rfl⟩ := Prod.mk.inj heq
    refine ⟨hs.pos, fun i hi a ha ↦ hs.below i hi a ?_⟩
    rwa [(Heap.clear_rewritten _ row).next_eq] at ha

theorem WellPlaced.step (hs : WellPlaced s) {a : MapAct K V} (hrun : mapStep alloc s a = some s') :
    WellPlaced s' := by
  match a with
  | .put key value =>
    obtain ⟨⟨ok, s₁⟩, hput, rfl⟩ := Option.map_eq_some_iff.mp hrun
    exact hs.put hput
  | .remove key =>
    obtain ⟨⟨ok, s₁⟩, hremove, rfl⟩ := Option.map_eq_some_iff.mp hrun
    exact hs.remove hremove
  | .steal key =>
    obtain ⟨⟨ok, s₁⟩, hsteal, rfl⟩ := Option.map_eq_some_iff.mp hrun
    exact hs.remove hsteal

theorem Created.wellPlaced {s₀ : Heap K V × NcHashmap K V} (hs₀ : Created alloc s₀)
    {acts : List (MapAct K V)} (hrun : run (mapStep alloc) s₀ acts = some s) : WellPlaced s := by
  obtain ⟨chains, B, -⟩ := hs₀.holds.table
  exact run_invariant (I := fun _ s ↦ WellPlaced s) ⟨B.pos, B.cellsBelow⟩
    (fun _ _ _ _ hs h ↦ hs.step h) hrun

/-! ## The failed put -/

private theorem insertBucket_refused {base n : ℕ} {hash : UInt32} {r : ℤ}
    (hrun : ncHashmapInsertBucket alloc h map base n hash key value = some (r, h'))
    (hr : ¬r > 0) :
    h'.callocs = h.callocs ∨ (alloc h.callocs = false ∧ h' = h.afterFailure) := by
  obtain ⟨⟨row, parent, tomb⟩, -, hinsert⟩ := Option.map_eq_some_iff.mp hrun
  rcases insertRow_cases hinsert with
    ⟨a, -, -, rfl⟩ | ⟨t, -, rfl, -⟩ | ⟨hfail, -, rfl⟩ | ⟨-, rfl, -⟩
  · exact Or.inl rfl
  · exact absurd Int.zero_lt_one hr
  · exact Or.inr ⟨hfail, rfl⟩
  · exact absurd Int.zero_lt_one hr

/-- The insertion at the end of a put that returns `false`: if an allocation has failed, and none
before it, then it was the one for the new node. -/
theorem lastInsertion_refused {k lo : ℕ} (hlo : lo ≤ k) (hhi : k < s'.1.callocs)
    (hk : alloc k = false) (hlucky : ∀ k, lo ≤ k → k < h.callocs → alloc k = true)
    (hrun : (match ncHashmapInsertBucket alloc h map map.buckets map.nBuckets
        (ncHashmapGetHash map key) key value with
      | none => none
      | some (inc, h) =>
        if inc > 0 then some (true, h, { map with size := map.size + inc })
        else some (false, h, map)) = some (false, s')) : s' = (h.afterFailure, map) := by
  split at hrun
  next => exact absurd hrun (by simp)
  next inc h₂ hinsert =>
    by_cases hinc : inc > 0
    · rw [if_pos hinc] at hrun
      exact absurd hrun (by simp)
    · rw [if_neg hinc] at hrun
      obtain ⟨-, rfl⟩ := Prod.mk.inj (Option.some.inj hrun)
      rcases insertBucket_refused hinsert hinc with hcallocs | ⟨-, rfl⟩
      · rw [hlucky k hlo (hcallocs ▸ hhi)] at hk
        exact absurd hk (by simp)
      · rfl

/-- What a put has done that returns `false` after a failed allocation: nothing, or it has given up
growing, or it has grown the map and found no memory for the new entry. -/
theorem WellPlaced.failedPut (hs : WellPlaced s)
    (hput : ncHashmapPut alloc s.1 s.2 key value = some (false, s'))
    (hfail : ∃ k, s.1.callocs ≤ k ∧ k < s'.1.callocs ∧ alloc k = false) :
    ((ncHashmapMaybeResize s.2 = true → alloc s.1.callocs = false) ∧ s' = (s.1.afterFailure, s.2)) ∨
      ncHashmapMaybeResize s.2 = true ∧ alloc s.1.callocs = true ∧
        (Resized alloc s.1 s.2 false s'.1 s'.2 ∨
          ∃ h₁ map₁, Resized alloc s.1 s.2 true h₁ map₁ ∧ s' = (h₁.afterFailure, map₁)) := by
  obtain ⟨k, hlo, hhi, hk⟩ := hfail
  rw [ncHashmapPut] at hput
  by_cases hm : ncHashmapMaybeResize s.2 = true
  · simp only [if_pos hm] at hput
    split at hput
    next => exact absurd hput (by simp)
    next h₁ map₁ hrun =>
      obtain ⟨-, rfl⟩ := Prod.mk.inj (Option.some.inj hput)
      have R := ncHashmapResize_resized hs.pos hs.below hrun
      have hcases := R
      cases hcases with
      | noArray hno => exact Or.inl ⟨fun _ ↦ hno, rfl⟩
      | noNode hok => exact Or.inr ⟨hm, hok, Or.inl R⟩
      | again hok => exact Or.inr ⟨hm, hok, Or.inl R⟩
    next h₁ map₁ hrun =>
      have R := ncHashmapResize_resized hs.pos hs.below hrun
      have hcases := R
      cases hcases with
      | grown hok _ hnodes hcallocs =>
        refine Or.inr ⟨hm, hok, Or.inr ⟨h₁, map₁, R, lastInsertion_refused hlo hhi hk ?_ hput⟩⟩
        rw [hcallocs]
        exact lucky_of_nodes hok hnodes
  · simp only [if_neg hm] at hput
    refine Or.inl ⟨fun h ↦ absurd h hm, lastInsertion_refused hlo hhi hk (fun j hj hj' ↦ ?_) hput⟩
    exact absurd hj' (Nat.not_lt_of_le hj)

omit [DecidableEq K] in
theorem Resized.intact_iff {h₁ : Heap K V} {map₁ : NcHashmap K V}
    (R : Resized alloc s.1 s.2 true h₁ map₁) :
    Intact s (h₁.afterFailure, map₁) ↔ GrowsWhole alloc s := by
  cases R with
  | @grown _ _ chains chains' hok hchains hnodes hcallocs hsize htable hcontent hfreed =>
    constructor
    · exact fun I ↦ ⟨chains, hchains, hnodes, I.size.symm.trans hsize⟩
    · rintro ⟨chains₀, hchains₀, -, hsize₀⟩
      have hsame : ∀ chains₁ : ℕ → List ℕ,
          (∀ i < s.2.nBuckets, Chain s.1.next (some (s.2.buckets + i)) (chains₁ i)) →
          (List.range s.2.nBuckets).flatMap chains₁ = (List.range s.2.nBuckets).flatMap chains :=
        fun chains₁ hchains₁ ↦ List.flatMap_congr fun i hi ↦
          (hchains₁ i (List.mem_range.mp hi)).unique (hchains i (List.mem_range.mp hi))
      have B : Buckets map₁.hash h₁.afterFailure map₁.buckets map₁.nBuckets chains' :=
        htable.congr le_rfl fun _ _ _ _ ↦ rfl
      refine ⟨?_, fun e ↦ ?_, fun chains₁ H ↦ ⟨chains', B.hasChains, ?_⟩, [], ?_,
        fun e _ ↦ ⟨by simp, by simp⟩⟩
      · rw [ncHashmapSize, ncHashmapSize, hsize, hsize₀, entriesOf, entriesOf, hsame _ hchains₀]
      · rw [B.bound_iff]
        change e ∈ content h₁ map₁.nBuckets chains' ↔ _
        rw [hcontent, Multiset.mem_coe, entriesOf, bindingList, List.mem_map]
        simp only [List.mem_filter, List.mem_flatMap, List.mem_range]
        constructor
        · rintro ⟨a, ⟨⟨i, hi, ha⟩, ho⟩, rfl⟩
          exact ⟨i, hi, a, (follows_none.mpr (hchains i hi)).leads.1 a ha, ho, rfl⟩
        · rintro ⟨i, hi, a, ha, ho, rfl⟩
          exact ⟨a, ⟨⟨i, hi, (hchains i hi).mem_of_leads ha⟩, ho⟩, rfl⟩
      · rw [← Multiset.coe_eq_coe, ← content_eq_entries, entries, hsame _ H.chain]
        exact hcontent
      · rw [List.append_nil]
        exact hfreed

omit [DecidableEq K] in
/-- A map that has given up growing for want of memory is not intact: the entries that were copied
have been freed. -/
theorem Resized.not_intact (hfree : s.2.keyFree = true ∨ s.2.valueFree = true)
    (R : Resized alloc s.1 s.2 false s'.1 s'.2) (hok : alloc s.1.callocs = true)
    (hfail : ∃ k, s.1.callocs ≤ k ∧ k < s'.1.callocs ∧ alloc k = false) :
    ¬Intact s s' ∧ ¬GrowsWhole alloc s := by
  obtain ⟨h', map'⟩ := s'
  cases R with
  | noArray hno =>
    rw [hok] at hno
    exact absurd hno (by simp)
  | again _ hlucky =>
    obtain ⟨k, hlo, hhi, hk⟩ := hfail
    rw [hlucky k hlo hhi] at hk
    exact absurd hk (by simp)
  | @noNode _ es e _ hfrom hprefix hused hno hfreed =>
    constructor
    · intro I
      obtain ⟨f, hf, -⟩ := List.mem_map.mp (List.mem_toFinset.mp hused)
      obtain ⟨log, hlog, hlogged⟩ := hfreed
      obtain ⟨log', hlog', hkept⟩ := I.freed
      obtain rfl := List.append_cancel_left (hlog.symm.trans hlog')
      obtain ⟨hkey, hvalue⟩ := hkept f (hfrom f hf)
      rcases hfree with hk | hv
      · exact hkey ((hlogged f hf).1 hk)
      · exact hvalue ((hlogged f hf).2 hv)
    · rintro ⟨chains, hchains, hnodes, -⟩
      obtain ⟨rest, hrest⟩ := hprefix chains hchains
      have hle := chainNodes_le_append s.2 (s.2.nBuckets * increaseFactor) (es ++ [e]) rest
      rw [hrest, chainNodes_concat, if_pos hused] at hle
      rw [hnodes _ hle] at hno
      exact absurd hno (by simp)

/-- **A failed put.** A put that returns `false` after a failed allocation leaves the map intact
exactly if the map was not full, or the new array could not be allocated, or the whole growth went
well and only the node of the new entry could not be allocated. -/
theorem failedPut_intact_iff {s₀ : Heap K V × NcHashmap K V} (hs₀ : Created alloc s₀)
    {acts : List (MapAct K V)} (hrun : run (mapStep alloc) s₀ acts = some s)
    (hfree : s.2.keyFree = true ∨ s.2.valueFree = true)
    (hput : ncHashmapPut alloc s.1 s.2 key value = some (false, s'))
    (hfail : ∃ k, s.1.callocs ≤ k ∧ k < s'.1.callocs ∧ alloc k = false) :
    Intact s s' ↔
      (ncHashmapMaybeResize s.2 = true → alloc s.1.callocs = true → GrowsWhole alloc s) := by
  have hs := hs₀.wellPlaced hrun
  rcases hs.failedPut hput hfail with ⟨hno, rfl⟩ | ⟨hm, hok, R | ⟨h₁, map₁, R, rfl⟩⟩
  · refine iff_of_true (hs.below.intact (fun _ _ ↦ rfl) le_rfl rfl) fun hm hok ↦ ?_
    rw [hno hm] at hok
    exact absurd hok (by simp)
  · obtain ⟨hbroken, hnot⟩ := R.not_intact hfree hok hfail
    exact iff_of_false hbroken fun h ↦ hnot (h hm hok)
  · rw [R.intact_iff]
    exact ⟨fun h _ _ ↦ h, fun h ↦ h hm hok⟩

/-- Integers that fill a new map; two of them share a bucket before and after it has grown. -/
def fullMap : List (MapAct UInt64 UInt64) :=
  (List.range 41).map (fun i ↦ .put (i + 1).toUInt64 (i + 101).toUInt64) ++ [.put 245 200]

/-- The map grows, and there is no memory for the node of a third integer in the same bucket. -/
theorem failedPut_intact_iff_fullMap : ∃ s₀ s s' : Heap UInt64 UInt64 × NcHashmap UInt64 UInt64,
    Created (fun k ↦ k != 5) s₀ ∧ run (mapStep fun k ↦ k != 5) s₀ fullMap = some s ∧
      ncHashmapMaybeResize s.2 = true ∧ s'.2.nBuckets = 244 ∧
      ncHashmapPut (fun k ↦ k != 5) s.1 s.2 489 7 = some (false, s') ∧
      (Intact s s' ↔ (ncHashmapMaybeResize s.2 = true → (s.1.callocs != 5) = true →
        GrowsWhole (fun k ↦ k != 5) s)) := by
  obtain ⟨new, hnew⟩ : ∃ new, ncHashmapNewFull (fun k ↦ k != 5) (Heap.empty : Heap UInt64 UInt64)
    ncSimpleHash ncSimpleCompare true true = new := ⟨_, rfl⟩
  have hall : (new.1.any fun map ↦ (run (mapStep fun k ↦ k != 5) (new.2, map) fullMap).any fun s ↦
      (ncHashmapPut (fun k ↦ k != 5) s.1 s.2 489 7).any fun r ↦
        decide (s.2.keyFree = true ∧ ncHashmapMaybeResize s.2 = true ∧ r.2.2.nBuckets = 244 ∧
          s.1.callocs = 3 ∧ r.1 = false ∧ r.2.1.callocs = 6)) = true := by
    rw [← hnew]
    decide +kernel
  obtain ⟨map, hmap, hall⟩ := (Option.any_eq_true _ _).mp hall
  obtain ⟨s, hrun, hall⟩ := (Option.any_eq_true _ _).mp hall
  obtain ⟨⟨ok, s'⟩, hput, hfacts⟩ := (Option.any_eq_true _ _).mp hall
  obtain ⟨hfree, hfull, hn, hlo, rfl, hhi⟩ := of_decide_eq_true hfacts
  have hhi : s'.1.callocs = 6 := hhi
  have hs₀ : Created (fun k ↦ k != 5) (new.2, map) :=
    ⟨Heap.empty, ncSimpleHash, ncSimpleCompare, Or.inr ⟨true, true, hnew.trans (Prod.ext hmap rfl)⟩⟩
  exact ⟨_, s, s', hs₀, hrun, hfull, hn, hput,
    failedPut_intact_iff hs₀ hrun (Or.inl hfree) hput ⟨5, by omega, by omega, rfl⟩⟩

/-- The chain node of 245 in the new table cannot be allocated. The put returns `false`, and the key
1 and its value have been freed, which the map still holds. -/
theorem not_failedPut_intact : ∃ s₀ s s' : Heap UInt64 UInt64 × NcHashmap UInt64 UInt64,
    Created (fun k ↦ k != 4) s₀ ∧ run (mapStep fun k ↦ k != 4) s₀ fullMap = some s ∧
      s.2.keyFree = true ∧ ncHashmapPut (fun k ↦ k != 4) s.1 s.2 300 7 = some (false, s') ∧
      (∃ k, s.1.callocs ≤ k ∧ k < s'.1.callocs ∧ (k != 4) = false) ∧
      s'.1.freed = [.inl 1, .inr 101] ∧ Bound s (1, 101) ∧ ¬Intact s s' := by
  obtain ⟨new, hnew⟩ : ∃ new, ncHashmapNewFull (fun k ↦ k != 4) (Heap.empty : Heap UInt64 UInt64)
    ncSimpleHash ncSimpleCompare true true = new := ⟨_, rfl⟩
  have hall : (new.1.any fun map ↦ (run (mapStep fun k ↦ k != 4) (new.2, map) fullMap).any fun s ↦
      (ncHashmapPut (fun k ↦ k != 4) s.1 s.2 300 7).any fun r ↦
        decide (s.2.keyFree = true ∧ s.2.buckets = 0 ∧ s.2.nBuckets = 61 ∧
          (s.1.cell 1).occ = true ∧ binding s.1 1 = (1, 101) ∧ s.1.freed = [] ∧
          s.1.callocs = 3 ∧ r.1 = false ∧ r.2.1.callocs = 5 ∧
          r.2.1.freed = [.inl 1, .inr 101])) = true := by
    rw [← hnew]
    decide +kernel
  obtain ⟨map, hmap, hall⟩ := (Option.any_eq_true _ _).mp hall
  obtain ⟨s, hrun, hall⟩ := (Option.any_eq_true _ _).mp hall
  obtain ⟨⟨ok, s'⟩, hput, hfacts⟩ := (Option.any_eq_true _ _).mp hall
  obtain ⟨hfree, hbuckets, hn, hocc, hbinding, hnone, hlo, rfl, hhi, hfreed⟩ :=
    of_decide_eq_true hfacts
  have hhi : s'.1.callocs = 5 := hhi
  have hbound : Bound s (1, 101) := by
    refine ⟨1, by rw [hn]; decide, 1, ?_, hocc, hbinding⟩
    rw [hbuckets]
    exact Relation.ReflTransGen.refl
  refine ⟨(new.2, map), s, s', ⟨Heap.empty, ncSimpleHash, ncSimpleCompare,
    Or.inr ⟨true, true, hnew.trans (Prod.ext hmap rfl)⟩⟩, hrun, hfree, hput,
    ⟨4, by omega, by omega, rfl⟩, hfreed, hbound, fun I ↦ ?_⟩
  obtain ⟨log, hlog, hkept⟩ := I.freed
  rw [hfreed, hnone, List.nil_append] at hlog
  exact (hkept _ hbound).1 (by rw [← hlog]; exact List.mem_cons_self)

end ClrDebugInfo
