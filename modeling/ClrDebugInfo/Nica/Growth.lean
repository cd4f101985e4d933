import ClrDebugInfo.Nica.Buckets

/-!
# A map that only grows

What `nc_hashmap_put` and `nc_hashmap_ensure_get` do on a map into which only new keys were ever
put, and from which nothing was removed: the map holds a multiset of bindings (`Holds`), a put adds
one or fails for want of memory, re-hashing into a larger array changes none, and a lookup finds a
binding exactly when there is one.

Re-hashing goes through the insertion rule of `Buckets`, one old cell at a time. The new array lies
above every old cell, so the frame of that rule keeps the old chains intact while they are read,
and also when the move is given up half way.
-/

namespace ClrDebugInfo

open LinkedChain

variable {K V : Type} [Zero K] [Zero V]

/-! ## Re-hashing -/

section Resize

variable {map : NcHashmap K V} {base n : ℕ} {h₀ h : Heap K V} {d : Multiset (K × V)}

/-- The state of a resize that has moved the bindings `d`: a table at `base`, and below `base` the
cells as they were in `h₀`. -/
structure Moved (map : NcHashmap K V) (h₀ h : Heap K V) (base n : ℕ) (d : Multiset (K × V)) :
    Prop where
  table : ∃ chains, Buckets map.hash h base n chains ∧ NoTomb h n chains ∧ content h n chains = d
  frame : ∀ a < base, h.cell a = h₀.cell a
  brk : h₀.brk ≤ h.brk

omit [Zero K] [Zero V] in
theorem freeBuckets_spec (map : NcHashmap K V) (nuke : Bool) {chains : ℕ → List ℕ} {is : List ℕ}
    (hchain : ∀ i ∈ is, Chain h.next (some (base + i)) (chains i) ∧
      (chains i).length < h.brk + 1) :
    ∃ h', freeBuckets map nuke (is.map (base + ·)) h = some h' ∧ h'.cell = h.cell ∧
      h'.brk = h.brk := by
  induction is generalizing h with
  | nil => exact ⟨h, rfl, rfl, rfl⟩
  | cons i is ih =>
    obtain ⟨hc, hlen⟩ := hchain i List.mem_cons_self
    have hrun : ∃ log, ncHashmapFreeBucket h map (base + i) nuke =
        some { h with freed := log } := by
      rw [ncHashmapFreeBucket, scan_eq_scanList hc hlen, Option.map_some]
      exact ⟨_, rfl⟩
    obtain ⟨log, hrun⟩ := hrun
    obtain ⟨h', hrest, hcell, hbrk⟩ := ih (h := { h with freed := log })
      fun j hj ↦ hchain j (List.mem_cons_of_mem i hj)
    refine ⟨h', ?_, hcell, hbrk⟩
    rw [List.map_cons, freeBuckets, hrun, Option.bind_some, hrest]

variable [DecidableEq K]

/-- One turn of the inner loop: it moves one binding, unless there is no memory or the pointer has
been moved before. -/
theorem Moved.insert (alloc : ℕ → Bool) (M : Moved map h₀ h base n d) (key : K) (value : V) :
    ∃ r h' d', ncHashmapInsertBucket alloc h map base n (map.hash key) key value = some (r, h') ∧
      Moved map h₀ h' base n d' ∧ ((r = 1 ∧ d' = (key, value) ::ₘ d) ∨
        (r ≤ 0 ∧ ((∃ k, alloc k = false) ∨ ∃ e ∈ d, e.1 = key))) := by
  obtain ⟨chains, B, hT, rfl⟩ := M.table
  obtain ⟨r, h', hrun, I⟩ := insertBucket_insertion alloc key value B
  have hi := B.index_lt (map.hash key)
  obtain ⟨chains', B', hT', hframe, hbrk⟩ := I.buckets B (hT.not_linksBack hi)
  have M' : Moved map h₀ h' base n (content h' n chains') :=
    ⟨⟨chains', B', hT' hT, rfl⟩, fun a ha ↦ (hframe a ha).trans (M.frame a ha), M.brk.trans hbrk⟩
  cases I with
  | @replace a ha hmatch =>
    obtain ⟨ho, hc, -⟩ := canReplace_eq_true_iff.mp hmatch
    exact ⟨0, _, _, hrun, M', Or.inr ⟨le_rfl, Or.inr
      ⟨_, mem_content.mpr ⟨_, hi, mem_bindings.mpr ⟨a, ha, ho, rfl⟩⟩, hc⟩⟩⟩
  | @reuse front z hl _ hz =>
    have I : Inserted map h (h.store z key value) base n chains chains key value :=
      inserted_of_reuse B hi rfl (by rw [hl]; simp) hz
    exact ⟨1, _, _, hrun, ⟨⟨_, I.buckets, I.noTomb hT, I.content⟩, M'.frame, M'.brk⟩,
      Or.inl ⟨rfl, rfl⟩⟩
  | @append front z hl _ hocc =>
    have I : Inserted map h (h.append key value z) base n chains _ key value :=
      inserted_of_append B hi rfl hl hocc
    exact ⟨1, _, _, hrun, ⟨⟨_, I.buckets, I.noTomb hT, I.content⟩, M'.frame, M'.brk⟩,
      Or.inl ⟨rfl, rfl⟩⟩
  | noMemory _ _ hfail =>
    exact ⟨-1, _, _, hrun, M', Or.inr ⟨by decide, Or.inl ⟨_, hfail⟩⟩⟩
  | relink hl hstop hz ht hocc =>
    exact absurd ⟨hstop, _, _, hl, hz, _, ht, hocc⟩ (hT.not_linksBack hi)

/-- What a loop of the resize has done: moved all bindings of `d₁`, or given up for want of memory
or at a pointer that is stored twice. -/
def MovedAll (alloc : ℕ → Bool) (d₁ d d' : Multiset (K × V)) (items items' : ℤ) (ok : Bool) :
    Prop :=
  (ok = true ∧ d' = d₁ + d ∧ items' = items + d₁.card) ∨
    (ok = false ∧ ((∃ k, alloc k = false) ∨ ¬((d₁ + d).map Prod.fst).Nodup))

theorem resizeChain_spec (alloc : ℕ → Bool) {l : List ℕ} (hl : ∀ a ∈ l, a < base)
    {p : Option ℕ} (hp : Chain h₀.next p l) (fuel : ℕ) (hfuel : l.length < fuel) (items : ℤ)
    (M : Moved map h₀ h base n d) :
    ∃ ok items' h' d', resizeChain alloc map base n fuel p h items = some (ok, items', h') ∧
      Moved map h₀ h' base n d' ∧ MovedAll alloc (bindings h₀ l) d d' items items' ok := by
  induction l generalizing p fuel h d items with
  | nil =>
    obtain ⟨k, rfl⟩ : ∃ k, fuel = k + 1 := ⟨fuel - 1, by omega⟩
    rw [chain_nil.mp hp, resizeChain]
    exact ⟨true, items, h, d, rfl, M, Or.inl ⟨rfl, by simp, by simp⟩⟩
  | cons a l ih =>
    obtain ⟨k, rfl⟩ : ∃ k, fuel = k + 1 := ⟨fuel - 1, by omega⟩
    rw [List.length_cons] at hfuel
    -- old cells lie below the new array, which is all that insertions write
    have hcell : h.cell a = h₀.cell a := M.frame a (hl a List.mem_cons_self)
    have hl' : ∀ b ∈ l, b < base := fun b hb ↦ hl b (List.mem_cons_of_mem a hb)
    rw [hp.1, resizeChain, hcell, bindings_cons]
    by_cases ho : (h₀.cell a).occ = true
    · rw [if_pos ho, if_pos ho, ncHashmapGetHash]
      have hsum : {((h₀.cell a).hash, (h₀.cell a).value)} + bindings h₀ l + d
          = bindings h₀ l + (((h₀.cell a).hash, (h₀.cell a).value) ::ₘ d) := by
        rw [Multiset.singleton_add, Multiset.add_cons, Multiset.cons_add]
      have hcard : ∀ items : ℤ,
          items + ({((h₀.cell a).hash, (h₀.cell a).value)} + bindings h₀ l).card
            = items + 1 + (bindings h₀ l).card := by
        intro items
        rw [Multiset.card_add, Multiset.card_singleton]
        push_cast
        rw [add_assoc]
      unfold MovedAll
      rw [hsum, hcard]
      obtain ⟨r, h₁, d₁, hrun, M₁, ⟨rfl, rfl⟩ | ⟨hr, hwhy⟩⟩ :=
        M.insert alloc (h₀.cell a).hash (h₀.cell a).value
      · have hnext : h₁.next a = h₀.next a := by
          rw [Heap.next, Heap.next, M₁.frame a (hl a List.mem_cons_self)]
        simp only [hrun, gt_iff_lt, Int.zero_lt_one, if_true, hnext]
        exact ih hl' hp.2 k (by omega) (items + 1) M₁
      · refine ⟨false, items, h₁, d₁, ?_, M₁, Or.inr ⟨rfl, hwhy.imp_right ?_⟩⟩
        · simp only [hrun, gt_iff_lt, if_neg (not_lt.mpr hr)]
        · -- a pointer that is still to be moved has been moved before
          rintro ⟨e, he, heq⟩ hnodup
          rw [Multiset.add_cons, Multiset.map_cons, Multiset.nodup_cons] at hnodup
          exact hnodup.1 (Multiset.mem_map.mpr ⟨e, Multiset.mem_add.mpr (Or.inr he), heq⟩)
    · have hnext : h.next a = h₀.next a := by
        rw [Heap.next, Heap.next, hcell]
      rw [if_neg ho, if_neg ho, zero_add, hnext]
      exact ih hl' hp.2 k (by omega) items M

theorem resizeChains_spec (alloc : ℕ → Bool) {old m : ℕ} {chains₀ : ℕ → List ℕ}
    (B₀ : Buckets map.hash h₀ old m chains₀) (hbase : ∀ i < m, ∀ a ∈ chains₀ i, a < base)
    {is : List ℕ} (his : ∀ i ∈ is, i < m) (items : ℤ) (M : Moved map h₀ h base n d) :
    ∃ ok items' h' d',
      resizeChains alloc map base n (is.map (old + ·)) h items = some (ok, items', h') ∧
      Moved map h₀ h' base n d' ∧
      MovedAll alloc (is.map fun i ↦ bindings h₀ (chains₀ i)).sum d d' items items' ok := by
  induction is generalizing h d items with
  | nil => exact ⟨true, items, h, d, rfl, M, Or.inl ⟨rfl, by simp, by simp⟩⟩
  | cons i is ih =>
    have hi : i < m := his i List.mem_cons_self
    simp only [List.map_cons, List.sum_cons]
    set rest := (is.map fun i ↦ bindings h₀ (chains₀ i)).sum
    have hfuel : (chains₀ i).length < h.brk + 1 := by
      have := B₀.length_lt hi
      have := M.brk
      omega
    have hswap : bindings h₀ (chains₀ i) + rest + d = rest + (bindings h₀ (chains₀ i) + d) := by
      abel
    rw [resizeChains]
    obtain ⟨ok, items₁, h₁, d₁, hrun, M₁, ⟨rfl, rfl, rfl⟩ | ⟨rfl, hwhy⟩⟩ :=
      resizeChain_spec alloc (hbase i hi) (B₀.chain i hi) _ hfuel items M
    · have hcard : items + ((bindings h₀ (chains₀ i) + rest).card : ℤ)
          = items + (bindings h₀ (chains₀ i)).card + rest.card := by
        rw [Multiset.card_add]
        push_cast
        rw [add_assoc]
      unfold MovedAll
      rw [hswap, hcard]
      simp only [hrun]
      exact ih (fun j hj ↦ his j (List.mem_cons_of_mem i hj)) _ M₁
    · refine ⟨false, items₁, h₁, d₁, ?_, M₁, Or.inr ⟨rfl, hwhy.imp_right fun hdup hnodup ↦ ?_⟩⟩
      · simp only [hrun]
      · -- the chain at hand and what was moved before are part of the whole table
        refine hdup (Multiset.nodup_of_le (Multiset.map_le_map ?_) hnodup)
        exact add_le_add_left (Multiset.le_add_right _ _) d

/-- **Re-hashing any table.** It moves all bindings into a table without tombs, or leaves the table
alone. -/
theorem ncHashmapResize_table (alloc : ℕ → Bool) {chains : ℕ → List ℕ}
    (B : Buckets map.hash h map.buckets map.nBuckets chains) :
    ∃ ok h' map', ncHashmapResize alloc h map = some (ok, h', map') ∧
      map'.hash = map.hash ∧ map'.compare = map.compare ∧
      ((ok = true ∧ map'.size = (content h map.nBuckets chains).card ∧
          ∃ chains', Buckets map'.hash h' map'.buckets map'.nBuckets chains' ∧
            NoTomb h' map'.nBuckets chains' ∧
            content h' map'.nBuckets chains' = content h map.nBuckets chains) ∨
        (ok = false ∧ map' = map ∧ h.brk ≤ h'.brk ∧ (∀ a < h.brk, h'.cell a = h.cell a) ∧
          ((∃ k, alloc k = false) ∨
            ¬((content h map.nBuckets chains).map Prod.fst).Nodup))) := by
  set newSize := map.nBuckets * increaseFactor with hsize
  cases hok : alloc h.callocs with
  | false =>
    refine ⟨false, h.afterFailure, map, ?_, rfl, rfl,
      Or.inr ⟨rfl, rfl, le_rfl, fun _ _ ↦ rfl, Or.inl ⟨_, hok⟩⟩⟩
    rw [ncHashmapResize, Heap.calloc_of_failure hok]
  | true =>
    set h₁ : Heap K V := { h with
      cell := fun a ↦ if h.brk ≤ a ∧ a < h.brk + newSize then NcHashmapEntry.zero else h.cell a
      brk := h.brk + newSize
      callocs := h.callocs + 1 } with hh₁
    have hpos : 0 < newSize := Nat.mul_pos B.pos (by decide)
    have hlow : ∀ i < map.nBuckets, ∀ a ∈ chains i, a < h.brk :=
      fun i hi a ha ↦ (B.bound i hi a ha).2
    have hsame : ∀ a < h.brk, h₁.cell a = h.cell a := fun a ha ↦ if_neg (by omega)
    have hold : ∀ i < map.nBuckets, ∀ a ∈ chains i, h₁.cell a = h.cell a :=
      fun i hi a ha ↦ hsame a (hlow i hi a ha)
    have B₁ : Buckets map.hash h₁ map.buckets map.nBuckets chains :=
      B.congr (Nat.le_add_right _ _) hold
    have hsum : ((List.range map.nBuckets).map fun i ↦ bindings h₁ (chains i)).sum =
        content h map.nBuckets chains := by
      rw [← Buckets.content_congr hold]
      exact (Multiset.sum_coe _).symm
    have M₁ : Moved map h₁ h₁ h.brk newSize 0 :=
      ⟨⟨freshChains h.brk, Buckets.fresh hpos le_rfl fun a hlo hhi ↦ if_pos ⟨hlo, hhi⟩⟩,
        fun _ _ ↦ rfl, le_rfl⟩
    obtain ⟨ok, items, h₂, d', hrun, M₂, hmove⟩ := resizeChains_spec alloc B₁ hlow
      (fun i (hi : i ∈ List.range map.nBuckets) ↦ List.mem_range.mp hi) 0 M₁
    rw [MovedAll, hsum, zero_add, add_zero] at hmove
    rw [ncHashmapResize, Heap.calloc_eq hok, ← hsize]
    simp only [← hh₁, bucketAddrs]
    obtain ⟨chains', B', hT', rfl⟩ := M₂.table
    rcases hmove with ⟨rfl, hd, rfl⟩ | ⟨rfl, hwhy⟩
    · -- the old chains are still there when they are freed
      obtain ⟨h₃, hfree, hcell, hbrk⟩ := freeBuckets_spec map false (h := h₂)
        fun i (hi : i ∈ List.range map.nBuckets) ↦ by
          rw [List.mem_range] at hi
          have hlen := B₁.length_lt hi
          have := M₂.brk
          refine ⟨(B₁.chain i hi).congr fun a ha ↦ ?_, by omega⟩
          rw [Heap.next, Heap.next, M₂.frame a (hlow i hi a ha)]
      have hcells : ∀ i < newSize, ∀ a ∈ chains' i, h₃.cell a = h₂.cell a :=
        fun _ _ _ _ ↦ by rw [hcell]
      refine ⟨true, h₃, ncHashmapUpdateNextSize
        { map with nBuckets := newSize, size := _, buckets := h.brk }, ?_, rfl, rfl,
        Or.inl ⟨rfl, rfl, chains', B'.congr hbrk.ge hcells, fun i hi a ha ho ↦ ?_, ?_⟩⟩
      · simp only [hrun, hfree, Option.map_some]
      · rw [hcell] at ho
        exact hT' i hi a ha ho
      · exact (Buckets.content_congr hcells).trans hd
    · -- the new chains end, so that giving up ends, and the old table was not touched
      obtain ⟨h₃, hfree, hcell, hbrk⟩ := freeBuckets_spec map true (h := h₂)
        fun i (hi : i ∈ List.range newSize) ↦
          ⟨B'.chain i (List.mem_range.mp hi), B'.length_lt (List.mem_range.mp hi)⟩
      refine ⟨false, h₃, map, ?_, rfl, rfl, Or.inr ⟨rfl, rfl, ?_, fun a ha ↦ ?_, hwhy⟩⟩
      · simp only [hrun, hfree, Option.map_some]
      · have := M₂.brk
        have : h₁.brk = h.brk + newSize := rfl
        omega
      · rw [hcell, M₂.frame a ha, hsame a ha]

end Resize

/-! ## The map -/

/-- `map` represents the bindings `d`. -/
structure Holds (h : Heap K V) (map : NcHashmap K V) (d : Multiset (K × V)) : Prop where
  table : ∃ chains, Buckets map.hash h map.buckets map.nBuckets chains ∧
    NoTomb h map.nBuckets chains ∧ content h map.nBuckets chains = d
  /-- No pointer is stored twice. -/
  nodup : (d.map Prod.fst).Nodup
  size : map.size = d.card

theorem Holds.congr {h h' : Heap K V} {map : NcHashmap K V} {d : Multiset (K × V)}
    (H : Holds h map d) (hbrk : h.brk ≤ h'.brk) (hsame : ∀ a < h.brk, h'.cell a = h.cell a) :
    Holds h' map d := by
  obtain ⟨chains, B, hT, hd⟩ := H.table
  have hcell : ∀ i < map.nBuckets, ∀ a ∈ chains i, h'.cell a = h.cell a := fun i hi a ha ↦
    hsame a (B.bound i hi a ha).2
  refine ⟨⟨chains, B.congr hbrk hcell, fun i hi a ha ho ↦ ?_, ?_⟩, H.nodup, H.size⟩
  · rw [hcell i hi a ha] at ho
    exact hT i hi a ha ho
  · rw [Buckets.content_congr hcell, hd]

section Map

variable {map : NcHashmap K V} {h : Heap K V} {d : Multiset (K × V)} {key : K}

theorem ncHashmapNewFull_spec (alloc : ℕ → Bool) (h : Heap K V) (hash : K → UInt32)
    (compare : K → K → Bool) (keyFree valueFree : Bool) :
    (∃ map h', ncHashmapNewFull alloc h hash compare keyFree valueFree = (some map, h') ∧
        map.hash = hash ∧ map.compare = compare ∧ Holds h' map 0) ∨
      ((∃ k, alloc k = false) ∧ ∃ h',
        ncHashmapNewFull alloc h hash compare keyFree valueFree = (none, h')) := by
  rw [ncHashmapNewFull, ncHashmapNewInternal]
  cases h₁ : alloc h.callocs with
  | false => exact Or.inr ⟨⟨_, h₁⟩, by simp [Heap.calloc, h₁]⟩
  | true =>
    rw [Heap.calloc_eq h₁]
    cases h₂ : alloc (h.callocs + 1) with
    | false => exact Or.inr ⟨⟨_, h₂⟩, by simp [Heap.calloc, h₂]⟩
    | true =>
      simp only [Heap.calloc, h₂, if_true, ncHashmapUpdateNextSize]
      refine Or.inl ⟨_, _, rfl, rfl, rfl, ⟨freshChains (h.brk + 0), ?_⟩, Multiset.nodup_zero, rfl⟩
      exact Buckets.fresh (Nat.succ_pos 60) le_rfl fun a hlo hhi ↦ if_pos ⟨hlo, hhi⟩

variable [DecidableEq K]

/-- **Re-hashing keeps the bindings**, whether it succeeds or not. -/
theorem ncHashmapResize_spec (alloc : ℕ → Bool) (H : Holds h map d) :
    ∃ ok h' map', ncHashmapResize alloc h map = some (ok, h', map') ∧
      map'.hash = map.hash ∧ map'.compare = map.compare ∧ Holds h' map' d ∧
      (ok = false → ∃ k, alloc k = false) := by
  obtain ⟨chains, B, -, rfl⟩ := H.table
  obtain ⟨ok, h', map', hrun, hhash, hcmp, htable⟩ := ncHashmapResize_table alloc B
  refine ⟨ok, h', map', hrun, hhash, hcmp, ?_⟩
  rcases htable with ⟨rfl, hsize, htable⟩ | ⟨rfl, rfl, hbrk, hsame, hwhy⟩
  · exact ⟨⟨htable, H.nodup, hsize⟩, fun h ↦ absurd h (by simp)⟩
  · exact ⟨H.congr hbrk hsame, fun _ ↦ hwhy.resolve_right (not_not_intro H.nodup)⟩

theorem ncHashmapPut_grow (alloc : ℕ → Bool) (H : Holds h map d) :
    ∃ ok h₁ map₁, (if ncHashmapMaybeResize map then ncHashmapResize alloc h map
        else some (true, h, map)) = some (ok, h₁, map₁) ∧
      map₁.hash = map.hash ∧ map₁.compare = map.compare ∧ Holds h₁ map₁ d ∧
      (ok = false → ∃ k, alloc k = false) := by
  by_cases hm : ncHashmapMaybeResize map = true
  · rw [if_pos hm]
    exact ncHashmapResize_spec alloc H
  · rw [if_neg hm]
    exact ⟨true, h, map, rfl, rfl, rfl, H, fun h ↦ absurd h (by simp)⟩

/-- **A put of a new pointer adds its binding**, or fails and adds none. -/
theorem ncHashmapPut_spec (alloc : ℕ → Bool) (value : V) (H : Holds h map d)
    (hnew : ∀ e ∈ d, e.1 ≠ key) :
    ∃ ok h' map', ncHashmapPut alloc h map key value = some (ok, h', map') ∧
      map'.hash = map.hash ∧ map'.compare = map.compare ∧
      Holds h' map' (if ok then (key, value) ::ₘ d else d) ∧
      (ok = false → ∃ k, alloc k = false) := by
  obtain ⟨ok, h₁, map₁, hrun₁, hhash, hcmp, H₁, hlucky⟩ := ncHashmapPut_grow alloc H
  rw [ncHashmapPut]
  simp only [hrun₁]
  cases ok with
  | false => exact ⟨false, h₁, map₁, rfl, hhash, hcmp, H₁, hlucky⟩
  | true =>
    obtain ⟨chains, B, hT, hd⟩ := H₁.table
    simp only [ncHashmapGetHash]
    rcases insertBucket_spec alloc value B hT (by rw [hd]; exact hnew) with
      ⟨h', chains', hrun, I⟩ | ⟨hfail, hrun⟩
    · refine ⟨true, h', { map₁ with size := map₁.size + 1 }, ?_, hhash, hcmp,
        ⟨⟨chains', I.buckets, I.noTomb hT, by rw [if_pos rfl, ← hd]; exact I.content⟩, ?_, ?_⟩,
        fun h ↦ absurd h (by simp)⟩
      · simp only [hrun, gt_iff_lt, Int.zero_lt_one, if_true]
      · rw [if_pos rfl, Multiset.map_cons, Multiset.nodup_cons]
        refine ⟨fun hmem ↦ ?_, H.nodup⟩
        obtain ⟨e, he, heq⟩ := Multiset.mem_map.mp hmem
        exact hnew e he heq
      · rw [if_pos rfl, Multiset.card_cons]
        push_cast
        rw [← H₁.size]
    · refine ⟨false, h₁.afterFailure, map₁, ?_, hhash, hcmp, H₁.congr le_rfl fun _ _ ↦ rfl,
        fun _ ↦ ⟨_, hfail⟩⟩
      simp only [hrun, gt_iff_lt, Int.reduceNeg, Int.reduceLT, if_false]

/-- A pointer that is in the table is found by the loop of `nc_hashmap_insert_bucket`, which then
writes the cell of its binding. -/
theorem insertBucket_replace (alloc : ℕ → Bool) (value : V) {w : V} {base n : ℕ}
    {chains : ℕ → List ℕ} (B : Buckets map.hash h base n chains) (hT : NoTomb h n chains)
    (hd : content h n chains = (key, w) ::ₘ d)
    (hnodup : (((key, w) ::ₘ d).map Prod.fst).Nodup) (hrefl : map.compare key key = true) :
    ∃ h', ncHashmapInsertBucket alloc h map base n (map.hash key) key value = some (0, h') ∧
      Buckets map.hash h' base n chains ∧ NoTomb h' n chains ∧
      content h' n chains = (key, value) ::ₘ d := by
  have hi := B.index_lt (map.hash key)
  obtain ⟨a, ha, hmatch⟩ : ∃ a ∈ chains ((map.hash key).toNat % n),
      canReplace h map key a = true := by
    have hmem : (key, w) ∈ content h n chains := by
      rw [hd]
      exact Multiset.mem_cons_self _ _
    obtain ⟨j, hj, he⟩ := mem_content.mp hmem
    obtain ⟨a, ha, ho, heq⟩ := mem_bindings.mp he
    have hkey : (h.cell a).hash = key := (Prod.mk.inj heq).1
    have hplaced := B.placed j hj a ha ho
    rw [hkey] at hplaced
    exact ⟨a, hplaced ▸ ha, canReplace_eq_true_iff.mpr ⟨ho, hkey, hrefl⟩⟩
  obtain ⟨r, h', hrun, I⟩ := insertBucket_insertion alloc key value B
  have hnostop : ¬∀ a ∈ chains ((map.hash key).toNat % n), canReplace h map key a = false := by
    intro hstop
    rw [hstop a ha] at hmatch
    exact absurd hmatch (by simp)
  cases I with
  | @replace b hb hmatch =>
    obtain ⟨ho, hkey, -⟩ := canReplace_eq_true_iff.mp hmatch
    have R : Rewritten h ({ h with freed := h.freed ++ replaceFrees map (h.cell b) }.store b key
        value) b ⟨key, value, (h.cell b).next, true⟩ := ⟨rfl, rfl, rfl⟩
    refine ⟨_, hrun, R.buckets B hi hb (fun _ ↦ rfl) (by simp), R.noTomb hT rfl, ?_⟩
    -- the cell held the one binding of the pointer
    have hw : (h.cell b).value = w := by
      have hmem : (key, (h.cell b).value) ∈ content h n chains :=
        mem_content.mpr ⟨_, hi, mem_bindings.mpr ⟨b, hb, ho, by rw [hkey]⟩⟩
      rw [hd] at hmem
      have := Multiset.inj_on_of_nodup_map hnodup _ hmem _ (Multiset.mem_cons_self _ _) rfl
      exact (Prod.mk.inj this).2
    have holdb : bindings h [b] = {(key, w)} := by
      rw [bindings_cons, if_pos ho, bindings_nil, add_zero, hkey, hw]
    have hc := R.content B hi hb
    rw [hd, holdb, R.bindings_self rfl, ← Multiset.singleton_add, add_comm, add_assoc] at hc
    rw [add_left_cancel hc, add_comm, Multiset.singleton_add]
  | reuse _ hstop _ => exact absurd hstop hnostop
  | append _ hstop _ _ => exact absurd hstop hnostop
  | noMemory hstop _ _ => exact absurd hstop hnostop
  | relink _ hstop _ _ _ => exact absurd hstop hnostop

/-- **A put of a pointer that is there replaces its value**, and reports a failure. -/
theorem ncHashmapPut_replace (alloc : ℕ → Bool) (value : V) {w : V}
    (H : Holds h map ((key, w) ::ₘ d)) (hrefl : map.compare key key = true) :
    ∃ h' map', ncHashmapPut alloc h map key value = some (false, h', map') ∧
      map'.hash = map.hash ∧ map'.compare = map.compare ∧
      (Holds h' map' ((key, value) ::ₘ d) ∨
        (Holds h' map' ((key, w) ::ₘ d) ∧ ∃ k, alloc k = false)) := by
  obtain ⟨ok, h₁, map₁, hrun₁, hhash, hcmp, H₁, hlucky⟩ := ncHashmapPut_grow alloc H
  rw [ncHashmapPut]
  simp only [hrun₁]
  cases ok with
  | false => exact ⟨h₁, map₁, rfl, hhash, hcmp, Or.inr ⟨H₁, hlucky rfl⟩⟩
  | true =>
    obtain ⟨chains, B, hT, hd⟩ := H₁.table
    obtain ⟨h', hrun, hB, hT', hd'⟩ :=
      insertBucket_replace alloc value B hT hd H.nodup (hcmp ▸ hrefl)
    refine ⟨h', map₁, ?_, hhash, hcmp, Or.inl ⟨⟨chains, hB, hT', hd'⟩, ?_, ?_⟩⟩
    · simp only [ncHashmapGetHash, hrun, gt_iff_lt, lt_irrefl, if_false]
    · simpa using H.nodup
    · rw [H₁.size, Multiset.card_cons, Multiset.card_cons]

omit [DecidableEq K] in
/-- The walk of `nc_hashmap_get_entry` ends, with a `compare` that never relates keys of different
hashes: at a binding of the key, or at an unoccupied bucket if `compare` takes `NULL` for the key,
or at the end. -/
theorem ncHashmapGetEntry_spec (H : Holds h map d)
    (hhash : ∀ k, map.compare k key = true → map.hash k = map.hash key) :
    (∃ a, ncHashmapGetEntry h map key = some (some a) ∧
        ((h.cell a).hash, (h.cell a).value) ∈ d ∧ map.compare (h.cell a).hash key = true) ∨
      ((∀ e ∈ d, map.compare e.1 key = false) ∧
        ((∃ a, ncHashmapGetEntry h map key = some (some a) ∧ (h.cell a).value = 0 ∧
            map.compare 0 key = true) ∨
          ncHashmapGetEntry h map key = some none)) := by
  obtain ⟨chains, B, hT, rfl⟩ := H.table
  obtain ⟨i, hkey⟩ : ∃ i, (map.hash key).toNat % map.nBuckets = i := ⟨_, rfl⟩
  have hi : i < map.nBuckets := hkey ▸ B.index_lt _
  have hrun : ncHashmapGetEntry h map key
      = some ((chains i).find? fun row ↦ map.compare (h.cell row).hash key) := by
    rw [ncHashmapGetEntry, ncHashmapGetHash, hkey,
      scan_eq_scanList (B.chain i hi) (B.length_lt hi), Option.map_some, scanList_fst]
  -- a binding that `compare` accepts has the hash of the key, so it is on the chain walked
  have hon : ∀ e ∈ content h map.nBuckets chains, map.compare e.1 key = true →
      ∃ a ∈ chains i, (h.cell a).occ = true ∧ ((h.cell a).hash, (h.cell a).value) = e := by
    intro e he hc
    obtain ⟨j, hj, hej⟩ := mem_content.mp he
    obtain ⟨a, ha, ho, rfl⟩ := mem_bindings.mp hej
    have hij : j = i := by rw [← B.placed j hj a ha ho, hhash _ hc, hkey]
    exact ⟨a, hij ▸ ha, ho, rfl⟩
  rw [hrun]
  cases hfind : (chains i).find? fun row ↦ map.compare (h.cell row).hash key with
  | none =>
    refine Or.inr ⟨fun e he ↦ Bool.eq_false_iff.mpr fun hc ↦ ?_, Or.inr rfl⟩
    obtain ⟨a, ha, -, rfl⟩ := hon e he hc
    exact absurd hc (by simpa using List.find?_eq_none.mp hfind a ha)
  | some a =>
    have hc : map.compare (h.cell a).hash key = true := by
      simpa using List.find?_some hfind
    have ha : a ∈ chains i := List.mem_of_find?_eq_some hfind
    cases ho : (h.cell a).occ with
    | true => exact Or.inl ⟨a, rfl, mem_content.mpr ⟨i, hi, mem_bindings.mpr ⟨a, ha, ho, rfl⟩⟩, hc⟩
    | false =>
      obtain ⟨hnull, hvalue⟩ := B.blank i hi a ha ho
      refine Or.inr ⟨fun e he ↦ Bool.eq_false_iff.mpr fun hc ↦ ?_,
        Or.inl ⟨a, rfl, hvalue, hnull ▸ hc⟩⟩
      -- the unoccupied cell is alone on its chain
      obtain ⟨b, hb, hob, -⟩ := hon e he hc
      rw [hT i hi a ha ho, List.mem_singleton] at hb
      rw [hb, ho] at hob
      exact absurd hob (by simp)

omit [DecidableEq K] in
/-- **Lookup.** With a `compare` that no unoccupied cell satisfies, `nc_hashmap_ensure_get` finds a
binding of the key if there is one. -/
theorem ncHashmapEnsureGet_spec (H : Holds h map d)
    (hnull : map.compare 0 key = false)
    (hhash : ∀ k, map.compare k key = true → map.hash k = map.hash key) :
    (∃ e ∈ d, map.compare e.1 key = true ∧ ncHashmapEnsureGet h map key = some (true, e.2)) ∨
      ((∀ e ∈ d, map.compare e.1 key = false) ∧
        ncHashmapEnsureGet h map key = some (false, 0)) := by
  rw [ncHashmapEnsureGet]
  rcases ncHashmapGetEntry_spec H hhash with ⟨a, hrun, hmem, hc⟩ | ⟨hnone, ⟨a, -, -, hc⟩ | hrun⟩
  · exact Or.inl ⟨_, hmem, hc, by rw [hrun, Option.map_some]⟩
  · rw [hnull] at hc
    exact absurd hc (by simp)
  · exact Or.inr ⟨hnone, by rw [hrun, Option.map_some]⟩

omit [DecidableEq K] in
theorem ncHashmapGet_spec (H : Holds h map d)
    (hhash : ∀ k, map.compare k key = true → map.hash k = map.hash key) :
    (∃ e ∈ d, map.compare e.1 key = true ∧ ncHashmapGet h map key = some e.2) ∨
      ((∀ e ∈ d, map.compare e.1 key = false) ∧ ncHashmapGet h map key = some 0) := by
  rw [ncHashmapGet]
  rcases ncHashmapGetEntry_spec H hhash with
    ⟨a, hrun, hmem, hc⟩ | ⟨hnone, ⟨a, hrun, hvalue, -⟩ | hrun⟩
  · exact Or.inl ⟨_, hmem, hc, by rw [hrun, Option.map_some]⟩
  · exact Or.inr ⟨hnone, by rw [hrun, Option.map_some, ← hvalue]⟩
  · exact Or.inr ⟨hnone, by rw [hrun, Option.map_some]⟩

end Map

/-! ## String keys -/

theorem ncStringCompare_ptr_iff {key : StrPtr} {addr : ℕ} {str : Bytes} :
    ncStringCompare key (.ptr addr str) = true ↔ ∃ a, key = .ptr a str := by
  match key with
  | .null => simp [ncStringCompare]
  | .ptr a s => simp [ncStringCompare]

/-- **Lookup of a string**, wherever it is stored. -/
theorem ncHashmapEnsureGet_string {map : NcHashmap StrPtr V} {h : Heap StrPtr V}
    {d : Multiset (StrPtr × V)} (H : Holds h map d) (hhash : map.hash = ncStringHash)
    (hcmp : map.compare = ncStringCompare) (addr : ℕ) (str : Bytes) :
    (∃ a value, (StrPtr.ptr a str, value) ∈ d ∧
        ncHashmapEnsureGet h map (.ptr addr str) = some (true, value)) ∨
      ((∀ a value, (StrPtr.ptr a str, value) ∉ d) ∧
        ncHashmapEnsureGet h map (.ptr addr str) = some (false, 0)) := by
  have hcompat : ∀ k, map.compare k (.ptr addr str) = true →
      map.hash k = map.hash (.ptr addr str) := by
    intro k hk
    rw [hcmp, ncStringCompare_ptr_iff] at hk
    obtain ⟨a, rfl⟩ := hk
    rw [hhash]
    rfl
  have hnull : map.compare 0 (.ptr addr str) = false := by
    rw [hcmp]
    rfl
  rcases ncHashmapEnsureGet_spec H hnull hcompat with ⟨⟨key, value⟩, he, hk, hrun⟩ | ⟨hnone, hrun⟩
  · rw [hcmp, ncStringCompare_ptr_iff] at hk
    obtain ⟨a, rfl⟩ := hk
    exact Or.inl ⟨a, value, he, hrun⟩
  · refine Or.inr ⟨fun a value hmem ↦ ?_, hrun⟩
    have hk := hnone _ hmem
    rw [hcmp, Bool.eq_false_iff] at hk
    exact hk (ncStringCompare_ptr_iff.mpr ⟨a, rfl⟩)

end ClrDebugInfo
