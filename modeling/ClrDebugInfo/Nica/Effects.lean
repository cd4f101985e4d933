import ClrDebugInfo.Nica.Growth

/-!
# What the calls do

The effect of `nc_hashmap_put`, `nc_hashmap_remove` and `nc_hashmap_steal` on the bindings of a
table, on its size and on the log of `key_free` and `value_free`. What else they do to the cells
does not matter to a caller.

A put that makes the map grow first moves the bindings; that frees nothing if it succeeds
(`ncHashmapResize_freed`).
-/

namespace ClrDebugInfo

open LinkedChain

variable {K V : Type}

/-! ## Growing frees nothing -/

section Freed

variable {alloc : ℕ → Bool} {h h' : Heap K V} {map map' : NcHashmap K V} {nuke ok : Bool}

theorem freeBuckets_keeps {bs : List ℕ} (hrun : freeBuckets map nuke bs h = some h') :
    h'.cell = h.cell ∧ h'.brk = h.brk ∧ h'.callocs = h.callocs ∧
      (nuke = false → h'.freed = h.freed) := by
  induction bs generalizing h with
  | nil =>
    obtain rfl := Option.some.inj hrun
    exact ⟨rfl, rfl, rfl, fun _ ↦ rfl⟩
  | cons b bs ih =>
    obtain ⟨h₁, hb, hrest⟩ := Option.bind_eq_some_iff.mp hrun
    obtain ⟨⟨stop, log⟩, hscan, rfl⟩ := Option.map_eq_some_iff.mp hb
    obtain ⟨hcell, hbrk, hcallocs, hfreed⟩ := ih hrest
    refine ⟨hcell, hbrk, hcallocs, fun hnuke ↦ (hfreed hnuke).trans ?_⟩
    subst hnuke
    exact scan_snd_of_const (fun _ _ ↦ rfl) hscan

theorem Buckets.freeBuckets_nuke [Zero K] [Zero V] {hash : K → UInt32} {base n : ℕ}
    {chains : ℕ → List ℕ} (B : Buckets hash h base n chains) (map : NcHashmap K V) {is : List ℕ}
    (his : ∀ i ∈ is, i < n) :
    ∃ h', freeBuckets map true (is.map (base + ·)) h = some h' ∧ h'.cell = h.cell ∧
      h'.freed = h.freed ++ (is.flatMap chains).flatMap fun a ↦ nukeFrees map (h.cell a) := by
  induction is generalizing h with
  | nil => exact ⟨h, rfl, rfl, by simp⟩
  | cons i is ih =>
    have hi := his i List.mem_cons_self
    have hlog : ∀ (l : List ℕ) (log : List (K ⊕ V)),
        l.foldl (fun log a ↦ if true = true then log ++ nukeFrees map (h.cell a) else log) log =
          log ++ l.flatMap fun a ↦ nukeFrees map (h.cell a) := by
      intro l
      induction l with
      | nil => simp
      | cons a l ih =>
        intro log
        rw [List.foldl_cons, if_pos rfl, ih, List.flatMap_cons, List.append_assoc]
    have hrun : ncHashmapFreeBucket h map (base + i) true = some { h with
        freed := h.freed ++ (chains i).flatMap fun a ↦ nukeFrees map (h.cell a) } := by
      rw [ncHashmapFreeBucket, scan_eq_scanList (B.chain i hi) (B.length_lt hi),
        scanList_of_forall_not fun _ _ ↦ rfl, hlog]
      rfl
    have B' : Buckets hash ({ h with
        freed := h.freed ++ (chains i).flatMap fun a ↦ nukeFrees map (h.cell a) } : Heap K V) base n
        chains := B.congr le_rfl fun _ _ _ _ ↦ rfl
    obtain ⟨h', hrest, hcell, hfreed⟩ := ih B' fun j hj ↦ his j (List.mem_cons_of_mem i hj)
    refine ⟨h', ?_, hcell, ?_⟩
    · rw [List.map_cons, freeBuckets, hrun, Option.bind_some, hrest]
    · rw [hfreed, List.flatMap_cons, List.flatMap_append, List.append_assoc]

variable [Zero K] [Zero V] [DecidableEq K] {key : K} {value : V} {newBuckets newSize : ℕ}

theorem insertBucket_freed {hash : UInt32} {r : ℤ}
    (hrun : ncHashmapInsertBucket alloc h map newBuckets newSize hash key value = some (r, h'))
    (hr : r > 0) : h'.freed = h.freed := by
  obtain ⟨⟨row, parent, tomb⟩, -, hinsert⟩ := Option.map_eq_some_iff.mp hrun
  rcases insertRow_cases hinsert with ⟨a, -, rfl, -⟩ | ⟨t, -, -, rfl⟩ | ⟨-, rfl, -⟩ | ⟨-, -, rfl⟩
  · exact absurd hr (lt_irrefl 0)
  · by_cases hparent : parent = t
    · rw [if_pos hparent]
      rfl
    · rw [if_neg hparent]
      rfl
  · exact absurd hr (by decide)
  · rfl

private theorem resizeChain_freed {fuel : ℕ} {p : Option ℕ} {items items' : ℤ}
    (hrun : resizeChain alloc map newBuckets newSize fuel p h items = some (true, items', h')) :
    h'.freed = h.freed := by
  induction fuel generalizing p h items with
  | zero => cases hrun
  | succ fuel ih =>
    cases p with
    | none =>
      obtain ⟨-, -, rfl⟩ : true = true ∧ items = items' ∧ h = h' := by
        simpa [resizeChain] using hrun
      rfl
    | some entry =>
      rw [resizeChain] at hrun
      by_cases ho : (h.cell entry).occ = true
      · rw [if_pos ho] at hrun
        split at hrun
        next => exact absurd hrun (by simp)
        next incr h₁ hinsert =>
          by_cases hincr : incr > 0
          · rw [if_pos hincr] at hrun
            exact (ih hrun).trans (insertBucket_freed hinsert hincr)
          · rw [if_neg hincr] at hrun
            exact absurd hrun (by simp)
      · rw [if_neg ho] at hrun
        exact ih hrun

private theorem resizeChains_freed {heads : List ℕ} {items items' : ℤ}
    (hrun : resizeChains alloc map newBuckets newSize heads h items = some (true, items', h')) :
    h'.freed = h.freed := by
  induction heads generalizing h items with
  | nil =>
    obtain ⟨-, -, rfl⟩ : true = true ∧ items = items' ∧ h = h' := by
      simpa [resizeChains] using hrun
    rfl
  | cons entry heads ih =>
    rw [resizeChains] at hrun
    split at hrun
    next => exact absurd hrun (by simp)
    next => exact absurd hrun (by simp)
    next items₁ h₁ hchain => exact (ih hrun).trans (resizeChain_freed hchain)

/-- **Growing moves ownership without freeing.** -/
theorem ncHashmapResize_freed (hrun : ncHashmapResize alloc h map = some (ok, h', map')) :
    map'.keyFree = map.keyFree ∧ map'.valueFree = map.valueFree ∧
      (ok = true → h'.freed = h.freed) := by
  rw [ncHashmapResize] at hrun
  split at hrun
  next h₁ hcalloc =>
    obtain ⟨rfl, rfl, rfl⟩ : false = ok ∧ h₁ = h' ∧ map = map' := by simpa using hrun
    exact ⟨rfl, rfl, by simp⟩
  next newBuckets h₁ hcalloc =>
    have hfreed : h₁.freed = h.freed := by
      rw [Heap.calloc] at hcalloc
      split at hcalloc
      next => exact (Prod.mk.inj hcalloc).2 ▸ rfl
      next => exact absurd (Prod.mk.inj hcalloc).1 (by simp)
    split at hrun
    next => exact absurd hrun (by simp)
    next items h₂ hmove =>
      obtain ⟨h₃, hfree, heq⟩ := Option.map_eq_some_iff.mp hrun
      obtain ⟨rfl, rfl, rfl⟩ := by simpa only [Prod.mk.injEq] using heq
      obtain ⟨-, -, -, hkeep⟩ := freeBuckets_keeps hfree
      exact ⟨rfl, rfl, fun _ ↦ (hkeep rfl).trans ((resizeChains_freed hmove).trans hfreed)⟩
    next items h₂ hmove =>
      obtain ⟨h₃, hfree, heq⟩ := Option.map_eq_some_iff.mp hrun
      obtain ⟨rfl, rfl, rfl⟩ := by simpa only [Prod.mk.injEq] using heq
      exact ⟨rfl, rfl, by simp⟩

end Freed

/-! ## Puts -/

section Puts

variable [Zero K] [Zero V] {alloc : ℕ → Bool} {h h' : Heap K V} {map : NcHashmap K V}
  {s : Heap K V × NcHashmap K V} {d d' : Multiset (K × V)} {key : K} {value : V}

/-- The map is a table with the bindings `d`. -/
def TableOf (s : Heap K V × NcHashmap K V) (d : Multiset (K × V)) : Prop :=
  ∃ chains, Buckets s.2.hash s.1 s.2.buckets s.2.nBuckets chains ∧
    content s.1 s.2.nBuckets chains = d

/-- What a put does to the bindings `d` and to the log `freed`, and what it returns. -/
inductive PutEffect (alloc : ℕ → Bool) (map : NcHashmap K V) (d : Multiset (K × V))
    (freed : List (K ⊕ V)) (key : K) (value : V) :
    Bool → Multiset (K × V) → List (K ⊕ V) → Prop
  | inserted (hnew : map.compare key key = true → ∀ e ∈ d, e.1 ≠ key) :
    PutEffect alloc map d freed key value true ((key, value) ::ₘ d) freed
  /-- The pointer is there. -/
  | replaced {e : NcHashmapEntry K V} {d₀ : Multiset (K × V)} (hkey : e.hash = key)
    (hd : d = (key, e.value) ::ₘ d₀) (hrefl : map.compare key key = true) :
    PutEffect alloc map d freed key value false ((key, value) ::ₘ d₀) (freed ++ replaceFrees map e)
  /-- There is no memory, or the map cannot grow since a pointer is there twice. -/
  | refused (freed' : List (K ⊕ V))
    (hwhy : (∃ k, alloc k = false) ∨ ¬(d.map Prod.fst).Nodup) :
    PutEffect alloc map d freed key value false d freed'

theorem Buckets.mem_of_mem_content {hash : K → UInt32} {base n : ℕ} {chains : ℕ → List ℕ}
    (B : Buckets hash h base n chains) {w : V} (he : (key, w) ∈ content h n chains) :
    ∃ a ∈ chains ((hash key).toNat % n),
      (h.cell a).occ = true ∧ (h.cell a).hash = key ∧ (h.cell a).value = w := by
  obtain ⟨j, hj, he⟩ := mem_content.mp he
  obtain ⟨a, ha, ho, heq⟩ := mem_bindings.mp he
  obtain ⟨hkey, hvalue⟩ := Prod.mk.inj heq
  have hplaced := B.placed j hj a ha ho
  rw [hkey] at hplaced
  exact ⟨a, hplaced ▸ ha, ho, hkey, hvalue⟩

theorem Buckets.exchange {hash : K → UInt32} {base n i a : ℕ} {chains : ℕ → List ℕ}
    {e : NcHashmapEntry K V} (B : Buckets hash h base n chains) (R : Rewritten h h' a e)
    (hi : i < n) (ha : a ∈ chains i) (ho : (h.cell a).occ = true) :
    ∃ d₀, content h n chains = ((h.cell a).hash, (h.cell a).value) ::ₘ d₀ ∧
      content h' n chains = (if e.occ then {(e.hash, e.value)} else 0) + d₀ := by
  obtain ⟨d₀, hd₀⟩ := Multiset.exists_cons_of_mem
    (mem_content.mpr ⟨i, hi, mem_bindings.mpr ⟨a, ha, ho, rfl⟩⟩ :
      ((h.cell a).hash, (h.cell a).value) ∈ content h n chains)
  have hc := R.content B hi ha
  rw [bindings_cons, bindings_cons, if_pos ho, R.cell_self, bindings_nil, add_zero,
    bindings_nil, add_zero, hd₀, ← Multiset.singleton_add, add_assoc, add_comm] at hc
  refine ⟨d₀, hd₀, ?_⟩
  rw [add_left_cancel hc, add_comm]

variable [DecidableEq K]

theorem Insertion.effect {base n : ℕ} {chains : ℕ → List ℕ} {r : ℤ}
    (B : Buckets map.hash h base n chains)
    (I : Insertion alloc h map key value (chains ((map.hash key).toNat % n)) r h')
    (hback : ¬LinksBack h map key (chains ((map.hash key).toNat % n))) :
    ∃ chains', Buckets map.hash h' base n chains' ∧
      ((r = 1 ∧ PutEffect alloc map (content h n chains) h.freed key value true
          (content h' n chains') h'.freed) ∨
        (r ≤ 0 ∧ PutEffect alloc map (content h n chains) h.freed key value false
          (content h' n chains') h'.freed ∧
            (content h' n chains').card = (content h n chains).card)) := by
  have hi := B.index_lt (map.hash key)
  have hnew : (∀ a ∈ chains ((map.hash key).toNat % n), canReplace h map key a = false) →
      map.compare key key = true → ∀ e ∈ content h n chains, e.1 ≠ key := by
    rintro hstop hrefl ⟨_, w⟩ he rfl
    obtain ⟨a, ha, ho, hkey, -⟩ := B.mem_of_mem_content he
    have hmatch := canReplace_eq_true_iff.mpr ⟨ho, hkey, hrefl⟩
    rw [hstop a ha] at hmatch
    exact absurd hmatch (by simp)
  cases I with
  | @replace a ha hmatch =>
    obtain ⟨ho, hkey, hrefl⟩ := canReplace_eq_true_iff.mp hmatch
    have R : Rewritten h ({ h with freed := h.freed ++ replaceFrees map (h.cell a) }.store a key
        value) a ⟨key, value, (h.cell a).next, true⟩ := ⟨rfl, rfl, rfl⟩
    obtain ⟨d₀, hd₀, hd'⟩ := B.exchange R hi ha ho
    rw [if_pos rfl, Multiset.singleton_add] at hd'
    rw [hkey] at hd₀
    refine ⟨chains, R.buckets B hi ha (fun _ ↦ rfl) (by simp), Or.inr ⟨le_rfl, ?_, ?_⟩⟩
    · rw [hd']
      exact PutEffect.replaced hkey hd₀ hrefl
    · rw [hd', hd₀, Multiset.card_cons, Multiset.card_cons]
  | @reuse front z hl hstop hz =>
    have I : Inserted map h (h.store z key value) base n chains chains key value :=
      inserted_of_reuse B hi rfl (by rw [hl]; simp) hz
    refine ⟨chains, I.buckets, Or.inl ⟨rfl, ?_⟩⟩
    rw [I.content]
    exact PutEffect.inserted (hnew hstop)
  | @append front z hl hstop hocc =>
    have I : Inserted map h (h.append key value z) base n chains _ key value :=
      inserted_of_append B hi rfl hl hocc
    refine ⟨_, I.buckets, Or.inl ⟨rfl, ?_⟩⟩
    rw [I.content, I.freed]
    exact PutEffect.inserted (hnew hstop)
  | noMemory _ _ hfail =>
    exact ⟨chains, B.congr le_rfl fun _ _ _ _ ↦ rfl, Or.inr ⟨by decide,
      PutEffect.refused _ (Or.inl ⟨_, hfail⟩), rfl⟩⟩
  | relink hl hstop hz ht hocc => exact absurd ⟨hstop, _, _, hl, hz, _, ht, hocc⟩ hback

/-- A call has left the functions of a map alone. -/
structure SameFunctions (map map' : NcHashmap K V) : Prop where
  hash : map'.hash = map.hash
  compare : map'.compare = map.compare
  keyFree : map'.keyFree = map.keyFree
  valueFree : map'.valueFree = map.valueFree

omit [Zero K] [Zero V] [DecidableEq K] in
theorem PutEffect.congr_map {map₁ : NcHashmap K V} (hsame : SameFunctions map map₁) {ok : Bool}
    {freed freed' : List (K ⊕ V)} (E : PutEffect alloc map₁ d freed key value ok d' freed') :
    PutEffect alloc map d freed key value ok d' freed' := by
  cases E with
  | inserted hnew => exact PutEffect.inserted (hsame.compare ▸ hnew)
  | @replaced e d₀ hkey hd hrefl =>
    have hfrees : replaceFrees map₁ e = replaceFrees map e := by
      rw [replaceFrees, replaceFrees, hsame.keyFree, hsame.valueFree]
    rw [hfrees]
    exact PutEffect.replaced hkey hd (hsame.compare ▸ hrefl)
  | refused freed' hwhy => exact PutEffect.refused _ hwhy

/-- **A put** that links no cell back. -/
theorem TableOf.put (alloc : ℕ → Bool) (value : V) (hs : TableOf s d)
    (hforward : ncHashmapMaybeResize s.2 = true ∨
      ∀ l, Chain s.1.next
        (some (s.2.buckets + (ncHashmapGetHash s.2 key).toNat % s.2.nBuckets)) l →
          ¬LinksBack s.1 s.2 key l) :
    ∃ ok s' d', ncHashmapPut alloc s.1 s.2 key value = some (ok, s') ∧ TableOf s' d' ∧
      PutEffect alloc s.2 d s.1.freed key value ok d' s'.1.freed ∧ SameFunctions s.2 s'.2 ∧
      (s.2.size = d.card → s'.2.size = d'.card) := by
  obtain ⟨h, map⟩ := s
  obtain ⟨chains, B, rfl⟩ := hs
  -- the table that the key is inserted into
  have hgrow : ∃ ok h₁ map₁ chains₁, (if ncHashmapMaybeResize map then ncHashmapResize alloc h map
        else some (true, h, map)) = some (ok, h₁, map₁) ∧ SameFunctions map map₁ ∧
      Buckets map₁.hash h₁ map₁.buckets map₁.nBuckets chains₁ ∧
      content h₁ map₁.nBuckets chains₁ = content h map.nBuckets chains ∧
      (map.size = (content h map.nBuckets chains).card →
        map₁.size = (content h map.nBuckets chains).card) ∧
      (ok = true → h₁.freed = h.freed ∧
        ¬LinksBack h₁ map₁ key (chains₁ ((map₁.hash key).toNat % map₁.nBuckets))) ∧
      (ok = false → (∃ k, alloc k = false) ∨
        ¬((content h map.nBuckets chains).map Prod.fst).Nodup) := by
    by_cases hm : ncHashmapMaybeResize map = true
    · rw [if_pos hm]
      obtain ⟨ok, h₁, map₁, hrun, hhash, hcmp, htable⟩ := ncHashmapResize_table alloc B
      obtain ⟨hkf, hvf, hfreed⟩ := ncHashmapResize_freed hrun
      have hsame : SameFunctions map map₁ := ⟨hhash, hcmp, hkf, hvf⟩
      rcases htable with ⟨rfl, hsize, chains₁, B₁, hT, hd₁⟩ | ⟨rfl, rfl, hbrk, hcells, hwhy⟩
      · exact ⟨true, h₁, map₁, chains₁, hrun, hsame, B₁, hd₁, fun _ ↦ hsize,
          fun _ ↦ ⟨hfreed rfl, hT.not_linksBack (B₁.index_lt _)⟩, by simp⟩
      · have hcell : ∀ i < map₁.nBuckets, ∀ a ∈ chains i, h₁.cell a = h.cell a :=
          fun i hi a ha ↦ hcells a (B.bound i hi a ha).2
        exact ⟨false, h₁, map₁, chains, hrun, hsame, B.congr hbrk hcell,
          Buckets.content_congr hcell, id, by simp, fun _ ↦ hwhy⟩
    · rw [if_neg hm]
      have hi := B.index_lt (map.hash key)
      exact ⟨true, h, map, chains, rfl, ⟨rfl, rfl, rfl, rfl⟩, B, rfl, id,
        fun _ ↦ ⟨rfl, hforward.resolve_left hm _ (B.chain _ hi)⟩, by simp⟩
  obtain ⟨ok, h₁, map₁, chains₁, hrun₁, hsame, B₁, hd₁, hsize, hok, hwhy⟩ := hgrow
  rw [ncHashmapPut]
  simp only [hrun₁]
  cases ok with
  | false =>
    exact ⟨false, _, _, rfl, ⟨chains₁, B₁, hd₁⟩, PutEffect.refused _ (hwhy rfl), hsame, hsize⟩
  | true =>
    obtain ⟨hfreed, hback⟩ := hok rfl
    obtain ⟨r, h', hrun, I⟩ := insertBucket_insertion alloc key value B₁
    obtain ⟨chains', B', heffect⟩ := I.effect B₁ hback
    simp only [ncHashmapGetHash, hrun]
    rw [hd₁, hfreed] at heffect
    rcases heffect with ⟨rfl, E⟩ | ⟨hr, E, hcard⟩
    · refine ⟨true, (h', { map₁ with size := map₁.size + 1 }), _, if_pos Int.zero_lt_one,
        ⟨chains', B', rfl⟩, E.congr_map hsame, ⟨hsame.hash, hsame.compare, hsame.keyFree,
          hsame.valueFree⟩, fun h ↦ ?_⟩
      generalize content h' map₁.nBuckets chains' = d' at E
      generalize h'.freed = freed' at E
      cases E with
      | inserted => simp [hsize h]
    · exact ⟨false, (h', map₁), _, if_neg (not_lt.mpr hr), ⟨chains', B', rfl⟩,
        E.congr_map hsame, hsame, fun h ↦ (hsize h).trans (by rw [hcard])⟩

end Puts

/-! ## Removals -/

section Removals

variable [Zero K] [Zero V] {h : Heap K V} {map : NcHashmap K V} {s : Heap K V × NcHashmap K V}
  {d : Multiset (K × V)}

theorem Heap.clear_rewritten (h : Heap K V) (row : ℕ) :
    Rewritten h (h.clear row) row ⟨0, 0, (h.cell row).next, false⟩ := ⟨rfl, rfl, rfl⟩

theorem Buckets.getEntry {chains : ℕ → List ℕ}
    (B : Buckets map.hash h map.buckets map.nBuckets chains) (key : K) :
    ncHashmapGetEntry h map key = some ((chains ((map.hash key).toNat % map.nBuckets)).find?
      fun row ↦ map.compare (h.cell row).hash key) := by
  have hi := B.index_lt (map.hash key)
  rw [ncHashmapGetEntry, ncHashmapGetHash, scan_eq_scanList (B.chain _ hi) (B.length_lt hi),
    Option.map_some, scanList_fst]

/-- What a removal or a steal does, given what `nc_hashmap_get_entry` has returned. -/
inductive RemoveEffect (s : Heap K V × NcHashmap K V) (d : Multiset (K × V)) (remove : Bool) :
    Option ℕ → Bool → Heap K V × NcHashmap K V → Multiset (K × V) → Prop
  | absent : RemoveEffect s d remove none false s d
  | removed {row : ℕ} {s' : Heap K V × NcHashmap K V} {d' : Multiset (K × V)}
    (hocc : (s.1.cell row).occ = true) (hd : d = ((s.1.cell row).hash, (s.1.cell row).value) ::ₘ d')
    (hfreed : s'.1.freed =
      if remove then s.1.freed ++ removeFrees s.2 (s.1.cell row) else s.1.freed)
    (hsize : s'.2.size = s.2.size - 1) : RemoveEffect s d remove (some row) true s' d'
  /-- The lookup has stopped at an unoccupied cell. -/
  | hidden {row : ℕ} {s' : Heap K V × NcHashmap K V}
    (hocc : (s.1.cell row).occ = false)
    (hzero : (s.1.cell row).hash = 0 ∧ (s.1.cell row).value = 0)
    (hfreed : s'.1.freed =
      if remove then s.1.freed ++ removeFrees s.2 (s.1.cell row) else s.1.freed)
    (hsize : s'.2.size = s.2.size - 1) : RemoveEffect s d remove (some row) true s' d

/-- **A removal or a steal.** -/
theorem TableOf.remove (hs : TableOf s d) (key : K) (remove : Bool) :
    ∃ row ok s' d', ncHashmapGetEntry s.1 s.2 key = some row ∧
      ncHashmapRemoveInternal s.1 s.2 key remove = some (ok, s') ∧ TableOf s' d' ∧
      RemoveEffect s d remove row ok s' d' ∧ SameFunctions s.2 s'.2 := by
  obtain ⟨chains, B, rfl⟩ := hs
  have hget := B.getEntry key
  cases hfind : (chains ((s.2.hash key).toNat % s.2.nBuckets)).find?
    fun row ↦ s.2.compare (s.1.cell row).hash key with
  | none =>
    rw [hfind] at hget
    refine ⟨none, false, s, _, hget, ?_, ⟨chains, B, rfl⟩, RemoveEffect.absent, rfl, rfl, rfl, rfl⟩
    rw [ncHashmapRemoveInternal, hget, Option.map_some]
  | some row =>
    rw [hfind] at hget
    have hi := B.index_lt (s.2.hash key)
    have hrow := List.mem_of_find?_eq_some hfind
    set log := if remove then s.1.freed ++ removeFrees s.2 (s.1.cell row) else s.1.freed with hlog
    set h' : Heap K V := { s.1 with freed := log }.clear row with hh'
    have R : Rewritten s.1 h' row ⟨0, 0, (s.1.cell row).next, false⟩ := ⟨rfl, rfl, rfl⟩
    have B' : Buckets s.2.hash h' s.2.buckets s.2.nBuckets chains :=
      R.buckets B hi hrow (by simp) fun _ ↦ ⟨rfl, rfl⟩
    have hrun : ncHashmapRemoveInternal s.1 s.2 key remove =
        some (true, h', { s.2 with size := s.2.size - 1 }) := by
      rw [ncHashmapRemoveInternal, hget, Option.map_some]
    refine ⟨some row, true, _, content h' s.2.nBuckets chains, hget, hrun, ⟨chains, B', rfl⟩, ?_,
      rfl, rfl, rfl, rfl⟩
    cases hocc : (s.1.cell row).occ with
    | true =>
      obtain ⟨d₀, hd₀, hd'⟩ := B.exchange R hi hrow hocc
      rw [if_neg Bool.false_ne_true, zero_add] at hd'
      rw [hd', hd₀]
      exact RemoveEffect.removed hocc rfl rfl rfl
    | false =>
      have hc := R.content B hi hrow
      rw [bindings_cons, bindings_cons, hocc, R.cell_self] at hc
      have hd' : content h' s.2.nBuckets chains = content s.1 s.2.nBuckets chains := by
        simpa using hc
      rw [hd']
      exact RemoveEffect.hidden hocc (B.blank _ hi row hrow hocc) rfl rfl

end Removals

end ClrDebugInfo
