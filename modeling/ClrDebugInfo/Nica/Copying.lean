import ClrDebugInfo.Nica.Effects
import ClrDebugInfo.Nica.Iterate

/-!
# How far a re-hash gets

`nc_hashmap_resize` inserts the entries of the old table into the new one, bucket by bucket and
along each chain, and gives up at the first insertion that fails. This file says what it has
inserted by then, and which allocations it has made: the first entry of a new bucket takes the
bucket itself, every other one a chain node.

Nothing is assumed of the old table but that its cells were there before the new one. Its chains may
run in circles; then a re-hash that comes to one does not return.
-/

namespace ClrDebugInfo

open LinkedChain

variable {K V : Type}

/-! ## Allocations -/

/-- The buckets that a list of bindings needs in an array of `n`. -/
def newBuckets (map : NcHashmap K V) (n : ℕ) (es : List (K × V)) : Finset ℕ :=
  (es.map fun e ↦ (map.hash e.1).toNat % n).toFinset

/-- The chain nodes that they need. -/
def chainNodes (map : NcHashmap K V) (n : ℕ) (es : List (K × V)) : ℕ :=
  es.length - (newBuckets map n es).card

/-- The bindings of a list of cells, in order. -/
def bindingList (h : Heap K V) (l : List ℕ) : List (K × V) :=
  (l.filter fun a ↦ (h.cell a).occ).map (binding h)

variable {map : NcHashmap K V} {base n : ℕ} {h₀ h h' : Heap K V} {es : List (K × V)} {e : K × V}

private theorem card_newBuckets_le (map : NcHashmap K V) (n : ℕ) (es : List (K × V)) :
    (newBuckets map n es).card ≤ es.length := by
  rw [newBuckets]
  exact (List.toFinset_card_le _).trans_eq (List.length_map _)

theorem chainNodes_concat (map : NcHashmap K V) (n : ℕ) (es : List (K × V)) (e : K × V) :
    chainNodes map n (es ++ [e]) = chainNodes map n es +
      if (map.hash e.1).toNat % n ∈ newBuckets map n es then 1 else 0 := by
  have hle := card_newBuckets_le map n es
  have hset : newBuckets map n (es ++ [e]) =
      insert ((map.hash e.1).toNat % n) (newBuckets map n es) := by
    ext i
    simp [newBuckets]
  rw [chainNodes, chainNodes, hset, List.length_append, List.length_singleton]
  by_cases hmem : (map.hash e.1).toNat % n ∈ newBuckets map n es
  · rw [Finset.insert_eq_of_mem hmem, if_pos hmem]
    omega
  · rw [Finset.card_insert_of_notMem hmem, if_neg hmem]
    omega

theorem chainNodes_le_append (map : NcHashmap K V) (n : ℕ) (es fs : List (K × V)) :
    chainNodes map n es ≤ chainNodes map n (es ++ fs) := by
  induction fs using List.reverseRecOn with
  | nil => rw [List.append_nil]
  | append_singleton fs e ih =>
    rw [← List.append_assoc, chainNodes_concat]
    omega

variable [Zero K] [Zero V] {chains : ℕ → List ℕ}

theorem Buckets.mem_newBuckets_iff (B : Buckets map.hash h base n chains)
    (hd : content h n chains = (es : Multiset (K × V))) {i : ℕ} (hi : i < n) :
    i ∈ newBuckets map n es ↔ ∃ a ∈ chains i, (h.cell a).occ = true := by
  simp only [newBuckets, List.mem_toFinset, List.mem_map]
  constructor
  · rintro ⟨e, he, rfl⟩
    rw [← Multiset.mem_coe, ← hd] at he
    obtain ⟨a, ha, ho, -⟩ := B.mem_of_mem_content he
    exact ⟨a, ha, ho⟩
  · rintro ⟨a, ha, ho⟩
    have he : binding h a ∈ content h n chains :=
      mem_content.mpr ⟨i, hi, mem_bindings.mpr ⟨a, ha, ho, rfl⟩⟩
    rw [hd, Multiset.mem_coe] at he
    exact ⟨_, he, B.placed i hi a ha ho⟩

/-! ## Insertions into the new table -/

/-- The bindings `es` have been inserted into a new table of `n` buckets at `base`, and nothing was
lost: the heap was `h₀` when the table was empty. -/
structure Copied (alloc : ℕ → Bool) (map : NcHashmap K V) (h₀ h : Heap K V) (base n : ℕ)
    (es : List (K × V)) : Prop where
  table : ∃ chains, Buckets map.hash h base n chains ∧ NoTomb h n chains ∧
    content h n chains = (es : Multiset (K × V))
  frame : ∀ a < base, h.cell a = h₀.cell a
  brk : h₀.brk ≤ h.brk
  freed : h.freed = h₀.freed
  callocs : h.callocs = h₀.callocs + chainNodes map n es
  lucky : ∀ j < chainNodes map n es, alloc (h₀.callocs + j) = true

/-- After the insertion of `es`, the one of `e` has failed. -/
inductive Refused (alloc : ℕ → Bool) (map : NcHashmap K V) (h₀ h' : Heap K V) (base n : ℕ)
    (es : List (K × V)) (e : K × V) : Prop
  /-- There is no memory for its chain node. -/
  | noMemory {h : Heap K V} (hcopied : Copied alloc map h₀ h base n es)
    (hfail : alloc h.callocs = false) (hused : (map.hash e.1).toNat % n ∈ newBuckets map n es)
    (heq : h' = h.afterFailure)
  /-- The pointer has been inserted before. -/
  | again {h : Heap K V} (hcopied : Copied alloc map h₀ h base n es)
    (hcallocs : h'.callocs = h.callocs) (htable : ∃ chains, Buckets map.hash h' base n chains)
    (hframe : ∀ a < base, h'.cell a = h₀.cell a) (hbrk : h₀.brk ≤ h'.brk)

variable [DecidableEq K] {alloc : ℕ → Bool}

/-- **One turn of the inner loop.** -/
theorem Copied.insert (C : Copied alloc map h₀ h base n es) (e : K × V) :
    ∃ r h', ncHashmapInsertBucket alloc h map base n (map.hash e.1) e.1 e.2 = some (r, h') ∧
      ((r = 1 ∧ Copied alloc map h₀ h' base n (es ++ [e])) ∨
        (r ≤ 0 ∧ Refused alloc map h₀ h' base n es e)) := by
  obtain ⟨chains, B, hT, hd⟩ := C.table
  obtain ⟨r, h', hrun, I⟩ := insertBucket_insertion alloc e.1 e.2 B
  have hi := B.index_lt (map.hash e.1)
  have hused := B.mem_newBuckets_iff hd hi
  have hcons : (e ::ₘ (es : Multiset (K × V))) =
      ((es ++ [e] : List (K × V)) : Multiset (K × V)) := by
    rw [Multiset.cons_coe]
    exact Multiset.coe_eq_coe.mpr (List.perm_append_singleton e es).symm
  refine ⟨r, h', hrun, ?_⟩
  cases I with
  | @replace a ha hmatch =>
    have R : Rewritten h ({ h with freed := h.freed ++ replaceFrees map (h.cell a) }.store a e.1
        e.2) a ⟨e.1, e.2, (h.cell a).next, true⟩ := ⟨rfl, rfl, rfl⟩
    refine Or.inr ⟨le_rfl, Refused.again C rfl
      ⟨chains, R.buckets B hi ha (fun _ ↦ rfl) (by simp)⟩ (fun b hb ↦ ?_) C.brk⟩
    have := (B.bound _ hi a ha).1
    rw [R.cell_of_ne (by omega), C.frame b hb]
  | @reuse front z hl _ hz =>
    have hmem : z ∈ chains ((map.hash e.1).toNat % n) := by
      rw [hl]
      simp
    have I : Inserted map h (h.store z e.1 e.2) base n chains chains e.1 e.2 :=
      inserted_of_reuse B hi rfl hmem hz
    -- the unoccupied cell is the bucket itself
    have hnew : (map.hash e.1).toNat % n ∉ newBuckets map n es := by
      rw [hused, hT _ hi z hmem hz]
      rintro ⟨a, ha, ho⟩
      rw [List.mem_singleton.mp ha, hz] at ho
      exact absurd ho (by simp)
    have hnodes : chainNodes map n (es ++ [e]) = chainNodes map n es := by
      rw [chainNodes_concat, if_neg hnew, add_zero]
    refine Or.inl ⟨rfl, ⟨chains, I.buckets, I.noTomb hT, ?_⟩, fun a ha ↦ ?_, C.brk.trans I.brk,
      I.freed.trans C.freed, ?_, ?_⟩
    · rw [I.content, hd, hcons]
    · rw [I.frame a ha, C.frame a ha]
    · rw [hnodes]
      exact C.callocs
    · rw [hnodes]
      exact C.lucky
  | @append front z hl _ hocc hok =>
    have I : Inserted map h (h.append e.1 e.2 z) base n chains _ e.1 e.2 :=
      inserted_of_append B hi rfl hl hocc
    have hold : (map.hash e.1).toNat % n ∈ newBuckets map n es := by
      rw [hused]
      exact ⟨z, by rw [hl]; simp, hocc z (by rw [hl]; simp)⟩
    have hnodes : chainNodes map n (es ++ [e]) = chainNodes map n es + 1 := by
      rw [chainNodes_concat, if_pos hold]
    refine Or.inl ⟨rfl, ⟨_, I.buckets, I.noTomb hT, ?_⟩, fun a ha ↦ ?_, C.brk.trans I.brk,
      I.freed.trans C.freed, ?_, fun j hj ↦ ?_⟩
    · rw [I.content, hd, hcons]
    · rw [I.frame a ha, C.frame a ha]
    · rw [hnodes, ← Nat.add_assoc, ← C.callocs]
      rfl
    · rw [hnodes, Nat.lt_succ_iff_lt_or_eq] at hj
      rcases hj with hj | rfl
      · exact C.lucky j hj
      · rwa [← C.callocs]
  | noMemory _ hocc hfail =>
    obtain ⟨t, ht⟩ := B.head_mem hi
    have hold : (map.hash e.1).toNat % n ∈ newBuckets map n es := by
      rw [hused]
      exact ⟨_, by rw [ht]; exact List.mem_cons_self, hocc _ (by rw [ht]; exact List.mem_cons_self)⟩
    exact Or.inr ⟨by decide, Refused.noMemory C hfail hold rfl⟩
  | relink hl hstop hz ht hocc =>
    exact absurd ⟨hstop, _, _, hl, hz, _, ht, hocc⟩ (hT.not_linksBack hi)

/-! ## The loops -/

omit [Zero K] [Zero V] [DecidableEq K] in
private theorem bindingList_cons (h : Heap K V) (a : ℕ) (l : List ℕ) : bindingList h (a :: l) =
    if (h.cell a).occ then binding h a :: bindingList h l else bindingList h l := by
  rw [bindingList, List.filter_cons]
  by_cases ho : (h.cell a).occ = true
  · rw [if_pos ho, if_pos ho, List.map_cons, bindingList]
  · rw [if_neg ho, if_neg ho, bindingList]

omit [Zero K] [Zero V] [DecidableEq K] in
private theorem bindingList_append (h : Heap K V) (l l' : List ℕ) :
    bindingList h (l ++ l') = bindingList h l ++ bindingList h l' := by
  rw [bindingList, bindingList, bindingList, List.filter_append, List.map_append]

omit [Zero K] [Zero V] [DecidableEq K] in
theorem bindingList_congr {l : List ℕ} (hcells : ∀ a ∈ l, h'.cell a = h.cell a) :
    bindingList h' l = bindingList h l := by
  rw [bindingList, bindingList, List.filter_congr fun a ha ↦ by rw [hcells a ha]]
  refine List.map_congr_left fun a ha ↦ ?_
  rw [binding, binding, hcells a (List.mem_of_mem_filter ha)]

/-- **The inner loop**, on an old chain from `p`. If it returns, it has followed the chain to its
end and inserted its entries, or it has stopped at an entry that it could not insert. -/
theorem Copied.inner (C : Copied alloc map h₀ h base n es) {fuel : ℕ} {p : Option ℕ}
    {items items' : ℤ} {ok : Bool}
    (hlow : ∀ l q, Follows h₀.next p l q → (∀ a ∈ l, a < base) ∧ ∀ a, q = some a → a < base)
    (hrun : resizeChain alloc map base n fuel p h items = some (ok, items', h')) :
    ∃ l q, Follows h₀.next p l q ∧
      ((ok = true ∧ q = none ∧ Copied alloc map h₀ h' base n (es ++ bindingList h₀ l) ∧
          items' = items + (bindingList h₀ l).length) ∨
        (ok = false ∧ ∃ a, q = some a ∧ (h₀.cell a).occ = true ∧
          Refused alloc map h₀ h' base n (es ++ bindingList h₀ l) (binding h₀ a))) := by
  induction fuel generalizing p h es items with
  | zero => cases hrun
  | succ fuel ih =>
    cases p with
    | none =>
      obtain ⟨rfl, rfl, rfl⟩ : true = ok ∧ items = items' ∧ h = h' := by
        simpa [resizeChain] using hrun
      refine ⟨[], none, rfl, Or.inl ⟨rfl, rfl, ?_, ?_⟩⟩
      · simpa [bindingList] using C
      · simp [bindingList]
    | some a =>
      have ha : a < base := (hlow [] (some a) rfl).2 a rfl
      have hcell : h.cell a = h₀.cell a := C.frame a ha
      have hlow' : ∀ l q, Follows h₀.next (h₀.next a) l q →
          (∀ b ∈ l, b < base) ∧ ∀ b, q = some b → b < base := by
        intro l q hf
        obtain ⟨hl, hq⟩ := hlow (a :: l) q ⟨rfl, hf⟩
        exact ⟨fun b hb ↦ hl b (List.mem_cons_of_mem a hb), hq⟩
      rw [resizeChain, hcell] at hrun
      by_cases ho : (h₀.cell a).occ = true
      · obtain ⟨r, h₁, hinsert, hcase⟩ := C.insert (binding h₀ a)
        rw [if_pos ho, ncHashmapGetHash] at hrun
        rw [binding] at hinsert
        simp only [hinsert] at hrun
        rcases hcase with ⟨rfl, C₁⟩ | ⟨hr, hrefused⟩
        · have hnext : h₁.next a = h₀.next a := by
            rw [Heap.next, Heap.next, C₁.frame a ha]
          rw [if_pos Int.zero_lt_one, hnext] at hrun
          obtain ⟨l, q, hf, hcase⟩ := ih C₁ hlow' hrun
          refine ⟨a :: l, q, ⟨rfl, hf⟩, ?_⟩
          rw [bindingList_cons, if_pos ho, List.append_cons]
          rcases hcase with ⟨hok, hq, C', hitems⟩ | hcase
          · refine Or.inl ⟨hok, hq, C', ?_⟩
            rw [hitems, List.length_cons]
            omega
          · exact Or.inr hcase
        · rw [if_neg (not_lt.mpr hr)] at hrun
          obtain ⟨rfl, -, rfl⟩ : false = ok ∧ items = items' ∧ h₁ = h' := by simpa using hrun
          refine ⟨[], some a, rfl, Or.inr ⟨rfl, a, rfl, ho, ?_⟩⟩
          simpa [bindingList] using hrefused
      · have hnext : h.next a = h₀.next a := by
          rw [Heap.next, Heap.next, hcell]
        rw [if_neg ho, hnext] at hrun
        obtain ⟨l, q, hf, hcase⟩ := ih C hlow' hrun
        refine ⟨a :: l, q, ⟨rfl, hf⟩, ?_⟩
        rw [bindingList_cons, if_neg ho]
        exact hcase

/-- **The outer loop.** If it returns, every old chain ends and its entries were inserted, or there
is an entry that could not be inserted after those before it. -/
theorem Copied.outer (C : Copied alloc map h₀ h base n es) {old : ℕ} {is : List ℕ}
    {items items' : ℤ} {ok : Bool}
    (hlow : ∀ i ∈ is, ∀ a, Leads h₀.next (old + i) a → a < base)
    (hrun : resizeChains alloc map base n (is.map (old + ·)) h items = some (ok, items', h')) :
    (ok = true ∧ (∀ i ∈ is, ∃ l, Chain h₀.next (some (old + i)) l) ∧
        ∀ chains : ℕ → List ℕ, (∀ i ∈ is, Chain h₀.next (some (old + i)) (chains i)) →
          Copied alloc map h₀ h' base n (es ++ bindingList h₀ (is.flatMap chains)) ∧
          items' = items + (bindingList h₀ (is.flatMap chains)).length) ∨
      (ok = false ∧ ∃ l a, (∀ b ∈ l ++ [a], ∃ i ∈ is, Leads h₀.next (old + i) b) ∧
        (h₀.cell a).occ = true ∧
        Refused alloc map h₀ h' base n (es ++ bindingList h₀ l) (binding h₀ a) ∧
        ∀ chains : ℕ → List ℕ, (∀ i ∈ is, Chain h₀.next (some (old + i)) (chains i)) →
          l ++ [a] <+: is.flatMap chains) := by
  induction is generalizing h es items with
  | nil =>
    obtain ⟨rfl, rfl, rfl⟩ : true = ok ∧ items = items' ∧ h = h' := by
      simpa [resizeChains] using hrun
    exact Or.inl ⟨rfl, by simp, fun _ _ ↦ by simpa [bindingList] using C⟩
  | cons i is ih =>
    have hlow₁ : ∀ l q, Follows h₀.next (some (old + i)) l q →
        (∀ a ∈ l, a < base) ∧ ∀ a, q = some a → a < base := by
      intro l q hf
      obtain ⟨hl, hq⟩ := hf.leads
      exact ⟨fun a ha ↦ hlow i List.mem_cons_self a (hl a ha),
        fun a ha ↦ hlow i List.mem_cons_self a (hq a ha)⟩
    rw [List.map_cons, resizeChains] at hrun
    cases hchain : resizeChain alloc map base n (h.brk + 1) (some (old + i)) h items with
    | none =>
      rw [hchain] at hrun
      exact absurd hrun (by simp)
    | some r =>
      obtain ⟨ok₁, items₁, h₁⟩ := r
      rw [hchain] at hrun
      obtain ⟨l, q, hf, hcase⟩ := C.inner hlow₁ hchain
      rcases hcase with ⟨rfl, rfl, C₁, rfl⟩ | ⟨rfl, a, rfl, ho, hrefused⟩
      · have hl : Chain h₀.next (some (old + i)) l := follows_none.mp hf
        rcases ih C₁ (fun j hj ↦ hlow j (List.mem_cons_of_mem i hj)) hrun with
          ⟨hok, hends, hall⟩ | ⟨hok, l', a, hfrom, ho, hrefused, hfirst⟩
        · refine Or.inl ⟨hok, fun j hj ↦ ?_, fun chains hchains ↦ ?_⟩
          · rcases List.mem_cons.mp hj with rfl | hj
            · exact ⟨l, hl⟩
            · exact hends j hj
          · obtain ⟨C', hitems⟩ := hall chains fun j hj ↦ hchains j (List.mem_cons_of_mem i hj)
            rw [List.flatMap_cons, (hchains i List.mem_cons_self).unique hl, bindingList_append,
              ← List.append_assoc]
            refine ⟨C', ?_⟩
            rw [hitems, List.length_append]
            push_cast
            omega
        · refine Or.inr ⟨hok, l ++ l', a, fun b hb ↦ ?_, ho, ?_, fun chains hchains ↦ ?_⟩
          · rw [List.append_assoc] at hb
            rcases List.mem_append.mp hb with hb | hb
            · exact ⟨i, List.mem_cons_self, hf.leads.1 b hb⟩
            · obtain ⟨j, hj, hlead⟩ := hfrom b hb
              exact ⟨j, List.mem_cons_of_mem i hj, hlead⟩
          · rwa [bindingList_append, ← List.append_assoc]
          · rw [List.flatMap_cons, (hchains i List.mem_cons_self).unique hl, List.append_assoc]
            exact (List.prefix_append_right_inj l).mpr
              (hfirst chains fun j hj ↦ hchains j (List.mem_cons_of_mem i hj))
      · obtain ⟨rfl, -, rfl⟩ : false = ok ∧ items₁ = items' ∧ h₁ = h' := by simpa using hrun
        refine Or.inr ⟨rfl, l, a, fun b hb ↦ ⟨i, List.mem_cons_self, ?_⟩, ho, hrefused,
          fun chains hchains ↦ ?_⟩
        · rcases List.mem_append.mp hb with hb | hb
          · exact hf.leads.1 b hb
          · exact hf.leads.2 b (by rw [List.mem_singleton.mp hb])
        · obtain ⟨r, hr, hrest⟩ := hf.exists_append (hchains i List.mem_cons_self)
          rw [List.flatMap_cons, hr, List.append_assoc]
          refine (List.prefix_append_right_inj l).mpr ?_
          cases r with
          | nil => exact absurd hrest (by simp)
          | cons b r =>
            obtain rfl := Option.some.inj hrest.1
            exact ⟨r ++ is.flatMap chains, rfl⟩

/-! ## The re-hash -/

/-- The cells of the map, whether its chains end or not, were allocated. -/
def CellsBelow (h : Heap K V) (map : NcHashmap K V) : Prop :=
  ∀ i < map.nBuckets, ∀ a, Leads h.next (map.buckets + i) a → a < h.brk

omit [Zero K] [Zero V] [DecidableEq K] in
theorem CellsBelow.leads_iff (hlow : CellsBelow h map) (hcells : ∀ a < h.brk, h'.cell a = h.cell a)
    {i : ℕ} (hi : i < map.nBuckets) (a : ℕ) :
    Leads h'.next (map.buckets + i) a ↔ Leads h.next (map.buckets + i) a :=
  leads_congr fun c hc ↦ congrArg NcHashmapEntry.next (hcells c (hlow i hi c hc))

omit [Zero K] [Zero V] [DecidableEq K] in
theorem CellsBelow.chain_iff (hlow : CellsBelow h map) (hcells : ∀ a < h.brk, h'.cell a = h.cell a)
    {i : ℕ} (hi : i < map.nBuckets) (l : List ℕ) :
    Chain h'.next (some (map.buckets + i)) l ↔ Chain h.next (some (map.buckets + i)) l := by
  have hnext : ∀ a, Leads h.next (map.buckets + i) a → h'.next a = h.next a :=
    fun a ha ↦ congrArg NcHashmapEntry.next (hcells a (hlow i hi a ha))
  constructor
  · refine fun hl ↦ hl.congr fun a ha ↦ (hnext a ?_).symm
    exact (hlow.leads_iff hcells hi a).mp ((follows_none.mpr hl).leads.1 a ha)
  · exact fun hl ↦ hl.congr fun a ha ↦ hnext a ((follows_none.mpr hl).leads.1 a ha)

/-- The bindings of the map in the order of its chains. -/
def entriesOf (h : Heap K V) (map : NcHashmap K V) (chains : ℕ → List ℕ) : List (K × V) :=
  bindingList h ((List.range map.nBuckets).flatMap chains)

/-- The chain nodes that the map needs after growing. -/
def growthNodes (h : Heap K V) (map : NcHashmap K V) (chains : ℕ → List ℕ) : ℕ :=
  chainNodes map (map.nBuckets * increaseFactor) (entriesOf h map chains)

/-- What `nc_hashmap_resize` does, if it returns. -/
inductive Resized (alloc : ℕ → Bool) (h : Heap K V) (map : NcHashmap K V) :
    Bool → Heap K V → NcHashmap K V → Prop
  | noArray (hfail : alloc h.callocs = false) : Resized alloc h map false h.afterFailure map
  | grown {h' : Heap K V} {map' : NcHashmap K V} {chains chains' : ℕ → List ℕ}
    (hok : alloc h.callocs = true)
    (hchains : ∀ i < map.nBuckets, Chain h.next (some (map.buckets + i)) (chains i))
    (hnodes : ∀ j < growthNodes h map chains, alloc (h.callocs + 1 + j) = true)
    (hcallocs : h'.callocs = h.callocs + 1 + growthNodes h map chains)
    (hsize : map'.size = (entriesOf h map chains).length)
    (htable : Buckets map'.hash h' map'.buckets map'.nBuckets chains')
    (hcontent : content h' map'.nBuckets chains' = (entriesOf h map chains : Multiset (K × V)))
    (hfreed : h'.freed = h.freed) : Resized alloc h map true h' map'
  /-- A chain node could not be allocated, and the new table was destroyed with its entries. -/
  | noNode {h' : Heap K V} {es : List (K × V)} {e : K × V} (hok : alloc h.callocs = true)
    (hfrom : ∀ f ∈ es, ∃ i < map.nBuckets, ∃ a, Leads h.next (map.buckets + i) a ∧
      (h.cell a).occ = true ∧ binding h a = f)
    (hfirst : ∀ chains : ℕ → List ℕ,
      (∀ i < map.nBuckets, Chain h.next (some (map.buckets + i)) (chains i)) →
        es ++ [e] <+: entriesOf h map chains)
    (hused : (map.hash e.1).toNat % (map.nBuckets * increaseFactor) ∈
      newBuckets map (map.nBuckets * increaseFactor) es)
    (hfail : alloc (h.callocs + 1 + chainNodes map (map.nBuckets * increaseFactor) es) = false)
    (hfreed : ∃ log, h'.freed = h.freed ++ log ∧ ∀ f ∈ es,
      (map.keyFree = true → Sum.inl f.1 ∈ log) ∧ (map.valueFree = true → Sum.inr f.2 ∈ log))
    (hcells : ∀ a < h.brk, h'.cell a = h.cell a) (hbrk : h.brk ≤ h'.brk) :
    Resized alloc h map false h' map
  /-- A pointer is stored twice. -/
  | again {h' : Heap K V} (hok : alloc h.callocs = true)
    (hlucky : ∀ k, h.callocs ≤ k → k < h'.callocs → alloc k = true)
    (hcells : ∀ a < h.brk, h'.cell a = h.cell a) (hbrk : h.brk ≤ h'.brk) :
    Resized alloc h map false h' map

omit [Zero K] [Zero V] [DecidableEq K] in
theorem lucky_of_nodes {c m : ℕ} (hok : alloc c = true)
    (hnodes : ∀ j < m, alloc (c + 1 + j) = true) :
    ∀ k, c ≤ k → k < c + 1 + m → alloc k = true := by
  intro k hlo hhi
  rcases Nat.eq_or_lt_of_le hlo with rfl | hlt
  · exact hok
  · have hk : c + 1 + (k - (c + 1)) = k := by omega
    exact hk ▸ hnodes (k - (c + 1)) (by omega)

omit [DecidableEq K] in
theorem Copied.nuke (C : Copied alloc map h₀ h base n es) :
    ∃ h' log, freeBuckets map true (bucketAddrs base n) h.afterFailure = some h' ∧
      h'.freed = h₀.freed ++ log ∧ ∀ f ∈ es,
        (map.keyFree = true → Sum.inl f.1 ∈ log) ∧ (map.valueFree = true → Sum.inr f.2 ∈ log) := by
  obtain ⟨chains, B, -, hd⟩ := C.table
  have B' : Buckets map.hash h.afterFailure base n chains := B.congr le_rfl fun _ _ _ _ ↦ rfl
  obtain ⟨h', hrun, -, hfreed⟩ := B'.freeBuckets_nuke map
    fun i (hi : i ∈ List.range n) ↦ List.mem_range.mp hi
  refine ⟨h', _, hrun, hfreed.trans (congrArg (· ++ _) C.freed), fun f hf ↦ ?_⟩
  rw [← Multiset.mem_coe, ← hd] at hf
  obtain ⟨a, ha, ho, hkey, hvalue⟩ := B.mem_of_mem_content hf
  have hmem : ∀ x ∈ nukeFrees map (h.afterFailure.cell a),
      x ∈ ((List.range n).flatMap chains).flatMap fun a ↦ nukeFrees map (h.afterFailure.cell a) :=
    fun x hx ↦ List.mem_flatMap.mpr ⟨a, List.mem_flatMap.mpr
      ⟨_, List.mem_range.mpr (B.index_lt _), ha⟩, hx⟩
  have hfrees : nukeFrees map (h.afterFailure.cell a) =
      (if map.keyFree then [Sum.inl f.1] else []) ++
        if map.valueFree then [Sum.inr f.2] else [] := by
    rw [← hkey, ← hvalue]
    exact if_pos ho
  rw [hfrees] at hmem
  exact ⟨fun hk ↦ hmem _ (by simp [hk]), fun hv ↦ hmem _ (by simp [hv])⟩

omit [DecidableEq K] in
theorem Copied.empty (hn : 0 < n) (hbrk : base + n ≤ h.brk)
    (hzero : ∀ a, base ≤ a → a < base + n → h.cell a = NcHashmapEntry.zero) :
    Copied alloc map h h base n [] := by
  have hnone : chainNodes map n [] = 0 := rfl
  refine ⟨⟨freshChains base, Buckets.fresh hn hbrk hzero⟩, fun _ _ ↦ rfl, le_rfl, rfl, ?_, ?_⟩
  · rw [hnone, Nat.add_zero]
  · rw [hnone]
    simp

section Rehash

variable {h₁ h₂ h₃ : Heap K V} {chains : ℕ → List ℕ}

omit [DecidableEq K] in
theorem Resized.of_copied (hok : alloc h.callocs = true) (hcallocs : h₁.callocs = h.callocs + 1)
    (hfreed : h₁.freed = h.freed)
    (hchains : ∀ i < map.nBuckets, Chain h.next (some (map.buckets + i)) (chains i))
    (C : Copied alloc map h₁ h₂ h.brk (map.nBuckets * increaseFactor) (entriesOf h map chains))
    (hfree : freeBuckets map false (bucketAddrs map.buckets map.nBuckets) h₂ = some h₃) :
    Resized alloc h map true h₃ (ncHashmapUpdateNextSize { map with
      nBuckets := map.nBuckets * increaseFactor
      size := (entriesOf h map chains).length
      buckets := h.brk }) := by
  obtain ⟨chains', B, -, hd⟩ := C.table
  obtain ⟨hcells₃, hbrk₃, hcallocs₃, hfreed₃⟩ := freeBuckets_keeps hfree
  have hkept : ∀ i < map.nBuckets * increaseFactor, ∀ a ∈ chains' i, h₃.cell a = h₂.cell a :=
    fun _ _ _ _ ↦ by rw [hcells₃]
  have hlucky := C.lucky
  have hcallocs₂ := C.callocs
  rw [hcallocs] at hlucky hcallocs₂
  exact Resized.grown hok hchains hlucky (hcallocs₃.trans hcallocs₂) rfl (B.congr hbrk₃.ge hkept)
    ((Buckets.content_congr hkept).trans hd) ((hfreed₃ rfl).trans (C.freed.trans hfreed))

omit [DecidableEq K] in
theorem Resized.of_refused (hok : alloc h.callocs = true)
    (hcells : ∀ a < h.brk, h₁.cell a = h.cell a) (hbrk : h.brk ≤ h₁.brk)
    (hcallocs : h₁.callocs = h.callocs + 1) (hfreed : h₁.freed = h.freed) {l : List ℕ} {a : ℕ}
    (hfrom : ∀ b ∈ l ++ [a], ∃ i < map.nBuckets, Leads h.next (map.buckets + i) b)
    (hocc : (h.cell a).occ = true)
    (hfirst : ∀ chains : ℕ → List ℕ,
      (∀ i < map.nBuckets, Chain h.next (some (map.buckets + i)) (chains i)) →
        l ++ [a] <+: (List.range map.nBuckets).flatMap chains)
    (hrefused : Refused alloc map h₁ h₂ h.brk (map.nBuckets * increaseFactor) (bindingList h l)
      (binding h a))
    (hfree : freeBuckets map true (bucketAddrs h.brk (map.nBuckets * increaseFactor)) h₂ =
      some h₃) : Resized alloc h map false h₃ map := by
  obtain ⟨hcells₃, hbrk₃, hcallocs₃, -⟩ := freeBuckets_keeps hfree
  have hkept : (∀ b < h.brk, h₂.cell b = h₁.cell b) → ∀ b < h.brk, h₃.cell b = h.cell b :=
    fun hframe b hb ↦ by rw [hcells₃, hframe b hb, hcells b hb]
  cases hrefused with
  | @noMemory h₀ hcopied hfail hused heq =>
    obtain ⟨h₄, log, hfree', hfreed₄, hlog⟩ := hcopied.nuke
    rw [← heq] at hfree'
    obtain rfl := Option.some.inj (hfree.symm.trans hfree')
    have hframe : ∀ b < h.brk, h₂.cell b = h₁.cell b := by
      rw [heq]
      exact hcopied.frame
    refine Resized.noNode (e := binding h a) hok (fun f hf ↦ ?_) (fun chains hchains ↦ ?_) hused ?_
      ⟨log, hfreed₄.trans (congrArg (· ++ log) hfreed), hlog⟩ (hkept hframe) ?_
    · obtain ⟨b, hb, rfl⟩ := List.mem_map.mp hf
      obtain ⟨hb, hocc⟩ := List.mem_filter.mp hb
      obtain ⟨i, hi, hlead⟩ := hfrom b (List.mem_append_left _ hb)
      exact ⟨i, hi, b, hlead, hocc, rfl⟩
    · have hlast : bindingList h (l ++ [a]) = bindingList h l ++ [binding h a] := by
        rw [bindingList_append, bindingList_cons, if_pos hocc]
        rfl
      rw [← hlast]
      exact ((hfirst chains hchains).filter _).map _
    · rw [← hcallocs, ← hfail, hcopied.callocs]
    · rw [hbrk₃, heq]
      exact hbrk.trans hcopied.brk
  | @again h₀ hcopied hcallocs₂ htable hframe hbrk₂ =>
    refine Resized.again hok ?_ (hkept hframe) ?_
    · rw [hcallocs₃, hcallocs₂, hcopied.callocs, hcallocs]
      have hlucky := hcopied.lucky
      rw [hcallocs] at hlucky
      exact lucky_of_nodes hok hlucky
    · rw [hbrk₃]
      exact hbrk.trans hbrk₂

end Rehash

/-- **The re-hash.** -/
theorem ncHashmapResize_resized (hpos : 0 < map.nBuckets) (hlow : CellsBelow h map) {ok : Bool}
    {map' : NcHashmap K V} (hrun : ncHashmapResize alloc h map = some (ok, h', map')) :
    Resized alloc h map ok h' map' := by
  set newSize := map.nBuckets * increaseFactor with hnew
  cases hok : alloc h.callocs with
  | false =>
    rw [ncHashmapResize, Heap.calloc_of_failure hok] at hrun
    obtain ⟨rfl, rfl, rfl⟩ : false = ok ∧ h.afterFailure = h' ∧ map = map' := by
      simpa using hrun
    exact Resized.noArray hok
  | true =>
    rw [ncHashmapResize, Heap.calloc_eq hok, ← hnew] at hrun
    set h₁ : Heap K V := { h with
      cell := fun a ↦ if h.brk ≤ a ∧ a < h.brk + newSize then NcHashmapEntry.zero else h.cell a
      brk := h.brk + newSize
      callocs := h.callocs + 1 } with hh₁
    have hcells : ∀ a < h.brk, h₁.cell a = h.cell a := fun a ha ↦ if_neg (by omega)
    have hleads : ∀ a, (∃ i ∈ List.range map.nBuckets, Leads h₁.next (map.buckets + i) a) →
        ∃ i < map.nBuckets, Leads h.next (map.buckets + i) a := by
      rintro a ⟨i, hi, hlead⟩
      rw [List.mem_range] at hi
      exact ⟨i, hi, (hlow.leads_iff hcells hi a).mp hlead⟩
    have hbinding : ∀ l : List ℕ, (∀ a ∈ l, ∃ i < map.nBuckets,
        Leads h.next (map.buckets + i) a) → bindingList h₁ l = bindingList h l :=
      fun l hl ↦ bindingList_congr fun a ha ↦ by
        obtain ⟨i, hi, hlead⟩ := hl a ha
        exact hcells a (hlow i hi a hlead)
    have C₁ : Copied alloc map h₁ h₁ h.brk newSize [] :=
      Copied.empty (Nat.mul_pos hpos (by decide)) le_rfl fun a hlo hhi ↦ if_pos ⟨hlo, hhi⟩
    have hbrk : h.brk ≤ h₁.brk := Nat.le_add_right _ _
    have hcallocs : h₁.callocs = h.callocs + 1 := rfl
    have hfreed : h₁.freed = h.freed := rfl
    simp only [bucketAddrs] at hrun
    cases hmove : resizeChains alloc map h.brk newSize
      ((List.range map.nBuckets).map (map.buckets + ·)) h₁ 0 with
    | none =>
      rw [hmove] at hrun
      exact absurd hrun (by simp)
    | some r =>
      obtain ⟨ok₂, items, h₂⟩ := r
      rw [hmove] at hrun
      have hcases := C₁.outer (fun i hi a ha ↦ by
        rw [List.mem_range] at hi
        exact hlow i hi a ((hlow.leads_iff hcells hi a).mp ha)) hmove
      simp only [List.nil_append, zero_add] at hcases
      rcases hcases with ⟨rfl, hends, hall⟩ | ⟨rfl, l, a, hfrom, ho, hrefused, hfirst⟩
      · choose! chains hchains using hends
        obtain ⟨C₂, hitems⟩ := hall chains hchains
        have hold : ∀ i < map.nBuckets, Chain h.next (some (map.buckets + i)) (chains i) :=
          fun i hi ↦ (hlow.chain_iff hcells hi _).mp (hchains i (List.mem_range.mpr hi))
        have hentries : bindingList h₁ ((List.range map.nBuckets).flatMap chains) =
            entriesOf h map chains := by
          refine hbinding _ fun a ha ↦ ?_
          obtain ⟨i, hi, ha⟩ := List.mem_flatMap.mp ha
          rw [List.mem_range] at hi
          exact ⟨i, hi, (follows_none.mpr (hold i hi)).leads.1 a ha⟩
        rw [hentries] at C₂ hitems
        obtain ⟨h₃, hfree, heq⟩ := Option.map_eq_some_iff.mp hrun
        obtain ⟨rfl, rfl, rfl⟩ := by simpa only [Prod.mk.injEq] using heq
        rw [hitems]
        exact Resized.of_copied hok hcallocs hfreed hold C₂ hfree
      · obtain ⟨h₃, hfree, heq⟩ := Option.map_eq_some_iff.mp hrun
        obtain ⟨rfl, rfl, rfl⟩ := by simpa only [Prod.mk.injEq] using heq
        have hfrom' : ∀ b ∈ l ++ [a], ∃ i < map.nBuckets, Leads h.next (map.buckets + i) b :=
          fun b hb ↦ hleads b (hfrom b hb)
        obtain ⟨i, hi, hlead⟩ := hfrom' a (by simp)
        have ha : h₁.cell a = h.cell a := hcells a (hlow i hi a hlead)
        rw [hbinding l fun b hb ↦ hfrom' b (List.mem_append_left _ hb), binding, ha, ← binding]
          at hrefused
        rw [ha] at ho
        refine Resized.of_refused hok hcells hbrk hcallocs hfreed hfrom' ho
          (fun chains hchains ↦ ?_) hrefused hfree
        exact hfirst chains fun i hi ↦
          (hlow.chain_iff hcells (List.mem_range.mp hi) _).mpr (hchains i (List.mem_range.mp hi))

end ClrDebugInfo
