import Mathlib.Algebra.BigOperators.Group.Finset.Basic
import Mathlib.Algebra.Order.BigOperators.Group.Finset
import Mathlib.Tactic.Abel
import Mathlib.Tactic.Push
import ClrDebugInfo.Nica.Hashmap

/-!
# Bucket arrays as tables

The representation of a table by a bucket array: every bucket heads a chain that ends, the chains
share no cell, and an occupied cell stands in the chain of its hash. `Buckets` says this of an
array at `base` with `n` buckets, with the chains as lists of cells; the bindings of the table are
then a multiset (`content`), and an insertion is the addition of one element to it.

A table that only grew has a second property, `NoTomb`: the one unoccupied cell of a chain is the
bucket of an empty chain. It is what keeps `nc_hashmap_insert_bucket` from linking a cell that is
already on the chain.
-/

namespace ClrDebugInfo

open LinkedChain

variable {K V : Type}

/-! ## Bindings -/

/-- The bindings held by a list of cells. -/
def bindings (h : Heap K V) (l : List ℕ) : Multiset (K × V) :=
  ((l.filter fun a ↦ (h.cell a).occ).map fun a ↦ ((h.cell a).hash, (h.cell a).value) : List (K × V))

@[simp] theorem bindings_nil (h : Heap K V) : bindings h [] = 0 := rfl

theorem bindings_cons (h : Heap K V) (a : ℕ) (l : List ℕ) :
    bindings h (a :: l)
      = (if (h.cell a).occ then {((h.cell a).hash, (h.cell a).value)} else 0) + bindings h l := by
  rw [bindings, List.filter_cons]
  by_cases ho : (h.cell a).occ = true
  · rw [if_pos ho, if_pos ho, List.map_cons, ← Multiset.cons_coe, Multiset.singleton_add, bindings]
  · rw [if_neg ho, if_neg ho, zero_add, bindings]

private theorem bindings_append (h : Heap K V) (l₁ l₂ : List ℕ) :
    bindings h (l₁ ++ l₂) = bindings h l₁ + bindings h l₂ := by
  rw [bindings, bindings, bindings, List.filter_append, List.map_append, ← Multiset.coe_add]

private theorem bindings_congr {h h' : Heap K V} {l : List ℕ}
    (hsame : ∀ a ∈ l, h'.cell a = h.cell a) : bindings h' l = bindings h l := by
  rw [bindings, bindings, List.filter_congr fun a ha ↦ by rw [hsame a ha]]
  congr 1
  refine List.map_congr_left fun a ha ↦ ?_
  rw [hsame a (List.mem_of_mem_filter ha)]

theorem mem_bindings {h : Heap K V} {l : List ℕ} {e : K × V} :
    e ∈ bindings h l
      ↔ ∃ a ∈ l, (h.cell a).occ = true ∧ ((h.cell a).hash, (h.cell a).value) = e := by
  rw [bindings, Multiset.mem_coe, List.mem_map]
  simp only [List.mem_filter, and_assoc]

/-! ## Representation -/

/-- The array of `n` buckets at `base` heads the chains `chains 0`, …, `chains (n - 1)`, and every
key stands in the chain of its hash. -/
structure Buckets (hash : K → UInt32) [Zero K] [Zero V] (h : Heap K V) (base n : ℕ)
    (chains : ℕ → List ℕ) : Prop where
  pos : 0 < n
  /-- Following a bucket ends. -/
  chain : ∀ i < n, Chain h.next (some (base + i)) (chains i)
  /-- The cells belong to this array or were allocated after it. -/
  bound : ∀ i < n, ∀ a ∈ chains i, base ≤ a ∧ a < h.brk
  disjoint : ∀ i < n, ∀ j < n, i ≠ j → (chains i).Disjoint (chains j)
  /-- An occupied cell is where lookup will search for its key. -/
  placed : ∀ i < n, ∀ a ∈ chains i,
    (h.cell a).occ = true → (hash (h.cell a).hash).toNat % n = i
  /-- An unoccupied cell holds no key and no value. -/
  blank : ∀ i < n, ∀ a ∈ chains i, (h.cell a).occ = false →
    (h.cell a).hash = 0 ∧ (h.cell a).value = 0

/-- The bindings of a bucket array. -/
def content (h : Heap K V) (n : ℕ) (chains : ℕ → List ℕ) : Multiset (K × V) :=
  ∑ i ∈ Finset.range n, bindings h (chains i)

/-- No chain has an unoccupied cell behind or before another cell. -/
def NoTomb (h : Heap K V) (n : ℕ) (chains : ℕ → List ℕ) : Prop :=
  ∀ i < n, ∀ a ∈ chains i, (h.cell a).occ = false → chains i = [a]

theorem mem_content {h : Heap K V} {n : ℕ} {chains : ℕ → List ℕ} {e : K × V} :
    e ∈ content h n chains ↔ ∃ i < n, e ∈ bindings h (chains i) := by
  rw [content, Multiset.mem_sum]
  simp only [Finset.mem_range]

namespace Buckets

variable [Zero K] [Zero V] {hash : K → UInt32} {h h' : Heap K V} {base n i : ℕ}
  {chains : ℕ → List ℕ} {l : List ℕ}

theorem head_mem (B : Buckets hash h base n chains) (hi : i < n) :
    ∃ t, chains i = (base + i) :: t := by
  have hc := B.chain i hi
  cases hl : chains i with
  | nil => rw [hl] at hc; simp at hc
  | cons a t =>
    rw [hl] at hc
    exact ⟨t, by rw [Option.some.inj hc.1]⟩

theorem index_lt (B : Buckets hash h base n chains) (k : UInt32) : k.toNat % n < n :=
  Nat.mod_lt _ B.pos

/-- The bound of the loops over a chain is never reached. -/
theorem length_lt (B : Buckets hash h base n chains) (hi : i < n) :
    (chains i).length < h.brk + 1 :=
  Nat.lt_succ_of_le ((B.chain i hi).length_le fun a ha ↦ (B.bound i hi a ha).2)

/-- **Changing one chain.** If only cells of chain `i` and fresh cells were written, and `l` is a
chain for bucket `i` again, the array still represents a table. -/
theorem update (B : Buckets hash h base n chains) (hi : i < n)
    (hbrk : h.brk ≤ h'.brk)
    (hsame : ∀ a < h.brk, a ∉ chains i → h'.cell a = h.cell a)
    (hchain : Chain h'.next (some (base + i)) l)
    (hmem : ∀ a ∈ l, (a ∈ chains i ∨ h.brk ≤ a) ∧ a < h'.brk)
    (hplaced : ∀ a ∈ l, (h'.cell a).occ = true → (hash (h'.cell a).hash).toNat % n = i)
    (hblank : ∀ a ∈ l, (h'.cell a).occ = false → (h'.cell a).hash = 0 ∧ (h'.cell a).value = 0) :
    Buckets hash h' base n (Function.update chains i l) := by
  have hbase : base ≤ h.brk := by
    obtain ⟨t, ht⟩ := B.head_mem hi
    have := B.bound i hi (base + i) (by rw [ht]; exact List.mem_cons_self)
    omega
  have hother : ∀ j < n, j ≠ i → ∀ a ∈ chains j, h'.cell a = h.cell a := by
    intro j hj hji a ha
    exact hsame a (B.bound j hj a ha).2 fun hai ↦ B.disjoint j hj i hi hji ha hai
  -- the new chain takes cells of the old one or fresh ones, and no other chain has either
  have hfresh : ∀ j < n, j ≠ i → (chains j).Disjoint l := by
    intro j hj hji a haj hal
    rcases (hmem a hal).1 with hai | hlt
    · exact B.disjoint j hj i hi hji haj hai
    · exact absurd (B.bound j hj a haj).2 (by omega)
  refine ⟨B.pos, ?_, ?_, ?_, ?_, ?_⟩
  · intro j hj
    by_cases hji : j = i
    · subst hji
      rwa [Function.update_self]
    · rw [Function.update_of_ne hji]
      refine (B.chain j hj).congr fun a ha ↦ ?_
      rw [Heap.next, Heap.next, hother j hj hji a ha]
  · intro j hj a ha
    by_cases hji : j = i
    · subst hji
      rw [Function.update_self] at ha
      refine ⟨?_, (hmem a ha).2⟩
      rcases (hmem a ha).1 with hold | hlt
      · exact (B.bound j hj a hold).1
      · omega
    · rw [Function.update_of_ne hji] at ha
      have := B.bound j hj a ha
      omega
  · intro j hj k hk hjk
    by_cases hji : j = i
    · subst hji
      rw [Function.update_self, Function.update_of_ne (Ne.symm hjk)]
      exact (hfresh k hk (Ne.symm hjk)).symm
    · rw [Function.update_of_ne hji]
      by_cases hki : k = i
      · subst hki
        rw [Function.update_self]
        exact hfresh j hj hji
      · rw [Function.update_of_ne hki]
        exact B.disjoint j hj k hk hjk
  · intro j hj a ha
    by_cases hji : j = i
    · subst hji
      rw [Function.update_self] at ha
      exact hplaced a ha
    · rw [Function.update_of_ne hji] at ha
      rw [hother j hj hji a ha]
      exact B.placed j hj a ha
  · intro j hj a ha
    by_cases hji : j = i
    · subst hji
      rw [Function.update_self] at ha
      exact hblank a ha
    · rw [Function.update_of_ne hji] at ha
      rw [hother j hj hji a ha]
      exact B.blank j hj a ha

private theorem content_update (B : Buckets hash h base n chains) (hi : i < n)
    (hsame : ∀ a < h.brk, a ∉ chains i → h'.cell a = h.cell a) :
    content h' n (Function.update chains i l) + bindings h (chains i)
      = content h n chains + bindings h' l := by
  have hmem : i ∈ Finset.range n := Finset.mem_range.mpr hi
  have hrest : ∑ j ∈ (Finset.range n).erase i, bindings h' (Function.update chains i l j)
      = ∑ j ∈ (Finset.range n).erase i, bindings h (chains j) := by
    refine Finset.sum_congr rfl fun j hj ↦ ?_
    obtain ⟨hji, hjn⟩ := Finset.mem_erase.mp hj
    rw [Finset.mem_range] at hjn
    rw [Function.update_of_ne hji]
    exact bindings_congr fun a ha ↦ hsame a (B.bound j hjn a ha).2 fun hai ↦
      B.disjoint j hjn i hi hji ha hai
  rw [content, content, ← Finset.add_sum_erase _ _ hmem, ← Finset.add_sum_erase _ _ hmem,
    Function.update_self, hrest]
  abel

theorem congr (B : Buckets hash h base n chains) (hbrk : h.brk ≤ h'.brk)
    (hsame : ∀ i < n, ∀ a ∈ chains i, h'.cell a = h.cell a) :
    Buckets hash h' base n chains := by
  refine ⟨B.pos, fun i hi ↦ ?_, fun i hi a ha ↦ ?_, B.disjoint, fun i hi a ha ↦ ?_,
    fun i hi a ha ↦ ?_⟩
  · refine (B.chain i hi).congr fun a ha ↦ ?_
    rw [Heap.next, Heap.next, hsame i hi a ha]
  · have := B.bound i hi a ha
    omega
  · rw [hsame i hi a ha]
    exact B.placed i hi a ha
  · rw [hsame i hi a ha]
    exact B.blank i hi a ha

omit [Zero K] [Zero V] in
theorem content_congr (hsame : ∀ i < n, ∀ a ∈ chains i, h'.cell a = h.cell a) :
    content h' n chains = content h n chains :=
  Finset.sum_congr rfl fun i hi ↦ bindings_congr (hsame i (Finset.mem_range.mp hi))

end Buckets

/-! ## Writing one cell -/

/-- `h'` differs from `h` in one cell, and not in where that leads. -/
structure Rewritten (h h' : Heap K V) (a : ℕ) (e : NcHashmapEntry K V) : Prop where
  cell : h'.cell = Function.update h.cell a e
  next : e.next = (h.cell a).next
  brk : h'.brk = h.brk

namespace Rewritten

variable [Zero K] [Zero V] {hash : K → UInt32} {h h' : Heap K V} {base n i a : ℕ}
  {chains : ℕ → List ℕ} {e : NcHashmapEntry K V}

omit [Zero K] [Zero V] in
theorem cell_self (R : Rewritten h h' a e) : h'.cell a = e := by
  rw [R.cell, Function.update_self]

omit [Zero K] [Zero V] in
theorem cell_of_ne (R : Rewritten h h' a e) {b : ℕ} (hb : b ≠ a) : h'.cell b = h.cell b := by
  rw [R.cell, Function.update_of_ne hb]

omit [Zero K] [Zero V] in
theorem next_eq (R : Rewritten h h' a e) : h'.next = h.next := by
  funext b
  rw [Heap.next, Heap.next]
  by_cases hb : b = a
  · rw [hb, R.cell_self, R.next]
  · rw [R.cell_of_ne hb]

omit [Zero K] [Zero V] in
theorem bindings_self (R : Rewritten h h' a e) (he : e.occ = true) :
    bindings h' [a] = {(e.hash, e.value)} := by
  rw [bindings_cons, R.cell_self, if_pos he, bindings_nil, add_zero]

theorem buckets (R : Rewritten h h' a e) (B : Buckets hash h base n chains) (hi : i < n)
    (ha : a ∈ chains i) (hplaced : e.occ = true → (hash e.hash).toNat % n = i)
    (hblank : e.occ = false → e.hash = 0 ∧ e.value = 0) : Buckets hash h' base n chains := by
  have hB : Buckets hash h' base n (Function.update chains i (chains i)) := by
    refine B.update hi R.brk.ge (fun b _ hb ↦ R.cell_of_ne fun hc ↦ hb (hc ▸ ha)) ?_ ?_ ?_ ?_
    · rw [R.next_eq]
      exact B.chain i hi
    · intro b hb
      exact ⟨Or.inl hb, by rw [R.brk]; exact (B.bound i hi b hb).2⟩
    · intro b hb ho
      by_cases hba : b = a
      · rw [hba, R.cell_self] at ho ⊢
        exact hplaced ho
      · rw [R.cell_of_ne hba] at ho ⊢
        exact B.placed i hi b hb ho
    · intro b hb ho
      by_cases hba : b = a
      · rw [hba, R.cell_self] at ho ⊢
        exact hblank ho
      · rw [R.cell_of_ne hba] at ho ⊢
        exact B.blank i hi b hb ho
  rwa [Function.update_eq_self] at hB

theorem content (R : Rewritten h h' a e) (B : Buckets hash h base n chains) (hi : i < n)
    (ha : a ∈ chains i) :
    content h' n chains + bindings h [a] = content h n chains + bindings h' [a] := by
  have hc := B.content_update (l := chains i) hi fun b _ hb ↦
    R.cell_of_ne fun hc ↦ hb (hc ▸ ha)
  rw [Function.update_eq_self] at hc
  obtain ⟨l₁, l₂, hl⟩ := List.append_of_mem ha
  have hnodup := (B.chain i hi).nodup
  rw [hl, List.nodup_middle, List.nodup_cons, List.mem_append, not_or] at hnodup
  have hrest : ∀ l, a ∉ l → bindings h' l = bindings h l := fun l hal ↦
    bindings_congr fun b hb ↦ R.cell_of_ne fun hc ↦ hal (hc ▸ hb)
  have hsplit : ∀ g : Heap K V, bindings g (l₁ ++ a :: l₂) =
      bindings g [a] + (bindings g l₁ + bindings g l₂) := by
    intro g
    rw [← List.singleton_append, bindings_append, bindings_append]
    abel
  rw [hl, hsplit, hsplit, hrest l₁ hnodup.1.1, hrest l₂ hnodup.1.2] at hc
  refine add_right_cancel (b := bindings h l₁ + bindings h l₂) ?_
  rwa [add_assoc, add_assoc]

omit [Zero K] [Zero V] in
theorem noTomb (R : Rewritten h h' a e) (hT : NoTomb h n chains) (he : e.occ = true) :
    NoTomb h' n chains := by
  intro j hj b hb ho
  by_cases hba : b = a
  · rw [hba, R.cell_self, he] at ho
    exact absurd ho (by simp)
  · rw [R.cell_of_ne hba] at ho
    exact hT j hj b hb ho

end Rewritten

theorem Heap.store_rewritten (h : Heap K V) (row : ℕ) (key : K) (value : V) :
    Rewritten h (h.store row key value) row ⟨key, value, (h.cell row).next, true⟩ := ⟨rfl, rfl, rfl⟩

/-! ## A fresh array -/

section Fresh

variable [Zero K] [Zero V] {hash : K → UInt32} {h : Heap K V} {alloc : ℕ → Bool}

theorem Heap.calloc_eq (hok : alloc h.callocs = true) (n : ℕ) :
    h.calloc alloc n = (some h.brk, { h with
      cell := fun a ↦ if h.brk ≤ a ∧ a < h.brk + n then NcHashmapEntry.zero else h.cell a
      brk := h.brk + n
      callocs := h.callocs + 1 }) := by
  rw [Heap.calloc, if_pos hok]

/-- The chains of an array that has just been allocated: every bucket is a chain of its own. -/
def freshChains (base : ℕ) (i : ℕ) : List ℕ := [base + i]

theorem Buckets.fresh {base n : ℕ} (hn : 0 < n) (hbrk : base + n ≤ h.brk)
    (hzero : ∀ a, base ≤ a → a < base + n → h.cell a = NcHashmapEntry.zero) :
    Buckets hash h base n (freshChains base) ∧ NoTomb h n (freshChains base) ∧
      content h n (freshChains base) = 0 := by
  have hcell : ∀ i < n, h.cell (base + i) = NcHashmapEntry.zero := fun i hi ↦
    hzero (base + i) (by omega) (by omega)
  refine ⟨⟨hn, ?_, ?_, ?_, ?_, ?_⟩, ?_, ?_⟩
  · intro i hi
    refine ⟨rfl, ?_⟩
    rw [chain_nil, Heap.next, hcell i hi]
    rfl
  · intro i hi a ha
    rw [freshChains, List.mem_singleton] at ha
    omega
  · intro i _ j _ hij a ha hb
    rw [freshChains, List.mem_singleton] at ha hb
    omega
  · intro i hi a ha hocc
    rw [freshChains, List.mem_singleton] at ha
    rw [ha, hcell i hi] at hocc
    exact absurd hocc (by simp [NcHashmapEntry.zero])
  · intro i hi a ha _
    rw [freshChains, List.mem_singleton] at ha
    rw [ha, hcell i hi]
    exact ⟨rfl, rfl⟩
  · intro i _ a ha _
    rw [freshChains, List.mem_singleton] at ha
    rw [ha, freshChains]
  · refine Finset.sum_eq_zero fun i hi ↦ ?_
    rw [freshChains, bindings_cons, hcell i (Finset.mem_range.mp hi)]
    rfl

end Fresh

/-! ## Insertion -/

section Insert

variable {h : Heap K V} {map : NcHashmap K V} {base n : ℕ} {chains : ℕ → List ℕ} {key : K}
  {value : V}

/-- The state of the loop of `nc_hashmap_insert_bucket` after a chain: its last cell, and its last
unoccupied cell. -/
theorem foldl_visitRow_snoc (s : ℕ × Option ℕ) (l : List ℕ) (z : ℕ) :
    (l ++ [z]).foldl (visitRow h) s =
      (z, if (h.cell z).occ then (l.foldl (visitRow h) s).2 else some z) := by
  rw [List.foldl_concat, visitRow]

private theorem foldl_visitRow_snd_of_forall_occ (s : ℕ × Option ℕ) {l : List ℕ}
    (hocc : ∀ a ∈ l, (h.cell a).occ = true) : (l.foldl (visitRow h) s).2 = s.2 := by
  induction l generalizing s with
  | nil => rfl
  | cons a l ih =>
    rw [List.foldl_cons, ih _ fun b hb ↦ hocc b (List.mem_cons_of_mem a hb), visitRow,
      hocc a List.mem_cons_self]
    rfl

private theorem exists_foldl_visitRow_snd (s : ℕ × Option ℕ) {l : List ℕ}
    (hocc : ∃ a ∈ l, (h.cell a).occ = false) :
    ∃ a ∈ l, (h.cell a).occ = false ∧ (l.foldl (visitRow h) s).2 = some a := by
  induction l using List.reverseRecOn with
  | nil => exact absurd hocc (by simp)
  | append_singleton l z ih =>
    rw [foldl_visitRow_snoc]
    cases hz : (h.cell z).occ with
    | false => exact ⟨z, by simp, hz, rfl⟩
    | true =>
      have hl : ∃ a ∈ l, (h.cell a).occ = false := by
        obtain ⟨a, ha, ho⟩ := hocc
        rcases List.mem_append.mp ha with ha | ha
        · exact ⟨a, ha, ho⟩
        · rw [List.mem_singleton.mp ha, hz] at ho
          exact absurd ho (by simp)
      obtain ⟨a, ha, ho, hfold⟩ := ih hl
      exact ⟨a, List.mem_append_left _ ha, ho, hfold⟩

/-- The loop of `nc_hashmap_insert_bucket` stops early only at the very pointer it inserts. -/
theorem canReplace_eq_true_iff [DecidableEq K] {a : ℕ} :
    canReplace h map key a = true ↔
      (h.cell a).occ = true ∧ (h.cell a).hash = key ∧ map.compare key key = true := by
  rw [canReplace, Bool.and_eq_true, Bool.and_eq_true, decide_eq_true_eq, and_assoc]
  refine and_congr_right fun _ ↦ and_congr_right fun hkey ↦ ?_
  rw [hkey]

variable [Zero K] [Zero V]

/-- A `calloc` that fails changes nothing but the count of calls. -/
def Heap.afterFailure (h : Heap K V) : Heap K V := { h with callocs := h.callocs + 1 }

theorem Heap.calloc_of_failure {h : Heap K V} (hfail : alloc h.callocs = false) (n : ℕ) :
    h.calloc alloc n = (none, h.afterFailure) := by
  rw [Heap.calloc, if_neg (by simp [hfail]), Heap.afterFailure]

/-- The heap after a new cell was allocated, written, and linked behind `z`. -/
def Heap.append (h : Heap K V) (key : K) (value : V) (z : ℕ) : Heap K V :=
  (({ h with
    cell := fun a ↦ if h.brk ≤ a ∧ a < h.brk + 1 then NcHashmapEntry.zero else h.cell a
    brk := h.brk + 1
    callocs := h.callocs + 1 } : Heap K V).store h.brk key value).link z h.brk

/-- **What the end of an insertion can do**, whatever the walk has found. -/
theorem insertRow_cases {key : K} {value : V} {row tomb : Option ℕ} {parent : ℕ} {r : ℤ}
    {h' : Heap K V} (hrun : insertRow alloc h map key value (row, parent, tomb) = (r, h')) :
    (∃ a, row = some a ∧ r = 0 ∧
        h' = { h with freed := h.freed ++ replaceFrees map (h.cell a) }.store a key value) ∨
      (∃ t, tomb = some t ∧ r = 1 ∧ h' = if parent = t then h.store t key value
        else (h.store t key value).link parent t) ∨
      (alloc h.callocs = false ∧ r = -1 ∧ h' = h.afterFailure) ∨
      alloc h.callocs = true ∧ r = 1 ∧ h' = h.append key value parent := by
  match row, tomb with
  | some a, _ =>
    obtain ⟨rfl, rfl⟩ := Prod.mk.inj hrun
    exact Or.inl ⟨a, rfl, rfl, rfl⟩
  | none, some t =>
    obtain ⟨rfl, rfl⟩ := Prod.mk.inj hrun
    exact Or.inr (Or.inl ⟨t, rfl, rfl, rfl⟩)
  | none, none =>
    cases hok : alloc h.callocs with
    | false =>
      rw [insertRow, Heap.calloc_of_failure hok] at hrun
      obtain ⟨rfl, rfl⟩ := Prod.mk.inj hrun
      exact Or.inr (Or.inr (Or.inl ⟨rfl, rfl, rfl⟩))
    | true =>
      rw [insertRow, Heap.calloc_eq hok] at hrun
      obtain ⟨rfl, rfl⟩ := Prod.mk.inj hrun
      exact Or.inr (Or.inr (Or.inr ⟨rfl, rfl, rfl⟩))

/-- What `nc_hashmap_insert_bucket` does to a bucket whose chain is `l`, and what it returns. -/
inductive Insertion [DecidableEq K] (alloc : ℕ → Bool) (h : Heap K V) (map : NcHashmap K V)
    (key : K) (value : V) (l : List ℕ) : ℤ → Heap K V → Prop
  /-- The pointer is there. -/
  | replace {a : ℕ} (ha : a ∈ l) (hmatch : canReplace h map key a = true) :
    Insertion alloc h map key value l 0
      ({ h with freed := h.freed ++ replaceFrees map (h.cell a) }.store a key value)
  /-- The last cell is unoccupied. -/
  | reuse {front : List ℕ} {z : ℕ} (hl : l = front ++ [z])
    (hstop : ∀ a ∈ l, canReplace h map key a = false) (hz : (h.cell z).occ = false) :
    Insertion alloc h map key value l 1 (h.store z key value)
  | append {front : List ℕ} {z : ℕ} (hl : l = front ++ [z])
    (hstop : ∀ a ∈ l, canReplace h map key a = false)
    (hocc : ∀ a ∈ l, (h.cell a).occ = true) (hok : alloc h.callocs = true) :
    Insertion alloc h map key value l 1 (h.append key value z)
  | noMemory (hstop : ∀ a ∈ l, canReplace h map key a = false)
    (hocc : ∀ a ∈ l, (h.cell a).occ = true) (hfail : alloc h.callocs = false) :
    Insertion alloc h map key value l (-1) h.afterFailure
  /-- A cell before the last one is unoccupied, and is linked behind the last one. -/
  | relink {front : List ℕ} {z t : ℕ} (hl : l = front ++ [z])
    (hstop : ∀ a ∈ l, canReplace h map key a = false) (hz : (h.cell z).occ = true)
    (ht : t ∈ front) (hocc : (h.cell t).occ = false) :
    Insertion alloc h map key value l 1 ((h.store t key value).link z t)

theorem Buckets.exists_snoc {hash : K → UInt32} (B : Buckets hash h base n chains) {i : ℕ}
    (hi : i < n) : ∃ front z, chains i = front ++ [z] := by
  obtain ⟨t, ht⟩ := B.head_mem hi
  exact ⟨_, _, (List.dropLast_append_getLast (by rw [ht]; simp)).symm⟩

theorem insertBucket_insertion [DecidableEq K] (alloc : ℕ → Bool) (key : K) (value : V)
    (B : Buckets map.hash h base n chains) :
    ∃ r h', ncHashmapInsertBucket alloc h map base n (map.hash key) key value = some (r, h') ∧
      Insertion alloc h map key value (chains ((map.hash key).toNat % n)) r h' := by
  obtain ⟨i, hkey⟩ : ∃ i, (map.hash key).toNat % n = i := ⟨_, rfl⟩
  have hi : i < n := hkey ▸ B.index_lt _
  obtain ⟨front, z, hl⟩ := B.exists_snoc hi
  rw [ncHashmapInsertBucket, hkey, scan_eq_scanList (B.chain i hi) (B.length_lt hi),
    Option.map_some]
  refine ⟨_, _, rfl, ?_⟩
  by_cases hstop : ∀ a ∈ chains i, canReplace h map key a = false
  · rw [scanList_of_forall_not hstop, hl, foldl_visitRow_snoc, ← hl]
    cases hz : (h.cell z).occ with
    | false =>
      simp only [Bool.false_eq_true, if_false]
      exact Insertion.reuse hl hstop hz
    | true =>
      by_cases hocc : ∀ a ∈ front, (h.cell a).occ = true
      · have hall : ∀ a ∈ chains i, (h.cell a).occ = true := by
          intro a ha
          rw [hl] at ha
          rcases List.mem_append.mp ha with ha | ha
          · exact hocc a ha
          · rwa [List.mem_singleton.mp ha]
        simp only [if_true, foldl_visitRow_snd_of_forall_occ _ hocc]
        cases hok : alloc h.callocs with
        | false =>
          rw [Heap.calloc_of_failure hok]
          exact Insertion.noMemory hstop hall hok
        | true =>
          rw [Heap.calloc_eq hok]
          exact Insertion.append hl hstop hall hok
      · push Not at hocc
        obtain ⟨t, ht, ho, hfold⟩ := exists_foldl_visitRow_snd (base + i, none)
          (hocc.imp fun a ha ↦ ⟨ha.1, Bool.eq_false_iff.mpr ha.2⟩)
        have hne : z ≠ t := fun hc ↦ by
          rw [hc, ho] at hz
          exact absurd hz (by simp)
        simp only [if_true, hfold, if_neg hne]
        exact Insertion.relink hl hstop hz ht ho
  · push Not at hstop
    cases hscan : scanList (canReplace h map key) (visitRow h) (chains i) (base + i, none) with
    | mk row s =>
      have hfind := scanList_fst (canReplace h map key) (visitRow h) (chains i) (base + i, none)
      rw [hscan] at hfind
      cases row with
      | none =>
        obtain ⟨a, ha, hmatch⟩ := hstop
        exact absurd (List.find?_eq_none.mp hfind.symm a ha) (by simpa using hmatch)
      | some a =>
        exact Insertion.replace (List.mem_of_find?_eq_some hfind.symm)
          (List.find?_some hfind.symm)

/-- What an insertion of a new binding does to a table. -/
structure Inserted (map : NcHashmap K V) (h h' : Heap K V) (base n : ℕ)
    (chains chains' : ℕ → List ℕ) (key : K) (value : V) : Prop where
  buckets : Buckets map.hash h' base n chains'
  noTomb : NoTomb h n chains → NoTomb h' n chains'
  content : content h' n chains' = (key, value) ::ₘ content h n chains
  /-- Nothing outside the table was written. -/
  frame : ∀ a < base, h'.cell a = h.cell a
  brk : h.brk ≤ h'.brk
  freed : h'.freed = h.freed

theorem inserted_of_reuse (B : Buckets map.hash h base n chains) {i : ℕ} (hi : i < n)
    (hkey : (map.hash key).toNat % n = i) {z : ℕ} (hz : z ∈ chains i)
    (hocc : (h.cell z).occ = false) :
    Inserted map h (h.store z key value) base n chains chains key value := by
  have R := h.store_rewritten z key value
  refine ⟨R.buckets B hi hz (fun _ ↦ hkey) (by simp), fun hT ↦ R.noTomb hT rfl, ?_,
    fun a ha ↦ R.cell_of_ne ?_, R.brk.ge, rfl⟩
  · have hc := R.content B hi hz
    rw [bindings_cons, bindings_cons, hocc, R.cell_self] at hc
    simpa [add_comm (content h n chains)] using hc
  · have := (B.bound i hi z hz).1
    omega

theorem inserted_of_append (B : Buckets map.hash h base n chains) {i : ℕ} (hi : i < n)
    (hkey : (map.hash key).toNat % n = i) {l : List ℕ} {z : ℕ} (hl : chains i = l ++ [z])
    (hocc : ∀ a ∈ chains i, (h.cell a).occ = true) :
    Inserted map h (h.append key value z) base n chains
      (Function.update chains i (l ++ [z, h.brk])) key value := by
  set h₁ : Heap K V := { h with
    cell := fun a ↦ if h.brk ≤ a ∧ a < h.brk + 1 then NcHashmapEntry.zero else h.cell a
    brk := h.brk + 1
    callocs := h.callocs + 1 } with hh₁
  -- the new cell is written before it is linked, so its `next` is the null pointer of `calloc`
  set h' := h.append key value z with hh'
  rw [Heap.append, ← hh₁] at hh'
  have hz : z ∈ chains i := by rw [hl]; simp
  have hzlt : z < h.brk := (B.bound i hi z hz).2
  have hnew : h'.cell h.brk = ⟨key, value, none, true⟩ := by
    change Function.update (Function.update h₁.cell h.brk _) z _ h.brk = _
    rw [Function.update_of_ne (by omega), Function.update_self]
    rw [show h₁.cell h.brk = NcHashmapEntry.zero from if_pos ⟨le_rfl, by omega⟩]
    rfl
  have hold : ∀ a, a < h.brk → a ≠ z → h'.cell a = h.cell a := by
    intro a ha haz
    change Function.update (Function.update h₁.cell h.brk _) z _ a = _
    rw [Function.update_of_ne haz, Function.update_of_ne (by omega)]
    exact if_neg (by omega)
  have hlast : h'.cell z = ⟨(h.cell z).hash, (h.cell z).value, some h.brk, (h.cell z).occ⟩ := by
    have hcz : (h₁.store h.brk key value).cell z = h.cell z := by
      change Function.update h₁.cell h.brk _ z = _
      rw [Function.update_of_ne (by omega)]
      exact if_neg (by omega)
    change Function.update (h₁.store h.brk key value).cell z _ z = _
    rw [Function.update_self, hcz]
  have hsame : ∀ a < h.brk, a ∉ chains i → h'.cell a = h.cell a := by
    intro a ha hna
    exact hold a ha fun hc ↦ hna (hc ▸ hz)
  -- only the last cell of the chain was written, and it occurs once
  have hnodup := (B.chain i hi).nodup
  rw [hl] at hnodup
  have hlz : ∀ a ∈ l, a ≠ z := by
    intro a ha hc
    exact (List.nodup_append.mp hnodup).2.2 a ha z (List.mem_singleton.mpr rfl) hc
  have hlcell : ∀ a ∈ l, h'.cell a = h.cell a := by
    intro a ha
    exact hold a (B.bound i hi a (by rw [hl]; exact List.mem_append_left _ ha)).2 (hlz a ha)
  have hmem : ∀ a ∈ l ++ [z, h.brk], a ∈ chains i ∨ a = h.brk := by
    intro a ha
    rw [hl]
    simp only [List.mem_append, List.mem_cons, List.not_mem_nil, or_false] at ha ⊢
    tauto
  have hfield : ∀ a ∈ chains i, (h'.cell a).hash = (h.cell a).hash ∧ (h'.cell a).occ = true := by
    intro a ha
    by_cases haz : a = z
    · subst haz
      rw [hlast]
      exact ⟨rfl, hocc a ha⟩
    · rw [hold a (B.bound i hi a ha).2 haz]
      exact ⟨rfl, hocc a ha⟩
  have hoccs : ∀ a ∈ l ++ [z, h.brk], (h'.cell a).occ = true := by
    intro a ha
    rcases hmem a ha with hc | rfl
    · exact (hfield a hc).2
    · rw [hnew]
  have hB : Buckets map.hash h' base n (Function.update chains i (l ++ [z, h.brk])) := by
    apply B.update hi (Nat.le_succ _) hsame
    · refine Chain.snoc (hl ▸ B.chain i hi) (fun a ha ↦ ?_) ?_ ?_
      · rw [Heap.next, Heap.next, hlcell a ha]
      · rw [Heap.next, hlast]
      · rw [Heap.next, hnew]
    · intro a ha
      rcases hmem a ha with hc | rfl
      · exact ⟨Or.inl hc, Nat.lt_succ_of_lt (B.bound i hi a hc).2⟩
      · exact ⟨Or.inr le_rfl, Nat.lt_succ_self _⟩
    · intro a ha _
      rcases hmem a ha with hc | rfl
      · rw [(hfield a hc).1]
        exact B.placed i hi a hc (hocc a hc)
      · rw [hnew]
        exact hkey
    · intro a ha ho
      exact absurd ((hoccs a ha).symm.trans ho) (by simp)
  refine ⟨hB, fun hT ↦ ?_, ?_, ?_, Nat.le_succ _, rfl⟩
  · intro j hj a ha ho
    by_cases hji : j = i
    · subst hji
      rw [Function.update_self] at ha
      exact absurd ((hoccs a ha).symm.trans ho) (by simp)
    · rw [Function.update_of_ne hji] at ha ⊢
      rw [hsame a (B.bound j hj a ha).2 fun hc ↦ B.disjoint j hj i hi hji ha hc] at ho
      exact hT j hj a ha ho
  · have hc := B.content_update (l := l ++ [z, h.brk]) hi hsame
    have htail : bindings h' [z, h.brk] = (key, value) ::ₘ bindings h [z] := by
      rw [bindings_cons, bindings_cons, bindings_cons, hlast, hnew, bindings_nil, bindings_nil,
        if_pos rfl, add_zero, add_zero, add_comm, Multiset.singleton_add]
    have hbind : bindings h' (l ++ [z, h.brk]) = (key, value) ::ₘ bindings h (chains i) := by
      rw [hl, bindings_append, bindings_append, bindings_congr hlcell, htail, Multiset.add_cons]
    rw [hbind, Multiset.add_cons, ← Multiset.cons_add] at hc
    exact add_right_cancel hc
  · intro a ha
    have := (B.bound i hi z hz).1
    exact hold a (by omega) (by omega)

/-- The last cell is occupied and another is not, and the pointer is not there: the insertion would
link a cell of the chain behind its last one. -/
def LinksBack [DecidableEq K] (h : Heap K V) (map : NcHashmap K V) (key : K) (l : List ℕ) : Prop :=
  (∀ a ∈ l, canReplace h map key a = false) ∧
    ∃ front z, l = front ++ [z] ∧ (h.cell z).occ = true ∧ ∃ t ∈ front, (h.cell t).occ = false

omit [Zero K] [Zero V] in
/-- In a table that only grew, an unoccupied cell is alone on its chain. -/
theorem NoTomb.not_linksBack [DecidableEq K] (hT : NoTomb h n chains) {i : ℕ} (hi : i < n) :
    ¬LinksBack h map key (chains i) := by
  rintro ⟨-, front, z, hl, -, t, ht, hocc⟩
  have hsingle := hT i hi t (by rw [hl]; exact List.mem_append_left _ ht) hocc
  rw [hl] at hsingle
  have hlen := congrArg List.length hsingle
  have hpos := List.length_pos_of_mem ht
  simp only [List.length_append, List.length_cons, List.length_nil] at hlen
  omega

theorem Insertion.buckets [DecidableEq K] {alloc : ℕ → Bool} {r : ℤ} {h' : Heap K V}
    (B : Buckets map.hash h base n chains)
    (I : Insertion alloc h map key value (chains ((map.hash key).toNat % n)) r h')
    (hback : ¬LinksBack h map key (chains ((map.hash key).toNat % n))) :
    ∃ chains', Buckets map.hash h' base n chains' ∧ (NoTomb h n chains → NoTomb h' n chains') ∧
      (∀ a < base, h'.cell a = h.cell a) ∧ h.brk ≤ h'.brk := by
  have hi := B.index_lt (map.hash key)
  cases I with
  | @replace a ha hmatch =>
    have R : Rewritten h ({ h with freed := h.freed ++ replaceFrees map (h.cell a) }.store a key
        value) a ⟨key, value, (h.cell a).next, true⟩ := ⟨rfl, rfl, rfl⟩
    refine ⟨chains, R.buckets B hi ha (fun _ ↦ rfl) (by simp), fun hT ↦ R.noTomb hT rfl, ?_,
      R.brk.ge⟩
    intro b hb
    have := (B.bound _ hi a ha).1
    exact R.cell_of_ne (by omega)
  | @reuse front z hl _ hz =>
    have I : Inserted map h (h.store z key value) base n chains chains key value :=
      inserted_of_reuse B hi rfl (by rw [hl]; simp) hz
    exact ⟨chains, I.buckets, I.noTomb, I.frame, I.brk⟩
  | @append front z hl _ hocc =>
    have I : Inserted map h (h.append key value z) base n chains _ key value :=
      inserted_of_append B hi rfl hl hocc
    exact ⟨_, I.buckets, I.noTomb, I.frame, I.brk⟩
  | noMemory => exact ⟨chains, B.congr le_rfl fun _ _ _ _ ↦ rfl, id, fun _ _ ↦ rfl, le_rfl⟩
  | relink hl hstop hz ht hocc => exact absurd ⟨hstop, _, _, hl, hz, _, ht, hocc⟩ hback

/-- **Insertion.** On a table that only grew, `nc_hashmap_insert_bucket` of a key that is not in
the table as a pointer stores one new entry and reports it, or finds no memory for it. -/
theorem insertBucket_spec [DecidableEq K] (alloc : ℕ → Bool) (value : V)
    (B : Buckets map.hash h base n chains) (hT : NoTomb h n chains)
    (hnew : ∀ e ∈ content h n chains, e.1 ≠ key) :
    (∃ h' chains', ncHashmapInsertBucket alloc h map base n (map.hash key) key value
        = some (1, h') ∧ Inserted map h h' base n chains chains' key value) ∨
      (alloc h.callocs = false ∧
        ncHashmapInsertBucket alloc h map base n (map.hash key) key value
          = some (-1, h.afterFailure)) := by
  obtain ⟨r, h', hrun, I⟩ := insertBucket_insertion alloc key value B
  have hi := B.index_lt (map.hash key)
  cases I with
  | @replace a ha hmatch =>
    obtain ⟨ho, hc, -⟩ := canReplace_eq_true_iff.mp hmatch
    exact absurd hc (hnew ((h.cell a).hash, (h.cell a).value)
      (mem_content.mpr ⟨_, hi, mem_bindings.mpr ⟨a, ha, ho, rfl⟩⟩))
  | reuse hl _ hz =>
    exact Or.inl ⟨_, _, hrun, inserted_of_reuse B hi rfl (by rw [hl]; simp) hz⟩
  | append hl _ hocc => exact Or.inl ⟨_, _, hrun, inserted_of_append B hi rfl hl hocc⟩
  | noMemory _ _ hfail => exact Or.inr ⟨hfail, hrun⟩
  | relink hl hstop hz ht hocc =>
    exact absurd ⟨hstop, _, _, hl, hz, _, ht, hocc⟩ (hT.not_linksBack hi)

end Insert

end ClrDebugInfo
