import Mathlib.Data.UInt
import ClrDebugInfo.Nica.Buckets

/-!
# Iteration

What repeated calls of `nc_hashmap_iter_next` return on a map that nobody changes meanwhile: every
occupied cell once, bucket by bucket and along each chain, and then `false`.

The cursor is a bucket index and a cell still to be looked at. What a call will find is the rest of
the chain at that cell and the chains of the buckets after the index (`pending`). A call that finds
nothing leaves the cell in the iterator and only the index past the last bucket, so from then on the
chain at the cell holds unoccupied cells only, and every further call returns at its end. Without
such a cell every further call counts the index up, until it overflows and an entry before the array
is looked at.
-/

namespace ClrDebugInfo

open LinkedChain

variable {K V : Type}

/-! ## The cells of a map -/

/-- Following `next` from every bucket ends, and visits the cells of `chains`, which were allocated,
each for one bucket. -/
structure HasChains (h : Heap K V) (map : NcHashmap K V) (chains : ℕ → List ℕ) : Prop where
  chain : ∀ i < map.nBuckets, Chain h.next (some (map.buckets + i)) (chains i)
  allocated : ∀ i < map.nBuckets, ∀ a ∈ chains i, a < h.brk
  disjoint : ∀ i < map.nBuckets, ∀ j < map.nBuckets, i ≠ j → (chains i).Disjoint (chains j)

/-- The occupied cells, bucket by bucket and along each chain. -/
def entries (h : Heap K V) (n : ℕ) (chains : ℕ → List ℕ) : List ℕ :=
  ((List.range n).flatMap chains).filter fun a ↦ (h.cell a).occ

/-- The key and the value of a cell. -/
def binding (h : Heap K V) (a : ℕ) : K × V := ((h.cell a).hash, (h.cell a).value)

/-- What `m` calls of `nc_hashmap_iter_next` return, unless one reads outside the array. -/
def iterResults (h : Heap K V) (map : NcHashmap K V) :
    ℕ → NcHashmapIter → Option (Except Int32 (List (Option (K × V))))
  | 0, _ => some (.ok [])
  | m + 1, it => (ncHashmapIterNext h map it).bind fun
    | .error index => some (.error index)
    | .ok r => (iterResults h map m r.2).map fun rest ↦ rest.map (r.1 :: ·)

variable {h : Heap K V} {map : NcHashmap K V} {chains : ℕ → List ℕ} {n a : ℕ}

theorem Buckets.hasChains [Zero K] [Zero V]
    (B : Buckets map.hash h map.buckets map.nBuckets chains) : HasChains h map chains :=
  ⟨B.chain, fun i hi a ha ↦ (B.bound i hi a ha).2, B.disjoint⟩

theorem mem_entries : a ∈ entries h n chains ↔ ∃ i < n, a ∈ chains i ∧ (h.cell a).occ = true := by
  simp only [entries, List.mem_filter, List.mem_flatMap, List.mem_range, ← exists_and_right,
    and_assoc]

theorem content_eq_entries (h : Heap K V) (n : ℕ) (chains : ℕ → List ℕ) :
    content h n chains = ((entries h n chains).map (binding h) : List (K × V)) := by
  induction n with
  | zero => rfl
  | succ n ih =>
    rw [content, Finset.sum_range_succ, ← content, ih, entries, entries, List.range_succ,
      List.flatMap_append, List.filter_append, List.map_append, ← Multiset.coe_add,
      List.flatMap_singleton]
    rfl

namespace HasChains

theorem unique {chains' : ℕ → List ℕ} (H : HasChains h map chains) (H' : HasChains h map chains')
    {i : ℕ} (hi : i < map.nBuckets) : chains' i = chains i :=
  (H'.chain i hi).unique (H.chain i hi)

theorem nodup_entries (H : HasChains h map chains) : (entries h map.nBuckets chains).Nodup := by
  apply List.Nodup.filter
  rw [List.nodup_flatMap]
  refine ⟨fun i hi ↦ (H.chain i (List.mem_range.mp hi)).nodup, ?_⟩
  refine List.nodup_range.pairwise_of_forall_ne fun i hi j hj hij ↦ ?_
  exact H.disjoint i (List.mem_range.mp hi) j (List.mem_range.mp hj) hij

theorem length_le (H : HasChains h map chains) {i : ℕ} (hi : i < map.nBuckets) :
    (chains i).length ≤ h.brk :=
  (H.chain i hi).length_le fun a ha ↦ H.allocated i hi a ha

theorem head (H : HasChains h map chains) {i : ℕ} (hi : i < map.nBuckets) :
    ∃ t, chains i = (map.buckets + i) :: t ∧ Chain h.next (h.next (map.buckets + i)) t := by
  have hc := H.chain i hi
  cases hl : chains i with
  | nil =>
    rw [hl] at hc
    exact absurd hc (by simp)
  | cons a t =>
    rw [hl] at hc
    obtain rfl := Option.some.inj hc.1
    exact ⟨t, rfl, hc.2⟩

end HasChains

/-! ## One call -/

/-- The entries that are still to come: those of `l`, the chain at hand, and those of the buckets
after `bucket`. -/
def pending (h : Heap K V) (n : ℕ) (chains : ℕ → List ℕ) (bucket : ℤ) (l : List ℕ) : List ℕ :=
  (l ++ (List.range' (bucket + 1).toNat (n - (bucket + 1).toNat)).flatMap chains).filter
    fun a ↦ (h.cell a).occ

private theorem pending_init (h : Heap K V) (n : ℕ) (chains : ℕ → List ℕ) :
    pending h n chains (-1) [] = entries h n chains := by
  rw [pending, entries, List.range_eq_range']
  rfl

private theorem pending_cons (bucket : ℤ) (a : ℕ) (l : List ℕ) :
    pending h n chains bucket (a :: l) =
      if (h.cell a).occ then a :: pending h n chains bucket l else pending h n chains bucket l := by
  rw [pending, List.cons_append, List.filter_cons]
  rfl

private theorem pending_nil {bucket : ℤ} (hb : -1 ≤ bucket) (hlt : bucket + 1 < n) :
    pending h n chains bucket [] =
      pending h n chains (bucket + 1) (chains (bucket + 1).toNat) := by
  have hsize : n - (bucket + 1).toNat = n - (bucket + 1 + 1).toNat + 1 := by omega
  have hnext : (bucket + 1).toNat + 1 = (bucket + 1 + 1).toNat := by omega
  rw [pending, pending, hsize, List.range'_succ, List.flatMap_cons, List.nil_append, hnext]

private theorem pending_of_le {bucket : ℤ} (hle : n ≤ bucket + 1) (l : List ℕ) :
    pending h n chains bucket l = l.filter fun a ↦ (h.cell a).occ := by
  have hsize : n - (bucket + 1).toNat = 0 := by omega
  rw [pending, hsize, List.range'_zero, List.flatMap_nil, List.append_nil]

private theorem int32_toInt_succ {b : Int32} (hb : -1 ≤ b.toInt) (hmax : b.toInt ≠ 2 ^ 31 - 1) :
    (b + 1).toInt = b.toInt + 1 := by
  have hlt := b.toInt_lt
  rw [Int32.toInt_add, show (1 : Int32).toInt = 1 from rfl, Int.bmod_eq_of_le (by omega) (by omega)]

private theorem int32_succ_max {b : Int32} (hmax : b.toInt = 2 ^ 31 - 1) :
    b + 1 = Int32.minValue := by
  have hb : b = Int32.maxValue := Int32.toInt_inj.mp hmax
  rw [hb]
  rfl

/-- How the loop ends that begins with the rest `l` of the chain at hand. -/
inductive LoopEnds (h : Heap K V) (map : NcHashmap K V) (chains : ℕ → List ℕ) (bucket : Int32)
    (l : List ℕ) : Except Int32 (Option ℕ × Int32) → Prop
  | found {a : ℕ} {l' : List ℕ} {b' : Int32} (hb : -1 ≤ b'.toInt)
    (hpend : pending h map.nBuckets chains bucket.toInt l =
      a :: pending h map.nBuckets chains b'.toInt l')
    (hlt : b'.toInt < map.nBuckets) (hchain : Chain h.next (h.next a) l')
    (hmem : ∀ b ∈ l', b ∈ l ∨ b < h.brk) : LoopEnds h map chains bucket l (.ok (some a, b'))
  | done {b' : Int32} (hpend : pending h map.nBuckets chains bucket.toInt l = [])
    (hindex : b'.toInt = if bucket.toInt < map.nBuckets then (map.nBuckets : ℤ)
      else if l = [] then bucket.toInt + 1 else bucket.toInt) :
    LoopEnds h map chains bucket l (.ok (none, b'))
  /-- The index has come to the end of its range, and there is no cell to look at. -/
  | outside (hmax : l = [] ∧ bucket.toInt = 2 ^ 31 - 1 ∨ 2 ^ 31 ≤ map.nBuckets) :
    LoopEnds h map chains bucket l (.error Int32.minValue)

/-- The loop has gone on to the next bucket, past an unoccupied cell. -/
private theorem LoopEnds.pass_bucket {bucket : Int32} {t : List ℕ}
    {r : Except Int32 (Option ℕ × Int32)}
    (hpend : pending h map.nBuckets chains bucket.toInt [] =
      pending h map.nBuckets chains (bucket + 1).toInt t)
    (hsucc : (bucket + 1).toInt = bucket.toInt + 1) (hin : bucket.toInt + 1 < map.nBuckets)
    (hbelow : ∀ b ∈ t, b < h.brk) (hends : LoopEnds h map chains (bucket + 1) t r) :
    LoopEnds h map chains bucket [] r := by
  cases hends with
  | found hb' hrest hlt hchain hmem =>
    exact .found hb' (hpend.trans hrest) hlt hchain
      fun b hb ↦ Or.inr ((hmem b hb).elim (hbelow b) id)
  | done hnil hindex =>
    rw [if_pos (by omega)] at hindex
    exact .done (hpend.trans hnil) (by rw [hindex, if_pos (by omega)])
  | outside hmax => exact .outside (Or.inr (by omega))

/-- The loop has gone on along the chain at hand, past an unoccupied cell. At the end of the array
it only does if the chain goes on. -/
private theorem LoopEnds.pass_cell {bucket : Int32} {t : List ℕ}
    {r : Except Int32 (Option ℕ × Int32)}
    (hpend : pending h map.nBuckets chains bucket.toInt (a :: t) =
      pending h map.nBuckets chains bucket.toInt t)
    (htail : t = [] → bucket.toInt < map.nBuckets) (hends : LoopEnds h map chains bucket t r) :
    LoopEnds h map chains bucket (a :: t) r := by
  cases hends with
  | found hb' hrest hlt hchain hmem =>
    exact .found hb' (hpend.trans hrest) hlt hchain
      fun b hb ↦ (hmem b hb).imp_left (List.mem_cons_of_mem a)
  | done hnil hindex =>
    refine .done (hpend.trans hnil) ?_
    rw [hindex, if_neg (List.cons_ne_nil a t)]
    by_cases hlt : bucket.toInt < map.nBuckets
    · rw [if_pos hlt, if_pos hlt]
    · rw [if_neg hlt, if_neg hlt, if_neg fun hnil ↦ hlt (htail hnil)]
  | outside hmax =>
    refine .outside (Or.inr ?_)
    rcases hmax with ⟨hnil, hmax⟩ | hmax
    · have hlt := htail hnil
      omega
    · exact hmax

/-- **The loop of `nc_hashmap_iter_next`** finds the first entry that is still to come, or leaves
with the index past the last bucket. There are at most `l.length` cells left on the chain at hand,
and no more than `h.brk` on the chain of each bucket to come. -/
theorem HasChains.iterLoop (H : HasChains h map chains) (fuel : ℕ) {bucket : Int32}
    (hb : -1 ≤ bucket.toInt) {item : Option ℕ} {l : List ℕ} (hl : Chain h.next item l)
    (hend : map.nBuckets ≤ bucket.toInt → ∀ a ∈ l, (h.cell a).occ = false)
    (hfuel : l.length + (map.nBuckets - 1 - bucket.toInt).toNat * (h.brk + 1) < fuel) :
    ∃ r, ClrDebugInfo.iterLoop h map fuel bucket item = some r ∧
      LoopEnds h map chains bucket l r := by
  induction fuel generalizing bucket item l with
  | zero => exact absurd hfuel (Nat.not_lt_zero _)
  | succ fuel ih =>
    cases l with
    | nil =>
      rw [chain_nil.mp hl, ClrDebugInfo.iterLoop]
      by_cases hmax : bucket.toInt = 2 ^ 31 - 1
      · have hmin : (Int32.minValue).toInt = -2 ^ 31 := rfl
        rw [int32_succ_max hmax, if_neg (by omega), if_pos (by omega)]
        exact ⟨_, rfl, .outside (Or.inl ⟨rfl, hmax⟩)⟩
      have hsucc := int32_toInt_succ hb hmax
      by_cases hlast : bucket.toInt + 1 > map.nBuckets - 1
      · rw [if_pos (by omega)]
        refine ⟨_, rfl, .done ?_ ?_⟩
        · rw [pending_of_le (by omega)]
          rfl
        · rw [hsucc, if_pos rfl]
          split <;> omega
      · rw [if_neg (by omega), if_neg (by omega)]
        simp only
        -- the next bucket, and the rest of its chain
        obtain ⟨i, hi⟩ : ∃ i, (bucket + 1).toInt.toNat = i := ⟨_, rfl⟩
        have hin : i < map.nBuckets := by omega
        obtain ⟨t, ht, htail⟩ := H.head hin
        have hshort := H.length_le hin
        have hbelow := H.allocated i hin
        rw [ht] at hshort hbelow
        rw [List.length_cons] at hshort
        have hpend : pending h map.nBuckets chains bucket.toInt [] =
            pending h map.nBuckets chains (bucket + 1).toInt ((map.buckets + i) :: t) := by
          rw [pending_nil hb (by omega), ← hsucc, hi, ht]
        rw [pending_cons] at hpend
        rw [hi]
        by_cases ho : (h.cell (map.buckets + i)).occ = true
        · rw [if_pos ho] at hpend ⊢
          exact ⟨_, rfl, .found (by omega) hpend (by omega) htail
            fun b hb ↦ Or.inr (hbelow b (List.mem_cons_of_mem _ hb))⟩
        · rw [if_neg ho] at hpend ⊢
          have hrest : (map.nBuckets - 1 - bucket.toInt).toNat =
              (map.nBuckets - 1 - (bucket + 1).toInt).toNat + 1 := by omega
          rw [hrest, Nat.succ_mul] at hfuel
          have hnext : -1 ≤ (bucket + 1).toInt := by omega
          obtain ⟨r, hrun, hends⟩ := ih hnext htail (fun hle ↦ absurd hle (by omega)) (by omega)
          exact ⟨r, hrun, hends.pass_bucket hpend hsucc (by omega)
            fun b hb ↦ hbelow b (List.mem_cons_of_mem _ hb)⟩
    | cons a t =>
      rw [List.length_cons] at hfuel
      rw [hl.1, ClrDebugInfo.iterLoop]
      have hpend : pending h map.nBuckets chains bucket.toInt (a :: t) = _ :=
        pending_cons bucket.toInt a t
      by_cases hlast : bucket.toInt ≥ map.nBuckets ∧ h.next a = none
      · rw [if_pos hlast]
        obtain ⟨hge, hnext⟩ := hlast
        have hnil : t = [] := by
          have htail := hl.2
          rw [hnext] at htail
          cases t with
          | nil => rfl
          | cons b t => exact absurd htail.1 (by simp)
        refine ⟨_, rfl, .done ?_ ?_⟩
        · rw [hpend, if_neg (Bool.eq_false_iff.mp (hend hge a List.mem_cons_self)), hnil,
            pending_of_le (by omega)]
          rfl
        · rw [if_neg (by omega), if_neg (by simp)]
      · rw [if_neg hlast]
        by_cases ho : (h.cell a).occ = true
        · have hlt : bucket.toInt < map.nBuckets := by
            by_contra hge
            rw [hend (by omega) a List.mem_cons_self] at ho
            exact absurd ho (by simp)
          rw [if_pos ho] at hpend ⊢
          exact ⟨_, rfl, .found hb hpend hlt hl.2
            fun b hb ↦ Or.inl (List.mem_cons_of_mem a hb)⟩
        · rw [if_neg ho] at hpend ⊢
          have htail : t = [] → bucket.toInt < map.nBuckets := by
            rintro rfl
            by_contra hge
            exact hlast ⟨by omega, chain_nil.mp hl.2⟩
          obtain ⟨r, hrun, hends⟩ := ih hb hl.2
            (fun hle b hb ↦ hend hle b (List.mem_cons_of_mem a hb)) (by omega)
          exact ⟨r, hrun, hends.pass_cell hpend htail⟩

/-! ## Every call -/

/-- An iterator from which the entries `rest` are still to come. -/
structure Cursor (h : Heap K V) (map : NcHashmap K V) (chains : ℕ → List ℕ) (it : NcHashmapIter)
    (rest : List ℕ) : Prop where
  bucket : -1 ≤ it.bucket.toInt
  chain : ∃ l, Chain h.next it.item l ∧ (∀ a ∈ l, a < h.brk) ∧
    pending h map.nBuckets chains it.bucket.toInt l = rest
  ended : map.nBuckets ≤ it.bucket.toInt → rest = []

theorem Cursor.init (h : Heap K V) (map : NcHashmap K V) (chains : ℕ → List ℕ) :
    Cursor h map chains ncHashmapIterInit (entries h map.nBuckets chains) := by
  have hindex : ncHashmapIterInit.bucket.toInt = -1 := rfl
  refine ⟨by omega, ⟨[], rfl, by simp, pending_init h map.nBuckets chains⟩, fun hle ↦ ?_⟩
  exact absurd hle (by omega)

/-- How a call ends: with the first entry that is still to come, with `false` if there is none, or
outside the array. -/
inductive CallEnds (h : Heap K V) (map : NcHashmap K V) (chains : ℕ → List ℕ)
    (it : NcHashmapIter) : List ℕ → Except Int32 (Option (K × V) × NcHashmapIter) → Prop
  | entry {a : ℕ} {rest : List ℕ} {b' : Int32} (C : Cursor h map chains ⟨b', h.next a⟩ rest)
    (hlt : b'.toInt < map.nBuckets) :
    CallEnds h map chains it (a :: rest) (.ok (some (binding h a), ⟨b', h.next a⟩))
  | done {b' : Int32} (C : Cursor h map chains ⟨b', it.item⟩ [])
    (hindex : b'.toInt = if it.bucket.toInt < map.nBuckets then (map.nBuckets : ℤ)
      else if it.item = none then it.bucket.toInt + 1 else it.bucket.toInt) :
    CallEnds h map chains it [] (.ok (none, ⟨b', it.item⟩))
  | outside {rest : List ℕ}
    (hmax : it.item = none ∧ it.bucket.toInt = 2 ^ 31 - 1 ∨ 2 ^ 31 ≤ map.nBuckets) :
    CallEnds h map chains it rest (.error Int32.minValue)

/-- **One call** returns, and leaves an iterator from which the other entries are still to come. -/
theorem Cursor.next (H : HasChains h map chains) {it : NcHashmapIter} {rest : List ℕ}
    (C : Cursor h map chains it rest) :
    ∃ r, ncHashmapIterNext h map it = some r ∧ CallEnds h map chains it rest r := by
  obtain ⟨hb, ⟨l, hl, hbelow, rfl⟩, hended⟩ := C
  have hlen := hl.length_le hbelow
  have hnil : l = [] ↔ it.item = none := by
    constructor
    · rintro rfl
      exact chain_nil.mp hl
    · intro hitem
      cases l with
      | nil => rfl
      | cons a t => exact absurd (hitem.symm.trans hl.1) (by simp)
  have hend : map.nBuckets ≤ it.bucket.toInt → ∀ a ∈ l, (h.cell a).occ = false := by
    intro hge a ha
    have hnone := hended hge
    rw [pending_of_le (by omega), List.filter_eq_nil_iff] at hnone
    exact Bool.eq_false_iff.mpr (hnone a ha)
  have hmul := Nat.mul_le_mul_right (h.brk + 1)
    (show (map.nBuckets - 1 - it.bucket.toInt).toNat ≤ map.nBuckets by omega)
  obtain ⟨r, hrun, hends⟩ := H.iterLoop ((map.nBuckets + 1) * (h.brk + 1) + 1) hb hl hend
    (by rw [Nat.succ_mul]; omega)
  rw [ncHashmapIterNext, hrun, Option.map_some]
  refine ⟨_, rfl, ?_⟩
  cases hends with
  | found hb' hpend hlt hchain hmem =>
    rw [hpend]
    refine .entry ⟨hb', ⟨_, hchain, fun b hb ↦ ?_, rfl⟩, fun hge ↦ ?_⟩ hlt
    · exact (hmem b hb).elim (hbelow b) id
    · exact absurd hge (by simp only; omega)
  | @done b' hpend hindex =>
    rw [hpend]
    have hge : map.nBuckets ≤ b'.toInt := by
      rw [hindex]
      split
      · exact le_rfl
      · split <;> omega
    refine .done ⟨by simp only; omega, ⟨l, hl, hbelow, ?_⟩, fun _ ↦ rfl⟩ ?_
    · rw [pending, List.filter_append, List.append_eq_nil_iff] at hpend
      rw [pending_of_le (hge.trans (Int.le_add_one le_rfl)), hpend.1]
    · simpa only [hnil] using hindex
  | outside hmax => exact .outside (by simpa only [hnil] using hmax)

/-- The cell that the iterator is left with after its last entry. -/
def leftover (h : Heap K V) (it : NcHashmapIter) (rest : List ℕ) : Option ℕ :=
  (rest.getLast?.map h.next).getD it.item

private theorem leftover_cons (it : NcHashmapIter) (a : ℕ) (rest : List ℕ) (b' : Int32) :
    leftover h ⟨b', h.next a⟩ rest = leftover h it (a :: rest) := by
  cases rest with
  | nil => rfl
  | cons b rest => simp [leftover, List.getLast?_cons]

/-- How often an iterator can be asked before its index overflows. -/
def roomLeft (n : ℕ) (it : NcHashmapIter) (rest : List ℕ) : ℤ :=
  rest.length + if n ≤ it.bucket.toInt then 2 ^ 31 - 1 - it.bucket.toInt else (2 ^ 31 - n : ℤ)

/-- What `m` calls come to: the `k`-th returns the `k`-th entry, and `false` if there is none, or
the index overflows. -/
inductive CallsEnd (h : Heap K V) (map : NcHashmap K V) (it : NcHashmapIter) (rest : List ℕ)
    (m : ℕ) : Prop
  | inside
    (hres : iterResults h map m it =
      some (.ok ((List.range m).map fun k ↦ rest[k]?.map (binding h))))
    (hcond : m ≤ roomLeft map.nBuckets it rest ∨ leftover h it rest ≠ none)
  | outside (hres : iterResults h map m it = some (.error Int32.minValue))
    (hlt : roomLeft map.nBuckets it rest < m) (hnone : leftover h it rest = none)

/-- One call before others. -/
private theorem CallsEnd.cons {it it' : NcHashmapIter} {rest : List ℕ} {m : ℕ}
    (hrun : ncHashmapIterNext h map it = some (.ok (rest.head?.map (binding h), it')))
    (hleft : leftover h it' rest.tail = leftover h it rest)
    (hroom : roomLeft map.nBuckets it' rest.tail + 1 = roomLeft map.nBuckets it rest ∨
      leftover h it rest ≠ none)
    (hrest : CallsEnd h map it' rest.tail m) : CallsEnd h map it rest (m + 1) := by
  have htail : ∀ k, rest.tail[k]? = rest[k + 1]? := fun k ↦ List.getElem?_tail
  cases hrest with
  | inside hres hcond =>
    refine .inside ?_ ?_
    · simp only [iterResults, hrun, Option.bind_some, hres, Option.map_some, Except.map,
        List.range_succ_eq_map, List.map_cons, List.map_map, List.head?_eq_getElem?, htail,
        Function.comp_def]
    · rw [hleft] at hcond
      exact hcond.elim (fun hle ↦ hroom.imp_left fun hroom ↦ by omega) Or.inr
  | outside hres hlt hnone =>
    rw [hleft] at hnone
    refine .outside ?_ ?_ hnone
    · simp only [iterResults, hrun, Option.bind_some, hres, Option.map_some, Except.map]
    · have hroom' := hroom.resolve_right (not_not_intro hnone)
      omega

/-- **Any number of calls.** They return the entries and then `false`, exactly as long as the index
does not overflow. -/
theorem Cursor.results (H : HasChains h map chains) (hn : map.nBuckets < 2 ^ 31) (m : ℕ)
    {it : NcHashmapIter} {rest : List ℕ} (C : Cursor h map chains it rest) :
    CallsEnd h map it rest m := by
  induction m generalizing it rest with
  | zero =>
    have hlt := it.bucket.toInt_lt
    refine .inside rfl (Or.inl ?_)
    rw [roomLeft]
    split <;> omega
  | succ m ih =>
    obtain ⟨r, hrun, hends⟩ := C.next H
    cases hends with
    | @entry a rest b' C' hlt =>
      refine .cons hrun (leftover_cons it a rest b') (Or.inl ?_) (ih C')
      have hbucket : ¬map.nBuckets ≤ it.bucket.toInt := fun hge ↦
        absurd (C.ended hge) (List.cons_ne_nil a rest)
      rw [roomLeft, roomLeft, if_neg hbucket, if_neg (by simp only; omega), List.tail_cons,
        List.length_cons]
      omega
    | @done b' C' hindex =>
      refine .cons hrun rfl ?_ (ih C')
      by_cases hitem : it.item = none
      · refine Or.inl ?_
        rw [if_pos hitem] at hindex
        simp only [roomLeft, List.tail_nil, hindex]
        split <;> split <;> omega
      · exact Or.inr hitem
    | outside hmax =>
      obtain ⟨hitem, hindex⟩ := hmax.resolve_right (by omega)
      have hnil : rest = [] := C.ended (by omega)
      subst hnil
      refine .outside (by rw [iterResults, hrun, Option.bind_some]) ?_ hitem
      rw [roomLeft, if_pos (by omega), hindex]
      simp only [List.length_nil]
      omega

/-- **Iteration.** The calls after `nc_hashmap_iter_init` return every occupied entry once, with its
key and its value, and from then on `false`. This goes on for ever exactly if the last entry has
cells behind it on its chain, which are unoccupied. Else the index overflows after as many calls as
there are entries and `int`s from the number of buckets on. -/
theorem iterResults_complete_iff (H : HasChains h map chains) (hn : map.nBuckets < 2 ^ 31) (m : ℕ) :
    (entries h map.nBuckets chains).Nodup ∧
      (∀ a, a ∈ entries h map.nBuckets chains ↔
        ∃ i < map.nBuckets, a ∈ chains i ∧ (h.cell a).occ = true) ∧
      (iterResults h map m ncHashmapIterInit = some (.ok ((List.range m).map fun k ↦
          (entries h map.nBuckets chains)[k]?.map (binding h))) ↔
        m ≤ (entries h map.nBuckets chains).length + (2 ^ 31 - map.nBuckets) ∨
          (entries h map.nBuckets chains).getLast?.bind h.next ≠ none) := by
  refine ⟨H.nodup_entries, fun _ ↦ mem_entries, ?_⟩
  have hindex : ncHashmapIterInit.bucket.toInt = -1 := rfl
  have hroom : roomLeft map.nBuckets ncHashmapIterInit (entries h map.nBuckets chains) =
      (entries h map.nBuckets chains).length + (2 ^ 31 - map.nBuckets) := by
    rw [roomLeft, if_neg (by omega)]
  have hleft : leftover h ncHashmapIterInit (entries h map.nBuckets chains) =
      (entries h map.nBuckets chains).getLast?.bind h.next := by
    rw [leftover]
    cases (entries h map.nBuckets chains).getLast? <;> rfl
  rw [← hleft]
  rcases (Cursor.init h map chains).results H hn m with ⟨hres, hcond⟩ | ⟨hres, hlt, hnone⟩
  · rw [hroom] at hcond
    exact iff_of_true hres (hcond.imp_left fun hle ↦ by omega)
  · rw [hroom] at hlt
    refine iff_of_false (fun h ↦ ?_) ?_
    · rw [hres] at h
      exact absurd h (by simp)
    · rintro (hle | hne)
      · omega
      · exact hne hnone

/-- Three buckets: an unoccupied one before an occupied cell, an empty one, and an occupied one
before an unoccupied cell, so that there is no end to the calls that return `false`. -/
theorem iterResults_complete_iff_three : ∃ (h : Heap UInt64 UInt64) (map : NcHashmap UInt64 UInt64)
    (chains : ℕ → List ℕ), HasChains h map chains ∧
      iterResults h map 4 ncHashmapIterInit =
        some (.ok [some (3, 30), some (2, 20), none, none]) ∧
      iterResults h map (2 ^ 40) ncHashmapIterInit =
        some (.ok ((List.range (2 ^ 40)).map fun k ↦
          (entries h map.nBuckets chains)[k]?.map (binding h))) := by
  set h : Heap UInt64 UInt64 :=
    { cell := fun
        | 0 => ⟨0, 0, some 3, false⟩
        | 2 => ⟨2, 20, some 4, true⟩
        | 3 => ⟨3, 30, none, true⟩
        | _ => NcHashmapEntry.zero
      brk := 5, callocs := 2, freed := [] } with hh
  set map : NcHashmap UInt64 UInt64 := ⟨2, 2, 3, 0, ncSimpleHash, ncSimpleCompare, false, false⟩
  set chains : ℕ → List ℕ := fun
    | 0 => [0, 3]
    | 1 => [1]
    | _ => [2, 4] with hchains
  have H : HasChains h map chains := by
    refine ⟨fun i hi ↦ ?_, ?_, ?_⟩
    · match i, hi with
      | 0, _ => exact ⟨rfl, rfl, rfl⟩
      | 1, _ => exact ⟨rfl, rfl⟩
      | 2, _ => exact ⟨rfl, rfl, rfl⟩
    · show ∀ i < 3, ∀ a ∈ chains i, a < 5
      decide
    · have hone : ∀ i < 3, ∀ j < 3, ∀ a ∈ chains i, a ∈ chains j → i = j := by decide
      exact fun i hi j hj hij a ha ha' ↦ hij (hone i hi j hj a ha ha')
  have hlast : (entries h map.nBuckets chains).getLast?.bind h.next ≠ none := by decide
  exact ⟨h, map, chains, H, (iterResults_complete_iff H (by decide) 4).2.2.mpr (Or.inr hlast),
    (iterResults_complete_iff H (by decide) (2 ^ 40)).2.2.mpr (Or.inr hlast)⟩

/-- A new map with 61 buckets and no entry: `false` is returned until the index overflows. -/
theorem iterResults_outside : ∃ (h : Heap UInt64 UInt64) (map : NcHashmap UInt64 UInt64),
    ncHashmapNew (fun _ ↦ true) Heap.empty ncSimpleHash ncSimpleCompare = (some map, h) ∧
      HasChains h map (fun i ↦ [i]) ∧ entries h map.nBuckets (fun i ↦ [i]) = [] ∧
      iterResults h map (2 ^ 31 - 61) ncHashmapIterInit =
        some (.ok ((List.range (2 ^ 31 - 61)).map fun _ ↦ none)) ∧
      iterResults h map (2 ^ 31 - 60) ncHashmapIterInit = some (.error Int32.minValue) ∧
      ¬∀ m, iterResults h map m ncHashmapIterInit = some (.ok ((List.range m).map fun k ↦
        (entries h map.nBuckets fun i ↦ [i])[k]?.map (binding h))) := by
  obtain ⟨h, map, hnew, hcell, hn, hbuckets, hbrk⟩ : ∃ (h : Heap UInt64 UInt64)
      (map : NcHashmap UInt64 UInt64),
      ncHashmapNew (fun _ ↦ true) Heap.empty ncSimpleHash ncSimpleCompare = (some map, h) ∧
        (∀ a, h.cell a = NcHashmapEntry.zero) ∧ map.nBuckets = 61 ∧ map.buckets = 0 ∧
        h.brk = 61 :=
    ⟨_, _, rfl, fun a ↦ ite_self _, rfl, rfl, rfl⟩
  have H : HasChains h map (fun i ↦ [i]) := by
    refine ⟨fun i _ ↦ ⟨by rw [hbuckets, Nat.zero_add], ?_⟩, fun i hi a ha ↦ ?_,
      fun i _ j _ hij ↦ ?_⟩
    · rw [Heap.next, hcell]
      rfl
    · rw [List.mem_singleton.mp ha]
      omega
    · exact List.disjoint_singleton.mpr (by simpa using Ne.symm hij)
  have hnone : entries h map.nBuckets (fun i ↦ [i]) = [] := by
    refine List.filter_eq_nil_iff.mpr fun a _ ↦ ?_
    rw [hcell]
    exact Bool.false_ne_true
  have C := Cursor.init h map (fun i ↦ [i])
  rw [hnone] at C
  have hroom : roomLeft map.nBuckets ncHashmapIterInit [] = 2 ^ 31 - 61 := by
    rw [hn]
    rfl
  have hresults : ∀ m, _ := fun m ↦ C.results H (by omega) m
  have houtside : iterResults h map (2 ^ 31 - 60) ncHashmapIterInit =
      some (.error Int32.minValue) := by
    rcases hresults (2 ^ 31 - 60) with ⟨-, hle | hleft⟩ | ⟨hres, -, -⟩
    · rw [hroom] at hle
      omega
    · exact absurd rfl hleft
    · exact hres
  refine ⟨h, map, hnew, H, hnone, ?_, houtside, fun hall ↦ ?_⟩
  · rcases hresults (2 ^ 31 - 61) with ⟨hres, -⟩ | ⟨-, hlt, -⟩
    · exact hres
    · rw [hroom] at hlt
      omega
  · cases Option.some.inj (houtside.symm.trans (hall _))

end ClrDebugInfo
