import Mathlib.Data.Int.Notation
import Mathlib.Logic.Function.Basic
import ClrDebugInfo.Library.LinkedChain

/-!
# The chained hash map of libnica

`src/nica/hashmap.c`, over an explicit heap. A bucket array is a run of cells, a chain node is a
single cell, and `next` is an address, so a chain that has been linked into a circle is a state of
this model and not excluded by its types.

## Conventions

* A key or a value is a `void *`: its type has a zero, which is `NULL`, and a decidable equality,
  which compares pointers.
* `calloc` hands out addresses that were never used before. Whether the `k`-th call of a run
  succeeds is decided by `alloc k`.
* `free` of a cell is not modelled, since no address is used twice. Calls of `key_free` and
  `value_free` are kept in a log.
* A loop over a chain is bounded by the number of cells ever allocated, and a function returns
  `none` when that bound is reached. A chain that ends has at most that many cells, so `none`
  stands for a call that does not return.
* `n_buckets` is a natural number and the sizes are integers, where the source has `int`s. What
  keeps them in range is `calloc`: the largest array has `61 * 4 ^ 12` buckets, four times that is a
  negative `int`, and `calloc` fails for such a number of entries. Where every `calloc` succeeds the
  array has not come that far. The index of an iterator is counted up without any memory, and is an
  `int` here.
-/

namespace ClrDebugInfo

open LinkedChain

variable {K V : Type}

/-! ## The heap -/

/-- A bucket or a chain node. -/
structure NcHashmapEntry (K V : Type) where
  /-- The key for this item. -/
  hash : K
  /-- The value for this item. -/
  value : V
  /-- The next item in the chain. -/
  next : Option ℕ
  /-- Whether this bucket is occupied. -/
  occ : Bool

/-- What `calloc` leaves in a cell. -/
def NcHashmapEntry.zero [Zero K] [Zero V] : NcHashmapEntry K V := ⟨0, 0, none, false⟩

/-- The cells behind every map of the process. -/
structure Heap (K V : Type) where
  cell : ℕ → NcHashmapEntry K V
  /-- Addresses below `brk` have been handed out. -/
  brk : ℕ
  /-- How often `calloc` has been called. -/
  callocs : ℕ
  /-- The arguments `key_free` and `value_free` have been called with, oldest first. -/
  freed : List (K ⊕ V)

namespace Heap

/-- The heap of a process that has not allocated anything. -/
def empty [Zero K] [Zero V] : Heap K V := ⟨fun _ ↦ NcHashmapEntry.zero, 0, 0, []⟩

/-- `calloc(n, sizeof(NcHashmapEntry))`. -/
def calloc [Zero K] [Zero V] (alloc : ℕ → Bool) (h : Heap K V) (n : ℕ) : Option ℕ × Heap K V :=
  if alloc h.callocs then
    (some h.brk, { h with
      cell := fun a ↦ if h.brk ≤ a ∧ a < h.brk + n then NcHashmapEntry.zero else h.cell a
      brk := h.brk + n
      callocs := h.callocs + 1 })
  else (none, { h with callocs := h.callocs + 1 })

/-- `row->hash = key; row->value = value; row->occ = true;` -/
def store (h : Heap K V) (row : ℕ) (key : K) (value : V) : Heap K V :=
  { h with cell := Function.update h.cell row ⟨key, value, (h.cell row).next, true⟩ }

/-- `parent->next = row;` -/
def link (h : Heap K V) (parent row : ℕ) : Heap K V :=
  { h with
    cell := Function.update h.cell parent
      ⟨(h.cell parent).hash, (h.cell parent).value, some row, (h.cell parent).occ⟩ }

/-- `row->hash = NULL; row->value = NULL; row->occ = false;` -/
def clear [Zero K] [Zero V] (h : Heap K V) (row : ℕ) : Heap K V :=
  { h with cell := Function.update h.cell row ⟨0, 0, (h.cell row).next, false⟩ }

/-- The successor function of the cells. -/
def next (h : Heap K V) (a : ℕ) : Option ℕ := (h.cell a).next

end Heap

/-! ## The map -/

/-- `INITIAL_SIZE` -/
def initialSize : ℕ := 61

/-- `INCREASE_FACTOR` -/
def increaseFactor : ℕ := 4

structure NcHashmap (K V : Type) where
  /-- The current size of the hashmap. -/
  size : ℤ
  /-- The next size at which we need to resize. -/
  nextSize : ℤ
  /-- The current number of buckets. -/
  nBuckets : ℕ
  /-- Where the bucket array starts. -/
  buckets : ℕ
  hash : K → UInt32
  compare : K → K → Bool
  /-- Whether `key_free` is set. -/
  keyFree : Bool
  /-- Whether `value_free` is set. -/
  valueFree : Bool

/-- `nc_hashmap_update_next_size`. `FULL_FACTOR` is the double `0.7`; for a bucket count that is
not a multiple of ten, and `61 * 4 ^ k` never is, truncating the product is this quotient. -/
def ncHashmapUpdateNextSize (self : NcHashmap K V) : NcHashmap K V :=
  { self with nextSize := (self.nBuckets * 7 / 10 : ℕ) }

/-- `nc_hashmap_maybe_resize` -/
def ncHashmapMaybeResize (self : NcHashmap K V) : Bool := self.size ≥ self.nextSize

/-- `nc_hashmap_size` -/
def ncHashmapSize (self : NcHashmap K V) : ℤ := self.size

/-- `nc_hashmap_get_hash` -/
def ncHashmapGetHash (self : NcHashmap K V) (key : K) : UInt32 := self.hash key

section Calls

variable [Zero K] [Zero V] (alloc : ℕ → Bool)

/-- `nc_hashmap_new_internal`. The map record is not a cell: its `calloc` reserves none. -/
def ncHashmapNewInternal (h : Heap K V) (hash : K → UInt32) (compare : K → K → Bool)
    (keyFree valueFree : Bool) : Option (NcHashmap K V) × Heap K V :=
  match h.calloc alloc 0 with
  | (none, h) => (none, h)
  | (some _, h) =>
    match h.calloc alloc initialSize with
    | (none, h) => (none, h)
    | (some buckets, h) =>
      (some (ncHashmapUpdateNextSize
        { size := 0, nextSize := 0, nBuckets := initialSize, buckets, hash, compare, keyFree,
          valueFree }), h)

/-- `nc_hashmap_new`, with both functions given. -/
def ncHashmapNew (h : Heap K V) (hash : K → UInt32) (compare : K → K → Bool) :
    Option (NcHashmap K V) × Heap K V :=
  ncHashmapNewInternal alloc h hash compare false false

/-- `nc_hashmap_new_full`, with both functions given. -/
def ncHashmapNewFull (h : Heap K V) (hash : K → UInt32) (compare : K → K → Bool)
    (keyFree valueFree : Bool) : Option (NcHashmap K V) × Heap K V :=
  ncHashmapNewInternal alloc h hash compare keyFree valueFree

variable [DecidableEq K]

/-- The test of the loop in `nc_hashmap_insert_bucket` that sets `can_replace`: the pointers are
compared before `compare` is asked. -/
def canReplace (h : Heap K V) (self : NcHashmap K V) (key : K) (row : ℕ) : Bool :=
  (h.cell row).occ && decide ((h.cell row).hash = key) && self.compare (h.cell row).hash key

/-- The variables `parent` and `tomb` after the loop in `nc_hashmap_insert_bucket` has looked at
`row`. -/
def visitRow (h : Heap K V) (s : ℕ × Option ℕ) (row : ℕ) : ℕ × Option ℕ :=
  (row, if (h.cell row).occ then s.2 else some row)

/-- The calls of `value_free` and `key_free` when an entry is replaced. -/
def replaceFrees (self : NcHashmap K V) (e : NcHashmapEntry K V) : List (K ⊕ V) :=
  (if self.valueFree then [Sum.inr e.value] else []) ++
    (if self.keyFree then [Sum.inl e.hash] else [])

/-- What `nc_hashmap_insert_bucket` does after its loop, which has left a matching row or `NULL` in
`row`, and `parent` and `tomb`. -/
def insertRow (h : Heap K V) (self : NcHashmap K V) (key : K) (value : V) :
    Option ℕ × ℕ × Option ℕ → ℤ × Heap K V
  | (some row, _) =>
    -- `parent` is `row` here, so nothing is linked
    (0, { h with freed := h.freed ++ replaceFrees self (h.cell row) }.store row key value)
  | (none, parent, some tomb) =>
    -- the reused cell may already be on the chain before `parent`
    (1, if parent = tomb then h.store tomb key value
      else (h.store tomb key value).link parent tomb)
  | (none, parent, none) =>
    match h.calloc alloc 1 with
    | (none, h) => (-1, h)
    | (some row, h) => (1, (h.store row key value).link parent row)

/-- `nc_hashmap_insert_bucket` -/
def ncHashmapInsertBucket (h : Heap K V) (self : NcHashmap K V) (buckets nBuckets : ℕ)
    (hash : UInt32) (key : K) (value : V) : Option (ℤ × Heap K V) :=
  let head := buckets + hash.toNat % nBuckets
  (scan h.next (canReplace h self key) (visitRow h) (h.brk + 1) (some head) (head, none)).map
    (insertRow alloc h self key value)

/-- The calls of `key_free` and `value_free` when a bucket is nuked. -/
def nukeFrees (self : NcHashmap K V) (e : NcHashmapEntry K V) : List (K ⊕ V) :=
  if e.occ then
    (if self.keyFree then [Sum.inl e.hash] else []) ++
      (if self.valueFree then [Sum.inr e.value] else [])
  else []

/-- `nc_hashmap_free_bucket` -/
def ncHashmapFreeBucket (h : Heap K V) (self : NcHashmap K V) (bucket : ℕ) (nuke : Bool) :
    Option (Heap K V) :=
  (scan h.next (fun _ ↦ false)
    (fun log a ↦ if nuke then log ++ nukeFrees self (h.cell a) else log)
    (h.brk + 1) (some bucket) h.freed).map fun r ↦ { h with freed := r.2 }

/-- `for (int i = 0; i < n; i++) nc_hashmap_free_bucket(self, &(buckets[i]), nuke);` -/
def freeBuckets (self : NcHashmap K V) (nuke : Bool) : List ℕ → Heap K V → Option (Heap K V)
  | [], h => some h
  | bucket :: rest, h =>
    (ncHashmapFreeBucket h self bucket nuke).bind (freeBuckets self nuke rest)

/-- The inner loop of `nc_hashmap_resize`: the entries of one old chain. The flag says whether
the loop ran to its end or left through `failure`. -/
def resizeChain (self : NcHashmap K V) (newBuckets newSize : ℕ) :
    ℕ → Option ℕ → Heap K V → ℤ → Option (Bool × ℤ × Heap K V)
  | 0, _, _, _ => none
  | _ + 1, none, h, items => some (true, items, h)
  | fuel + 1, some entry, h, items =>
    if (h.cell entry).occ then
      match ncHashmapInsertBucket alloc h self newBuckets newSize
          (ncHashmapGetHash self (h.cell entry).hash) (h.cell entry).hash
          (h.cell entry).value with
      | none => none
      | some (incr, h) =>
        if incr > 0 then
          resizeChain self newBuckets newSize fuel (h.next entry) h (items + incr)
        else some (false, items, h)
    else resizeChain self newBuckets newSize fuel (h.next entry) h items

/-- The outer loop of `nc_hashmap_resize`, over the heads of the old chains. -/
def resizeChains (self : NcHashmap K V) (newBuckets newSize : ℕ) :
    List ℕ → Heap K V → ℤ → Option (Bool × ℤ × Heap K V)
  | [], h, items => some (true, items, h)
  | entry :: rest, h, items =>
    match resizeChain alloc self newBuckets newSize (h.brk + 1) (some entry) h items with
    | none => none
    | some (false, items, h) => some (false, items, h)
    | some (true, items, h) => resizeChains self newBuckets newSize rest h items

/-- The addresses of the buckets of an array. -/
def bucketAddrs (base n : ℕ) : List ℕ := (List.range n).map (base + ·)

/-- `nc_hashmap_free` -/
def ncHashmapFree (h : Heap K V) (self : NcHashmap K V) : Option (Heap K V) :=
  freeBuckets self true (bucketAddrs self.buckets self.nBuckets) h

/-- `nc_hashmap_resize` -/
def ncHashmapResize (h : Heap K V) (self : NcHashmap K V) :
    Option (Bool × Heap K V × NcHashmap K V) :=
  let newSize := self.nBuckets * increaseFactor
  match h.calloc alloc newSize with
  | (none, h) => some (false, h, self)
  | (some newBuckets, h) =>
    match resizeChains alloc self newBuckets newSize (bucketAddrs self.buckets self.nBuckets)
        h 0 with
    | none => none
    | some (true, items, h) =>
      (freeBuckets self false (bucketAddrs self.buckets self.nBuckets) h).map fun h ↦
        (true, h, ncHashmapUpdateNextSize
          { self with nBuckets := newSize, size := items, buckets := newBuckets })
    | some (false, _, h) =>
      (freeBuckets self true (bucketAddrs newBuckets newSize) h).map fun h ↦ (false, h, self)

/-- `nc_hashmap_put` on a map that exists. -/
def ncHashmapPut (h : Heap K V) (self : NcHashmap K V) (key : K) (value : V) :
    Option (Bool × Heap K V × NcHashmap K V) :=
  let resized := if ncHashmapMaybeResize self then ncHashmapResize alloc h self
    else some (true, h, self)
  match resized with
  | none => none
  | some (false, h, self) => some (false, h, self)
  | some (true, h, self) =>
    match ncHashmapInsertBucket alloc h self self.buckets self.nBuckets
        (ncHashmapGetHash self key) key value with
    | none => none
    | some (inc, h) =>
      if inc > 0 then some (true, h, { self with size := self.size + inc })
      else some (false, h, self)

/-- `nc_hashmap_get_entry`. The walk asks `compare` about unoccupied cells as well. -/
def ncHashmapGetEntry (h : Heap K V) (self : NcHashmap K V) (key : K) : Option (Option ℕ) :=
  (scan h.next (fun row ↦ self.compare (h.cell row).hash key) (fun _ _ ↦ ()) (h.brk + 1)
    (some (self.buckets + (ncHashmapGetHash self key).toNat % self.nBuckets)) ()).map Prod.fst

/-- `nc_hashmap_get` -/
def ncHashmapGet (h : Heap K V) (self : NcHashmap K V) (key : K) : Option V :=
  (ncHashmapGetEntry h self key).map fun
    | none => 0
    | some row => (h.cell row).value

/-- `nc_hashmap_ensure_get`: whether the key is there, and what `*value` is set to. -/
def ncHashmapEnsureGet (h : Heap K V) (self : NcHashmap K V) (key : K) : Option (Bool × V) :=
  (ncHashmapGetEntry h self key).map fun
    | none => (false, 0)
    | some row => (true, (h.cell row).value)

/-- `nc_hashmap_contains` -/
def ncHashmapContains [DecidableEq V] (h : Heap K V) (self : NcHashmap K V) (key : K) :
    Option Bool := (ncHashmapGet h self key).map fun value ↦ decide (value ≠ 0)

/-- The calls of `key_free` and `value_free` when an entry is removed. -/
def removeFrees (self : NcHashmap K V) (e : NcHashmapEntry K V) : List (K ⊕ V) :=
  (if self.keyFree then [Sum.inl e.hash] else []) ++
    (if self.valueFree then [Sum.inr e.value] else [])

/-- `nc_hashmap_remove_internal`, on whatever cell the lookup returns. -/
def ncHashmapRemoveInternal (h : Heap K V) (self : NcHashmap K V) (key : K) (remove : Bool) :
    Option (Bool × Heap K V × NcHashmap K V) :=
  (ncHashmapGetEntry h self key).map fun
    | none => (false, h, self)
    | some row =>
      (true, { h with
        freed := if remove then h.freed ++ removeFrees self (h.cell row) else h.freed }.clear row,
        { self with size := self.size - 1 })

/-- `nc_hashmap_steal` -/
def ncHashmapSteal (h : Heap K V) (self : NcHashmap K V) (key : K) :
    Option (Bool × Heap K V × NcHashmap K V) := ncHashmapRemoveInternal h self key false

/-- `nc_hashmap_remove` -/
def ncHashmapRemove (h : Heap K V) (self : NcHashmap K V) (key : K) :
    Option (Bool × Heap K V × NcHashmap K V) := ncHashmapRemoveInternal h self key true

end Calls

/-! ## Iteration -/

/-- The part of an iterator that changes; the map is given with each call. -/
structure NcHashmapIter where
  /-- The current bucket position. -/
  bucket : Int32
  /-- The current item in this iteration. -/
  item : Option ℕ

/-- `nc_hashmap_iter_init` -/
def ncHashmapIterInit : NcHashmapIter := ⟨-1, none⟩

/-- The loop of `nc_hashmap_iter_next`, with the local variable `item`: the entry it succeeds with,
or `none` inside for `false`, and the new `bucket` of the iterator. The error is an index with which
it reads outside the array: `bucket` is an `int`, and wraps around. -/
def iterLoop (h : Heap K V) (self : NcHashmap K V) :
    ℕ → Int32 → Option ℕ → Option (Except Int32 (Option ℕ × Int32))
  | 0, _, _ => none
  | fuel + 1, bucket, none =>
    if (bucket + 1).toInt > self.nBuckets - 1 then some (.ok (none, bucket + 1))
    else if (bucket + 1).toInt < 0 then some (.error (bucket + 1))
    else
      let item := self.buckets + (bucket + 1).toInt.toNat
      if (h.cell item).occ then some (.ok (some item, bucket + 1))
      else iterLoop h self fuel (bucket + 1) (h.next item)
  | fuel + 1, bucket, some item =>
    if bucket.toInt ≥ self.nBuckets ∧ h.next item = none then some (.ok (none, bucket))
    else if (h.cell item).occ then some (.ok (some item, bucket))
    else iterLoop h self fuel bucket (h.next item)

/-- `nc_hashmap_iter_next`: the key and the value if it returns `true`. -/
def ncHashmapIterNext (h : Heap K V) (self : NcHashmap K V) (iter : NcHashmapIter) :
    Option (Except Int32 (Option (K × V) × NcHashmapIter)) :=
  (iterLoop h self ((self.nBuckets + 1) * (h.brk + 1) + 1) iter.bucket iter.item).map fun
    | .error index => .error index
    | .ok (none, bucket) => .ok (none, { iter with bucket })
    | .ok (some item, bucket) =>
      .ok (some ((h.cell item).hash, (h.cell item).value), ⟨bucket, h.next item⟩)

/-! ## Integer keys -/

/-- `nc_simple_hash`, on the pointer as a number. -/
def ncSimpleHash (source : UInt64) : UInt32 := source.toUInt32

/-- `nc_simple_compare` -/
def ncSimpleCompare (l r : UInt64) : Bool := l == r

theorem ncSimpleCompare_equivalence : Equivalence fun l r ↦ ncSimpleCompare l r = true :=
  ⟨fun _ ↦ beq_self_eq_true _, fun h ↦ beq_iff_eq.mpr (beq_iff_eq.mp h).symm,
    fun h h' ↦ beq_iff_eq.mpr ((beq_iff_eq.mp h).trans (beq_iff_eq.mp h'))⟩

/-! ## String keys -/

/-- A string of C, without its terminating NUL. -/
abbrev Bytes := List UInt8

/-- The bytes of an ASCII literal. -/
def bytes (s : String) : Bytes := s.toList.map fun c ↦ c.toNat.toUInt8

/-- A `char *`: `NULL`, or an address together with the string that starts there. -/
inductive StrPtr where
  | null
  | ptr (addr : ℕ) (str : Bytes)
  deriving DecidableEq

instance : Zero StrPtr := ⟨.null⟩

/-- One step of DJB's hash function; a `signed char` is sign-extended by the cast. -/
def djbStep (hash : UInt32) (c : UInt8) : UInt32 :=
  (hash <<< 5) + hash + c.toInt8.toInt32.toUInt32

/-- `nc_string_hash`. The source dereferences a `NULL` key; nothing hands it one. -/
def ncStringHash : StrPtr → UInt32
  | .null => 5381
  | .ptr _ str => str.foldl djbStep 5381

/-- `nc_string_compare` -/
def ncStringCompare : StrPtr → StrPtr → Bool
  | .ptr _ l, .ptr _ r => decide (l = r)
  | _, _ => false

end ClrDebugInfo
