import ClrDebugInfo.Nica.Membership

/-!
# Who owns a key or a value

With `key_free` and `value_free` set, a put hands its key and its value over to the map, a steal
hands them back, and a removal, a replacement or `nc_hashmap_free` frees them. The books of a run
list what was handed over and what was stolen; the heap has the log of the frees.

A put of the very pointer that the map holds hands over the value alone: the map owns that key
already. Nothing else is assumed of the pointers that are put, so one may be handed over again after
it was freed, as `malloc` would reuse an address. Per pointer the books balance if what was freed,
what was stolen and what the map holds together are what was handed over: then nothing that the map
holds has been freed since (`Balanced.notMem_freed`), and all of it is freed once in the end.
-/

namespace ClrDebugInfo

open LinkedChain Runs

variable {K V : Type} [Zero K] [Zero V] [DecidableEq K] [DecidableEq V]

/-! ## The books -/

/-- The map has an entry with this very pointer. -/
def storesPointer (h : Heap K V) (map : NcHashmap K V) (key : K) : Bool :=
  (bucketAddrs map.buckets map.nBuckets).any fun bucket ↦
    (scan h.next (fun a ↦ (h.cell a).occ && decide ((h.cell a).hash = key)) (fun _ _ ↦ ())
      (h.brk + 1) (some bucket) ()).any fun r ↦ r.1.isSome

/-- The key and the value of a cell. -/
def cellPointers (h : Heap K V) (a : ℕ) : List (K ⊕ V) :=
  [.inl (h.cell a).hash, .inr (h.cell a).value]

/-- What a call hands over. -/
def handedBy (s : Heap K V × NcHashmap K V) : MapAct K V → List (K ⊕ V)
  | .put key value => if storesPointer s.1 s.2 key then [.inr value] else [.inl key, .inr value]
  | _ => []

/-- What a call takes back. -/
def stolenBy (s : Heap K V × NcHashmap K V) : MapAct K V → List (K ⊕ V)
  | .steal key =>
    match ncHashmapGetEntry s.1 s.2 key with
    | some (some row) => if (s.1.cell row).occ then cellPointers s.1 row else []
    | _ => []
  | _ => []

/-- A map and its books. -/
structure Books (K V : Type) where
  mem : Heap K V × NcHashmap K V
  handed : List (K ⊕ V)
  stolen : List (K ⊕ V)

/-- A call, and its entries in the books. -/
def bookStep (alloc : ℕ → Bool) (s : Books K V) (a : MapAct K V) : Option (Books K V) :=
  (mapStep alloc s.mem a).map fun mem ↦
    ⟨mem, s.handed ++ handedBy s.mem a, s.stolen ++ stolenBy s.mem a⟩

/-- The books of a new map. -/
def Books.start (mem : Heap K V × NcHashmap K V) : Books K V := ⟨mem, [], []⟩

/-- The keys and the values that the map holds. -/
def held (h : Heap K V) (n : ℕ) (chains : ℕ → List ℕ) : List (K ⊕ V) :=
  (entries h n chains).flatMap (cellPointers h)

/-- How often `x` is in a list. -/
def times (x : K ⊕ V) (l : List (K ⊕ V)) : ℕ := l.countP fun y ↦ x = y

/-- Every time `x` was handed over, it was freed or stolen since, or the map holds it. -/
def Balanced (x : K ⊕ V) (s : Books K V) : Prop :=
  ∃ chains, HasChains s.mem.1 s.mem.2 chains ∧
    times x s.mem.1.freed + times x s.stolen + times x (held s.mem.1 s.mem.2.nBuckets chains) =
      times x s.handed

/-- If the map is destroyed now, `x` has been freed or stolen as often as it was handed over. -/
def Settled (x : K ⊕ V) (s : Books K V) : Prop :=
  ∃ h', ncHashmapFree s.mem.1 s.mem.2 = some h' ∧
    times x h'.freed + times x s.stolen = times x s.handed

/-- A put is of a pointer that the map does not have, or replaces the entry that has it. -/
def NewOrReplaced (s : Books K V) : MapAct K V → Prop
  | .put key _ => storesPointer s.mem.1 s.mem.2 key = true → s.mem.2.compare key key = true
  | _ => True

/-- The call is not the replacement of the key `x`, and no removal that stops at an unoccupied cell
if `x` is the `NULL` that such a cell holds. -/
def NoFault (x : K ⊕ V) (s : Books K V) : MapAct K V → Prop
  | .put key _ => x = .inl key → storesPointer s.mem.1 s.mem.2 key = false
  | .remove key => x = .inl 0 ∨ x = .inr 0 → ¬Hidden s.mem key
  | .steal _ => True

/-! ## What a table holds -/

variable {s s' : Heap K V × NcHashmap K V} {d d' : Multiset (K × V)} {key : K}

/-- The keys and the values of a multiset of bindings. -/
def pointers (d : Multiset (K × V)) : Multiset (K ⊕ V) :=
  d.bind fun e ↦ (([.inl e.1, .inr e.2] : List (K ⊕ V)) : Multiset (K ⊕ V))

omit [Zero K] [Zero V] in
private theorem times_append (x : K ⊕ V) (l l' : List (K ⊕ V)) :
    times x (l ++ l') = times x l + times x l' := List.countP_append

omit [Zero K] [Zero V] in
private theorem times_cons (x y : K ⊕ V) (l : List (K ⊕ V)) :
    times x (y :: l) = times x l + if x = y then 1 else 0 := by
  rw [times, times, List.countP_cons]
  simp only [decide_eq_true_eq]

omit [Zero K] [Zero V] in
private theorem times_nil (x : K ⊕ V) : times x [] = 0 := rfl

omit [Zero K] [Zero V] in
private theorem count_pointers_cons (x : K ⊕ V) (key : K) (value : V) (d : Multiset (K × V)) :
    (pointers ((key, value) ::ₘ d)).countP (x = ·) =
      times x [.inl key, .inr value] + (pointers d).countP (x = ·) := by
  rw [pointers, Multiset.cons_bind, Multiset.countP_add, Multiset.coe_countP]
  rfl

omit [Zero K] [Zero V] [DecidableEq K] [DecidableEq V] in
private theorem pointers_content (h : Heap K V) (n : ℕ) (chains : ℕ → List ℕ) :
    pointers (content h n chains) = (held h n chains : Multiset (K ⊕ V)) := by
  rw [content_eq_entries, pointers, Multiset.coe_bind, List.flatMap_map, held]
  rfl

omit [DecidableEq V] in
theorem TableOf.storesPointer_iff (hs : TableOf s d) (key : K) :
    storesPointer s.1 s.2 key = true ↔ ∃ e ∈ d, e.1 = key := by
  obtain ⟨chains, B, rfl⟩ := hs
  have hscan : ∀ i < s.2.nBuckets, ((scan s.1.next
      (fun a ↦ (s.1.cell a).occ && decide ((s.1.cell a).hash = key)) (fun _ _ ↦ ()) (s.1.brk + 1)
      (some (s.2.buckets + i)) ()).any fun r ↦ r.1.isSome) = true ↔
        ∃ a ∈ chains i, (s.1.cell a).occ = true ∧ (s.1.cell a).hash = key := by
    intro i hi
    rw [scan_eq_scanList (B.chain i hi) (B.length_lt hi), Option.any_some, scanList_fst,
      List.find?_isSome]
    simp
  rw [storesPointer, List.any_eq_true]
  simp only [bucketAddrs, List.mem_map, List.mem_range]
  constructor
  · rintro ⟨_, ⟨i, hi, rfl⟩, hany⟩
    obtain ⟨a, ha, ho, hkey⟩ := (hscan i hi).mp hany
    exact ⟨_, mem_content.mpr ⟨i, hi, mem_bindings.mpr ⟨a, ha, ho, rfl⟩⟩, hkey⟩
  · rintro ⟨e, he, hkey⟩
    obtain ⟨i, hi, he⟩ := mem_content.mp he
    obtain ⟨a, ha, ho, rfl⟩ := mem_bindings.mp he
    exact ⟨_, ⟨i, hi, rfl⟩, (hscan i hi).mpr ⟨a, ha, ho, hkey⟩⟩

/-! ## What a call does to the books -/

/-- A table with both free functions, and no pointer twice. -/
structure Keeps (s : Books K V) (d : Multiset (K × V)) : Prop where
  table : TableOf s.mem d
  keyFree : s.mem.2.keyFree = true
  valueFree : s.mem.2.valueFree = true
  nodup : (d.map Prod.fst).Nodup

variable {alloc : ℕ → Bool} {b b' : Books K V} {x : K ⊕ V}

omit [DecidableEq K] [DecidableEq V] in
theorem Keeps.of_same (hk : Keeps b d) (hs : TableOf b'.mem d')
    (hsame : SameFunctions b.mem.2 b'.mem.2) (hnodup : (d'.map Prod.fst).Nodup) : Keeps b' d' :=
  ⟨hs, hsame.keyFree.trans hk.keyFree, hsame.valueFree.trans hk.valueFree, hnodup⟩

/-- The books are out of balance for `x` by `f`. -/
def Excess (x : K ⊕ V) (s : Books K V) (d : Multiset (K × V)) (f : ℕ) : Prop :=
  times x s.mem.1.freed + times x s.stolen + (pointers d).countP (x = ·) = times x s.handed + f

/-- **A put.** It is a fault for the key that it replaces. -/
theorem Keeps.put (halloc : ∀ k, alloc k = true) (hk : Keeps b d) {value : V}
    (hforward : LinksForward b.mem (.put key value)) (hnew : NewOrReplaced b (.put key value))
    {f : ℕ} (hx : Excess x b d f) :
    ∃ b' d' f', bookStep alloc b (.put key value) = some b' ∧ Keeps b' d' ∧
      Excess x b' d' (f + f') ∧ (f' = 0 ↔ NoFault x b (.put key value)) := by
  obtain ⟨ok, s', d', hrun, hs', E, hsame, -⟩ := hk.table.put alloc value hforward
  have hstep : bookStep alloc b (.put key value) =
      some ⟨s', b.handed ++ handedBy b.mem (.put key value), b.stolen ++ []⟩ := by
    rw [bookStep, mapStep, hrun]
    rfl
  have hstores := hk.table.storesPointer_iff key
  generalize hfreed : s'.1.freed = freed' at E
  cases E with
  | inserted hnone =>
    have hnot : ∀ e ∈ d, e.1 ≠ key :=
      fun e he hkey ↦ hnone (hnew (hstores.mpr ⟨e, he, hkey⟩)) e he hkey
    have hfresh : storesPointer b.mem.1 b.mem.2 key = false := by
      rw [← Bool.not_eq_true, hstores]
      rintro ⟨e, he, hkey⟩
      exact hnot e he hkey
    have hnodup : (((key, value) ::ₘ d).map Prod.fst).Nodup := by
      rw [Multiset.map_cons, Multiset.nodup_cons]
      refine ⟨fun hmem ↦ ?_, hk.nodup⟩
      obtain ⟨e, he, hkey⟩ := Multiset.mem_map.mp hmem
      exact hnot e he hkey
    refine ⟨_, _, 0, hstep, hk.of_same hs' hsame hnodup, ?_, iff_of_true rfl fun _ ↦ hfresh⟩
    rw [Excess] at hx ⊢
    simp only [count_pointers_cons, hfreed, handedBy, hfresh, if_neg Bool.false_ne_true,
      List.append_nil, times_append]
    omega
  | @replaced e d₀ hkey hd _ =>
    have hthere : storesPointer b.mem.1 b.mem.2 key = true :=
      hstores.mpr ⟨(key, e.value), hd ▸ Multiset.mem_cons_self _ _, rfl⟩
    have hnodup : (((key, value) ::ₘ d₀).map Prod.fst).Nodup := by
      have hnodup := hk.nodup
      rw [hd, Multiset.map_cons] at hnodup
      rwa [Multiset.map_cons]
    have hfrees : replaceFrees b.mem.2 e = [.inr e.value, .inl key] := by
      rw [replaceFrees, hk.keyFree, hk.valueFree, hkey]
      rfl
    refine ⟨_, _, if x = .inl key then 1 else 0, hstep, hk.of_same hs' hsame hnodup, ?_, ?_⟩
    · rw [Excess, hd, count_pointers_cons] at hx
      rw [Excess]
      simp only [count_pointers_cons, hfreed, hfrees, handedBy, hthere, if_true,
        List.append_nil, times_append, times_cons, times_nil] at hx ⊢
      omega
    · rw [NoFault, hthere]
      simp
  | refused _ hwhy =>
    rcases hwhy with ⟨k, hno⟩ | hdup
    · rw [halloc k] at hno
      exact absurd hno (by simp)
    · exact absurd hk.nodup hdup

omit [DecidableEq K] [DecidableEq V] in
theorem Keeps.of_remove (hk : Keeps b d) {remove ok : Bool} {row : Option ℕ}
    (hs : TableOf b'.mem d') (E : RemoveEffect b.mem d remove row ok b'.mem d')
    (hsame : SameFunctions b.mem.2 b'.mem.2) : Keeps b' d' := by
  refine hk.of_same hs hsame ?_
  generalize b'.mem = s' at E
  cases E with
  | absent => exact hk.nodup
  | removed _ hd _ _ =>
    have hnodup := hk.nodup
    rw [hd, Multiset.map_cons, Multiset.nodup_cons] at hnodup
    exact hnodup.2
  | hidden => exact hk.nodup

omit [DecidableEq K] [DecidableEq V] in
theorem Keeps.removeFrees (hk : Keeps b d) (e : NcHashmapEntry K V) :
    removeFrees b.mem.2 e = [.inl e.hash, .inr e.value] := by
  rw [ClrDebugInfo.removeFrees, hk.keyFree, hk.valueFree]
  rfl

/-- **A removal.** It is a fault for `NULL` if it stops at an unoccupied cell. -/
theorem Keeps.remove (hk : Keeps b d) (key : K) {f : ℕ} (hx : Excess x b d f) :
    ∃ b' d' f', bookStep alloc b (.remove key) = some b' ∧ Keeps b' d' ∧
      Excess x b' d' (f + f') ∧ (f' = 0 ↔ NoFault x b (.remove key)) := by
  obtain ⟨row, ok, s', d', hget, hrun, hs', E, hsame⟩ := hk.table.remove key true
  have hstep : bookStep alloc b (.remove key) = some ⟨s', b.handed ++ [], b.stolen ++ []⟩ := by
    rw [bookStep, mapStep, ncHashmapRemove, hrun]
    rfl
  have hhidden := hk.table.hidden_iff key
  have hk' : Keeps ⟨s', b.handed ++ [], b.stolen ++ []⟩ d' := hk.of_remove hs' E hsame
  rw [hget] at hhidden
  rw [Excess] at hx
  cases E with
  | absent =>
    refine ⟨_, _, 0, hstep, hk', ?_, iff_of_true rfl fun _ hh ↦ ?_⟩
    · rw [Excess]
      simp only [List.append_nil]
      omega
    · obtain ⟨row, hrow, -⟩ := hhidden.mp hh
      exact absurd hrow (by simp)
  | @removed row _ _ hocc hd hfreed _ =>
    refine ⟨_, _, 0, hstep, hk', ?_, iff_of_true rfl fun _ hh ↦ ?_⟩
    · rw [hd, count_pointers_cons] at hx
      rw [Excess]
      simp only [hfreed, hk.removeFrees, if_true, List.append_nil, times_append]
      omega
    · obtain ⟨row', hrow, hocc'⟩ := hhidden.mp hh
      obtain rfl := Option.some.inj (Option.some.inj hrow)
      rw [hocc] at hocc'
      exact absurd hocc' (by simp)
  | @hidden row _ hocc hzero hfreed _ =>
    refine ⟨_, _, times x [.inl 0, .inr 0], hstep, hk', ?_, ?_⟩
    · rw [Excess]
      simp only [hfreed, hk.removeFrees, hzero.1, hzero.2, if_true, List.append_nil, times_append]
      omega
    · have hh : Hidden b.mem key := hhidden.mpr ⟨row, rfl, hocc⟩
      rw [NoFault, times_cons, times_cons, times_nil]
      by_cases hkey : x = .inl 0 <;> by_cases hvalue : x = .inr 0 <;> simp [hkey, hvalue, hh]

/-- **A steal.** -/
theorem Keeps.steal (hk : Keeps b d) (key : K) {f : ℕ} (hx : Excess x b d f) :
    ∃ b' d', bookStep alloc b (.steal key) = some b' ∧ Keeps b' d' ∧ Excess x b' d' f := by
  obtain ⟨row, ok, s', d', hget, hrun, hs', E, hsame⟩ := hk.table.remove key false
  have hstep : bookStep alloc b (.steal key) =
      some ⟨s', b.handed ++ [], b.stolen ++ stolenBy b.mem (.steal key)⟩ := by
    rw [bookStep, mapStep, ncHashmapSteal, hrun]
    rfl
  have hk' : Keeps ⟨s', b.handed ++ [], b.stolen ++ stolenBy b.mem (.steal key)⟩ d' :=
    hk.of_remove hs' E hsame
  refine ⟨_, _, hstep, hk', ?_⟩
  rw [Excess] at hx ⊢
  rw [stolenBy, hget]
  cases E with
  | absent =>
    simp only [List.append_nil]
    omega
  | removed hocc hd hfreed _ =>
    rw [hd, count_pointers_cons] at hx
    simp only [hfreed, hocc, if_true, if_neg Bool.false_ne_true, List.append_nil, times_append,
      cellPointers]
    omega
  | hidden hocc _ hfreed _ =>
    simp only [hfreed, hocc, if_neg Bool.false_ne_true, List.append_nil]
    omega

omit [Zero K] [Zero V] [DecidableEq K] [DecidableEq V] in
private theorem flatMap_nukeFrees {h : Heap K V} {map : NcHashmap K V} (hkey : map.keyFree = true)
    (hvalue : map.valueFree = true) (l : List ℕ) :
    (l.flatMap fun a ↦ nukeFrees map (h.cell a)) =
      (l.filter fun a ↦ (h.cell a).occ).flatMap (cellPointers h) := by
  induction l with
  | nil => rfl
  | cons a l ih =>
    rw [List.flatMap_cons, ih, nukeFrees, hkey, hvalue]
    cases hocc : (h.cell a).occ with
    | true =>
      rw [List.filter_cons_of_pos (by simpa using hocc)]
      rfl
    | false =>
      rw [List.filter_cons_of_neg (by simpa using hocc)]
      rfl

omit [DecidableEq K] [DecidableEq V] in
/-- **Destruction.** Everything that the map holds is freed once. -/
theorem Keeps.free (hk : Keeps b d) : ∃ h' chains, ncHashmapFree b.mem.1 b.mem.2 = some h' ∧
    HasChains b.mem.1 b.mem.2 chains ∧
    h'.freed = b.mem.1.freed ++ held b.mem.1 b.mem.2.nBuckets chains ∧
    pointers d = (held b.mem.1 b.mem.2.nBuckets chains : Multiset (K ⊕ V)) := by
  obtain ⟨chains, B, rfl⟩ := hk.table
  obtain ⟨h', hrun, -, hfreed⟩ : ∃ h', ncHashmapFree b.mem.1 b.mem.2 = some h' ∧
      h'.cell = b.mem.1.cell ∧ h'.freed = b.mem.1.freed ++
        ((List.range b.mem.2.nBuckets).flatMap chains).flatMap fun a ↦
          nukeFrees b.mem.2 (b.mem.1.cell a) :=
    B.freeBuckets_nuke b.mem.2 fun i hi ↦ List.mem_range.mp hi
  rw [flatMap_nukeFrees hk.keyFree hk.valueFree] at hfreed
  exact ⟨h', chains, hrun, B.hasChains, hfreed, pointers_content _ _ _⟩

theorem Keeps.settled_iff (hk : Keeps b d) {f : ℕ} (hx : Excess x b d f) :
    Settled x b ↔ f = 0 := by
  obtain ⟨h', chains, hrun, -, hfreed, hheld⟩ := hk.free
  have htimes : (pointers d).countP (x = ·) = times x (held b.mem.1 b.mem.2.nBuckets chains) := by
    rw [hheld, Multiset.coe_countP]
    rfl
  rw [Excess, htimes] at hx
  constructor
  · rintro ⟨h'', hrun', hsettled⟩
    obtain rfl := Option.some.inj (hrun.symm.trans hrun')
    rw [hfreed, times_append] at hsettled
    omega
  · rintro rfl
    refine ⟨h', hrun, ?_⟩
    rw [hfreed, times_append]
    omega

theorem Keeps.balanced (hk : Keeps b d) (hx : Excess x b d 0) : Balanced x b := by
  obtain ⟨h', chains, -, H, -, hheld⟩ := hk.free
  refine ⟨chains, H, ?_⟩
  rw [Excess, hheld, Multiset.coe_countP] at hx
  exact hx

omit [Zero K] [Zero V] in
/-- What was handed over once and is in the map has not been freed. -/
theorem Balanced.notMem_freed (hb : Balanced x b) {chains : ℕ → List ℕ}
    (H : HasChains b.mem.1 b.mem.2 chains) (honce : times x b.handed ≤ 1)
    (hheld : x ∈ held b.mem.1 b.mem.2.nBuckets chains) : x ∉ b.mem.1.freed := by
  obtain ⟨chains', H', hb⟩ := hb
  have hsame : (List.range b.mem.2.nBuckets).flatMap chains' =
      (List.range b.mem.2.nBuckets).flatMap chains := by
    rw [List.flatMap_def, List.flatMap_def,
      List.map_congr_left fun i hi ↦ H.unique H' (List.mem_range.mp hi)]
  rw [held, entries, hsame, ← entries, ← held] at hb
  have hmany : ∀ {l : List (K ⊕ V)}, x ∈ l → 0 < times x l :=
    fun h ↦ List.countP_pos_iff.mpr ⟨x, h, decide_eq_true rfl⟩
  intro hfreed
  have := hmany hfreed
  have := hmany hheld
  omega

/-- **A call.** -/
theorem Keeps.step (halloc : ∀ k, alloc k = true) (hk : Keeps b d) {a : MapAct K V}
    (hforward : LinksForward b.mem a) (hnew : NewOrReplaced b a) {f : ℕ} (hx : Excess x b d f) :
    ∃ b' d' f', bookStep alloc b a = some b' ∧ Keeps b' d' ∧ Excess x b' d' (f + f') ∧
      (f' = 0 ↔ NoFault x b a) := by
  match a with
  | .put key value => exact hk.put halloc hforward hnew hx
  | .remove key => exact hk.remove key hx
  | .steal key =>
    obtain ⟨b', d', hstep, hk', hx'⟩ := hk.steal key hx
    exact ⟨b', d', 0, hstep, hk', hx', iff_of_true rfl trivial⟩

/-! ## Runs -/

variable {mem : Heap K V × NcHashmap K V} {acts : List (MapAct K V)}

omit [DecidableEq V] in
theorem Created.booksEnd_iff (hs : Created alloc mem) :
    (∀ before, before <+: acts →
      ∃ t, run (bookStep alloc) (Books.start mem) before = some t ∧ ChainsEnd t.mem) ↔
    AllSteps (bookStep alloc) (fun t a ↦ LinksForward t.mem a) (Books.start mem) acts := by
  symm
  refine allSteps_iff_of_invariant (I := fun t : Books K V ↦ IsTable t.mem) hs.isTable
    (fun t a hI hC ↦ ?_) (fun t hI ↦ hI.chainsEnd) fun t a t' hI hC hstep ↦ ?_
  · obtain ⟨mem', hrun, hI'⟩ := IsTable.step alloc hI hC
    exact ⟨_, by rw [bookStep, hrun, Option.map_some], hI'⟩
  · obtain ⟨mem', hrun, rfl⟩ := Option.map_eq_some_iff.mp hstep
    exact hI.not_chainsEnd hC hrun

/-- **Ownership.** Take a run of a new map with both free functions, and a pointer `x`. After any
part of the run the books balance for `x`, and so they do if the map is destroyed then, exactly if
no put of the run replaces the key `x`, and no removal stops at an unoccupied cell if `x` is
`NULL`. -/
theorem ownership_iff (hs : Created alloc mem) (halloc : ∀ k, alloc k = true)
    (hkeyFree : mem.2.keyFree = true) (hvalueFree : mem.2.valueFree = true)
    (hfreed : mem.1.freed = [])
    (hends : ∀ before, before <+: acts →
      ∃ t, run (bookStep alloc) (Books.start mem) before = some t ∧ ChainsEnd t.mem)
    (hnew : AllSteps (bookStep alloc) NewOrReplaced (Books.start mem) acts) (x : K ⊕ V) :
    (∀ before, before <+: acts → ∃ t, run (bookStep alloc) (Books.start mem) before = some t ∧
        Balanced x t ∧ Settled x t) ↔
      AllSteps (bookStep alloc) (NoFault x) (Books.start mem) acts := by
  obtain ⟨chains, B, -, hd⟩ := hs.holds.table
  have hk : Keeps (Books.start mem) 0 := by
    refine ⟨⟨chains, B, hd⟩, hkeyFree, hvalueFree, ?_⟩
    rw [Multiset.map_zero]
    exact Multiset.nodup_zero
  have hx : Excess x (Books.start mem) 0 0 := by
    rw [Excess, Books.start, hfreed]
    rfl
  refine (((hs.booksEnd_iff.mp hends).and hnew).iff_of_invariant
    (I := fun t ↦ ∃ d, Keeps t d ∧ Excess x t d 0) ⟨0, hk, hx⟩ ?_ ?_ ?_).symm
  · rintro t a ⟨d, hk, hx⟩ ⟨hforward, hnew⟩ hC
    obtain ⟨t', d', f, hstep, hk', hx', hf⟩ := hk.step halloc hforward hnew hx
    obtain rfl := hf.mpr hC
    exact ⟨t', hstep, d', hk', hx'⟩
  · rintro t ⟨d, hk, hx⟩
    exact ⟨hk.balanced hx, (hk.settled_iff hx).mpr rfl⟩
  · rintro t a t' ⟨d, hk, hx⟩ ⟨hforward, hnew⟩ hC hstep ⟨-, hsettled⟩
    obtain ⟨t₁, d', f, hstep', hk', hx', hf⟩ := hk.step halloc hforward hnew hx
    obtain rfl := Option.some.inj (hstep'.symm.trans hstep)
    have hzero := (hk'.settled_iff hx').mp hsettled
    exact hC (hf.mp (by omega))

/-- An integer that is put and removed again. -/
theorem ownership_iff_putRemove : ∃ mem : Heap UInt64 UInt64 × NcHashmap UInt64 UInt64,
    Created (fun _ ↦ true) mem ∧
      ((∀ before, before <+: [.put 1 10, .remove 1] →
          ∃ t, run (bookStep fun _ ↦ true) (Books.start mem) before = some t ∧
            Balanced (.inl 1) t ∧ Settled (.inl 1) t) ↔
        AllSteps (bookStep fun _ ↦ true) (NoFault (.inl 1)) (Books.start mem)
          [.put 1 10, .remove 1]) := by
  obtain ⟨mem, hs, hkey, hvalue, hfreed, hcompare⟩ :
      ∃ mem : Heap UInt64 UInt64 × NcHashmap UInt64 UInt64, Created (fun _ ↦ true) mem ∧
        mem.2.keyFree = true ∧ mem.2.valueFree = true ∧ mem.1.freed = [] ∧
        mem.2.compare = ncSimpleCompare :=
    ⟨(_, _), ⟨Heap.empty, ncSimpleHash, ncSimpleCompare, Or.inr ⟨true, true, rfl⟩⟩, rfl, rfl, rfl,
      rfl⟩
  refine ⟨mem, hs, ownership_iff hs (fun _ ↦ rfl) hkey hvalue hfreed ?_ ?_ (.inl 1)⟩
  · exact hs.booksEnd_iff.mpr ⟨hs.linksForward 1 10, fun _ _ ↦ ⟨trivial, fun _ _ ↦ trivial⟩⟩
  · refine ⟨fun _ ↦ ?_, fun _ _ ↦ ⟨trivial, fun _ _ ↦ trivial⟩⟩
    rw [Books.start, hcompare]
    rfl

/-- The value of a key is replaced: the map has freed the key that it holds, and frees it again when
it is destroyed. -/
theorem not_balanced_replaced : ∃ (mem : Heap UInt64 UInt64 × NcHashmap UInt64 UInt64)
    (t : Books UInt64 UInt64) (h' : Heap UInt64 UInt64), Created (fun _ ↦ true) mem ∧
      mem.2.keyFree = true ∧ mem.2.valueFree = true ∧ mem.1.freed = [] ∧
      AllSteps (bookStep fun _ ↦ true) NewOrReplaced (Books.start mem) [.put 1 10, .put 1 20] ∧
      run (bookStep fun _ ↦ true) (Books.start mem) [.put 1 10, .put 1 20] = some t ∧
      ChainsEnd t.mem ∧ storesPointer t.mem.1 t.mem.2 1 = true ∧ .inl 1 ∈ t.mem.1.freed ∧
      ncHashmapFree t.mem.1 t.mem.2 = some h' ∧ times (.inl 1) t.handed = 1 ∧
      t.stolen = [] ∧ times (.inl 1) h'.freed = 2 ∧ ¬Settled (.inl 1) t := by
  obtain ⟨mem, t, h', hs, hkey, hvalue, hnone, hcompare₀, hcompare, hrun, hn, hnext, hstores,
      hfreed, hfree, hhanded, hstolen, htwice⟩ :
      ∃ (mem : Heap UInt64 UInt64 × NcHashmap UInt64 UInt64)
        (t : Books UInt64 UInt64) (h' : Heap UInt64 UInt64), Created (fun _ ↦ true) mem ∧
        mem.2.keyFree = true ∧ mem.2.valueFree = true ∧ mem.1.freed = [] ∧
        mem.2.compare = ncSimpleCompare ∧
        (∀ s, bookStep (fun _ ↦ true) (Books.start mem) (.put 1 10) = some s →
          s.mem.2.compare = ncSimpleCompare) ∧
        run (bookStep fun _ ↦ true) (Books.start mem) [.put 1 10, .put 1 20] = some t ∧
        t.mem.2.nBuckets = 61 ∧ (∀ i < 61, t.mem.1.next (t.mem.2.buckets + i) = none) ∧
        storesPointer t.mem.1 t.mem.2 1 = true ∧ t.mem.1.freed = [.inr 10, .inl 1] ∧
        ncHashmapFree t.mem.1 t.mem.2 = some h' ∧ times (.inl 1) t.handed = 1 ∧
        t.stolen = [] ∧ times (.inl 1) h'.freed = 2 :=
    ⟨(_, _), _, _, ⟨Heap.empty, ncSimpleHash, ncSimpleCompare, Or.inr ⟨true, true, rfl⟩⟩, rfl, rfl,
      rfl, rfl, by rintro _ ⟨⟩; rfl, rfl, rfl, by decide +kernel, rfl, rfl, rfl, rfl, rfl, rfl⟩
  refine ⟨mem, t, h', hs, hkey, hvalue, hnone, ?_, hrun, fun i hi ↦ ?_, hstores, ?_, hfree, hhanded,
    hstolen, htwice, ?_⟩
  · refine ⟨fun _ ↦ ?_, fun s hstep ↦ ⟨fun _ ↦ ?_, fun _ _ ↦ trivial⟩⟩
    · rw [Books.start, hcompare₀]
      rfl
    · rw [hcompare s hstep]
      rfl
  · rw [hn] at hi
    exact ⟨[_], rfl, hnext i hi⟩
  · rw [hfreed]
    exact List.mem_cons_of_mem _ List.mem_cons_self
  · rintro ⟨h'', hfree', hsettled⟩
    obtain rfl := Option.some.inj (hfree.symm.trans hfree')
    rw [htwice, hstolen, hhanded] at hsettled
    exact absurd hsettled (by decide)

end ClrDebugInfo
