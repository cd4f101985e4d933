import Mathlib.Data.Finset.Image
import Mathlib.Data.UInt
import ClrDebugInfo.Library.Runs
import ClrDebugInfo.Nica.Growth

/-!
# Putting a key twice

The header of the map says that a put displaces duplicate keys and returns `true` if it succeeded.
The insertion compares pointers before it asks `compare`. So a key that is put again as the same
pointer does displace its value, but the put returns `false`; and a key that is put again as another
pointer is stored a second time, behind the first entry, where no lookup will find it.

For a `compare` that is an equivalence, the keys of the map are pointers, and what a caller sees
are their classes. The two agree as long as no class has two pointers.
-/

namespace ClrDebugInfo

open Runs

variable {K V : Type} [DecidableEq K]

/-! ## Classes of keys -/

/-- The keys put. -/
def putKeys (puts : List (K × V)) : Finset K := (puts.map Prod.fst).toFinset

omit [DecidableEq K] in
open Classical in
/-- How many keys there are, if equal ones are counted once. -/
noncomputable def classCount (E : Setoid K) (keys : Finset K) : ℕ :=
  (keys.image (Quotient.mk E)).card

theorem mem_putKeys {puts : List (K × V)} {k : K} : k ∈ putKeys puts ↔ ∃ e ∈ puts, e.1 = k := by
  rw [putKeys, List.mem_toFinset, List.mem_map]

private theorem putKeys_concat (puts : List (K × V)) (k : K) (v : V) :
    putKeys (puts ++ [(k, v)]) = insert k (putKeys puts) := by
  ext x
  simp only [mem_putKeys, List.mem_append, List.mem_singleton, Finset.mem_insert]
  constructor
  · rintro ⟨e, he | rfl, rfl⟩
    · exact Or.inr ⟨e, he, rfl⟩
    · exact Or.inl rfl
  · rintro (rfl | ⟨e, he, rfl⟩)
    · exact ⟨_, Or.inr rfl, rfl⟩
    · exact ⟨e, Or.inl he, rfl⟩

omit [DecidableEq K] in
private theorem classCount_eq_card_iff {E : Setoid K} {keys : Finset K} :
    classCount E keys = keys.card ↔ ∀ a ∈ keys, ∀ b ∈ keys, E a b → a = b := by
  classical
  rw [classCount, Finset.card_image_iff]
  constructor
  · exact fun h a ha b hb hab ↦ h ha hb (Quotient.sound hab)
  · exact fun h a ha b hb hab ↦ h a ha b hb (Quotient.exact hab)

/-! ## Puts -/

variable [Zero K] [Zero V]

/-- One put of a run. -/
def putStep (alloc : ℕ → Bool) (s : Heap K V × NcHashmap K V) (e : K × V) :
    Option (Heap K V × NcHashmap K V) :=
  (ncHashmapPut alloc s.1 s.2 e.1 e.2).map Prod.snd

/-- A put has displaced the value of its key, and nothing else. -/
structure Displaces (E : Setoid K) (past : List (K × V)) (k : K) (v : V)
    (before after : Heap K V × NcHashmap K V) (ok : Bool) : Prop where
  ok : ok = true
  found : ∀ k', E k' k → ncHashmapGet after.1 after.2 k' = some v
  others : ∀ k', ¬E k' k →
    ncHashmapGet after.1 after.2 k' = ncHashmapGet before.1 before.2 k'
  size : ncHashmapSize after.2 = classCount E (putKeys (past ++ [(k, v)]))

variable {alloc : ℕ → Bool} {hash : K → UInt32} {compare : K → K → Bool} {past : List (K × V)}
  {s : Heap K V × NcHashmap K V} {k : K} {v : V}

/-- A map created with `hash` and `compare` that holds the pointers of `past`. -/
structure HoldsKeys (hash : K → UInt32) (compare : K → K → Bool) (past : List (K × V))
    (s : Heap K V × NcHashmap K V) : Prop where
  hash : s.2.hash = hash
  compare : s.2.compare = compare
  holds : ∃ d, Holds s.1 s.2 d ∧ ∀ k, k ∈ d.map Prod.fst ↔ k ∈ putKeys past

theorem HoldsKeys.new (halloc : ∀ k, alloc k = true) (h : Heap K V) (hash : K → UInt32)
    (compare : K → K → Bool) :
    ∃ map h', ncHashmapNew alloc h hash compare = (some map, h') ∧
      HoldsKeys hash compare ([] : List (K × V)) (h', map) := by
  rcases ncHashmapNewFull_spec alloc h hash compare false false with
    ⟨map, h', hrun, hhash, hcmp, H⟩ | ⟨⟨k, hk⟩, -⟩
  · exact ⟨map, h', hrun, hhash, hcmp, 0, H, fun k ↦ by simp [putKeys]⟩
  · rw [halloc k] at hk
    exact absurd hk (by simp)

theorem HoldsKeys.size (hs : HoldsKeys hash compare past s) :
    ncHashmapSize s.2 = (putKeys past).card := by
  obtain ⟨d, H, hd⟩ := hs.holds
  have hkeys : (d.map Prod.fst).toFinset = putKeys past := by
    ext k
    rw [Multiset.mem_toFinset, hd]
  rw [ncHashmapSize, H.size, ← hkeys, Multiset.toFinset_card_of_nodup H.nodup, Multiset.card_map]

theorem HoldsKeys.put_old (halloc : ∀ k, alloc k = true) (hs : HoldsKeys hash compare past s)
    (hrefl : compare k k = true) (hk : k ∈ putKeys past) (v : V) :
    ∃ s', ncHashmapPut alloc s.1 s.2 k v = some (false, s') ∧
      HoldsKeys hash compare (past ++ [(k, v)]) s' := by
  obtain ⟨d, H, hd⟩ := hs.holds
  obtain ⟨⟨k, w⟩, hmem, rfl⟩ := Multiset.mem_map.mp ((hd k).mpr hk)
  obtain ⟨d', rfl⟩ := Multiset.exists_cons_of_mem hmem
  obtain ⟨h', map', hrun, hhash, hcmp, H' | ⟨-, n, hn⟩⟩ :=
    ncHashmapPut_replace alloc v H (hs.compare ▸ hrefl)
  · refine ⟨(h', map'), hrun, hhash.trans hs.hash, hcmp.trans hs.compare, _, H', fun x ↦ ?_⟩
    rw [putKeys_concat, Finset.insert_eq_of_mem hk, ← hd, Multiset.map_cons, Multiset.map_cons]
  · rw [halloc n] at hn
    exact absurd hn (by simp)

theorem HoldsKeys.put_new (halloc : ∀ k, alloc k = true) (hs : HoldsKeys hash compare past s)
    (hk : k ∉ putKeys past) (v : V) :
    ∃ s' d, ncHashmapPut alloc s.1 s.2 k v = some (true, s') ∧
      HoldsKeys hash compare (past ++ [(k, v)]) s' ∧ Holds s.1 s.2 d ∧
      Holds s'.1 s'.2 ((k, v) ::ₘ d) ∧ ∀ e ∈ d, e.1 ∈ putKeys past := by
  obtain ⟨d, H, hd⟩ := hs.holds
  have hmem : ∀ e ∈ d, e.1 ∈ putKeys past := fun e he ↦
    (hd e.1).mp (Multiset.mem_map_of_mem Prod.fst he)
  have hnew : ∀ e ∈ d, e.1 ≠ k := fun e he hc ↦ hk (hc ▸ hmem e he)
  obtain ⟨ok, h', map', hrun, hhash, hcmp, H', hlucky⟩ := ncHashmapPut_spec alloc v H hnew
  cases ok with
  | false =>
    obtain ⟨n, hn⟩ := hlucky rfl
    rw [halloc n] at hn
    exact absurd hn (by simp)
  | true =>
    rw [if_pos rfl] at H'
    refine ⟨(h', map'), d, hrun, ⟨hhash.trans hs.hash, hcmp.trans hs.compare, _, H', fun x ↦ ?_⟩,
      H, H', hmem⟩
    rw [putKeys_concat, Finset.mem_insert, Multiset.map_cons, Multiset.mem_cons, hd]

theorem HoldsKeys.run (halloc : ∀ k, alloc k = true) (hrefl : ∀ k, compare k k = true)
    (hs : HoldsKeys hash compare ([] : List (K × V)) s) (past : List (K × V)) :
    ∃ t, Runs.run (putStep alloc) s past = some t ∧ HoldsKeys hash compare past t := by
  refine run_total (I := HoldsKeys hash compare) (C := fun _ ↦ True) hs (fun _ _ _ ↦ trivial)
    (fun past s e _ hI ↦ ?_) trivial
  by_cases hk : e.1 ∈ putKeys past
  · obtain ⟨s', hrun, hs'⟩ := hI.put_old halloc (hrefl e.1) hk e.2
    exact ⟨s', by rw [putStep, hrun, Option.map_some], hs'⟩
  · obtain ⟨s', d, hrun, hs', -⟩ := hI.put_new halloc hk e.2
    exact ⟨s', by rw [putStep, hrun, Option.map_some], hs'⟩

/-! ## What a put displaces -/

omit [DecidableEq K] in
theorem ncHashmapGet_cons {E : Setoid K} {h h' : Heap K V} {map map' : NcHashmap K V}
    {d : Multiset (K × V)} {k' : K} (H : Holds h map d) (H' : Holds h' map' ((k, v) ::ₘ d))
    (hcmp : ∀ a b, map.compare a b = true ↔ E a b) (hcmp' : map'.compare = map.compare)
    (hhash : ∀ a b, E a b → map.hash a = map.hash b) (hhash' : map'.hash = map.hash)
    (hone : ∀ e ∈ d, ∀ e' ∈ d, E e.1 e'.1 → e.1 = e'.1) (hne : ¬E k' k) :
    ncHashmapGet h' map' k' = ncHashmapGet h map k' := by
  have hcompat : ∀ a, map.compare a k' = true → map.hash a = map.hash k' :=
    fun a ha ↦ hhash a k' ((hcmp a k').mp ha)
  rcases ncHashmapGet_spec H hcompat with ⟨e, he, hek, hrun⟩ | ⟨hnone, hrun⟩
  · rcases ncHashmapGet_spec H' (by rw [hcmp', hhash']; exact hcompat) with
      ⟨e', he', hek', hrun'⟩ | ⟨hnone', -⟩
    · rw [hcmp', hcmp] at hek'
      rw [hcmp] at hek
      rcases Multiset.mem_cons.mp he' with rfl | he'
      · exact absurd (E.symm hek') hne
      · have hfst := hone e' he' e he (E.trans hek' (E.symm hek))
        rw [hrun, hrun', Multiset.inj_on_of_nodup_map H.nodup e' he' e he hfst]
    · have := hnone' e (Multiset.mem_cons_of_mem he)
      rw [hcmp', hek] at this
      exact absurd this (by simp)
  · rcases ncHashmapGet_spec H' (by rw [hcmp', hhash']; exact hcompat) with
      ⟨e', he', hek', hrun'⟩ | ⟨-, hrun'⟩
    · rw [hcmp'] at hek'
      rcases Multiset.mem_cons.mp he' with rfl | he'
      · exact absurd (E.symm ((hcmp k k').mp hek')) hne
      · rw [hnone e' he'] at hek'
        exact absurd hek' (by simp)
    · rw [hrun, hrun']

omit [DecidableEq K] in
private theorem ncHashmapGet_cons_self {E : Setoid K} {h : Heap K V} {map : NcHashmap K V}
    {d : Multiset (K × V)} {k' : K} (H : Holds h map ((k, v) ::ₘ d))
    (hcmp : ∀ a b, map.compare a b = true ↔ E a b) (hhash : ∀ a b, E a b → map.hash a = map.hash b)
    (hone : ∀ e ∈ d, ¬E e.1 k) (hk : E k' k) : ncHashmapGet h map k' = some v := by
  rcases ncHashmapGet_spec H fun a ha ↦ hhash a k' ((hcmp a k').mp ha) with
    ⟨e, he, hek, hget⟩ | ⟨hnone, -⟩
  · rcases Multiset.mem_cons.mp he with rfl | he
    · exact hget
    · exact absurd (E.trans ((hcmp e.1 k').mp hek) hk) (hone e he)
  · have hself := hnone _ (Multiset.mem_cons_self _ _)
    rw [(hcmp k k').mpr (E.symm hk)] at hself
    exact absurd hself (by simp)

/-- The classes of a `compare` that is an equivalence. -/
def compareSetoid (hequiv : Equivalence fun a b ↦ compare a b = true) : Setoid K := ⟨_, hequiv⟩

/-- No key put so far is equal to `k`, and no two pointers put so far are equal. -/
def PutsDistinct (compare : K → K → Bool) (past : List (K × V)) (k : K) : Prop :=
  (∀ e ∈ past, compare e.1 k = false) ∧
    ∀ e ∈ past, ∀ e' ∈ past, compare e.1 e'.1 = true → e.1 = e'.1

omit [Zero K] [Zero V] in
private theorem putsDistinct_iff (hequiv : Equivalence fun a b ↦ compare a b = true)
    (hk : k ∉ putKeys past) (v : V) : PutsDistinct compare past k ↔
      ∀ a ∈ putKeys (past ++ [(k, v)]), ∀ b ∈ putKeys (past ++ [(k, v)]),
        compare a b = true → a = b := by
  have hmem : ∀ e ∈ past, e.1 ∈ putKeys past := fun e he ↦ mem_putKeys.mpr ⟨e, he, rfl⟩
  rw [putKeys_concat]
  simp only [Finset.mem_insert]
  constructor
  · rintro ⟨hnew, hone⟩
    have hold : ∀ a ∈ putKeys past, compare a k = false := by
      rintro a ha
      obtain ⟨e, he, rfl⟩ := mem_putKeys.mp ha
      exact hnew e he
    rintro a (rfl | ha) b (rfl | hb) hab
    · rfl
    · exact absurd (hequiv.symm hab) (by simp [hold b hb])
    · exact absurd hab (by simp [hold a ha])
    · obtain ⟨e, he, rfl⟩ := mem_putKeys.mp ha
      obtain ⟨e', he', rfl⟩ := mem_putKeys.mp hb
      exact hone e he e' he' hab
  · intro h
    refine ⟨fun e he ↦ Bool.eq_false_iff.mpr fun hc ↦ hk ?_, fun e he e' he' hc ↦ ?_⟩
    · exact h e.1 (Or.inr (hmem e he)) k (Or.inl rfl) hc ▸ hmem e he
    · exact h e.1 (Or.inr (hmem e he)) e'.1 (Or.inr (hmem e' he')) hc

/-- **What a put displaces.** After any puts, a put behaves as the header says exactly if its key is
new, and no key has been put as two pointers. -/
theorem ncHashmapPut_displaces_iff (halloc : ∀ n, alloc n = true)
    (hequiv : Equivalence fun a b ↦ compare a b = true)
    (hhash : ∀ a b, compare a b = true → hash a = hash b) (h : Heap K V) (past : List (K × V))
    (k : K) (v : V) :
    ∃ map h' s ok s', ncHashmapNew alloc h hash compare = (some map, h') ∧
      run (putStep alloc) (h', map) past = some s ∧
      ncHashmapPut alloc s.1 s.2 k v = some (ok, s') ∧
      (Displaces (compareSetoid hequiv) past k v s s' ok ↔ PutsDistinct compare past k) := by
  obtain ⟨map, h', hnew, hs₀⟩ := HoldsKeys.new (V := V) halloc h hash compare
  obtain ⟨s, hrun, hs⟩ := hs₀.run halloc hequiv.refl past
  by_cases hk : k ∈ putKeys past
  · obtain ⟨s', hput, -⟩ := hs.put_old halloc (hequiv.refl k) hk v
    refine ⟨map, h', s, false, s', hnew, hrun, hput,
      iff_of_false (fun D ↦ absurd D.ok (by simp)) ?_⟩
    rintro ⟨hne, -⟩
    obtain ⟨e, he, rfl⟩ := mem_putKeys.mp hk
    have := hne e he
    rw [hequiv.refl e.1] at this
    exact absurd this (by simp)
  · obtain ⟨s', d, hput, hs', H, H', hd⟩ := hs.put_new halloc hk v
    refine ⟨map, h', s, true, s', hnew, hrun, hput, ?_⟩
    -- the size is right exactly if no two pointers, the new one included, are equal
    have hsize : ncHashmapSize s'.2 = classCount (compareSetoid hequiv) (putKeys (past ++ [(k, v)]))
        ↔ PutsDistinct compare past k := by
      rw [hs'.size, Nat.cast_inj, eq_comm, classCount_eq_card_iff, putsDistinct_iff hequiv hk v]
      rfl
    have hcmp : ∀ a b, s.2.compare a b = true ↔ compareSetoid hequiv a b := by
      rw [hs.compare]
      exact fun _ _ ↦ Iff.rfl
    have hcompat : ∀ a b, compareSetoid hequiv a b → s.2.hash a = s.2.hash b := by
      rw [hs.hash]
      exact hhash
    have hcmp' : s'.2.compare = s.2.compare := hs'.compare.trans hs.compare.symm
    have hhash' : s'.2.hash = s.2.hash := hs'.hash.trans hs.hash.symm
    refine ⟨fun D ↦ hsize.mp D.size, fun hp ↦ ⟨rfl, fun k' hk' ↦ ?_, fun k' hk' ↦ ?_, hsize.mpr hp⟩⟩
    · refine ncHashmapGet_cons_self H' (hcmp' ▸ hcmp) (hhash' ▸ hcompat) (fun e he hek ↦ ?_) hk'
      obtain ⟨e', he', heq⟩ := mem_putKeys.mp (hd e he)
      have hne := hp.1 e' he'
      rw [heq, hek] at hne
      exact absurd hne (by simp)
    · refine ncHashmapGet_cons H H' hcmp hcmp' hcompat hhash' (fun e he e' he' hc ↦ ?_) hk'
      obtain ⟨f, hf, heq⟩ := mem_putKeys.mp (hd e he)
      obtain ⟨f', hf', heq'⟩ := mem_putKeys.mp (hd e' he')
      rw [← heq, ← heq']
      exact hp.2 f hf f' hf' (by rw [heq, heq']; exact hc)

/-- Two different integers. -/
theorem ncHashmapPut_displaces_iff_simple :
    ∃ map h' s ok s', ncHashmapNew (fun _ ↦ true) (Heap.empty : Heap UInt64 UInt64) ncSimpleHash
        ncSimpleCompare = (some map, h') ∧
      run (putStep fun _ ↦ true) (h', map) [(1, 10)] = some s ∧
      ncHashmapPut (fun _ ↦ true) s.1 s.2 2 20 = some (ok, s') ∧
      (Displaces (compareSetoid ncSimpleCompare_equivalence) [(1, 10)] 2 20 s s' ok ↔
        PutsDistinct ncSimpleCompare [((1 : UInt64), (10 : UInt64))] 2) :=
  ncHashmapPut_displaces_iff (fun _ ↦ rfl) ncSimpleCompare_equivalence
    (fun _ _ h ↦ congrArg ncSimpleHash (beq_iff_eq.mp h)) _ _ _ _

/-- An integer is put twice, and the second put returns `false`. A string is put twice, from two
addresses, and a lookup still finds the first value. -/
theorem ncHashmapPut_not_displaces :
    (∃ map h' s s', ncHashmapNew (fun _ ↦ true) (Heap.empty : Heap UInt64 UInt64) ncSimpleHash
        ncSimpleCompare = (some map, h') ∧
      run (putStep fun _ ↦ true) (h', map) [(1, 10)] = some s ∧
      ncHashmapPut (fun _ ↦ true) s.1 s.2 1 20 = some (false, s') ∧
      ¬Displaces (compareSetoid ncSimpleCompare_equivalence) [(1, 10)] 1 20 s s' false) ∧
    ∃ map h' s s', ncHashmapNew (fun _ ↦ true) (Heap.empty : Heap StrPtr UInt64) ncStringHash
        ncStringCompare = (some map, h') ∧
      run (putStep fun _ ↦ true) (h', map) [(.ptr 1 (bytes "a"), 10)] = some s ∧
      ncHashmapPut (fun _ ↦ true) s.1 s.2 (.ptr 2 (bytes "a")) 20 = some (true, s') ∧
      ncHashmapGet s'.1 s'.2 (.ptr 2 (bytes "a")) = some 10 ∧ ncHashmapSize s'.2 = 2 := by
  refine ⟨⟨_, _, _, _, rfl, rfl, rfl, fun D ↦ absurd D.ok (by simp)⟩, _, _, _, _, rfl, rfl, rfl,
    rfl, rfl⟩

end ClrDebugInfo
