import Mathlib.Data.Finset.Card
import Mathlib.Data.List.Nodup
import Mathlib.Logic.Relation

/-!
# Singly linked chains

A memory of cells, each with an optional successor, is a function `next : ℕ → Option ℕ`. Nothing
forces such a memory to be well founded: following `next` may run in a circle. `Chain next p l`
says that it does not, and names the cells visited.

Loops over a chain are written with an explicit bound (`scan`), so that a walk which never ends is
a value and not a stuck definition. On a chain the bound is irrelevant once it exceeds the number
of cells, and the walk becomes a recursion on a list (`scan_eq_scanList`); everything proved about
loops below goes through that identity.
-/

namespace LinkedChain

variable {σ : Type*} {next next' : ℕ → Option ℕ} {p : Option ℕ} {l : List ℕ} {a z w n : ℕ}

/-! ## Chains -/

/-- Following `next` from `p` visits exactly the cells of `l`, in order, and then ends. -/
def Chain (next : ℕ → Option ℕ) : Option ℕ → List ℕ → Prop
  | p, [] => p = none
  | p, a :: l => p = some a ∧ Chain next (next a) l

@[simp] theorem chain_nil : Chain next p [] ↔ p = none := Iff.rfl

@[simp] theorem chain_cons : Chain next p (a :: l) ↔ p = some a ∧ Chain next (next a) l := Iff.rfl

theorem Chain.unique {l' : List ℕ} (h : Chain next p l) (h' : Chain next p l') : l = l' := by
  induction l generalizing p l' with
  | nil =>
    cases l' with
    | nil => rfl
    | cons b l' => rw [chain_nil] at h; rw [chain_cons, h] at h'; simp at h'
  | cons a l ih =>
    cases l' with
    | nil => rw [chain_nil] at h'; rw [chain_cons, h'] at h; simp at h
    | cons b l' =>
      rw [chain_cons] at h h'
      obtain ⟨rfl, h⟩ := h
      obtain ⟨hab, h'⟩ := h'
      obtain rfl := Option.some.inj hab
      rw [ih h h']

theorem Chain.tail_of_append {l₁ l₂ : List ℕ} (h : Chain next p (l₁ ++ a :: l₂)) :
    Chain next (next a) l₂ := by
  induction l₁ generalizing p with
  | nil => exact h.2
  | cons b l₁ ih => exact ih h.2

/-- A chain is finite because it repeats no cell: a repetition would give one cell two chains. -/
theorem Chain.nodup (h : Chain next p l) : l.Nodup := by
  induction l generalizing p with
  | nil => exact List.nodup_nil
  | cons a l ih =>
    refine List.nodup_cons.mpr ⟨fun hmem ↦ ?_, ih h.2⟩
    obtain ⟨l₁, l₂, rfl⟩ := List.append_of_mem hmem
    have hshort : Chain next (next a) l₂ := h.2.tail_of_append
    have hlen := congrArg List.length (h.2.unique hshort)
    simp only [List.length_append, List.length_cons] at hlen
    omega

theorem Chain.length_le (h : Chain next p l) (hn : ∀ a ∈ l, a < n) : l.length ≤ n := by
  rw [← List.toFinset_card_of_nodup h.nodup, ← Finset.card_range n]
  exact Finset.card_le_card fun a ha ↦ Finset.mem_range.mpr (hn a (List.mem_toFinset.mp ha))

theorem Chain.congr (h : Chain next p l) (hsame : ∀ a ∈ l, next' a = next a) :
    Chain next' p l := by
  induction l generalizing p with
  | nil => exact h
  | cons a l ih =>
    refine ⟨h.1, ?_⟩
    rw [hsame a List.mem_cons_self]
    exact ih h.2 fun b hb ↦ hsame b (List.mem_cons_of_mem a hb)

theorem Chain.snoc (h : Chain next p (l ++ [z])) (hsame : ∀ a ∈ l, next' a = next a)
    (hz : next' z = some w) (hw : next' w = none) : Chain next' p (l ++ [z, w]) := by
  induction l generalizing p with
  | nil => exact ⟨h.1, hz, hw⟩
  | cons a l ih =>
    refine ⟨h.1, ?_⟩
    rw [hsame a List.mem_cons_self]
    exact ih h.2 fun b hb ↦ hsame b (List.mem_cons_of_mem a hb)

theorem Chain.exists_cons (h : Chain next (some a) l) :
    ∃ rest, l = a :: rest ∧ Chain next (next a) rest := by
  cases l with
  | nil => exact absurd h (by simp)
  | cons b rest =>
    obtain rfl := Option.some.inj h.1
    exact ⟨rest, rfl, h.2⟩

theorem Chain.follow {l' : List ℕ} (h : Chain next p (l ++ [z]))
    (hsame : ∀ a ∈ l, next' a = next a) (h' : Chain next' p l') :
    ∃ rest, l' = l ++ z :: rest ∧ Chain next' (next' z) rest := by
  induction l generalizing p l' with
  | nil =>
    rw [h.1] at h'
    exact h'.exists_cons
  | cons a l ih =>
    rw [h.1] at h'
    obtain ⟨rest, rfl, htail⟩ := h'.exists_cons
    rw [hsame a List.mem_cons_self] at htail
    obtain ⟨rest', rfl, hrest⟩ := ih h.2 (fun b hb ↦ hsame b (List.mem_cons_of_mem a hb)) htail
    exact ⟨rest', rfl, hrest⟩

theorem Chain.not_chain_of_link {t : ℕ} {l' : List ℕ} (h : Chain next p (l ++ [z])) (ht : t ∈ l)
    (hsame : ∀ a ∈ l, next' a = next a) (hz : next' z = some t) : ¬Chain next' p l' := by
  intro h'
  obtain ⟨rest, -, hrest⟩ := h.follow hsame h'
  obtain ⟨l₁, l₂, rfl⟩ := List.append_of_mem ht
  have hcircle : Chain next (some t) (t :: l₂ ++ [z]) := by
    rw [List.append_assoc, List.cons_append] at h
    exact ⟨rfl, h.tail_of_append⟩
  rw [hz] at hrest
  obtain ⟨rest', hlong, hrest'⟩ := hcircle.follow
    (fun a ha ↦ hsame a (List.mem_append_right _ ha)) hrest
  -- what follows the circle is what follows its start
  rw [hz] at hrest'
  have hlen := congrArg List.length hlong
  rw [hrest'.unique hrest] at hlen
  simp only [List.length_append, List.length_cons] at hlen
  omega

/-! ## Parts of a chain -/

/-- Following `next` from `p` visits `l` and is then at `q`. -/
def Follows (next : ℕ → Option ℕ) : Option ℕ → List ℕ → Option ℕ → Prop
  | p, [], q => p = q
  | p, a :: l, q => p = some a ∧ Follows next (next a) l q

theorem follows_none : Follows next p l none ↔ Chain next p l := by
  induction l generalizing p with
  | nil => exact Iff.rfl
  | cons a l ih => exact and_congr_right fun _ ↦ ih

theorem Follows.exists_append {q : Option ℕ} {l' : List ℕ} (h : Follows next p l q)
    (hc : Chain next p l') : ∃ r, l' = l ++ r ∧ Chain next q r := by
  induction l generalizing p l' with
  | nil => exact ⟨l', rfl, h ▸ hc⟩
  | cons a l ih =>
    rw [h.1] at hc
    cases l' with
    | nil => exact absurd hc (by simp)
    | cons b l' =>
      obtain rfl := Option.some.inj hc.1
      obtain ⟨r, rfl, hr⟩ := ih h.2 hc.2
      exact ⟨r, rfl, hr⟩

/-- One cell leads to another. -/
def Leads (next : ℕ → Option ℕ) : ℕ → ℕ → Prop := Relation.ReflTransGen fun a b ↦ next a = some b

theorem leads_congr {b : ℕ} (hsame : ∀ c, Leads next a c → next' c = next c) :
    Leads next' a b ↔ Leads next a b := by
  constructor
  · intro h
    induction h with
    | refl => exact Relation.ReflTransGen.refl
    | tail _ hbc ih => exact ih.tail ((hsame _ ih).symm.trans hbc)
  · intro h
    induction h with
    | refl => exact Relation.ReflTransGen.refl
    | tail hab hbc ih => exact ih.tail ((hsame _ hab).trans hbc)

theorem leads_link {b t : ℕ} (h : Leads (Function.update next z (some t)) a b) :
    Leads next a b ∨ Leads next t b := by
  induction h with
  | refl => exact Or.inl Relation.ReflTransGen.refl
  | @tail b c _ hbc ih =>
    by_cases hb : b = z
    · rw [hb, Function.update_self] at hbc
      obtain rfl := Option.some.inj hbc
      exact Or.inr Relation.ReflTransGen.refl
    · rw [Function.update_of_ne hb] at hbc
      exact ih.imp (fun h ↦ h.tail hbc) fun h ↦ h.tail hbc

theorem leads_unlink {b : ℕ} (h : Leads (Function.update next z none) a b) :
    Leads next a b ∧ (a = z → b = z) := by
  induction h with
  | refl => exact ⟨Relation.ReflTransGen.refl, id⟩
  | @tail b c _ hbc ih =>
    by_cases hb : b = z
    · rw [hb, Function.update_self] at hbc
      exact absurd hbc (by simp)
    · rw [Function.update_of_ne hb] at hbc
      exact ⟨ih.1.tail hbc, fun ha ↦ absurd (ih.2 ha) hb⟩

theorem Follows.leads {q : Option ℕ} (h : Follows next (some a) l q) :
    (∀ b ∈ l, Leads next a b) ∧ ∀ b, q = some b → Leads next a b := by
  induction l generalizing a with
  | nil =>
    refine ⟨by simp, fun b hb ↦ ?_⟩
    obtain rfl := Option.some.inj (hb.symm.trans h.symm)
    exact Relation.ReflTransGen.refl
  | cons c l ih =>
    obtain ⟨hc, h⟩ := h
    obtain rfl := Option.some.inj hc
    cases hnext : next a with
    | none =>
      rw [hnext] at h
      cases l with
      | nil =>
        refine ⟨fun b hb ↦ ?_, fun b hb ↦ ?_⟩
        · rw [List.mem_singleton.mp hb]
          exact Relation.ReflTransGen.refl
        · exact absurd (h.trans hb) (by simp)
      | cons b l => exact absurd h.1 (by simp)
    | some c =>
      rw [hnext] at h
      obtain ⟨hl, hq⟩ := ih h
      refine ⟨fun b hb ↦ ?_, fun b hb ↦ Relation.ReflTransGen.head hnext (hq b hb)⟩
      rcases List.mem_cons.mp hb with rfl | hb
      · exact Relation.ReflTransGen.refl
      · exact Relation.ReflTransGen.head hnext (hl b hb)

theorem Chain.mem_of_leads {b : ℕ} (h : Chain next (some a) l) (hab : Leads next a b) : b ∈ l := by
  have hmem : ∀ c ∈ l, ∀ d, next c = some d → d ∈ l := by
    intro c hc d hd
    obtain ⟨l₁, l₂, rfl⟩ := List.append_of_mem hc
    have htail := h.tail_of_append
    rw [hd] at htail
    cases l₂ with
    | nil => exact absurd htail (by simp)
    | cons e l₂ =>
      obtain rfl := Option.some.inj htail.1
      simp
  induction hab with
  | refl =>
    cases l with
    | nil => exact absurd h (by simp)
    | cons c l => exact (Option.some.inj h.1) ▸ List.mem_cons_self
  | tail _ hbc ih => exact hmem _ ih _ hbc

/-! ## Loops over a chain -/

/-- `while (p) { s = visit s p; if (stop p) break; p = next p; }`, cut off after `fuel` tests of
the loop condition: the cell the loop stopped at, and the final state. `none` is a cut-off. -/
def scan (next : ℕ → Option ℕ) (stop : ℕ → Bool) (visit : σ → ℕ → σ) :
    ℕ → Option ℕ → σ → Option (Option ℕ × σ)
  | 0, _, _ => none
  | _ + 1, none, s => some (none, s)
  | fuel + 1, some a, s =>
    if stop a then some (some a, visit s a) else scan next stop visit fuel (next a) (visit s a)

/-- The same loop on the list of cells. -/
def scanList (stop : ℕ → Bool) (visit : σ → ℕ → σ) : List ℕ → σ → Option ℕ × σ
  | [], s => (none, s)
  | a :: l, s => if stop a then (some a, visit s a) else scanList stop visit l (visit s a)

/-- On a chain, enough fuel makes the bounded loop the recursion on its list of cells. -/
theorem scan_eq_scanList {stop : ℕ → Bool} {visit : σ → ℕ → σ} {fuel : ℕ} {s : σ}
    (h : Chain next p l) (hfuel : l.length < fuel) :
    scan next stop visit fuel p s = some (scanList stop visit l s) := by
  induction l generalizing p s fuel with
  | nil =>
    obtain ⟨k, rfl⟩ : ∃ k, fuel = k + 1 := ⟨fuel - 1, by omega⟩
    rw [chain_nil.mp h, scan, scanList]
  | cons a l ih =>
    obtain ⟨k, rfl⟩ : ∃ k, fuel = k + 1 := ⟨fuel - 1, by omega⟩
    rw [List.length_cons] at hfuel
    rw [h.1, scan, scanList]
    by_cases hs : stop a = true
    · rw [if_pos hs, if_pos hs]
    · rw [if_neg hs, if_neg hs, ih h.2 (by omega)]

theorem scan_leads {stop : ℕ → Bool} {visit : σ → ℕ → σ} {fuel : ℕ} {s : σ} {r : Option ℕ × σ}
    {P : σ → Prop} (hs : P s) (hvisit : ∀ b s, Leads next a b → P s → P (visit s b))
    (h : scan next stop visit fuel (some a) s = some r) :
    P r.2 ∧ ∀ b, r.1 = some b → Leads next a b := by
  have hgen : ∀ fuel p s, P s → (∀ b, p = some b → Leads next a b) →
      scan next stop visit fuel p s = some r → P r.2 ∧ ∀ b, r.1 = some b → Leads next a b := by
    intro fuel
    induction fuel with
    | zero => exact fun _ _ _ _ h ↦ by cases h
    | succ fuel ih =>
      intro p s hs hp h
      cases p with
      | none =>
        obtain rfl := Option.some.inj h
        exact ⟨hs, by simp⟩
      | some b =>
        have hb := hp b rfl
        rw [scan] at h
        by_cases hstop : stop b = true
        · rw [if_pos hstop] at h
          obtain rfl := Option.some.inj h
          refine ⟨hvisit b s hb hs, fun c hc ↦ ?_⟩
          obtain rfl := Option.some.inj hc
          exact hb
        · rw [if_neg hstop] at h
          exact ih (next b) _ (hvisit b s hb hs) (fun c hc ↦ hb.tail hc) h
  exact hgen fuel (some a) s hs (fun b hb ↦ (Option.some.inj hb) ▸ Relation.ReflTransGen.refl) h

theorem scan_snd_of_const {stop : ℕ → Bool} {visit : σ → ℕ → σ} {fuel : ℕ} {s : σ}
    {r : Option ℕ × σ} (hconst : ∀ s a, visit s a = s)
    (h : scan next stop visit fuel p s = some r) : r.2 = s := by
  induction fuel generalizing p with
  | zero => cases h
  | succ fuel ih =>
    cases p with
    | none =>
      obtain rfl := Option.some.inj h
      rfl
    | some a =>
      rw [scan, hconst] at h
      by_cases hs : stop a = true
      · rw [if_pos hs] at h
        obtain rfl := Option.some.inj h
        rfl
      · rw [if_neg hs] at h
        exact ih h

theorem scanList_fst (stop : ℕ → Bool) (visit : σ → ℕ → σ) (l : List ℕ) (s : σ) :
    (scanList stop visit l s).1 = l.find? stop := by
  induction l generalizing s with
  | nil => rfl
  | cons a l ih =>
    rw [scanList, List.find?_cons]
    by_cases hs : stop a = true
    · rw [if_pos hs, hs]
    · rw [if_neg hs, ih]
      simp [hs]

theorem scanList_of_forall_not {stop : ℕ → Bool} {visit : σ → ℕ → σ} {l : List ℕ}
    (h : ∀ a ∈ l, stop a = false) (s : σ) :
    scanList stop visit l s = (none, l.foldl visit s) := by
  induction l generalizing s with
  | nil => rfl
  | cons a l ih =>
    rw [scanList, h a List.mem_cons_self, List.foldl_cons]
    exact ih (fun b hb ↦ h b (List.mem_cons_of_mem a hb)) _

end LinkedChain
