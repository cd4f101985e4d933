import Mathlib.Data.List.TakeDrop
import ClrDebugInfo.Nica.Hashmap

/-!
# Copying a file (`src/nica/files.c`)

`nc_copy_file` reads a block into a buffer and writes the whole buffer, whatever was read, and goes
on as long as what was written is as much as what was read. So the loop ends with a success, never
with a failure, when a write fails or is not of the length of the block, and the last write of a
successful copy puts stale bytes behind the source unless it fails.

What `read` and `write` do in each turn is given. The source and the target are different files.
-/

namespace ClrDebugInfo

/-! ## The function -/

/-- `COPY_BUFFER_SIZE` -/
def copyBufferSize : ℕ := 8192

/-- What the files hold, and what the system calls do. -/
structure CopyEnv where
  /-- What the source holds. -/
  content : Bytes
  /-- The `k`-th `read` fails, or is willing to return one byte more than this number. -/
  read : ℕ → Option (Fin copyBufferSize)
  /-- The `k`-th `write` fails, or writes this many bytes. -/
  write : ℕ → Option (Fin (copyBufferSize + 1))
  /-- `nc_file_exists(dst)` -/
  dstExists : Bool
  unlinks : Bool
  opensSrc : Bool
  opensDst : Bool

/-- The loop of `nc_copy_file`, in turn `k`, when `pos` bytes have been read: whether it ends with
`ret = true`, and what the target holds. -/
def copyLoop (env : CopyEnv) : ℕ → ℕ → ℕ → Bytes → Bytes → Option (Bool × Bytes)
  | 0, _, _, _, _ => none
  | fuel + 1, k, pos, buffer, dst =>
    match env.read k with
    | none => some (false, dst)
    | some n =>
      let block := (env.content.drop pos).take (n.val + 1)
      let buffer := block ++ buffer.drop block.length
      match env.write k with
      | none => some (true, dst)
      | some w =>
        if w ≠ block.length then some (true, dst ++ buffer.take w)
        else copyLoop env fuel (k + 1) (pos + block.length) buffer (dst ++ buffer.take w)

/-- `nc_copy_file`: what it returns, and what it has left in the target, if it has opened it. -/
def ncCopyFile (env : CopyEnv) (removeTarget : Bool) (fuel : ℕ) : Option (Bool × Option Bytes) :=
  if removeTarget && env.dstExists && !env.unlinks then some (false, none)
  else if !env.opensSrc then some (false, none)
  else if !env.opensDst then some (false, none)
  else (copyLoop env fuel 0 0 (List.replicate copyBufferSize 0) []).map fun r ↦ (r.1, some r.2)

/-- The copy is exact: if the call returns `true`, the target holds what the source holds, and if
it has not written all of that, it returns `false`. -/
def CopiesExactly (env : CopyEnv) (removeTarget : Bool) : Prop :=
  ∀ fuel ret dst, ncCopyFile env removeTarget fuel = some (ret, dst) →
    (ret = true → dst = some env.content) ∧
      ((∀ written, dst = some written → ¬env.content <+: written) → ret = false)

/-! ## What is read -/

/-- How many bytes the first `k` calls of `read` are willing to return. -/
def askedFor (env : CopyEnv) : ℕ → ℕ
  | 0 => 0
  | k + 1 => askedFor env k + (env.read k).elim 0 fun n ↦ n.val + 1

/-- Where the block of turn `k` starts, if no `read` fails before. -/
def blockStart (env : CopyEnv) (k : ℕ) : ℕ := min (askedFor env k) env.content.length

/-- How long it is. -/
def blockLength (env : CopyEnv) (k : ℕ) : ℕ := blockStart env (k + 1) - blockStart env k

/-- What an earlier turn has left at a position of the buffer: the byte of the last block that was
long enough, or the zero of the initializer. -/
def leftOver (env : CopyEnv) : ℕ → ℕ → UInt8
  | 0, _ => 0
  | k + 1, p =>
    if p < blockLength env k then env.content.getD (blockStart env k + p) 0 else leftOver env k p

/-- The buffer before the `k`-th `read`. -/
def bufferAt (env : CopyEnv) (k : ℕ) : Bytes := (List.range copyBufferSize).map (leftOver env k)

/-- The loop goes on after turn `k`. -/
def GoesOn (env : CopyEnv) (k : ℕ) : Prop :=
  env.read k ≠ none ∧ (env.write k).map Fin.val = some (blockLength env k)

/-- What the `k`-th `write` puts into the target. -/
def written (env : CopyEnv) (k : ℕ) : Bytes :=
  (env.write k).elim [] fun w ↦ (bufferAt env (k + 1)).take w

variable {env : CopyEnv} {k : ℕ} {removeTarget : Bool}

private theorem bufferAt_zero (env : CopyEnv) :
    bufferAt env 0 = List.replicate copyBufferSize 0 := by
  have hzero : ∀ p ∈ List.range copyBufferSize, leftOver env 0 p = 0 := fun _ _ ↦ rfl
  rw [bufferAt, List.map_eq_replicate_iff.mpr hzero, List.length_range]

@[simp] theorem length_bufferAt (env : CopyEnv) (k : ℕ) :
    (bufferAt env k).length = copyBufferSize := by
  rw [bufferAt, List.length_map, List.length_range]

private theorem getElem?_bufferAt {p : ℕ} (hp : p < copyBufferSize) :
    (bufferAt env k)[p]? = some (leftOver env k p) := by
  rw [bufferAt, List.getElem?_map, List.getElem?_range hp, Option.map_some]

private theorem blockStart_le (env : CopyEnv) (k : ℕ) : blockStart env k ≤ env.content.length :=
  Nat.min_le_right _ _

private theorem blockStart_add_blockLength (env : CopyEnv) (k : ℕ) :
    blockStart env k + blockLength env k = blockStart env (k + 1) := by
  have hmono : askedFor env k ≤ askedFor env (k + 1) := Nat.le_add_right _ _
  have hle : blockStart env k ≤ blockStart env (k + 1) := min_le_min_right _ hmono
  rw [blockLength]
  omega

private theorem blockLength_eq {n : Fin copyBufferSize} (hread : env.read k = some n) :
    blockLength env k = min (n.val + 1) (env.content.length - blockStart env k) := by
  rw [blockLength, blockStart, blockStart, askedFor, hread]
  simp only [Option.elim_some]
  omega

private theorem block_length {n : Fin copyBufferSize} (hread : env.read k = some n) :
    ((env.content.drop (blockStart env k)).take (n.val + 1)).length = blockLength env k := by
  rw [List.length_take, List.length_drop, blockLength_eq hread]

private theorem block_append {n : Fin copyBufferSize} (hread : env.read k = some n) :
    (env.content.drop (blockStart env k)).take (n.val + 1) ++
      (bufferAt env k).drop (blockLength env k) = bufferAt env (k + 1) := by
  have hlen := block_length hread
  have hsize : blockLength env k ≤ copyBufferSize := by
    rw [blockLength_eq hread]
    omega
  apply List.ext_getElem?
  intro p
  by_cases hp : p < blockLength env k
  · have hlt : blockStart env k + p < env.content.length := by
      have := blockStart_add_blockLength env k
      have := blockStart_le env (k + 1)
      omega
    have hpn : p < n.val + 1 := by
      rw [blockLength_eq hread] at hp
      omega
    rw [List.getElem?_append_left (by omega), getElem?_bufferAt (by omega), leftOver, if_pos hp,
      List.getElem?_take_of_lt hpn, List.getElem?_drop, List.getD_eq_getElem?_getD,
      List.getElem?_eq_getElem hlt, Option.getD_some]
  · rw [List.getElem?_append_right (by omega), hlen, List.getElem?_drop]
    by_cases hb : p < copyBufferSize
    · have hshift : blockLength env k + (p - blockLength env k) = p := by omega
      rw [getElem?_bufferAt hb, leftOver, if_neg hp, hshift, getElem?_bufferAt hb]
    · rw [List.getElem?_eq_none (by simp; omega), List.getElem?_eq_none (by simp; omega)]

private theorem take_bufferAt (hread : env.read k ≠ none) :
    env.content.take (blockStart env k) ++ (bufferAt env (k + 1)).take (blockLength env k) =
      env.content.take (blockStart env (k + 1)) := by
  obtain ⟨n, hn⟩ := Option.ne_none_iff_exists'.mp hread
  rw [← block_append hn, List.take_left' (block_length hn), ← List.take_add,
    List.take_eq_take_iff]
  have hlen := blockLength_eq hn
  have := blockStart_add_blockLength env k
  have := blockStart_le env k
  omega

/-! ## The loop -/

private theorem copyLoop_turn {n : Fin copyBufferSize} (hread : env.read k = some n) (fuel : ℕ) :
    copyLoop env (fuel + 1) k (blockStart env k) (bufferAt env k)
        (env.content.take (blockStart env k)) =
      if (env.write k).map Fin.val = some (blockLength env k) then
        copyLoop env fuel (k + 1) (blockStart env (k + 1)) (bufferAt env (k + 1))
          (env.content.take (blockStart env (k + 1)))
      else some (true, env.content.take (blockStart env k) ++ written env k) := by
  rw [copyLoop, hread]
  simp only [block_length hread, block_append hread, written]
  cases hw : env.write k with
  | none => simp
  | some w =>
    by_cases hlen : (w : ℕ) = blockLength env k
    · simp [hlen, take_bufferAt (hread ▸ Option.some_ne_none n), blockStart_add_blockLength]
    · simp [hlen]

/-- How the loop ends in turn `k`. -/
def EndsAt (env : CopyEnv) (k : ℕ) (ret : Bool) (dst : Bytes) : Prop :=
  (env.read k = none ∧ ret = false ∧ dst = env.content.take (blockStart env k)) ∨
    (env.read k ≠ none ∧ ¬GoesOn env k ∧ ret = true ∧
      dst = env.content.take (blockStart env k) ++ written env k)

/-- **The loop** ends in the first turn in which `read` fails, or `write` does not write as much as
was read. -/
theorem copyLoop_iff {ret : Bool} {dst : Bytes} :
    (∃ fuel, copyLoop env fuel k (blockStart env k) (bufferAt env k)
        (env.content.take (blockStart env k)) = some (ret, dst)) ↔
      ∃ m, k ≤ m ∧ (∀ j, k ≤ j → j < m → GoesOn env j) ∧ EndsAt env m ret dst := by
  constructor
  · rintro ⟨fuel, hrun⟩
    induction fuel generalizing k with
    | zero => cases hrun
    | succ fuel ih =>
      have hfirst : ∀ j, k ≤ j → j < k → GoesOn env j := fun j hj hlt ↦ absurd hlt (by omega)
      cases hread : env.read k with
      | none =>
        rw [copyLoop, hread] at hrun
        obtain ⟨rfl, rfl⟩ := Prod.mk.inj (Option.some.inj hrun)
        exact ⟨k, le_rfl, hfirst, Or.inl ⟨hread, rfl, rfl⟩⟩
      | some n =>
        have hne : env.read k ≠ none := hread ▸ Option.some_ne_none n
        rw [copyLoop_turn hread] at hrun
        by_cases hw : (env.write k).map Fin.val = some (blockLength env k)
        · rw [if_pos hw] at hrun
          obtain ⟨m, hm, hgo, hend⟩ := ih hrun
          refine ⟨m, by omega, fun j hj hlt ↦ ?_, hend⟩
          rcases Nat.eq_or_lt_of_le hj with rfl | hj
          · exact ⟨hne, hw⟩
          · exact hgo j hj hlt
        · rw [if_neg hw] at hrun
          obtain ⟨rfl, rfl⟩ := Prod.mk.inj (Option.some.inj hrun)
          exact ⟨k, le_rfl, hfirst, Or.inr ⟨hne, fun hgo ↦ hw hgo.2, rfl, rfl⟩⟩
  · rintro ⟨m, hm, hgo, hend⟩
    obtain ⟨d, rfl⟩ := Nat.exists_eq_add_of_le hm
    induction d generalizing k with
    | zero =>
      refine ⟨1, ?_⟩
      rw [Nat.add_zero] at hend
      rcases hend with ⟨hread, rfl, rfl⟩ | ⟨hne, hstop, rfl, rfl⟩
      · rw [copyLoop, hread]
      · obtain ⟨n, hread⟩ := Option.ne_none_iff_exists'.mp hne
        rw [copyLoop_turn hread, if_neg fun hw ↦ hstop ⟨hne, hw⟩]
    | succ d ih =>
      obtain ⟨hne, hw⟩ := hgo k le_rfl (by omega)
      obtain ⟨n, hread⟩ := Option.ne_none_iff_exists'.mp hne
      have hshift : k + (d + 1) = k + 1 + d := by omega
      rw [hshift] at hend hgo
      obtain ⟨fuel, hrun⟩ := ih (by omega) (fun j hj hlt ↦ hgo j (by omega) hlt) hend
      refine ⟨fuel + 1, ?_⟩
      rw [copyLoop_turn hread, if_pos hw]
      exact hrun

/-! ## Exact copies -/

/-- The last `write` is harmless: it fails at the end of the source, or puts behind the block just
what was still to be read, because the buffer happens to hold that from before. -/
def EndsWell (env : CopyEnv) (k : ℕ) : Prop :=
  (blockLength env k = 0 ∧ env.write k = none) ∨
    ∃ w, env.write k = some w ∧ blockLength env k < w ∧
      blockStart env k + w = env.content.length ∧
      ∀ p, blockLength env k ≤ p → p < w →
        env.content[blockStart env k + p]? = some (leftOver env k p)

/-- In the first turn in which the loop does not go on and `read` does not fail, the `write` is
harmless. -/
def LastWriteHarmless (env : CopyEnv) : Prop :=
  ∀ k, (∀ j < k, GoesOn env j) → env.read k ≠ none → ¬GoesOn env k → EndsWell env k

/-- The loop is reached. -/
def OpensBoth (env : CopyEnv) (removeTarget : Bool) : Prop :=
  (removeTarget = true → env.dstExists = true → env.unlinks = true) ∧ env.opensSrc = true ∧
    env.opensDst = true

private theorem take_append_eq_iff {w : Bytes} :
    env.content.take (blockStart env k) ++ w = env.content ↔
      w = env.content.drop (blockStart env k) := by
  constructor
  · intro h
    have hsplit := List.take_append_drop (blockStart env k) env.content
    exact List.append_cancel_left (h.trans hsplit.symm)
  · rintro rfl
    exact List.take_append_drop _ _

private theorem take_append_written_iff (hread : env.read k ≠ none) (hstop : ¬GoesOn env k) :
    env.content.take (blockStart env k) ++ written env k = env.content ↔ EndsWell env k := by
  obtain ⟨n, hn⟩ := Option.ne_none_iff_exists'.mp hread
  have hblock := blockLength_eq hn
  have hstart := blockStart_le env k
  rw [take_append_eq_iff, written, EndsWell]
  cases hw : env.write k with
  | none =>
    simp only [Option.elim_none, and_true, reduceCtorEq, false_and, exists_false, or_false]
    rw [eq_comm, List.drop_eq_nil_iff]
    omega
  | some w =>
    have hne : (w : ℕ) ≠ blockLength env k := fun h ↦ hstop ⟨hread, by rw [hw, Option.map_some, h]⟩
    have hsize : (w : ℕ) ≤ copyBufferSize := Nat.lt_succ_iff.mp w.isLt
    simp only [Option.elim_some, reduceCtorEq, and_false, false_or, Option.some.injEq,
      exists_eq_left']
    constructor
    · intro h
      have hlen := congrArg List.length h
      rw [List.length_take, length_bufferAt, List.length_drop] at hlen
      refine ⟨by omega, by omega, fun p hlo hp ↦ ?_⟩
      have hp' := congrArg (·[p]?) h
      simp only [List.getElem?_take_of_lt hp, List.getElem?_drop,
        getElem?_bufferAt (hp.trans_le hsize)] at hp'
      rw [← hp', leftOver, if_neg (by omega)]
    · rintro ⟨hlt, hend, hrest⟩
      apply List.ext_getElem?
      intro p
      rw [List.getElem?_drop]
      by_cases hp : p < w
      · rw [List.getElem?_take_of_lt hp, getElem?_bufferAt (hp.trans_le hsize), leftOver]
        by_cases hlo : p < blockLength env k
        · have hin : blockStart env k + p < env.content.length := by omega
          rw [if_pos hlo, List.getD_eq_getElem?_getD, List.getElem?_eq_getElem hin,
            Option.getD_some]
        · rw [if_neg hlo, hrest p (by omega) hp]
      · rw [List.getElem?_eq_none (by simp; omega), List.getElem?_eq_none (by omega)]

theorem ncCopyFile_eq (hopen : OpensBoth env removeTarget) (fuel : ℕ) :
    ncCopyFile env removeTarget fuel =
      (copyLoop env fuel 0 (blockStart env 0) (bufferAt env 0)
        (env.content.take (blockStart env 0))).map fun r ↦ (r.1, some r.2) := by
  obtain ⟨hunlink, hsrc, hdst⟩ := hopen
  have hremove : (removeTarget && env.dstExists && !env.unlinks) = false := by
    cases removeTarget with
    | false => rfl
    | true =>
      cases hex : env.dstExists with
      | false => rfl
      | true => simp [hunlink rfl hex]
  have hstart : blockStart env 0 = 0 := by simp [blockStart, askedFor]
  rw [ncCopyFile, hremove, hsrc, hdst, hstart, bufferAt_zero, List.take_zero]
  rfl

private theorem ncCopyFile_eq_false (hopen : ¬OpensBoth env removeTarget) (fuel : ℕ) :
    ncCopyFile env removeTarget fuel = some (false, none) := by
  rw [ncCopyFile]
  split
  · rfl
  next hunlink =>
    split
    · rfl
    next hsrc =>
      split
      · rfl
      next hdst =>
        refine absurd ⟨fun hremove hex ↦ ?_, by simpa using hsrc, by simpa using hdst⟩ hopen
        simpa [hremove, hex] using hunlink

theorem CopiesExactly.endsWell (h : CopiesExactly env removeTarget)
    (hopen : OpensBoth env removeTarget) (hgo : ∀ j < k, GoesOn env j)
    (hread : env.read k ≠ none) (hstop : ¬GoesOn env k) : EndsWell env k := by
  obtain ⟨fuel, hrun⟩ := copyLoop_iff.mpr
    ⟨k, Nat.zero_le k, fun j _ hj ↦ hgo j hj, Or.inr ⟨hread, hstop, rfl, rfl⟩⟩
  have hdst := (h fuel true _ (by rw [ncCopyFile_eq hopen, hrun, Option.map_some])).1 rfl
  exact (take_append_written_iff hread hstop).mp (Option.some.inj hdst)

/-- **Copies are exact only by accident.** The call keeps its promise exactly if it does not come to
its loop, or the `write` that ends the loop fails at the end of the source or happens to write just
what was still to be read. -/
theorem copiesExactly_iff (env : CopyEnv) (removeTarget : Bool) :
    CopiesExactly env removeTarget ↔ (OpensBoth env removeTarget → LastWriteHarmless env) := by
  constructor
  · exact fun h hopen _ hgo hread hstop ↦ h.endsWell hopen hgo hread hstop
  · intro h fuel ret dst hrun
    by_cases hopen : OpensBoth env removeTarget
    · rw [ncCopyFile_eq hopen, Option.map_eq_some_iff] at hrun
      obtain ⟨⟨ret, d⟩, hrun, hres⟩ := hrun
      obtain ⟨rfl, rfl⟩ := Prod.mk.inj hres
      obtain ⟨k, -, hgo, ⟨-, rfl, -⟩ | ⟨hread, hstop, rfl, rfl⟩⟩ := copyLoop_iff.mp ⟨fuel, hrun⟩
      · exact ⟨by simp, fun _ ↦ rfl⟩
      · have hwell := h hopen k (fun j hj ↦ hgo j (Nat.zero_le j) hj) hread hstop
        rw [(take_append_written_iff hread hstop).mpr hwell]
        exact ⟨fun _ ↦ rfl, fun hmiss ↦ absurd (List.prefix_refl _) (hmiss _ rfl)⟩
    · rw [ncCopyFile_eq_false hopen, Option.some_inj, Prod.mk.injEq] at hrun
      obtain ⟨rfl, rfl⟩ := hrun
      exact ⟨by simp, fun _ ↦ rfl⟩

/-- A file of two bytes, where every call does all that it is asked to do. -/
def twoBytes : CopyEnv where
  content := bytes "hi"
  read _ := some ⟨8191, by decide⟩
  write _ := some ⟨8192, by decide⟩
  dstExists := false
  unlinks := true
  opensSrc := true
  opensDst := true

/-- The target holds 8190 bytes too many. -/
theorem copiesExactly_fails_twoBytes : ¬CopiesExactly twoBytes false := by
  intro h
  have hlength : blockLength twoBytes 0 = 2 := by decide
  have hstop : ¬GoesOn twoBytes 0 := by
    intro hgo
    have hw := hgo.2
    rw [hlength] at hw
    exact absurd hw (by decide)
  have hfirst : ∀ j < 0, GoesOn twoBytes j := fun j hj ↦ absurd hj (Nat.not_lt_zero j)
  rcases h.endsWell ⟨nofun, rfl, rfl⟩ hfirst nofun hstop with ⟨hzero, -⟩ | ⟨w, hw, -, hend, -⟩
  · rw [hlength] at hzero
    exact absurd hzero (by simp)
  · obtain rfl := Option.some.inj hw
    exact absurd hend (by decide)

end ClrDebugInfo
