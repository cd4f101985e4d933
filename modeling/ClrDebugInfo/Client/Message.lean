import Mathlib.Data.Bool.AllAny
import Mathlib.Data.List.TakeWhile
import ClrDebugInfo.Server.Request

/-!
# The message of the client

What `try_to_get` of `src/client.c` sends for a path, and that the daemon reads the timestamp, the
prefix and the path out of it that the client put in. The timestamp is the modification time that
`xmp_getattr` of `src/fuse.c` finds on the cached copy, or 0 without one.
-/

namespace ClrDebugInfo

/-! ## The text -/

/-- The decimal digits of `n`, at most `k` of them. -/
def decimalDigits : ℕ → ℕ → Bytes
  | 0, _ => []
  | k + 1, n => (if n < 10 then [] else decimalDigits k (n / 10)) ++ [48 + (n % 10).toUInt8]

/-- `%llu` -/
def ullText (n : UInt64) : Bytes := decimalDigits 20 n.toNat

/-- `asprintf(&command, "%llu:%s:%s", (unsigned long long)timestamp, prefix, path)`, written with
its NUL. -/
def requestMessage (timestamp : Int64) (pfx path : Bytes) : Bytes :=
  ullText timestamp.toUInt64 ++ bytes ":" ++ pfx ++ bytes ":" ++ path ++ [0]

/-- Whether `xmp_getattr` gets to `try_to_get` for a path. -/
def asksFor (path : Bytes) : Bool := !(bytes "/.Trash").isPrefixOf path && path != bytes "/"

/-- What `read` returns of a message: what fits the buffer. -/
def readMessage (msg : Bytes) : Bytes := msg.take (pathMax + 8)

/-! ## Reading it back -/

/-- A decimal digit. -/
def IsDigit (b : UInt8) : Prop := 48 ≤ b ∧ b ≤ 57

private theorem digit_toNat (n : ℕ) : (48 + (n % 10).toUInt8).toNat = 48 + n % 10 := by
  rw [UInt8.toNat_add, UInt8.toNat_ofNat']
  change (48 + n % 10 % 256) % 256 = _
  omega

private theorem isDigit_of_mem_decimalDigits {k n : ℕ} {b : UInt8} (h : b ∈ decimalDigits k n) :
    IsDigit b := by
  induction k generalizing n with
  | zero => cases h
  | succ k ih =>
    rw [decimalDigits] at h
    rcases List.mem_append.mp h with h | h
    · split at h
      · exact absurd h (by simp)
      · exact ih h
    · rw [List.mem_singleton.mp h]
      have := digit_toNat n
      constructor
      · rw [UInt8.le_iff_toNat_le, this]
        exact Nat.le_add_right 48 _
      · rw [UInt8.le_iff_toNat_le, this]
        change 48 + n % 10 ≤ 57
        omega

private theorem decimalDigits_ne_nil (k n : ℕ) : decimalDigits (k + 1) n ≠ [] := by
  simp [decimalDigits]

theorem decimal_decimalDigits {k n : ℕ} (h : n < 10 ^ k) : decimal (decimalDigits k n) = n := by
  have hall : ∀ k n, (decimalDigits k n).takeWhile (fun c ↦ 48 ≤ c && c ≤ 57) =
      decimalDigits k n := by
    intro k n
    rw [List.takeWhile_eq_self_iff]
    intro b hb
    obtain ⟨hlow, hhigh⟩ := isDigit_of_mem_decimalDigits hb
    simp [hlow, hhigh]
  rw [decimal, hall]
  induction k generalizing n with
  | zero =>
    have : n = 0 := by simpa using h
    rw [this]
    rfl
  | succ k ih =>
    rw [decimalDigits, List.foldl_append, List.foldl_cons, List.foldl_nil, digit_toNat]
    by_cases hn : n < 10
    · rw [if_pos hn, List.foldl_nil]
      omega
    · rw [if_neg hn, ih (by rw [Nat.pow_succ] at h; omega)]
      omega

theorem strtoull_ullText (n : UInt64) : strtoull (ullText n) = n := by
  have hn := n.toNat_lt
  have hdecimal : decimal (ullText n) = n.toNat := decimal_decimalDigits (by omega)
  have hdigit : ∀ b ∈ ullText n, IsDigit b := fun b hb ↦ isDigit_of_mem_decimalDigits hb
  have hne : ullText n ≠ [] := decimalDigits_ne_nil 19 _
  have hclamp : clampULLong n.toNat false = n := by
    rw [clampULLong, if_pos hn]
    exact UInt64.ofNat_toNat
  obtain ⟨b, s, hs⟩ := List.exists_cons_of_ne_nil hne
  obtain ⟨hlow, hhigh⟩ := hdigit b (hs ▸ List.mem_cons_self)
  have hspace : isSpace b = false := by
    rw [UInt8.le_iff_toNat_le] at hlow hhigh
    change 48 ≤ b.toNat at hlow
    have h32 : b ≠ 32 := by
      rintro rfl
      exact absurd hlow (by decide)
    have h13 : ¬b ≤ 13 := by
      rw [UInt8.le_iff_toNat_le]
      change ¬b.toNat ≤ 13
      omega
    simp [isSpace, h32, h13]
  have hsign : ∀ c digits, ullText n = c :: digits → IsDigit c :=
    fun c digits hc ↦ hdigit c (hc ▸ List.mem_cons_self)
  rw [strtoull, hs, List.dropWhile_cons_of_neg (by simp [hspace]), ← hs]
  split
  next digits hc => exact absurd (hsign _ _ hc) (by unfold IsDigit; decide)
  next digits hc => exact absurd (hsign _ _ hc) (by unfold IsDigit; decide)
  · rw [hdecimal, hclamp]

theorem ne_of_mem_ullText {n : UInt64} {b : UInt8} (h : b ∈ ullText n) : b ≠ 58 ∧ b ≠ 0 := by
  have hd : IsDigit b := isDigit_of_mem_decimalDigits h
  constructor
  · rintro rfl
    exact absurd hd (by unfold IsDigit; decide)
  · rintro rfl
    exact absurd hd (by unfold IsDigit; decide)

theorem strchr_append {c : UInt8} {s : Bytes} (hs : ∀ b ∈ s, b ≠ c ∧ b ≠ 0) (rest : Bytes) :
    strchr c (s ++ c :: rest) = some (some (s, rest)) := by
  induction s with
  | nil => simp [strchr]
  | cons b s ih =>
    obtain ⟨hc, h0⟩ := hs b List.mem_cons_self
    rw [List.cons_append, strchr, if_neg hc, if_neg h0,
      ih fun b' hb' ↦ hs b' (List.mem_cons_of_mem b hb')]
    rfl

private theorem length_decimalDigits_le (k n : ℕ) : (decimalDigits k n).length ≤ k := by
  induction k generalizing n with
  | zero => exact Nat.le_refl 0
  | succ k ih =>
    rw [decimalDigits, List.length_append, List.length_singleton]
    split
    · exact Nat.le_add_left 1 k
    · exact Nat.succ_le_succ (ih _)

/-- **The timestamp arrives.** Whatever else the daemon makes of a message of the client, the
timestamp of the request is the one that was sent. -/
theorem parseRequest_timestamp {timestamp : Int64} {pfx path : Bytes} {r : Request}
    (h : parseRequest (requestBuffer (readMessage (requestMessage timestamp pfx path))) =
      some (some r)) : r.timestamp = timestamp := by
  have hlength : (ullText timestamp.toUInt64).length ≤ 20 := length_decimalDigits_le 20 _
  -- the digits and the first separator survive the cut at the end of the buffer
  obtain ⟨rest, hbuf⟩ : ∃ rest, requestBuffer (readMessage (requestMessage timestamp pfx path)) =
      ullText timestamp.toUInt64 ++ 58 :: rest := by
    have hmsg : requestMessage timestamp pfx path = ullText timestamp.toUInt64 ++
        58 :: (pfx ++ bytes ":" ++ path ++ [0]) := by
      simp [requestMessage, bytes]
    have hcut : (pathMax + 8) - (ullText timestamp.toUInt64).length =
        (pathMax + 7 - (ullText timestamp.toUInt64).length) + 1 := by
      rw [pathMax]
      omega
    rw [requestBuffer, readMessage, hmsg, List.take_append, List.take_of_length_le (by
      rw [pathMax]; omega), hcut, List.take_succ_cons, List.append_assoc, List.cons_append]
    exact ⟨_, rfl⟩
  rw [parseRequest, hbuf, strchr_append fun b hb ↦ ne_of_mem_ullText hb] at h
  simp only at h
  split at h
  · exact absurd h (by simp)
  · exact absurd h (by simp)
  · split at h
    · exact absurd h (by simp)
    · split at h
      · obtain rfl := Option.some.inj (Option.some.inj h)
        rw [strtoull_ullText]
        exact timestamp.toInt64_toUInt64
      · exact absurd h (by simp)

/-! ## The round trip -/

theorem cstring_append {s : Bytes} (hs : 0 ∉ s) (rest : Bytes) :
    cstring (s ++ 0 :: rest) = some s := by
  induction s with
  | nil => rfl
  | cons b s ih =>
    rw [List.mem_cons, not_or] at hs
    rw [List.cons_append, cstring, if_neg (Ne.symm hs.1), ih hs.2]
    rfl

/-- **The round trip of a request.** A message that fits the buffer is split into the timestamp, the
prefix and the path that the client made it of: no digit is a separator, no prefix holds one, and
the path is what is left, separators included. -/
theorem splitRequest_requestMessage {timestamp : Int64} {pfx path : Bytes}
    (hpfx : pfx = bytes "lib" ∨ pfx = bytes "src") (hpath : 0 ∉ path)
    (hlen : (requestMessage timestamp pfx path).length ≤ pathMax + 8) :
    splitRequest (requestBuffer (readMessage (requestMessage timestamp pfx path))) =
      some (some ⟨timestamp, pfx, path⟩) := by
  have hsep : ∀ b ∈ pfx, b ≠ 58 ∧ b ≠ 0 := by
    rcases hpfx with rfl | rfl
    · exact List.all_iff_forall_prop.mp (by decide)
    · exact List.all_iff_forall_prop.mp (by decide)
  obtain ⟨rest, hbuf⟩ : ∃ rest, requestBuffer (readMessage (requestMessage timestamp pfx path)) =
      ullText timestamp.toUInt64 ++ 58 :: (pfx ++ 58 :: (path ++ 0 :: rest)) := by
    rw [readMessage, List.take_of_length_le hlen, requestBuffer, requestMessage]
    exact ⟨_, by simp only [bytes, List.append_assoc]; rfl⟩
  rw [splitRequest, hbuf, strchr_append fun b hb ↦ ne_of_mem_ullText hb]
  simp only
  rw [strchr_append hsep]
  simp only
  rw [cstring_append hpath, strtoull_ullText, timestamp.toInt64_toUInt64, Option.map_some]

/-- A file modified a second before 1970, with separators in its name. -/
theorem splitRequest_requestMessage_colons :
    splitRequest (requestBuffer (readMessage (requestMessage (-1) (bytes "src")
      (bytes "/1:lib:2")))) = some (some ⟨-1, bytes "src", bytes "/1:lib:2"⟩) :=
  splitRequest_requestMessage (Or.inr rfl) (by decide) (by decide)

/-! ## The end of the buffer -/

private theorem zero_mem_requestBuffer {msg : Bytes} : 0 ∈ requestBuffer (readMessage msg) ↔
    msg.length < pathMax + 8 ∨ 0 ∈ msg.take (pathMax + 8) := by
  rw [requestBuffer, readMessage, List.mem_append, List.mem_replicate, List.length_take, or_comm]
  exact or_congr_left ⟨fun h ↦ by omega, fun h ↦ ⟨by omega, rfl⟩⟩

/-- **The scans of a request.** Every string function of `server_thread` meets a NUL inside the
buffer exactly if the message is shorter than the buffer, or holds a NUL in the part that is
read. -/
theorem requestScans_end_iff_of_message (msg : Bytes) :
    (∀ s ∈ requestScans (requestBuffer (readMessage msg)), 0 ∈ s) ↔
      msg.length < pathMax + 8 ∨ 0 ∈ msg.take (pathMax + 8) :=
  requestScans_end_iff.trans zero_mem_requestBuffer

private theorem requestScans_end_iff_of_client {timestamp : Int64} {pfx path : Bytes}
    (hpfx : 0 ∉ pfx) (hpath : 0 ∉ path) :
    (∀ s ∈ requestScans (requestBuffer (readMessage (requestMessage timestamp pfx path))), 0 ∈ s) ↔
      (requestMessage timestamp pfx path).length ≤ pathMax + 8 := by
  rw [requestScans_end_iff, zero_mem_requestBuffer]
  constructor
  · rintro (hlt | hmem)
    · exact hlt.le
    · by_contra hlong
      -- the NUL is the last byte of the message, and that is cut off
      rw [requestMessage, List.length_append, List.length_singleton] at hlong
      rw [requestMessage, List.take_append_of_le_length (by omega)] at hmem
      have hbody := List.mem_of_mem_take hmem
      simp only [List.mem_append, hpfx, hpath, or_false] at hbody
      rcases hbody with (hdigit | hsep) | hsep
      · exact (ne_of_mem_ullText hdigit).2 rfl
      · exact absurd hsep (by decide)
      · exact absurd hsep (by decide)
  · intro hle
    apply Or.inr
    rw [List.take_of_length_le hle, requestMessage]
    exact List.mem_append_right _ List.mem_cons_self

/-- A path of `PATH_MAX - 1` bytes. -/
def longestPath : Bytes := 47 :: List.replicate (pathMax - 2) 120

theorem longestPath_overruns : longestPath.length = pathMax - 1 ∧
    ¬∀ s ∈ requestScans (requestBuffer (readMessage
      (requestMessage 1700000000 (bytes "lib") longestPath))), 0 ∈ s := by
  have hlen : longestPath.length = pathMax - 1 := by
    rw [longestPath, List.length_cons, List.length_replicate]
    rfl
  have hpath : 0 ∉ longestPath := by
    rw [longestPath, List.mem_cons, List.mem_replicate, not_or]
    exact ⟨by decide, fun h ↦ absurd h.2 (by decide)⟩
  refine ⟨hlen, ?_⟩
  rw [requestScans_end_iff_of_client (by decide) hpath, requestMessage, not_le]
  simp only [List.length_append, hlen]
  decide

end ClrDebugInfo
