import ClrDebugInfo.Library.Pattern
import ClrDebugInfo.Prepare.Tar

/-!
# Names of published files

How `scripts/clr_debug_prepare` names things. The gawk program maps the path of a source file to the
name of its tarball; `process_one` cuts the same path in two with `sed` and has `tar` store the
second half as a member name. The daemon makes the URL of a request, and the client the name of
the file in the cache, each from the prefix and the path of the request.

Names are bytes, and the expressions are those of the C locale.
-/

namespace ClrDebugInfo

/-! ## The gawk mapping -/

/-- `sub(/^FROM/, TO, name)` of gawk; `none` if it returns 0. -/
def gawkSub (pattern repl : String) (name : Bytes) : Option Bytes :=
  (Pattern.lit (bytes pattern)).sub (bytes repl) name

/-- The rule for the source list: the name of the tarball, without suffix, of a source file. For
`none` the program prints an error and exits. -/
def mapName (srcname : Bytes) : Option Bytes :=
  match gawkSub "/usr/lib/debug" "/lib" srcname with
  | some name => some name
  | none =>
    match gawkSub "/usr/src/debug" "/src" srcname with
    | some name => some name
    | none =>
      match gawkSub "/usr/share/debug/src" "/src" srcname with
      | some name => some name
      | none => gawkSub "/usr/share/debug" "/lib" srcname

/-- `DebugPath p root pfx q`: the source path `p` lies at `q` from the debug root `root`, and `pfx`
is the prefix of the requests for it. -/
inductive DebugPath : Bytes → Bytes → Bytes → Bytes → Prop
  | lib (q : Bytes) :
    DebugPath (bytes "/usr/lib/debug" ++ q) (bytes "/usr/lib/debug") (bytes "lib") q
  | src (q : Bytes) :
    DebugPath (bytes "/usr/src/debug" ++ q) (bytes "/usr/src/debug") (bytes "src") q
  | shareSrc (q : Bytes) :
    DebugPath (bytes "/usr/share/debug/src" ++ q) (bytes "/usr/share/debug/src") (bytes "src") q
  | share (q : Bytes) (hq : ¬bytes "/src" <+: q) :
    DebugPath (bytes "/usr/share/debug" ++ q) (bytes "/usr/share/debug") (bytes "lib") q

theorem gawkSub_eq (pattern repl : String) (name : Bytes) :
    gawkSub pattern repl name = ((bytes pattern).isPrefixOf? name).map (bytes repl ++ ·) := by
  rw [gawkSub, Pattern.sub, Pattern.rest, Pattern.rests]
  cases (bytes pattern).isPrefixOf? name <;> rfl

private theorem isPrefixOf?_eq_none {w l : Bytes} : w.isPrefixOf? l = none ↔ ¬w <+: l := by
  rw [← List.isPrefixOf_iff_prefix, ← List.isSome_isPrefixOf?_eq_isPrefixOf, Bool.not_eq_true,
    Option.isSome_eq_false_iff, Option.isNone_iff_eq_none]

theorem mapName_of_debugPath {p root pfx q : Bytes} (h : DebugPath p root pfx q) :
    mapName p = some (bytes "/" ++ pfx ++ q) := by
  cases h with
  | lib => rfl
  | src => rfl
  | shareSrc => rfl
  | share q hq =>
    have hsrc : gawkSub "/usr/share/debug/src" "/src" (bytes "/usr/share/debug" ++ q) = none := by
      rw [gawkSub_eq, Option.map_eq_none_iff]
      change (bytes "/src").isPrefixOf? q = none
      exact isPrefixOf?_eq_none.mpr hq
    rw [mapName, hsrc]
    rfl

theorem gawkSub_eq_some {pattern repl : String} {p name : Bytes}
    (h : gawkSub pattern repl p = some name) :
    ∃ q, p = bytes pattern ++ q ∧ name = bytes repl ++ q := by
  rw [gawkSub_eq] at h
  obtain ⟨q, hq, rfl⟩ := Option.map_eq_some_iff.mp h
  exact ⟨q, (List.isPrefixOf?_eq_some_iff_append_eq.mp hq).symm, rfl⟩

/-- **The paths that the program accepts** are those below a debug root, a debug root being only the
beginning of a component as well. -/
theorem mapName_eq_some_iff {p name : Bytes} : mapName p = some name ↔
    ∃ root pfx q, DebugPath p root pfx q ∧ name = bytes "/" ++ pfx ++ q := by
  constructor
  · intro h
    rw [mapName] at h
    split at h
    next hlib =>
      obtain rfl := Option.some.inj h
      obtain ⟨q, rfl, rfl⟩ := gawkSub_eq_some hlib
      exact ⟨_, _, q, .lib q, rfl⟩
    split at h
    next hsrc =>
      obtain rfl := Option.some.inj h
      obtain ⟨q, rfl, rfl⟩ := gawkSub_eq_some hsrc
      exact ⟨_, _, q, .src q, rfl⟩
    split at h
    next hshareSrc =>
      obtain rfl := Option.some.inj h
      obtain ⟨q, rfl, rfl⟩ := gawkSub_eq_some hshareSrc
      exact ⟨_, _, q, .shareSrc q, rfl⟩
    next hshareSrc =>
      obtain ⟨q, rfl, rfl⟩ := gawkSub_eq_some h
      rw [gawkSub_eq, Option.map_eq_none_iff] at hshareSrc
      exact ⟨_, _, q, .share q (isPrefixOf?_eq_none.mp hshareSrc), rfl⟩
  · rintro ⟨root, pfx, q, hp, rfl⟩
    exact mapName_of_debugPath hp

namespace DebugPath

variable {p root pfx q : Bytes}

theorem eq_append (h : DebugPath p root pfx q) : p = root ++ q := by
  cases h <;> rfl

theorem pfx_eq (h : DebugPath p root pfx q) : pfx = bytes "lib" ∨ pfx = bytes "src" := by
  cases h with
  | lib => exact Or.inl rfl
  | src => exact Or.inr rfl
  | shareSrc => exact Or.inr rfl
  | share => exact Or.inl rfl

end DebugPath

/-! ## The sed expressions -/

/-- `/usr/(lib|share|src)/debug(/src)?` -/
def debugRoot : Pattern UInt8 :=
  .seq (.lit (bytes "/usr/")) (.seq
    (.alt (.lit (bytes "lib")) (.alt (.lit (bytes "share")) (.lit (bytes "src"))))
      (.seq (.lit (bytes "/debug")) (.opt (.lit (bytes "/src")))))

/-- `sed -r 's@^(/usr/(lib|share|src)/debug(/src)?).*@\1@'`: the whole line matches, and the group
takes the longest match it can have. -/
def sedRoot (srcname : Bytes) : Bytes := (debugRoot.longest srcname).getD srcname

/-- `sed -r 's@^/usr/(lib|share|src)/debug(/src)?@.@'` -/
def sedContent (srcname : Bytes) : Bytes := (debugRoot.sub (bytes ".") srcname).getD srcname

private theorem debugRoot_rest {dir : Bytes} (hdir : dir = bytes "lib" ∨ dir = bytes "share" ∨
    dir = bytes "src") (q : Bytes) :
    debugRoot.rest (bytes "/usr/" ++ dir ++ bytes "/debug" ++ q) =
      some (((bytes "/src").isPrefixOf? q).getD q) := by
  have hrests : debugRoot.rests (bytes "/usr/" ++ dir ++ bytes "/debug" ++ q) =
      ((bytes "/src").isPrefixOf? q).toList ++ [q] := by
    rcases hdir with rfl | rfl | rfl
    · change (((((bytes "/src").isPrefixOf? q).toList ++ [q]) ++ []) ++ []) ++ [] = _
      simp
    · change (((((bytes "/src").isPrefixOf? q).toList ++ [q]) ++ []) ++ []) ++ [] = _
      simp
    · change (((((bytes "/src").isPrefixOf? q).toList ++ [q]) ++ []) ++ []) ++ [] = _
      simp
  rw [Pattern.rest, hrests]
  cases hsrc : (bytes "/src").isPrefixOf? q with
  | none => rfl
  | some t =>
    obtain rfl := List.isPrefixOf?_eq_some_iff_append_eq.mp hsrc
    change List.argmin List.length [t, bytes "/src" ++ t] = some t
    rw [List.argmin_cons, List.argmin_singleton]
    change (if (bytes "/src" ++ t).length < t.length then some (bytes "/src" ++ t) else some t) = _
    rw [if_neg (by rw [List.length_append]; omega)]

/-- The root does not leave a directory `src` to the optional group. -/
def RootIsWhole (root q : Bytes) : Prop :=
  root = bytes "/usr/lib/debug" ∨ root = bytes "/usr/src/debug" → ¬bytes "/src" <+: q

theorem debugRoot_rest_of_debugPath {p root pfx q : Bytes} (h : DebugPath p root pfx q) :
    ∃ t, debugRoot.rest p = some t ∧ (RootIsWhole root q → t = q) ∧
      (¬RootIsWhole root q → t.length < q.length) := by
  have hlen : ∀ t, (bytes "/src").isPrefixOf? q = some t → t.length < q.length := by
    intro t ht
    obtain rfl := List.isPrefixOf?_eq_some_iff_append_eq.mp ht
    rw [List.length_append]
    exact Nat.lt_add_of_pos_left (by decide)
  have hgroup : ∀ r : Bytes, r = bytes "/usr/lib/debug" ∨ r = bytes "/usr/src/debug" →
      (RootIsWhole r q → ((bytes "/src").isPrefixOf? q).getD q = q) ∧
        (¬RootIsWhole r q → (((bytes "/src").isPrefixOf? q).getD q).length < q.length) := by
    intro r hr
    constructor
    · intro hwhole
      rw [isPrefixOf?_eq_none.mpr (hwhole hr)]
      rfl
    · intro hnot
      cases hsrc : (bytes "/src").isPrefixOf? q with
      | none => exact absurd (fun _ ↦ isPrefixOf?_eq_none.mp hsrc) hnot
      | some t => exact hlen t hsrc
  cases h with
  | lib => exact ⟨_, debugRoot_rest (Or.inl rfl) q, hgroup _ (Or.inl rfl)⟩
  | src => exact ⟨_, debugRoot_rest (Or.inr (Or.inr rfl)) q, hgroup _ (Or.inr rfl)⟩
  | shareSrc =>
    have hshare := debugRoot_rest (Or.inr (Or.inl rfl)) (bytes "/src" ++ q)
    rw [List.isPrefixOf?_eq_some_iff_append_eq.mpr rfl] at hshare
    refine ⟨q, hshare, fun _ ↦ rfl, fun hnot ↦ absurd ?_ hnot⟩
    rintro (h | h) <;> exact absurd h (by decide)
  | share q hq =>
    have hshare := debugRoot_rest (Or.inr (Or.inl rfl)) q
    rw [isPrefixOf?_eq_none.mpr hq] at hshare
    refine ⟨q, hshare, fun _ ↦ rfl, fun hnot ↦ absurd ?_ hnot⟩
    rintro (h | h) <;> exact absurd h (by decide)

theorem sedRoot_append {root q : Bytes} (h : debugRoot.rest (root ++ q) = some q) :
    sedRoot (root ++ q) = root := by
  rw [sedRoot, Pattern.longest_eq_some h]
  rfl

theorem sedContent_eq {p t : Bytes} (h : debugRoot.rest p = some t) :
    sedContent p = bytes "." ++ t := by
  rw [sedContent, Pattern.sub, h]
  rfl

end ClrDebugInfo
