import Mathlib.Data.List.TakeWhile
import ClrDebugInfo.Server.Request

/-!
# Names on their way through tar

What GNU tar, as it is documented, makes of the name of a file to be archived: escapes in names on
the command line are decoded (`unquote`), a leading part up to the last `..` is stripped
(`saferNameSuffix`), and `--transform` replaces the name by an expression (`transformName`).

`clr_debug_prepare` relies on each of the three doing nothing, or nothing but what it asks for. When
they do more, the name they make has another length; the lemmas here are about that.
-/

namespace ClrDebugInfo

/-! ## Escapes on the command line -/

/-- The escapes `\a`, `\b`, `\f`, `\n`, `\r`, `\t`, `\v`, `\?` and `\\`. -/
def simpleEscape (b : UInt8) : Option UInt8 :=
  match b with
  | 97 => some 7
  | 98 => some 8
  | 102 => some 12
  | 110 => some 10
  | 114 => some 13
  | 116 => some 9
  | 118 => some 11
  | 63 => some 127
  | 92 => some 92
  | _ => none

def isOctal (b : UInt8) : Bool := 48 ≤ b && b ≤ 55

/-- Where `unquote` stands: outside an escape, after a backslash, or after the digits of an octal
escape with so many still to come. -/
inductive QuoteState where
  | plain
  | escape
  | octal (value : UInt8) (left : ℕ)

def unquoteFrom : QuoteState → Bytes → Bytes
  | .plain, [] => []
  | .plain, b :: s => if b = 92 then unquoteFrom .escape s else b :: unquoteFrom .plain s
  | .escape, [] => [92]
  | .escape, b :: s =>
    match simpleEscape b with
    | some c => c :: unquoteFrom .plain s
    | none =>
      if isOctal b then unquoteFrom (.octal (b - 48) 2) s else 92 :: b :: unquoteFrom .plain s
  | .octal v _, [] => [v]
  | .octal v left, b :: s =>
    if 0 < left ∧ isOctal b then unquoteFrom (.octal (v * 8 + (b - 48)) (left - 1)) s
    else v :: if b = 92 then unquoteFrom .escape s else b :: unquoteFrom .plain s

/-- A name on the command line with its escapes decoded; it ends at the first NUL. -/
def unquote (s : Bytes) : Bytes := (unquoteFrom .plain s).takeWhile (· ≠ 0)

/-- The name after its last component `..`; `atStart` tells that a component begins here. -/
def afterDotDot (found : Bytes) (atStart : Bool) : Bytes → Bytes
  | [] => found
  | b :: s =>
    let found' := if atStart && (b == 46 && (s == [46] || (bytes "./").isPrefixOf s)) then s.drop 1
      else found
    afterDotDot found' (b == 47) s

/-- A member name that stays below the directory it is extracted to. -/
def saferNameSuffix (name : Bytes) : Bytes :=
  let suffix := (afterDotDot name true name).dropWhile (· == 47)
  if suffix = [] then bytes "." else suffix

/-- A piece of the replacement in `s|regexp|replacement|`. -/
inductive Segment where
  | lit (b : UInt8)
  /-- `&` and `\0`: what the expression matched. -/
  | whole
  /-- `\L`, `\U`, `\E`, `\l`, `\u` -/
  | case (c : UInt8)
  deriving DecidableEq

/-- `\` followed by a byte other than a digit. An escape without a meaning stands for itself. -/
def replacementEscape (b : UInt8) : List Segment :=
  match b with
  | 92 => [.lit 92]
  | 38 => [.lit 38]
  | 124 => [.lit 124]
  | 97 => [.lit 7]
  | 98 => [.lit 8]
  | 102 => [.lit 12]
  | 110 => [.lit 10]
  | 114 => [.lit 13]
  | 116 => [.lit 9]
  | 118 => [.lit 11]
  | 76 => [.case 76]
  | 85 => [.case 85]
  | 69 => [.case 69]
  | 108 => [.case 108]
  | 117 => [.case 117]
  | _ => [.lit 92, .lit b]

def isDigit (b : UInt8) : Bool := 48 ≤ b && b ≤ 57

/-- The replacement up to the delimiter `|`, and what follows the delimiter. The expression has no
groups, so that a back reference other than `\0` is an error, as is a missing delimiter. `inRef`
tells that the digits of a back reference are being read. -/
def readReplacement (inRef : Bool) : Bytes → Option (List Segment × Bytes)
  | [] => none
  | b :: s =>
    if inRef && isDigit b then if b = 48 then readReplacement true s else none
    else if b = 124 then some ([], s)
    else if b = 38 then (readReplacement false s).map fun r ↦ (.whole :: r.1, r.2)
    else if b = 92 then
      match s with
      | [] => none
      | e :: s =>
        if isDigit e then
          if e = 48 then (readReplacement true s).map fun r ↦ (.whole :: r.1, r.2) else none
        else (readReplacement false s).map fun r ↦ (replacementEscape e ++ r.1, r.2)
    else (readReplacement false s).map fun r ↦ (.lit b :: r.1, r.2)

/-- The case conversion in force, and the one for the next byte only; `true` is upper case. -/
structure CaseState where
  all : Option Bool
  next : Option Bool

def CaseState.control (st : CaseState) (c : UInt8) : CaseState :=
  match c with
  | 76 => ⟨some false, none⟩
  | 85 => ⟨some true, none⟩
  | 108 => { st with next := some false }
  | 117 => { st with next := some true }
  | _ => ⟨none, none⟩

def CaseState.convert (st : CaseState) (b : UInt8) : UInt8 :=
  match st.next.or st.all with
  | none => b
  | some true => if 97 ≤ b && b ≤ 122 then b - 32 else b
  | some false => if 65 ≤ b && b ≤ 90 then b + 32 else b

/-- A text under a case conversion, and the conversion after it. -/
def CaseState.text (st : CaseState) : Bytes → Bytes × CaseState
  | [] => ([], st)
  | b :: s => (st.convert b :: s.map ({ st with next := none } : CaseState).convert,
      { st with next := none })

/-- The replacement for a name, all of which was matched. -/
def expand (name : Bytes) : CaseState → List Segment → Bytes
  | _, [] => []
  | st, .lit b :: segs => (st.text [b]).1 ++ expand name (st.text [b]).2 segs
  | st, .whole :: segs => (st.text name).1 ++ expand name (st.text name).2 segs
  | st, .case c :: segs => expand name (st.control c) segs

/-- `--transform='s|.*|EXPR'`, where `chain` is what the flags, and the further expressions that
follow them after a semicolon, make of a name. An unknown flag is an error. -/
def transformName (chain : Bytes → Bytes → Option Bytes) (expr name : Bytes) : Option Bytes :=
  match readReplacement false expr with
  | none => none
  | some (segs, rest) =>
    if rest = [] then some (expand name ⟨none, none⟩ segs)
    else if (rest.takeWhile (· ≠ 59)).all fun b ↦ isDigit b || (bytes "gixrRsShH").contains b then
      chain rest name
    else none

/-- The text stands for itself as a replacement. -/
def LiteralReplacement (text : Bytes) : Prop :=
  readReplacement false (text ++ bytes "|") = some (text.map .lit, [])

instance (text : Bytes) : Decidable (LiteralReplacement text) :=
  inferInstanceAs (Decidable (_ = _))

private theorem expand_map_lit (name text : Bytes) :
    expand name ⟨none, none⟩ (text.map .lit) = text := by
  induction text with
  | nil => rfl
  | cons b text ih =>
    rw [List.map_cons, expand]
    change b :: expand name ⟨none, none⟩ (text.map .lit) = b :: text
    rw [ih]

theorem transformName_of_literal {text : Bytes} (h : LiteralReplacement text)
    (chain : Bytes → Bytes → Option Bytes) (name : Bytes) :
    transformName chain (text ++ bytes "|") name = some text := by
  rw [LiteralReplacement] at h
  rw [transformName, h]
  simp [expand_map_lit]

end ClrDebugInfo
