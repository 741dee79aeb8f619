import Discharge.Document.Yaml.Mark
import Discharge.Document.Yaml.Scalar
import Discharge.Text.Remaining

/-!
The text of YAML scalars that are written as indented lines.

The lines of such a scalar are all that reach its indent, which is that of its
first line unless the header gives one.  A literal scalar keeps its line breaks;
in a folded one a single break between two lines that start with no blank is a
blank.  The header also says which of the breaks at the end are kept.
-/

namespace Discharge.Yaml

/-- Which line breaks at the end of a scalar are kept. -/
inductive Ending where
  | strip
  /-- The break of the last line. -/
  | clip
  /-- That one and those of the empty lines after it. -/
  | keep
  deriving DecidableEq

/-- The ending a sign stands for. -/
def ending? : Char → Option Ending
  | '-' => some .strip
  | '+' => some .keep
  | _ => none

/-- The indent a digit asks for. -/
def indentDigit? (c : Char) : Option Nat :=
  if '1' ≤ c ∧ c ≤ '9' then some (c.toNat - '0'.toNat) else none

/-- The signs after the mark of a block scalar: its ending and the indent that is
asked for, in either order. -/
def blockSigns (ms : List Mark) : Ending × Option Nat × Remaining ms :=
  match ms with
  | [] => (.clip, none, Remaining.whole [])
  | a :: rest =>
    let after : Remaining (a :: rest) := ⟨rest, Nat.le_succ _⟩
    let afterTwo : Remaining (a :: rest) := ⟨rest.drop 1, by simp only [List.length_drop, List.length_cons]; omega⟩
    let second := rest.head?.map fun m => m.char
    match ending? a.char, indentDigit? a.char with
    | some ending, _ =>
      match second.bind indentDigit? with
      | some n => (ending, some n, afterTwo)
      | none => (ending, none, after)
    | none, some n =>
      match second.bind ending? with
      | some ending => (ending, some n, afterTwo)
      | none => (.clip, some n, after)
    | none, none => (.clip, none, Remaining.whole (a :: rest))

/-- Skips blanks, a comment and the line break after them; nothing else may stand
there. -/
def lineEnd? (inComment : Bool) : (ms : List Mark) → Option (Remaining ms)
  | [] => some (Remaining.whole [])
  | m :: ms =>
    if isBreak m.char then some ⟨ms, Nat.le_succ _⟩
    else if inComment || isSpace m.char || m.char == '#' then do
      let ⟨rest, h⟩ ← lineEnd? (inComment || m.char == '#') ms
      return ⟨rest, Nat.le_succ_of_le h⟩
    else none

/-- Skips the indent of lines and gathers the breaks of empty ones.  Gives the
breaks, the widest column that was reached, and what follows.  Without an indent
all blanks are skipped; a tab is no indent. -/
def emptyLines? (indent : Option Nat) (widest : Nat) :
    (ms : List Mark) → Option (List Char × Nat × Remaining ms)
  | [] => some ([], widest, Remaining.whole [])
  | m :: ms =>
    let inIndent := indent.all (m.column < ·)
    if m.char = ' ' ∧ inIndent then do
      let (breaks, widest, ⟨rest, h⟩) ← emptyLines? indent widest ms
      return (breaks, widest, ⟨rest, Nat.le_succ_of_le h⟩)
    else if m.char = '\t' ∧ inIndent then none
    else if isBreak m.char then do
      let (breaks, widest, ⟨rest, h⟩) ← emptyLines? indent (max widest m.column) ms
      return (m.char :: breaks, widest, ⟨rest, Nat.le_succ_of_le h⟩)
    else some ([], max widest m.column, Remaining.whole (m :: ms))

/-- What stands between two lines: the break after the first one and those of the
empty lines after it. -/
structure LineGap where
  first : List Char
  others : List Char

/-- The text of a gap between two lines of a scalar. -/
def LineGap.text (gap : LineGap) (folded : Bool) : List Char :=
  if folded ∧ gap.first = ['\n'] then (if gap.others.isEmpty then [' '] else gap.others)
  else gap.first ++ gap.others

/-- The text of a gap at the end of a scalar. -/
def LineGap.last (gap : LineGap) : Ending → List Char
  | .strip => []
  | .clip => gap.first
  | .keep => gap.first ++ gap.others

/-- The lines of a block scalar that start at a column, after a gap.  `indented`
tells that the line before starts with a blank. -/
def blockLines? (literal : Bool) (ending : Ending) (indent : Nat) (indented : Bool) (gap : LineGap)
    (ms : List Mark) : Option (List Char × Remaining ms) :=
  match ms with
  | [] => some (gap.last ending, Remaining.whole [])
  | m :: ms =>
    if m.column ≠ indent then some (gap.last ending, Remaining.whole (m :: ms))
    else do
      let blank := isSpace m.char
      let inLine (m : Mark) : Bool := !isBreak m.char
      let line := m.char :: (ms.takeWhile inLine).map fun m => m.char
      let after := ms.dropWhile inLine
      let (others, _, ⟨rest, h⟩) ← emptyLines? (some indent) 0 (after.drop 1)
      let next : LineGap := ⟨(after.take 1).map fun m => m.char, others⟩
      have hAfter : after.length ≤ ms.length := (List.dropWhile_sublist _).length_le
      have hRest : rest.length ≤ ms.length := by
        simp only [List.length_drop] at h
        omega
      let (text, ⟨rest', h'⟩) ← blockLines? literal ending indent blank next rest
      return (gap.text (!literal && !indented && !blank) ++ line ++ text,
        ⟨rest', by simp only [List.length_cons]; omega⟩)
termination_by ms.length
decreasing_by simp only [List.length_cons]; omega

/-- A block scalar after its mark.  The text around it is indented to `outer`, the
column its lines have to reach at least. -/
def blockScalar? (literal : Bool) (outer : Nat) (ms : List Mark) : Option (List Char × Remaining ms) := do
  let (ending, asked, ⟨ms1, h1⟩) := blockSigns ms
  let ⟨ms2, h2⟩ ← lineEnd? false ms1
  let fixed := asked.map (outer - 1 + ·)
  let (breaks, widest, ⟨ms3, h3⟩) ← emptyLines? fixed 0 ms2
  let indent := fixed.getD (max widest (max outer 1))
  let (text, ⟨rest, h⟩) ← blockLines? literal ending indent false ⟨[], breaks⟩ ms3
  return (text, ⟨rest, by omega⟩)

end Discharge.Yaml
