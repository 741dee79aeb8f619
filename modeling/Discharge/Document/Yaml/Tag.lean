import Discharge.Document.Yaml.BlockScalar

/-!
Anchors, tags and directives of YAML.

A tag is a handle and a rest: `!name` has the handle `!`, `!!name` the handle
`!!`, `!other!name` the handle `!other!`, and `!<name>` none.  A directive in front
of a document may say what a handle stands for.
-/

namespace Discharge.Yaml

/-- The longest word here, and what follows. -/
def word (ms : List Mark) : List Char × Remaining ms :=
  let inWord (m : Mark) : Bool := isWordChar m.char
  ((ms.takeWhile inWord).map fun m => m.char,
    ⟨ms.dropWhile inWord, (List.dropWhile_sublist _).length_le⟩)

/-- The name of an anchor or an alias, which needs a blank or one of a few signs
behind it. -/
def anchorName? (ms : List Mark) : Option (String × Remaining ms) :=
  let (name, rest) := word ms
  if name.isEmpty || !(atBlank rest.val || atAnyOf "?:,]\x7d%@`".toList rest.val) then none
  else some (String.ofList name, rest)

/-! ## Tags -/

/-- A tag as it is written. -/
structure Tag where
  handle : String
  rest : String
  deriving DecidableEq

/-- May the character stand in a tag?  In angle brackets and in directives a few
more may. -/
def isTagChar (verbatim : Bool) (c : Char) : Bool :=
  isWordChar c || ";/?:@&=+$.!~*'()".toList.contains c || (verbatim && ",[]".toList.contains c)

/-- How many bytes a character takes whose first byte this is. -/
def encodedSize? (byte : Nat) : Option Nat :=
  if byte < 0x80 then some 1
  else if 0xC0 ≤ byte ∧ byte < 0xE0 then some 2
  else if 0xE0 ≤ byte ∧ byte < 0xF0 then some 3
  else if 0xF0 ≤ byte ∧ byte < 0xF8 then some 4
  else none

/-- Counts down the bytes of an escaped character: `left` of them are still to
come.  A byte has to start a character or to continue one. -/
def continueEscape? (left byte : Nat) : Option Nat :=
  if left = 0 then (encodedSize? byte).map (· - 1)
  else if 0x80 ≤ byte ∧ byte < 0xC0 then some (left - 1)
  else none

/-- The characters of a tag, in which a byte may be written as a percent sign and
two hexadecimal digits; `left` bytes of an escaped character are still to come.
Escaped bytes are given one by one. -/
def tagText? (verbatim : Bool) (left : Nat) : (ms : List Mark) → Option (List Char × Remaining ms)
  | [] => if left = 0 then some ([], Remaining.whole []) else none
  | m :: ms =>
    if m.char = '%' then
      match ms with
      | a :: b :: ms' => do
        let byte := 16 * (← digitValue? 16 a.char) + (← digitValue? 16 b.char)
        let left ← continueEscape? left byte
        let (text, ⟨rest, h⟩) ← tagText? verbatim left ms'
        return (Char.ofNat byte :: text, ⟨rest, by simp only [List.length_cons]; omega⟩)
      | _ => none
    else if left ≠ 0 then none
    else if isTagChar verbatim m.char then do
      let (text, rest) ← tagText? verbatim 0 ms
      return (m.char :: text, rest.behind)
    else some ([], Remaining.whole (m :: ms))

/-- The same, with at least one character. -/
def tagText1? (verbatim : Bool) (ms : List Mark) : Option (List Char × Remaining ms) := do
  let (text, rest) ← tagText? verbatim 0 ms
  if text.isEmpty then none else some (text, rest)

/-- The word after the sign `!`, whether another sign `!` ends it, and what
follows. -/
def handle (ms : List Mark) : List Char × Bool × Remaining ms :=
  let (name, ⟨rest, h⟩) := word ms
  match rest, h with
  | m :: rest', h =>
    if m.char = '!' then (name, true, ⟨rest', Nat.le_of_succ_le h⟩)
    else (name, false, ⟨m :: rest', h⟩)
  | [], h => (name, false, ⟨[], h⟩)

/-- A tag between angle brackets, after the opening one. -/
def verbatimTag? (ms : List Mark) : Option (Tag × Remaining ms) := do
  let (text, ⟨rest, h⟩) ← tagText1? true ms
  match rest, h with
  | m :: rest', h =>
    if m.char = '>' then some (⟨"", String.ofList text⟩, ⟨rest', Nat.le_of_succ_le h⟩) else none
  | [], _ => none

/-- A tag after its sign `!`.  The sign alone is a tag that has no handle. -/
def tagBody? (ms : List Mark) : Option (Tag × Remaining ms) :=
  match ms with
  | m :: ms' =>
    if m.char = '<' then
      (verbatimTag? ms').map fun (t, rest) => (t, rest.behind)
    else do
      let (name, closed, ⟨ms1, h1⟩) := handle (m :: ms')
      if closed then
        let (text, ⟨rest, h⟩) ← tagText1? false ms1
        return (⟨"!" ++ String.ofList name ++ "!", String.ofList text⟩, ⟨rest, Nat.le_trans h h1⟩)
      else
        let (text, ⟨rest, h⟩) ← tagText? false 0 ms1
        let tag : Tag :=
          if name.isEmpty && text.isEmpty then ⟨"", "!"⟩ else ⟨"!", String.ofList (name ++ text)⟩
        return (tag, ⟨rest, Nat.le_trans h h1⟩)
  | [] => some (⟨"", "!"⟩, Remaining.whole [])

/-- A tag after its sign `!`, which needs a blank behind it, or a comma in a flow
collection. -/
def tag? (inFlow : Bool) (ms : List Mark) : Option (Tag × Remaining ms) := do
  let (tag, rest) ← tagBody? ms
  if atBlank rest.val || (inFlow && atAnyOf [','] rest.val) then some (tag, rest) else none

/-! ## Directives -/

/-- A directive in front of a document. -/
inductive Directive where
  /-- The version of YAML the document is written in. -/
  | version (major minor : Nat)
  /-- What a handle of tags stands for. -/
  | handle (name meaning : String)

/-- What follows after blanks. -/
def afterBlanks (ms : List Mark) : Remaining ms :=
  ⟨ms.dropWhile fun m => isSpace m.char, (List.dropWhile_sublist _).length_le⟩

/-- A number of at most nine digits. -/
def shortNumber? (ms : List Mark) : Option (Nat × Remaining ms) :=
  let inNumber (m : Mark) : Bool := m.char.isDigit
  let digits := (ms.takeWhile inNumber).map fun m => m.char
  if 9 < digits.length then none
  else (natural? 10 digits).map fun n =>
    (n, ⟨ms.dropWhile inNumber, (List.dropWhile_sublist _).length_le⟩)

/-- The numbers of a version. -/
def version? (ms : List Mark) : Option (Directive × Remaining ms) := do
  let ⟨ms1, h1⟩ := afterBlanks ms
  let (major, ⟨ms2, h2⟩) ← shortNumber? ms1
  if !atAnyOf ['.'] ms2 then none
  let (minor, ⟨rest, h⟩) ← shortNumber? (ms2.drop 1)
  return (.version major minor, ⟨rest, by simp only [List.length_drop] at h; omega⟩)

/-- A handle and what it stands for. -/
def handleMeaning? (ms : List Mark) : Option (Directive × Remaining ms) := do
  let ⟨ms1, h1⟩ := afterBlanks ms
  if !atAnyOf ['!'] ms1 then none
  let (name, closed, ⟨ms2, h2⟩) := handle (ms1.drop 1)
  if !closed && !name.isEmpty then none
  if !(ms2.head?.any fun m => isSpace m.char) then none
  let ⟨ms3, h3⟩ := afterBlanks ms2
  let (meaning, ⟨rest, h⟩) ← tagText1? true ms3
  if !atBlank rest then none
  let name := "!" ++ String.ofList name ++ (if closed then "!" else "")
  return (.handle name (String.ofList meaning),
    ⟨rest, by simp only [List.length_drop] at h2; omega⟩)

/-- A directive after its sign `%`, with the rest of its line. -/
def directive? (ms : List Mark) : Option (Directive × Remaining ms) := do
  let (name, ⟨ms1, h1⟩) := word ms
  if !atBlank ms1 then none
  let (d, ⟨ms2, h2⟩) ←
    if name = "YAML".toList then version? ms1
    else if name = "TAG".toList then handleMeaning? ms1
    else none
  let ⟨rest, h⟩ ← lineEnd? false ms2
  return (d, ⟨rest, by omega⟩)

end Discharge.Yaml
