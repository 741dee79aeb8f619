import Discharge.Document.Yaml.ScalarText
import Discharge.Document.Yaml.Tag

/-!
YAML text as tokens.

Block collections have no brackets of their own, so their start and their end
are read off the columns: a collection starts where an entry or a key stands
further to the right than the last one, and ends where the text goes back to the
left.  A key is only known as such when its colon is reached, so the place of
every token that may turn out to be a key is remembered; a key has to stand on
one line and to be followed by its colon within 1024 bytes.
-/

namespace Discharge.Yaml

/-- A token. -/
inductive Token where
  | documentStart
  | documentEnd
  | blockSequence
  | blockMapping
  | blockEnd
  | flowSequence
  | flowSequenceEnd
  | flowMapping
  | flowMappingEnd
  /-- The dash before an entry of a block sequence. -/
  | entry
  | comma
  /-- What follows is a key. -/
  | key
  /-- What follows is the value of a key. -/
  | value
  | scalar (text : String) (style : Style)
  | alias (name : String)
  /-- The name by which aliases refer to the node that follows. -/
  | anchor (name : String)
  | tag (written : Tag)
  | directive (content : Directive)

/-- A token that may turn out to be a key. -/
structure KeyCandidate where
  /-- How many tokens stand before it. -/
  place : Nat
  /-- Is the text wrong if it is no key? -/
  required : Bool
  mark : Mark

/-- Where tokenising has got to. -/
structure Progress where
  /-- The tokens so far, the last one first. -/
  tokens : List Token := []
  /-- How many they are. -/
  count : Nat := 0
  /-- The columns of the open block collections, the innermost first. -/
  columns : List Nat := []
  /-- May a key start at the next token? -/
  keyAllowed : Bool := true
  /-- The last token that may be a key, in the innermost flow collection. -/
  candidate : Option KeyCandidate := none
  /-- The same for the flow collections around it, the innermost first. -/
  outer : List (Option KeyCandidate) := []

namespace Progress

/-- Is a flow collection open? -/
def inFlow (s : Progress) : Bool := !s.outer.isEmpty

/-- Appends a token. -/
def push (s : Progress) (t : Token) : Progress :=
  { s with tokens := t :: s.tokens, count := s.count + 1 }

/-- Puts a token behind the first `place` tokens. -/
def insert (s : Progress) (place : Nat) (t : Token) : Progress :=
  let after := s.count - place
  { s with tokens := s.tokens.take after ++ t :: s.tokens.drop after, count := s.count + 1 }

/-- Gives up on the last token as a key. -/
def dropCandidate? (s : Progress) : Option Progress :=
  if s.candidate.any fun k => k.required then none else some { s with candidate := none }

/-- Remembers that the next token may be a key.  It has to be one if it is the
first on the column of the block collection it stands in. -/
def noteCandidate? (s : Progress) (m : Mark) : Option Progress :=
  if s.keyAllowed then do
    let s ← s.dropCandidate?
    let required := !s.inFlow && s.columns.head? == some m.column
    return { s with candidate := some ⟨s.count, required, m⟩ }
  else some s

/-- The candidate as it is when the text has got to a place. -/
def expire? (line index : Nat) : Option KeyCandidate → Option (Option KeyCandidate)
  | none => some none
  | some k =>
    if k.mark.line < line ∨ k.mark.index + 1024 < index then
      if k.required then none else some none
    else some (some k)

/-- Gives up on candidates that are too far back. -/
def expireCandidates? (s : Progress) (line index : Nat) : Option Progress := do
  return { s with candidate := ← expire? line index s.candidate
                  outer := ← s.outer.mapM (expire? line index) }

/-- Opens a block collection at a column, unless one is open there. -/
def openAt (s : Progress) (column place : Nat) (t : Token) : Progress :=
  if s.inFlow || s.columns.head?.any (column ≤ ·) then s
  else { s.insert place t with columns := column :: s.columns }

/-- Closes the block collections for which the condition on the column holds. -/
def closeWhile (s : Progress) (p : Nat → Bool) : Progress :=
  if s.inFlow then s
  else
    let closed := s.columns.takeWhile p
    { s with columns := s.columns.dropWhile p
             tokens := closed.map (fun _ => Token.blockEnd) ++ s.tokens
             count := s.count + closed.length }

/-- A marker of a document's start or end, or a directive. -/
def marker? (s : Progress) (t : Token) : Option Progress := do
  let s ← (s.closeWhile fun _ => true).dropCandidate?
  return { s.push t with keyAllowed := false }

/-- The start of a flow collection. -/
def flowStart? (s : Progress) (m : Mark) (t : Token) : Option Progress := do
  let s ← s.noteCandidate? m
  return { s.push t with keyAllowed := true, candidate := none, outer := s.candidate :: s.outer }

/-- The end of a flow collection. -/
def flowEnd? (s : Progress) (t : Token) : Option Progress := do
  let s ← s.dropCandidate?
  match s.outer with
  | [] => return { s.push t with keyAllowed := false }
  | candidate :: outer => return { s.push t with keyAllowed := false, candidate, outer }

/-- A comma. -/
def comma? (s : Progress) : Option Progress := do
  let s ← s.dropCandidate?
  return { s.push .comma with keyAllowed := true }

/-- A dash before an entry. -/
def entry? (s : Progress) (m : Mark) : Option Progress := do
  if !s.inFlow && !s.keyAllowed then none
  let s ← (s.openAt m.column s.count .blockSequence).dropCandidate?
  return { s.push .entry with keyAllowed := true }

/-- A question mark before a key. -/
def key? (s : Progress) (m : Mark) : Option Progress := do
  if !s.inFlow && !s.keyAllowed then none
  let s ← (s.openAt m.column s.count .blockMapping).dropCandidate?
  return { s.push .key with keyAllowed := !s.inFlow }

/-- A colon before a value. -/
def value? (s : Progress) (m : Mark) : Option Progress := do
  match s.candidate with
  | some k =>
    let s := (s.insert k.place .key).openAt k.mark.column k.place .blockMapping
    return { s.push .value with keyAllowed := false, candidate := none }
  | none =>
    if !s.inFlow && !s.keyAllowed then none
    let s := s.openAt m.column s.count .blockMapping
    return { s.push .value with keyAllowed := !s.inFlow }

/-- The column a line has to reach to belong to the innermost block collection. -/
def indent (s : Progress) : Nat :=
  match s.columns with
  | [] => 0
  | column :: _ => column + 1

/-- The start of a scalar on one line, or of what stands before a node. -/
def nodeStart? (s : Progress) (m : Mark) : Option Progress := do
  let s ← s.noteCandidate? m
  return { s with keyAllowed := false }

/-- A block scalar, after which a key may start. -/
def blockScalar? (s : Progress) (t : Token) : Option Progress := do
  let s ← s.dropCandidate?
  return { s.push t with keyAllowed := true }

end Progress

/-- Skips blanks, comments, line ends and byte order marks that start a line.
Outside of flow collections a key may start after a line end. -/
def skipBlanks (inFlow : Bool) (inComment keyAllowed : Bool) :
    (ms : List Mark) → Bool × Remaining ms
  | [] => (keyAllowed, Remaining.whole [])
  | m :: ms =>
    let skip (inComment keyAllowed : Bool) : Bool × Remaining (m :: ms) :=
      let (allowed, ⟨rest, h⟩) := skipBlanks inFlow inComment keyAllowed ms
      (allowed, ⟨rest, Nat.le_succ_of_le h⟩)
    if isBreak m.char then skip false (keyAllowed || !inFlow)
    else if inComment then skip true keyAllowed
    else if m.char = '#' then skip true keyAllowed
    else if m.char = ' ' ∨ (m.char = '\t' ∧ (inFlow ∨ !keyAllowed))
        ∨ (isOrderMark m.char ∧ m.column = 0) then skip false keyAllowed
    else (keyAllowed, Remaining.whole (m :: ms))

/-- May an unquoted scalar start with this character? -/
def startsPlain (inFlow : Bool) (c : Char) (ms : List Mark) : Bool :=
  if c = '-' then !(ms.head?.any fun m => isSpace m.char)
  else if c = '?' || c = ':' then !inFlow && !atBlank ms
  else !("\t,[]\x7b\x7d#&*!|>'\"%@`".toList.contains c)

/-- Reads the token that starts with the character `m`. -/
def nextToken? (s : Progress) (m : Mark) (ms : List Mark) : Option (Progress × Remaining ms) :=
  let here (s? : Option Progress) : Option (Progress × Remaining ms) :=
    s?.map fun s => (s, Remaining.whole ms)
  let marker (t : Token) : Option (Progress × Remaining ms) :=
    (s.marker? t).map fun s => (s, ⟨ms.drop 2, (List.drop_sublist 2 ms).length_le⟩)
  let block (literal : Bool) : Option (Progress × Remaining ms) := do
    let (text, rest) ← blockScalar? literal s.indent ms
    let style := if literal then .literal else .quoted
    return (← s.blockScalar? (.scalar (String.ofList text) style), rest)
  if m.column = 0 ∧ m.char = '%' then do
    let (d, rest) ← directive? ms
    return (← s.marker? (.directive d), rest)
  else if atTriple '-' (m :: ms) then marker .documentStart
  else if atTriple '.' (m :: ms) then marker .documentEnd
  else match m.char with
    | '[' => here (s.flowStart? m .flowSequence)
    | '\x7b' => here (s.flowStart? m .flowMapping)
    | ']' => here (s.flowEnd? .flowSequenceEnd)
    | '\x7d' => here (s.flowEnd? .flowMappingEnd)
    | ',' => here s.comma?
    | '*' => do
      let (name, rest) ← anchorName? ms
      return ((← s.nodeStart? m).push (.alias name), rest)
    | '&' => do
      let (name, rest) ← anchorName? ms
      return ((← s.nodeStart? m).push (.anchor name), rest)
    | '!' => do
      let (tag, rest) ← tag? s.inFlow ms
      return ((← s.nodeStart? m).push (.tag tag), rest)
    | '\'' => do
      let (text, ⟨rest, h⟩) ← singleQuoted [] ms
      return ((← s.nodeStart? m).push (.scalar (String.ofList text) .quoted), ⟨rest, Nat.le_of_lt h⟩)
    | '"' => do
      let (text, ⟨rest, h⟩) ← doubleQuoted [] false ms
      return ((← s.nodeStart? m).push (.scalar (String.ofList text) .quoted), ⟨rest, Nat.le_of_lt h⟩)
    | c =>
      if c = '-' ∧ atBlank ms then here (s.entry? m)
      else if c = '?' ∧ (s.inFlow ∨ atBlank ms) then here (s.key? m)
      else if c = ':' ∧ (s.inFlow ∨ atBlank ms) then here (s.value? m)
      else if c = '|' ∧ !s.inFlow then block true
      else if c = '>' ∧ !s.inFlow then block false
      else if startsPlain s.inFlow c ms then do
        let (text, ended, rest) ← plain s.inFlow s.indent [] ms
        let s := (← s.nodeStart? m).push (.scalar (String.ofList (c :: text)) .plain)
        return ({ s with keyAllowed := s.keyAllowed || ended }, rest)
      else none

/-- Reads all tokens from a place on. -/
def tokenize? (s : Progress) (ms : List Mark) : Option (List Token) :=
  let (keyAllowed, ⟨rest, h⟩) := skipBlanks s.inFlow false s.keyAllowed ms
  let s := { s with keyAllowed }
  match rest, h with
  | [], _ => do
    let s ← (s.closeWhile fun _ => true).dropCandidate?
    if s.outer.any fun k => k.any fun k => k.required then none
    return s.tokens.reverse
  | m :: ms', _ => do
    let s ← s.expireCandidates? m.line m.index
    let (s, ⟨rest', _⟩) ← nextToken? (s.closeWhile (m.column < ·)) m ms'
    tokenize? s rest'
termination_by ms.length
decreasing_by simp only [List.length_cons] at *; omega

/-- The tokens of a text. -/
def tokens? (text : String) : Option (List Token) := (marks? text).bind (tokenize? {})

end Discharge.Yaml
