import Discharge.Document.Yaml.Token

/-!
The nodes of a YAML document, as they are written: scalars, block and flow
collections of nodes, and aliases.

A missing key, value or entry, and an empty document, are the empty scalar.
-/

namespace Discharge.Yaml

/-- A node as it is written. -/
inductive Node where
  /-- The node with this anchor once more. -/
  | alias (name : String)
  | scalar (anchor : Option String) (content : Scalar)
  | sequence (anchor tag : Option String) (items : List Node)
  | mapping (anchor tag : Option String) (entries : List (Node × Node))

/-- The node that stands for nothing. -/
def Node.nothing : Node := .scalar none ⟨"", .plain, none⟩

/-! ## What stands before a node -/

/-- What stands before a node. -/
structure Properties where
  anchor : Option String := none
  tag : Option Tag := none

/-- The properties here, in either order, and what follows. -/
def properties (ts : List Token) : Properties × Remaining ts :=
  match ts with
  | .anchor a :: .tag t :: rest => (⟨some a, some t⟩, ⟨rest, by simp only [List.length_cons]; omega⟩)
  | .tag t :: .anchor a :: rest => (⟨some a, some t⟩, ⟨rest, by simp only [List.length_cons]; omega⟩)
  | .anchor a :: rest => (⟨some a, none⟩, ⟨rest, Nat.le_succ _⟩)
  | .tag t :: rest => (⟨none, some t⟩, ⟨rest, Nat.le_succ _⟩)
  | ts => ({}, Remaining.whole ts)

/-- What the handles of tags stand for. -/
abbrev Handles := List (String × String)

/-- The handles every document knows. -/
def Handles.usual : Handles := [("!", "!"), ("!!", kindTag "")]

/-- The tag with its handle replaced.  A handle has to be known. -/
def Tag.resolve? (handles : Handles) (t : Tag) : Option String :=
  if t.handle.isEmpty then some t.rest else (handles.lookup t.handle).map (· ++ t.rest)

/-! ## Nodes -/

/-- Does the next token show that nothing is given here? -/
def endsBlockEntry : List Token → Bool
  | .entry :: _ | .blockEnd :: _ => true
  | _ => false

/-- Does the next token show that a key or its value is missing in a block
mapping? -/
def endsBlockPart : List Token → Bool
  | .key :: _ | .value :: _ | .blockEnd :: _ => true
  | _ => false

/-- Does the next token show that a value is missing in a flow mapping? -/
def endsFlowValue : List Token → Bool
  | .comma :: _ | .flowMappingEnd :: _ => true
  | _ => false

/-- Does the next token show that a key is missing in a flow mapping? -/
def endsFlowKey : List Token → Bool
  | .value :: _ => true
  | ts => endsFlowValue ts

/-- Does the next token show that the value of a pair in a flow sequence is
missing? -/
def endsPairValue : List Token → Bool
  | .comma :: _ | .flowSequenceEnd :: _ => true
  | _ => false

/-- Does the next token show that the key of a pair in a flow sequence is
missing? -/
def endsPairKey : List Token → Bool
  | .value :: _ => true
  | ts => endsPairValue ts

mutual
/-- Reads a node.  A block collection can only stand where `block` allows it; a
sequence under a key needs no further indent, as `level` tells. -/
def node? (handles : Handles) (block level : Bool) (ts : List Token) : Option (Node × Shorter ts) :=
  match ts with
  | .alias name :: rest => some (.alias name, ⟨rest, Nat.lt_succ_self _⟩)
  | ts => do
    let (⟨anchor, written⟩, ⟨ts1, h1⟩) := properties ts
    let tag ← match written with
      | none => some none
      | some t => (t.resolve? handles).map some
    match ts1, h1 with
    | .scalar text style :: rest, h1 =>
      return (.scalar anchor ⟨text, style, tag⟩, ⟨rest, h1⟩)
    | .flowSequence :: rest, h1 =>
      let (items, ⟨rest', h⟩) ← flowItems? handles true rest
      return (.sequence anchor tag items, ⟨rest', by simp only [List.length_cons] at h1; omega⟩)
    | .flowMapping :: rest, h1 =>
      let (entries, ⟨rest', h⟩) ← flowEntries? handles true rest
      return (.mapping anchor tag entries, ⟨rest', by simp only [List.length_cons] at h1; omega⟩)
    | .blockSequence :: rest, h1 =>
      if !block then none
      let (items, ⟨rest', h⟩) ← blockItems? handles rest
      return (.sequence anchor tag items, ⟨rest', by simp only [List.length_cons] at h1; omega⟩)
    | .blockMapping :: rest, h1 =>
      if !block then none
      let (entries, ⟨rest', h⟩) ← blockEntries? handles rest
      return (.mapping anchor tag entries, ⟨rest', by simp only [List.length_cons] at h1; omega⟩)
    | .entry :: rest, h1 =>
      if level then
        let (d, ⟨rest1, h2⟩) ←
          nodeUnless? handles true false (endsBlockEntry rest || endsBlockPart rest) rest
        let (items, ⟨rest2, h3⟩) ← levelItems? handles rest1
        return (.sequence anchor tag (d :: items),
          ⟨rest2, by simp only [List.length_cons] at h1; omega⟩)
      else if h : rest.length + 1 < ts.length then
        return (.scalar anchor ⟨"", .plain, tag⟩, ⟨.entry :: rest, h⟩)
      else none
    | ts1, _ =>
      if h : ts1.length < ts.length then
        return (.scalar anchor ⟨"", .plain, tag⟩, ⟨ts1, h⟩)
      else none
termination_by 3 * ts.length
decreasing_by all_goals simp only [List.length_cons] at *; omega

/-- Reads a node, or nothing where it is missing. -/
def nodeUnless? (handles : Handles) (block level missing : Bool) (ts : List Token) :
    Option (Node × Remaining ts) :=
  if missing then some (.nothing, Remaining.whole ts)
  else do
    let (d, ⟨rest, h⟩) ← node? handles block level ts
    return (d, ⟨rest, Nat.le_of_lt h⟩)
termination_by 3 * ts.length + 1

/-- Reads the entries of a block sequence up to its end. -/
def blockItems? (handles : Handles) (ts : List Token) : Option (List Node × Shorter ts) :=
  match ts with
  | .blockEnd :: rest => some ([], ⟨rest, Nat.lt_succ_self _⟩)
  | .entry :: rest => do
    let (d, ⟨rest1, h1⟩) ← nodeUnless? handles true false (endsBlockEntry rest) rest
    let (items, ⟨rest2, h2⟩) ← blockItems? handles rest1
    return (d :: items, ⟨rest2, by simp only [List.length_cons]; omega⟩)
  | _ => none
termination_by 3 * ts.length

/-- Reads the further entries of a sequence that stands at the level of its key. -/
def levelItems? (handles : Handles) (ts : List Token) : Option (List Node × Remaining ts) :=
  match ts with
  | .entry :: rest => do
    let (d, ⟨rest1, h1⟩) ←
      nodeUnless? handles true false (endsBlockEntry rest || endsBlockPart rest) rest
    let (items, ⟨rest2, h2⟩) ← levelItems? handles rest1
    return (d :: items, ⟨rest2, by simp only [List.length_cons]; omega⟩)
  | ts => some ([], Remaining.whole ts)
termination_by 3 * ts.length

/-- Reads the entries of a block mapping up to its end. -/
def blockEntries? (handles : Handles) (ts : List Token) :
    Option (List (Node × Node) × Shorter ts) :=
  match ts with
  | .blockEnd :: rest => some ([], ⟨rest, Nat.lt_succ_self _⟩)
  | .key :: rest => do
    let (k, ⟨rest1, h1⟩) ← nodeUnless? handles true true (endsBlockPart rest) rest
    let (v, ⟨rest2, h2⟩) ← blockValue? handles rest1
    let (entries, ⟨rest3, h3⟩) ← blockEntries? handles rest2
    return ((k, v) :: entries, ⟨rest3, by simp only [List.length_cons]; omega⟩)
  | _ => none
termination_by 3 * ts.length

/-- Reads the value of a key in a block mapping. -/
def blockValue? (handles : Handles) (ts : List Token) : Option (Node × Remaining ts) :=
  match ts with
  | .value :: rest => do
    let (v, ⟨rest', h⟩) ← nodeUnless? handles true true (endsBlockPart rest) rest
    return (v, ⟨rest', Nat.le_succ_of_le h⟩)
  | ts => some (.nothing, Remaining.whole ts)
termination_by 3 * ts.length

/-- Reads the items of a flow sequence up to its end; the `first` one has no comma
before it. -/
def flowItems? (handles : Handles) (first : Bool) (ts : List Token) :
    Option (List Node × Shorter ts) :=
  match ts with
  | .flowSequenceEnd :: rest => some ([], ⟨rest, Nat.lt_succ_self _⟩)
  | .comma :: .flowSequenceEnd :: rest =>
    if first then none else some ([], ⟨rest, Nat.lt_succ_of_lt (Nat.lt_succ_self _)⟩)
  | .comma :: rest =>
    if first then none
    else do
      let (d, ⟨rest1, h1⟩) ← flowItem? handles rest
      let (items, ⟨rest2, h2⟩) ← flowItems? handles false rest1
      return (d :: items, ⟨rest2, by simp only [List.length_cons]; omega⟩)
  | ts =>
    if first then do
      let (d, ⟨rest1, h1⟩) ← flowItem? handles ts
      let (items, ⟨rest2, h2⟩) ← flowItems? handles false rest1
      return (d :: items, ⟨rest2, by omega⟩)
    else none
termination_by 3 * ts.length + 2

/-- Reads one item of a flow sequence.  A key makes it a mapping of one entry; the
token that shows that the key itself is missing is passed over. -/
def flowItem? (handles : Handles) (ts : List Token) : Option (Node × Shorter ts) :=
  match ts with
  | .key :: rest =>
    if endsPairKey rest then do
      let (v, ⟨rest', h⟩) ← pairValue? handles (rest.drop 1)
      return (.mapping none none [(.nothing, v)],
        ⟨rest', by simp only [List.length_drop, List.length_cons] at *; omega⟩)
    else do
      let (k, ⟨rest1, h1⟩) ← node? handles false false rest
      let (v, ⟨rest2, h2⟩) ← pairValue? handles rest1
      return (.mapping none none [(k, v)], ⟨rest2, by simp only [List.length_cons]; omega⟩)
  | ts => node? handles false false ts
termination_by 3 * ts.length + 1
decreasing_by all_goals grind

/-- Reads the value of a pair in a flow sequence. -/
def pairValue? (handles : Handles) (ts : List Token) : Option (Node × Remaining ts) :=
  match ts with
  | .value :: rest => do
    let (v, ⟨rest', h⟩) ← nodeUnless? handles false false (endsPairValue rest) rest
    return (v, ⟨rest', Nat.le_succ_of_le h⟩)
  | ts => some (.nothing, Remaining.whole ts)
termination_by 3 * ts.length

/-- Reads the entries of a flow mapping up to its end; the `first` one has no
comma before it. -/
def flowEntries? (handles : Handles) (first : Bool) (ts : List Token) :
    Option (List (Node × Node) × Shorter ts) :=
  match ts with
  | .flowMappingEnd :: rest => some ([], ⟨rest, Nat.lt_succ_self _⟩)
  | .comma :: .flowMappingEnd :: rest =>
    if first then none else some ([], ⟨rest, Nat.lt_succ_of_lt (Nat.lt_succ_self _)⟩)
  | .comma :: rest =>
    if first then none
    else do
      let (e, ⟨rest1, h1⟩) ← flowEntry? handles rest
      let (entries, ⟨rest2, h2⟩) ← flowEntries? handles false rest1
      return (e :: entries, ⟨rest2, by simp only [List.length_cons]; omega⟩)
  | ts =>
    if first then do
      let (e, ⟨rest1, h1⟩) ← flowEntry? handles ts
      let (entries, ⟨rest2, h2⟩) ← flowEntries? handles false rest1
      return (e :: entries, ⟨rest2, by omega⟩)
    else none
termination_by 3 * ts.length + 2

/-- Reads one entry of a flow mapping; what is no key has no value. -/
def flowEntry? (handles : Handles) (ts : List Token) : Option ((Node × Node) × Shorter ts) :=
  match ts with
  | .key :: rest => do
    let (k, ⟨rest1, h1⟩) ← nodeUnless? handles false false (endsFlowKey rest) rest
    let (v, ⟨rest2, h2⟩) ← flowValue? handles rest1
    return ((k, v), ⟨rest2, by simp only [List.length_cons]; omega⟩)
  | ts => do
    let (k, rest) ← node? handles false false ts
    return ((k, .nothing), rest)
termination_by 3 * ts.length + 1

/-- Reads the value of a key in a flow mapping. -/
def flowValue? (handles : Handles) (ts : List Token) : Option (Node × Remaining ts) :=
  match ts with
  | .value :: rest => do
    let (v, ⟨rest', h⟩) ← nodeUnless? handles false false (endsFlowValue rest) rest
    return (v, ⟨rest', Nat.le_succ_of_le h⟩)
  | ts => some (.nothing, Remaining.whole ts)
termination_by 3 * ts.length
end

/-! ## Documents -/

/-- Takes a directive in front of a document into account.  The version can be
given once and has to be 1.1 or 1.2; a handle can be given once. -/
def addDirective? (known : Bool × Handles) : Directive → Option (Bool × Handles)
  | .version major minor =>
    if !known.1 && major = 1 && (minor = 1 || minor = 2) then some (true, known.2) else none
  | .handle name meaning =>
    if (known.2.lookup name).isSome then none else some (known.1, (name, meaning) :: known.2)

/-- The handles that the directives in front of a document define, and what
follows. -/
def directives? (known : Bool × Handles) : List Token → Option (Handles × List Token)
  | .directive d :: ts => do directives? (← addDirective? known d) ts
  | ts => some (known.2, ts)

/-- Are these only markers of a document's end? -/
def onlyEnds (ts : List Token) : Bool :=
  ts.all fun
    | .documentEnd => true
    | _ => false

/-- The content of a document after its start. -/
def content? (handles : Handles) (ts : List Token) : Option Node :=
  if onlyEnds ts then some .nothing
  else do
    let (d, ⟨rest, _⟩) ← node? (handles ++ Handles.usual) true false ts
    if onlyEnds rest then some d else none

/-- The one document of a text. -/
def document? (ts : List Token) : Option Node := do
  match ts with
  | .documentStart :: ts => content? [] ts
  | .documentEnd :: _ => none
  | .directive d :: ts =>
    match ← directives? (false, []) (.directive d :: ts) with
    | (handles, .documentStart :: ts) => content? handles ts
    | _ => none
  | ts => content? [] ts

end Discharge.Yaml
