import Discharge.Document.Yaml.Node

/-!
YAML texts as document trees.

An alias stands for the last node before it that has its anchor.  Inside a node an
alias of the node itself has no tree and can only be ignored, unless the node is
the whole document, of which a record may take some fields once more.

A reader may follow only so many aliases, in proportion to the size of the text.
Those in a part that it ignores do not count, so how far it looks is told by an
`Extent`.
-/

namespace Discharge.Yaml

/-! ## Aliases that are followed -/

/-- How far a reader looks into a node. -/
inductive Extent where
  /-- It reads all of it. -/
  | whole
  /-- It reads a sequence, and looks so far into every item. -/
  | list (items : Extent)
  /-- It reads the keys of a mapping, and looks into the values of these fields. -/
  | record (fields : List (String × Extent))

/-- The aliases in a node.  Each part but a scalar knows how many aliases are
followed when all of it is read. -/
inductive Uses where
  | scalar
  /-- An alias, and the aliases in the node that it stands for. -/
  | alias (count : Nat) (target : Uses)
  | sequence (count : Nat) (items : List Uses)
  /-- The entries of a mapping, with the text of a key that is a scalar. -/
  | mapping (count : Nat) (entries : List (Option String × Uses × Uses))

namespace Uses

/-- How many aliases are followed when all is read. -/
def total : Uses → Nat
  | .scalar => 0
  | .alias count _ | .sequence count _ | .mapping count _ => count

mutual
/-- How many aliases are followed by a reader that looks so far. -/
def followed (extent : Extent) : Uses → Nat
  | .scalar => 0
  | .alias count target =>
    match extent with
    | .whole => count
    | extent => followed extent target + 1
  | .sequence count items =>
    match extent with
    | .whole => count
    | .list inner => followedInItems inner items
    | .record _ => 0
  | .mapping count entries =>
    match extent with
    | .whole => count
    | .list _ => 0
    | .record fields => followedInEntries fields entries

/-- How many aliases are followed in the items of a sequence. -/
def followedInItems (extent : Extent) : List Uses → Nat
  | [] => 0
  | u :: us => followed extent u + followedInItems extent us

/-- How many aliases are followed in the entries of a record. -/
def followedInEntries (fields : List (String × Extent)) : List (Option String × Uses × Uses) → Nat
  | [] => 0
  | (name, key, value) :: rest =>
    let inValue := match name.bind fun n => fields.lookup n with
      | some extent => followed extent value
      | none => 0
    key.total + inValue + followedInEntries fields rest
end

end Uses

/-! ## Trees -/

/-- A node that was read, with the aliases in it. -/
structure Tree where
  content : Datum
  uses : Uses

namespace Tree

/-- What an alias inside its own node stands for. -/
def unfinished : Tree := ⟨.unreadable, .scalar⟩

/-- What an alias stands for. -/
def aliased (t : Tree) : Tree := ⟨t.content, .alias (t.uses.total + 1) t.uses⟩

/-- A scalar. -/
def ofScalar (s : Scalar) : Tree := ⟨.scalar s, .scalar⟩

/-- A container with its tag; only one that belongs to the document itself matters. -/
def withTag (tag : Option String) (d : Datum) : Datum :=
  if tag.any fun t => t.toList.head? == some '!' then .labelled d else d

/-- A sequence. -/
def ofItems (tag : Option String) (items : List Tree) : Tree where
  content := withTag tag (.sequence (items.map (·.content)))
  uses := .sequence (items.foldl (fun n t => n + t.uses.total) 0) (items.map (·.uses))

/-- The text of a scalar that is a key. -/
def keyText? (key : Tree) : Option String :=
  match key.content with
  | .scalar s => some s.text
  | _ => none

/-- A mapping. -/
def ofEntries (tag : Option String) (entries : List (Tree × Tree)) : Tree where
  content := withTag tag (.mapping (entries.map fun e => (e.1.content, e.2.content)))
  uses := .mapping (entries.foldl (fun n e => n + e.1.uses.total + e.2.uses.total) 0)
    (entries.map fun e => (e.1.keyText?, e.1.uses, e.2.uses))

end Tree

/-- The nodes that aliases may stand for, by their anchors, the last one first. -/
abbrev Anchored := List (String × Tree)

/-- A node that aliases behind it may stand for, if it has an anchor. -/
def Anchored.add (anchored : Anchored) (anchor : Option String) (t : Tree) : Anchored :=
  match anchor with
  | none => anchored
  | some name => (name, t) :: anchored

mutual
/-- The tree of a node, inside which an alias of the node stands for `own`. -/
def Node.compose? (own : Tree) (anchored : Anchored) : Node → Option (Tree × Anchored)
  | .alias name => do
    let target ← anchored.lookup name
    return (target.aliased, anchored)
  | .scalar anchor s =>
    let tree := Tree.ofScalar s
    some (tree, anchored.add anchor tree)
  | .sequence anchor tag items => do
    let (items, anchored) ← composeItems? (anchored.add anchor own) items
    let tree := Tree.ofItems tag items
    return (tree, anchored.add anchor tree)
  | .mapping anchor tag entries => do
    let (entries, anchored) ← composeEntries? (anchored.add anchor own) entries
    let tree := Tree.ofEntries tag entries
    return (tree, anchored.add anchor tree)

/-- The trees of the items of a sequence. -/
def composeItems? (anchored : Anchored) : List Node → Option (List Tree × Anchored)
  | [] => some ([], anchored)
  | n :: ns => do
    let (t, anchored) ← n.compose? .unfinished anchored
    let (ts, anchored) ← composeItems? anchored ns
    return (t :: ts, anchored)

/-- The trees of the entries of a mapping. -/
def composeEntries? (anchored : Anchored) :
    List (Node × Node) → Option (List (Tree × Tree) × Anchored)
  | [] => some ([], anchored)
  | (k, v) :: rest => do
    let (key, anchored) ← k.compose? .unfinished anchored
    let (value, anchored) ← v.compose? .unfinished anchored
    let (entries, anchored) ← composeEntries? anchored rest
    return ((key, value) :: entries, anchored)
end

mutual
/-- The size of a node: scalars and aliases count once, containers twice. -/
def Node.size : Node → Nat
  | .alias _ | .scalar _ _ => 1
  | .sequence _ _ items => 2 + sizeItems items
  | .mapping _ _ entries => 2 + sizeEntries entries

/-- The size of the items of a sequence. -/
def sizeItems : List Node → Nat
  | [] => 0
  | n :: ns => n.size + sizeItems ns

/-- The size of the entries of a mapping. -/
def sizeEntries : List (Node × Node) → Nat
  | [] => 0
  | (k, v) :: rest => k.size + v.size + sizeEntries rest
end

/-- The greatest number of aliases that are followed, for each unit of size. -/
def maxFollowed : Nat := 100

/-- The tree of the one document of a text, for a reader that looks so far. -/
def read? (extent : Extent) (text : String) : Option Datum := do
  let node ← document? (← tokens? text)
  let (once, _) ← node.compose? .unfinished []
  let (tree, _) ← node.compose? once []
  if maxFollowed * node.size < tree.uses.followed extent then none else some tree.content

end Discharge.Yaml
