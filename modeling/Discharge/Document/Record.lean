import Discharge.Document.Yaml.Scalar

/-!
Reading typed values from a document tree.

A record is a mapping in which every field stands at most once and other keys
are ignored; where the notation allows it, a sequence of the fields in their
order will do.  A field that may be left out has a default, for which null is no
substitute.
-/

namespace Discharge

/-- What a notation lets stand for a value. -/
structure Dialect where
  /-- May a record be the sequence of its fields? -/
  positional : Bool
  /-- May a name of an enumeration be a mapping from that name to null? -/
  wrappedNames : Bool
  /-- How deep containers may be nested. -/
  maxDepth : Nat

/-- The conventions for JSON texts. -/
def Dialect.json : Dialect := ⟨true, true, Datum.maxDepth⟩

/-- The conventions for YAML texts. -/
def Dialect.yaml : Dialect := ⟨false, false, 128⟩

/-- A way to read a value from a document tree. -/
abbrev Reads (α : Type) := Dialect → Datum → Option α

namespace Datum

/-! ## Scalars -/

/-- The tree with the meaning of a scalar at its root. -/
def resolved : Datum → Datum
  | .scalar s => s.meaning
  | d => d

/-- The text of a scalar, taken literally. -/
def text? : Datum → Option String
  | .text s => some s
  | .scalar s => some s.text
  | _ => none

/-- A truth value. -/
def bool? : Datum → Option Bool
  | .bool b => some b
  | .scalar s => s.bool?
  | _ => none

/-- An integer between bounds. -/
def intBetween? (low high : Int) (d : Datum) : Option Int :=
  match d.resolved with
  | .integer n => if low ≤ n ∧ n ≤ high then some n else none
  | _ => none

/-- A natural number of at most the given number of bits. -/
def word? (bits : Nat) (d : Datum) : Option Nat :=
  match d with
  | .scalar s => s.natural?.filter (· < Nat.pow 2 bits)
  | d => (d.intBetween? 0 (Nat.pow 2 bits - 1 : Nat)).map Int.toNat

/-- A signed integer of 64 bits. -/
def int64? (d : Datum) : Option Int := d.intBetween? (-(Nat.pow 2 63 : Nat)) (Nat.pow 2 63 - 1 : Nat)

/-- A floating point number, possibly written as an integer. -/
def float? (d : Datum) : Option Float :=
  match d.resolved with
  | .integer n => some (Binary64.ofInt n)
  | .float x => some x
  | _ => none

/-! ## Containers -/

/-- The container without its tag, if it has one. -/
def unlabelled : Datum → Datum
  | .labelled d => d
  | d => d

/-- The items of a sequence.  Nothing at all is a sequence without items. -/
def list? {α : Type} (item : Datum → Option α) (d : Datum) : Option (List α) :=
  match d.unlabelled with
  | .sequence items => items.mapM item
  | .scalar s => if s.isNothing then some [] else none
  | _ => none

/-- A map from names; of several entries of one name the last is kept. -/
def table? {α : Type} (item : Datum → Option α) (d : Datum) : Option (Table α) :=
  match d.unlabelled with
  | .mapping entries => do
    let entries ← entries.mapM fun (k, v) => do return (← k.text?, ← item v)
    return Table.ofList entries
  | .scalar s => if s.isNothing then some ∅ else none
  | _ => none

/-- The place of the field that a key names.  A key that names no field is
ignored, one that is no name is refused.  A number counts the fields. -/
def fieldIndex? (names : List String) : Datum → Option (Option Nat)
  | .text s => some (names.idxOf? s)
  | .scalar s => some (names.idxOf? s.text)
  | .integer n =>
    if n < 0 then none else some (if n.toNat < names.length then some n.toNat else none)
  | _ => none

/-- Puts a member of a mapping into its place, which has to be free. -/
def putField (names : List String) (slots : List (Option Datum)) (entry : Datum × Datum) :
    Option (List (Option Datum)) := do
  match ← fieldIndex? names entry.1 with
  | none => some slots
  | some i => if (slots[i]?.getD none).isSome then none else some (slots.set i (some entry.2))

/-- The fields of a record in the order of their names, each with its value if it
is given. -/
def record? (names : List String) (positional : Bool) (d : Datum) : Option (List (Option Datum)) :=
  match d.unlabelled with
  | .mapping entries => entries.foldlM (putField names) (names.map fun _ => none)
  | .sequence items =>
    if positional ∧ items.length ≤ names.length then
      some (items.map some ++ List.replicate (names.length - items.length) none)
    else none
  | .scalar s => if s.isNothing then some (names.map fun _ => none) else none
  | _ => none

/-- The same for a record that, as a sequence, has to give every field. -/
def fullRecord? (names : List String) (positional : Bool) (d : Datum) :
    Option (List (Option Datum)) :=
  match d with
  | .sequence items => if items.length < names.length then none else record? names positional d
  | d => record? names positional d

/-! ## Fields -/

/-- The value of a field that has to be given. -/
def required {α : Type} (read : Datum → Option α) (field : Option Datum) : Option α :=
  field.bind read

/-- The value of a field that may be left out. -/
def orDefault {α : Type} (default : α) (read : Datum → Option α) : Option Datum → Option α
  | none => some default
  | some d => read d

/-- The value of a field that may be left out or null. -/
def optional {α : Type} (read : Datum → Option α) : Option Datum → Option (Option α)
  | none => some none
  | some d =>
    match d.resolved with
    | .null => some none
    | _ => (read d).map some

/-- A name of an enumeration.  It may also be given as the tag of nothing. -/
def oneOf? {α : Type} (ofName? : String → Option α) : Reads α := fun dialect d =>
  match d with
  | .mapping [(key, .null)] =>
    if dialect.wrappedNames then key.text?.bind ofName? else none
  | .scalar s =>
    match s.localTag? with
    | none => ofName? s.text
    | some name =>
      if s.style == .plain && (s.text.isEmpty || Yaml.isNull s.text) then ofName? name else none
  | d => d.text?.bind ofName?

/-! ## Taking a part of a document before it is known what it is -/

/-- A key `k` with its meaning `d`.  A number with a minus sign counts no fields,
not even as zero. -/
def settledKey (k d : Datum) : Datum :=
  match k, d with
  | .scalar s, .integer _ => if s.text.toList.head? = some '-' then .unreadable else d
  | _, d => d

mutual
/-- The tree with the meaning of every scalar in it, with at most `depth`
containers around a scalar; every scalar has to be readable. -/
def settled? (depth : Nat) : Datum → Option Datum
  | .scalar s =>
    match s.meaning with
    | .unreadable => none
    | d => some d
  | .unreadable | .labelled _ => none
  | .sequence items =>
    match depth with
    | 0 => none
    | depth + 1 => (settledAll? depth items).map .sequence
  | .mapping entries =>
    match depth with
    | 0 => none
    | depth + 1 => (settledEntries? depth entries).map .mapping
  | d => some d

/-- The items of a sequence with the meaning of every scalar. -/
def settledAll? (depth : Nat) : List Datum → Option (List Datum)
  | [] => some []
  | d :: ds => do
    let d ← settled? depth d
    let ds ← settledAll? depth ds
    return d :: ds

/-- The entries of a mapping with the meaning of every scalar. -/
def settledEntries? (depth : Nat) : List (Datum × Datum) → Option (List (Datum × Datum))
  | [] => some []
  | (k, v) :: rest => do
    let d ← settled? depth k
    let v ← settled? depth v
    let rest ← settledEntries? depth rest
    return (settledKey k d, v) :: rest
end

/-- The value of the one entry whose key is a name, and the other entries. -/
def tagged? (tag : String) (entries : List (Datum × Datum)) :
    Option (Datum × List (Datum × Datum)) :=
  let isTag (e : Datum × Datum) : Bool := e.1.text? = some tag
  match entries.filter isTag with
  | [(_, value)] => some (value, entries.filter fun e => !isTag e)
  | _ => none

end Datum

end Discharge
