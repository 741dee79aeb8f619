import Discharge.Document.Json

/-!
What a document holds before a reader has decided what it wants of it.

JSON and YAML texts are both read into a `Datum`.  Members keep their order and
their repetitions, since a record refuses a repeated field while a map keeps the
last entry.  A scalar that no reader can take (a number out of range, a string
with half a surrogate pair) is `unreadable`: it does no harm where it is
ignored.
-/

namespace Discharge

/-- How a scalar is written. -/
inductive Style where
  /-- Without quotes. -/
  | plain
  /-- As indented lines that are kept as they are. -/
  | literal
  /-- In quotes, or as indented lines that are joined. -/
  | quoted
  deriving DecidableEq

/-- A scalar whose kind its reader decides. -/
structure Scalar where
  text : String
  style : Style
  /-- The tag in front of it, with its handle replaced. -/
  tag : Option String
  deriving DecidableEq

/-- A document tree. -/
inductive Datum where
  | null
  | bool (value : Bool)
  | integer (value : Int)
  | float (value : Float)
  | text (value : String)
  /-- A scalar whose kind its reader decides. -/
  | scalar (content : Scalar)
  /-- A scalar no reader can take. -/
  | unreadable
  | sequence (items : List Datum)
  | mapping (entries : List (Datum × Datum))
  /-- A container with a tag of its own. -/
  | labelled (content : Datum)
  deriving Inhabited

namespace Datum

mutual
/-- The tree as a JSON value, with at most `depth` containers around a scalar. -/
def toJsonAt (depth : Nat) : Datum → Option Json
  | .null => some .null
  | .bool b => some (.bool b)
  | .integer n => some (.integer n)
  | .float x => some (.float x)
  | .text s => some (.text s)
  | .scalar _ | .unreadable | .labelled _ => none
  | .sequence items =>
    match depth with
    | 0 => none
    | depth + 1 => (toJsonAll depth items).map .array
  | .mapping entries =>
    match depth with
    | 0 => none
    | depth + 1 => (toJsonMembers depth entries).map .object

/-- The items of a sequence as JSON values. -/
def toJsonAll (depth : Nat) : List Datum → Option (List Json)
  | [] => some []
  | d :: ds => do
    let v ← toJsonAt depth d
    let vs ← toJsonAll depth ds
    return v :: vs

/-- The entries of a mapping with textual keys as members. -/
def toJsonMembers (depth : Nat) : List (Datum × Datum) → Option (List (String × Json))
  | [] => some []
  | (.text k, d) :: rest => do
    let v ← toJsonAt depth d
    let vs ← toJsonMembers depth rest
    return (k, v) :: vs
  | _ :: _ => none
end

/-- The deepest nesting of containers that is accepted. -/
def maxDepth : Nat := 127

/-- The tree as a JSON value. -/
def toJson? (d : Datum) : Option Json := toJsonAt maxDepth d

end Datum

end Discharge
