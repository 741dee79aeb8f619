/-!
The words of a command line as switches, options and operands.

A command has a form: the switches and options it knows, the operands it takes
in order, and the commands that may follow it.  An option takes the next word as
its value, or what stands after an equals sign.  A word that looks like an option
but is none can stand for an operand, or for the value of an option, only where
the form allows words with a hyphen.  Nothing may be given twice, and after two
hyphens every word is an operand.
-/

namespace Discharge.CommandLine

/-- What an option takes. -/
inductive Takes where
  /-- Any text, also one with a hyphen in front. -/
  | anyText
  /-- The path of a file, which is not empty. -/
  | path
  deriving DecidableEq

/-- What a command understands. -/
structure Form where
  switches : List String := []
  options : List (String × Takes) := []
  /-- For each operand, whether it may start with a hyphen. -/
  operands : List Bool := []
  commands : List String := []

/-- What has been read of a command line. -/
structure Arguments where
  switches : List String := []
  values : List (String × String) := []
  operands : List String := []
  /-- The option whose value is to come. -/
  awaiting : Option (String × Takes) := none
  /-- Are all further words operands? -/
  literal : Bool := false

namespace Arguments

/-- Is the switch given? -/
def hasSwitch (a : Arguments) (name : String) : Bool := a.switches.contains name

/-- The value of an option. -/
def value? (a : Arguments) (name : String) : Option String := a.values.lookup name

end Arguments

/-- The letters that stand for a switch. -/
def switchOfLetter? : Char → Option String
  | 'v' => some "verbose"
  | _ => none

/-- Letters a form knows: those of switches and the one that asks for help. -/
def isKnownLetter (c : Char) : Bool := (switchOfLetter? c).isSome || c == 'h'

/-- What a word looks like. -/
inductive Word where
  | plain
  /-- Two hyphens. -/
  | separator
  /-- A name after two hyphens, with what stands after an equals sign. -/
  | long (name : String) (attached : Option String)
  /-- Letters after one hyphen. -/
  | letters (cs : List Char)

/-- What a word looks like. -/
def Word.ofText (word : String) : Word :=
  match word.toList with
  | ['-', '-'] => .separator
  | '-' :: '-' :: cs =>
    let name := String.ofList (cs.takeWhile (· ≠ '='))
    match cs.dropWhile (· ≠ '=') with
    | [] => .long name none
    | _ :: value => .long name (some (String.ofList value))
  | '-' :: c :: cs => .letters (c :: cs)
  | _ => .plain

namespace Form

/-- May the next operand start with a hyphen? -/
def nextMayHyphen (f : Form) (a : Arguments) : Bool := f.operands[a.operands.length]?.getD false

/-- Does the form have a switch or option of this name? -/
def knows (f : Form) (name : String) : Bool :=
  f.switches.contains name || (f.options.lookup name).isSome || name == "help"

/-- Takes a word as the next operand. -/
def operand? (f : Form) (a : Arguments) (word : String) : Option Arguments :=
  if a.operands.length < f.operands.length then
    some { a with operands := a.operands ++ [word] }
  else none

/-- Sets a switch. -/
def switch? (f : Form) (a : Arguments) (name : String) : Option Arguments :=
  if f.switches.contains name ∧ !a.hasSwitch name then
    some { a with switches := name :: a.switches }
  else none

/-- Sets the value of an option. -/
def setValue? (a : Arguments) (name : String) (takes : Takes) (value : String) : Option Arguments :=
  if (a.value? name).isSome ∨ (takes = .path ∧ value.isEmpty) then none
  else some { a with values := (name, value) :: a.values, awaiting := none }

/-- A word after two hyphens. -/
def long? (f : Form) (a : Arguments) (name : String) (attached : Option String) (word : String) :
    Option Arguments :=
  match f.options.lookup name with
  | some takes =>
    match attached with
    | some value => setValue? a name takes value
    | none => if (a.value? name).isSome then none else some { a with awaiting := some (name, takes) }
  | none =>
    if f.knows name then if attached.isSome then none else f.switch? a name
    else if f.nextMayHyphen a then f.operand? a word
    else none

/-- Letters after one hyphen: switches, unless they can be an operand and one of
them is unknown. -/
def letters? (f : Form) (a : Arguments) (cs : List Char) (word : String) : Option Arguments :=
  if f.nextMayHyphen a ∧ !cs.all isKnownLetter then f.operand? a word
  else cs.foldlM (fun a c => (switchOfLetter? c).bind (f.switch? a)) a

/-- Can a word be the value of an option that is waiting for it? -/
def canBeValue (f : Form) (a : Arguments) (takes : Takes) (word : String) : Bool :=
  takes = .anyText ||
    match Word.ofText word with
    | .plain => true
    | .separator => false
    | .long name _ => !f.knows name && f.nextMayHyphen a
    | .letters cs => f.nextMayHyphen a && !cs.all isKnownLetter

/-- Reads words until they end or a command follows.  Gives what was read, and
the command with the words after it. -/
def read? (f : Form) (a : Arguments) :
    List String → Option (Arguments × Option (String × List String))
  | [] => if a.awaiting.isSome then none else some (a, none)
  | word :: rest =>
    if a.literal then do f.read? (← f.operand? a word) rest
    else match a.awaiting with
      | some (name, takes) =>
        if f.canBeValue a takes word then do f.read? (← setValue? a name takes word) rest
        else none
      | none =>
        if f.commands.contains word then some (a, some (word, rest))
        else do
          let a ← match Word.ofText word with
            | .separator => some { a with literal := true }
            | .long name attached => f.long? a name attached word
            | .letters cs => f.letters? a cs word
            | .plain => f.operand? a word
          f.read? a rest

/-- Reads all words of a command that no other one follows, with all operands. -/
def readAll? (f : Form) (words : List String) : Option Arguments := do
  match ← f.read? {} words with
  | (a, none) => if a.operands.length = f.operands.length then some a else none
  | (_, some _) => none

end Form

end Discharge.CommandLine
