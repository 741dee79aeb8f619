import Discharge.CommandLine

/-!
The program: a command line is read, carried out on the files of the machine,
and answered with an exit code.  A line that is not understood ends with 2, an
error with 1.
-/

namespace Discharge

/-- The failure of a file operation. -/
def FileError.ofSystem : IO.Error → FileError
  | .noFileOrDirectory .. => .notFound
  | .alreadyExists .. => .alreadyExists
  | .inappropriateType .. => .isADirectory
  | e => ⟨5, "Other", toString e⟩

/-- The outcome of a file operation. -/
def attempt {α : Type} (action : IO α) : IO (Except FileError α) := do
  try return .ok (← action)
  catch e => return .error (FileError.ofSystem e)

/-- The files of the machine. -/
def FileSystem.machine : FileSystem IO where
  load path := attempt (IO.FS.readFile path)
  makeDirectory path := attempt (IO.FS.createDirAll path)
  store directory name content := attempt (IO.FS.writeFile (directory ++ "/" ++ name) content)

end Discharge

/-- Runs the program on the words of its command line. -/
def main (words : List String) : IO UInt32 := do
  match Discharge.Command.parse? words with
  | none =>
    IO.eprintln "usage: qed [--verbose] (verify | check | version) ..."
    return 2
  | some command =>
    let result ← Discharge.Command.run Discharge.FileSystem.machine command
    IO.print result.printed
    match result.error with
    | none => return 0
    | some e =>
      IO.eprintln ("Error: " ++ e.detailed)
      return 1
