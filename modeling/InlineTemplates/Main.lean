import InlineTemplates.CommandLine.Run
import InlineTemplates.Template.Bundled

/-!
# The command

Reads the files, runs the command and writes what it says.
-/

namespace InlineTemplates

namespace CommandLine

/-- The string of a text. A surrogate cannot be written and becomes the replacement character. -/
def shown (t : Text) : String :=
  String.ofList (t.map fun
    | .scalar c => c
    | .surrogate _ => '\ufffd')

/-- The fault of a file that could not be read. -/
def readFault : IO.Error → ReadFault
  | .inappropriateType .. => .isDirectory
  | _ => .missing

/-- The text of a file, or why it cannot be read. -/
def load (file : Text) : IO (Except ReadFault Text) := do
  try
    return .ok (← IO.FS.readFile (shown file))
  catch e => return .error (readFault e)

/-- The files of a run. -/
def loadAll (names : List Text) : IO (List (Text × Except ReadFault Text)) :=
  names.mapM fun name => do return (name, ← load name)

end CommandLine

end InlineTemplates

open InlineTemplates CommandLine in
/-- Runs the command with its arguments. -/
def main (args : List String) : IO UInt32 := do
  match Invocation.ofTexts (args.map Text.ofString) with
  | .error .help =>
    IO.println "usage: [options] source"
    return 0
  | .error .usage =>
    IO.eprintln "usage: [options] source"
    return 2
  | .ok i =>
    let loaded ← loadAll (i.source.toList ++ i.config.join.toList)
    let files : Files := ⟨fun name => (loaded.lookup name).getD (.error .missing), some⟩
    match run files i Compiler.bundled with
    | .error e =>
      IO.eprintln (shown e.message)
      return 1
    | .ok outcome =>
      if let some (file, code) := outcome.written then IO.FS.writeFile (shown file) (shown code)
      IO.print (shown outcome.stdout)
      IO.eprint (shown outcome.stderr)
      return outcome.exitCode.toUInt32
