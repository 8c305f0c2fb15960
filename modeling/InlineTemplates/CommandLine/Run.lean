import InlineTemplates.CommandLine.Arguments
import InlineTemplates.CommandLine.Files
import InlineTemplates.Precompile
import InlineTemplates.Text.Lines
import InlineTemplates.Value.Json

/-!
# A run of the command

The templates of one source are compiled. The code goes to the output, and a failure is reported
with a code frame; both can be asked for as JSON.
-/

namespace InlineTemplates

namespace CommandLine

/-- What a run does. -/
structure Outcome where
  exitCode : Nat
  stdout : Text
  stderr : Text
  /-- The file that is written, with its text. -/
  written : Option (Text × Text)
deriving Inhabited

variable (files : Files) (i : Invocation)

/-! ## Options -/

/-- A fault of the file of options. -/
def configFault {α : Type} (file : Text) (f : ConfigFault) : Except Error α :=
  .error (.report ⟨.config f, none, ⟨none, some file⟩⟩)

/-- The options in a file. -/
def readConfig (file : Text) : Except Error Entries :=
  if !FileName.isPossible file then configFault file (.unreadable file Error.nullInName.message)
  else
    match files.read file with
    | .error f => configFault file (.unreadable file (f.described file))
    | .ok t =>
      match Json.read? t.normalizeNewlines with
      | none => configFault file (.unreadable file "the file does not hold JSON")
      | some (.mapping entries) => .ok entries
      | some _ => configFault file .notAnObject

/-- The entry of a mapping that an item of a list stands for. An entry whose key is no text is the
one of no module. -/
def pair (item : Value) (index : Nat) : Except Error (Option (Text × Value)) :=
  match item.items? with
  | some [key, v] => do return (← Options.moduleName? key).map fun specifier => (specifier, v)
  | some parts => .error (.notPair index parts.length)
  | none => .error .malformed

/-- The items of an option that is a list, or nothing in its place. -/
def listOption (entries : Entries) (key : Text) : Except Error (List Value) :=
  let v := (entries.get? key).getD .null
  match v.items? with
  | some items => .ok items
  | none => if v.isOn then .error .malformed else .ok []

/-- The entries of an option that is a mapping, or nothing in its place. A list of pairs counts as
the mapping that they make. -/
def mappingOption (entries : Entries) (key : Text) : Except Error Entries :=
  match entries.get? key with
  | some (.mapping es) => .ok es
  | _ => do
    let pairs ← (← listOption entries key).zipIdx.mapM fun (item, index) => pair item index
    return Entries.overlay [] (pairs.filterMap id)

/-- The modules of the arguments. Each of them needs its name. -/
def givenModules : Except Error Entries :=
  i.modules.zipIdx.mapM fun
    | (some (specifier, exported), _) => .ok (specifier, .str exported)
    | (none, index) => .error (.notPair index 0)

/-- The modules of a file of options, with those of the arguments. -/
def withModules (entries : Entries) : Except Error Entries := do
  if i.modules.isEmpty then return entries
  else
    let modules ← mappingOption entries "modules"
    return entries.set "modules" (.mapping (modules.overlay (← givenModules i)))

/-- The module path of an argument. One without its value is an empty list, which names no
module. -/
def pathValue (path : Option Text) : Value := (path.map Value.str).getD (.list [])

/-- The module paths of a file of options, with those of the arguments behind. -/
def withModulePaths (entries : Entries) : Except Error Entries := do
  if i.modulePaths.isEmpty then return entries
  else
    let items ← listOption entries "modulePaths"
    return entries.set "modulePaths" (.list (items ++ i.modulePaths.map pathValue))

/-- The options of a run. Those of the arguments win over those of the file. -/
def options : Except Error Entries := do
  let entries ← match i.config with
    | some (some file) => readConfig files file
    | some none => throw .malformed
    | none => pure []
  let entries := match i.compiler with
    | some (c :: path) => entries.set "templateCompilerPath" (.str (c :: path))
    | _ => entries
  let entries := if i.production then entries.set "isProduction" (.bool true) else entries
  withModulePaths i (← withModules i entries)

/-! ## Output -/

/-- The line of a run that failed, as JSON. -/
def failureRecord (d : Diagnostic) (source : Text) : Text :=
  let d := { d with span := d.span.orFile (some source) }
  Json.write (.mapping [("exit_code", .int 1), ("diagnostics", .list [.mapping d.toRecord])]) ++
    "\n"

/-- The outcome of a failure: `diagnostic` as JSON, or else `text`. -/
def failure (source : Text) (diagnostic : Diagnostic) (text : Text) : Outcome :=
  if i.json then ⟨1, failureRecord diagnostic source, [], none⟩ else ⟨1, [], text ++ "\n", none⟩

/-- The outcome of a source that cannot be read. -/
def unreadable (source : Text) (f : ReadFault) : Outcome :=
  let message := "cannot read " ++ source ++ ": " ++ f.text
  failure i source ⟨message, some "io", ⟨none, none, none⟩, []⟩ (source ++ ": error: " ++ message)

/-- The file that is written, with the code. -/
def written (code : Text) : Except Error (Option (Text × Text)) :=
  match i.output with
  | none => .ok none
  | some none => .error .malformed
  | some (some file) =>
    if !FileName.isPossible file then .error .nullInName
    else
      match files.target? file, code.surrogates? with
      | none, _ => .error .unwritable
      | some _, some (position, run) => .error (.unencodable position run)
      | some target, none => .ok (some (target, code))

/-- The outcome of a source whose templates are compiled. -/
def success (code : Text) : Except Error Outcome := do
  let shown : Entries := if i.output.isNone then [("code", .str code)] else []
  let record : Entries := ("exit_code", .int 0) :: ("diagnostics", .list []) :: shown
  let stdout : Text :=
    if i.json then Json.write (.mapping record) ++ "\n"
    else if i.output.isNone then code
    else []
  return ⟨0, stdout, [], ← written files i code⟩

/-! ## Running -/

/-- Runs the command. `known` are the compilers that can be named. -/
def run (known : List (Text × CompilerModule)) : Except Error Outcome :=
  let source := i.source.getD []
  if !FileName.isPossible source then .error .nullInName
  else
    match files.read source with
    | .error f => .ok (unreadable i source f)
    | .ok t =>
      let t := t.normalizeNewlines
      let result : Except Error Text := do
        (precompile known none (← options files i) t (some source)).result
      match result with
      | .ok code => success files i code
      | .error (.report r) => .ok (failure i source r.diagnostic r.text)
      | .error e => .error e

end CommandLine

end InlineTemplates
