import InlineTemplates.Template.Compiler

/-!
# Options of the pass

A build hands over a mapping. It is read as a whole: one wrong entry and there are no options.
-/

namespace InlineTemplates

/-- How the exports of one module are bound. A flag holds the value that it was given. -/
structure ModuleOptions where
  /-- The export that makes templates. -/
  exported : Text
  /-- Whether the option `scope` lists the values in scope. -/
  parsesScope : Value
  /-- Whether the binding may not tag a template. -/
  tagDisabled : Value
  /-- Whether the binding may not be called. -/
  callDisabled : Value
deriving Inhabited

namespace ModuleOptions

/-- The options of a module that is given by the name of its export. -/
def ofExport (name : Text) : ModuleOptions := ⟨name, .bool false, .bool false, .bool false⟩

/-- The keys of the options of a module. -/
def keys : List Text := List.map Text.ofString [
  "export", "shouldParseScope", "disableTemplateLiteral", "disableFunctionCall"]

/-- A flag, off unless it is given. -/
def flag (entries : Entries) (key : Text) : Value := (entries.get? key).getD (.bool false)

end ModuleOptions

/-- What stands for another export of another module. -/
structure Target where
  exported : Text
  module : Text
deriving DecidableEq, Inhabited

/-- The options of the pass. -/
structure Options where
  /-- The name of the compiler's module; null if there is none. -/
  compilerPath : Value
  /-- The modules whose exports are bound, if they are given. -/
  modules : Option (List (Text × ModuleOptions))
  /-- Modules that are bound besides. -/
  modulePaths : List Value
  /-- For each module and each of its exports, what is imported in its place. -/
  overrides : List (Text × List (Text × Target))
  isProduction : Value
  /-- What is given as compiler that is none; null if nothing is. -/
  compilerValue : Value
deriving Inhabited

namespace Options

/-- A failure of the configuration. -/
def fault {α : Type} (f : ConfigFault) : Except Error α := .error (.report (.bare (.config f)))

/-- The keys of a mapping of options. -/
def keys : List Text := List.map Text.ofString [
  "templateCompilerPath", "precompile", "moduleOverrides", "modules", "modulePaths", "isProduction"]

/-- The keys that are not among those known, in ascending order. -/
def unknownKeys (known : List Text) (entries : Entries) : List Text :=
  Text.sortedSet (Entries.keys entries |>.filter (!known.contains ·))

/-- The options of the module `specifier`. -/
def moduleOptions (specifier : Text) : Value → Except Error ModuleOptions
  | .str name => .ok (.ofExport name)
  | .mapping entries =>
    let unknown := unknownKeys ModuleOptions.keys entries
    if !unknown.isEmpty then fault (.unknownModuleOptions specifier unknown)
    else
      match Entries.get? entries "export" with
      | some (.str (c :: name)) =>
        .ok ⟨c :: name, ModuleOptions.flag entries "shouldParseScope",
          ModuleOptions.flag entries "disableTemplateLiteral",
          ModuleOptions.flag entries "disableFunctionCall"⟩
      | _ => fault (.moduleWithoutExport specifier)
  | _ => fault (.moduleNotOptions specifier)

/-- The modules whose exports are bound. -/
def readModules : Value → Except Error (Option (List (Text × ModuleOptions)))
  | .null => .ok none
  | .mapping entries => do
    return some (← entries.mapM fun (specifier, v) => do
      return (specifier, ← moduleOptions specifier v))
  | _ => fault .modulesNotMapping

/-- What is imported in the place of an export. -/
def target (module exported : Text) : Value → Except Error Target
  | .list [.str name, .str target] => .ok ⟨name, target⟩
  | .list _ | .str _ => fault (.overrideNotPair module exported)
  | .mapping entries =>
    if entries.length = 2 then .error .malformed else fault (.overrideNotPair module exported)
  | _ => .error .malformed

/-- What is imported in the place of the exports of modules. -/
def readOverrides (v : Value) : Except Error (List (Text × List (Text × Target))) :=
  match v with
  | .mapping modules =>
    modules.mapM fun (module, exports) => do
      match exports with
      | .mapping exports =>
        return (module, ← exports.mapM fun (exported, v) => do
          return (exported, ← target module exported v))
      | _ => fault (.overridesNotMapping module)
  | v => if v.isOn then .error .malformed else .ok []

/-- The modules that are bound besides. A mapping counts as the list of its keys. -/
def readPaths (v : Value) : Except Error (List Value) :=
  match v, v.items? with
  | .str _, _ => fault .modulePathsNotList
  | _, some items => .ok items
  | v, none => if v.isOn then .error .malformed else .ok []

/-- The options that a mapping says. -/
def ofEntries (entries : Entries) : Except Error Options := do
  let unknown := unknownKeys keys entries
  let get (key : Text) : Value := (Entries.get? entries key).getD .null
  if !unknown.isEmpty then fault (.unknownOptions unknown)
  else
    let modules ← readModules (get "modules")
    let overrides ← readOverrides (get "moduleOverrides")
    let modulePaths ← readPaths (get "modulePaths")
    return {
      compilerPath := get "templateCompilerPath"
      modules, modulePaths, overrides
      isProduction := get "isProduction"
      compilerValue := get "precompile" }

/-! ## Modules -/

/-- The module that is bound unless others are given. -/
def defaultModule : Text := "htmlbars-inline-precompile"

/-- The entries with `key` set: in its place if it is there, behind all others if not. -/
def setModule (modules : List (Text × ModuleOptions)) (key : Text) (options : ModuleOptions) :
    List (Text × ModuleOptions) :=
  if modules.any (·.1 == key) then modules.map fun e => if e.1 = key then (key, options) else e
  else modules ++ [(key, options)]

/-- The module that a value names. A scalar that is no text is the source of no import. -/
def moduleName? : Value → Except Error (Option Text)
  | .str specifier => .ok (some specifier)
  | .list _ | .mapping _ => .error .malformed
  | _ => .ok none

/-- The modules whose exports are bound, each once, in order. -/
def configuredModules (o : Options) : Except Error (List (Text × ModuleOptions)) := do
  let paths ← o.modulePaths.mapM moduleName?
  let modules := o.modules.getD [(defaultModule, .ofExport "default")]
  return (paths.filterMap id).foldl (fun ms path => setModule ms path (.ofExport "default")) modules

/-- What is imported when an export of a module is asked for. -/
def resolveTarget (o : Options) (exported module : Text) : Target :=
  ((o.overrides.lookup module).bind (·.lookup exported)).getD ⟨exported, module⟩

/-! ## The compiler -/

/-- Whether a path names a file rather than a module. -/
def isFilePath (path : Text) : Bool := (Text.ofString ".py").isSuffixOf path || path.contains '/'

/-- Why no module has the name `path`. Its parts are looked for one below the other, and none of
the known modules holds others. -/
def importFault (known : List (Text × CompilerModule)) (path : Text) : ConfigFault :=
  let (first, below) := path.splitAt? '.'
  match known.lookup first, below with
  | some _, some below =>
    .compilerBelowModule path (first ++ "." ++ (below.splitAt? '.').1) first
  | _, _ => .compilerNotImportable path first

/-- The compiler of a module. No file is a compiler, and a name has to start with a module. -/
def loadCompiler (known : List (Text × CompilerModule)) (path : Text) : Except Error Compiler :=
  if isFilePath path then fault (.compilerFileNotFound path)
  else if path.head? = some (CodePoint.scalar '.') then .error .malformed
  else
    match known.lookup path with
    | some (.function c) => .ok c
    | some .withoutFunction => fault (.compilerWithoutFunction path)
    | none => fault (importFault known path)

/-- The compiler that the options ask for: `given`, or the one that they name. -/
def compiler (o : Options) (known : List (Text × CompilerModule)) (given : Option Compiler) :
    Except Error Compiler :=
  let isGiven := given.isSome || !(o.compilerValue matches .null)
  if o.compilerPath.isOn && isGiven then fault .twoCompilers
  else
    match given, o.compilerValue, o.compilerPath with
    | some c, _, _ => .ok c
    | none, .null, .str (c :: path) => loadCompiler known (c :: path)
    | none, .null, v => if v.isOn then .error .malformed else fault .noCompiler
    | none, _, _ => fault .compilerNotFunction

end Options

end InlineTemplates
