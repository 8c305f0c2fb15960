import InlineTemplates.Node.Address
import InlineTemplates.Program.Imports

/-!
# Bindings of templates

The modules that are configured do not exist when the program runs. So each import of their export
is taken out, and its local name becomes a fresh one that nothing else has. A use of that name is
a template.
-/

namespace InlineTemplates

/-- How a local name makes templates. -/
structure Binding where
  /-- The module that the name was imported from, and its options. -/
  module : Text
  options : ModuleOptions
  /-- The local name in the source. -/
  localName : Text
deriving Inhabited

/-- The bindings by the fresh names that they have now, in the order in which they were found. -/
abbrev Registry := List (Text × Binding)

namespace Bindings

/-- A program whose imports are being taken out. -/
structure State where
  program : Node
  scope : Scope
  registry : Registry

/-- The specifier of the export of a module in the import at `index`, with its index. -/
def specifier? (module : Text) (exported : Text) (statement : Node) : Option (Nat × Text) :=
  match statement.importParts? with
  | some (specifiers, source) =>
    if source = module then
      (specifiers.findIdx? (Node.importsExport exported)).bind fun i =>
        (specifiers[i]?.bind Scope.localName?).map fun name => (i, name)
    else none
  | none => none

/-- Takes out the specifier `i` of the import at `index`, or the import if that was all. -/
def takeOut (program : Node) (index i : Nat) : Node :=
  let place : Node.Position := ⟨"body", some index⟩
  match (program.child? place).map (·.slot "specifiers") with
  | some [_] => program.removeChild place
  | _ => program.modifyChild place (·.removeChild ⟨"specifiers", some i⟩)

/-- Binds the specifier `i` of the import at `index`, whose local name is `localName`. -/
def bind (module : Text) (options : ModuleOptions) (s : State) (index i : Nat) (localName : Text) :
    State :=
  let statement := s.program.child? ⟨"body", some index⟩
  let (uid, scope) := s.scope.generateFor statement "ref"
  { program := takeOut (Scope.renameProgram localName uid s.program) index i
    scope := scope.renamed localName uid
    registry := s.registry ++ [(uid, ⟨module, options, localName⟩)] }

/-- Binds what the statements from `index` on import from a module, at most `count` of them. -/
def bindFrom (module : Text) (options : ModuleOptions) : Nat → Nat → State → State
  | 0, _, s => s
  | count + 1, index, s =>
    let statements := s.program.slot "body"
    match statements[index]? with
    | none => s
    | some statement =>
      match specifier? module options.exported statement with
      | none => bindFrom module options count (index + 1) s
      | some (i, localName) =>
        let s' := bind module options s index i localName
        let isGone := (s'.program.slot "body").length < statements.length
        bindFrom module options count (if isGone then index else index + 1) s'

/-- Binds what a program imports from the modules, one module after another. -/
def resolve (modules : List (Text × ModuleOptions)) (program : Node) (scope : Scope) : State :=
  modules.foldl (fun s (module, options) =>
    bindFrom module options (s.program.slot "body").length 0 s) ⟨program, scope, []⟩

end Bindings

end InlineTemplates
