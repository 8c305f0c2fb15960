import InlineTemplates.Options
import InlineTemplates.Program.Scope

/-!
# Imports that a program needs

An export that is asked for gets a local name: that of an import which the program already has, or a
fresh one with a new import in front of the program. The same export gets the same name each time.
-/

namespace InlineTemplates

namespace Node

/-- The specifiers and the source of an import. -/
def importParts? : Node → Option (List Node × Text)
  | importDecl _ specifiers source => source.string?.map fun t => (specifiers, t)
  | _ => none

/-- Whether a specifier imports the given export by name, or as the default. -/
def importsExport (exported : Text) : Node → Bool
  | importDefault .. => exported == "default"
  | importNamed _ imported _ => exported != "default" && imported.nameText? == some exported
  | _ => false

end Node

/-- The local name of an export. -/
structure ImportedName where
  name : Text
  /-- Whether a new import declares it. -/
  isNew : Bool
  /-- How many statements of the program stood behind the import. Later imports stand in front, so
  this does not change. -/
  behind : Nat
deriving DecidableEq, Inhabited

/-- The local names that were handed out, by what was asked for. -/
abbrev Imports := List (Target × ImportedName)

namespace Imports

/-- The local name that an import declaration gives to an export. -/
def localName? (t : Target) (statement : Node) : Option Text :=
  match statement.importParts? with
  | some (specifiers, source) =>
    if source = t.module then
      (specifiers.find? (Node.importsExport t.exported)).bind Scope.localName?
    else none
  | none => none

/-- The first import of an export among the statements of a program. -/
def existing? (t : Target) : List Node → Option ImportedName
  | [] => none
  | statement :: rest =>
    match localName? t statement with
    | some name => some ⟨name, false, rest.length⟩
    | none => existing? t rest

/-- A new import of an export under a local name. -/
def declaration (t : Target) (localName : Text) : Node :=
  let localNode : Node := .name .fresh localName
  let specifier : Node :=
    if t.exported = "default" then .importDefault .fresh localNode
    else .importNamed .fresh (.name .fresh t.exported) localNode
  .importDecl .fresh [specifier] (.literal .fresh (.str t.module))

/-- What asking for an export leads to. -/
structure Grant where
  imported : ImportedName
  /-- The import that has to be put in front of the program. -/
  declaration : Option Node
  scope : Scope
  imports : Imports

/-- A local name for `asked`, which is read as `real`. -/
def request (imports : Imports) (asked real : Target) (statements : List Node) (scope : Scope) :
    Grant :=
  match imports.lookup asked with
  | some imported => ⟨imported, none, scope, imports⟩
  | none =>
    match existing? real statements with
    | some imported => ⟨imported, none, scope, (asked, imported) :: imports⟩
    | none =>
      let (uid, scope) :=
        scope.generate (if real.exported = "default" then real.module else real.exported)
      let imported : ImportedName := ⟨uid, true, statements.length⟩
      ⟨imported, some (declaration real uid), scope.register uid, (asked, imported) :: imports⟩

end Imports

end InlineTemplates
