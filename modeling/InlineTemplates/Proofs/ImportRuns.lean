import InlineTemplates.Proofs.Hygiene

/-!
# Imports over a run

Exports are asked for any number of times and in any order, and the options redirect some of them.
Each answer is the local name of an import of the export that the options say. An import is made at
most once for an export, and only if the program has none; the program stays behind the new ones.
-/

namespace InlineTemplates

namespace Imports

/-! ## Imports of an export -/

/-- A statement imports an export under a local name. -/
def Binds (t : Target) (name : Text) (statement : Node) : Prop :=
  ∃ head specifiers source specifier, statement = .importDecl head specifiers source ∧
    source.string? = some t.module ∧ specifier ∈ specifiers ∧ specifier.importsExport t.exported ∧
    Scope.localName? specifier = some name

variable {t : Target} {name : Text} {statement : Node}

/-- The statements of a program, its names, and the local names that were handed out. -/
structure Session where
  statements : List Node
  scope : Scope
  imports : Imports

/-- An import that was made: the export and its local name. -/
abbrev Made := Target × Text

namespace Session

variable (o : Options)

def ofProgram (program : Node) : Session := ⟨program.slot "body", Scope.ofProgram program, []⟩

/-- What is imported when `asked` is asked for. -/
def real (asked : Target) : Target := o.resolveTarget asked.exported asked.module

def grant (s : Session) (asked : Target) : Grant :=
  s.imports.request asked (real o asked) s.statements s.scope

/-- The local name of an export that is asked for, and what is there behind the request. -/
def ask (s : Session) (asked : Target) : Text × Session :=
  let grant := s.grant o asked
  (grant.imported.name, ⟨grant.declaration.toList ++ s.statements, grant.scope, grant.imports⟩)

/-- The statements that make imports, the latest in front. -/
def declarations (made : List Made) : List Node := made.map fun m => declaration m.1 m.2

variable {o} {program : Node} {answers : List (Target × Text)} {made : List Made} {s : Session}

end Session

end Imports

end InlineTemplates
