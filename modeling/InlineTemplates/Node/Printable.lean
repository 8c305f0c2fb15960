import InlineTemplates.Node

/-!
# Trees that can be printed

Each slot of a form asks for a number of nodes and for their kind. A parsed tree holds what its
slots ask for; an edit can put a node where it does not belong, or take away one that is needed.
Only what the text shows counts.
-/

namespace InlineTemplates

/-- Whether a node of a form can stand where the content is asked for. -/
def Content.allows : Content → Form → Bool
  | expression, f => f.isExpression
  | statement, f => f.isStatement
  | name, .name _ => true
  | nameOrString, .name _ | nameOrString, .literal (.str _) => true
  | template, .template => true
  | quasi, .quasi .. => true
  | member, .property .. | member, .objectMethod .. | member, .spread => true
  | param, .param _ => true
  | block, .block .. => true
  | blockOrExpression, f => f.isExpression || (f matches .block ..)
  | variablesOrExpression, f => f.isExpression || (f matches .varDecl _)
  | declarator, .declarator => true
  | handler, .catchClause => true
  | classBody, .classBody .. => true
  | classMember, .classMethod .. | classMember, .classProperty .. => true
  | importSpecifier, .importDefault | importSpecifier, .importNamespace
  | importSpecifier, .importNamed => true
  | exportSpecifier, .exportSpecifier => true
  | _, _ => false

/-- Whether a slot of the arity can hold `n` nodes. -/
def Arity.allows : Arity → Nat → Bool
  | one, n => n == 1
  | maybe, n => n ≤ 1
  | many, _ => true

namespace Node

mutual

/-- Whether the tree has a text. -/
def isPrintable : Node → Bool
  | template _ quasis expressions =>
    arePrintableNodes .quasi quasis && arePrintableHoles quasis expressions
  | mk _ form slots => arePrintableSlots form.slots slots

def arePrintableSlots : List Slot → List (List Node) → Bool
  | [], [] => true
  | s :: specs, ns :: slots =>
    s.arity.allows ns.length && arePrintableNodes s.content ns && arePrintableSlots specs slots
  | _, _ => false

/-- Whether all nodes of a slot can be printed there. Of what names a module only the value is
shown. -/
def arePrintableNodes (content : Content) : List Node → Bool
  | [] => true
  | n :: rest =>
    (if content = .source then n.source?.isSome else content.allows n.form && isPrintable n) &&
      arePrintableNodes content rest

/-- Whether the holes of a template can be printed. A hole without a chunk in front of it is not
shown. -/
def arePrintableHoles (quasis : List Node) : List Node → Bool
  | [] => true
  | e :: expressions =>
    match quasis with
    | [] => true
    | _ :: quasis =>
      e.isExpression && isPrintable e && arePrintableHoles quasis expressions

end

end Node

end InlineTemplates
