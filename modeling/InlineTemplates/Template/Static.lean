import InlineTemplates.Failure
import InlineTemplates.Node
import InlineTemplates.Number.Shortest
import InlineTemplates.Value

/-!
# Static evaluation

The options of a template are read without running code. Strings, numbers and booleans have values,
and so have lists and objects of what has one. Everything else is refused as a whole.
-/

namespace InlineTemplates

namespace Literal

/-- The static value of a literal; null has none. -/
def value? : Literal → Option Value
  | str t => some (.str t)
  | int n => some (.int n)
  | float d => some (.float d)
  | bool b => some (.bool b)
  | null => none

/-- A literal in messages. -/
def described : Literal → Text
  | str t => "literal " ++ t.quoted
  | int n => "literal " ++ Text.ofNat n
  | float d => "literal " ++ d.text
  | bool true => "literal True"
  | bool false => "literal False"
  | null => "null literal"

end Literal

namespace Node

/-- A node in messages. -/
def described : Node → Text
  | name _ ident => "identifier " ++ inCode ident
  | literal _ value => value.described
  | n => n.form.label

/-- The name of a member that is known without running code. -/
def staticName? (computed : Bool) (key : Node) : Option Text :=
  if computed then none else key.nameText?

end Node

namespace Static

variable (origin : SourceUnit) (invoked : Text)

/-- A fault at a node. `origin` is the source of the node. -/
def fault {α : Type} (n : Node) (f : StaticFault) : Except Error α :=
  .error (.report ⟨.static f, n.loc, origin⟩)

/-! ## Scopes -/

/-- The object that a scope function returns, or what stands in its place. `member` is the member
`scope`. -/
def scopeObject? (member : Node) : Except Error (Option Node) :=
  let ofBody (body : Node) : Except Error (Option Node) :=
    match body with
    | .block _ _ _ [.returnStmt _ value] => .ok value.head?
    | .block .. => fault origin member .scopeStatements
    | body => .ok (some body)
  match member with
  | .objectMethod _ _ _ _ _ _ body => ofBody body
  | .property _ _ _ _ (.object ..) => fault origin member .scopeObject
  | .property _ _ _ _ (.function _ _ _ _ body) => ofBody body
  | .property _ _ _ _ (.arrow _ _ _ body) => ofBody body
  | _ => .ok none

/-- The name that a member of a scope object lists. -/
def scopeName (member : Node) : Node → Except Error Text
  | .spread .. => fault origin member (.scopeSpread invoked)
  | .objectMethod .. => fault origin member (.scopeMethod invoked)
  | .property _ computed _ key value =>
    match Node.staticName? computed key with
    | none => fault origin member (.scopeDynamicName invoked)
    | some name =>
      if value.ident? = some name then .ok name
      else fault origin member (.scopeNotReference invoked name)
  | _ => .error .malformed

/-- The names that the member `scope` lists, in order. -/
def scopeNames (member : Node) : Except Error (List Text) := do
  match ← scopeObject? origin member with
  | some (.object _ members) => members.mapM (scopeName origin invoked member)
  | _ => fault origin member (.scopeNotObject invoked)

/-! ## Values -/

/-- The name of a member of an object of options. -/
def memberName (member : Node) (computed : Bool) (key : Node) : Except Error Text :=
  match Node.staticName? computed key with
  | some name => .ok name
  | none => fault origin member (.dynamicName invoked)

/-- Whether the member lists the values in scope instead of an option. -/
def isScope (readsScope : Bool) (name : Text) : Bool := readsScope && name == "scope"

mutual

/-- The value of an expression. -/
def value : Node → Except Error Value
  | .object _ members => do return .mapping (← entries false [] members)
  | .array _ elements => do return .list (← values elements)
  | .literal head l =>
    match l.value? with
    | some v => .ok v
    | none => fault origin (.literal head l) (.notStatic invoked l.described)
  | n => fault origin n (.notStatic invoked n.described)

/-- The values of the elements of a list. -/
def values : List Node → Except Error (List Value)
  | [] => .ok []
  | .spread head inner :: _ => fault origin (.spread head inner) .spreadElement
  | n :: rest => do
    let v ← value n
    return v :: (← values rest)

/-- The entries behind `before`. With `readsScope` the member `scope` is read as a scope, whose
names are the entry `locals`. -/
def entries (readsScope : Bool) (before : Entries) : List Node → Except Error Entries
  | [] => .ok before
  | .property head computed shorthand key inner :: rest => do
    let member := Node.property head computed shorthand key inner
    let name ← memberName origin invoked member computed key
    if isScope readsScope name then
      let names ← scopeNames origin invoked member
      entries readsScope (before.set "locals" (.list (names.map .str))) rest
    else
      let v ← value inner
      entries readsScope (before.set name v) rest
  | .objectMethod head computed role isAsync key params body :: rest => do
    let member := Node.objectMethod head computed role isAsync key params body
    let name ← memberName origin invoked member computed key
    if isScope readsScope name then
      let names ← scopeNames origin invoked member
      entries readsScope (before.set "locals" (.list (names.map .str))) rest
    else fault origin member (.method invoked name)
  | .spread head inner :: _ => fault origin (.spread head inner) (.spreadProperty invoked)
  | _ :: _ => .error .malformed

end

/-- The options of an object, with a scope or without. -/
def options (readsScope : Bool) (n : Node) : Except Error Entries :=
  match n with
  | .object _ members => entries origin invoked readsScope [] members
  | _ => .error .malformed

end Static

end InlineTemplates
