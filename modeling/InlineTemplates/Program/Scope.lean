import InlineTemplates.Node
import InlineTemplates.Number.Shortest
import InlineTemplates.Text.Identifier

/-!
# The names of a program

Names are introduced and changed at the level of the module only. So it is enough to know all names
that a program mentions: a fresh name is none of them, and a binding of the module is renamed
wherever no inner declaration of the name hides it.
-/

namespace InlineTemplates

namespace Scope

/-! ## Declarations -/

/-- The local name of an import specifier. -/
def localName? : Node → Option Text
  | .importDefault _ localName | .importNamespace _ localName | .importNamed _ _ localName =>
    localName.ident?
  | _ => none

/-- The names of a declaration of variables. -/
def declaratorNames (declarations : List Node) : List Text :=
  declarations.filterMap fun
    | .declarator _ name _ => name.ident?
    | _ => none

mutual

/-- The names that `var` declares anywhere in a statement, but not inside functions. -/
def hoisted : Node → List Text
  | .varDecl _ kind declarations => if kind = .var then declaratorNames declarations else []
  | .block _ _ _ statements => hoistedAll statements
  | .ifStmt _ _ thenBranch elseBranch => hoisted thenBranch ++ hoistedAll elseBranch
  | .forStmt _ initial _ _ body => hoistedAll initial ++ hoisted body
  | .forIn _ kind _ name _ body =>
    (if kind = .var then name.ident?.toList else []) ++ hoisted body
  | .whileStmt _ _ body => hoisted body
  | .doWhile _ body _ => hoisted body
  | .tryStmt _ block handler finalizer =>
    hoisted block ++ hoistedAll handler ++ hoistedAll finalizer
  | .catchClause _ _ body => hoisted body
  | _ => []

def hoistedAll : List Node → List Text
  | [] => []
  | n :: rest => hoisted n ++ hoistedAll rest

end

/-- The statement that an export declares, or the statement itself. -/
def declaration : Node → Node
  | .exportNamed _ [declared] _ _ => declared
  | n => n

/-- The names that a statement declares in the scope in which it stands, apart from `var`. -/
def declaredBy (statement : Node) : List Text :=
  match declaration statement with
  | .importDecl _ specifiers _ => specifiers.filterMap localName?
  | .functionDecl _ _ name _ _ => name.ident?.toList
  | .classDecl _ name _ _ => name.filterMap Node.ident?
  | .varDecl _ kind declarations => if kind = .var then [] else declaratorNames declarations
  | _ => []

/-- The names that the statements of a block declare. -/
def declaredInBlock (statements : List Node) : List Text := statements.flatMap declaredBy

/-- The names that the statements of a function or a module declare. Those of `var` are among them
wherever they stand. -/
def declared (statements : List Node) : List Text :=
  declaredInBlock statements ++ statements.flatMap fun n => hoisted (declaration n)

/-! ## Renaming -/

/-- Whether a function with these parameters and this body hides `name`. -/
def functionHides (name : Text) (params : List Node) (body : Node) : Bool :=
  let named : Node → Bool
    | .param _ _ p _ => p.ident? == some name
    | _ => false
  params.any named ||
    match body with
    | .block _ _ _ statements => (declared statements).contains name
    | _ => false

/-- Whether a node hides `name` from all that is below it. -/
def hides (name : Text) : Node → Bool
  | .function _ _ own params body =>
    own.any (·.ident? == some name) || functionHides name params body
  | .arrow _ _ params body => functionHides name params body
  | .block _ _ _ statements => (declaredInBlock statements).contains name
  | .forStmt _ [.varDecl _ kind declarations] _ _ _ =>
    kind != .var && (declaratorNames declarations).contains name
  | .catchClause _ param _ => param.any (·.ident? == some name)
  | _ => false

/-- An export specifier with its local name changed. The exported name stays what it was. -/
def renameExport (old new : Text) : Node → Node
  | .exportSpecifier head (.name localHead ident) exported =>
    if ident = old then
      .exportSpecifier head (.name ⟨localHead.loc, []⟩ new)
        (if exported.isEmpty then [.name ⟨localHead.loc, []⟩ old] else exported)
    else .exportSpecifier head (.name localHead ident) exported
  | n => n

mutual

/-- The tree with the name `old` changed to `new` where it stands for the binding outside. -/
def rename (old new : Text) : Node → Node
  | .name head ident => .name head (if ident = old then new else ident)
  | .functionDecl head isAsync name params body =>
    let name := rename old new name
    if functionHides old params body then .functionDecl head isAsync name params body
    else .functionDecl head isAsync name (renameAll old new params) (rename old new body)
  | .objectMethod head computed role isAsync key params body =>
    let key := if computed then rename old new key else key
    if functionHides old params body then .objectMethod head computed role isAsync key params body
    else
      .objectMethod head computed role isAsync key (renameAll old new params) (rename old new body)
  | .classMethod head computed isStatic role isAsync key params body =>
    let key := if computed then rename old new key else key
    if functionHides old params body then
      .classMethod head computed isStatic role isAsync key params body
    else
      .classMethod head computed isStatic role isAsync key (renameAll old new params)
        (rename old new body)
  | .classExpr head name superclass body =>
    if name.any (·.ident? == some old) then
      .classExpr head name (renameAll old new superclass) body
    else
      .classExpr head (renameAll old new name) (renameAll old new superclass) (rename old new body)
  | .classProperty head computed isStatic key value =>
    .classProperty head computed isStatic (if computed then rename old new key else key)
      (renameAll old new value)
  | .forIn head kind runs name iterable body =>
    let iterable := rename old new iterable
    if kind != .var && name.ident? == some old then
      .forIn head kind runs name iterable body
    else
      .forIn head kind runs (rename old new name) iterable (rename old new body)
  | .property head computed shorthand key value =>
    let key := if computed then rename old new key else key
    if shorthand && value.ident? == some old then
      .property head computed false key (.name ⟨value.loc, []⟩ new)
    else .property head computed shorthand key (rename old new value)
  | .importNamed head imported localName =>
    .importNamed head imported (rename old new localName)
  | .exportNamed head declaration specifiers source =>
    .exportNamed head (renameAll old new declaration)
      (if source.isEmpty then specifiers.map (renameExport old new) else specifiers) source
  | .mk head form slots =>
    if hides old (.mk head form slots) then .mk head form slots
    else .mk head form (renameSlots old new slots)

def renameSlots (old new : Text) : List (List Node) → List (List Node)
  | [] => []
  | slot :: rest => renameAll old new slot :: renameSlots old new rest

def renameAll (old new : Text) : List Node → List Node
  | [] => []
  | n :: rest => rename old new n :: renameAll old new rest

end

/-- The program with a binding of the module renamed. -/
def renameProgram (old new : Text) : Node → Node
  | .program head trailing body => .program head trailing (renameAll old new body)
  | n => n

end Scope

/-! ## The names of a program -/

/-- The names of a program: those that the module binds, all that are mentioned, and those that
were handed out. -/
structure Scope where
  bindings : List Text
  references : List Text
  uids : List Text
deriving Inhabited

namespace Scope

/-- The names of a program before any are handed out. -/
def ofProgram (n : Node) : Scope where
  bindings :=
    match n with
    | .program _ _ body => declared body
    | _ => []
  references := n.nodes.filterMap Node.ident?
  uids := []

/-- Adds a binding of the module. -/
def register (s : Scope) (name : Text) : Scope :=
  { s with bindings := name :: s.bindings, references := name :: s.references }

/-- The names after the binding `old` of the module is renamed to `new`. -/
def renamed (s : Scope) (old new : Text) : Scope where
  bindings :=
    if s.bindings.contains old then new :: s.bindings.filter (· != old) else s.bindings
  references := new :: s.references
  uids := s.uids

/-- The names that are not free. -/
def taken (s : Scope) : List Text := s.bindings ++ s.references ++ s.uids ++ Identifier.reserved

/-- The `i`-th name to try, counted from zero: `_base`, `_base2`, `_base3` and so on. -/
def candidate (base : Text) (i : Nat) : Text :=
  (Text.ofString "_") ++ base ++ Text.when (i != 0) (Text.ofNat (i + 1))

/-- The first candidate that is free. One more candidate than there are taken names is enough. -/
def firstFree (base : Text) (taken : List Text) : Text :=
  (((List.range (taken.length + 1)).map (candidate base)).find? (!taken.contains ·)).getD []

/-- A fresh name that is built from `text`. -/
def freshName (s : Scope) (text : Text) : Text :=
  let name := (Identifier.ofText text).dropWhile fun (c : CodePoint) => c == '_'
  firstFree (Identifier.withoutNumber name) s.taken

/-- Hands out a fresh name that is built from `text`. -/
def generate (s : Scope) (text : Text) : Text × Scope :=
  let uid := s.freshName text
  (uid, { s with references := uid :: s.references, uids := uid :: s.uids })

/-- The text that a literal has in a name. -/
def literalPart : Literal → List Text
  | .str t => [t]
  | .int n => [Text.ofNat n]
  | .float d => [d.text]
  | .bool true => ["True"]
  | .bool false => ["False"]
  | .null => []

/-- The texts that say what a node refers to. An import is named after its source. -/
def nameParts : Node → List Text
  | .importDecl _ _ (.literal _ value) => literalPart value
  | .name _ ident => [ident]
  | .literal _ value => literalPart value
  | .attr _ property _ value => nameParts value ++ [property]
  | .call _ _ func _ => nameParts func
  | .declarator _ name _ => nameParts name
  | _ => []

/-- The greatest length of a text that a fresh name is built from when it comes from a node. -/
def nodeNameLimit : Nat := 20

/-- The text from which a fresh name for a node is built. -/
def nodeText (parts : List Text) (otherwise : Text) : Text :=
  let joined := Text.join "$" parts
  let base := if joined.head? = some '_' then joined.drop 1 else joined
  (if base.isEmpty then otherwise else base).take nodeNameLimit

/-- Hands out a fresh name that says what a node refers to. -/
def generateFor (s : Scope) (n : Option Node) (otherwise : Text) : Text × Scope :=
  s.generate (nodeText ((n.map nameParts).getD []) otherwise)

end Scope

end InlineTemplates
