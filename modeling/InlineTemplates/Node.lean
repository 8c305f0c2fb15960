import InlineTemplates.Form

/-!
# Syntax trees

A node has a form and, for each slot of the form, the nodes in it: one, at most one, or any number.
In front of all that stand its place in the source and the comments in front of it.
-/

namespace InlineTemplates

/-- Where a node starts, and the comments in front of it, delimiters included. A node that is not
from a source starts nowhere. -/
structure Head where
  loc : Option Location
  comments : List Text
deriving DecidableEq, Inhabited

namespace Head

/-- The head of a node that is not from a source. -/
def fresh : Head := ⟨none, []⟩

/-- The head of a node that starts at `l` and has no comments yet. -/
def ofLoc (l : Location) : Head := ⟨some l, []⟩

end Head

/-- A node of a syntax tree. -/
inductive Node where
  | mk (head : Head) (form : Form) (slots : List (List Node))
deriving Inhabited

namespace Node

/-! ## Constructs -/

@[match_pattern] abbrev name (head : Head) (ident : Text) : Node :=
  .mk head (.name ident) []

@[match_pattern] abbrev literal (head : Head) (value : Literal) : Node :=
  .mk head (.literal value) []

@[match_pattern] abbrev template (head : Head) (quasis expressions : List Node) : Node :=
  .mk head .template [quasis, expressions]

@[match_pattern] abbrev tagged (head : Head) (tag quasi : Node) : Node :=
  .mk head .tagged [[tag], [quasi]]

@[match_pattern] abbrev spread (head : Head) (value : Node) : Node :=
  .mk head .spread [[value]]

@[match_pattern] abbrev call (head : Head) (optional : Bool) (func : Node)
    (args : List Node) : Node :=
  .mk head (.call optional) [[func], args]

@[match_pattern] abbrev new (head : Head) (func : Node) (args : List Node) : Node :=
  .mk head .new [[func], args]

@[match_pattern] abbrev attr (head : Head) (property : Text) (optional : Bool)
    (value : Node) : Node :=
  .mk head (.attr property optional) [[value]]

@[match_pattern] abbrev index (head : Head) (optional : Bool) (value index : Node) : Node :=
  .mk head (.index optional) [[value], [index]]

@[match_pattern] abbrev array (head : Head) (elements : List Node) : Node :=
  .mk head .array [elements]

@[match_pattern] abbrev object (head : Head) (properties : List Node) : Node :=
  .mk head .object [properties]

@[match_pattern] abbrev arrow (head : Head) (isAsync : Bool) (params : List Node)
    (body : Node) : Node :=
  .mk head (.arrow isAsync) [params, [body]]

@[match_pattern] abbrev function (head : Head) (isAsync : Bool) (name params : List Node)
    (body : Node) : Node :=
  .mk head (.function isAsync) [name, params, [body]]

@[match_pattern] abbrev classExpr (head : Head) (name superclass : List Node)
    (body : Node) : Node :=
  .mk head .classExpr [name, superclass, [body]]

@[match_pattern] abbrev unary (head : Head) (op : UnaryOp) (operand : Node) : Node :=
  .mk head (.unary op) [[operand]]

@[match_pattern] abbrev update (head : Head) (op : UpdateOp) (inFront : Bool)
    (operand : Node) : Node :=
  .mk head (.update op inFront) [[operand]]

@[match_pattern] abbrev binary (head : Head) (op : BinaryOp) (left right : Node) : Node :=
  .mk head (.binary op) [[left], [right]]

@[match_pattern] abbrev ternary (head : Head) (condition thenValue elseValue : Node) : Node :=
  .mk head .ternary [[condition], [thenValue], [elseValue]]

@[match_pattern] abbrev assign (head : Head) (op : AssignOp) (target value : Node) : Node :=
  .mk head (.assign op) [[target], [value]]

@[match_pattern] abbrev quasi (head : Head) (raw cooked : Text) : Node :=
  .mk head (.quasi raw cooked) []

@[match_pattern] abbrev property (head : Head) (computed shorthand : Bool)
    (key value : Node) : Node :=
  .mk head (.property computed shorthand) [[key], [value]]

@[match_pattern] abbrev objectMethod (head : Head) (computed : Bool) (role : MethodRole)
    (isAsync : Bool) (key : Node) (params : List Node) (body : Node) : Node :=
  .mk head (.objectMethod computed role isAsync) [[key], params, [body]]

@[match_pattern] abbrev param (head : Head) (rest : Bool) (name : Node)
    (defaultValue : List Node) : Node :=
  .mk head (.param rest) [[name], defaultValue]

@[match_pattern] abbrev block (head : Head) (stop : Option Location) (trailing : List Text)
    (statements : List Node) : Node :=
  .mk head (.block stop trailing) [statements]

@[match_pattern] abbrev exprStmt (head : Head) (value : Node) : Node :=
  .mk head .exprStmt [[value]]

@[match_pattern] abbrev emptyStmt (head : Head) : Node :=
  .mk head .emptyStmt []

@[match_pattern] abbrev returnStmt (head : Head) (value : List Node) : Node :=
  .mk head .returnStmt [value]

@[match_pattern] abbrev throwStmt (head : Head) (value : Node) : Node :=
  .mk head .throwStmt [[value]]

@[match_pattern] abbrev breakStmt (head : Head) : Node :=
  .mk head .breakStmt []

@[match_pattern] abbrev continueStmt (head : Head) : Node :=
  .mk head .continueStmt []

@[match_pattern] abbrev ifStmt (head : Head) (condition thenBranch : Node)
    (elseBranch : List Node) : Node :=
  .mk head .ifStmt [[condition], [thenBranch], elseBranch]

@[match_pattern] abbrev varDecl (head : Head) (kind : VarKind) (declarations : List Node) : Node :=
  .mk head (.varDecl kind) [declarations]

@[match_pattern] abbrev forStmt (head : Head) (initial test update : List Node)
    (body : Node) : Node :=
  .mk head .forStmt [initial, test, update, [body]]

@[match_pattern] abbrev forIn (head : Head) (kind : VarKind) (runs : Iteration)
    (name iterable body : Node) : Node :=
  .mk head (.forIn kind runs) [[name], [iterable], [body]]

@[match_pattern] abbrev whileStmt (head : Head) (condition body : Node) : Node :=
  .mk head .whileStmt [[condition], [body]]

@[match_pattern] abbrev doWhile (head : Head) (body condition : Node) : Node :=
  .mk head .doWhile [[body], [condition]]

@[match_pattern] abbrev tryStmt (head : Head) (block : Node)
    (handler finalizer : List Node) : Node :=
  .mk head .tryStmt [[block], handler, finalizer]

@[match_pattern] abbrev functionDecl (head : Head) (isAsync : Bool) (name : Node)
    (params : List Node) (body : Node) : Node :=
  .mk head (.functionDecl isAsync) [[name], params, [body]]

@[match_pattern] abbrev classDecl (head : Head) (name superclass : List Node)
    (body : Node) : Node :=
  .mk head .classDecl [name, superclass, [body]]

@[match_pattern] abbrev importDecl (head : Head) (specifiers : List Node) (source : Node) : Node :=
  .mk head .importDecl [specifiers, [source]]

@[match_pattern] abbrev exportNamed (head : Head)
    (declaration specifiers source : List Node) : Node :=
  .mk head .exportNamed [declaration, specifiers, source]

@[match_pattern] abbrev exportDefault (head : Head) (value : Node) : Node :=
  .mk head .exportDefault [[value]]

@[match_pattern] abbrev declarator (head : Head) (name : Node) (initial : List Node) : Node :=
  .mk head .declarator [[name], initial]

@[match_pattern] abbrev catchClause (head : Head) (param : List Node) (body : Node) : Node :=
  .mk head .catchClause [param, [body]]

@[match_pattern] abbrev classBody (head : Head) (stop : Option Location) (trailing : List Text)
    (members : List Node) : Node :=
  .mk head (.classBody stop trailing) [members]

@[match_pattern] abbrev classMethod (head : Head) (computed isStatic : Bool) (role : MethodRole)
    (isAsync : Bool) (key : Node) (params : List Node) (body : Node) : Node :=
  .mk head (.classMethod computed isStatic role isAsync) [[key], params, [body]]

@[match_pattern] abbrev classProperty (head : Head) (computed isStatic : Bool) (key : Node)
    (value : List Node) : Node :=
  .mk head (.classProperty computed isStatic) [[key], value]

@[match_pattern] abbrev importDefault (head : Head) (localName : Node) : Node :=
  .mk head .importDefault [[localName]]

@[match_pattern] abbrev importNamespace (head : Head) (localName : Node) : Node :=
  .mk head .importNamespace [[localName]]

@[match_pattern] abbrev importNamed (head : Head) (imported localName : Node) : Node :=
  .mk head .importNamed [[imported], [localName]]

@[match_pattern] abbrev exportSpecifier (head : Head) (localName : Node)
    (exported : List Node) : Node :=
  .mk head .exportSpecifier [[localName], exported]

@[match_pattern] abbrev program (head : Head) (trailing : List Text) (body : List Node) : Node :=
  .mk head (.program trailing) [body]

/-! ## Parts of a node -/

def head : Node → Head
  | mk head _ _ => head

def form : Node → Form
  | mk _ form _ => form

def slots : Node → List (List Node)
  | mk _ _ slots => slots

/-- Where the node starts. -/
def loc (n : Node) : Option Location := n.head.loc

/-- The comments in front of the node. -/
def comments (n : Node) : List Text := n.head.comments

def withHead (n : Node) (head : Head) : Node := mk head n.form n.slots

def withLoc (n : Node) (loc : Option Location) : Node := n.withHead { n.head with loc }

def withComments (n : Node) (comments : List Text) : Node := n.withHead { n.head with comments }

/-- The node with comments put in front of those that it has. -/
def prependComments (n : Node) (comments : List Text) : Node :=
  n.withComments (comments ++ n.comments)

/-- The node with comments put behind those that it has, still in front of the node. -/
def appendComments (n : Node) (comments : List Text) : Node :=
  n.withComments (n.comments ++ comments)

/-- The container with comments put in front of those behind its last line. On a node that is no
container of lines nothing happens. -/
def prependTrailing (n : Node) (comments : List Text) : Node :=
  mk n.head (n.form.mapTrailing (comments ++ ·)) n.slots

def isExpression (n : Node) : Bool := n.form.isExpression

def isStatement (n : Node) : Bool := n.form.isStatement

/-- The identifier of a name. -/
def ident? : Node → Option Text
  | name _ ident => some ident
  | _ => none

/-- The value of a string literal. -/
def string? : Node → Option Text
  | literal _ (.str t) => some t
  | _ => none

/-- The value of a node that names a module: that of a literal. A node that has lost the value that
it should have counts as null. -/
def source? : Node → Option Literal
  | literal _ value => some value
  | mk _ form slots =>
    if (form.slots.zip slots).any fun s => s.1.name = "value" && s.2.isEmpty then some .null
    else none

/-- The text of a name or of a string literal, where either can stand. -/
def nameText? (n : Node) : Option Text := n.ident?.or n.string?

/-! ## Children -/

/-- Where a child stands in its parent: in which slot and, in a slot for many, at which index. -/
structure Position where
  slot : String
  index : Option Nat
deriving DecidableEq, Inhabited

/-- The nodes of one slot with their positions. -/
def slotChildren (s : Slot) (nodes : List Node) : List (Position × Node) :=
  nodes.zipIdx.map fun (n, i) => (⟨s.name, if s.arity = .many then some i else none⟩, n)

/-- The children of a node with their positions, in source order. -/
def children (n : Node) : List (Position × Node) :=
  (n.form.slots.zip n.slots).flatMap fun (s, nodes) => slotChildren s nodes

mutual

/-- The node and all nodes below it, each in front of those below it. -/
def nodes : Node → List Node
  | mk head form slots => mk head form slots :: nodesOfSlots slots

def nodesOfSlots : List (List Node) → List Node
  | [] => []
  | slot :: rest => nodesOfList slot ++ nodesOfSlots rest

def nodesOfList : List Node → List Node
  | [] => []
  | n :: rest => nodes n ++ nodesOfList rest

end

mutual

/-- The tree with every place in it moved by `f`. -/
def mapLocations (f : Location → Location) : Node → Node
  | mk head form slots =>
    mk { head with loc := head.loc.map f } (form.mapStop f) (mapLocationsOfSlots f slots)

def mapLocationsOfSlots (f : Location → Location) : List (List Node) → List (List Node)
  | [] => []
  | slot :: rest => mapLocationsOfList f slot :: mapLocationsOfSlots f rest

def mapLocationsOfList (f : Location → Location) : List Node → List Node
  | [] => []
  | n :: rest => mapLocations f n :: mapLocationsOfList f rest

end

end Node

end InlineTemplates
