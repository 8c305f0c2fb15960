import InlineTemplates.Number.Double
import InlineTemplates.Operator

/-!
# The forms of nodes

A syntax tree is a tree of nodes. The form of a node says which construct it is and holds what is
not a node itself; the slots of a form name the parts of the construct in source order.
-/

namespace InlineTemplates

/-- The value of a literal. -/
inductive Literal where
  | str (t : Text)
  | int (n : Nat)
  | float (d : Double)
  | bool (b : Bool)
  | null
deriving DecidableEq, Inhabited

/-- The keyword of a declaration of variables. -/
inductive VarKind where
  | const | let | var
deriving DecidableEq, Inhabited

def VarKind.text : VarKind → Text
  | const => "const"
  | .let => "let"
  | var => "var"

/-- What a loop over an object runs through: its values or its keys. -/
inductive Iteration where
  | values | keys
deriving DecidableEq, Inhabited

def Iteration.text : Iteration → Text
  | values => "of"
  | keys => "in"

/-- What a method is to its object. -/
inductive MethodRole where
  | method | getter | setter
deriving DecidableEq, Inhabited

def MethodRole.text : MethodRole → Text
  | method => "method"
  | getter => "get"
  | setter => "set"

/-- The form of a node. -/
inductive Form where
  -- expressions
  | name (ident : Text)
  | literal (value : Literal)
  | template
  | tagged
  | spread
  | call (optional : Bool)
  | new
  | attr (property : Text) (optional : Bool)
  | index (optional : Bool)
  | array
  | object
  | arrow (isAsync : Bool)
  | function (isAsync : Bool)
  | classExpr
  | unary (op : UnaryOp)
  | update (op : UpdateOp) (inFront : Bool)
  | binary (op : BinaryOp)
  | ternary
  | assign (op : AssignOp)
  -- parts of expressions
  | quasi (raw cooked : Text)
  | property (computed shorthand : Bool)
  | objectMethod (computed : Bool) (role : MethodRole) (isAsync : Bool)
  | param (rest : Bool)
  -- statements
  | block (stop : Option Location) (trailing : List Text)
  | exprStmt
  | emptyStmt
  | returnStmt
  | throwStmt
  | breakStmt
  | continueStmt
  | ifStmt
  | varDecl (kind : VarKind)
  | forStmt
  | forIn (kind : VarKind) (runs : Iteration)
  | whileStmt
  | doWhile
  | tryStmt
  | functionDecl (isAsync : Bool)
  | classDecl
  | importDecl
  | exportNamed
  | exportDefault
  -- parts of statements
  | declarator
  | catchClause
  | classBody (stop : Option Location) (trailing : List Text)
  | classMethod (computed isStatic : Bool) (role : MethodRole) (isAsync : Bool)
  | classProperty (computed isStatic : Bool)
  | importDefault
  | importNamespace
  | importNamed
  | exportSpecifier
  -- the whole
  | program (trailing : List Text)
deriving DecidableEq, Inhabited

/-! ## Slots -/

/-- How many nodes a slot holds. -/
inductive Arity where
  | one
  | maybe
  | many
deriving DecidableEq, Inhabited

/-- Which nodes of a slot comments are put in front of. -/
inductive Anchoring where
  /-- All of them: each has a line of its own, or is the body of a statement. -/
  | all
  /-- Those that are expressions. -/
  | expressions
  /-- None, nor any node below them: they are printed without comments. -/
  | none
deriving DecidableEq, Inhabited

/-- What the nodes of a slot are. -/
inductive Content where
  | expression
  | statement
  | name
  /-- A name, or a string in its place. -/
  | nameOrString
  /-- The value that names a module. -/
  | source
  | template
  | quasi
  | member
  | param
  | block
  /-- A block, or an expression in its place. -/
  | blockOrExpression
  /-- A declaration of variables, or an expression in its place. -/
  | variablesOrExpression
  | declarator
  | handler
  | classBody
  | classMember
  | importSpecifier
  | exportSpecifier
deriving DecidableEq, Inhabited

/-- A part of a form. -/
structure Slot where
  name : String
  arity : Arity
  content : Content
  anchoring : Anchoring
deriving DecidableEq, Inhabited

namespace Slot

def one (name : String) (content : Content) : Slot := ⟨name, .one, content, .expressions⟩

def maybe (name : String) (content : Content) : Slot := ⟨name, .maybe, content, .expressions⟩

def many (name : String) (content : Content) : Slot := ⟨name, .many, content, .expressions⟩

def anchored (s : Slot) : Slot := { s with anchoring := .all }

def silent (s : Slot) : Slot := { s with anchoring := .none }

end Slot

namespace Form

open Slot in
/-- The slots of a form, in source order. -/
def slots : Form → List Slot
  | name .. => []
  | literal .. => []
  | template => [many "quasis" .quasi, many "expressions" .expression]
  | tagged => [one "tag" .expression, silent (one "quasi" .template)]
  | spread => [one "value" .expression]
  | call .. => [one "func" .expression, many "args" .expression]
  | new => [one "func" .expression, many "args" .expression]
  | attr .. => [one "value" .expression]
  | index .. => [one "value" .expression, one "index" .expression]
  | array => [many "elements" .expression]
  | object => [anchored (many "properties" .member)]
  | arrow .. => [many "params" .param, one "body" .blockOrExpression]
  | function .. => [silent (maybe "name" .name), many "params" .param, one "body" .block]
  | classExpr =>
    [silent (maybe "name" .name), maybe "superclass" .expression, one "body" .classBody]
  | unary .. => [one "operand" .expression]
  | update .. => [one "operand" .expression]
  | binary .. => [one "left" .expression, one "right" .expression]
  | ternary =>
    [one "condition" .expression, one "then_value" .expression, one "else_value" .expression]
  | assign .. => [one "target" .expression, one "value" .expression]
  | quasi .. => []
  | property .. => [one "key" .expression, one "value" .expression]
  | objectMethod .. => [one "key" .expression, many "params" .param, one "body" .block]
  | param .. => [silent (one "name" .name), maybe "default" .expression]
  | block .. => [anchored (many "statements" .statement)]
  | exprStmt => [one "value" .expression]
  | emptyStmt => []
  | returnStmt => [maybe "value" .expression]
  | throwStmt => [one "value" .expression]
  | breakStmt => []
  | continueStmt => []
  | ifStmt =>
    [one "condition" .expression, anchored (one "then_branch" .statement),
      anchored (maybe "else_branch" .statement)]
  | varDecl .. => [many "declarations" .declarator]
  | forStmt =>
    [maybe "init" .variablesOrExpression, maybe "test" .expression, maybe "update" .expression,
      anchored (one "body" .statement)]
  | forIn .. =>
    [silent (one "name" .name), one "iterable" .expression, anchored (one "body" .statement)]
  | whileStmt => [one "condition" .expression, anchored (one "body" .statement)]
  | doWhile => [anchored (one "body" .statement), one "condition" .expression]
  | tryStmt => [one "block" .block, maybe "handler" .handler, maybe "finalizer" .block]
  | functionDecl .. => [silent (one "name" .name), many "params" .param, one "body" .block]
  | classDecl =>
    [silent (maybe "name" .name), maybe "superclass" .expression, one "body" .classBody]
  | importDecl => [silent (many "specifiers" .importSpecifier), silent (one "source" .source)]
  | exportNamed =>
    [maybe "declaration" .statement, silent (many "specifiers" .exportSpecifier),
      silent (maybe "source" .source)]
  | exportDefault => [one "value" .expression]
  | declarator => [silent (one "name" .name), maybe "init" .expression]
  | catchClause => [silent (maybe "param" .name), one "body" .block]
  | classBody .. => [anchored (many "members" .classMember)]
  | classMethod .. => [one "key" .expression, many "params" .param, one "body" .block]
  | classProperty .. => [one "key" .expression, maybe "value" .expression]
  | importDefault => [one "local" .name]
  | importNamespace => [one "local" .name]
  | importNamed => [one "imported" .nameOrString, one "local" .name]
  | exportSpecifier => [one "local" .nameOrString, maybe "exported" .nameOrString]
  | program .. => [anchored (many "body" .statement)]

/-- The name of a form in messages. -/
def label : Form → String
  | name .. => "Name"
  | literal .. => "Literal"
  | template => "TemplateLiteral"
  | tagged => "TaggedTemplate"
  | spread => "Spread"
  | call .. => "Call"
  | new => "New"
  | attr .. => "Attr"
  | index .. => "Index"
  | array => "ArrayLiteral"
  | object => "ObjectLiteral"
  | arrow .. => "ArrowFunction"
  | function .. => "FunctionExpr"
  | classExpr => "ClassExpr"
  | unary .. => "Unary"
  | update .. => "Update"
  | binary .. => "Binary"
  | ternary => "Ternary"
  | assign .. => "Assign"
  | quasi .. => "TemplateElement"
  | property .. => "Property"
  | objectMethod .. => "ObjectMethod"
  | param .. => "Param"
  | block .. => "Block"
  | exprStmt => "ExprStmt"
  | emptyStmt => "EmptyStmt"
  | returnStmt => "ReturnStmt"
  | throwStmt => "ThrowStmt"
  | breakStmt => "BreakStmt"
  | continueStmt => "ContinueStmt"
  | ifStmt => "IfStmt"
  | varDecl .. => "VarDecl"
  | forStmt => "ForStmt"
  | forIn .. => "ForInStmt"
  | whileStmt => "WhileStmt"
  | doWhile => "DoWhileStmt"
  | tryStmt => "TryStmt"
  | functionDecl .. => "FunctionDecl"
  | classDecl => "ClassDecl"
  | importDecl => "ImportDecl"
  | exportNamed => "ExportNamed"
  | exportDefault => "ExportDefault"
  | declarator => "VarDeclarator"
  | catchClause => "CatchClause"
  | classBody .. => "ClassBody"
  | classMethod .. => "ClassMethod"
  | classProperty .. => "ClassProperty"
  | importDefault => "ImportDefaultSpecifier"
  | importNamespace => "ImportNamespaceSpecifier"
  | importNamed => "ImportSpecifier"
  | exportSpecifier => "ExportSpecifier"
  | program .. => "Program"

/-- Whether nodes of this form are expressions. -/
def isExpression : Form → Bool
  | name .. | literal .. | template | tagged | spread | call .. | new | attr .. | index ..
  | array | object | arrow .. | function .. | classExpr | unary .. | update .. | binary ..
  | ternary | assign .. => true
  | _ => false

/-- Whether nodes of this form are statements. -/
def isStatement : Form → Bool
  | block .. | exprStmt | emptyStmt | returnStmt | throwStmt | breakStmt | continueStmt | ifStmt
  | varDecl .. | forStmt | forIn .. | whileStmt | doWhile | tryStmt | functionDecl .. | classDecl
  | importDecl | exportNamed | exportDefault => true
  | _ => false

/-- The form without what it says under a name, where it can do without that: a flag is off then, a
literal null, and an end unknown. -/
def without? : String → Form → Option Form
  | "value", literal _ => some (literal .null)
  | "cooked", quasi raw _ => some (quasi raw [])
  | "optional", call _ => some (call false)
  | "optional", attr p _ => some (attr p false)
  | "optional", index _ => some (index false)
  | "is_async", arrow _ => some (arrow false)
  | "is_async", function _ => some (function false)
  | "is_async", functionDecl _ => some (functionDecl false)
  | "is_async", objectMethod computed role _ => some (objectMethod computed role false)
  | "is_async", classMethod computed isStatic role _ =>
    some (classMethod computed isStatic role false)
  | "computed", property _ shorthand => some (property false shorthand)
  | "computed", objectMethod _ role isAsync => some (objectMethod false role isAsync)
  | "computed", classMethod _ isStatic role isAsync =>
    some (classMethod false isStatic role isAsync)
  | "computed", classProperty _ isStatic => some (classProperty false isStatic)
  | "shorthand", property computed _ => some (property computed false)
  | "static", classMethod computed _ role isAsync => some (classMethod computed false role isAsync)
  | "static", classProperty computed _ => some (classProperty computed false)
  | "rest", param _ => some (param false)
  | "prefix", update op _ => some (update op false)
  | "end", block _ trailing => some (block none trailing)
  | "end", classBody _ trailing => some (classBody none trailing)
  | _, _ => none

/-- Where a block or a class body ends. -/
def stop? : Form → Option Location
  | block stop _ | classBody stop _ => stop
  | _ => none

/-- The form with the end of a block or a class body moved by `f`. -/
def mapStop (f : Location → Location) : Form → Form
  | block stop trailing => block (stop.map f) trailing
  | classBody stop trailing => classBody (stop.map f) trailing
  | form => form

/-- The comments behind the last line of a container of lines; no other form has a place for
them. -/
def trailing? : Form → Option (List Text)
  | block _ trailing | classBody _ trailing | program trailing => some trailing
  | _ => none

/-- The form with the comments behind the last line changed by `f`. -/
def mapTrailing (f : List Text → List Text) : Form → Form
  | block stop trailing => block stop (f trailing)
  | classBody stop trailing => classBody stop (f trailing)
  | program trailing => program (f trailing)
  | form => form

end Form

end InlineTemplates
