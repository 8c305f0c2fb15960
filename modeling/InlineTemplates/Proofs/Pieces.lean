import InlineTemplates.Node.Print

/-!
# What is printed, piece by piece

A printed tree is made of comments and of the code between them. Here the printer keeps them apart;
put together, the pieces are the text that it prints. A template is one piece of code with all that
is in its holes.
-/

namespace InlineTemplates

inductive Piece where
  | code (t : Text)
  /-- A comment on a line of its own. -/
  | line (comment : Text)
  /-- A comment inside a line. -/
  | inside (comment : Text)

namespace Piece

def text : Piece → Text
  | code t => t
  | line comment => comment
  | inside comment => Print.inlineComment comment

/-- The comment of the tree that a piece shows. -/
def comment? : Piece → Option Text
  | code _ => none
  | line comment | inside comment => some comment

end Piece

/-- What is printed, comments apart. -/
abbrev Pieces := List Piece

namespace Pieces

def text (ps : Pieces) : Text := ps.flatMap Piece.text

/-! ## Layout -/

def code (t : Text) : Pieces := [.code t]

def inlineComments (comments : List Text) : Pieces := comments.map .inside

def line (level : Nat) (comments : List Text) (ps : Pieces) : Pieces :=
  let pad := Print.indentation level
  comments.flatMap (fun c => [.code pad, .line c, .code "\n"]) ++ code pad ++ ps

def join (sep : Text) (items : List Pieces) : Pieces := (code sep).intercalate items

def braced (level : Nat) (lines : List Pieces) (trailing : List Text) (sep : Text) : Pieces :=
  if lines.isEmpty && trailing.isEmpty then code "\x7b\x7d"
  else
    code "\x7b\n" ++
      join (sep ++ "\n")
        (lines ++ trailing.map fun c => [.code (Print.indentation (level + 1)), Piece.line c]) ++
      code "\n" ++ code (Print.indentation level) ++ code "\x7d"

def parenthesized (ps : Pieces) : Pieces := code "(" ++ ps ++ code ")"

def commas (items : List Pieces) : Pieces := join ", " items

def behind (before : Text) (items : List Pieces) : Pieces := items.flatMap (code before ++ ·)

def varDecl (kind : VarKind) (declarations : List Pieces) : Pieces :=
  code kind.text ++ code " " ++ commas declarations

end Pieces

/-! ## Parts of nodes -/

/-- A node with what is printed for it in a line of a given indentation, without the comments in
front of it. -/
structure Part where
  node : Node
  pieces : Nat → Pieces

namespace Part

open Pieces

def placed (least level : Nat) (p : Part) : Pieces :=
  inlineComments p.node.comments ++
    if Print.precedence p.node < least then parenthesized (p.pieces level) else p.pieces level

def operand (op : BinaryOp) (least level : Nat) (p : Part) : Pieces :=
  match p.node.form with
  | .binary inner =>
    if Print.mixesNullish op inner then
      inlineComments p.node.comments ++ parenthesized (p.pieces level)
    else p.placed least level
  | _ => p.placed least level

def unary (op : UnaryOp) (level : Nat) (p : Part) : Pieces :=
  let ps := p.placed Precedence.unary level
  code op.text ++ code (Text.when (op.isWord || (op.text.take 1).isPrefixOf (text ps)) " ") ++ ps

def memberKey (computed : Bool) (level : Nat) (p : Part) : Pieces :=
  if computed then code "[" ++ p.placed Precedence.assign level ++ code "]" else p.placed 0 level

def property (computed shorthand : Bool) (level : Nat) (key value : Part) : Pieces :=
  match shorthand && Print.isSameName key.node value.node, key.node.ident? with
  | true, some ident => code ident
  | _, _ => key.memberKey computed level ++ code ": " ++ value.placed Precedence.assign level

def method (role : MethodRole) (isAsync computed : Bool) (level : Nat) (key : Part)
    (params : List Part) (body : Part) : Pieces :=
  code (Print.asyncWord isAsync) ++ code (Print.roleWord role) ++ key.memberKey computed level ++
    parenthesized (commas (params.map (pieces · level))) ++ code " " ++ body.pieces level

def behindHead (level : Nat) (p : Part) : Pieces :=
  code " " ++ inlineComments p.node.comments ++ p.pieces level

def arrowBody (level : Nat) (p : Part) : Pieces :=
  match p.node.form with
  | .block .. => p.pieces level
  | .object => parenthesized (p.placed Precedence.assign level)
  | _ => p.placed Precedence.assign level

/-- What a loop starts with. A declaration is there without the semicolon at its end. -/
def loopStart (level : Nat) : List Part → Pieces
  | [⟨.varDecl .., pieces⟩] => (pieces level).dropLast
  | [p] => p.placed 0 level
  | _ => []

/-- Statements or members on lines of their own, with their comments. -/
def lines (level : Nat) (ps : List Part) : List Pieces :=
  ps.map fun p => line level p.node.comments (p.pieces level)

end Part

/-! ## Nodes -/

namespace Pieces

open InlineTemplates.Part

/-- What is printed for a node without the comments in front of it. -/
def ofForm (level : Nat) (head : Head) (form : Form) (parts : List (List Part)) : Pieces :=
  match form, parts with
  | .tagged, [[tag], [quasi]] =>
    tag.placed Precedence.postfixed level ++ code (Print.text level quasi.node)
  | .spread, [[value]] => code "..." ++ value.placed Precedence.assign level
  | .call optional, [[func], args] =>
    func.placed Precedence.postfixed level ++ code (Print.chain optional []) ++
      parenthesized (commas (args.map (placed Precedence.assign level)))
  | .new, [[func], args] =>
    code "new " ++ func.placed Precedence.postfixed level ++
      parenthesized (commas (args.map (placed Precedence.assign level)))
  | .attr property optional, [[value]] =>
    value.placed Precedence.postfixed level ++ code (Print.chain optional ".") ++ code property
  | .index optional, [[value], [index]] =>
    value.placed Precedence.postfixed level ++ code (Print.chain optional []) ++ code "[" ++
      index.placed 0 level ++ code "]"
  | .array, [elements] =>
    code "[" ++ commas (elements.map (placed Precedence.assign level)) ++ code "]"
  | .object, [properties] => braced level (lines (level + 1) properties) [] ","
  | .arrow isAsync, [params, [body]] =>
    code (Print.asyncWord isAsync) ++ parenthesized (commas (params.map (pieces · level))) ++
      code " => " ++ body.arrowBody level
  | .function isAsync, [name, params, [body]] =>
    code (Print.asyncWord isAsync) ++ code "function" ++
      behind " " (name.map (pieces · level)) ++
      parenthesized (commas (params.map (pieces · level))) ++ code " " ++ body.pieces level
  | .classExpr, [name, superclass, [body]] | .classDecl, [name, superclass, [body]] =>
    code "class" ++ behind " " (name.map (pieces · level)) ++
      behind " extends " (superclass.map (placed Precedence.postfixed level)) ++ code " " ++
      body.pieces level
  | .unary op, [[operand]] => operand.unary op level
  | .update op inFront, [[operand]] =>
    let ps := operand.placed Precedence.postfixed level
    if inFront then code op.text ++ ps else ps ++ code op.text
  | .binary op, [[left], [right]] =>
    left.operand op op.precedence level ++ code " " ++ code op.text ++ code " " ++
      right.operand op (op.precedence + 1) level
  | .ternary, [[condition], [thenValue], [elseValue]] =>
    condition.placed (Precedence.ternary + 1) level ++ code " ? " ++
      thenValue.placed Precedence.assign level ++ code " : " ++
      elseValue.placed Precedence.assign level
  | .assign op, [[target], [value]] =>
    target.placed Precedence.postfixed level ++ code " " ++ code op.text ++ code " " ++
      value.placed Precedence.assign level
  | .property computed shorthand, [[key], [value]] =>
    property computed shorthand level key value
  | .objectMethod computed role isAsync, [[key], params, [body]] =>
    method role isAsync computed level key params body
  | .param rest, [[name], initial] =>
    if rest then code "..." ++ name.pieces level
    else name.pieces level ++ behind " = " (initial.map (placed Precedence.assign level))
  | .block _ trailing, [statements] => braced level (lines (level + 1) statements) trailing []
  | .exprStmt, [[value]] =>
    let ps := value.placed 0 level
    (if Print.startsAmbiguously value.node then parenthesized ps else ps) ++ code ";"
  | .returnStmt, [value] =>
    code "return" ++ behind " " (value.map (placed 0 level)) ++ code ";"
  | .throwStmt, [[value]] => code "throw " ++ value.placed 0 level ++ code ";"
  | .ifStmt, [[condition], [thenBranch], elseBranch] =>
    code "if " ++ parenthesized (condition.placed 0 level) ++ thenBranch.behindHead level ++
      behind " else" (elseBranch.map (behindHead level))
  | .varDecl kind, [declarations] =>
    varDecl kind (declarations.map (pieces · level)) ++ code ";"
  | .forStmt, [initial, test, update, [body]] =>
    code "for " ++ parenthesized (loopStart level initial ++ code ";" ++
      behind " " (test.map (placed 0 level)) ++ code ";" ++
      behind " " (update.map (placed 0 level))) ++ body.behindHead level
  | .forIn kind runs, [[name], [iterable], [body]] =>
    code "for " ++ parenthesized (code kind.text ++ code " " ++ name.pieces level ++ code " " ++
      code runs.text ++ code " " ++ iterable.placed Precedence.assign level) ++
      body.behindHead level
  | .whileStmt, [[condition], [body]] =>
    code "while " ++ parenthesized (condition.placed 0 level) ++ body.behindHead level
  | .doWhile, [[body], [condition]] =>
    code "do" ++ body.behindHead level ++ code " while " ++
      parenthesized (condition.placed 0 level) ++ code ";"
  | .tryStmt, [[block], handler, finalizer] =>
    code "try " ++ block.pieces level ++ behind " " (handler.map (pieces · level)) ++
      behind " finally " (finalizer.map (pieces · level))
  | .functionDecl isAsync, [[name], params, [body]] =>
    code (Print.asyncWord isAsync) ++ code "function " ++ name.pieces level ++
      parenthesized (commas (params.map (pieces · level))) ++ code " " ++ body.pieces level
  | .exportNamed, [declaration :: _, _, _] => code "export " ++ declaration.pieces level
  | .exportDefault, [[value]] =>
    let ends :=
      match value.node.form with
      | .function _ | .classExpr => value.node.comments.isEmpty
      | _ => false
    code "export default " ++ value.placed Precedence.assign level ++
      code (Text.when (!ends) ";")
  | .declarator, [[name], initial] =>
    name.pieces level ++ behind " = " (initial.map (placed Precedence.assign level))
  | .catchClause, [param, [body]] =>
    code "catch" ++ behind " " (param.map fun p => parenthesized (p.pieces level)) ++ code " " ++
      body.pieces level
  | .classBody _ trailing, [members] => braced level (lines (level + 1) members) trailing []
  | .classMethod computed isStatic role isAsync, [[key], params, [body]] =>
    code (Text.when isStatic "static ") ++ method role isAsync computed level key params body
  | .classProperty computed isStatic, [[key], value] =>
    code (Text.when isStatic "static ") ++ key.memberKey computed level ++
      behind " = " (value.map (placed Precedence.assign level)) ++ code ";"
  | .program trailing, [body] =>
    (lines 0 body ++ trailing.map fun c => [Piece.line c]).flatMap (· ++ code "\n")
  | _, _ => code (Print.text level (.mk head form (parts.map (·.map node))))

mutual

/-- A node with what is printed for it. -/
def partOf : Node → Part
  | .mk head form slots =>
    ⟨.mk head form slots, fun level => ofForm level head form (partsOfSlots slots)⟩

def partsOfSlots : List (List Node) → List (List Part)
  | [] => []
  | ns :: slots => partsOf ns :: partsOfSlots slots

def partsOf : List Node → List Part
  | [] => []
  | n :: rest => partOf n :: partsOf rest

end

/-- What is printed for an expression in a line indented by `level`, where at least the precedence
`least` is needed. -/
def ofExpression (n : Node) (level least : Nat) : Pieces := (partOf n).placed least level

def ofStatement (n : Node) (level : Nat) : Pieces :=
  line level n.comments ((partOf n).pieces level)

def ofProgram (n : Node) : Pieces := (partOf n).pieces 0

end Pieces

end InlineTemplates
