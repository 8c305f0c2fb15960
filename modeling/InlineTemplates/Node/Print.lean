import InlineTemplates.Node
import InlineTemplates.Number.Shortest
import InlineTemplates.Text.Escaped

/-!
# Printing trees

A statement takes a line of its own, and what stands inside braces is indented by two blanks. A
comment has a line in front of its statement or member; inside a line it is a block comment. An
expression is put in parentheses where the place asks for more precedence than it has.
-/

namespace InlineTemplates

namespace Precedence

/-- What the parts of a list, and the right-hand sides, need at least. -/
def assign : Nat := 1

def ternary : Nat := 2

def unary : Nat := 10

def update : Nat := 11

/-- What stands in front of an access or a call. -/
def postfixed : Nat := 13

def primary : Nat := 14

end Precedence

namespace Literal

/-- Doubles without a fraction are written as integers below this size. -/
def integerLimit : Nat := Double.powerOfTen 21

def text : Literal → Text
  | str t => t.stringLiteral
  | int n => Text.ofNat n
  | float d =>
    match d.integer? with
    | some n => if n < integerLimit then Text.ofNat n else d.text
    | none => d.text
  | bool true => "true"
  | bool false => "false"
  | null => "null"

/-- The value where it names a module. There a double is written as what it is. -/
def sourceText : Literal → Text
  | float (.infinite _) => "Infinity"
  | float d => d.text
  | value => value.text

end Literal

namespace Print

/-! ## Layout -/

def indentation (level : Nat) : Text := Text.filled (2 * level) ' '

/-- A comment inside a line. One that would end with the line becomes a block comment. -/
def inlineComment (comment : Text) : Text :=
  if (Text.ofString "//").isPrefixOf comment then
    "/*" ++ Text.escapeCommentEnd (comment.drop 2) ++ "*/"
  else comment

def inlineComments (comments : List Text) : Text := comments.flatMap inlineComment

/-- A line with the comments in front of it, each on a line of its own. -/
def line (level : Nat) (comments : List Text) (text : Text) : Text :=
  let pad := indentation level
  comments.flatMap (fun c => pad ++ c ++ Text.ofString "\n") ++ pad ++ text

/-- Lines in braces, with the comments behind the last line. -/
def braced (level : Nat) (lines trailing : List Text) (sep : Text) : Text :=
  if lines.isEmpty && trailing.isEmpty then "\x7b\x7d"
  else
    "\x7b\n" ++
      Text.join (sep ++ "\n") (lines ++ trailing.map (indentation (level + 1) ++ ·)) ++
      "\n" ++ indentation level ++ "\x7d"

def parenthesized (text : Text) : Text := "(" ++ text ++ ")"

def commas (texts : List Text) : Text := Text.join ", " texts

/-- The texts of a part that may be missing, with `before` in front. -/
def behind (before : Text) (texts : List Text) : Text := texts.flatMap (before ++ ·)

/-! ## Where parentheses stand -/

/-- How tightly a node holds together. -/
def precedence (n : Node) : Nat :=
  match n.form with
  | .assign _ | .arrow _ | .function _ | .classExpr | .spread => Precedence.assign
  | .ternary => Precedence.ternary
  | .binary op => op.precedence
  | .unary _ => Precedence.unary
  | .update _ inFront => if inFront then Precedence.unary else Precedence.update
  | .call _ | .new | .attr .. | .index _ | .tagged => Precedence.postfixed
  | _ => Precedence.primary

/-- A node with text `text` where at least the precedence `least` is needed. -/
def placed (least : Nat) (n : Node) (text : Text) : Text :=
  inlineComments n.comments ++ if precedence n < least then parenthesized text else text

/-- Nodes with their texts where at least the precedence `least` is needed. -/
def placedAll (least : Nat) (nodes : List Node) (texts : List Text) : List Text :=
  List.zipWith (placed least) nodes texts

/-- `??` cannot stand next to `||` or `&&` without parentheses. -/
def mixesNullish : BinaryOp → BinaryOp → Bool
  | .nullish, .or | .nullish, .and | .or, .nullish | .and, .nullish => true
  | _, _ => false

/-- An operand of the operator `op`. -/
def operand (op : BinaryOp) (least : Nat) (n : Node) (text : Text) : Text :=
  match n.form with
  | .binary inner =>
    if mixesNullish op inner then inlineComments n.comments ++ parenthesized text
    else placed least n text
  | _ => placed least n text

/-- Whether a statement that is the expression `n` would start with a brace, a function or a
class. -/
def startsAmbiguously : Node → Bool
  | .object .. | .function .. | .classExpr .. => true
  | .call _ _ first _ | .attr _ _ _ first | .index _ _ first _ | .tagged _ first _
  | .update _ _ false first => Precedence.postfixed ≤ precedence first && startsAmbiguously first
  | .binary _ _ first _ | .assign _ _ first _ | .ternary _ first _ _ => startsAmbiguously first
  | _ => false

/-! ## Parts of lines -/

/-- An operator in front of its operand, kept apart from it where the two would run together. -/
def unary (op : UnaryOp) (operand : Text) : Text :=
  op.text ++ Text.when (op.isWord || (op.text.take 1).isPrefixOf operand) " " ++ operand

/-- The chunks of a template with the holes between them. -/
def interleave : List Text → List Text → Text
  | [], _ => []
  | chunk :: chunks, [] => chunk ++ interleave chunks []
  | chunk :: chunks, hole :: holes => chunk ++ "$\x7b" ++ hole ++ "\x7d" ++ interleave chunks holes

def asyncWord (isAsync : Bool) : Text := Text.when isAsync "async "

/-- The sign in front of an access or a call. -/
def chain (optional : Bool) (otherwise : Text) : Text := if optional then "?." else otherwise

/-- The word in front of a getter or a setter. -/
def roleWord : MethodRole → Text
  | .method => []
  | role => role.text ++ " "

/-- The key of a member with text `text`. -/
def memberKey (computed : Bool) (key : Node) (text : Text) : Text :=
  if computed then "[" ++ placed Precedence.assign key text ++ "]" else placed 0 key text

/-- Whether two nodes are one name. -/
def isSameName (a b : Node) : Bool :=
  match a, b with
  | .name _ x, .name _ y => x == y
  | _, _ => false

/-- A method from the texts of its parts. -/
def method (role : MethodRole) (isAsync : Bool) (key : Text) (params : List Text) (body : Text) :
    Text :=
  asyncWord isAsync ++ roleWord role ++ key ++ parenthesized (commas params) ++ " " ++ body

/-- The statement behind the head of another one. -/
def behindHead (n : Node) (text : Text) : Text := " " ++ inlineComments n.comments ++ text

/-- A name on one side of `as`. -/
def moduleName (n : Node) : Text :=
  match n.string? with
  | some t => t.stringLiteral
  | none => n.ident?.getD []

/-- A name and the one that it gets, which is left out where they agree. -/
def renamed (outer inner : Text) : Text := if outer = inner then outer else outer ++ " as " ++ inner

/-- What an import binds outside braces. -/
def importHead? : Node → Option Text
  | .importDefault _ localName => some (moduleName localName)
  | .importNamespace _ localName => some ("* as " ++ moduleName localName)
  | _ => none

/-- What an import binds inside braces. -/
def importNamed? : Node → Option Text
  | .importNamed _ imported localName =>
    some (renamed (moduleName imported) (localName.ident?.getD []))
  | _ => none

/-- The value that names a module. -/
def sourceText (n : Node) : Text := (n.source?.getD .null).sourceText

def importDecl (specifiers : List Node) (source : Node) : Text :=
  let named := specifiers.filterMap importNamed?
  let heads := specifiers.filterMap importHead? ++
    if named.isEmpty then [] else ["\x7b " ++ commas named ++ " \x7d"]
  "import " ++ Text.when (!specifiers.isEmpty) (commas heads ++ " from ") ++ sourceText source ++
    ";"

def exportSpecifier : Node → Text
  | .exportSpecifier _ localName [exported] => renamed (moduleName localName) (moduleName exported)
  | .exportSpecifier _ localName _ => moduleName localName
  | _ => []

def exportList (specifiers source : List Node) : Text :=
  let items := commas (specifiers.map exportSpecifier)
  "export \x7b" ++ Text.when (!items.isEmpty) (" " ++ items ++ " ") ++ "\x7d" ++
    behind " from " (source.map sourceText) ++ ";"

def varDecl (kind : VarKind) (declarations : List Text) : Text :=
  kind.text ++ " " ++ commas declarations

/-! ## Nodes -/

mutual

/-- A node without the comments in front of it, its first line without indentation. `level` is the
indentation of the line in which it stands. -/
def text (level : Nat) : Node → Text
  | .name _ ident => ident
  | .literal _ value => value.text
  | .template _ quasis expressions =>
    "`" ++ interleave (texts level quasis)
      (placedAll 0 expressions (texts level expressions)) ++ "`"
  | .tagged _ tag quasi => placed Precedence.postfixed tag (text level tag) ++ text level quasi
  | .spread _ value => "..." ++ placed Precedence.assign value (text level value)
  | .call _ optional func args =>
    placed Precedence.postfixed func (text level func) ++ chain optional [] ++
      parenthesized (commas (placedAll Precedence.assign args (texts level args)))
  | .new _ func args =>
    "new " ++ placed Precedence.postfixed func (text level func) ++
      parenthesized (commas (placedAll Precedence.assign args (texts level args)))
  | .attr _ property optional value =>
    placed Precedence.postfixed value (text level value) ++ chain optional "." ++ property
  | .index _ optional value index =>
    placed Precedence.postfixed value (text level value) ++ chain optional [] ++ "[" ++
      placed 0 index (text level index) ++ "]"
  | .array _ elements =>
    "[" ++ commas (placedAll Precedence.assign elements (texts level elements)) ++ "]"
  | .object _ properties => braced level (lines (level + 1) properties) [] ","
  | .arrow _ isAsync params body =>
    let inner := text level body
    let value :=
      match body.form with
      | .block .. => inner
      | .object => parenthesized (placed Precedence.assign body inner)
      | _ => placed Precedence.assign body inner
    asyncWord isAsync ++ parenthesized (commas (texts level params)) ++ " => " ++ value
  | .function _ isAsync name params body =>
    asyncWord isAsync ++ "function" ++ behind " " (texts level name) ++
      parenthesized (commas (texts level params)) ++ " " ++ text level body
  | .classExpr _ name superclass body =>
    "class" ++ behind " " (texts level name) ++
      behind " extends " (placedAll Precedence.postfixed superclass (texts level superclass)) ++
      " " ++ text level body
  | .unary _ op operand => unary op (placed Precedence.unary operand (text level operand))
  | .update _ op inFront operand =>
    let inner := placed Precedence.postfixed operand (text level operand)
    if inFront then op.text ++ inner else inner ++ op.text
  | .binary _ op left right =>
    operand op op.precedence left (text level left) ++ " " ++ op.text ++ " " ++
      operand op (op.precedence + 1) right (text level right)
  | .ternary _ condition thenValue elseValue =>
    placed (Precedence.ternary + 1) condition (text level condition) ++ " ? " ++
      placed Precedence.assign thenValue (text level thenValue) ++ " : " ++
      placed Precedence.assign elseValue (text level elseValue)
  | .assign _ op target value =>
    placed Precedence.postfixed target (text level target) ++ " " ++ op.text ++ " " ++
      placed Precedence.assign value (text level value)
  | .quasi _ raw _ => raw
  | .property _ computed shorthand key value =>
    match shorthand && isSameName key value, key.ident? with
    | true, some ident => ident
    | _, _ =>
      memberKey computed key (text level key) ++ ": " ++
        placed Precedence.assign value (text level value)
  | .objectMethod _ computed role isAsync key params body =>
    method role isAsync (memberKey computed key (text level key)) (texts level params)
      (text level body)
  | .param _ rest name initial =>
    if rest then "..." ++ text level name
    else text level name ++
      behind " = " (placedAll Precedence.assign initial (texts level initial))
  | .block _ _ trailing statements => braced level (lines (level + 1) statements) trailing []
  | .exprStmt _ value =>
    let inner := placed 0 value (text level value)
    (if startsAmbiguously value then parenthesized inner else inner) ++ ";"
  | .emptyStmt _ => ";"
  | .returnStmt _ value => "return" ++ behind " " (placedAll 0 value (texts level value)) ++ ";"
  | .throwStmt _ value => "throw " ++ placed 0 value (text level value) ++ ";"
  | .breakStmt _ => "break;"
  | .continueStmt _ => "continue;"
  | .ifStmt _ condition thenBranch elseBranch =>
    "if " ++ parenthesized (placed 0 condition (text level condition)) ++
      behindHead thenBranch (text level thenBranch) ++
      behind " else" (List.zipWith behindHead elseBranch (texts level elseBranch))
  | .varDecl _ kind declarations => varDecl kind (texts level declarations) ++ ";"
  | .forStmt _ initial test update body =>
    let first :=
      match initial with
      | [.varDecl _ kind declarations] => varDecl kind (texts level declarations)
      | [e] => placed 0 e (text level e)
      | _ => []
    "for " ++ parenthesized (first ++ ";" ++
      behind " " (placedAll 0 test (texts level test)) ++ ";" ++
      behind " " (placedAll 0 update (texts level update))) ++
      behindHead body (text level body)
  | .forIn _ kind runs name iterable body =>
    "for " ++ parenthesized (kind.text ++ " " ++ text level name ++ " " ++ runs.text ++ " " ++
      placed Precedence.assign iterable (text level iterable)) ++ behindHead body (text level body)
  | .whileStmt _ condition body =>
    "while " ++ parenthesized (placed 0 condition (text level condition)) ++
      behindHead body (text level body)
  | .doWhile _ body condition =>
    "do" ++ behindHead body (text level body) ++ " while " ++
      parenthesized (placed 0 condition (text level condition)) ++ ";"
  | .tryStmt _ block handler finalizer =>
    "try " ++ text level block ++ behind " " (texts level handler) ++
      behind " finally " (texts level finalizer)
  | .functionDecl _ isAsync name params body =>
    asyncWord isAsync ++ "function " ++ text level name ++
      parenthesized (commas (texts level params)) ++ " " ++ text level body
  | .classDecl _ name superclass body =>
    "class" ++ behind " " (texts level name) ++
      behind " extends " (placedAll Precedence.postfixed superclass (texts level superclass)) ++
      " " ++ text level body
  | .importDecl _ specifiers source => importDecl specifiers source
  | .exportNamed _ declaration specifiers source =>
    match texts level declaration with
    | t :: _ => "export " ++ t
    | [] => exportList specifiers source
  | .exportDefault _ value =>
    let ends :=
      match value.form with
      | .function _ | .classExpr => value.comments.isEmpty
      | _ => false
    "export default " ++ placed Precedence.assign value (text level value) ++ Text.when (!ends) ";"
  | .declarator _ name initial =>
    text level name ++ behind " = " (placedAll Precedence.assign initial (texts level initial))
  | .catchClause _ param body =>
    "catch" ++ behind " " ((texts level param).map parenthesized) ++ " " ++ text level body
  | .classBody _ _ trailing members => braced level (lines (level + 1) members) trailing []
  | .classMethod _ computed isStatic role isAsync key params body =>
    Text.when isStatic "static " ++
      method role isAsync (memberKey computed key (text level key)) (texts level params)
        (text level body)
  | .classProperty _ computed isStatic key value =>
    Text.when isStatic "static " ++ memberKey computed key (text level key) ++
      behind " = " (placedAll Precedence.assign value (texts level value)) ++ ";"
  | .program _ trailing body =>
    (lines 0 body ++ trailing).flatMap fun t => t ++ Text.ofString "\n"
  | .mk .. => []

/-- The texts of some nodes without the comments in front of them. -/
def texts (level : Nat) : List Node → List Text
  | [] => []
  | n :: rest => text level n :: texts level rest

/-- The lines of statements or members, with their comments. -/
def lines (level : Nat) : List Node → List Text
  | [] => []
  | n :: rest => line level n.comments (text level n) :: lines level rest

end

end Print

namespace Node

/-- The text of an expression in a line indented by `level`, where at least the precedence `least`
is needed. -/
def expressionText (n : Node) (level least : Nat) : Text :=
  Print.placed least n (Print.text level n)

/-- The text of a program. -/
def programText (n : Node) : Text := Print.text 0 n

end Node

end InlineTemplates
