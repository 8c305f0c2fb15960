import InlineTemplates.Grammar.Draft
import InlineTemplates.Grammar.Parse

/-!
# The grammar of expressions

Each rule is a plain definition over the rules that it may use one level further down. A rule uses
those only behind a token that it has consumed.

A node starts where its first token starts, and a parenthesis around its first part counts; the
node inside parentheses keeps its own start.
-/

namespace InlineTemplates

/-- The operand of an operator, and whether an assignment can stand behind it. -/
structure Operand where
  draft : Draft
  isTarget : Bool

/-- A statement of a list, and whether it is only the end of a statement in front of it that needs
none. -/
structure Line where
  draft : Draft
  isFiller : Bool

/-- The rules that others use behind a consumed token. -/
structure Rules where
  /-- An expression. -/
  assign : Parse Draft
  /-- An operand with operators in front of it or behind it. -/
  unary : Parse Operand
  /-- A primary with accesses and calls behind it. -/
  postfixed : Parse Draft
  statement : Parse Line

namespace Grammar

open Parse

variable (r : Reader) (rules : Rules)

/-- What `item` reads behind a token of kind `k`, if that is the next one. -/
def behind? (k : Token.Kind) (item : Parse Draft) : Parse Drafts := do
  if let some _ ← accept? k then
    let value ← item
    return value.map ([·])
  else return .ok []

/-! ## Functions -/

/-- A parameter: a name with or without a default, or the name of the rest. -/
def param : Parse Draft := do
  let start ← here
  if let some _ ← accept? .ellipsis then
    let name ← expect .name
    return .ok (.param (.ofLoc start) true (Reader.name name) [])
  let name ← expect .name
  let value ← behind? .assign rules.assign
  return do return .param (.ofLoc start) false (Reader.name name) (← value)

/-- Parameters up to the closing parenthesis. -/
def params : Parse Drafts := do
  let items ← commaList .rightParen (param rules)
  return items.mapM id

/-- Statements up to the brace that closes the block. -/
def block : Parse Draft := do
  let opening ← expect .blockBrace
  let lines ← listUpTo .rightBrace rules.statement
  let closing ← expect .rightBrace
  return do
    let statements ← (lines.filter (!·.isFiller)).mapM Line.draft
    return .block (.ofLoc opening.start) (some closing.stop) [] statements

/-- The parenthesized parameters and the body of a function or method. -/
def paramsAndBlock : Parse (Except Error (List Node × Node)) := do
  let _ ← expect .leftParen
  let ps ← params rules
  let body ← block rules
  return do return (← ps, ← body)

/-- A function that is an expression. -/
def functionExpression : Parse Draft := do
  let start ← here
  let isAsync := (← accept? .asyncWord).isSome
  let _ ← expect .functionWord
  let name ← accept? .name
  let parts ← paramsAndBlock rules
  return do
    let (ps, body) ← parts
    return .function (.ofLoc start) isAsync (name.map Reader.name).toList ps body

/-- What stands in front of an arrow: one name, or parenthesized parameters. -/
def arrowParams : Parse Drafts := do
  if let some _ ← accept? .arrowParen then params rules
  else
    let name ← expect .name
    return .ok [Node.param (.ofLoc name.start) false (Reader.name name) []]

/-- An arrow function. Its body is a block or an expression. -/
def arrowFunction : Parse Draft := do
  let start ← here
  let isAsync := (← accept? .asyncWord).isSome
  let ps ← arrowParams rules
  let _ ← expect .arrow
  let body ← if ← atKind .blockBrace then block rules else rules.assign
  return do return .arrow (.ofLoc start) isAsync (← ps) (← body)

/-! ## Members -/

/-- The key of a member, and whether it is computed. -/
def memberKey : Parse (Except Error (Node × Bool)) := do
  let t ← next
  match t.kind with
  | .name | .privateName => return .ok (Reader.name t, false)
  | .string => return do return (← r.string t, false)
  | .number => return .ok (Reader.number t, false)
  | .leftBracket =>
    let key ← rules.assign
    let _ ← expect .rightBracket
    return do return (← key, true)
  | _ => fun _ => .error (some t)

/-- The word in front of a method that makes it asynchronous, a getter or a setter. -/
def methodWord? : Parse (Option (MethodRole × Bool)) := do
  match ← peekKind? with
  | some .asyncWord => let _ ← next; return some (.method, true)
  | some .getWord => let _ ← next; return some (.getter, false)
  | some .setWord => let _ ← next; return some (.setter, false)
  | _ => return none

/-- A member of an object. -/
def objectMember : Parse Draft := do
  let start ← here
  if let some _ ← accept? .ellipsis then
    let value ← rules.assign
    return do return .spread (.ofLoc start) (← value)
  match ← methodWord? with
  | some (role, isAsync) =>
    let key ← memberKey r rules
    let parts ← paramsAndBlock rules
    return do
      let (key, computed) ← key
      let (ps, body) ← parts
      return .objectMethod (.ofLoc start) computed role isAsync key ps body
  | none =>
    let first ← peek
    let key ← memberKey r rules
    match ← peekKind? with
    | some .colon =>
      let _ ← next
      let value ← rules.assign
      return do
        let (key, computed) ← key
        return .property (.ofLoc start) computed false key (← value)
    | some .leftParen =>
      let parts ← paramsAndBlock rules
      return do
        let (key, computed) ← key
        let (ps, body) ← parts
        return .objectMethod (.ofLoc start) computed .method false key ps body
    | _ =>
      if first.kind = .name then
        return .ok (.property (.ofLoc start) false true (Reader.name first) (Reader.name first))
      else fail

/-- A member of a class. -/
def classMember : Parse Draft := do
  let start ← here
  let isStatic := (← accept? .staticWord).isSome
  let word ← methodWord?
  let key ← memberKey r rules
  if word.isSome || (← atKind .leftParen) then
    let (role, isAsync) := word.getD (.method, false)
    let parts ← paramsAndBlock rules
    return do
      let (key, computed) ← key
      let (ps, body) ← parts
      return .classMethod (.ofLoc start) computed isStatic role isAsync key ps body
  else
    let value ← behind? .assign rules.assign
    let _ ← expect .terminator
    return do
      let (key, computed) ← key
      return .classProperty (.ofLoc start) computed isStatic key (← value)

/-- The body of a class. Terminators between members are skipped. -/
def classBody : Parse Draft := do
  let opening ← expect .classBrace
  let members ← listUpTo .rightBrace (do
    if let some _ ← accept? .terminator then return none
    else return some (← classMember r rules))
  let closing ← expect .rightBrace
  return do
    let members ← (members.filterMap id).mapM id
    return .classBody (.ofLoc opening.start) (some closing.stop) [] members

/-- The superclass, if any, and the body of a class. -/
def classTail : Parse (Except Error (List Node × Node)) := do
  let superclass ← behind? .extendsWord rules.postfixed
  let body ← classBody r rules
  return do return (← superclass, ← body)

/-- A class that is an expression. -/
def classExpression : Parse Draft := do
  let start ← here
  let _ ← expect .classWord
  let name ← accept? .name
  let parts ← classTail r rules
  return do
    let (superclass, body) ← parts
    return .classExpr (.ofLoc start) (name.map Reader.name).toList superclass body

/-! ## Primaries -/

/-- An expression, or the elements of another one. -/
def element : Parse Draft := do
  let start ← here
  if let some _ ← accept? .ellipsis then
    let value ← rules.assign
    return do return .spread (.ofLoc start) (← value)
  else rules.assign

/-- What no operator is needed for. -/
def primary : Parse Draft := do
  let t ← peek
  let head := Head.ofLoc t.start
  match t.kind with
  | .name => let _ ← next; return .ok (Reader.name t)
  | .string => let _ ← next; return r.string t
  | .number => let _ ← next; return .ok (Reader.number t)
  | .trueWord => let _ ← next; return .ok (.literal head (.bool true))
  | .falseWord => let _ ← next; return .ok (.literal head (.bool false))
  | .nullWord => let _ ← next; return .ok (.literal head .null)
  | .template => let _ ← next; return r.template t
  | .leftBracket =>
    let _ ← next
    let elements ← commaList .rightBracket (element rules)
    return do return .array head (← elements.mapM id)
  | .leftBrace =>
    let _ ← next
    let members ← commaList .rightBrace (objectMember r rules)
    return do return .object head (← members.mapM id)
  | .functionWord | .asyncWord => functionExpression rules
  | .classWord => classExpression r rules
  | .leftParen =>
    let _ ← next
    let value ← rules.assign
    let _ ← expect .rightParen
    return value
  | _ => fail

/-- The arguments of a call behind the opening parenthesis. -/
def arguments : Parse Drafts := do
  let _ ← expect .leftParen
  let items ← commaList .rightParen (element rules)
  return items.mapM id

/-- The name behind the point of an access. -/
def memberName : Parse Text := do
  if let some t ← accept? .privateName then return t.text
  return (← expect .name).text

/-- A construction: it takes the names behind its callee, and the first arguments. -/
def newExpression : Parse Draft := do
  let start ← here
  let _ ← expect .newWord
  let calleeStart ← here
  let callee ← primary r rules
  let callee ← loop (fun (value : Draft) => do
    match ← accept? .dot with
    | none => return none
    | some _ =>
      let property ← memberName
      return some (value.map (.attr (.ofLoc calleeStart) property false ·))) callee
  let args ← if ← atKind .leftParen then arguments rules else pure (.ok [])
  return do
    let args ← args
    return .new (.ofLoc start) (← callee) args

/-- One access or call behind a value that starts at `start`. -/
def postfixStep (start : Location) (value : Draft) : Parse (Option Draft) := do
  let head := Head.ofLoc start
  match ← peekKind? with
  | some .dot =>
    let _ ← next
    let property ← memberName
    return some (value.map (.attr head property false ·))
  | some .leftBracket =>
    let _ ← next
    let index ← rules.assign
    let _ ← expect .rightBracket
    return some do return .index head false (← value) (← index)
  | some .leftParen =>
    let args ← arguments rules
    return some do return .call head false (← value) (← args)
  | some .template =>
    let t ← next
    return some do return .tagged head (← value) (← r.template t)
  | some .optionalChain =>
    let _ ← next
    match ← peekKind? with
    | some .leftBracket =>
      let _ ← next
      let index ← rules.assign
      let _ ← expect .rightBracket
      return some do return .index head true (← value) (← index)
    | some .leftParen =>
      let args ← arguments rules
      return some do return .call head true (← value) (← args)
    | _ =>
      let property ← memberName
      return some (value.map (.attr head property true ·))
  | _ => return none

/-- A primary or a construction with the accesses and calls behind it. -/
def postfixed : Parse Draft := do
  let start ← here
  let base ← if ← atKind .newWord then newExpression r rules else primary r rules
  loop (postfixStep r rules start) base

/-! ## Operators -/

/-- An operand with the operators in front of it and behind it. -/
def unary : Parse Operand := do
  let t ← peek
  let head := Head.ofLoc t.start
  match UnaryOp.ofKind? t.kind, UpdateOp.ofKind? t.kind with
  | some op, _ =>
    let _ ← next
    let operand ← rules.unary
    return ⟨operand.draft.map (.unary head op ·), false⟩
  | none, some op =>
    let _ ← next
    let operand ← rules.unary
    return ⟨operand.draft.map (.update head op true ·), false⟩
  | none, none =>
    let operand ← postfixed r rules
    match (← peekKind?).bind UpdateOp.ofKind? with
    | some op =>
      let _ ← next
      return ⟨operand.map (.update head op false ·), false⟩
    | none => return ⟨operand, true⟩

/-- Operands with the binary operators of one precedence between them, grouped to the left. -/
def binaryLevel (precedence : Nat) (operand : Parse Operand) : Parse Operand := do
  let start ← here
  let first ← operand
  loop (fun (left : Operand) => do
    match (← peekKind?).bind BinaryOp.ofKind? with
    | none => return none
    | some op =>
      if op.precedence = precedence then
        let _ ← next
        let right ← operand
        return some ⟨do return .binary (.ofLoc start) op (← left.draft) (← right.draft), false⟩
      else return none) first

/-- Operands with binary operators between them; the tighter ones group first. -/
def binary : Parse Operand :=
  [9, 8, 7, 6, 5, 4, 3].foldl (fun operand level => binaryLevel level operand) (unary r rules)

/-- Whether an arrow function starts here. -/
def startsArrow : Parse Bool := do
  match ← peekKind?, ← peekSecond? with
  | some .arrowParen, _ => return true
  | some .name, some .arrow => return true
  | some .asyncWord, some .arrowParen => return true
  | some .asyncWord, some .name => return true
  | _, _ => return false

/-- An expression: an arrow function, an assignment, a choice, or operators and operands. -/
def assign : Parse Draft := do
  if ← startsArrow then arrowFunction rules
  else
    let start ← here
    let left ← binary r rules
    match left.isTarget, (← peekKind?).bind AssignOp.ofKind? with
    | true, some op =>
      let _ ← next
      let value ← rules.assign
      return do return .assign (.ofLoc start) op (← left.draft) (← value)
    | _, _ =>
      if let some _ ← accept? .question then
        let thenValue ← rules.assign
        let _ ← expect .colon
        let elseValue ← rules.assign
        return do
          return .ternary (.ofLoc start) (← left.draft) (← thenValue) (← elseValue)
      else return left.draft

end Grammar

end InlineTemplates
