import InlineTemplates.Token

/-!
# Tokens in their places

Gives each token the role that it plays where it stands, and ends the statements.

* A semicolon or a line break that ends a statement becomes a terminator. A line break does so only
  in a block or a class body, behind a token that can end an expression, and in front of a line
  that does not go on with it. A closing brace, an `else` and the `while` of a do-loop also end a
  statement in front of them.
* A brace opens a block, a class body or an object, depending on what stands in front of it. A
  parenthesis opens the parameters of an arrow function when `=>` follows the one that closes it.
* `function` and `class` at the start of a statement are declarations.
* Reserved words are names where they stand for properties, and some names are keywords where they
  act as such: `from` and `as` in import and export clauses, `of` in the head of a loop, `async`,
  `get`, `set` and `static` in front of functions and members.
-/

namespace InlineTemplates

namespace Token

/-- What an opening bracket opened. -/
inductive Context where
  | block
  | classBody
  | object
  | group
  | bracket
  /-- The head of a statement. -/
  | head
  /-- The condition behind the body of a do-loop. -/
  | loopTail
deriving DecidableEq, Inhabited

namespace Kind

/-- Whether a token of this kind can end an expression or a statement. -/
def canEnd : Kind → Bool
  | name | privateName | number | string | template | trueWord | falseWord | nullWord
  | rightParen | rightBracket | rightBrace | returnWord | breakWord | continueWord
  | increment | decrement => true
  | _ => false

/-- Whether a line that starts with this kind goes on with the expression in front of it. -/
def continuesLine : Kind → Bool
  | dot | optionalChain | leftParen | leftBracket | template | elseWord | catchWord | finallyWord
  | extendsWord | arrow | question | colon | comma
  | assign | plusAssign | minusAssign | starAssign | slashAssign | percentAssign | orAssign
  | andAssign | nullishAssign
  | strictEqual | strictNotEqual | equal | notEqual | lessEqual | greaterEqual | less | greater
  | nullish | or | and | plus | minus | star | slash | percent | instanceofWord | inWord => true
  | _ => false

/-- Whether a brace behind this kind opens a block. -/
def opensBlock : Kind → Bool
  | rightParen | arrow | elseWord | doWord | tryWord | catchWord | finallyWord => true
  | _ => false

/-- Whether a parenthesis behind this kind opens the head of a statement. -/
def opensHead : Kind → Bool
  | ifWord | forWord | whileWord | catchWord => true
  | _ => false

/-- Whether the key of a member can start with this kind. -/
def startsKey (k : Kind) : Bool :=
  match k with
  | name | string | number | privateName | leftBracket => true
  | _ => k.isReserved

/-- Whether this kind can stand behind the key of a member. -/
def followsKey : Kind → Bool
  | colon | leftParen | assign | semicolon | rightBrace | comma => true
  | _ => false

end Kind

/-- What is known between two tokens. -/
structure Place where
  /-- The open brackets, innermost first, and below them the outermost context. -/
  stack : List Context
  /-- Whether the last token can end a statement. -/
  canEnd : Bool
  /-- The kind of the last token. -/
  last : Option Kind
  /-- Whether the tokens belong to the clause of an import or an export. -/
  inClause : Bool
  /-- What the last closing bracket closed. -/
  closed : Option Context
  /-- For each `class` that waits for its body, how many contexts it stands in. -/
  classes : List Nat
  /-- For each `do` that waits for its `while`, how many contexts it stands in. -/
  loops : List Nat
  /-- What the next parenthesis opens, if it follows a keyword. -/
  nextParen : Option Context
  /-- Whether the last `async` stood where a declaration can stand. -/
  asyncDeclares : Bool
deriving DecidableEq, Inhabited

namespace Place

/-- The place in front of the first token of a module. -/
def ofModule : Place := ⟨[.block], false, none, false, none, [], [], none, false⟩

/-- The place in front of the first token of an expression that stands alone. -/
def ofExpression : Place := { ofModule with stack := [.group] }

/-- The innermost context. -/
def context (p : Place) : Context := p.stack.headD .block

/-- Whether statements or members end here. -/
def inLines (p : Place) : Bool := p.context = .block || p.context = .classBody

def lastIs (p : Place) (k : Kind) : Bool := p.last = some k

def lastIn (p : Place) (ks : List Kind) : Bool := p.last.any ks.contains

/-- Whether a statement starts here. -/
def startsStatement (p : Place) : Bool :=
  p.context = .block && (p.last.isNone || p.lastIn [.terminator, .blockBrace])

/-- Whether a member of an object or a class starts here, modifiers included. -/
def startsMember (p : Place) : Bool :=
  match p.context with
  | .object => p.lastIn [.leftBrace, .comma, .asyncWord, .getWord, .setWord]
  | .classBody =>
    p.lastIn [.classBrace, .terminator, .rightBrace, .staticWord, .asyncWord, .getWord, .setWord]
  | _ => false

/-- Whether a `while` here belongs to a do-loop. -/
def closesLoop (p : Place) (k : Kind) : Bool :=
  k = .whileWord && p.loops.head? = some p.stack.length && !p.lastIs .doWord

/-- Whether a body without braces is still open in front of an `else` or of the `while` of a
do-loop. -/
def endsBranch (p : Place) : Bool :=
  p.inLines && p.canEnd && !(p.lastIs .rightBrace && p.closed = some .block)

/-- Whether a statement ends in front of a token of kind `k`; `newline` says that a line break
stands in front of it. -/
def endsBefore (p : Place) (k : Kind) (newline : Bool) : Bool :=
  (k = .elseWord || p.closesLoop k) && p.endsBranch
    || newline && p.inLines && p.canEnd && !k.continuesLine && !p.closesLoop k
    || k = .rightBrace && p.inLines && p.canEnd

/-- The place behind a terminator. -/
def afterTerminator (p : Place) : Place :=
  { p with canEnd := false, last := some .terminator, inClause := false }

/-! ## Roles -/

/-- The tokens that are not line breaks. -/
def significant (ts : List Token) : List Token := ts.dropWhile fun t => t.kind = .newline

/-- Whether the parenthesis in front of these tokens is closed in front of `=>`; `depth` counts the
parentheses that were opened since. -/
def closesIntoArrow (depth : Nat) : List Token → Bool
  | [] => false
  | t :: rest =>
    if t.kind = .leftParen then closesIntoArrow (depth + 1) rest
    else if t.kind = .rightParen then
      match depth with
      | 0 => (significant rest).head?.any fun a => a.kind = .arrow
      | depth + 1 => closesIntoArrow depth rest
    else closesIntoArrow depth rest

/-- The role of a brace. -/
def braceRole (p : Place) : Kind :=
  if p.classes.head? = some p.stack.length then .classBrace
  else if p.last.any Kind.opensBlock || p.startsStatement then .blockBrace
  else .leftBrace

/-- The role of a reserved word in front of a token of kind `next`. -/
def reservedRole (p : Place) (k : Kind) (next : Option Kind) : Kind :=
  let declares := p.startsStatement || p.lastIs .exportWord
  if k = .functionWord && (declares || (p.lastIs .asyncWord && p.asyncDeclares)) then
    .functionDeclaration
  else if k = .classWord && declares then .classDeclaration
  else if p.lastIn [.dot, .optionalChain] || (p.startsMember && next.any Kind.followsKey) then .name
  else k

/-- Whether an `async` at `t` makes the function that follows it asynchronous. -/
def marksAsync (t : Token) (rest : List Token) : Bool :=
  match significant rest with
  | [] => false
  | next :: rest =>
    next.start.line = t.start.line &&
      (next.kind = .functionWord
        || next.kind = .name && (significant rest).head?.any (fun a => a.kind = .arrow)
        || next.kind = .leftParen && closesIntoArrow 0 rest)

/-- The role of a name. -/
def nameRole (p : Place) (t : Token) (rest : List Token) : Kind :=
  let next := (significant rest).head?.map Token.kind
  let modifies := p.startsMember && !p.lastIn [.asyncWord, .getWord, .setWord] &&
    next.any Kind.startsKey
  if p.inClause ∧ t.text = "from" ∧ next = some .string then .fromWord
  else if p.inClause ∧ t.text = "as" ∧ next.any [.name, .string, .defaultWord].contains then .asWord
  else if t.text = "of" ∧ p.context = .head ∧ p.lastIs .name then .ofWord
  else if t.text = "async" ∧ marksAsync t rest then .asyncWord
  else if modifies ∧ t.text = "async" then .asyncWord
  else if modifies ∧ t.text = "get" then .getWord
  else if modifies ∧ t.text = "set" then .setWord
  else if modifies ∧ t.text = "static" ∧ p.context = .classBody ∧ !p.lastIs .staticWord then
    .staticWord
  else .name

/-- The role of a token in front of `rest`. -/
def role (p : Place) (t : Token) (rest : List Token) : Kind :=
  if t.kind = .leftBrace then p.braceRole
  else if t.kind = .leftParen ∧ closesIntoArrow 0 rest then .arrowParen
  else if t.kind.isReserved then p.reservedRole t.kind ((significant rest).head?.map Token.kind)
  else if t.kind = .name then p.nameRole t rest
  else t.kind

/-! ## Steps -/

/-- The contexts behind a token of kind `k`. -/
def stackAfter (p : Place) (k : Kind) : List Context :=
  match k with
  | .blockBrace => .block :: p.stack
  | .classBrace => .classBody :: p.stack
  | .leftBrace => .object :: p.stack
  | .leftParen => p.nextParen.getD .group :: p.stack
  | .arrowParen => .group :: p.stack
  | .leftBracket => .bracket :: p.stack
  | .rightParen | .rightBracket | .rightBrace =>
    if 1 < p.stack.length then p.stack.tail else p.stack
  | _ => p.stack

/-- What a token of kind `k` closes. The outermost context stays open. -/
def closedBy (p : Place) (k : Kind) : Option Context :=
  match k with
  | .rightParen | .rightBracket | .rightBrace =>
    if 1 < p.stack.length then p.stack.head? else none
  | _ => none

/-- Whether the tokens behind a token of kind `k` belong to an import or export clause. -/
def inClauseAfter (p : Place) (k : Kind) : Bool :=
  if (k = .importWord || k = .exportWord) && p.startsStatement then true
  else if [Kind.defaultWord, .constWord, .letWord, .varWord, .functionDeclaration,
      .classDeclaration, .asyncWord].contains k && p.lastIs .exportWord then false
  else p.inClause

/-- The place behind a token of kind `k`. -/
def after (p : Place) (k : Kind) : Place where
  stack := p.stackAfter k
  canEnd := k.canEnd && p.closedBy k != some .head
  last := some k
  inClause := p.inClauseAfter k
  closed := (p.closedBy k).or p.closed
  classes :=
    if k = .classWord || k = .classDeclaration then p.stack.length :: p.classes
    else if k = .classBrace then p.classes.tail
    else p.classes
  loops := if k = .doWord then p.stack.length :: p.loops else p.loops
  nextParen := if k.opensHead then p.nextParen.or (some .head) else none
  asyncDeclares :=
    if k = .asyncWord then p.startsStatement || p.lastIs .exportWord else p.asyncDeclares

/-- The place in which the `while` of a do-loop has been seen to close the loop. -/
def leaveLoop (p : Place) : Place :=
  { p with loops := p.loops.tail, nextParen := some .loopTail }

/-- The terminator that a token gives rise to, with its text and place. -/
def terminatorOf (t : Token) : Token := { t with kind := .terminator }

/-- The tokens behind a place; `newline` says that a line break stands in front of them, and
`lastToken` is the last token that is neither line break nor semicolon. The end of a module ends
its last statement. -/
def placeFrom (module : Bool) (p : Place) (newline : Bool) (lastToken : Option Token) :
    List Token → List Token
  | [] =>
    match lastToken with
    | some t => if module && p.canEnd then [terminatorOf t] else []
    | none => []
  | t :: rest =>
    if t.kind = .newline then placeFrom module p true lastToken rest
    else if t.kind = .semicolon then
      terminatorOf t :: placeFrom module p.afterTerminator false lastToken rest
    else
      let closesLoop := p.closesLoop t.kind
      let ends := p.endsBefore t.kind newline
      let p := if ends then p.afterTerminator else p
      let placed : Token := { t with kind := p.role t rest }
      let closed := (if closesLoop then p.leaveLoop else p).closedBy placed.kind
      let p := (if closesLoop then p.leaveLoop else p).after placed.kind
      let front := if ends then [terminatorOf t, placed] else [placed]
      -- the condition of a do-loop ends the statement even where no semicolon follows
      if closed = some .loopTail ∧
          (significant rest).head?.all (fun next => next.kind ≠ .semicolon) then
        front ++ terminatorOf t :: placeFrom module p.afterTerminator false (some placed) rest
      else front ++ placeFrom module p false (some placed) rest

end Place

/-- The tokens of a module in their places. -/
def placeModule (ts : List Token) : List Token := Place.placeFrom true .ofModule false none ts

/-- The tokens of an expression that stands alone. No statement ends in it by a line break. -/
def placeExpression (ts : List Token) : List Token :=
  Place.placeFrom false .ofExpression false none ts

end Token

end InlineTemplates
