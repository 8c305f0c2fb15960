import InlineTemplates.Grammar.Expression

/-!
# The grammar of statements

The statements that end with a terminator are declarations of variables, jumps and expressions. A
terminator on its own is an empty statement, or only a filler when no `;` stands there.
-/

namespace InlineTemplates

namespace Grammar

open Parse

variable (r : Reader) (rules : Rules)

/-! ## Names of a module -/

/-- The name of an export: a name, a string or `default`. -/
def exportName : Parse Draft := do
  let t ← next
  match t.kind with
  | .name | .defaultWord => return .ok (Reader.name t)
  | .string => return r.string t
  | _ => fun _ => .error (some t)

/-- A name behind `as`, if there is one. -/
def renamed? (name : Parse Draft) : Parse (Option Draft) := do
  if let some _ ← accept? .asWord then return some (← name)
  else return none

/-- A plain name. -/
def plainName : Parse Draft := do return .ok (Reader.name (← expect .name))

/-- An import of one export. A local name is needed when a string names the export. -/
def importSpecifier : Parse Draft := do
  let start ← here
  let imported ← exportName r
  let localName ← renamed? plainName
  return do
    let imported ← imported
    match localName, imported with
    | some localName, _ => return .importNamed (.ofLoc start) imported (← localName)
    | none, .name .. => return .importNamed (.ofLoc start) imported imported
    | none, _ => throw .stringImportName

/-- The imports of some exports, in braces. -/
def importList : Parse Drafts := do
  let _ ← expect .leftBrace
  let items ← commaList .rightBrace (importSpecifier r)
  return items.mapM id

/-- The import of a whole module. -/
def importNamespace : Parse Draft := do
  let star ← expect .star
  let _ ← expect .asWord
  let localName ← expect .name
  return .ok (.importNamespace (.ofLoc star.start) (Reader.name localName))

/-- A list of imports or the import of a whole module. -/
def importRest : Parse Drafts := do
  if ← atKind .star then return (← importNamespace).map ([·])
  else importList r

/-- What an import binds: a default, and a list or a namespace behind it or on its own. -/
def importClause : Parse Drafts := do
  match ← accept? .name with
  | none => importRest r
  | some t =>
    let first : Node := .importDefault (.ofLoc t.start) (Reader.name t)
    if let some _ ← accept? .comma then
      return (← importRest r).map (first :: ·)
    else return .ok [first]

/-- An import. -/
def importDeclaration : Parse Draft := do
  let start ← here
  let _ ← expect .importWord
  let specifiers ← if ← atKind .string then pure (.ok []) else do
    let specifiers ← importClause r
    let _ ← expect .fromWord
    pure specifiers
  let source ← expect .string
  let _ ← expect .terminator
  return do return .importDecl (.ofLoc start) (← specifiers) (← r.string source)

/-- One export of a list. -/
def exportSpecifier : Parse Draft := do
  let start ← here
  let localName ← exportName r
  let exported ← renamed? (exportName r)
  return do
    let localName ← localName
    match exported with
    | none => return .exportSpecifier (.ofLoc start) localName []
    | some exported => return .exportSpecifier (.ofLoc start) localName [← exported]

/-! ## Declarations -/

/-- One variable of a declaration. -/
def declarator : Parse Draft := do
  let name ← expect .name
  let value ← behind? .assign rules.assign
  return do return .declarator (.ofLoc name.start) (Reader.name name) (← value)

/-- The kind of a declaration of variables. -/
def varKind : Parse VarKind := do
  match (← peek).kind with
  | .constWord => let _ ← next; return .const
  | .letWord => let _ ← next; return .let
  | .varWord => let _ ← next; return .var
  | _ => fail

/-- A declaration of variables without its terminator. -/
def varDeclaration : Parse Draft := do
  let start ← here
  let kind ← varKind
  let items ← commaSeparated (declarator rules)
  return do return .varDecl (.ofLoc start) kind (← items.mapM id)

/-- The declaration of a function. -/
def functionDeclaration : Parse Draft := do
  let start ← here
  let isAsync := (← accept? .asyncWord).isSome
  let _ ← expect .functionDeclaration
  let name ← expect .name
  let parts ← paramsAndBlock rules
  return do
    let (ps, body) ← parts
    return .functionDecl (.ofLoc start) isAsync (Reader.name name) ps body

/-- The declaration of a class. -/
def classDeclaration : Parse Draft := do
  let start ← here
  let _ ← expect .classDeclaration
  let name ← expect .name
  let parts ← classTail r rules
  return do
    let (superclass, body) ← parts
    return .classDecl (.ofLoc start) [Reader.name name] superclass body

/-- A list of exports with the module that they are taken from, if they are. -/
def exportList (start : Location) : Parse Draft := do
  let _ ← expect .leftBrace
  let items ← commaList .rightBrace (exportSpecifier r)
  let source ← behind? .fromWord (do return r.string (← expect .string))
  let _ ← expect .terminator
  return do
    let specifiers ← items.mapM id
    return .exportNamed (.ofLoc start) [] specifiers (← source)

/-- The export of a declaration. -/
def exported (start : Location) (declaration : Parse Draft) : Parse Draft := do
  return (← declaration).map fun d => .exportNamed (.ofLoc start) [d] [] []

/-- An export. -/
def exportDeclaration : Parse Draft := do
  let start ← here
  let _ ← expect .exportWord
  match (← peek).kind with
  | .defaultWord =>
    let _ ← next
    let value ← rules.assign
    let _ ← expect .terminator
    return value.map (.exportDefault (.ofLoc start) ·)
  | .constWord | .letWord | .varWord =>
    let declaration ← exported start (varDeclaration rules)
    let _ ← expect .terminator
    return declaration
  | .asyncWord | .functionDeclaration => exported start (functionDeclaration rules)
  | .classDeclaration => exported start (classDeclaration r rules)
  | _ => exportList r start

/-! ## Statements with bodies -/

/-- An expression in parentheses. -/
def condition : Parse Draft := do
  let _ ← expect .leftParen
  let value ← rules.assign
  let _ ← expect .rightParen
  return value

/-- The statement that is the body of another one. -/
def body : Parse Draft := do return (← rules.statement).draft

def ifStatement : Parse Draft := do
  let start ← here
  let _ ← expect .ifWord
  let test ← condition rules
  let thenBranch ← body rules
  let elseBranch ← behind? .elseWord (body rules)
  return do
    let elseBranch ← elseBranch
    return .ifStmt (.ofLoc start) (← test) (← thenBranch) elseBranch

/-- What `item` reads, as a list. -/
def single (item : Parse Draft) : Parse Drafts := do
  let draft ← item
  return draft.map ([·])

/-- What `item` reads in front of a token of kind `close`, if anything is there. -/
def optionalUpTo (close : Token.Kind) (item : Parse Draft) : Parse Drafts := do
  if ← atKind close then return .ok [] else single item

/-- The rest of a counting loop behind its first part. -/
def forRest (start : Location) (initial : Drafts) : Parse Draft := do
  let _ ← expect .terminator
  let test ← optionalUpTo .terminator rules.assign
  let _ ← expect .terminator
  let update ← optionalUpTo .rightParen rules.assign
  let _ ← expect .rightParen
  let body ← body rules
  return do return .forStmt (.ofLoc start) (← initial) (← test) (← update) (← body)

/-- What a loop over an object runs through. -/
def iteration : Parse Iteration := do
  if let some _ ← accept? .ofWord then return .values
  else
    let _ ← expect .inWord
    return .keys

/-- Whether the head of a loop over an object starts here: a kind, a name and `of` or `in`. -/
def startsIteration : Parse Bool := do
  match (← get).map Token.kind with
  | kind :: .name :: runs :: _ =>
    return [.constWord, .letWord, .varWord].contains kind && [.ofWord, .inWord].contains runs
  | _ => return false

def forStatement : Parse Draft := do
  let start ← here
  let _ ← expect .forWord
  let _ ← expect .leftParen
  if ← startsIteration then
    let kind ← varKind
    let name ← expect .name
    let runs ← iteration
    let iterable ← rules.assign
    let _ ← expect .rightParen
    let body ← body rules
    return do return .forIn (.ofLoc start) kind runs (Reader.name name) (← iterable) (← body)
  else
    let initial : Drafts ← match ← peekKind? with
      | some .constWord | some .letWord | some .varWord => single (varDeclaration rules)
      | _ => optionalUpTo .terminator rules.assign
    forRest rules start initial

def whileStatement : Parse Draft := do
  let start ← here
  let _ ← expect .whileWord
  let test ← condition rules
  let body ← body rules
  return do return .whileStmt (.ofLoc start) (← test) (← body)

def doStatement : Parse Draft := do
  let start ← here
  let _ ← expect .doWord
  let body ← body rules
  let _ ← expect .whileWord
  let test ← condition rules
  let _ ← expect .terminator
  return do return .doWhile (.ofLoc start) (← body) (← test)

/-- A handler, with or without a name for what is thrown. -/
def catchClause : Parse Draft := do
  let start ← here
  let _ ← expect .catchWord
  let param ← behind? .leftParen (do
    let name ← expect .name
    let _ ← expect .rightParen
    return .ok (Reader.name name))
  let body ← block rules
  return do return .catchClause (.ofLoc start) (← param) (← body)

def tryStatement : Parse Draft := do
  let start ← here
  let _ ← expect .tryWord
  let block' ← block rules
  let handler ← if ← atKind .catchWord then single (catchClause rules) else pure (.ok [])
  let finalizer ← behind? .finallyWord (block rules)
  return do
    let handler ← handler
    let finalizer ← finalizer
    return .tryStmt (.ofLoc start) (← block') handler finalizer

/-! ## Statements -/

/-- A statement that a terminator ends. -/
def terminated (statement : Parse Draft) : Parse Draft := do
  let draft ← statement
  let _ ← expect .terminator
  return draft

/-- An expression as a statement, without its terminator. -/
def expressionStatement : Parse Draft := do
  let start ← here
  return (← assign r rules).map (.exprStmt (.ofLoc start) ·)

/-- A statement. -/
def statement : Parse Line := do
  let t ← peek
  let head := Head.ofLoc t.start
  let plain (rule : Parse Draft) : Parse Line := do return ⟨← rule, false⟩
  match t.kind with
  | .importWord => plain (importDeclaration r)
  | .exportWord => plain (exportDeclaration r rules)
  | .functionDeclaration => plain (functionDeclaration rules)
  | .asyncWord =>
    if (← peekSecond?) = some .functionDeclaration then plain (functionDeclaration rules)
    else plain (terminated (expressionStatement r rules))
  | .classDeclaration => plain (classDeclaration r rules)
  | .ifWord => plain (ifStatement rules)
  | .forWord => plain (forStatement rules)
  | .whileWord => plain (whileStatement rules)
  | .doWord => plain (doStatement rules)
  | .tryWord => plain (tryStatement rules)
  | .blockBrace => plain (block rules)
  | .constWord | .letWord | .varWord => plain (terminated (varDeclaration rules))
  | .returnWord => plain (terminated (do
    let _ ← next
    let value ← optionalUpTo .terminator rules.assign
    return value.map (.returnStmt head ·)))
  | .throwWord => plain (terminated (do
    let _ ← next
    return (← rules.assign).map (.throwStmt head ·)))
  | .breakWord => plain (terminated (do let _ ← next; return .ok (.breakStmt head)))
  | .continueWord => plain (terminated (do let _ ← next; return .ok (.continueStmt head)))
  | .terminator =>
    let _ ← next
    return ⟨.ok (.emptyStmt head), t.text != ";"⟩
  | _ => plain (terminated (expressionStatement r rules))

/-- Statements up to the end of the input. -/
def statements : Parse Drafts := do
  let lines ← loop (fun (lines : List Line) => do
    match ← peekKind? with
    | none => return none
    | some _ => return some ((← rules.statement) :: lines)) []
  return (lines.reverse.filter (!·.isFiller)).mapM Line.draft

/-! ## All rules -/

/-- The rules with at most `depth` of them inside one another. Each consumes a token before it
uses another one, so no source needs more than it has tokens. -/
def rulesTo (r : Reader) : Nat → Rules
  | 0 => ⟨fail, fail, fail, fail⟩
  | depth + 1 =>
    let below := rulesTo r depth
    ⟨assign r below, unary r below, postfixed r below, statement r below⟩

end Grammar

end InlineTemplates
