import InlineTemplates.Grammar.Statement
import InlineTemplates.Node.Comments
import InlineTemplates.Token.Placed
import InlineTemplates.Token.Scan

/-!
# Reading sources

A source is scanned, its tokens get their roles, the grammar makes a draft of them, and the comments
are put on the tree. A fault of an earlier stage wins over one of a later stage, wherever it stands.
-/

namespace InlineTemplates

namespace Grammar

/-- What `rule` reads from all of the tokens. The end of the input is reported where the last token
starts. -/
def readAll {α : Type} (origin : SourceUnit) (rule : Parse α) (tokens : List Token) :
    Except Error α :=
  let report (fault : ParseFault) (loc : Location) : Except Error α :=
    .error (.report ⟨.parse fault, some loc, origin⟩)
  match rule tokens with
  | .ok (a, []) => .ok a
  | .ok (_, t :: _) | .error (some t) => report (.unexpectedToken t.text) t.start
  | .error none => report .unexpectedEnd ((tokens.getLast?.map Token.start).getD .start)

/-- The scan of a source. -/
def scan (origin : SourceUnit) (source : Text) : Except Error Scan :=
  match Scan.scan source with
  | .ok s => .ok s
  | .error f => .error (.report ⟨.parse f.fault, some f.loc, origin⟩)

/-- Reads an expression with at most `depth` templates inside one another. -/
def expressionTo : Nat → SourceUnit → Text → Except Error Node
  | 0, _, _ => .error .tooDeep
  | depth + 1, origin, source => do
    let s ← scan origin source
    let tokens := Token.placeExpression s.tokens
    let r : Reader := ⟨origin, fun hole => expressionTo depth ⟨some hole, none⟩ hole⟩
    let draft ← readAll origin (rulesTo r (tokens.length + 1)).assign tokens
    return Comment.attach (← draft) s.comments

end Grammar

namespace Node

/-- The expression that a source is. A hole of a template is a source of its own, shorter than the
one in which it stands. -/
def readExpression (source : Text) (file : Option Text) : Except Error Node :=
  Grammar.expressionTo (source.length + 1) ⟨some source, file⟩ source

/-- The program that a source is. It starts at its first token. -/
def readProgram (source : Text) (file : Option Text) : Except Error Node := do
  let origin : SourceUnit := ⟨some source, file⟩
  let s ← Grammar.scan origin source
  let tokens := Token.placeModule s.tokens
  let r : Reader := ⟨origin, fun hole => readExpression hole none⟩
  let rules := Grammar.rulesTo r (tokens.length + 1)
  let draft ← Grammar.readAll origin (Grammar.statements rules) tokens
  let root := Node.program ⟨tokens.head?.map Token.start, []⟩ [] (← draft)
  return Comment.attach root s.comments

end Node

end InlineTemplates
