import InlineTemplates.Failure
import InlineTemplates.Node
import InlineTemplates.Text.DecimalDigit
import InlineTemplates.Text.Unescaped
import InlineTemplates.Token.Holes

/-!
# Nodes made from tokens

A source can follow the grammar and still hold a literal that has no value, so what the grammar
builds is a draft: a node, or the reason why there is none. Such a reason counts only when the
whole source follows the grammar.
-/

namespace InlineTemplates

/-- A node, or why there is none. -/
abbrev Draft := Except Error Node

/-- The nodes of some drafts, or the first reason why there is none. -/
abbrev Drafts := Except Error (List Node)

/-- The text that is parsed, and how the holes of its templates are. -/
structure Reader where
  origin : SourceUnit
  /-- Parses the source of a hole. -/
  hole : Text → Draft

namespace Reader

/-- A fault of a token of this text. -/
def fault (r : Reader) (f : ParseFault) (t : Token) : Error :=
  .report ⟨.parse f, some t.start, r.origin⟩

/-- The value of a string body that stands in `t`. -/
def unescape (r : Reader) (t : Token) (body : Text) : Except Error Text :=
  match body.unescaped with
  | .ok v => .ok v
  | .error e => .error (r.fault (.codePointOutOfBounds e) t)

/-- The text of a token between its first and its last code point. -/
def inside (t : Token) : Text := t.text.tail.dropLast

/-- The literal of a string token. -/
def string (r : Reader) (t : Token) : Draft := do
  let v ← r.unescape t (inside t)
  return .literal (.ofLoc t.start) (.str v)

/-- The name of a token, whatever its kind. -/
def name (t : Token) : Node := .name (.ofLoc t.start) t.text

/-- The value of a number: base sixteen behind `0x`, a double with a point or an exponent, and
else an integer. -/
def numberValue (t : Text) : Literal :=
  let mantissa := t.takeWhile fun (c : CodePoint) => c != 'e' && c != 'E'
  let power := (t.drop mantissa.length).tail
  let whole := mantissa.takeWhile fun (c : CodePoint) => c != '.'
  let fraction := (mantissa.drop whole.length).tail
  let base := (t.drop 1).head?
  if t.head? = some '0' ∧ (base = some 'x' ∨ base = some 'X') then
    .int (Text.readHex (t.drop 2))
  else if whole.length = t.length then .int t.readDecimal
  else
    let size : Int := Text.readDecimal (power.filter CodePoint.isDigit)
    .float (Double.ofDecimal false (Text.readDecimal (whole ++ fraction))
      ((if power.head? = some '-' then -size else size) - fraction.length))

/-- The literal of a number token. -/
def number (t : Token) : Node := .literal (.ofLoc t.start) (numberValue t.text)

/-- The template of a template token. All chunks are read before the first hole is. Places in a
hole are counted from the start of the whole text. -/
def template (r : Reader) (t : Token) : Draft := do
  match Template.parts? (t.start.step '\x60') (inside t) with
  | none => throw .malformed
  | some (chunks, holes) =>
    let quasis ← chunks.mapM fun chunk => do
      return Node.quasi .fresh chunk (← r.unescape t chunk)
    let expressions ← holes.mapM fun h => do
      return (← r.hole h.source).mapLocations h.start.within
    return .template (.ofLoc t.start) quasis expressions

end Reader

end InlineTemplates
