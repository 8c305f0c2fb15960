import InlineTemplates.Text.DecimalDigit
import InlineTemplates.Token

/-!
# Lexemes

How long the lexeme of each class is at the start of a text. The classes are tried in a fixed
order and the first that matches wins, so a longer match of a later class does not count.
-/

namespace InlineTemplates

namespace Lexeme

/-! ## Numbers, names and strings -/

/-- An exponent. Without digits there is none. -/
def exponentLength : Text → Nat
  | [] => 0
  | c :: rest =>
    let sign := if rest.head? = some '+' ∨ rest.head? = some '-' then 1 else 0
    let digits := ((rest.drop sign).takeWhile CodePoint.isDigit).length
    if (c = 'e' ∨ c = 'E') ∧ digits ≠ 0 then 1 + sign + digits else 0

/-- A number in base sixteen. -/
def hexLength? (t : Text) : Option Nat :=
  let digits := ((t.drop 2).takeWhile CodePoint.isHexDigit).length
  let base := (t.drop 1).head?
  if t.head? = some '0' ∧ (base = some 'x' ∨ base = some 'X') ∧ digits ≠ 0 then
    some (2 + digits)
  else none

/-- The digits of a number with its point. -/
def mantissaLength? (t : Text) : Option Nat :=
  let whole := (t.takeWhile CodePoint.isDigit).length
  let fraction := ((t.drop (whole + 1)).takeWhile CodePoint.isDigit).length
  let pointed : Bool := (t.drop whole).head? = some '.'
  if whole = 0 then if pointed ∧ fraction ≠ 0 then some (1 + fraction) else none
  else if pointed then some (whole + 1 + fraction)
  else some whole

/-- A number. -/
def numberLength? (t : Text) : Option Nat :=
  match hexLength? t with
  | some n => some n
  | none => (mantissaLength? t).map fun n => n + exponentLength (t.drop n)

/-- A name. -/
def nameLength? : Text → Option Nat
  | [] => none
  | c :: rest =>
    if c.isNameStart then some (1 + (rest.takeWhile CodePoint.isNamePart).length) else none

/-- A private name. -/
def privateNameLength? : Text → Option Nat
  | [] => none
  | c :: rest => if c = '#' then (nameLength? rest).map (1 + ·) else none

/-- The rest of a string behind its opening quote, the closing quote included. -/
def stringRest (quote : CodePoint) (escaped : Bool) : Text → Option Nat
  | [] => none
  | c :: rest =>
    if escaped then (stringRest quote false rest).map (1 + ·)
    else if c = quote then some 1
    else if c = '\n' then none
    else (stringRest quote (c = '\\') rest).map (1 + ·)

/-- A string. -/
def stringLength? : Text → Option Nat
  | [] => none
  | c :: rest => if c = '"' ∨ c = '\'' then (stringRest c false rest).map (1 + ·) else none

/-! ## Templates -/

/-- What stands open inside a template. -/
inductive Nest where
  | template (level : Nat)
  /-- The inside of a hole or of a brace in a hole. -/
  | code (level : Nat)
  | string (quote : CodePoint)
deriving DecidableEq

/-- How many levels deep holes may hold braces, strings and templates. -/
def deepestLevel : Nat := 2

/-- The rest of a template up to its closing backtick. `nest` says what stands open, innermost
first, and `escaped` that the next code point is taken as it is. -/
def templateRest (nest : List Nest) (escaped : Bool) : Text → Option Nat
  | [] => none
  | c :: rest =>
    if escaped then (templateRest nest false rest).map (1 + ·)
    else
      match nest with
      | [] => none
      | .string quote :: below =>
        if c = '\\' then (templateRest nest true rest).map (1 + ·)
        else if c = quote then (templateRest below false rest).map (1 + ·)
        else if c = '\n' then none
        else (templateRest nest false rest).map (1 + ·)
      | .template level :: below =>
        if c = '\\' then (templateRest nest true rest).map (1 + ·)
        else if c = '\x60' then
          if below.isEmpty then some 1 else (templateRest below false rest).map (1 + ·)
        else if c = '$' ∧ rest.head? = some '\x7b' then
          if level ≤ deepestLevel then (templateRest (.code level :: nest) true rest).map (1 + ·)
          else none
        else (templateRest nest false rest).map (1 + ·)
      | .code level :: below =>
        if c = '\x7d' then (templateRest below false rest).map (1 + ·)
        else if c = '"' ∨ c = '\'' ∨ c = '\x60' ∨ c = '\x7b' then
          if level ≤ deepestLevel then
            let inner :=
              if c = '\x60' then Nest.template (level + 1)
              else if c = '\x7b' then Nest.code (level + 1)
              else Nest.string c
            (templateRest (inner :: nest) false rest).map (1 + ·)
          else none
        else (templateRest nest false rest).map (1 + ·)

/-- A template. -/
def templateLength? : Text → Option Nat
  | [] => none
  | c :: rest =>
    if c = '\x60' then (templateRest [.template 0] false rest).map (1 + ·) else none

/-! ## Comments and blanks -/

/-- The rest of a block comment up to its end, the end included. -/
def blockCommentRest : Text → Option Nat
  | [] => none
  | .scalar '*' :: .scalar '/' :: _ => some 2
  | _ :: rest => (blockCommentRest rest).map (1 + ·)

/-- A block comment. -/
def blockCommentLength? : Text → Option Nat
  | .scalar '/' :: .scalar '*' :: rest => (blockCommentRest rest).map (2 + ·)
  | _ => none

/-- A comment up to the end of the line. -/
def lineCommentLength? : Text → Option Nat
  | .scalar '/' :: .scalar '/' :: rest =>
    some (2 + (rest.takeWhile fun (c : CodePoint) => c != '\n').length)
  | _ => none

/-- A line break with the blank lines behind it and the blanks in front of what follows. -/
def newlineLength? (t : Text) : Option Nat :=
  let behind (rest : Text) : Nat :=
    (rest.takeWhile fun (c : CodePoint) => c = '\n' || c = '\t' || c = ' ' || c = '\r').length
  match t with
  | .scalar '\n' :: rest => some (1 + behind rest)
  | .scalar '\r' :: .scalar '\n' :: rest => some (2 + behind rest)
  | _ => none

/-- Blanks inside a line. -/
def blankLength? (t : Text) : Option Nat :=
  let n := (t.takeWhile fun (c : CodePoint) =>
    c = ' ' || c = '\t' || c = '\x0c' || c = '\r').length
  if n = 0 then none else some n

/-! ## Signs -/

/-- The sign of an optional chain. In front of a digit the question mark stands alone. -/
def optionalChainLength? : Text → Option Nat
  | .scalar '?' :: .scalar '.' :: rest => if rest.head?.any CodePoint.isDigit then none else some 2
  | _ => none

/-- The first sign that the text starts with. -/
def sign? (t : Text) : Option (Token.Kind × Nat) :=
  (Token.Kind.punctuation.find? fun p => (Text.ofString p.1).isPrefixOf t).map fun p =>
    (p.2, p.1.length)

/-! ## All classes -/

/-- What a lexeme is. -/
inductive Class where
  | token (kind : Token.Kind)
  | comment
  | blank
deriving DecidableEq

/-- The kind of a name: a reserved word, or a name. -/
def nameKind (t : Text) : Token.Kind :=
  ((Token.Kind.reservedWords.find? fun w => Text.ofString w.1 == t).map (·.2)).getD .name

/-- The class and length of the lexeme at the start of a text. -/
def next? (t : Text) : Option (Class × Nat) :=
  (templateLength? t).map (Class.token .template, ·)
    <|> (numberLength? t).map (Class.token .number, ·)
    <|> (stringLength? t).map (Class.token .string, ·)
    <|> (privateNameLength? t).map (Class.token .privateName, ·)
    <|> (nameLength? t).map (fun n => (Class.token (nameKind (t.take n)), n))
    <|> (blockCommentLength? t).map (Class.comment, ·)
    <|> (newlineLength? t).map (Class.token .newline, ·)
    <|> (lineCommentLength? t).map (Class.comment, ·)
    <|> (blankLength? t).map (Class.blank, ·)
    <|> (optionalChainLength? t).map (Class.token .optionalChain, ·)
    <|> (sign? t).map (fun s => (Class.token s.1, s.2))

end Lexeme

end InlineTemplates
