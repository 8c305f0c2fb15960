import InlineTemplates.Text

/-!
# Identifiers from any text

A text becomes an identifier in camel case: what cannot stand in an identifier separates words, and
each word but the first starts in upper case. What would not be an identifier, or is reserved, gets
an underscore in front.
-/

namespace InlineTemplates

namespace Identifier

/-- The words that are not free to be names. -/
def reserved : List Text := List.map Text.ofString [
  "break", "case", "catch", "class", "const", "continue", "debugger", "default", "delete", "do",
  "else", "export", "extends", "false", "finally", "for", "function", "if", "import", "in",
  "instanceof", "new", "null", "return", "super", "switch", "this", "throw", "true", "try",
  "typeof", "var", "void", "while", "with", "yield", "let", "static", "enum", "await",
  "implements", "package", "protected", "interface", "private", "public", "arguments", "eval"]

/-- Whether `t` has the form of an identifier. -/
def hasForm : Text → Bool
  | [] => false
  | c :: rest => c.isNameStart && rest.all CodePoint.isNamePart

/-- The identifier characters of `t`, in upper case where they follow others. `atBreak` says that
others stand in front. -/
def camelCased (atBreak : Bool) : Text → Text
  | [] => []
  | c :: rest =>
    if c.isNamePart then (if atBreak then c.toAsciiUpper else c) :: camelCased false rest
    else camelCased true rest

/-- The identifier that a text becomes. -/
def ofText (t : Text) : Text :=
  let words := t.dropWhile fun (c : CodePoint) => !c.isNamePart || c.isAsciiDigit
  let name := camelCased false words
  if hasForm name && !reserved.contains name then name else '_' :: name

/-- `t` without the digits at its end. -/
def withoutNumber (t : Text) : Text := (t.reverse.dropWhile CodePoint.isAsciiDigit).reverse

end Identifier

end InlineTemplates
