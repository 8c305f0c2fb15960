import InlineTemplates.Text.Printable

/-!
# Texts quoted in messages

A message quotes a piece of source in single quotes, or in double quotes when the piece holds a
single quote and no double quote. The quote in use, the backslash and whatever is not printable
are escaped.
-/

namespace InlineTemplates

namespace Text

/-- One code point inside a quoted text. -/
def quotedPoint (quote : CodePoint) (c : CodePoint) : Text :=
  if c = quote ∨ c = '\\' then ['\\', c]
  else if c = '\n' then "\\n"
  else if c = '\r' then "\\r"
  else if c = '\t' then "\\t"
  else if c.isPrintable then [c]
  else if c.val < 0x100 then "\\x" ++ hexFilled 2 c.val
  else if c.val < 0x10000 then "\\u" ++ hexFilled 4 c.val
  else "\\U" ++ hexFilled 8 c.val

/-- The quote that a message puts around `t`. -/
def messageQuote (t : Text) : CodePoint :=
  if t.contains (CodePoint.scalar '\'') && !t.contains (CodePoint.scalar '"') then '"' else '\''

/-- `t` as a message quotes it. -/
def quoted (t : Text) : Text :=
  let quote := t.messageQuote
  quote :: t.flatMap (quotedPoint quote) ++ [quote]

end Text

end InlineTemplates
