import InlineTemplates.Text

/-!
# Escaped strings

Strings are written in double quotes. The quote, the backslash and the control characters with a
short name are escaped by name; what else may not stand as it is becomes `\u` with four
hexadecimal digits, twice for a code point above `0xFFFF`. Which code points stand as they are is
the choice of the format that uses this.
-/

namespace InlineTemplates

namespace Text

/-- The escapes that have a name. -/
def namedEscape? (c : CodePoint) : Option Text :=
  if c = '"' then some "\\\""
  else if c = '\\' then some "\\\\"
  else if c.val = 0x08 then some "\\b"
  else if c.val = 0x09 then some "\\t"
  else if c.val = 0x0A then some "\\n"
  else if c.val = 0x0C then some "\\f"
  else if c.val = 0x0D then some "\\r"
  else none

/-- `\u` with four hexadecimal digits, or a pair of them above `0xFFFF`. -/
def unicodeEscape (n : Nat) : Text :=
  if n ≤ 0xFFFF then "\\u" ++ hexFilled 4 n
  else "\\u" ++ hexFilled 4 (0xD800 + (n - 0x10000) / 0x400) ++
    "\\u" ++ hexFilled 4 (0xDC00 + (n - 0x10000) % 0x400)

/-- One code point inside a string. -/
def escapedPoint (plain : CodePoint → Bool) (c : CodePoint) : Text :=
  match namedEscape? c with
  | some t => t
  | none => if plain c then [c] else unicodeEscape c.val

/-- `t` as a string in double quotes; `plain` tells which code points stand as they are. -/
def escaped (plain : CodePoint → Bool) (t : Text) : Text :=
  "\"" ++ t.flatMap (escapedPoint plain) ++ "\""

/-- A string in which only control characters are escaped. -/
def escapedControls (t : Text) : Text := escaped (fun c => 0x20 ≤ c.val) t

/-- A string of printable ASCII. -/
def escapedAscii (t : Text) : Text := escaped (fun c => 0x20 ≤ c.val && c.val ≤ 0x7E) t

/-- A string literal of a module: the line and paragraph separators are escaped besides the
control characters. -/
def stringLiteral (t : Text) : Text :=
  escaped (fun c => 0x20 ≤ c.val && c.val != 0x2028 && c.val != 0x2029) t

end Text

end InlineTemplates
