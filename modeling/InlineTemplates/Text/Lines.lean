import InlineTemplates.Text

/-!
# The lines of a text

A line ends at a line feed, a carriage return (with a line feed directly behind it or not), or one
of the control and separator characters that also break lines.
-/

namespace InlineTemplates

namespace CodePoint

/-- Whether a line ends at this code point. -/
def endsLine (c : CodePoint) : Bool :=
  [0x0A, 0x0B, 0x0C, 0x0D, 0x1C, 0x1D, 0x1E, 0x85, 0x2028, 0x2029].contains c.val

end CodePoint

namespace Text

/-- Puts `c` in front of the first line. -/
def consLine (c : CodePoint) : List Text → List Text
  | [] => [[c]]
  | line :: rest => (c :: line) :: rest

/-- The lines of a text without their ends. What stands behind the last end is a line only if it
is not empty. -/
def lines : Text → List Text
  | [] => []
  | .scalar '\r' :: .scalar '\n' :: rest => [] :: lines rest
  | c :: rest => if c.endsLine then [] :: lines rest else consLine c (lines rest)

/-- Every `\r\n` and every other `\r` as a line feed. -/
def normalizeNewlines : Text → Text
  | [] => []
  | .scalar '\r' :: .scalar '\n' :: rest => '\n' :: normalizeNewlines rest
  | c :: rest => (if c = '\r' then CodePoint.scalar '\n' else c) :: normalizeNewlines rest

end Text

end InlineTemplates
