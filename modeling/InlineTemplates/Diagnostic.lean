import InlineTemplates.Text.Lines
import InlineTemplates.Value

/-!
# Diagnostics

A diagnostic is a message about a place. Where the place and the source are known it is shown with
a code frame: the line, two lines around it, and a caret under the column.
-/

namespace InlineTemplates

/-- What a diagnostic points at. -/
structure Span where
  file : Option Text
  line : Option Int
  column : Option Int
deriving DecidableEq, Inhabited

namespace Span

/-- Whether the span names a line. -/
def isKnown (s : Span) : Bool := s.line.any (0 < ·)

/-- The span in the given file, unless it names one. -/
def orFile (s : Span) (file : Option Text) : Span := { s with file := s.file.or file }

end Span

namespace CodeFrame

/-- How many lines are shown in front of the line and behind it. -/
def contextLines : Nat := 2

/-- Spaces up to the column, with the tabs of the line kept. -/
def caretPad (line : Text) (column : Nat) : Text :=
  (line.take (column - 1)).map fun (c : CodePoint) => if c = '\t' then c else ' '

/-- The numbered line `number`, marked if it is the one meant, with the caret row below it. -/
def row (width number : Nat) (line : Text) (meant : Bool) (column : Option Int) : List Text :=
  let digits := Text.ofNat number
  let gutter : Text :=
    Text.when meant ">" ++ Text.when (!meant) " " ++ " " ++
      Text.filled (width - digits.length) ' ' ++ digits ++ " |"
  let shown := gutter ++ Text.when (!line.isEmpty) (" " ++ line)
  match column with
  | some (.ofNat (k + 1)) =>
    if meant then
      [shown, "  " ++ Text.filled width ' ' ++ " | " ++ caretPad line (k + 1) ++ "^"]
    else [shown]
  | _ => [shown]

/-- The frame around a line. A line that the source does not have gives the empty text. -/
def render (source : Text) (line : Int) (column : Option Int) : Text :=
  let lines := source.lines
  match line with
  | .negSucc _ => []
  | .ofNat line =>
    if line = 0 ∨ lines.length < line then []
    else
      let first := max 1 (line - contextLines)
      let last := min lines.length (line + contextLines)
      let width := (Text.ofNat last).length
      let rows := (lines.drop (first - 1)).take (last + 1 - first)
      Text.join "\n" (rows.zipIdx.flatMap fun (t, i) =>
        row width (first + i) t (first + i == line) column)

end CodeFrame

/-- A message about a place, with the part of the work that it comes from. -/
structure Diagnostic where
  message : Text
  phase : Option Text
  span : Span
  notes : List Text

namespace Diagnostic

/-- A line or column number. -/
def number : Option Int → Text
  | some n => Text.ofInt n
  | none => "None"

/-- The file of a diagnostic; without a name it is unknown. -/
def fileName (d : Diagnostic) : Text :=
  match d.span.file with
  | some (c :: name) => c :: name
  | _ => "unknown"

/-- The file, the message and, if known, the place. -/
def header (d : Diagnostic) : Text :=
  d.fileName ++ ": " ++ d.message ++
    Text.when d.span.isKnown (" (" ++ number d.span.line ++ ":" ++ number d.span.column ++ ")")

/-- The frame of a known place in a known source. -/
def frame (d : Diagnostic) (source : Option Text) : Text :=
  match source, d.span.isKnown, d.span.line with
  | some source, true, some line => CodeFrame.render source line d.span.column
  | _, _, _ => []

/-- The header, the code frame and the notes. -/
def render (d : Diagnostic) (source : Option Text) : Text :=
  let frame := d.frame source
  d.header ++ Text.when (!frame.isEmpty) ("\n\n" ++ frame) ++
    (d.notes.map fun (note : Text) => "\nnote: " ++ note).flatten

/-- A text, or null. -/
def optional : Option Text → Value
  | some t => .str t
  | none => .null

def optionalNumber : Option Int → Value
  | some n => .int n
  | none => .null

/-- The diagnostic as a record. Every diagnostic is an error. -/
def toRecord (d : Diagnostic) : Entries := [
  ("phase", optional d.phase),
  ("message", .str d.message),
  ("severity", .str "error"),
  ("file", optional d.span.file),
  ("line", optionalNumber d.span.line),
  ("column", optionalNumber d.span.column),
  ("notes", .list (d.notes.map .str))]

end Diagnostic

end InlineTemplates
