import InlineTemplates.Failure
import InlineTemplates.Token.Lexeme

/-!
# Cutting a source into tokens

The whole source is cut before any of it is parsed, so a code point that starts no lexeme is
reported whatever stands in front of it. Comments are kept apart from the tokens.
-/

namespace InlineTemplates

/-- The tokens and the comments of a source, both in order. -/
structure Scan where
  tokens : List Token
  comments : List Comment
deriving Inhabited

/-- A fault with the place in the source where it shows. -/
structure PlacedFault where
  fault : ParseFault
  loc : Location
deriving DecidableEq, Inhabited

namespace Scan

/-- The scan of a source whose first lexeme has the given class. -/
def add (cls : Lexeme.Class) (text : Text) (start stop : Location) (s : Scan) : Scan :=
  match cls with
  | .token kind => { s with tokens := ⟨kind, text, start, stop⟩ :: s.tokens }
  | .comment => { s with comments := ⟨text, start, stop⟩ :: s.comments }
  | .blank => s

/-- Scans a text that starts at `loc` and has at most `fuel` lexemes. -/
def scanFrom : Nat → Location → Text → Except PlacedFault Scan
  | _, _, [] => .ok ⟨[], []⟩
  | 0, loc, c :: _ => .error ⟨.unexpectedCharacter c, loc⟩
  | fuel + 1, loc, c :: rest =>
    match Lexeme.next? (c :: rest) with
    | none => .error ⟨.unexpectedCharacter c, loc⟩
    | some (cls, n) =>
      let text := (c :: rest).take n
      let stop := loc.advance text
      (scanFrom fuel stop ((c :: rest).drop n)).map (add cls text loc stop)

/-- Scans a source. It has no more lexemes than code points, since no lexeme is empty. -/
def scan (source : Text) : Except PlacedFault Scan := scanFrom source.length .start source

end Scan

end InlineTemplates
