import InlineTemplates.Text

/-!
# Names of files

A name is a way through directories. What does not lead anywhere is left out: empty parts, and parts
that stay where they are.
-/

namespace InlineTemplates

namespace FileName

/-- The parts of a name between slashes. -/
def parts (t : Text) : List Text := t.splitOn (CodePoint.scalar '/')

/-- The slashes at the start that count: two are not the same as one, more are. -/
def root (t : Text) : Text :=
  let count := (t.takeWhile fun (c : CodePoint) => c == '/').length
  if count = 2 then "//" else if count = 0 then [] else "/"

/-- The parts that lead somewhere. -/
def steps (t : Text) : List Text := (parts t).filter fun p => !p.isEmpty && p != "."

/-- A name without the parts that lead nowhere. -/
def normalized (t : Text) : Text :=
  let name := root t ++ Text.join "/" (steps t)
  if name.isEmpty then "." else name

/-- Whether there can be a file with this name. None has a null character in its name. -/
def isPossible (t : Text) : Bool := !t.contains (CodePoint.scalar '\x00')

end FileName

end InlineTemplates
