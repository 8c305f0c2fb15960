import InlineTemplates.Text

/-!
# The value of a string literal

Reads the escapes in the body of a string or of a template. Each escape is consumed once, from
left to right, and what it stands for is not read again.
-/

namespace InlineTemplates

namespace Text

/-- What a backslash with one more code point behind it stands for, where it is no longer escape:
a line end for nothing, some letters for a control character, and any other for itself. -/
def simpleEscape (c : CodePoint) : Text :=
  if [0x0A, 0x0D, 0x2028, 0x2029].contains c.val then []
  else if c = 'n' then [CodePoint.scalar '\n']
  else if c = 't' then [CodePoint.scalar '\t']
  else if c = 'r' then [CodePoint.scalar '\r']
  else if c = 'b' then [CodePoint.scalar '\x08']
  else if c = 'f' then [CodePoint.scalar '\x0c']
  else if c = 'v' then [CodePoint.scalar '\x0b']
  else if c = '0' then [CodePoint.scalar '\x00']
  else [c]

/-- An escape: how many code points it has behind the backslash, and what it stands for. -/
structure Escape where
  size : Nat
  value : Text

/-- The escape in front of which a backslash stands, or the text of one whose code point does not
exist. A `\u` or `\x` without its digits is a simple escape. -/
def escapeAt? : Text → Except Text Escape
  | [] => .ok ⟨0, ['\\']⟩
  | c :: rest =>
    let braced := rest.drop 1
    let digits := braced.takeWhile CodePoint.isHexDigit
    if c = 'u' ∧ rest.head? = some '{' ∧ digits ≠ [] ∧
        (braced.drop digits.length).head? = some '}' then
      match CodePoint.ofNat? (readHex digits) with
      | some p => .ok ⟨digits.length + 3, [p]⟩
      | none => .error ("u\x7b" ++ digits ++ "\x7d")
    else if c = 'u' ∧ 4 ≤ rest.length ∧ (rest.take 4).all CodePoint.isHexDigit then
      .ok ⟨5, (CodePoint.ofNat? (readHex (rest.take 4))).toList⟩
    else if c = 'x' ∧ 2 ≤ rest.length ∧ (rest.take 2).all CodePoint.isHexDigit then
      .ok ⟨3, (CodePoint.ofNat? (readHex (rest.take 2))).toList⟩
    else if c = '\r' ∧ rest.head? = some '\n' then .ok ⟨2, []⟩
    else .ok ⟨1, simpleEscape c⟩

/-- Reads a text of which the first `skip` code points belong to an escape already read. -/
def unescapedFrom (skip : Nat) : Text → Except Text Text
  | [] => .ok []
  | c :: rest =>
    match skip with
    | skip + 1 => unescapedFrom skip rest
    | 0 =>
      if c = '\\' then
        match escapeAt? rest with
        | .error e => .error e
        | .ok e => (unescapedFrom e.size rest).map (e.value ++ ·)
      else (unescapedFrom 0 rest).map (c :: ·)

/-- The value of the body of a string literal, or the first escape, without its backslash, whose
code point does not exist. -/
def unescaped (t : Text) : Except Text Text := unescapedFrom 0 t

end Text

end InlineTemplates
