import InlineTemplates.Number.Shortest
import InlineTemplates.Text.Escaped
import InlineTemplates.Value

/-!
# JSON documents

Reading a document into a value, and writing a value on one line. A number without point and
exponent is an integer of any size. The last of two equal keys wins.
-/

namespace InlineTemplates

namespace Json

/-! ## Reading -/

def isBlank (c : CodePoint) : Bool := c = ' ' ∨ c = '\t' ∨ c = '\n' ∨ c = '\r'

def skipBlanks (t : Text) : Text := t.dropWhile isBlank

/-- Whether the code point is half of a pair: a high or a low surrogate. -/
def isHigh (n : Nat) : Bool := 0xD800 ≤ n && n < 0xDC00

def isLow (n : Nat) : Bool := 0xDC00 ≤ n && n < 0xE000

/-- The four hexadecimal digits at the start of a text. -/
def hexUnit? (t : Text) : Option Nat :=
  let digits := t.take 4
  if digits.length = 4 ∧ digits.all CodePoint.isHexDigit then some (Text.readHex digits) else none

/-- The second half of a pair, if the text goes on with one. -/
def lowUnit? (t : Text) : Option Nat :=
  if t.take 2 = Text.ofString "\\u" then
    (hexUnit? (t.drop 2)).bind fun n => if isLow n then some n else none
  else none

/-- The code points that an escape letter stands for, apart from `u`. -/
def letterEscape? (c : CodePoint) : Option CodePoint :=
  if c = '"' ∨ c = '\\' ∨ c = '/' then some c
  else if c = 'b' then some '\x08'
  else if c = 'f' then some '\x0c'
  else if c = 'n' then some '\n'
  else if c = 'r' then some '\r'
  else if c = 't' then some '\t'
  else none

/-- The rest of a string behind its opening quote, and what follows the string. Two escapes that
are the halves of a pair are one code point. -/
def string? : Nat → Text → Option (Text × Text)
  | 0, _ => none
  | _ + 1, [] => none
  | fuel + 1, c :: rest =>
    if c = '"' then some ([], rest)
    else if c.val < 0x20 then none
    else if c = '\\' then
      match rest with
      | [] => none
      | e :: rest' =>
        if e = 'u' then
          match hexUnit? rest' with
          | none => none
          | some high =>
            match if isHigh high then lowUnit? (rest'.drop 4) else none with
            | some low =>
              (string? fuel (rest'.drop 10)).map fun r =>
                ((CodePoint.ofNat? (0x10000 + (high - 0xD800) * 0x400 + (low - 0xDC00))).toList
                  ++ r.1, r.2)
            | none =>
              (string? fuel (rest'.drop 4)).map fun r =>
                ((CodePoint.ofNat? high).toList ++ r.1, r.2)
        else
          match letterEscape? e with
          | none => none
          | some p => (string? fuel rest').map fun r => (p :: r.1, r.2)
    else (string? fuel rest).map fun r => (c :: r.1, r.2)

/-- The exponent part of a number, and what follows it. Without digits there is no exponent. -/
def exponent (t : Text) : Option Int × Text :=
  match t with
  | [] => (none, t)
  | c :: rest =>
    if c = 'e' ∨ c = 'E' then
      let negative := rest.head? = some '-'
      let rest' := if negative ∨ rest.head? = some '+' then rest.drop 1 else rest
      let digits := rest'.takeWhile CodePoint.isAsciiDigit
      if digits.isEmpty then (none, t)
      else
        let n : Int := Text.readAsciiDecimal digits
        (some (if negative then -n else n), rest'.drop digits.length)
    else (none, t)

/-- The fraction part of a number, and what follows it. Without digits there is no fraction. -/
def fraction (t : Text) : Option Text × Text :=
  match t with
  | [] => (none, t)
  | c :: rest =>
    let digits := rest.takeWhile CodePoint.isAsciiDigit
    if c = '.' ∧ digits ≠ [] then (some digits, rest.drop digits.length) else (none, t)

/-- A number, and what follows it. -/
def number? (t : Text) : Option (Value × Text) :=
  let negative := t.head? = some '-'
  let t := if negative then t.drop 1 else t
  let digits :=
    if t.head? = some '0' then t.take 1 else t.takeWhile CodePoint.isAsciiDigit
  if digits.isEmpty then none
  else
    let whole := Text.readAsciiDecimal digits
    let (decimals, rest) := fraction (t.drop digits.length)
    let (power, rest) := exponent rest
    match decimals, power with
    | none, none => some (.int (if negative then -(whole : Int) else whole), rest)
    | _, _ =>
      let decimals := decimals.getD []
      let all := Text.readAsciiDecimal (digits ++ decimals)
      some (.float (Double.ofDecimal negative all (power.getD 0 - decimals.length)), rest)

/-- The words of JSON, with those for the doubles that no digits write. -/
def words : List (String × Value) := [
  ("null", .null), ("true", .bool true), ("false", .bool false), ("NaN", .float .nan),
  ("Infinity", .float (.infinite false)), ("-Infinity", .float (.infinite true))]

/-- A value, and what follows it. -/
def value? : Nat → Text → Option (Value × Text)
  | 0, _ => none
  | fuel + 1, t =>
    let t := skipBlanks t
    match words.find? fun w => (Text.ofString w.1).isPrefixOf t with
    | some w => some (w.2, t.drop (Text.ofString w.1).length)
    | none =>
      match t with
      | [] => none
      | c :: rest =>
        if c = '"' then (string? (rest.length + 1) rest).map fun r => (.str r.1, r.2)
        else if c = '[' then
          if (skipBlanks rest).head? = some ']' then some (.list [], (skipBlanks rest).drop 1)
          else (items? (value? fuel) (rest.length + 1) rest).map fun r => (.list r.1, r.2)
        else if c = '\x7b' then
          if (skipBlanks rest).head? = some '\x7d' then
            some (.mapping [], (skipBlanks rest).drop 1)
          else (entries? (value? fuel) (rest.length + 1) rest).map fun r =>
            (.mapping (Entries.overlay [] r.1), r.2)
        else number? t
where
  /-- The items of a list up to its closing bracket. -/
  items? (item : Text → Option (Value × Text)) : Nat → Text → Option (List Value × Text)
    | 0, _ => none
    | n + 1, t =>
      match item t with
      | none => none
      | some (v, rest) =>
        match skipBlanks rest with
        | [] => none
        | c :: rest =>
          if c = ',' then (items? item n rest).map fun r => (v :: r.1, r.2)
          else if c = ']' then some ([v], rest)
          else none
  /-- The entries of a mapping up to its closing brace. -/
  entries? (item : Text → Option (Value × Text)) : Nat → Text → Option (Entries × Text)
    | 0, _ => none
    | n + 1, t =>
      match skipBlanks t with
      | [] => none
      | q :: rest =>
        if q ≠ '"' then none
        else match string? (rest.length + 1) rest with
        | none => none
        | some (key, rest) =>
          match skipBlanks rest with
          | [] => none
          | colon :: rest =>
            if colon ≠ ':' then none
            else match item rest with
            | none => none
            | some (v, rest) =>
              match skipBlanks rest with
              | [] => none
              | c :: rest =>
                if c = ',' then (entries? item n rest).map fun r => ((key, v) :: r.1, r.2)
                else if c = '\x7d' then some ([(key, v)], rest)
                else none

/-- The value of a document. -/
def read? (t : Text) : Option Value :=
  match value? (t.length + 1) t with
  | some (v, rest) => if (skipBlanks rest).isEmpty then some v else none
  | none => none

/-! ## Writing -/

/-- The text of a double in a document. -/
def doubleText : Double → Text
  | .nan => "NaN"
  | .infinite negative => Text.when negative "-" ++ "Infinity"
  | d => d.text

mutual

/-- A value on one line, in ASCII, with a space behind each comma and colon. -/
def write : Value → Text
  | .str t => t.escapedAscii
  | .int n => Text.ofInt n
  | .float d => doubleText d
  | .bool true => "true"
  | .bool false => "false"
  | .null => "null"
  | .list items => "[" ++ Text.join ", " (writeItems items) ++ "]"
  | .mapping entries => "\x7b" ++ Text.join ", " (writeEntries entries) ++ "\x7d"

def writeItems : List Value → List Text
  | [] => []
  | v :: rest => write v :: writeItems rest

def writeEntries : List (Text × Value) → List Text
  | [] => []
  | (key, v) :: rest => (key.escapedAscii ++ ": " ++ write v) :: writeEntries rest

end

end Json

end InlineTemplates
