/-!
# Code points and texts

A text is a list of code points. Unlike a `String` it can hold surrogates: a string literal may
spell one half of a pair on its own (`'\ud83d'`), and the value of that literal is one code point.
-/

namespace InlineTemplates

/-- A Unicode code point: a scalar value, or a surrogate `0xD800 + u`. -/
inductive CodePoint where
  | scalar (c : Char)
  | surrogate (u : Fin 2048)
deriving DecidableEq, Inhabited

namespace CodePoint

/-- The number of a code point. Texts are ordered by it. -/
def val : CodePoint → Nat
  | scalar c => c.toNat
  | surrogate u => 0xD800 + u.val

/-- The greatest code point. -/
def maximum : Nat := 0x10FFFF

/-- The code point with number `n`, if there is one. -/
def ofNat? (n : Nat) : Option CodePoint :=
  if h : 0xD800 ≤ n ∧ n < 0xE000 then some (surrogate ⟨n - 0xD800, by omega⟩)
  else if n ≤ maximum then some (scalar (Char.ofNat n))
  else none

instance : Coe Char CodePoint := ⟨scalar⟩

theorem val_le_maximum (c : CodePoint) : c.val ≤ maximum := by
  cases c with
  | scalar c =>
    have h := c.valid
    have hv : c.val.toNat = c.toNat := rfl
    simp only [UInt32.isValidChar, Nat.isValidChar, hv] at h
    simp only [val, maximum]
    omega
  | surrogate u => simp only [val, maximum]; omega

@[simp]
theorem ofNat?_val (c : CodePoint) : ofNat? c.val = some c := by
  cases c with
  | scalar c =>
    have h := c.valid
    have hv : c.val.toNat = c.toNat := rfl
    simp only [UInt32.isValidChar, Nat.isValidChar, hv] at h
    have hs : ¬(0xD800 ≤ c.toNat ∧ c.toNat < 0xE000) := by omega
    have hm : c.toNat ≤ maximum := val_le_maximum (scalar c)
    simp [ofNat?, val, hs, hm, Char.ofNat_toNat]
  | surrogate u =>
    have h : 0xD800 ≤ 0xD800 + u.val ∧ 0xD800 + u.val < 0xE000 := by omega
    simp [ofNat?, val, h]

theorem val_injective {c d : CodePoint} (h : c.val = d.val) : c = d := by
  have hc := ofNat?_val c
  rw [h, ofNat?_val] at hc
  exact (Option.some.inj hc).symm

/-! ## Classes -/

def isAsciiLower (c : CodePoint) : Bool := 97 ≤ c.val && c.val ≤ 122

def isAsciiUpper (c : CodePoint) : Bool := 65 ≤ c.val && c.val ≤ 90

def isAsciiDigit (c : CodePoint) : Bool := 48 ≤ c.val && c.val ≤ 57

def isAsciiLetter (c : CodePoint) : Bool := c.isAsciiLower || c.isAsciiUpper

/-- A code point that an identifier may start with. Identifiers are ASCII. -/
def isNameStart (c : CodePoint) : Bool := c.isAsciiLetter || c == '_' || c == '$'

/-- A code point that an identifier may go on with. -/
def isNamePart (c : CodePoint) : Bool := c.isNameStart || c.isAsciiDigit

/-- The value of an ASCII hexadecimal digit. -/
def hexValue? (c : CodePoint) : Option Nat :=
  if c.isAsciiDigit then some (c.val - 48)
  else if 97 ≤ c.val ∧ c.val ≤ 102 then some (c.val - 87)
  else if 65 ≤ c.val ∧ c.val ≤ 70 then some (c.val - 55)
  else none

def isHexDigit (c : CodePoint) : Bool := c.hexValue?.isSome

def isSurrogate : CodePoint → Bool
  | scalar _ => false
  | surrogate _ => true

/-- The number of bytes of a code point in UTF-8. -/
def utf8Size (c : CodePoint) : Nat :=
  if c.val < 0x80 then 1 else if c.val < 0x800 then 2 else if c.val < 0x10000 then 3 else 4

/-- An ASCII letter in upper case; any other code point as it is. -/
def toAsciiUpper (c : CodePoint) : CodePoint :=
  match c with
  | scalar ch => if c.isAsciiLower then scalar (Char.ofNat (ch.toNat - 32)) else c
  | surrogate u => surrogate u

end CodePoint

/-- A sequence of code points. -/
abbrev Text := List CodePoint

namespace Text

/-- The text of a string. -/
def ofString (s : String) : Text := s.toList.map CodePoint.scalar

instance : Coe String Text := ⟨ofString⟩

@[simp]
theorem ofString_append (s t : String) : ofString (s ++ t) = ofString s ++ ofString t := by
  simp [ofString]

/-- The string of a text that holds no surrogate. -/
def toString? (t : Text) : Option String :=
  (t.mapM scalar?).map String.ofList
where
  /-- The scalar value that a code point is. -/
  scalar? : CodePoint → Option Char
    | .scalar c => some c
    | .surrogate _ => none

/-- The digits of `n` in base ten. -/
def ofNat (n : Nat) : Text := (Nat.toDigits 10 n).map CodePoint.scalar

/-- The digits of `n` in base ten, with a minus sign in front when `n` is negative. -/
def ofInt : Int → Text
  | .ofNat n => ofNat n
  | .negSucc n => '-' :: ofNat (n + 1)

/-- The number written by digits of the given base; `digit` reads one. -/
def readDigits (base : Nat) (digit : CodePoint → Nat) (t : Text) : Nat :=
  t.foldl (fun n c => n * base + digit c) 0

/-- The number written by ASCII decimal digits. -/
def readAsciiDecimal (t : Text) : Nat := readDigits 10 (fun c => c.val - 48) t

/-- The number written by hexadecimal digits. -/
def readHex (t : Text) : Nat := readDigits 16 (fun c => c.hexValue?.getD 0) t

/-- Whether `a` is at most `b` in the order of code points. -/
def le : Text → Text → Bool
  | [], _ => true
  | _ :: _, [] => false
  | a :: as, b :: bs => a.val < b.val || (a.val == b.val && le as bs)

/-- `t` if the condition holds, and nothing otherwise. -/
def when (condition : Bool) (t : Text) : Text := if condition then t else []

/-- `items` with `sep` between them. -/
def join (sep : Text) (items : List Text) : Text := sep.intercalate items

/-- A text in ascending order without repetitions. -/
def sortedSet (items : List Text) : List Text := (items.mergeSort le).eraseReps

/-- `n` copies of a code point. -/
def filled (n : Nat) (c : Char) : Text := List.replicate n (CodePoint.scalar c)

/-- `n` in lower-case hexadecimal, filled up with zeros to `width` digits. -/
def hexFilled (width n : Nat) : Text :=
  let digits : Text := (Nat.toDigits 16 n).map CodePoint.scalar
  filled (width - digits.length) '0' ++ digits

/-- The number of bytes of a text in UTF-8. -/
def utf8Size (t : Text) : Nat := t.foldl (fun n c => n + c.utf8Size) 0

/-- The first surrogates that stand together, behind a number of other code points. -/
def surrogates? (t : Text) : Option (Nat × Text) :=
  let front := t.takeWhile (!·.isSurrogate)
  let run := (t.drop front.length).takeWhile CodePoint.isSurrogate
  if run.isEmpty then none else some (front.length, run)

/-- Every `*/` of `t` written as `*\/`, from left to right. -/
def escapeCommentEnd : Text → Text
  | .scalar '*' :: .scalar '/' :: rest => '*' :: '\\' :: '/' :: escapeCommentEnd rest
  | c :: rest => c :: escapeCommentEnd rest
  | [] => []

/-- Splits at the first `c`: what stands in front of it, and what stands behind it if it occurs. -/
def splitAt? (c : CodePoint) : Text → Text × Option Text
  | [] => ([], none)
  | x :: rest =>
    if x = c then ([], some rest)
    else ((x :: (splitAt? c rest).1), (splitAt? c rest).2)

/-- Nothing is lost at the split. -/
theorem splitAt?_eq (c : CodePoint) (t : Text) :
    (splitAt? c t).1 ++ ((splitAt? c t).2.map (c :: ·)).getD [] = t := by
  induction t with
  | nil => rfl
  | cons x rest ih =>
    by_cases h : x = c
    · simp [splitAt?, h]
    · simp [splitAt?, h, ih]

theorem not_mem_splitAt? (c : CodePoint) (t : Text) : c ∉ (splitAt? c t).1 := by
  induction t with
  | nil => simp [splitAt?]
  | cons x rest ih =>
    by_cases h : x = c
    · simp [splitAt?, h]
    · simp [splitAt?, h, ih, Ne.symm h]

end Text

end InlineTemplates
