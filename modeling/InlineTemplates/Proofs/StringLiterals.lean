import InlineTemplates.Proofs.Escapes
import InlineTemplates.Text.Escaped
import InlineTemplates.Token.Lexeme

/-!
# String literals say what they were written for

The literal of a text is one lexeme, whatever stands behind it, and reading its escapes gives the
text back. Both follow the literal one code point at a time: each is written as itself, as a
backslash with one letter, or as `\u` with four digits.
-/

namespace InlineTemplates

namespace Text

/-- Whether a code point that has no named escape stands as it is in a literal. -/
def standsInLiteral (c : CodePoint) : Bool := 0x20 ≤ c.val && c.val != 0x2028 && c.val != 0x2029

/-- What a code point is written as in a literal. -/
def literalPoint (c : CodePoint) : Text := escapedPoint standsInLiteral c

theorem stringLiteral_eq (t : Text) :
    t.stringLiteral = CodePoint.scalar '"' :: (t.flatMap literalPoint ++ [CodePoint.scalar '"']) :=
  rfl

/-- How a code point is written in a literal. -/
inductive Written (c : CodePoint) : Text → Prop
  | plain (hquote : c ≠ '"') (hslash : c ≠ '\\') (hline : c ≠ '\n') : Written c [c]
  | named {d : CodePoint} (hdigits : d ≠ 'u' ∧ d ≠ 'x' ∧ d ≠ '\r')
    (hvalue : simpleEscape d = [c]) : Written c ['\\', d]
  | unicode {digits : Text} (hlength : digits.length = 4) (hhex : digits.all CodePoint.isHexDigit)
    (hvalue : CodePoint.ofNat? (readHex digits) = some c) :
      Written c (CodePoint.scalar '\\' :: CodePoint.scalar 'u' :: digits)

theorem unicodeEscape_eq {n : Nat} (h : n < 0x20 ∨ n = 0x2028 ∨ n = 0x2029) :
    ∃ digits : Text,
      unicodeEscape n = CodePoint.scalar '\\' :: CodePoint.scalar 'u' :: digits ∧
        digits.length = 4 ∧ digits.all CodePoint.isHexDigit ∧ readHex digits = n := by
  have hall : ∀ n ∈ List.range 0x20 ++ [0x2028, 0x2029],
      unicodeEscape n = CodePoint.scalar '\\' :: CodePoint.scalar 'u' :: hexFilled 4 n ∧
        (hexFilled 4 n).length = 4 ∧ (hexFilled 4 n).all CodePoint.isHexDigit ∧
          readHex (hexFilled 4 n) = n := by
    decide +kernel
  exact ⟨_, hall n (by simpa using h)⟩

theorem written_literalPoint (c : CodePoint) : Written c (literalPoint c) := by
  have hval {d : CodePoint} (h : c.val = d.val) : c = d := CodePoint.val_injective h
  unfold literalPoint escapedPoint namedEscape?
  split
  · rename_i t ht
    -- each named escape reads back as its code point
    repeat' split at ht
    all_goals cases ht
    · rename_i h; subst h; exact .named (by decide) (by decide)
    · rename_i h; subst h; exact .named (by decide) (by decide)
    · rename_i h; obtain rfl := hval (d := '\x08') h; exact .named (by decide) (by decide)
    · rename_i h; obtain rfl := hval (d := '\t') h; exact .named (by decide) (by decide)
    · rename_i h; obtain rfl := hval (d := '\n') h; exact .named (by decide) (by decide)
    · rename_i h; obtain rfl := hval (d := '\x0c') h; exact .named (by decide) (by decide)
    · rename_i h; obtain rfl := hval (d := '\r') h; exact .named (by decide) (by decide)
  · rename_i hnone
    split
    · refine .plain ?_ ?_ ?_ <;> rintro rfl <;> cases hnone
    · rename_i hstands
      have hcontrol : c.val < 0x20 ∨ c.val = 0x2028 ∨ c.val = 0x2029 := by
        simp only [standsInLiteral, Bool.and_eq_true, decide_eq_true_eq, bne_iff_ne] at hstands
        omega
      obtain ⟨digits, heq, hlength, hhex, hread⟩ := unicodeEscape_eq hcontrol
      rw [heq]
      exact .unicode hlength hhex (by rw [hread, CodePoint.ofNat?_val])

/-! ## The value -/

theorem escapeAt?_named {d : CodePoint} (h : d ≠ 'u' ∧ d ≠ 'x' ∧ d ≠ '\r') (rest : Text) :
    escapeAt? ([d] ++ rest) = .ok ⟨1, simpleEscape d⟩ := by
  obtain ⟨hu, hx, hr⟩ := h
  simp [escapeAt?, hu, hx, hr]

theorem unescapedFrom_written {c : CodePoint} {t : Text} (h : Written c t) (rest : Text) :
    unescapedFrom 0 (t ++ rest) = (unescapedFrom 0 rest).map (c :: ·) := by
  cases h with
  | plain _ hslash _ => simp [unescapedFrom, hslash]
  | named hdigits hvalue =>
    refine (unescapedFrom_escape (escapeAt?_named hdigits rest)).trans ?_
    rw [hvalue]
    rfl
  | unicode hlength hhex hvalue =>
    have hread := escapeAt?_spells (.four hlength hhex) rest
    rw [hvalue] at hread
    exact unescapedFrom_escape hread

/-- The body of the literal of a text has the text for its value. -/
theorem unescaped_literalPoints (t : Text) : unescaped (t.flatMap literalPoint) = .ok t := by
  unfold unescaped
  induction t with
  | nil => rfl
  | cons c t ih => rw [List.flatMap_cons, unescapedFrom_written (written_literalPoint c), ih]; rfl

end Text

/-! ## The lexeme -/

namespace Lexeme

open Text

theorem stringRest_plain {c : CodePoint} (hquote : c ≠ '"') (hslash : c ≠ '\\')
    (hline : c ≠ '\n') (rest : Text) :
    stringRest '"' false (c :: rest) = (stringRest '"' false rest).map (1 + ·) := by
  simp [stringRest, hquote, hslash, hline]

theorem stringRest_plains {plains : Text}
    (h : ∀ c ∈ plains, c ≠ '"' ∧ c ≠ '\\' ∧ c ≠ '\n') (rest : Text) :
    stringRest '"' false (plains ++ rest) =
      (stringRest '"' false rest).map (plains.length + ·) := by
  induction plains with
  | nil => simp
  | cons c plains ih =>
    obtain ⟨⟨hquote, hslash, hline⟩, h⟩ := List.forall_mem_cons.1 h
    rw [List.cons_append, stringRest_plain hquote hslash hline, ih h, Option.map_map]
    congr 1
    funext n
    simp only [Function.comp_apply, List.length_cons]
    omega

theorem stringRest_escape (d : CodePoint) (rest : Text) :
    stringRest '"' false (CodePoint.scalar '\\' :: d :: rest) =
      (stringRest '"' false rest).map (2 + ·) := by
  have hquote : CodePoint.scalar '\\' ≠ '"' := by decide
  have hline : CodePoint.scalar '\\' ≠ '\n' := by decide
  simp [stringRest, hquote, hline, Function.comp_def, ← Nat.add_assoc]

theorem isHexDigit_plain {d : CodePoint} (h : d.isHexDigit) : d ≠ '"' ∧ d ≠ '\\' ∧ d ≠ '\n' := by
  refine ⟨?_, ?_, ?_⟩ <;> rintro rfl <;> exact absurd h (by decide)

theorem stringRest_written {c : CodePoint} {t : Text} (h : Written c t) (rest : Text) :
    stringRest '"' false (t ++ rest) = (stringRest '"' false rest).map (t.length + ·) := by
  cases h with
  | plain hquote hslash hline => exact stringRest_plain hquote hslash hline rest
  | named => exact stringRest_escape _ rest
  | unicode _ hhex _ =>
    have hdigits := stringRest_plains
      (fun d hd => isHexDigit_plain (List.all_eq_true.1 hhex d hd)) rest
    rw [List.cons_append, List.cons_append, stringRest_escape, hdigits, Option.map_map]
    congr 1
    funext n
    simp only [Function.comp_apply, List.length_cons]
    omega

theorem stringRest_literalPoints (t rest : Text) :
    stringRest '"' false (t.flatMap literalPoint ++ CodePoint.scalar '"' :: rest) =
      some ((t.flatMap literalPoint).length + 1) := by
  induction t with
  | nil => simp [stringRest]
  | cons c t ih =>
    rw [List.flatMap_cons, List.append_assoc, stringRest_written (written_literalPoint c), ih,
      Option.map_some, List.length_append, Nat.add_assoc]

/-- The literal of a text is one lexeme up to its closing quote, whatever stands behind it. -/
theorem next?_stringLiteral (t rest : Text) :
    next? (t.stringLiteral ++ rest) = some (.token .string, t.stringLiteral.length) := by
  have hrest := stringRest_literalPoints t rest
  have hstring : stringLength? (t.stringLiteral ++ rest) = some t.stringLiteral.length := by
    simp only [stringLiteral_eq, List.cons_append, List.append_assoc, List.nil_append,
      stringLength?, true_or, if_true, hrest, Option.map_some, List.length_cons,
      List.length_append, List.length_nil]
    congr 1
    omega
  have hnumber : numberLength? (t.stringLiteral ++ rest) = none := rfl
  have htemplate : templateLength? (t.stringLiteral ++ rest) = none := rfl
  simp [next?, hstring, hnumber, htemplate]

end Lexeme

end InlineTemplates
