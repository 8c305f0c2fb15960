import Mathlib.Data.List.TakeWhile
import InlineTemplates.Grammar.Draft
import InlineTemplates.Proofs.Freshness
import InlineTemplates.Proofs.Words

/-!
# Integers say what they were written for

The digits of a natural number are one lexeme where no digit, point or name goes on behind them,
and have the number for their value.
-/

namespace InlineTemplates

namespace CodePoint

variable {c : CodePoint}

theorem digitValue?_of_isAsciiDigit (h : c.isAsciiDigit) : c.digitValue? = some (c.val - 48) := by
  obtain ⟨hlow, hhigh⟩ := isAsciiDigit_iff.1 h
  have hfind : zeroDigits.find? (fun z => z ≤ c.val && c.val < z + 10) = some 48 := by
    refine List.find?_cons_of_pos ?_
    simp only [Bool.and_eq_true, decide_eq_true_eq]
    omega
  rw [digitValue?, hfind]
  rfl

theorem isDigit_of_isAsciiDigit (h : c.isAsciiDigit) : c.isDigit := by
  rw [isDigit, digitValue?_of_isAsciiDigit h]
  rfl

theorem ne_of_isAsciiDigit {d : CodePoint} (h : c.isAsciiDigit) (hd : d.isAsciiDigit = false) :
    c ≠ d := by
  rintro rfl
  rw [h] at hd
  cases hd

end CodePoint

namespace Text

theorem readDecimal_ofNat (n : Nat) : (ofNat n).readDecimal = n := by
  have hread (t : List Char) (ht : ∀ c ∈ t, (CodePoint.scalar c).isAsciiDigit) (init : Nat) :
      (t.map CodePoint.scalar).foldl (fun n c => n * 10 + c.digitValue?.getD 0) init =
        Nat.ofDigitChars 10 t init := by
    induction t generalizing init with
    | nil => rfl
    | cons c t ih =>
      obtain ⟨hc, ht⟩ := List.forall_mem_cons.1 ht
      rw [List.map_cons, List.foldl_cons, ih ht, Nat.ofDigitChars_cons,
        CodePoint.digitValue?_of_isAsciiDigit hc, Nat.mul_comm]
      rfl
  have hdigits : ∀ c ∈ Nat.toDigits 10 n, (CodePoint.scalar c).isAsciiDigit := fun c hc =>
    ofNat_isAsciiDigit n _ (List.mem_map_of_mem hc)
  exact (hread _ hdigits 0).trans Nat.ofDigitChars_ten_toDigits

end Text

/-! ## The value -/

theorem Reader.numberValue_ofNat (n : Nat) : numberValue (Text.ofNat n) = .int n := by
  have hdigits := Text.ofNat_isAsciiDigit n
  have hkept (p : CodePoint → Bool) (hp : ∀ c : CodePoint, c.isAsciiDigit → p c) :
      (Text.ofNat n).takeWhile p = Text.ofNat n :=
    List.takeWhile_eq_self_iff.2 fun c hc => hp c (hdigits c hc)
  have hmantissa := hkept (fun c => c != 'e' && c != 'E') fun c hc => by
    simp [CodePoint.ne_of_isAsciiDigit hc (d := 'e') (by decide),
      CodePoint.ne_of_isAsciiDigit hc (d := 'E') (by decide)]
  have hwhole := hkept (fun c => c != '.') fun c hc => by
    simp [CodePoint.ne_of_isAsciiDigit hc (d := '.') (by decide)]
  have hbase {x : CodePoint} (hx : x.isAsciiDigit = false) :
      ((Text.ofNat n).drop 1).head? ≠ some x := fun h =>
    CodePoint.ne_of_isAsciiDigit (hdigits x (List.mem_of_mem_drop (List.mem_of_mem_head? h))) hx rfl
  have hnone : ¬((Text.ofNat n).head? = some '0' ∧ (((Text.ofNat n).drop 1).head? = some 'x' ∨
      ((Text.ofNat n).drop 1).head? = some 'X')) := by
    rintro ⟨-, h | h⟩
    · exact hbase (by decide) h
    · exact hbase (by decide) h
  unfold numberValue
  simp only [hmantissa, hwhole]
  rw [if_neg hnone, if_pos trivial, Text.readDecimal_ofNat]

/-! ## The lexeme -/

namespace Lexeme

/-- Nothing that goes on with an integer stands at the start of the text. -/
def EndsInteger (t : Text) : Prop :=
  ∀ c ∈ t.head?, c.isDigit = false ∧ c.isNamePart = false ∧ c ≠ '.'

variable {t rest : Text}

theorem numberLength?_digits (ht : ∀ c ∈ t, c.isAsciiDigit) (hne : t ≠ [])
    (hrest : EndsInteger rest) : numberLength? (t ++ rest) = some t.length := by
  have hhex : hexLength? (t ++ rest) = none := by
    have hbase {x : CodePoint} (hx : x.isAsciiDigit = false) (hx' : x.isNamePart) :
        ((t ++ rest).drop 1).head? ≠ some x := by
      rw [List.drop_append_of_le_length (List.length_pos_iff.2 hne), List.head?_append]
      intro h
      rcases Option.or_eq_some_iff.1 h with h | ⟨-, h⟩
      · exact CodePoint.ne_of_isAsciiDigit
          (ht x (List.mem_of_mem_drop (List.mem_of_mem_head? h))) hx rfl
      · rw [(hrest x h).2.1] at hx'
        cases hx'
    simp only [hexLength?]
    refine if_neg ?_
    rintro ⟨-, h | h, -⟩
    · exact hbase (by decide) (by decide) h
    · exact hbase (by decide) (by decide) h
  have hdigits : (t ++ rest).takeWhile CodePoint.isDigit = t := by
    rw [List.takeWhile_append_of_pos fun c hc => CodePoint.isDigit_of_isAsciiDigit (ht c hc)]
    cases rest with
    | nil => simp
    | cons c rest => simp [(hrest c rfl).1]
  have hpoint : rest.head? ≠ some (CodePoint.scalar '.') := fun h => (hrest _ h).2.2 rfl
  have hmantissa : mantissaLength? (t ++ rest) = some t.length := by
    simp [mantissaLength?, hdigits, hne, hpoint]
  have hexponent : exponentLength rest = 0 := by
    cases rest with
    | nil => rfl
    | cons c rest =>
      have hc {x : CodePoint} (hx : x.isNamePart) : c ≠ x := by
        rintro rfl
        rw [(hrest c rfl).2.1] at hx
        cases hx
      simp [exponentLength, hc (x := 'e') (by decide), hc (x := 'E') (by decide)]
  rw [numberLength?, hhex]
  simp [hmantissa, hexponent]

theorem next?_ofNat (n : Nat) (hrest : EndsInteger rest) :
    next? (Text.ofNat n ++ rest) = some (.token .number, (Text.ofNat n).length) := by
  have hne := Text.ofNat_ne_nil n
  have hdigits := Text.ofNat_isAsciiDigit n
  have hnumber := numberLength?_digits hdigits hne hrest
  obtain ⟨c, t, ht⟩ := List.exists_cons_of_ne_nil hne
  have htemplate : templateLength? (Text.ofNat n ++ rest) = none := by
    have hc : c ≠ '\x60' :=
      CodePoint.ne_of_isAsciiDigit (hdigits c (by simp [ht])) (by decide)
    rw [ht, List.cons_append, templateLength?, if_neg hc]
  rw [next?, htemplate, hnumber]
  rfl

end Lexeme

end InlineTemplates
