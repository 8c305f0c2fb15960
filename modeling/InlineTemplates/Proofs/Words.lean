import InlineTemplates.Proofs.LexemeEnds
import InlineTemplates.Proofs.StringLiterals
import InlineTemplates.Token.Scan

/-!
# The words of a text

A text is cut into words from left to right, and where a word ends depends on what stands behind it.
So a text is related to its words from its end on: a word in front of a text that has been cut.
-/

namespace InlineTemplates

/-- A token apart from its place. -/
structure Word where
  kind : Token.Kind
  text : Text
deriving DecidableEq

def Token.word (t : Token) : Word := ⟨t.kind, t.text⟩

/-! ## Texts in words -/

namespace Lexeme

/-- The text is cut into the words. Single blanks may stand between them. -/
inductive Spells : Text → List Word → Prop
  | nil : Spells [] []
  | blank {t : Text} {ws : List Word}
    (h : next? (CodePoint.scalar ' ' :: t) = some (.blank, 1)) (ht : Spells t ws) :
      Spells (CodePoint.scalar ' ' :: t) ws
  | word {w : Word} {t : Text} {ws : List Word} (hne : w.text ≠ [])
    (h : next? (w.text ++ t) = some (.token w.kind, w.text.length)) (ht : Spells t ws) :
      Spells (w.text ++ t) (w :: ws)

end Lexeme

namespace Scan

open Lexeme

theorem scanFrom_append {u t : Text} {cls : Lexeme.Class} (hne : u ≠ [])
    (h : next? (u ++ t) = some (cls, u.length)) (fuel : Nat) (loc : Location) :
    scanFrom (fuel + 1) loc (u ++ t) =
      (scanFrom fuel (loc.advance u) t).map (add cls u loc (loc.advance u)) := by
  have htake : (u ++ t).take u.length = u := List.take_left
  have hdrop : (u ++ t).drop u.length = t := List.drop_left
  cases u with
  | nil => exact absurd rfl hne
  | cons c rest =>
    rw [List.cons_append] at h htake hdrop ⊢
    simp only [scanFrom, h, htake, hdrop]

theorem scanFrom_spelt {t : Text} {ws : List Word} (h : Spells t ws) {fuel : Nat}
    (hfuel : t.length ≤ fuel) (loc : Location) :
    ∃ tokens, scanFrom fuel loc t = .ok ⟨tokens, []⟩ ∧ tokens.map Token.word = ws := by
  induction h generalizing fuel loc with
  | nil => exact ⟨[], by rw [scanFrom], rfl⟩
  | @blank t ws hnext _ ih =>
    obtain ⟨fuel, rfl⟩ : ∃ n, fuel = n + 1 := Nat.exists_eq_add_one_of_ne_zero (by
      rw [List.length_cons] at hfuel
      omega)
    obtain ⟨tokens, hscan, hwords⟩ := ih (Nat.le_of_succ_le_succ hfuel) _
    refine ⟨tokens, ?_, hwords⟩
    have hfirst := scanFrom_append (List.cons_ne_nil (CodePoint.scalar ' ') []) hnext fuel loc
    refine hfirst.trans ?_
    rw [hscan]
    rfl
  | @word w t ws hne hnext _ ih =>
    have hpositive := List.length_pos_iff.2 hne
    rw [List.length_append] at hfuel
    obtain ⟨fuel, rfl⟩ : ∃ n, fuel = n + 1 := Nat.exists_eq_add_one_of_ne_zero (by omega)
    obtain ⟨tokens, hscan, hwords⟩ := @ih fuel (by omega) (loc.advance w.text)
    refine ⟨⟨w.kind, w.text, loc, loc.advance w.text⟩ :: tokens, ?_, by rw [← hwords]; rfl⟩
    rw [scanFrom_append hne hnext, hscan]
    rfl

theorem scan_spelt {t : Text} {ws : List Word} (h : Spells t ws) :
    ∃ tokens, scan t = .ok ⟨tokens, []⟩ ∧ tokens.map Token.word = ws :=
  scanFrom_spelt h (Nat.le_refl _) .start

end Scan

/-! ## Lexemes -/

namespace CodePoint

theorem isDigit_eq_false {c : CodePoint}
    (h : c.val < 0x30 ∨ 0x3A ≤ c.val ∧ c.val < 0x660) : c.isDigit = false := by
  have hzeros : ∀ z ∈ zeroDigits, z = 0x30 ∨ 0x660 ≤ z := by decide
  have hnone : zeroDigits.find? (fun z => z ≤ c.val && c.val < z + 10) = none := by
    rw [List.find?_eq_none]
    intro z hz
    have := hzeros z hz
    simp only [Bool.and_eq_true, decide_eq_true_eq]
    omega
  simp [isDigit, digitValue?, hnone]

theorem isNameStart_iff {c : CodePoint} : c.isNameStart ↔
    97 ≤ c.val ∧ c.val ≤ 122 ∨ 65 ≤ c.val ∧ c.val ≤ 90 ∨ c.val = 95 ∨ c.val = 36 := by
  have hval (d : CodePoint) : c = d ↔ c.val = d.val := ⟨congrArg val, val_injective⟩
  have hunderscore : (CodePoint.scalar '_').val = 95 := rfl
  have hdollar : (CodePoint.scalar '$').val = 36 := rfl
  simp only [isNameStart, isAsciiLetter, isAsciiLower, isAsciiUpper, Bool.or_eq_true,
    Bool.and_eq_true, decide_eq_true_eq, beq_iff_eq, hval, hunderscore, hdollar, or_assoc]

theorem isDigit_of_isNameStart {c : CodePoint} (h : c.isNameStart) : c.isDigit = false := by
  have := isNameStart_iff.1 h
  exact isDigit_eq_false (by omega)

end CodePoint

namespace Lexeme

theorem takeWhile_name {x rest : Text} (hx : x.all CodePoint.isNamePart) (hrest : EndsName rest) :
    (x ++ rest).takeWhile CodePoint.isNamePart = x := by
  rw [List.takeWhile_append_of_pos (List.all_eq_true.1 hx)]
  cases rest with
  | nil => simp
  | cons c rest => simp [(endsName_cons c rest).1 hrest]

theorem nameLength?_append {x rest : Text} (hx : Identifier.hasForm x) (hrest : EndsName rest) :
    nameLength? (x ++ rest) = some x.length := by
  cases x with
  | nil => cases hx
  | cons c x =>
    obtain ⟨hc, hx⟩ := Bool.and_eq_true_iff.1 hx
    simp [nameLength?, hc, takeWhile_name hx hrest, Nat.add_comm]

/-- A name stands where no name goes on behind it. -/
theorem next?_name {x rest : Text} (hx : Identifier.hasForm x) (hrest : EndsName rest) :
    next? (x ++ rest) = some (.token (nameKind x), x.length) := by
  have hlength := nameLength?_append hx hrest
  have htake : (x ++ rest).take x.length = x := List.take_left
  cases x with
  | nil => cases hx
  | cons c x =>
    obtain ⟨hc, -⟩ := Bool.and_eq_true_iff.1 hx
    rw [List.cons_append] at hlength htake ⊢
    have hdigit := CodePoint.isDigit_of_isNameStart hc
    have hne {d : CodePoint} (hd : d.isNameStart = false) : c ≠ d := by
      rintro rfl
      rw [hc] at hd
      cases hd
    have htemplate : templateLength? (c :: (x ++ rest)) = none := by
      simp [templateLength?, hne (d := '\x60') (by decide)]
    have hhex : hexLength? (c :: (x ++ rest)) = none := by
      simp [hexLength?, hne (d := '0') (by decide)]
    have hnumber : numberLength? (c :: (x ++ rest)) = none := by
      simp [numberLength?, hhex, mantissaLength?, hdigit, hne (d := '.') (by decide)]
    have hstring : stringLength? (c :: (x ++ rest)) = none := by
      simp [stringLength?, hne (d := '"') (by decide), hne (d := '\'') (by decide)]
    have hprivate : privateNameLength? (c :: (x ++ rest)) = none := by
      simp [privateNameLength?, hne (d := '#') (by decide)]
    simp only [next?, htemplate, hnumber, hstring, hprivate, hlength, htake, Option.map_none,
      Option.map_some, Option.orElse_eq_orElse, Option.orElse_none, Option.orElse_some]

theorem next?_privateName {x rest : Text} (hx : Identifier.hasForm x) (hrest : EndsName rest) :
    next? (CodePoint.scalar '#' :: x ++ rest) = some (.token .privateName, x.length + 1) := by
  have hprivate :
      privateNameLength? (CodePoint.scalar '#' :: (x ++ rest)) = some (x.length + 1) := by
    simp only [privateNameLength?, if_true, nameLength?_append hx hrest, Option.map_some,
      Nat.add_comm]
  have htemplate : templateLength? (CodePoint.scalar '#' :: (x ++ rest)) = none := rfl
  have hnumber : numberLength? (CodePoint.scalar '#' :: (x ++ rest)) = none := rfl
  have hstring : stringLength? (CodePoint.scalar '#' :: (x ++ rest)) = none := rfl
  simp only [List.cons_append, next?, htemplate, hnumber, hstring, hprivate, Option.map_none,
    Option.map_some, Option.orElse_eq_orElse, Option.orElse_none, Option.orElse_some]

/-! ### Signs -/

open Token (Kind)

theorem next?_blank {c : CodePoint} (hc : 0x20 < c.val) (rest : Text) :
    next? (CodePoint.scalar ' ' :: c :: rest) = some (.blank, 1) := by
  have hne {d : CodePoint} (hd : d.val ≤ 0x20) : c ≠ d := by
    rintro rfl
    omega
  have hlength : blankLength? (CodePoint.scalar ' ' :: c :: rest) = some 1 := by
    simp [blankLength?, hne (d := ' ') (by decide), hne (d := '\t') (by decide),
      hne (d := '\x0c') (by decide), hne (d := '\r') (by decide)]
  have hfirst : next? (CodePoint.scalar ' ' :: c :: rest) =
      ((blankLength? (CodePoint.scalar ' ' :: c :: rest)).map (Class.blank, ·) <|>
        (optionalChainLength? (CodePoint.scalar ' ' :: c :: rest)).map
          (Class.token .optionalChain, ·) <|>
        (sign? (CodePoint.scalar ' ' :: c :: rest)).map fun s => (Class.token s.1, s.2)) := rfl
  rw [hfirst, hlength]
  rfl

/-- The signs that no sign and no comment starts with. -/
def freeSigns : List (String × Kind) := [
  ("...", .ellipsis), ("++", .increment), ("--", .decrement), ("(", .leftParen),
  (")", .rightParen), ("[", .leftBracket), ("]", .rightBracket), (",", .comma), (":", .colon)]

theorem next?_freeSign (rest : Text) : ∀ p ∈ freeSigns,
    next? (Text.ofString p.1 ++ rest) = some (.token p.2, p.1.length) := by
  simp only [freeSigns, List.forall_mem_cons, List.not_mem_nil, false_implies, implies_true,
    and_true]
  repeat' apply And.intro
  all_goals rfl

theorem next?_optionalChain {c : CodePoint} (hc : c.isDigit = false) (rest : Text) :
    next? (CodePoint.scalar '?' :: CodePoint.scalar '.' :: c :: rest) =
      some (.token .optionalChain, 2) := by
  have hlength : optionalChainLength? (CodePoint.scalar '?' :: CodePoint.scalar '.' :: c :: rest) =
      some 2 := by
    simp [optionalChainLength?, hc]
  have hfirst : next? (CodePoint.scalar '?' :: CodePoint.scalar '.' :: c :: rest) =
      ((optionalChainLength? (CodePoint.scalar '?' :: CodePoint.scalar '.' :: c :: rest)).map
          (Class.token .optionalChain, ·) <|>
        (sign? (CodePoint.scalar '?' :: CodePoint.scalar '.' :: c :: rest)).map
          fun s => (Class.token s.1, s.2)) := rfl
  rw [hfirst, hlength]
  rfl

theorem sign?_short (p : String × Kind) (longer : Text) {d c : CodePoint}
    (hmem : p ∈ Kind.punctuation) (hp : Text.ofString p.1 = [d])
    (hall : ∀ q ∈ Kind.punctuation, q = p ∨ (Text.ofString q.1).head?.any (· ≠ d) ∨
      ∃ e ∈ longer, (Text.ofString q.1).take 2 = [d, e])
    (hc : c ∉ longer) (rest : Text) :
    sign? (d :: c :: rest) = some (p.2, 1) := by
  have hself : (Text.ofString p.1).isPrefixOf (d :: c :: rest) := by simp [hp]
  have honly : ∀ q ∈ Kind.punctuation, (Text.ofString q.1).isPrefixOf (d :: c :: rest) → q = p := by
    intro q hq hprefix
    obtain ⟨behind, hbehind⟩ := List.isPrefixOf_iff_prefix.1 hprefix
    rcases hall q hq with heq | hhead | ⟨e, he, htake⟩
    · exact heq
    · cases hs : Text.ofString q.1 with
      | nil => simp [hs] at hhead
      | cons e s =>
        rw [hs, List.cons_append] at hbehind
        simp [hs, (List.cons.inj hbehind).1] at hhead
    · rw [← List.take_append_drop 2 (Text.ofString q.1), htake] at hbehind
      simp only [List.cons_append, List.cons.injEq, true_and] at hbehind
      exact absurd (hbehind.1 ▸ he) hc
  have hlength : p.1.length = 1 := by
    have := congrArg List.length hp
    rwa [Text.ofString, List.length_map, String.length_toList] at this
  rw [sign?]
  cases hfind : Kind.punctuation.find? fun q => (Text.ofString q.1).isPrefixOf (d :: c :: rest) with
  | none => exact absurd hself (List.find?_eq_none.1 hfind p hmem)
  | some q =>
    have hprefix := List.find?_some hfind
    obtain rfl := honly q (List.mem_of_find?_eq_some hfind) hprefix
    rw [Option.map_some, hlength]

theorem next?_dot {c : CodePoint} (hc : c.isDigit = false) (hdot : c ≠ '.') (rest : Text) :
    next? (CodePoint.scalar '.' :: c :: rest) = some (.token .dot, 1) := by
  have hsign : sign? (CodePoint.scalar '.' :: c :: rest) = some (.dot, 1) :=
    sign?_short (".", .dot) ['.'] (by decide) rfl (by decide) (by simpa using hdot) rest
  have hnumber : numberLength? (CodePoint.scalar '.' :: c :: rest) = none := by
    have hhex : hexLength? (CodePoint.scalar '.' :: c :: rest) = none := rfl
    have hpoint : (CodePoint.scalar '.').isDigit = false := by decide
    simp [numberLength?, hhex, mantissaLength?, hc, hpoint]
  have hfirst : next? (CodePoint.scalar '.' :: c :: rest) =
      ((numberLength? (CodePoint.scalar '.' :: c :: rest)).map (Class.token .number, ·) <|>
        (sign? (CodePoint.scalar '.' :: c :: rest)).map fun s => (Class.token s.1, s.2)) := rfl
  rw [hfirst, hnumber, hsign]
  rfl

end Lexeme

end InlineTemplates
