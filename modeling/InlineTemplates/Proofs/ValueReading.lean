import InlineTemplates.Proofs.ClauseItems
import InlineTemplates.Proofs.Constructions

/-!
# Values are read as they stand

A value that starts with a literal, a bracket, a brace, a parenthesis or `function` needs nothing
around it to be an expression or an element: no operator stands in front of it, and no arrow
function starts there. On the way from the text the lines of a value are cut at their line breaks,
each with the blanks behind it.
-/

namespace InlineTemplates

open Lexeme (Spells)

/-! ## Lines -/

namespace Lexeme

theorem next?_line {t : Text} (level : Nat) (ht : t.StartsVisibly) :
    next? (Text.ofString "\n" ++ Print.indentation level ++ t) =
      some (.token .newline, (Text.ofString "\n" ++ Print.indentation level).length) := by
  obtain ⟨c, rest, rfl, hc⟩ := ht
  have hne {d : CodePoint} (hd : d.val ≤ 0x20) : c ≠ d := by
    rintro rfl
    omega
  have hblanks : (Print.indentation level ++ c :: rest).takeWhile (fun (c : CodePoint) =>
      c = '\n' || c = '\t' || c = ' ' || c = '\r') = Print.indentation level := by
    have hstop : (c = CodePoint.scalar '\n' || c = CodePoint.scalar '\t' ||
        c = CodePoint.scalar ' ' || c = CodePoint.scalar '\r') = false := by
      simp [hne (d := ' ') (by decide), hne (d := '\t') (by decide), hne (d := '\n') (by decide),
        hne (d := '\r') (by decide)]
    have hgo (d : CodePoint) (hd : d ∈ Print.indentation level) :
        (d = CodePoint.scalar '\n' || d = CodePoint.scalar '\t' ||
          d = CodePoint.scalar ' ' || d = CodePoint.scalar '\r') = true := by
      rw [Print.indentation, Text.filled, List.mem_replicate] at hd
      rw [hd.2]
      rfl
    rw [List.takeWhile_append_of_pos hgo, List.takeWhile_cons_of_neg (by rw [hstop]; decide),
      List.append_nil]
  let t := CodePoint.scalar '\n' :: (Print.indentation level ++ c :: rest)
  have hlength : newlineLength? t = some (1 + (Print.indentation level).length) := by
    simp only [t, newlineLength?, hblanks]
  have hfirst : next? t = ((newlineLength? t).map (Class.token .newline, ·)
      <|> (lineCommentLength? t).map (Class.comment, ·)
      <|> (blankLength? t).map (Class.blank, ·)
      <|> (optionalChainLength? t).map (Class.token .optionalChain, ·)
      <|> (sign? t).map (fun s => (Class.token s.1, s.2))) := rfl
  refine hfirst.trans ?_
  rw [hlength, List.length_append]
  rfl

end Lexeme

/-- The line break in front of a line that is indented by `level`. -/
def Word.line (level : Nat) : Word := ⟨.newline, Text.ofString "\n" ++ Print.indentation level⟩

namespace Lexeme.Spells

variable {t : Text} {ws : List Word}

theorem line (level : Nat) (ht : t.StartsVisibly) (h : Spells t ws) :
    Spells (Text.ofString "\n" ++ Print.indentation level ++ t) (Word.line level :: ws) :=
  .word (w := .line level) (List.cons_ne_nil _ _) (Lexeme.next?_line level ht) h

theorem spaced (ht : t.StartsVisibly) (h : Spells t ws) :
    Spells (CodePoint.scalar ' ' :: t) ws := by
  obtain ⟨c, rest, rfl, hc⟩ := ht
  exact .blank (Lexeme.next?_blank hc rest) h

theorem sign {p : String × Token.Kind} (hp : p ∈ Lexeme.freeSigns ∨ p ∈ CutInto.signs)
    (h : Spells t ws) : Spells (Text.ofString p.1 ++ t) (⟨p.2, p.1⟩ :: ws) := by
  have hall : ∀ p ∈ Lexeme.freeSigns ++ CutInto.signs, Text.ofString p.1 ≠ [] ∧
      (Text.ofString p.1).length = p.1.length := by decide
  obtain ⟨hne, hlength⟩ := hall p (List.mem_append.2 hp)
  refine .word (w := ⟨p.2, p.1⟩) hne ?_ h
  rw [hlength]
  exact hp.elim (Lexeme.next?_freeSign t p) (CutInto.next?_sign t p)

theorem name {x : Text} {k : Token.Kind} (hx : Identifier.hasForm x) (hk : Lexeme.nameKind x = k)
    (ht : Lexeme.EndsName t) (h : Spells t ws) : Spells (x ++ t) (⟨k, x⟩ :: ws) :=
  .word (w := ⟨k, x⟩) (Spelt.ne_nil_of_hasForm hx) (by rw [Lexeme.next?_name hx ht, hk]) h

theorem string (x : Text) (h : Spells t ws) :
    Spells (x.stringLiteral ++ t) (⟨.string, x.stringLiteral⟩ :: ws) :=
  .word (w := ⟨.string, x.stringLiteral⟩) (by simp [Text.stringLiteral_eq])
    (Lexeme.next?_stringLiteral x t) h

end Lexeme.Spells

/-! ## Roles -/

namespace Token.Place

variable {p : Place} {w : Word} {k : Kind} {t : Token} {rest : List Token}
  {ahead : List Word → Prop}

/-- The role of a token of kind `k` that is no name and no parenthesis of an arrow function, in
front of a token of kind `next`. -/
def fixedRole (p : Place) (k : Kind) (next : Option Kind) : Kind :=
  if k = .leftBrace then p.braceRole else if k.isReserved then p.reservedRole k next else k

theorem role_eq_fixedRole (hname : t.kind ≠ .name)
    (hparen : t.kind = .leftParen → closesIntoArrow 0 rest = false) :
    p.role t rest = p.fixedRole t.kind ((significant rest).head?.map Token.kind) := by
  have hnone : ¬(t.kind = .leftParen ∧ closesIntoArrow 0 rest) := by
    rintro ⟨hk, harrow⟩
    rw [hparen hk] at harrow
    cases harrow
  rw [role, fixedRole, if_neg hnone, if_neg hname]

def NoArrow (ws : List Word) : Prop := ∀ w ∈ ws, w.kind ≠ .arrow

theorem lays_fixed {ls : List Word} (hls : ∀ l ∈ ls, l.kind = .newline) (hloops : p.loops = [])
    (hw : w.kind ∉ [.newline, .semicolon, .name])
    (hends : p.endsBefore w.kind (!ls.isEmpty) = false) (hopen : p.closedBy k ≠ some .loopTail)
    (hrole : ∀ next, p.fixedRole w.kind next = k)
    (hahead : w.kind = .leftParen → ∀ ws, ahead ws → NoArrow ws) :
    Lays p (ls ++ [w]) [⟨k, w.text⟩] (p.after k) ahead := by
  simp only [List.mem_cons, List.not_mem_nil, or_false, not_or] at hw
  refine lays_step ls hls hloops hw.1 hw.2.1 hends hopen ?_
  rintro t rest rfl hrest
  rw [role_eq_fixedRole hw.2.2 fun hparen => closesIntoArrow_eq ?_ 0]
  · exact hrole _
  · simpa [NoArrow] using hahead hparen _ hrest

/-- What lays out the words of an expression that stands alone gives its tokens their roles. -/
theorem placeExpression_of_lays {q : Place} {ws roles : List Word} {ts : List Token}
    (h : Lays .ofExpression ws roles q ahead) (hahead : ahead []) (hts : ts.map Token.word = ws) :
    (placeExpression ts).map Token.word = roles := by
  obtain ⟨us, last, heq, hus⟩ := h false none ts [] hts hahead
  have hend : placeFrom false q false last [] = [] := by cases last <;> rfl
  rw [List.append_nil, hend, List.append_nil] at heq
  rw [placeExpression, heq, hus]

end Token.Place

/-! ## Values -/

/-- Whether a value can start with a token of this kind. A name can start an arrow function. -/
def Token.Kind.startsValue : Kind → Bool
  | string | number | trueWord | falseWord | nullWord | leftParen | leftBracket | leftBrace
  | functionWord => true
  | _ => false

namespace Grammar

open Parse

variable {r : Reader} {rules : Rules} {e : Node} {t : Token} {ts : List Token}

theorem ofKind?_of_startsValue {k : Token.Kind} (h : k.startsValue) :
    UnaryOp.ofKind? k = none ∧ UpdateOp.ofKind? k = none := by
  revert h
  cases k <;> decide

theorem startsArrow_of_startsValue (ht : t.kind.startsValue) (ts : List Token) :
    startsArrow (t :: ts) = .ok (false, t :: ts) := by
  rw [startsArrow, run_peekKind?, run_peekSecond?, List.head?_cons, Option.map_some]
  generalize (List.drop 1 (t :: ts)).head?.map Token.kind = second
  revert ht
  generalize t.kind = k
  cases k <;> first | exact fun _ => rfl | exact fun h => absurd h Bool.false_ne_true

theorem isRead_expression (ht : t.kind.startsValue)
    (h : (Phrase.postfixed e).IsRead r rules (t :: ts)) :
    (Phrase.assign e).IsRead r rules (t :: ts) := by
  have hplain := isRead_plain (ofKind?_of_startsValue ht) (postfixed_eq h)
  exact isRead_operators (fun rest _ => startsArrow_of_startsValue ht _)
    (isRead_loosened hplain (Nat.le_refl 10) (by decide))

structure ReadsValue (e : Node) (ts : List Token) : Prop where
  starts : ∃ t us, ts = t :: us ∧ t.kind.startsValue
  read (r : Reader) (depth : Nat) (hdepth : ts.length ≤ depth) :
    (Phrase.primary e).IsRead r (rulesTo r depth) ts

namespace ReadsValue

theorem postfixed (h : ReadsValue e ts) (r : Reader) (depth : Nat) (hdepth : ts.length ≤ depth) :
    (Phrase.postfixed e).IsRead r (rulesTo r depth) ts := by
  obtain ⟨t, us, rfl, ht⟩ := h.starts
  refine isRead_base (fun hk => ?_) (h.read r depth hdepth)
  rw [hk] at ht
  cases ht

theorem expression (h : ReadsValue e ts) : ReadsExpression e ts := by
  intro r depth hdepth
  have hpostfixed := h.postfixed r depth hdepth
  obtain ⟨t, us, rfl, ht⟩ := h.starts
  exact isRead_expression ht hpostfixed

theorem element (h : ReadsValue e ts) (r : Reader) (depth : Nat) (hdepth : ts.length ≤ depth) :
    (Phrase.element e).IsRead r (rulesTo r depth) ts := by
  have hassign := h.expression r depth hdepth
  obtain ⟨t, us, rfl, ht⟩ := h.starts
  refine isRead_value (fun hk => ?_) hassign
  rw [hk] at ht
  cases ht

end ReadsValue

end Grammar

namespace Node

open Grammar

/-- A text that is cut into words is read as what the words make in their roles. -/
theorem readExpression_of_lays {t : Text} {ws roles : List Word} {q : Token.Place}
    {ahead : List Word → Prop} {P : Node → Prop} (hspells : Spells t ws)
    (hlays : Token.Place.Lays .ofExpression ws roles q ahead) (hahead : ahead [])
    (hmakes : ∀ ts : List Token, ts.map Token.word = roles → ∃ n, P n ∧ ReadsExpression n ts)
    (file : Option Text) : ∃ n, readExpression t file = .ok n ∧ P n := by
  obtain ⟨tokens, hscan, htokens⟩ := Scan.scan_spelt hspells
  have hroles := Token.Place.placeExpression_of_lays hlays hahead htokens
  obtain ⟨n, hn, hread⟩ := hmakes _ hroles
  refine ⟨n, readExpression_eq file hscan fun r => ?_, hn⟩
  have hassign := hread r _ (Nat.le_refl _) [] (by simp [EndsBelow])
  rwa [List.append_nil] at hassign

end Node

end InlineTemplates
