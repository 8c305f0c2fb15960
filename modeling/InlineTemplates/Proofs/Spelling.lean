import InlineTemplates.Operator
import InlineTemplates.Proofs.PlacedWords

/-!
# Spelling words

A text spells words if it is cut into them wherever no name goes on behind it. Texts that spell
words are put together here: names, literals, signs in front of what keeps them apart, and
operators between blanks.
-/

namespace InlineTemplates

open Token (Kind)
open Lexeme (EndsName Spells)

namespace Word

def dot : Word := ⟨.dot, "."⟩

def optionalChain : Word := ⟨.optionalChain, "?."⟩

end Word

/-- An identifier that is not a reserved word. -/
structure Text.IsIdentifier (x : Text) : Prop where
  form : Identifier.hasForm x
  free : Lexeme.nameKind x = .name

/-- What can stand behind a point: an identifier, reserved or not, or a private name. -/
inductive Text.IsProperty : Text → Prop
  | name {x : Text} (hx : Identifier.hasForm x) : IsProperty x
  | privateName {x : Text} (hx : Identifier.hasForm x) : IsProperty (CodePoint.scalar '#' :: x)

/-- The text spells the words wherever no name goes on behind it. -/
structure Spelt (t : Text) (ws : List Word) : Prop where
  spells : ∀ {rest : Text} {wr : List Word}, EndsName rest → Spells rest wr →
    Spells (t ++ rest) (ws.map Word.raw ++ wr)
  settled : Word.Settled ws

def Text.StartsVisibly (t : Text) : Prop := ∃ c rest, t = c :: rest ∧ 0x20 < c.val

/-- A text that spells words and can stand behind an operator. -/
structure Writes (t : Text) (ws : List Word) : Prop extends Spelt t ws where
  visibly : t.StartsVisibly
  notEqual : t.head? ≠ some (CodePoint.scalar '=')

/-- A word that stands for itself in front of a blank. -/
structure Word.StandsApart (w : Word) : Prop where
  plain : w.kind.isPlain
  raw_eq : w.raw = w
  visibly : w.text.StartsVisibly
  next : ∀ rest, Lexeme.next? (w.text ++ CodePoint.scalar ' ' :: rest) =
    some (.token w.kind, w.text.length)

namespace Spelt

variable {t u : Text} {ws vs : List Word}

theorem nil : Spelt [] [] := ⟨fun _ h => h, .nil⟩

theorem append (h : Spelt t ws) (h' : Spelt u vs)
    (hu : ∀ rest, EndsName rest → EndsName (u ++ rest)) : Spelt (t ++ u) (ws ++ vs) := by
  refine ⟨fun {rest wr} hrest hspells => ?_, h.settled.append h'.settled⟩
  rw [List.append_assoc, List.map_append, List.append_assoc]
  exact h.spells (hu rest hrest) (h'.spells hrest hspells)

/-- What starts with a sign ends a name in front of it. -/
theorem append_cons {c : CodePoint} (h : Spelt t ws) (h' : Spelt (c :: u) vs)
    (hc : c.isNamePart = false) : Spelt (t ++ c :: u) (ws ++ vs) :=
  h.append h' fun rest _ => (Lexeme.endsName_cons c (u ++ rest)).2 hc

theorem word {w : Word} (hplain : w.kind.isPlain) (hraw : w.raw = w) (hne : w.text ≠ [])
    (hnext : ∀ rest, EndsName rest →
      Lexeme.next? (w.text ++ (t ++ rest)) = some (.token w.kind, w.text.length))
    (h : Spelt t ws) : Spelt (w.text ++ t) (w :: ws) := by
  refine ⟨fun {rest wr} hrest hspells => ?_, .plain hplain hraw h.settled⟩
  rw [List.append_assoc, List.map_cons, hraw, List.cons_append]
  exact .word hne (hnext rest hrest) (h.spells hrest hspells)

theorem alone {w : Word} (hplain : w.kind.isPlain) (hraw : w.raw = w) (hne : w.text ≠ [])
    (hnext : ∀ rest, EndsName rest →
      Lexeme.next? (w.text ++ rest) = some (.token w.kind, w.text.length)) :
    Spelt w.text [w] := by
  simpa using word hplain hraw hne hnext nil

theorem ne_nil_of_hasForm {x : Text} (hx : Identifier.hasForm x) : x ≠ [] := by
  rintro rfl
  cases hx

theorem name {x : Text} (hx : x.IsIdentifier) : Spelt x [⟨.name, x⟩] := by
  refine alone (w := ⟨.name, x⟩) rfl ?_ (ne_nil_of_hasForm hx.form) fun rest hrest => ?_
  · simp [Word.raw, hx.free]
  · rw [Lexeme.next?_name hx.form hrest, hx.free]

theorem reserved {x : Text} {k : Kind} (hx : Identifier.hasForm x) (hk : Lexeme.nameKind x = k)
    (hplain : k.isPlain) (hname : k ≠ .name) : Spelt x [⟨k, x⟩] := by
  refine alone (w := ⟨k, x⟩) hplain (Word.raw_of_ne_name hname) (ne_nil_of_hasForm hx)
    fun rest hrest => ?_
  rw [Lexeme.next?_name hx hrest, hk]

theorem string (t : Text) : Spelt t.stringLiteral [⟨.string, t.stringLiteral⟩] :=
  alone (w := ⟨.string, t.stringLiteral⟩) rfl rfl (by simp [Text.stringLiteral_eq])
    fun rest _ => Lexeme.next?_stringLiteral t rest

theorem sign {p : String × Kind} (hp : p ∈ Lexeme.freeSigns) (h : Spelt t ws) :
    Spelt (Text.ofString p.1 ++ t) (⟨p.2, p.1⟩ :: ws) := by
  have hall : ∀ p ∈ Lexeme.freeSigns, Text.ofString p.1 ≠ [] ∧ p.2.isPlain ∧ p.2 ≠ .name ∧
      (Text.ofString p.1).length = p.1.length := by decide
  obtain ⟨hne, hplain, hname, hlength⟩ := hall p hp
  refine word (w := ⟨p.2, p.1⟩) hplain (Word.raw_of_ne_name hname) hne (fun rest _ => ?_) h
  rw [Lexeme.next?_freeSign _ p hp, hlength]

theorem append_sign {p : String × Kind} (h : Spelt t ws) (hp : p ∈ Lexeme.freeSigns) :
    Spelt (t ++ Text.ofString p.1) (ws ++ [⟨p.2, p.1⟩]) := by
  have hall : ∀ p ∈ Lexeme.freeSigns,
      (Text.ofString p.1).head?.any (fun c => c.isNamePart = false) = true := by decide
  have hsign : Spelt (Text.ofString p.1) [⟨p.2, p.1⟩] := by simpa using sign hp nil
  refine h.append hsign fun rest _ => ?_
  have hhead := hall p hp
  cases hp : Text.ofString p.1 with
  | nil => simp [hp] at hhead
  | cons c x => simpa [hp] using hhead

theorem next?_point {d : Word} (hd : d = .dot ∨ d = .optionalChain) {c : CodePoint}
    (hc : c.isDigit = false) (hdot : c ≠ '.') (rest : Text) :
    Lexeme.next? (d.text ++ c :: rest) = some (.token d.kind, d.text.length) := by
  rcases hd with rfl | rfl
  · exact Lexeme.next?_dot hc hdot rest
  · exact Lexeme.next?_optionalChain hc rest

theorem behindPoint {d w : Word} (hd : d = .dot ∨ d = .optionalChain)
    (hw : w.kind.followsPoint) {c : CodePoint} {x : Text} (htext : w.text = c :: x)
    (hc : c.isDigit = false) (hdot : c ≠ '.')
    (hnext : ∀ rest, EndsName rest →
      Lexeme.next? (w.text ++ (t ++ rest)) = some (.token w.raw.kind, w.text.length))
    (h : Spelt t ws) : Spelt (d.text ++ (w.text ++ t)) (d :: w :: ws) := by
  have hpoint : d.kind.isPoint ∧ d.raw = d ∧ d.text ≠ [] := by
    rcases hd with rfl | rfl <;> exact ⟨rfl, rfl, by decide⟩
  refine ⟨fun {rest wr} hrest hspells => ?_, .behindPoint hpoint.1 hw h.settled⟩
  have hw' : Spells (w.text ++ (t ++ rest)) (w.raw :: (ws.map Word.raw ++ wr)) := by
    rw [← Word.raw_text w]
    refine .word (by rw [Word.raw_text, htext]; simp) ?_ (h.spells hrest hspells)
    rw [Word.raw_text]
    exact hnext rest hrest
  simp only [List.append_assoc, List.map_cons, List.cons_append, hpoint.2.1]
  refine .word hpoint.2.2 ?_ hw'
  rw [htext]
  exact next?_point hd hc hdot _

theorem property {d : Word} (hd : d = .dot ∨ d = .optionalChain) {x : Text} (hx : x.IsProperty) :
    ∃ k, (k = .name ∨ k = .privateName) ∧ Spelt (d.text ++ x) [d, ⟨k, x⟩] := by
  cases hx with
  | name hx =>
    refine ⟨.name, .inl rfl, ?_⟩
    obtain ⟨c, y, rfl⟩ := List.exists_cons_of_ne_nil (ne_nil_of_hasForm hx)
    have hstart : c.isNameStart := (Bool.and_eq_true_iff.1 hx).1
    have hc := CodePoint.isDigit_of_isNameStart hstart
    have hdot : c ≠ '.' := by
      rintro rfl
      exact absurd hstart (by decide)
    simpa using behindPoint (w := ⟨.name, c :: y⟩) hd rfl rfl hc hdot
      (fun rest hrest => by simpa [Word.raw] using Lexeme.next?_name hx hrest) nil
  | @privateName y hy =>
    refine ⟨.privateName, .inr rfl, ?_⟩
    simpa using behindPoint (w := ⟨.privateName, CodePoint.scalar '#' :: y⟩) hd rfl rfl
      (by decide) (by decide)
      (fun rest hrest => by simpa [Word.raw] using Lexeme.next?_privateName hy hrest) nil

theorem optionalSign {p : String × Kind} (hp : p = ("[", .leftBracket) ∨ p = ("(", .leftParen))
    (h : Spelt t ws) :
    Spelt (Text.ofString "?." ++ (Text.ofString p.1 ++ t))
      (.optionalChain :: ⟨p.2, p.1⟩ :: ws) := by
  rcases hp with rfl | rfl
  · exact behindPoint (d := .optionalChain) (w := ⟨.leftBracket, "["⟩) (.inr rfl) rfl rfl
      (by decide) (by decide)
      (fun rest _ => Lexeme.next?_freeSign _ ("[", .leftBracket) (by decide)) h
  · exact behindPoint (d := .optionalChain) (w := ⟨.leftParen, "("⟩) (.inr rfl) rfl rfl
      (by decide) (by decide)
      (fun rest _ => Lexeme.next?_freeSign _ ("(", .leftParen) (by decide)) h

theorem blank (h : Spelt t ws) (ht : t.StartsVisibly) :
    Spelt (CodePoint.scalar ' ' :: t) ws := by
  obtain ⟨c, u, rfl, hc⟩ := ht
  refine ⟨fun {rest wr} hrest hspells => ?_, h.settled⟩
  exact .blank (Lexeme.next?_blank hc (u ++ rest)) (h.spells hrest hspells)

theorem apart {w : Word} (hw : w.StandsApart) (h : Spelt t ws) (ht : t.StartsVisibly) :
    Spelt (w.text ++ CodePoint.scalar ' ' :: t) (w :: ws) := by
  refine word hw.plain hw.raw_eq ?_ (fun rest _ => hw.next (t ++ rest)) (h.blank ht)
  obtain ⟨c, u, heq, -⟩ := hw.visibly
  rw [heq]
  exact List.cons_ne_nil c u

theorem between {w : Word} (hw : w.StandsApart) (h : Spelt t ws) (ht : t.StartsVisibly) :
    Spelt (CodePoint.scalar ' ' :: (w.text ++ CodePoint.scalar ' ' :: t)) (w :: ws) := by
  obtain ⟨c, u, heq, hc⟩ := hw.visibly
  exact (apart hw h ht).blank ⟨c, u ++ CodePoint.scalar ' ' :: t, by rw [heq]; rfl, hc⟩

end Spelt

namespace Writes

variable {t u : Text} {ws vs : List Word}

theorem of_cons {c : CodePoint} (h : Spelt (c :: t) ws) (hc : 0x20 < c.val)
    (hne : c ≠ CodePoint.scalar '=') : Writes (c :: t) ws :=
  ⟨h, ⟨c, t, rfl, hc⟩, by simpa using hne⟩

theorem append (h : Writes t ws) (h' : Spelt (t ++ u) vs) : Writes (t ++ u) vs := by
  obtain ⟨c, x, rfl, hc⟩ := h.visibly
  exact of_cons h' hc (by simpa using h.notEqual)

theorem of_hasForm {x : Text} (hx : Identifier.hasForm x) (h : Spelt x ws) : Writes x ws := by
  obtain ⟨c, y, rfl⟩ := List.exists_cons_of_ne_nil (Spelt.ne_nil_of_hasForm hx)
  have hstart : c.isNameStart := (Bool.and_eq_true_iff.1 hx).1
  refine of_cons h ?_ ?_
  · have := CodePoint.isNameStart_iff.1 hstart
    omega
  · rintro rfl
    exact absurd hstart (by decide)

theorem name {x : Text} (hx : x.IsIdentifier) : Writes x [⟨.name, x⟩] :=
  of_hasForm hx.form (.name hx)

theorem reserved {x : Text} {k : Kind} (hx : Identifier.hasForm x) (hk : Lexeme.nameKind x = k)
    (hplain : k.isPlain) (hname : k ≠ .name) : Writes x [⟨k, x⟩] :=
  of_hasForm hx (.reserved hx hk hplain hname)

theorem string (t : Text) : Writes t.stringLiteral [⟨.string, t.stringLiteral⟩] :=
  of_cons (Spelt.string t) (by decide) (by decide)

theorem sign {p : String × Kind} (hp : p ∈ Lexeme.freeSigns) (h : Spelt t ws) :
    Writes (Text.ofString p.1 ++ t) (⟨p.2, p.1⟩ :: ws) := by
  have hall : ∀ p ∈ Lexeme.freeSigns, (Text.ofString p.1).head?.any
      (fun c => 0x20 < c.val ∧ c ≠ CodePoint.scalar '=') = true := by decide
  have hspelt := Spelt.sign hp h
  have hhead := hall p hp
  cases hsign : Text.ofString p.1 with
  | nil => simp [hsign] at hhead
  | cons c u =>
    rw [hsign] at hspelt
    have hc : 0x20 < c.val ∧ c ≠ CodePoint.scalar '=' := by simpa [hsign] using hhead
    exact of_cons hspelt hc.1 hc.2

theorem enclosed {o c : String × Kind} (h : Spelt t ws) (ho : o ∈ Lexeme.freeSigns)
    (hc : c ∈ Lexeme.freeSigns) :
    Writes (Text.ofString o.1 ++ t ++ Text.ofString c.1) (⟨o.2, o.1⟩ :: ws ++ [⟨c.2, c.1⟩]) := by
  rw [List.append_assoc]
  exact sign ho (h.append_sign hc)

theorem between {w : Word} (h : Writes t ws) (hw : w.StandsApart) (h' : Writes u vs) :
    Writes (t ++ CodePoint.scalar ' ' :: (w.text ++ CodePoint.scalar ' ' :: u)) (ws ++ w :: vs) :=
  h.append (h.toSpelt.append_cons (.between hw h'.toSpelt h'.visibly) (by decide))

end Writes

end InlineTemplates
