import InlineTemplates.Proofs.StatementPlaces
import InlineTemplates.Proofs.StatementTrees

/-!
# Texts of statements

The texts that statements are put together from: words, parentheses, expressions, braces and line
breaks. Each is laid out from the places in which it is printed, whatever contexts are open around
the statement and whatever loops wait for their end.
-/

namespace InlineTemplates

open Token (Kind Place)
open Token.Place
open Lexeme (EndsName Spells)

/-! ## Where statements stand -/

namespace Token.Place

variable {p : Place} {k : Kind} {S : List Context} {L : List Nat} {spot : Spot}

/-- Statements can stand in the contexts, with no more loops around them than the spot says. -/
structure Fits (spot : Spot) (S : List Context) (L : List Nat) : Prop where
  block : S.head? = some .block
  loops : ∀ l ∈ L, l ≤ S.length
  free : spot = .free → ∀ l ∈ L, l < S.length

/-- A place in which a statement starts that begins with a word of kind `k`. -/
structure StatementStart (spot : Spot) (k : Kind) (S : List Context) (L : List Nat) (p : Place) :
    Prop extends Within S L [] p where
  last : p.last = none ∨ p.lastIn [.terminator, .blockBrace, .rightParen, .elseWord, .doWord] ∨
    p.lastIs .rightBrace ∧ k ≠ .leftBrace
  behindDo : spot = .behindDo → p.lastIs .doWord

structure ExpressionStart (S : List Context) (L : List Nat) (p : Place) : Prop
    extends Within S L [] p where
  last : p.lastIn [.dot, .optionalChain, .name] = false

namespace ExpressionStart

theorem lastIs_name (h : ExpressionStart S L p) : p.lastIs .name = false := by
  rw [lastIs_eq_lastIn]
  exact lastIn_eq_false_mono h.last (by decide)

theorem lastIn_point (h : ExpressionStart S L p) : p.lastIn [.dot, .optionalChain] = false :=
  lastIn_eq_false_mono h.last (by decide)

end ExpressionStart

namespace Fits

theorem holdsCode (h : Fits spot S L) : HoldsCode S := by
  obtain ⟨below, rfl⟩ := List.head?_eq_some_iff.1 h.block
  exact ⟨.block, below, rfl, nofun, nofun⟩

theorem ne_nil (h : Fits spot S L) : S ≠ [] := by
  rintro rfl
  cases h.block

theorem inner (h : Fits spot S L) : Fits spot.inner S L := by
  refine ⟨h.block, h.loops, fun hfree => h.free ?_⟩
  cases spot with
  | free => rfl
  | behindDo | inDo => cases hfree

theorem loop (h : Fits spot S L) : Fits .behindDo S (S.length :: L) :=
  ⟨h.block, List.forall_mem_cons.2 ⟨Nat.le_refl _, h.loops⟩, nofun⟩

theorem braces (h : ∀ l ∈ L, l ≤ S.length) : Fits .free (.block :: S) L := by
  have hlt : ∀ l ∈ L, l < (Context.block :: S).length := fun l hl => by
    have := h l hl
    rw [List.length_cons]
    omega
  exact ⟨rfl, fun l hl => Nat.le_of_lt (hlt l hl), fun _ => hlt⟩

theorem ofModule : Fits .free [.block] [] := ⟨rfl, by simp, by simp⟩

theorem closesLoop_eq (h : Fits .free S L) (hp : Among S L p) (k : Kind) :
    p.closesLoop k = false := by
  have hhead : p.loops.head? ≠ some p.stack.length := by
    intro hhead
    have hlt := h.free rfl _ (hp.loops.subset (List.mem_of_mem_head? hhead))
    rw [hp.stack] at hlt
    omega
  simp [closesLoop, hhead]

end Fits

namespace StatementStart

theorem lastIn_eq (h : StatementStart spot k S L p) :
    p.lastIn [.dot, .optionalChain, .name] = false ∧ p.lastIn [.dot, .optionalChain] = false := by
  have hlast : p.lastIn [.dot, .optionalChain, .name] = false := by
    rcases h.last with hnone | hin | ⟨his, -⟩
    · simp [lastIn, hnone]
    · exact lastIn_disjoint hin (by decide)
    · rw [lastIs_eq_lastIn] at his
      exact lastIn_disjoint his (by decide)
  exact ⟨hlast, lastIn_eq_false_mono hlast (by decide)⟩

theorem expressionStart (h : StatementStart spot k S L p) : ExpressionStart S L p :=
  ⟨h.toWithin, h.lastIn_eq.1⟩

theorem blockStart (h : StatementStart spot .leftBrace S L p) (hS : S.head? = some .block) :
    BlockStart S L p := by
  refine ⟨h.toAmong, ?_⟩
  have hcontext : p.context = .block := by
    obtain ⟨below, rfl⟩ := List.head?_eq_some_iff.1 hS
    rw [context, h.stack]
    rfl
  rcases h.last with hnone | hin | ⟨-, hne⟩
  · simp [startsStatement, hcontext, hnone]
  · obtain ⟨j, hj, hl⟩ := lastIn_iff.1 hin
    have hopens : ∀ i ∈ [Kind.terminator, .blockBrace, .rightParen, .elseWord, .doWord],
        i.opensBlock ∨ i = .terminator ∨ i = .blockBrace := by decide
    rcases hopens j hj with hopens | rfl | rfl
    · simp [hl, hopens]
    · simp [startsStatement, hcontext, lastIn, hl]
    · simp [startsStatement, hcontext, lastIn, hl]
  · exact absurd rfl hne

theorem closesLoop_eq (h : StatementStart spot k S L p) (hfits : Fits spot S L)
    (hspot : spot ≠ .inDo) (j : Kind) : p.closesLoop j = false := by
  cases spot with
  | free => exact hfits.closesLoop_eq h.toAmong j
  | behindDo => simp [closesLoop, h.behindDo rfl]
  | inDo => exact absurd rfl hspot

end StatementStart

theorem BehindStatement.statementStart {brace : Bool} (h : BehindStatement brace S L p) (k : Kind) :
    StatementStart .free k S L (BehindStatement.behindLine brace k p) := by
  have hends := h.ends
  unfold BehindStatement.behindLine
  split
  · exact ⟨h.toWithin.afterTerminator.toWithin, .inr (.inl rfl), nofun⟩
  · rename_i hbreaks
    refine ⟨h.toWithin, ?_, nofun⟩
    cases brace with
    | false => exact hends.2.imp_right fun hlast => .inl (lastIn_mono hlast (by decide))
    | true =>
      refine .inr (.inr ⟨by simp [lastIs, hends.2.1], ?_⟩)
      rintro rfl
      exact hbreaks rfl

end Token.Place

/-! ## Texts in places -/

/-- The text is laid out from each place of which `start` holds, if no arrow stands behind it. There
is none in it. -/
structure Stands (start : Place → Prop) (t : Text) (ws roles : List Word) (ends : Place → Prop) :
    Prop extends LaysOut start t ws roles ends NoArrow where
  noArrow : NoArrow ws

/-- A text that spells words of expressions. They close the brackets that they open. -/
structure SpeltTidy (t : Text) (ws : List Word) : Prop extends Spelt t ws where
  tidy : Kind.Tidy (ws.map Word.kind)

namespace Stands

variable {start start' mid ends ends' : Place → Prop} {t u : Text} {ws vs roles roles' : List Word}
  {S : List Token.Context} {L : List Nat} {w : Word} {k : Kind} {brace : Bool}

theorem append (h : Stands start t ws roles mid) (h' : Stands mid u vs roles' ends)
    (hu : ∀ rest, EndsName rest → EndsName (u ++ rest)) :
    Stands start (t ++ u) (ws ++ vs) (roles ++ roles') ends :=
  ⟨h.toLaysOut.append h'.toLaysOut hu fun _ hrest =>
    List.forall_mem_append.2 ⟨h'.noArrow, hrest⟩, List.forall_mem_append.2 ⟨h.noArrow, h'.noArrow⟩⟩

theorem spaced (h : Stands start t ws roles mid) (h' : Stands mid u vs roles' ends)
    (hu : u.StartsVisibly) :
    Stands start (t ++ CodePoint.scalar ' ' :: u) (ws ++ vs) (roles ++ roles') ends :=
  ⟨h.toLaysOut.spaced h'.toLaysOut hu fun _ hrest =>
    List.forall_mem_append.2 ⟨h'.noArrow, hrest⟩, List.forall_mem_append.2 ⟨h.noArrow, h'.noArrow⟩⟩

theorem weaken (h : Stands start t ws roles ends) (hstart : ∀ p, start' p → start p)
    (hends : ∀ p, ends p → ends' p) : Stands start' t ws roles ends' :=
  ⟨h.toLaysOut.weaken hstart hends fun _ h => h, h.noArrow⟩

/-! ### Words -/

theorem ofStatement {x : Text} (hx : Identifier.hasForm x) (hk : Lexeme.nameKind x = k)
    (hword : k.ofStatement) (hS : HoldsCode S) (hstart : ∀ p, start p → Within S L [] p ∧
      p.lastIn [.dot, .optionalChain] = false ∧ p.endsBefore k false = false ∧
        ends ((p.leftBy k).after k)) :
    Stands start x [⟨k, x⟩] [⟨k, x⟩] ends := by
  refine ⟨⟨hk ▸ CutInto.name hx, fun {p} hp => ?_⟩, ?_⟩
  · obtain ⟨hwithin, hlast, hend, hafter⟩ := hstart p hp
    exact ⟨_, hafter, lays_ofStatement (w := ⟨k, x⟩) hwithin hS hword hlast hend⟩
  · rw [NoArrow, List.forall_mem_singleton]
    rintro (rfl : k = .arrow)
    cases hword

theorem leftParen {c : Token.Context} (hS : HoldsCode S)
    (h : Stands (ExpressionStart (c :: S) L) t ws roles ends) :
    Stands (BeforeParen c S L) (Text.ofString "(" ++ t) (⟨.leftParen, "("⟩ :: ws)
      (⟨.leftParen, "("⟩ :: roles) ends := by
  refine ⟨⟨fun rest wr hrest hspells => ?_, fun {p} hp => ?_⟩,
    List.forall_mem_cons.2 ⟨nofun, h.noArrow⟩⟩
  · rw [List.append_assoc]
    exact (h.cut rest wr hrest hspells).sign (p := ("(", .leftParen)) (by decide)
  · obtain ⟨hwithin, hparen⟩ := hp.lays_leftParen hS
    obtain ⟨q, hq, hlays⟩ := h.lays ⟨hwithin, rfl⟩
    exact ⟨q, hq, hparen.trans hlays fun _ hrest => List.forall_mem_append.2 ⟨h.noArrow, hrest⟩⟩

theorem rightParen (hS : S ≠ []) : Stands (Within (.head :: S) L []) (Text.ofString ")")
    [⟨.rightParen, ")"⟩] [⟨.rightParen, ")"⟩]
      (fun p => Within S L [] p ∧ p.lastIs .rightParen) := by
  refine ⟨⟨fun _ _ _ h => h.sign (p := (")", .rightParen)) (by decide), fun hp => ?_⟩,
    by simp [NoArrow]⟩
  refine ⟨_, ⟨hp.after_rightParen hS, rfl⟩, lays_rightParen fun hclosed => ?_⟩
  rw [(hp.closes hS (.inl rfl)).2] at hclosed
  cases hclosed

theorem semicolon : Stands (Within S L []) (Text.ofString ";") [⟨.semicolon, ";"⟩]
    [⟨.terminator, ";"⟩] (BehindStatement false S L) :=
  ⟨⟨.sign (p := (";", .semicolon)) (by decide), fun hp => ⟨_, hp.afterTerminator,
    lays_semicolon _ _⟩⟩, by simp [NoArrow]⟩

theorem leftBrace : Stands (BlockStart S L) (Text.ofString "\x7b") [⟨.leftBrace, "\x7b"⟩]
    [⟨.blockBrace, "\x7b"⟩] (BehindStatement false (.block :: S) L) :=
  ⟨⟨.sign (p := ("\x7b", .leftBrace)) (by decide), fun hp => ⟨_, hp.lays_leftBrace⟩⟩,
    by simp [NoArrow]⟩

theorem rightBrace (hS : S ≠ []) :
    Stands (fun p => Within (.block :: S) L [] p ∧ p.canEnd = false) (Text.ofString "\x7d")
      [⟨.rightBrace, "\x7d"⟩] [⟨.rightBrace, "\x7d"⟩] (BehindStatement true S L) :=
  ⟨⟨.sign (p := ("\x7d", .rightBrace)) (by decide), fun hp => ⟨_, hp.1.lays_rightBrace hS hp.2⟩⟩,
    by simp [NoArrow]⟩

theorem line (level : Nat) (hS : S.head? = some .block) (h : Stands start t (w :: ws) roles ends)
    (ht : t.StartsVisibly) (hw : w.kind ≠ .newline ∧ w.kind ≠ .elseWord)
    (hstart : ∀ p, BehindStatement brace S L p → p.closesLoop w.kind = false ∧
      start (BehindStatement.behindLine brace w.kind p)) :
    Stands (BehindStatement brace S L) (Text.ofString "\n" ++ Print.indentation level ++ t)
      (.line level :: w :: ws) (BehindStatement.filler brace w ++ roles) ends := by
  refine ⟨⟨fun rest wr hrest hspells => ?_, fun {p} hp => ?_⟩, ?_⟩
  · rw [List.append_assoc]
    exact (h.cut rest wr hrest hspells).line level (ht.append rest)
  · obtain ⟨hcloses, hp'⟩ := hstart p hp
    obtain ⟨q, hq, hlays⟩ := h.lays hp'
    exact ⟨q, hq, hp.lays_line level hS hw hcloses hlays⟩
  · exact List.forall_mem_cons.2 ⟨nofun, h.noArrow⟩

end Stands

/-! ## Expressions -/

namespace SpeltTidy

variable {t u x : Text} {ws vs roles : List Word} {S : List Token.Context} {L : List Nat}
  {w : Word} {ends : Place → Prop}

theorem nil : SpeltTidy [] [] := ⟨.nil, .nil⟩

theorem name (hx : x.IsIdentifier) : SpeltTidy x [⟨.name, x⟩] := ⟨.name hx, .single rfl rfl⟩

theorem blank (h : SpeltTidy t ws) (ht : t.StartsVisibly) :
    SpeltTidy (CodePoint.scalar ' ' :: t) ws :=
  ⟨h.toSpelt.blank ht, h.tidy⟩

theorem set (hx : x.IsIdentifier) (h : SpeltTidy t ws) (ht : t.StartsVisibly) :
    SpeltTidy (x ++ (Text.ofString " = " ++ t)) (⟨.name, x⟩ :: ⟨.assign, "="⟩ :: ws) := by
  have hsign : Word.StandsApart ⟨.assign, "="⟩ := AssignOp.set.standsApart
  have hspelt := (Spelt.name hx).append_cons (.between hsign h.toSpelt ht) (by decide)
  exact ⟨hspelt, (name hx).tidy.between rfl h.tidy⟩

theorem comma (h : SpeltTidy t ws) (h' : SpeltTidy u vs) (hu : u.StartsVisibly) :
    SpeltTidy (t ++ (Text.ofString "," ++ CodePoint.scalar ' ' :: u))
      (ws ++ ⟨.comma, ","⟩ :: vs) := by
  have hspelt : Spelt (Text.ofString "," ++ CodePoint.scalar ' ' :: u) (⟨.comma, ","⟩ :: vs) :=
    .sign (p := (",", .comma)) (by decide) (h'.toSpelt.blank hu)
  refine ⟨h.toSpelt.append_cons hspelt (by decide), ?_⟩
  rw [List.map_append]
  exact h.tidy.between rfl h'.tidy

/-- The words of an expression, in front of a word that is read behind it. -/
theorem stands (h : SpeltTidy t ws) (hS : HoldsCode S)
    (h' : Stands (Within S L []) u (w :: vs) roles ends)
    (hw : w.kind ≠ .newline ∧ w.kind ≠ .functionWord)
    (hu : ∀ rest, EndsName rest → EndsName (u ++ rest)) :
    Stands (ExpressionStart S L) (t ++ u) (ws.map Word.raw ++ w :: vs) (ws ++ roles) ends := by
  have hlays : LaysOut (ExpressionStart S L) t (ws.map Word.raw) ws (Within S L [])
      EndsExpression := by
    refine ⟨fun _ _ => h.spells, fun {p} hp => ?_⟩
    exact lays_settled h.settled hS hp.toWithin (h.tidy.balanced 0) h.tidy.apart
      (by simp [hp.lastIs_name]) hp.lastIn_point
  refine ⟨hlays.append h'.toLaysOut hu fun rest hrest => ⟨?_, fun v hv => ?_⟩, ?_⟩
  · exact List.forall_mem_append.2 ⟨h'.noArrow, hrest⟩
  · obtain rfl := Option.some.inj hv
    exact hw
  · refine List.forall_mem_append.2 ⟨List.forall_mem_map.2 fun v hv => ?_, h'.noArrow⟩
    exact (h.settled.raw_kind_ne v hv).2.2

end SpeltTidy

/-! ## Pieces of statements -/

def BehindHead (S : List Token.Context) (L : List Nat) (p : Place) : Prop :=
  Within S L [] p ∧ p.lastIs .rightParen

namespace BehindHead

variable {p : Place} {k : Kind} {S : List Token.Context} {L : List Nat} {spot : Spot}

theorem statementStart (h : BehindHead S L p) (hspot : spot ≠ .behindDo) :
    StatementStart spot k S L p :=
  ⟨h.1, .inr (.inl (by simp [lastIn, of_decide_eq_true h.2])), (absurd · hspot)⟩

theorem blockStart (h : BehindHead S L p) : BlockStart S L p :=
  ⟨h.1.toAmong, .inl (by rw [of_decide_eq_true h.2]; rfl)⟩

end BehindHead

theorem holdsCode_head (S : List Token.Context) : HoldsCode (.head :: S) :=
  ⟨.head, S, rfl, nofun, nofun⟩

namespace Stands

open Print Grammar

variable {start mid ends : Place → Prop} {t u x : Text} {ws vs roles roles' : List Word}
  {S : List Token.Context} {L : List Nat} {w : Word} {k : Kind} {brace closed : Bool} {spot : Spot}

theorem nil : Stands start [] [] [] start := ⟨.nil, by simp [NoArrow]⟩

theorem ofForall {ι : Type} [Nonempty ι] {starts : ι → Place → Prop}
    (h : ∀ i, Stands (starts i) t ws roles ends) :
    Stands (fun p => ∃ i, starts i p) t ws roles ends :=
  have hone := h (Classical.arbitrary ι)
  ⟨⟨hone.cut, fun ⟨i, hp⟩ => (h i).lays hp⟩, hone.noArrow⟩

theorem opening (hx : Identifier.hasForm x) (hk : Lexeme.nameKind x = k) (hword : k.ofStatement)
    (hline : k.startsLine) (hwhile : k = .whileWord → spot ≠ .inDo) (hfits : Fits spot S L)
    (hends : ∀ p, Within S L [] p → (p.after k).lastIs k → ends (p.after k)) :
    Stands (StatementStart spot k S L) x [⟨k, x⟩] [⟨k, x⟩] ends := by
  refine ofStatement (L := L) hx hk hword hfits.holdsCode fun p hp => ?_
  have hcloses : p.closesLoop k = false := by
    by_cases hk : k = .whileWord
    · exact hp.closesLoop_eq hfits (hwhile hk) k
    · simp [closesLoop, hk]
  have hne : k ≠ .elseWord ∧ k ≠ .rightBrace := by
    constructor <;> rintro rfl <;> cases hline
  have hleft : p.leftBy k = p := if_neg (by simp [hcloses])
  refine ⟨hp.toWithin, hp.lastIn_eq.2, by simp [endsBefore, hcloses, hne], ?_⟩
  rw [hleft]
  exact hends p hp.toWithin (by simp [lastIs, Place.after])

theorem openingHead (hx : Identifier.hasForm x) (hk : Lexeme.nameKind x = k)
    (hword : k ∈ [Kind.ifWord, .forWord, .whileWord]) (hwhile : k = .whileWord → spot ≠ .inDo)
    (hfits : Fits spot S L) :
    Stands (StatementStart spot k S L) x [⟨k, x⟩] [⟨k, x⟩] (BeforeParen .head S L) := by
  have hkinds : ∀ j ∈ [Kind.ifWord, .forWord, .whileWord],
      j.ofStatement ∧ j.startsLine ∧ j.opensHead := by decide
  obtain ⟨hof, hline, hhead⟩ := hkinds k hword
  exact opening hx hk hof hline hwhile hfits fun _ hp _ => hp.after_opensHead hof hhead

theorem openingPlain (hx : Identifier.hasForm x) (hk : Lexeme.nameKind x = k)
    (hword : k ∈ [Kind.returnWord, .throwWord, .breakWord, .continueWord, .constWord, .letWord,
      .varWord]) (hfits : Fits spot S L) :
    Stands (StatementStart spot k S L) x [⟨k, x⟩] [⟨k, x⟩] (ExpressionStart S L) := by
  have hkinds : ∀ j ∈ [Kind.returnWord, .throwWord, .breakWord, .continueWord, .constWord,
      .letWord, .varWord], j.ofStatement ∧ j.startsLine ∧ j.opensHead = false ∧
        j ≠ .whileWord ∧ j ≠ .doWord ∧ j ∉ ([.dot, .optionalChain, .name] : List Kind) := by
    decide
  obtain ⟨hof, hline, hhead, hwhile, hdo, hpoint⟩ := hkinds k hword
  refine opening hx hk hof hline (absurd · hwhile) hfits fun p hp hlast =>
    ⟨hp.after_ofStatement hof hdo hhead, ?_⟩
  simpa [lastIn, of_decide_eq_true hlast] using hpoint

theorem headed (hword : Stands start x [⟨k, x⟩] [⟨k, x⟩] (BeforeParen .head S L))
    (hS : HoldsCode S) (hinner : Stands (ExpressionStart (.head :: S) L) (u ++ Text.ofString ")")
      (vs ++ [⟨.rightParen, ")"⟩]) (roles' ++ [⟨.rightParen, ")"⟩]) (BehindHead S L))
    (hbody : Stands (BehindHead S L) t ws roles ends) (ht : t.StartsVisibly) :
    Stands start (x ++ CodePoint.scalar ' ' :: (parenthesized u ++ CodePoint.scalar ' ' :: t))
      (Grammar.headed ⟨k, x⟩ vs ws) (Grammar.headed ⟨k, x⟩ roles' roles) ends := by
  have hall := hword.spaced (leftParen hS (hinner.spaced hbody ht)) ⟨_, _, rfl, by decide⟩
  simpa [Grammar.headed, parenthesized] using hall

theorem ofSpelt (h : SpeltTidy t ws) (hS : S ≠ []) :
    Stands (ExpressionStart (.head :: S) L) (t ++ Text.ofString ")")
      (ws.map Word.raw ++ [⟨.rightParen, ")"⟩]) (ws ++ [⟨.rightParen, ")"⟩]) (BehindHead S L) :=
  h.stands (holdsCode_head S) (rightParen hS) ⟨nofun, nofun⟩
    fun _ _ => (Lexeme.endsName_cons _ _).2 (by decide)

theorem elseWord (hS : HoldsCode S) (hspot : spot ≠ .behindDo) :
    Stands (BehindStatement brace S L) (Text.ofString "else") [⟨.elseWord, "else"⟩]
      [⟨.elseWord, "else"⟩] (StatementStart spot k S L) := by
  refine ofStatement rfl rfl rfl hS fun p hp => ⟨hp.toWithin, hp.lastIn_eq (by decide),
    by simp [endsBefore, closesLoop, hp.endsBranch_eq], ?_⟩
  rw [leftBy_of_ne (by decide)]
  exact ⟨hp.toWithin.after_ofStatement rfl (by decide) rfl, .inr (.inl rfl), (absurd · hspot)⟩

/-! ### Heads of loops -/

theorem declaring (kind : VarKind) (hS : HoldsCode S) :
    Stands (ExpressionStart S L) kind.word.text [kind.word] [kind.word] (ExpressionStart S L) := by
  have hform : Identifier.hasForm kind.word.text := by cases kind <;> rfl
  have hkind : Lexeme.nameKind kind.word.text = kind.word.kind := by cases kind <;> rfl
  have hof : kind.word.kind.ofStatement := by cases kind <;> rfl
  refine ofStatement hform hkind hof hS fun p hp => ⟨hp.toWithin, ?_, ?_, ?_⟩
  · exact hp.lastIn_point
  · cases kind <;> exact endsBefore_inside (by decide) (by decide) (by decide)
  · rw [leftBy_of_ne (by cases kind <;> decide)]
    refine ⟨hp.toWithin.after_ofStatement hof ?_ ?_, ?_⟩ <;> cases kind <;> first | rfl | decide

theorem loopRest {wt wu : List Word} (h : SpeltTidy t wt) (h' : SpeltTidy u wu)
    (ht : ∀ rest, EndsName rest → EndsName (t ++ rest))
    (hu : ∀ rest, EndsName rest → EndsName (u ++ rest)) (hS : S ≠ []) :
    Stands (Within (.head :: S) L [])
      (Text.ofString ";" ++ (t ++ (Text.ofString ";" ++ (u ++ Text.ofString ")"))))
      (⟨.semicolon, ";"⟩ :: (wt.map Word.raw ++ ⟨.semicolon, ";"⟩ ::
        (wu.map Word.raw ++ [⟨.rightParen, ")"⟩])))
      (⟨.terminator, ";"⟩ :: (wt ++ ⟨.terminator, ";"⟩ :: (wu ++ [⟨.rightParen, ")"⟩])))
      (BehindHead S L) := by
  have hsemicolon : Stands (Within (.head :: S) L []) (Text.ofString ";") [⟨.semicolon, ";"⟩]
      [⟨.terminator, ";"⟩] (ExpressionStart (.head :: S) L) :=
    semicolon.weaken (fun _ hp => hp) fun _ hp => ⟨hp.toWithin, hp.lastIn_eq (by decide)⟩
  have hlast := hsemicolon.append (ofSpelt h' hS) fun rest _ => by
    rw [List.append_assoc]
    exact hu _ ((Lexeme.endsName_cons _ _).2 (by decide))
  refine hsemicolon.append (h.stands (holdsCode_head S) hlast ⟨nofun, nofun⟩
    fun _ _ => (Lexeme.endsName_cons _ _).2 (by decide)) fun rest _ => ?_
  rw [List.append_assoc]
  exact ht _ ((Lexeme.endsName_cons _ _).2 (by decide))

theorem laysOut_name (hx : x.IsIdentifier) (hS : HoldsCode S) :
    LaysOut (ExpressionStart S L) x [⟨.name, x⟩] [⟨.name, x⟩]
      (fun p => Within S L [] p ∧ p.lastIs .name) EndsExpression := by
  have hcut := CutInto.name hx.form
  rw [hx.free] at hcut
  refine ⟨hcut, fun {p} hp => ?_⟩
  have hname := hp.lastIs_name
  obtain ⟨own, hown, hwithin, hlays⟩ := lays_plain (w := ⟨.name, x⟩) (n := 0) hp.toWithin hS rfl
    (by simp [hname]) (absurd · Bool.false_ne_true) rfl
  obtain rfl := List.length_eq_zero_iff.1 hown
  exact ⟨_, ⟨hwithin, by simp [lastIs, Place.after]⟩, hlays⟩

theorem iterating (runs : Iteration) :
    Stands (fun p => Within (.head :: S) L [] p ∧ p.lastIs .name) runs.word.text
      [⟨Lexeme.nameKind runs.word.text, runs.word.text⟩] [runs.word]
      (ExpressionStart (.head :: S) L) := by
  have hform : Identifier.hasForm runs.word.text := by cases runs <;> rfl
  have hkind : runs.word.kind = .ofWord ∨ runs.word.kind = .inWord := by
    cases runs
    · exact .inl rfl
    · exact .inr rfl
  have hafter {p : Place} (hp : Within (.head :: S) L [] p) :
      ExpressionStart (.head :: S) L (p.after runs.word.kind) := by
    have hstack : p.stackAfter runs.word.kind = .head :: S := by
      rcases hkind with hk | hk <;> simp [hk, stackAfter, hp.stack]
    refine ⟨⟨hp.toAmong.after hstack ?_, by simp, ?_⟩, ?_⟩ <;>
      rcases hkind with hk | hk <;> simp [hk, Place.after, lastIn, Kind.opensHead]
  have hrole {p : Place} (hp : Within (.head :: S) L [] p) (hlast : p.lastIs .name) (u : Token)
      (rest : List Token) (hu : u.word = ⟨Lexeme.nameKind runs.word.text, runs.word.text⟩)
      (hrest : NoArrow (rest.map Token.word)) : p.role u rest = runs.word.kind := by
    obtain ⟨hukind, hutext⟩ := Word.mk.inj hu
    have hcontext : p.context = .head := by
      rw [context, hp.stack]
      rfl
    cases runs with
    | values =>
      rw [role_of_name hukind]
      simp [nameRole, hp.clause, hcontext, hlast, hutext, Iteration.word]
    | keys =>
      have hname : p.last = some .name := of_decide_eq_true hlast
      have hin : u.kind = .inWord := hukind
      rw [role_plain (.inl (by rw [hin]; rfl)) (by simp [startsMember, hcontext])
        (fun _ => by simp [lastIn, hname]) (by simpa [NoArrow] using hrest)
        (by rw [hin]; exact (absurd · (by decide))), hin]
      rfl
  have hne : Lexeme.nameKind runs.word.text ∉ ([.newline, .semicolon, .elseWord, .whileWord,
      .rightBrace, .arrow] : List Kind) := by cases runs <;> decide
  simp only [List.mem_cons, List.not_mem_nil, or_false, not_or] at hne
  obtain ⟨hline, hsemicolon, helse, hwhile, hbrace, harrow⟩ := hne
  refine ⟨⟨CutInto.name hform, fun {p} hp => ⟨_, hafter hp.1, ?_⟩⟩, by simpa [NoArrow]⟩
  have hlays := lays_one (w := ⟨Lexeme.nameKind runs.word.text, runs.word.text⟩) hline hsemicolon
    (endsBefore_inside helse hwhile hbrace) ?_ (hrole hp.1 hp.2)
  · rwa [leftBy_of_ne hwhile] at hlays
  · rcases hkind with hk | hk <;> simp [hk, closedBy]

theorem iteration (runs : Iteration) (hx : x.IsIdentifier) (h : SpeltTidy t ws)
    (ht : t.StartsVisibly) (hS : S ≠ []) : Stands (ExpressionStart (.head :: S) L)
      (x ++ CodePoint.scalar ' ' :: (runs.word.text ++ CodePoint.scalar ' ' ::
        (t ++ Text.ofString ")")))
      (⟨.name, x⟩ :: ⟨Lexeme.nameKind runs.word.text, runs.word.text⟩ ::
        (ws.map Word.raw ++ [⟨.rightParen, ")"⟩]))
      (⟨.name, x⟩ :: runs.word :: (ws ++ [⟨.rightParen, ")"⟩])) (BehindHead S L) := by
  have hrest := (iterating (S := S) (L := L) runs).spaced (ofSpelt h hS) (ht.append _)
  have hvisibly : (runs.word.text ++ CodePoint.scalar ' ' ::
      (t ++ Text.ofString ")")).StartsVisibly :=
    Text.StartsVisibly.append (by cases runs <;> exact ⟨_, _, rfl, by decide⟩) _
  refine ⟨(laysOut_name hx (holdsCode_head S)).spaced hrest.toLaysOut hvisibly fun rest hrest' =>
    ⟨List.forall_mem_append.2 ⟨hrest.noArrow, hrest'⟩, fun w hw => ?_⟩,
    List.forall_mem_cons.2 ⟨nofun, hrest.noArrow⟩⟩
  obtain rfl := Option.some.inj hw
  cases runs <;> exact ⟨nofun, nofun⟩

/-! ### Do-loops -/

/-- The end of the condition of a do-loop, or of what is taken for the head of another loop. -/
theorem conditionEnd {c : Token.Context} (hS : S ≠ []) :
    Stands (Within (c :: S) L []) (Text.ofString ")" ++ Text.ofString ";")
      [⟨.rightParen, ")"⟩, ⟨.semicolon, ";"⟩] [⟨.rightParen, ")"⟩, ⟨.terminator, ";"⟩]
        (BehindStatement false S L) := by
  have hparen : LaysOut (Within (c :: S) L []) (Text.ofString ")") [⟨.rightParen, ")"⟩]
      [⟨.rightParen, ")"⟩] (Within S L []) fun ws => ws.head?.any fun w => w.kind = .semicolon :=
    ⟨fun _ _ _ h => h.sign (p := (")", .rightParen)) (by decide), fun hp =>
      ⟨_, hp.after_rightParen hS, lays_rightParen fun _ _ h => h⟩⟩
  exact ⟨hparen.append semicolon.toLaysOut (fun _ _ => (Lexeme.endsName_cons _ _).2 (by decide))
    fun _ _ => rfl, by simp [NoArrow]⟩

/-- Whatever the `while` behind the body of a do-loop is taken for, the loop is left. -/
theorem loopWhile (brace : Bool) (hS : HoldsCode S) :
    Stands (BehindStatement brace S (S.length :: L)) (Text.ofString "while")
      [⟨.whileWord, "while"⟩] [⟨.whileWord, "while"⟩]
      (fun p => ∃ c : { c : Token.Context // c = .head ∨ c = .loopTail }, BeforeParen c S L p) := by
  refine ofStatement rfl rfl rfl hS fun p hp => ⟨hp.toWithin, hp.lastIn_eq (by decide),
    by simp [endsBefore, hp.endsBranch_eq], ?_⟩
  by_cases hcloses : p.closesLoop .whileWord
  · have hleft : Among S L p.leaveLoop := ⟨hp.stack, hp.loops.tail, hp.clause, hp.classes⟩
    rw [leftBy, if_pos hcloses]
    exact ⟨⟨.loopTail, .inr rfl⟩, hleft.after_ofStatement rfl (by decide), rfl⟩
  · have hloops : p.loops.Sublist L := by
      refine (List.sublist_cons_iff.1 hp.loops).resolve_right ?_
      rintro ⟨ls, hls, -⟩
      have hdo : p.lastIs .doWord = false := hp.lastIs_eq (by decide)
      exact hcloses (by simp [closesLoop, hls, hp.stack, hdo])
    have hp' : Within S L [] p :=
      ⟨⟨hp.stack, hloops, hp.clause, hp.classes⟩, hp.brackets, hp.paren⟩
    rw [leftBy, if_neg hcloses]
    exact ⟨⟨.head, .inl rfl⟩, hp'.after_opensHead rfl rfl⟩

theorem loopTail (h : SpeltTidy t ws) (hS : HoldsCode S) :
    Stands (BehindStatement brace S (S.length :: L))
      (Text.ofString "while" ++ CodePoint.scalar ' ' :: (parenthesized t ++ Text.ofString ";"))
      (Grammar.headed ⟨.whileWord, "while"⟩ (ws.map Word.raw) [⟨.semicolon, ";"⟩])
      (Grammar.headed ⟨.whileWord, "while"⟩ ws [⟨.terminator, ";"⟩])
      (BehindStatement false S L) := by
  have hne : S ≠ [] := by
    rintro rfl
    obtain ⟨_, _, hnil, -⟩ := hS
    cases hnil
  have hcode (c : { c : Token.Context // c = .head ∨ c = .loopTail }) : HoldsCode (c.1 :: S) := by
    obtain ⟨c, rfl | rfl⟩ := c <;> exact ⟨_, _, rfl, nofun, nofun⟩
  have : Nonempty { c : Token.Context // c = .head ∨ c = .loopTail } := ⟨.head, .inl rfl⟩
  have hparens := ofForall fun c => leftParen (L := L) hS (h.stands (hcode c) (conditionEnd hne)
    ⟨nofun, nofun⟩ fun _ _ => (Lexeme.endsName_cons _ _).2 (by decide))
  have hall := (loopWhile brace hS).spaced hparens ⟨_, _, rfl, by decide⟩
  simpa [Grammar.headed, parenthesized] using hall

end Stands

namespace Print

open Grammar

theorem Shows.speltTidy {p : Nat} {e : Node} {t : Text} (h : Shows p e t) :
    ∃ ws, SpeltTidy t ws ∧ t.StartsVisibly ∧ Makes (AsLeast p) e ws := by
  obtain ⟨ws, hwrites, hmakes⟩ := h
  -- any tokens with the words will do
  let ts : List Token := ws.map fun w => ⟨w.kind, w.text, default, default⟩
  have hts : ts.map Token.word = ws := List.map_map.trans (List.map_id ws)
  obtain ⟨n, -, hderives⟩ := hmakes ts hts
  have htidy := hderives.assign.tidy
  rw [show ts.map Token.kind = ws.map Word.kind from List.map_map] at htidy
  exact ⟨ws, ⟨hwrites.toSpelt, htidy⟩, hwrites.visibly, hmakes⟩

end Print

end InlineTemplates
