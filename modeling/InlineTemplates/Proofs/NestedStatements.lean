import InlineTemplates.Proofs.StatementTexts

/-!
# Nested statements survive printing

A program of nested statements is read back from its text: each body belongs to its head, each
`else` to its `if` and each `while` to its `do`.
-/

namespace InlineTemplates

open Token (Kind Place)
open Token.Place
open Lexeme (EndsName Spells)

namespace Lexeme.Spells

theorem kind_of_semicolon {t : Text} {ws : List Word} (h : Spells t ws) :
    ∀ w ∈ ws, w.text = Text.ofString ";" → w.kind = .semicolon := by
  induction h with
  | nil => simp
  | blank _ _ ih => exact ih
  | @word v u _ _ hnext _ ih =>
    refine List.forall_mem_cons.2 ⟨fun hv => ?_, ih⟩
    have hsign := CutInto.next?_sign u (";", .semicolon) (by decide)
    rw [← hv, hnext] at hsign
    exact Class.token.inj (Prod.mk.inj (Option.some.inj hsign)).1

end Lexeme.Spells

namespace Print

open Grammar Node

variable {level : Nat} {spot : Spot} {closed brace : Bool} {e n m : Node} {es ns : List Node}
  {t u x : Text} {ws vs roles : List Word} {w : Word} {k : Kind} {loc : Option Location}

/-! ## Expressions in statements -/

def ShowsExpression (e : Node) (t : Text) : Prop :=
  ∃ ws, SpeltTidy t ws ∧ t.StartsVisibly ∧ Makes Expressed e ws

theorem showsExpression (h : e.IsOperatorTree) (level least : Nat) :
    ShowsExpression e (placed least e (text level e)) := by
  obtain ⟨ws, hspelt, hvisibly, hmakes⟩ :=
    ((shows_text h level).placed (comments_eq_nil h) least).speltTidy
  refine ⟨ws, hspelt, hvisibly, fun ts hts => ?_⟩
  obtain ⟨n, hn, hderives⟩ := hmakes ts hts
  exact ⟨n, hn, hderives.assign⟩

theorem startsAmbiguously_eq (h : e.IsOperatorTree) : startsAmbiguously e = false := by
  induction h with
  | name | string | bool | null | unary | array => rfl
  | update _ inFront _ ih => cases inFront <;> simp [startsAmbiguously, ih]
  | binary _ _ _ ih | ternary _ _ _ ih | assign _ _ _ ih => simpa [startsAmbiguously] using ih
  | call _ _ _ ih | attr _ _ _ ih | index _ _ _ ih => simp [startsAmbiguously, ih]

theorem showsOptional (h : IsOptional es) (level : Nat) :
    ∃ ws, SpeltTidy (behind " " (placedAll 0 es (texts level es))) ws ∧
      MakesAll (Maybe Expressed) es ws := by
  cases h with
  | none => exact ⟨[], .nil, makesAll_missing⟩
  | some h =>
    obtain ⟨ws, hspelt, hvisibly, hmakes⟩ := showsExpression h level 0
    refine ⟨ws, ?_, makesAll_given hmakes⟩
    have htext (t : Text) : behind " " [t] = CodePoint.scalar ' ' :: t := List.append_nil _
    rw [placedAll_texts, List.map_singleton, htext]
    exact hspelt.blank hvisibly

theorem showsVariable (h : n.IsVariable) (level : Nat) :
    ∃ ws, SpeltTidy (text level n) ws ∧ (text level n).StartsVisibly ∧ Makes Declares n ws := by
  obtain @⟨loc, loc', x, initial, hx, h⟩ := h
  have hvisibly := Text.startsVisibly_of_hasForm hx.form
  cases h with
  | none =>
    have htext : text level (.declarator ⟨loc, []⟩ (.name ⟨loc', []⟩ x) []) = x :=
      List.append_nil x
    rw [htext]
    exact ⟨_, .name hx, hvisibly, makes_bareVariable⟩
  | @some e h =>
    obtain ⟨ws, hspelt, hvisibly', hmakes⟩ := showsExpression h level Precedence.assign
    have htext : text level (.declarator ⟨loc, []⟩ (.name ⟨loc', []⟩ x) [e]) =
        x ++ (Text.ofString " = " ++ placed Precedence.assign e (text level e)) :=
      congrArg (x ++ ·) (List.append_nil _)
    rw [htext]
    exact ⟨_, hspelt.set hx hvisibly', hvisibly.append _, makes_variable hmakes⟩

theorem showsVariables (hns : ∀ n ∈ ns, IsVariable n) (level : Nat) (h : SpeltTidy t ws) :
    ∃ vs, SpeltTidy (t ++ behind ", " (texts level ns)) (ws ++ vs) ∧
      MakesAll DeclaresMore ns vs := by
  induction ns generalizing t ws with
  | nil => exact ⟨[], by simpa [texts, behind] using h, makesAll_lastVariable⟩
  | cons n ns ih =>
    obtain ⟨hn, hns⟩ := List.forall_mem_cons.1 hns
    obtain ⟨wn, hspelt, hvisibly, hmakes⟩ := showsVariable hn level
    obtain ⟨vs, hall, hmore⟩ := ih hns (h.comma hspelt hvisibly)
    refine ⟨_, ?_, makesAll_moreVariables (y := ",") hmakes hmore⟩
    rw [texts, behind_commas_cons]
    simpa using hall

theorem showsDeclaration {head : Head} {kind : VarKind}
    (h : IsDeclaration (.varDecl head kind ns)) (level : Nat) :
    ∃ (t : Text) (ws : List Word),
      varDecl kind (texts level ns) = kind.word.text ++ CodePoint.scalar ' ' :: t ∧
        SpeltTidy t ws ∧ t.StartsVisibly ∧
        Makes DeclaresAll (.varDecl head kind ns) (kind.word :: ws) := by
  obtain @⟨loc, _, n, ns, h, hmore⟩ := h
  obtain ⟨wn, hspelt, hvisibly, hmakes⟩ := showsVariable h level
  obtain ⟨vs, hall, hmakesAll⟩ := showsVariables hmore level hspelt
  refine ⟨_, _, ?_, hall, hvisibly.append _, makes_declaration hmakes hmakesAll⟩
  rw [varDecl, texts, commas_cons]
  cases kind <;> rfl

/-! ## Statements -/

/-- The text of a statement with its words and their roles, whatever stands around it. `brace` says
that the statement ends with a block. -/
structure Laid (spot : Spot) (closed : Bool) (n : Node) (t : Text) (w : Word) (ws roles : List Word)
    (brace : Bool) : Prop where
  visibly : t.StartsVisibly
  starts : w.kind ≠ .newline ∧ w.kind ≠ .elseWord
  makes : Makes (ReadsStatement closed) n roles
  stands {S : List Token.Context} {L : List Nat} (h : Fits spot S L) :
    Stands (StatementStart spot w.kind S L) t (w :: ws) roles (BehindStatement brace S L)

def ShowsStatement (spot : Spot) (closed : Bool) (n : Node) (t : Text) : Prop :=
  ∃ w ws roles brace, Laid spot closed n t w ws roles brace

/-! ### Statements that a terminator ends -/

theorem showsPlain (hx : Identifier.hasForm x) (hk : Lexeme.nameKind x = k)
    (hword : k ∈ [Kind.returnWord, .throwWord, .breakWord, .continueWord, .constWord, .letWord,
      .varWord]) (h : SpeltTidy t ws) (ht : ∀ rest, EndsName rest → EndsName (t ++ rest))
    (hmakes : Makes (ReadsStatement closed) n (⟨k, x⟩ :: (ws ++ [⟨.terminator, ";"⟩]))) :
    ShowsStatement spot closed n (x ++ (t ++ Text.ofString ";")) := by
  have hkinds : k ≠ .newline ∧ k ≠ .elseWord := by
    constructor <;> rintro rfl <;> exact absurd hword (by decide)
  refine ⟨⟨k, x⟩, ws.map Word.raw ++ [⟨.semicolon, ";"⟩], _, false,
    (Text.startsVisibly_of_hasForm hx).append _, hkinds, hmakes, fun hfits => ?_⟩
  refine (Stands.openingPlain hx hk hword hfits).append (h.stands hfits.holdsCode .semicolon
    ⟨nofun, nofun⟩ fun _ _ => (Lexeme.endsName_cons _ _).2 (by decide)) fun rest _ => ?_
  rw [List.append_assoc]
  exact ht _ ((Lexeme.endsName_cons _ _).2 (by decide))

theorem endsName_blank (t : Text) {rest : Text} (_ : EndsName rest) :
    EndsName (CodePoint.scalar ' ' :: t ++ rest) := (Lexeme.endsName_cons _ _).2 (by decide)

theorem shows_exprStmt (h : ShowsExpression e t) :
    ShowsStatement spot closed (.exprStmt ⟨loc, []⟩ e) (t ++ Text.ofString ";") := by
  obtain ⟨ws, hspelt, hvisibly, hmakes⟩ := h
  cases ws with
  | nil =>
    obtain ⟨e', -, h⟩ := hmakes [] rfl
    obtain ⟨_, _, hnil, -⟩ := h.starts
    cases hnil
  | cons w ws =>
    have hline := (hspelt.settled.raw_kind_ne w List.mem_cons_self).1
    have helse := (hspelt.settled.head_raw_ne w rfl).2
    refine ⟨w.raw, ws.map Word.raw ++ [⟨.semicolon, ";"⟩], _, false, hvisibly.append _,
      ⟨hline, helse⟩, makes_exprStmt (x := ";") hmakes, fun hfits => ?_⟩
    exact (hspelt.stands hfits.holdsCode .semicolon ⟨nofun, nofun⟩ fun _ _ =>
        (Lexeme.endsName_cons _ _).2 (by decide)).weaken (fun _ hp => hp.expressionStart)
          fun _ hp => hp

theorem shows_emptyStmt :
    ShowsStatement spot closed (.emptyStmt ⟨loc, []⟩) (Text.ofString ";") :=
  ⟨⟨.semicolon, ";"⟩, [], [⟨.terminator, ";"⟩], false, ⟨_, _, rfl, by decide⟩, ⟨nofun, nofun⟩,
    makes_emptyStmt, fun _ => Stands.semicolon.weaken (fun _ hp => hp.toWithin) fun _ hp => hp⟩

/-! ### Statements with heads -/

theorem Laid.behindHead (h : Laid spot.inner closed n t w ws roles brace) {S : List Token.Context}
    {L : List Nat} (hfits : Fits spot S L) :
    Stands (BehindHead S L) t (w :: ws) roles (BehindStatement brace S L) :=
  (h.stands hfits.inner).weaken (fun _ hp => hp.statementStart spot.inner_ne_behindDo)
    fun _ hp => hp

theorem showsHeaded (vi : List Word) {inner body : Text} {ri vb rb : List Word}
    (hx : Identifier.hasForm x) (hk : Lexeme.nameKind x = k)
    (hword : k ∈ [Kind.ifWord, .forWord, .whileWord])
    (hwhile : k = .whileWord → spot ≠ .inDo)
    (hinner : ∀ (S : List Token.Context) (L : List Nat), S ≠ [] →
      Stands (ExpressionStart (.head :: S) L) (inner ++ Text.ofString ")")
        (vi ++ [⟨.rightParen, ")"⟩]) (ri ++ [⟨.rightParen, ")"⟩]) (BehindHead S L))
    (hbody : ∀ (S : List Token.Context) (L : List Nat), Fits spot S L →
      Stands (BehindHead S L) body vb rb (BehindStatement brace S L))
    (hvisibly : body.StartsVisibly)
    (hmakes : Makes (ReadsStatement closed) n (headed ⟨k, x⟩ ri rb)) :
    ShowsStatement spot closed n
      (x ++ CodePoint.scalar ' ' :: (parenthesized inner ++ CodePoint.scalar ' ' :: body)) := by
  have hkinds : k ≠ .newline ∧ k ≠ .elseWord := by
    constructor <;> rintro rfl <;> exact absurd hword (by decide)
  exact ⟨⟨k, x⟩, _, _, brace, (Text.startsVisibly_of_hasForm hx).append _, hkinds, hmakes,
    fun hfits => (Stands.openingHead hx hk hword hwhile hfits).headed hfits.holdsCode
      (hinner _ _ hfits.ne_nil) (hbody _ _ hfits) hvisibly⟩

theorem shows_ifStmt (he : ShowsExpression e t) (h : ShowsStatement spot.inner false n u) :
    ShowsStatement spot false (.ifStmt ⟨loc, []⟩ e n [])
      (Text.ofString "if" ++ CodePoint.scalar ' ' ::
        (parenthesized t ++ CodePoint.scalar ' ' :: u)) := by
  obtain ⟨we, hspelt, -, hmakes⟩ := he
  obtain ⟨w, ws, roles, brace, hbody⟩ := h
  exact showsHeaded _ rfl rfl (by decide) nofun (fun S L hS => .ofSpelt hspelt hS)
    (fun S L hfits => hbody.behindHead hfits) hbody.visibly (makes_ifStmt hmakes hbody.makes)

theorem shows_whileStmt (hspot : spot ≠ .inDo) (he : ShowsExpression e t)
    (h : ShowsStatement spot.inner closed n u) :
    ShowsStatement spot closed (.whileStmt ⟨loc, []⟩ e n)
      (Text.ofString "while" ++ CodePoint.scalar ' ' ::
        (parenthesized t ++ CodePoint.scalar ' ' :: u)) := by
  obtain ⟨we, hspelt, -, hmakes⟩ := he
  obtain ⟨w, ws, roles, brace, hbody⟩ := h
  exact showsHeaded _ rfl rfl (by decide) (fun _ => hspot) (fun S L hS => .ofSpelt hspelt hS)
    (fun S L hfits => hbody.behindHead hfits) hbody.visibly (makes_whileStmt hmakes hbody.makes)

theorem shows_ifElse (he : ShowsExpression e t) (h : ShowsStatement spot.inner true n u)
    (helse : ShowsStatement spot.inner closed m x) :
    ShowsStatement spot closed (.ifStmt ⟨loc, []⟩ e n [m])
      (Text.ofString "if" ++ CodePoint.scalar ' ' :: (parenthesized t ++ CodePoint.scalar ' ' ::
        (u ++ CodePoint.scalar ' ' :: (Text.ofString "else" ++ CodePoint.scalar ' ' :: x)))) := by
  obtain ⟨we, hspelt, -, hmakes⟩ := he
  obtain ⟨w, ws, roles, brace, hthen⟩ := h
  obtain ⟨w', ws', roles', brace', helse⟩ := helse
  refine showsHeaded _ rfl rfl (by decide) nofun (fun S L hS => .ofSpelt hspelt hS)
    (fun S L hfits => (hthen.behindHead hfits).spaced
      ((Stands.elseWord hfits.holdsCode spot.inner_ne_behindDo).spaced (helse.stands hfits.inner)
        helse.visibly) ⟨_, _, rfl, by decide⟩)
    (hthen.visibly.append _) (makes_ifElse hmakes hthen.makes helse.makes)

def forText (first : Text) (level : Nat) (test update : List Node) (body : Text) : Text :=
  Text.ofString "for" ++ CodePoint.scalar ' ' ::
    (parenthesized (first ++ (Text.ofString ";" ++
      (behind " " (placedAll 0 test (texts level test)) ++ (Text.ofString ";" ++
        behind " " (placedAll 0 update (texts level update)))))) ++ CodePoint.scalar ' ' :: body)

theorem shows_forStmt (vi : List Word) {initial test update : List Node} {first : Text}
    {ri : List Word} (hfirst : ∀ {S : List Token.Context} {L : List Nat} {rest : Text}
      {vs roles : List Word},
      Stands (Within (.head :: S) L []) (Text.ofString ";" ++ rest) (⟨.semicolon, ";"⟩ :: vs) roles
        (BehindHead S L) →
      Stands (ExpressionStart (.head :: S) L) (first ++ (Text.ofString ";" ++ rest))
        (vi ++ ⟨.semicolon, ";"⟩ :: vs) (ri ++ roles) (BehindHead S L))
    (hinitial : MakesAll StartsLoop initial ri) (htest : IsOptional test)
    (hupdate : IsOptional update) (h : ShowsStatement spot.inner closed n u) (level : Nat) :
    ShowsStatement spot closed (.forStmt ⟨loc, []⟩ initial test update n)
      (forText first level test update u) := by
  obtain ⟨wt, htest, hmakesTest⟩ := showsOptional htest level
  obtain ⟨wu, hupdate, hmakesUpdate⟩ := showsOptional hupdate level
  obtain ⟨w, ws, roles, brace, hbody⟩ := h
  have hends (ts : List Text) : ∀ rest, EndsName rest → EndsName (behind " " ts ++ rest) :=
    fun _ => behind_endsName (by decide) ts
  refine showsHeaded (vi ++ ⟨.semicolon, ";"⟩ :: (wt.map Word.raw ++ ⟨.semicolon, ";"⟩ ::
    wu.map Word.raw)) rfl rfl (by decide) nofun (fun S L hS => ?_)
    (fun S L hfits => hbody.behindHead hfits) hbody.visibly
    (makes_forStmt hinitial hmakesTest hmakesUpdate hbody.makes)
  simpa using hfirst (Stands.loopRest (L := L) htest hupdate (hends _) (hends _) hS)

theorem shows_forIn {loc' : Option Location} (kind : VarKind) (runs : Iteration)
    (hx : x.IsIdentifier) (he : ShowsExpression e t) (h : ShowsStatement spot.inner closed n u) :
    ShowsStatement spot closed (.forIn ⟨loc, []⟩ kind runs (.name ⟨loc', []⟩ x) e n)
      (Text.ofString "for" ++ CodePoint.scalar ' ' ::
        (parenthesized (kind.word.text ++ CodePoint.scalar ' ' :: (x ++ CodePoint.scalar ' ' ::
          (runs.word.text ++ CodePoint.scalar ' ' :: t))) ++ CodePoint.scalar ' ' :: u)) := by
  obtain ⟨we, hspelt, hvisibly, hmakes⟩ := he
  obtain ⟨w, ws, roles, brace, hbody⟩ := h
  refine showsHeaded (kind.word :: ⟨.name, x⟩ ::
    ⟨Lexeme.nameKind runs.word.text, runs.word.text⟩ :: we.map Word.raw) rfl rfl (by decide) nofun
    (fun S L hS => ?_) (fun S L hfits => hbody.behindHead hfits) hbody.visibly
    (makes_forIn hmakes hbody.makes)
  have hall := (Stands.declaring (L := L) kind (holdsCode_head S)).spaced
    (Stands.iteration runs hx hspelt hvisibly hS)
    ((Text.startsVisibly_of_hasForm hx.form).append _)
  simpa using hall

theorem shows_doWhile (h : ShowsStatement .behindDo false n u) (he : ShowsExpression e t) :
    ShowsStatement spot closed (.doWhile ⟨loc, []⟩ n e)
      (Text.ofString "do" ++ CodePoint.scalar ' ' :: (u ++ CodePoint.scalar ' ' ::
        (Text.ofString "while" ++ CodePoint.scalar ' ' ::
          (parenthesized t ++ Text.ofString ";")))) := by
  obtain ⟨w, ws, roles, brace, hbody⟩ := h
  obtain ⟨we, hspelt, -, hmakes⟩ := he
  refine ⟨⟨.doWord, "do"⟩,
    w :: ws ++ headed ⟨.whileWord, "while"⟩ (we.map Word.raw) [⟨.semicolon, ";"⟩], _, false,
    ⟨_, _, rfl, by decide⟩, ⟨nofun, nofun⟩,
    makes_doWhile (x := "do") (y := "while") hbody.makes hmakes, fun {S L} hfits => ?_⟩
  have hdo : Stands (StatementStart spot .doWord S L) (Text.ofString "do") [⟨.doWord, "do"⟩]
      [⟨.doWord, "do"⟩] (StatementStart .behindDo w.kind S (S.length :: L)) :=
    .opening rfl rfl rfl rfl nofun hfits fun p hp hlast =>
      ⟨hp.after_do, .inr (.inl rfl), fun _ => hlast⟩
  exact hdo.spaced ((hbody.stands hfits.loop).spaced (.loopTail hspelt hfits.holdsCode)
    ⟨_, _, rfl, by decide⟩) (hbody.visibly.append _)

/-! ### Lines -/

/-- The fillers that a line break gives rise to leave no statement. -/
theorem makesAll_filler (brace : Bool) (h : CutInto t (w :: ws))
    (hmakes : MakesAll Lines ns roles) :
    MakesAll Lines ns (BehindStatement.filler brace w ++ roles) := by
  unfold BehindStatement.filler
  split
  · rename_i hbreaks
    have hspells := h [] [] Lexeme.endsName_nil .nil
    refine makesAll_lines_filler (fun hw => ?_) hmakes
    rw [hspells.kind_of_semicolon w List.mem_cons_self hw] at hbreaks
    simp [BehindStatement.breaks] at hbreaks
  · exact hmakes

theorem behind_line_endsName (ts : List Text) :
    ∀ rest, EndsName rest → EndsName (behind "\n" ts ++ rest) :=
  fun _ => behind_endsName (by decide) ts

theorem Laid.line (h : Laid .free closed n t w ws roles brace) (level : Nat) (b : Bool)
    {S : List Token.Context} {L : List Nat} (hfits : Fits .free S L) :
    Stands (BehindStatement b S L) (Text.ofString "\n" ++ indentation level ++ t)
      (.line level :: w :: ws) (BehindStatement.filler b w ++ roles) (BehindStatement brace S L) :=
  .line level hfits.block (h.stands hfits) h.visibly h.starts fun _ hp =>
    ⟨hfits.closesLoop_eq hp.toAmong _, hp.statementStart w.kind⟩

theorem shows_lines (h : ∀ n ∈ ns, n.comments = [] ∧ ShowsStatement .free false n (text level n))
    (brace : Bool) : ∃ ws roles brace', MakesAll Lines ns roles ∧
      ∀ {S : List Token.Context} {L : List Nat}, Fits .free S L →
        Stands (BehindStatement brace S L) (behind "\n" (lines level ns)) ws roles
          (BehindStatement brace' S L) := by
  induction ns generalizing brace with
  | nil => exact ⟨[], [], brace, makesAll_lines_nil, fun _ => .nil⟩
  | cons n ns ih =>
    obtain ⟨⟨hcomments, w, wn, rn, b, hlaid⟩, hns⟩ := List.forall_mem_cons.1 h
    obtain ⟨ws, roles, brace', hmakes, hstands⟩ := ih hns b
    have hall := makesAll_filler brace (hlaid.stands Fits.ofModule).cut
      (makesAll_lines_cons hlaid.makes hmakes)
    have htext : behind "\n" (lines level (n :: ns)) =
        Text.ofString "\n" ++ indentation level ++ text level n ++
          behind "\n" (lines level ns) := by
      simp [lines, line, behind, hcomments]
    rw [htext]
    rw [← List.append_assoc] at hall
    exact ⟨_, _, brace', hall, fun hfits =>
      (hlaid.line level brace hfits).append (hstands hfits) (behind_line_endsName _)⟩

theorem makesAll_fillerBehind (brace : Bool) (h : MakesAll Lines ns roles) :
    MakesAll Lines ns (roles ++ BehindStatement.filler brace ⟨.rightBrace, "\x7d"⟩) := by
  intro ts hts
  obtain ⟨us, vs, rfl, hus, hvs⟩ := List.map_eq_append_iff.1 hts
  obtain ⟨ns', hns, hlines⟩ := h us hus
  refine ⟨ns', hns, ?_⟩
  cases brace with
  | false =>
    obtain rfl := List.map_eq_nil_iff.1 hvs
    rwa [List.append_nil]
  | true =>
    obtain ⟨z, rfl, hz⟩ := List.map_eq_singleton_iff.1 hvs
    exact hlines.append_filler (kind_of_word hz) (by rw [text_of_word hz]; decide)

/-! ### Blocks -/

structure LaidBlock (n : Node) (t : Text) (ws roles : List Word) : Prop where
  visibly : t.StartsVisibly
  makes : Makes ReadsBlock n roles
  stands {spot : Spot} {S : List Token.Context} {L : List Nat} (h : Fits spot S L) :
    Stands (BlockStart S L) t (⟨.leftBrace, "\x7b"⟩ :: ws) roles (BehindStatement true S L)

def ShowsBlock (n : Node) (t : Text) : Prop := ∃ ws roles, LaidBlock n t ws roles

theorem blockEnd (level : Nat) {S : List Token.Context} {L : List Nat} (brace : Bool)
    (hS : S ≠ []) : Stands (BehindStatement brace (.block :: S) L)
      (Text.ofString "\n" ++ indentation level ++ Text.ofString "\x7d")
      [.line level, ⟨.rightBrace, "\x7d"⟩]
      (BehindStatement.filler brace ⟨.rightBrace, "\x7d"⟩ ++ [⟨.rightBrace, "\x7d"⟩])
      (BehindStatement true S L) := by
  refine .line level rfl (.rightBrace hS) ⟨_, _, rfl, by decide⟩ ⟨nofun, nofun⟩ fun p hp =>
    ⟨by simp [closesLoop], ?_⟩
  cases brace with
  | true => exact ⟨hp.toWithin.afterTerminator.toWithin, rfl⟩
  | false => exact ⟨hp.toWithin, hp.ends.1⟩

theorem shows_block {stop : Option Location}
    (h : ∀ n ∈ ns, n.comments = [] ∧ ShowsStatement .free false n (text (level + 1) n)) :
    ShowsBlock (.block ⟨loc, []⟩ stop [] ns) (text level (.block ⟨loc, []⟩ stop [] ns)) := by
  cases ns with
  | nil =>
    refine ⟨[⟨.rightBrace, "\x7d"⟩], _, ⟨_, _, rfl, by decide⟩,
      makes_block (x := "\x7b") (y := "\x7d") makesAll_lines_nil, fun hfits => ?_⟩
    exact Stands.leftBrace.append ((Stands.rightBrace hfits.ne_nil).weaken
      (fun _ hp => ⟨hp.toWithin, hp.ends.1⟩) fun _ hp => hp)
        fun _ _ => (Lexeme.endsName_cons _ _).2 (by decide)
  | cons n ns =>
    obtain ⟨ws, roles, brace, hmakes, hstands⟩ := shows_lines h false
    have hlines := makesAll_fillerBehind brace hmakes
    rw [text_block]
    refine ⟨ws ++ [.line level, ⟨.rightBrace, "\x7d"⟩], _, ⟨_, _, rfl, by decide⟩,
      makes_block (x := "\x7b") (y := "\x7d") hlines, fun hfits => ?_⟩
    have hall := Stands.leftBrace.append ((hstands (.braces hfits.loops)).append
      (blockEnd level brace hfits.ne_nil) fun _ _ => (Lexeme.endsName_cons _ _).2 (by decide))
        fun rest hrest => by
          rw [List.append_assoc]
          exact behind_line_endsName _ _ ((Lexeme.endsName_cons _ _).2 (by decide))
    simpa using hall

theorem ShowsBlock.statement (h : ShowsBlock n t) : ShowsStatement spot closed n t := by
  obtain ⟨ws, roles, h⟩ := h
  exact ⟨⟨.leftBrace, "\x7b"⟩, ws, roles, true, h.visibly, ⟨nofun, nofun⟩,
    makes_blockStatement h.makes, fun hfits =>
      (h.stands hfits).weaken (fun _ hp => hp.blockStart hfits.block) fun _ hp => hp⟩

/-! ### Handlers -/

structure LaidHandler (n : Node) (t : Text) (ws roles : List Word) : Prop where
  visibly : t.StartsVisibly
  makes : Makes ReadsHandler n roles
  stands {spot : Spot} {S : List Token.Context} {L : List Nat} (h : Fits spot S L) :
    Stands (BehindStatement true S L) t ws roles (BehindStatement true S L)

def ShowsHandler (n : Node) (t : Text) : Prop := ∃ ws roles, LaidHandler n t ws roles

theorem goingOn {S : List Token.Context} {L : List Nat} {ends : Place → Prop}
    (hx : Identifier.hasForm x) (hk : Lexeme.nameKind x = k)
    (hword : k = .catchWord ∨ k = .finallyWord) (hS : HoldsCode S)
    (hends : ∀ p, Within S L [] p → (p.after k).lastIs k → ends (p.after k)) :
    Stands (BehindStatement true S L) x [⟨k, x⟩] [⟨k, x⟩] ends := by
  have hkinds : k.ofStatement ∧ k ≠ .elseWord ∧ k ≠ .whileWord ∧ k ≠ .rightBrace := by
    rcases hword with rfl | rfl <;> decide
  obtain ⟨hof, helse, hwhile, hbrace⟩ := hkinds
  refine .ofStatement hx hk hof hS fun p hp => ⟨hp.toWithin, hp.lastIn_eq (by decide),
    endsBefore_inside helse hwhile hbrace, ?_⟩
  rw [leftBy_of_ne hwhile]
  exact hends p hp.toWithin (by simp [lastIs, Place.after])

theorem shows_catch (h : ShowsBlock n t) :
    ShowsHandler (.catchClause ⟨loc, []⟩ [] n)
      (Text.ofString "catch" ++ CodePoint.scalar ' ' :: t) := by
  obtain ⟨ws, roles, hblock⟩ := h
  refine ⟨⟨.catchWord, "catch"⟩ :: ⟨.leftBrace, "\x7b"⟩ :: ws, _, ⟨_, _, rfl, by decide⟩,
    makes_catch (x := "catch") hblock.makes, fun hfits => ?_⟩
  refine Stands.spaced (goingOn rfl rfl (.inl rfl) hfits.holdsCode fun p hp hlast => ?_)
    (hblock.stands hfits) hblock.visibly
  exact ⟨hp.toAmong.after_ofStatement rfl nofun, .inl (by rw [of_decide_eq_true hlast]; rfl)⟩

theorem shows_catchAs {loc' : Option Location} (hx : x.IsIdentifier) (h : ShowsBlock n t) :
    ShowsHandler (.catchClause ⟨loc, []⟩ [.name ⟨loc', []⟩ x] n)
      (Text.ofString "catch" ++ CodePoint.scalar ' ' ::
        (parenthesized x ++ CodePoint.scalar ' ' :: t)) := by
  obtain ⟨ws, roles, hblock⟩ := h
  refine ⟨headed ⟨.catchWord, "catch"⟩ [⟨Lexeme.nameKind x, x⟩] (⟨.leftBrace, "\x7b"⟩ :: ws), _,
    ⟨_, _, rfl, by decide⟩, makes_catchAs (y := "catch") hblock.makes, fun {spot S L} hfits => ?_⟩
  have hword : Stands (BehindStatement true S L) (Text.ofString "catch") [⟨.catchWord, "catch"⟩]
      [⟨.catchWord, "catch"⟩] (BeforeParen .head S L) :=
    goingOn rfl rfl (.inl rfl) hfits.holdsCode fun p hp _ => hp.after_opensHead rfl rfl
  exact hword.headed hfits.holdsCode (.ofSpelt (.name hx) hfits.ne_nil)
    ((hblock.stands hfits).weaken (fun _ hp => hp.blockStart) fun _ hp => hp) hblock.visibly

structure LaidMore (t : Text) (ws roles : List Word) : Prop where
  apart (rest : Text) (h : EndsName rest) : EndsName (t ++ rest)
  stands {spot : Spot} {S : List Token.Context} {L : List Nat} (h : Fits spot S L) :
    Stands (BehindStatement true S L) t ws roles (BehindStatement true S L)

theorem laidMore_nil : LaidMore [] [] [] := ⟨fun _ h => h, fun _ => .nil⟩

theorem shows_finally (h : ShowsBlock n t) : ∃ ws roles,
    LaidMore (Text.ofString " finally " ++ t) ws roles ∧ MakesAll Finally [n] roles := by
  obtain ⟨ws, roles, hblock⟩ := h
  refine ⟨⟨.finallyWord, "finally"⟩ :: ⟨.leftBrace, "\x7b"⟩ :: ws, _,
    ⟨fun _ _ => (Lexeme.endsName_cons _ _).2 (by decide), fun {spot S L} hfits => ?_⟩,
    makesAll_finally (x := "finally") hblock.makes⟩
  have hword : Stands (BehindStatement true S L) (Text.ofString "finally")
      [⟨.finallyWord, "finally"⟩] [⟨.finallyWord, "finally"⟩] (BlockStart S L) :=
    goingOn rfl rfl (.inr rfl) hfits.holdsCode fun p hp hlast =>
      ⟨hp.toAmong.after_ofStatement rfl nofun, .inl (by rw [of_decide_eq_true hlast]; rfl)⟩
  have hall := hword.spaced (hblock.stands hfits) hblock.visibly
  exact ⟨hall.toLaysOut.blank ⟨_, _, rfl, by decide⟩, hall.noArrow⟩

theorem shows_tryStmt {handler finalizer : Text} {wh rh wf rf : List Word} (h : ShowsBlock n t)
    (hhandler : LaidMore handler wh rh) (hmakes : MakesAll (Maybe ReadsHandler) es rh)
    (hfinalizer : LaidMore finalizer wf rf) (hmakes' : MakesAll Finally ns rf) :
    ShowsStatement spot closed (.tryStmt ⟨loc, []⟩ n es ns)
      (Text.ofString "try" ++ CodePoint.scalar ' ' :: (t ++ (handler ++ finalizer))) := by
  obtain ⟨ws, roles, hblock⟩ := h
  refine ⟨⟨.tryWord, "try"⟩, ⟨.leftBrace, "\x7b"⟩ :: ws ++ (wh ++ wf), _, true,
    ⟨_, _, rfl, by decide⟩, ⟨nofun, nofun⟩,
    makes_tryStmt (x := "try") hblock.makes hmakes hmakes', fun {S L} hfits => ?_⟩
  have hword : Stands (StatementStart spot .tryWord S L) (Text.ofString "try") [⟨.tryWord, "try"⟩]
      [⟨.tryWord, "try"⟩] (BlockStart S L) :=
    .opening rfl rfl rfl rfl nofun hfits fun p hp hlast =>
      ⟨hp.toAmong.after_ofStatement rfl nofun, .inl (by rw [of_decide_eq_true hlast]; rfl)⟩
  have hmore := (hhandler.stands hfits).append (hfinalizer.stands hfits) hfinalizer.apart
  refine hword.spaced ((hblock.stands hfits).append hmore fun rest hrest => ?_)
    (hblock.visibly.append _)
  rw [List.append_assoc]
  exact hhandler.apart _ (hfinalizer.apart _ hrest)

/-! ## Trees -/

def ShowsNested : StatementPart → Node → Text → Prop
  | .statement spot closed => ShowsStatement spot closed
  | .block => ShowsBlock
  | .handler => ShowsHandler

theorem comments_of_nested {part : StatementPart} (h : n.IsNested part) : n.comments = [] := by
  induction h with
  | declaration h =>
    cases h
    rfl
  | inBlock _ ih => exact ih
  | _ => rfl

theorem behindHead_eq (h : n.comments = []) (t : Text) :
    behindHead n t = CodePoint.scalar ' ' :: t := by
  simp only [behindHead, h, inlineComments, List.flatMap_nil, List.append_nil]
  rfl

theorem text_ifStmt (level : Nat) (e : Node) (h : n.comments = []) :
    text level (.ifStmt ⟨loc, []⟩ e n []) = Text.ofString "if" ++ CodePoint.scalar ' ' ::
      (parenthesized (placed 0 e (text level e)) ++ CodePoint.scalar ' ' :: text level n) := by
  have hopen : Text.ofString "if " = Text.ofString "if" ++ [CodePoint.scalar ' '] := rfl
  have htext : text level (.ifStmt ⟨loc, []⟩ e n []) = Text.ofString "if " ++
      parenthesized (placed 0 e (text level e)) ++ behindHead n (text level n) ++ [] := rfl
  simp [htext, behindHead_eq h, hopen]

theorem text_ifElse (level : Nat) (e : Node) (h : n.comments = []) (h' : m.comments = []) :
    text level (.ifStmt ⟨loc, []⟩ e n [m]) = Text.ofString "if" ++ CodePoint.scalar ' ' ::
      (parenthesized (placed 0 e (text level e)) ++ CodePoint.scalar ' ' :: (text level n ++
        CodePoint.scalar ' ' ::
          (Text.ofString "else" ++ CodePoint.scalar ' ' :: text level m))) := by
  have hopen : Text.ofString "if " = Text.ofString "if" ++ [CodePoint.scalar ' '] := rfl
  have helse : Text.ofString " else" = CodePoint.scalar ' ' :: Text.ofString "else" := rfl
  have htext : text level (.ifStmt ⟨loc, []⟩ e n [m]) = Text.ofString "if " ++
      parenthesized (placed 0 e (text level e)) ++ behindHead n (text level n) ++
        (Text.ofString " else" ++ behindHead m (text level m) ++ []) := rfl
  simp [htext, behindHead_eq h, behindHead_eq h', hopen, helse]

theorem text_whileStmt (level : Nat) (e : Node) (h : n.comments = []) :
    text level (.whileStmt ⟨loc, []⟩ e n) = Text.ofString "while" ++ CodePoint.scalar ' ' ::
      (parenthesized (placed 0 e (text level e)) ++ CodePoint.scalar ' ' :: text level n) := by
  have hopen : Text.ofString "while " = Text.ofString "while" ++ [CodePoint.scalar ' '] := rfl
  have htext : text level (.whileStmt ⟨loc, []⟩ e n) = Text.ofString "while " ++
      parenthesized (placed 0 e (text level e)) ++ behindHead n (text level n) := rfl
  simp [htext, behindHead_eq h, hopen]

theorem text_doWhile (level : Nat) (e : Node) (h : n.comments = []) :
    text level (.doWhile ⟨loc, []⟩ n e) = Text.ofString "do" ++ CodePoint.scalar ' ' ::
      (text level n ++ CodePoint.scalar ' ' :: (Text.ofString "while" ++ CodePoint.scalar ' ' ::
        (parenthesized (placed 0 e (text level e)) ++ Text.ofString ";"))) := by
  have hwhile : Text.ofString " while " =
      CodePoint.scalar ' ' :: (Text.ofString "while" ++ [CodePoint.scalar ' ']) := rfl
  have htext : text level (.doWhile ⟨loc, []⟩ n e) = Text.ofString "do" ++
      behindHead n (text level n) ++ Text.ofString " while " ++
        parenthesized (placed 0 e (text level e)) ++ Text.ofString ";" := rfl
  simp [htext, behindHead_eq h, hwhile]

theorem text_forIn (level : Nat) (kind : VarKind) (runs : Iteration) (loc' : Option Location)
    (x : Text) (e : Node) (h : n.comments = []) :
    text level (.forIn ⟨loc, []⟩ kind runs (.name ⟨loc', []⟩ x) e n) =
      Text.ofString "for" ++ CodePoint.scalar ' ' ::
        (parenthesized (kind.word.text ++ CodePoint.scalar ' ' :: (x ++ CodePoint.scalar ' ' ::
          (runs.word.text ++ CodePoint.scalar ' ' ::
            placed Precedence.assign e (text level e)))) ++ CodePoint.scalar ' ' ::
              text level n) := by
  have hopen : Text.ofString "for " = Text.ofString "for" ++ [CodePoint.scalar ' '] := rfl
  have hblank : Text.ofString " " = [CodePoint.scalar ' '] := rfl
  have hkind : kind.text = kind.word.text := by cases kind <;> rfl
  have hruns : runs.text = runs.word.text := by cases runs <;> rfl
  have htext : text level (.forIn ⟨loc, []⟩ kind runs (.name ⟨loc', []⟩ x) e n) =
      Text.ofString "for " ++ parenthesized (kind.text ++ Text.ofString " " ++ x ++
        Text.ofString " " ++ runs.text ++ Text.ofString " " ++
          placed Precedence.assign e (text level e)) ++ behindHead n (text level n) := rfl
  simp [htext, behindHead_eq h, hopen, hblank, hkind, hruns]

theorem forText_eq (first : Text) (level : Nat) (test update : List Node) (h : n.comments = []) :
    Text.ofString "for " ++ parenthesized (first ++ Text.ofString ";" ++
      behind " " (placedAll 0 test (texts level test)) ++ Text.ofString ";" ++
        behind " " (placedAll 0 update (texts level update))) ++ behindHead n (text level n) =
      forText first level test update (text level n) := by
  have hopen : Text.ofString "for " = Text.ofString "for" ++ [CodePoint.scalar ' '] := rfl
  simp [behindHead_eq h, hopen, forText]

theorem text_forStmt_none (level : Nat) (test update : List Node) (h : n.comments = []) :
    text level (.forStmt ⟨loc, []⟩ [] test update n) =
      forText [] level test update (text level n) :=
  forText_eq [] level test update h

theorem text_forStmt_expression (level : Nat) (test update : List Node) (he : e.IsOperatorTree)
    (h : n.comments = []) :
    text level (.forStmt ⟨loc, []⟩ [e] test update n) =
      forText (placed 0 e (text level e)) level test update (text level n) := by
  rw [← forText_eq _ level test update h]
  cases he <;> rfl

theorem text_forStmt_declaration (level : Nat) (head : Head) (kind : VarKind)
    (test update : List Node) (h : n.comments = []) :
    text level (.forStmt ⟨loc, []⟩ [.varDecl head kind ns] test update n) =
      forText (varDecl kind (texts level ns)) level test update (text level n) :=
  forText_eq _ level test update h

theorem shows_counting {initial test update : List Node} (hinitial : IsLoopStart initial)
    (htest : IsOptional test) (hupdate : IsOptional update) (hcomments : n.comments = [])
    (h : ShowsStatement spot.inner closed n (text level n)) :
    ShowsStatement spot closed (.forStmt ⟨loc, []⟩ initial test update n)
      (text level (.forStmt ⟨loc, []⟩ initial test update n)) := by
  have hends (u : Text) : ∀ rest, EndsName rest → EndsName (Text.ofString ";" ++ u ++ rest) :=
    fun _ _ => (Lexeme.endsName_cons _ _).2 (by decide)
  cases hinitial with
  | expression he =>
    cases he with
    | none =>
      rw [text_forStmt_none level test update hcomments]
      exact shows_forStmt []
        (fun hrest => hrest.weaken (fun _ hp => ExpressionStart.toWithin hp) fun _ hp => hp)
        (makesAll_loopStart makesAll_missing) htest hupdate h level
    | some he =>
      obtain ⟨we, hspelt, -, hmakes⟩ := showsExpression he level 0
      rw [text_forStmt_expression level test update he hcomments]
      exact shows_forStmt _ (fun hrest => hspelt.stands (holdsCode_head _) hrest ⟨nofun, nofun⟩
        (hends _)) (makesAll_loopStart (makesAll_given hmakes)) htest hupdate h level
  | declaration hdeclaration =>
    have hall := hdeclaration
    obtain @⟨loc, kind, m, ms, -, -⟩ := hdeclaration
    obtain ⟨t, ws, htext, hspelt, hvisibly, hmakes⟩ := showsDeclaration hall level
    rw [text_forStmt_declaration level _ kind test update hcomments, htext]
    refine shows_forStmt (kind.word :: ws.map Word.raw) (fun hrest => ?_)
      (makesAll_loopDeclaration hmakes) htest hupdate h level
    have hall := (Stands.declaring kind (holdsCode_head _)).spaced
      (hspelt.stands (holdsCode_head _) hrest ⟨nofun, nofun⟩ (hends _)) (hvisibly.append _)
    simpa using hall

theorem shows_handlers (h : ∀ m ∈ es, m.comments = [] ∧ ShowsHandler m (text level m))
    (hone : es.length ≤ 1) : ∃ ws roles, LaidMore (behind " " (texts level es)) ws roles ∧
      MakesAll (Maybe ReadsHandler) es roles := by
  match es, hone with
  | [], _ => exact ⟨[], [], laidMore_nil, makesAll_missing⟩
  | [m], _ =>
    obtain ⟨-, ws, roles, hlaid⟩ := List.forall_mem_singleton.1 h
    have htext : behind " " (texts level [m]) = CodePoint.scalar ' ' :: text level m :=
      List.append_nil _
    rw [htext]
    exact ⟨ws, roles, ⟨fun _ _ => (Lexeme.endsName_cons _ _).2 (by decide), fun hfits =>
      ⟨(hlaid.stands hfits).toLaysOut.blank hlaid.visibly, (hlaid.stands hfits).noArrow⟩⟩,
      makesAll_given hlaid.makes⟩

theorem shows_finalizers (h : ∀ m ∈ ns, ShowsBlock m (text level m)) (hone : ns.length ≤ 1) :
    ∃ ws roles, LaidMore (behind " finally " (texts level ns)) ws roles ∧
      MakesAll Finally ns roles := by
  match ns, hone with
  | [], _ => exact ⟨[], [], laidMore_nil, makesAll_noFinally⟩
  | [m], _ =>
    have htext : behind " finally " (texts level [m]) = Text.ofString " finally " ++ text level m :=
      List.append_nil _
    rw [htext]
    exact shows_finally (h m List.mem_cons_self)

/-- Each tree of statements is printed as what is read as the tree. -/
theorem shows_nested {part : StatementPart} (h : n.IsNested part) (level : Nat) :
    ShowsNested part n (text level n) := by
  induction h generalizing level with
  | @expression loc spot closed e h =>
    have htext : text level (.exprStmt ⟨loc, []⟩ e) =
        placed 0 e (text level e) ++ Text.ofString ";" := by
      change (if startsAmbiguously e then parenthesized (placed 0 e (text level e))
        else placed 0 e (text level e)) ++ Text.ofString ";" = _
      rw [startsAmbiguously_eq h]
      rfl
    rw [htext]
    exact shows_exprStmt (showsExpression h level 0)
  | empty => exact shows_emptyStmt
  | declaration h =>
    have hall := h
    obtain @⟨loc, kind, n, ns, -, -⟩ := h
    obtain ⟨t, ws, htext, hspelt, hvisibly, hmakes⟩ := showsDeclaration hall level
    have htext' : text level (.varDecl ⟨loc, []⟩ kind (n :: ns)) =
        kind.word.text ++ (CodePoint.scalar ' ' :: t ++ Text.ofString ";") := by
      change varDecl kind (texts level (n :: ns)) ++ Text.ofString ";" = _
      rw [htext, List.append_assoc]
    rw [htext']
    exact showsPlain (k := kind.word.kind) (by cases kind <;> rfl) (by cases kind <;> rfl)
      (by cases kind <;> decide) (hspelt.blank hvisibly) (fun _ => endsName_blank t)
      (makes_varDecl hmakes)
  | @returns loc spot closed es h =>
    obtain ⟨ws, hspelt, hmakes⟩ := showsOptional h level
    have htext : text level (.returnStmt ⟨loc, []⟩ es) = Text.ofString "return" ++
        (behind " " (placedAll 0 es (texts level es)) ++ Text.ofString ";") :=
      List.append_assoc _ _ _
    rw [htext]
    exact showsPlain rfl rfl (by decide) hspelt (fun _ => behind_endsName (by decide) _)
      (makes_returnStmt hmakes)
  | @throws loc spot closed e h =>
    obtain ⟨ws, hspelt, hvisibly, hmakes⟩ := showsExpression h level 0
    have htext : text level (.throwStmt ⟨loc, []⟩ e) = Text.ofString "throw" ++
        (CodePoint.scalar ' ' :: placed 0 e (text level e) ++ Text.ofString ";") := rfl
    rw [htext]
    exact showsPlain rfl rfl (by decide) (hspelt.blank hvisibly) (fun _ => endsName_blank _)
      (makes_throwStmt hmakes)
  | breaks =>
    exact showsPlain (x := "break") rfl rfl (by decide) .nil (fun _ h => h) makes_breakStmt
  | continues =>
    exact showsPlain (x := "continue") rfl rfl (by decide) .nil (fun _ h => h) makes_continueStmt
  | ifThen he h ih =>
    rw [text_ifStmt level _ (comments_of_nested h)]
    exact shows_ifStmt (showsExpression he level 0) (ih level)
  | ifElse he h helse ih ihelse =>
    rw [text_ifElse level _ (comments_of_nested h) (comments_of_nested helse)]
    exact shows_ifElse (showsExpression he level 0) (ih level) (ihelse level)
  | counting hinitial htest hupdate h ih =>
    exact shows_counting hinitial htest hupdate (comments_of_nested h) (ih level)
  | iterating kind runs hx he h ih =>
    rw [text_forIn level kind runs _ _ _ (comments_of_nested h)]
    exact shows_forIn kind runs hx (showsExpression he level _) (ih level)
  | whileLoop hspot he h ih =>
    rw [text_whileStmt level _ (comments_of_nested h)]
    exact shows_whileStmt hspot (showsExpression he level 0) (ih level)
  | doLoop he h ih =>
    rw [text_doWhile level _ (comments_of_nested h)]
    exact shows_doWhile (ih level) (showsExpression he level 0)
  | @tries loc spot closed n handler finalizer h hhandler hone hfinalizer hone' ih ihhandler
    ihfinalizer =>
    obtain ⟨wh, rh, hlaid, hmakes⟩ := shows_handlers
      (fun m hm => ⟨comments_of_nested (hhandler m hm), ihhandler m hm level⟩) hone
    obtain ⟨wf, rf, hlaid', hmakes'⟩ := shows_finalizers (fun m hm => ihfinalizer m hm level) hone'
    have hopen : Text.ofString "try " = Text.ofString "try" ++ [CodePoint.scalar ' '] := rfl
    have hall : ShowsStatement spot closed (.tryStmt ⟨loc, []⟩ n handler finalizer) _ :=
      shows_tryStmt (ih level) hlaid hmakes hlaid' hmakes'
    have htext : text level (.tryStmt ⟨loc, []⟩ n handler finalizer) = Text.ofString "try " ++
        text level n ++ behind " " (texts level handler) ++
          behind " finally " (texts level finalizer) := rfl
    simpa [ShowsNested, htext, hopen] using hall
  | inBlock _ ih => exact (ih level).statement
  | block h ih =>
    exact shows_block fun n hn => ⟨comments_of_nested (h n hn), ih n hn (level + 1)⟩
  | @catches loc n h ih =>
    have htext : text level (.catchClause ⟨loc, []⟩ [] n) =
        Text.ofString "catch" ++ CodePoint.scalar ' ' :: text level n := rfl
    exact htext ▸ shows_catch (ih level)
  | @catchesAs loc loc' x n hx h ih =>
    have hblank : Text.ofString " " = [CodePoint.scalar ' '] := rfl
    have hall : ShowsHandler (.catchClause ⟨loc, []⟩ [.name ⟨loc', []⟩ x] n) _ :=
      shows_catchAs hx (ih level)
    have htext : text level (.catchClause ⟨loc, []⟩ [.name ⟨loc', []⟩ x] n) =
        Text.ofString "catch" ++ (Text.ofString " " ++ parenthesized x ++ []) ++
          Text.ofString " " ++ text level n := rfl
    simpa [ShowsNested, htext, hblank] using hall

/-! ## Programs -/

theorem flatMap_lines (t : Text) (ts : List Text) :
    ((t :: ts).flatMap fun t => t ++ Text.ofString "\n") =
      t ++ (behind "\n" ts ++ Text.ofString "\n") := by
  induction ts generalizing t with
  | nil => simp [behind]
  | cons u ts ih =>
    rw [List.flatMap_cons, ih u, behind_cons]
    simp

/-- The text of a program is cut into words that get the roles of its statements. Behind them there
is a line break. -/
theorem shows_program (h : ∀ n ∈ ns, n.IsNested (.statement .free false)) :
    ∃ ws ls roles q, Spells ((lines 0 ns).flatMap fun t => t ++ Text.ofString "\n") (ws ++ ls) ∧
      (∀ l ∈ ls, l.kind = .newline) ∧ Lays .ofModule ws roles q NoArrow ∧
        MakesAll Lines ns roles := by
  have hshows : ∀ n ∈ ns, n.comments = [] ∧ ShowsStatement .free false n (text 0 n) :=
    fun n hn => ⟨comments_of_nested (h n hn), shows_nested (h n hn) 0⟩
  cases ns with
  | nil => exact ⟨[], [], [], _, .nil, by simp, lays_nil, makesAll_lines_nil⟩
  | cons n ns =>
    obtain ⟨⟨hcomments, w, wn, rn, brace, hlaid⟩, hns⟩ := List.forall_mem_cons.1 hshows
    obtain ⟨ws, roles, brace', hmakes, hstands⟩ := shows_lines hns brace
    have hall := (hlaid.stands Fits.ofModule).append (hstands Fits.ofModule)
      (behind_line_endsName _)
    have hstart := behindStatement_ofModule.statementStart w.kind
    obtain ⟨q, -, hlays⟩ := hall.lays hstart
    refine ⟨_, [⟨.newline, "\n"⟩], _, q, ?_, by simp, hlays,
      makesAll_lines_cons hlaid.makes hmakes⟩
    have hline : Spells (Text.ofString "\n") [⟨.newline, "\n"⟩] :=
      .word (w := ⟨.newline, "\n"⟩) (List.cons_ne_nil _ _) (next?_newline (.inl rfl)) .nil
    have hends : EndsName (Text.ofString "\n") := (Lexeme.endsName_cons _ _).2 (by decide)
    have hspells := hall.cut _ _ hends hline
    have htext : line 0 n.comments (text 0 n) = text 0 n := by
      simp [line, hcomments, indentation, Text.filled]
    rw [lines, flatMap_lines, htext]
    simpa using hspells

end Print

namespace Node

open Grammar

/-- **Nested statements survive printing.** A program of statements, nested in each other to any
depth, is read back from its text. -/
theorem readProgram_statements {ns : List Node}
    (h : ∀ n ∈ ns, n.IsNested (.statement .free false)) (loc : Option Location)
    (file : Option Text) :
    ∃ p, readProgram (programText (.program ⟨loc, []⟩ [] ns)) file = .ok p ∧
      p.unplaced = (Node.program .fresh [] ns).unplaced := by
  have htext : programText (.program ⟨loc, []⟩ [] ns) =
      (Print.lines 0 ns).flatMap fun t => t ++ Text.ofString "\n" := by
    change ((Print.lines 0 ns ++ []).flatMap _) = _
    rw [List.append_nil]
  obtain ⟨ws, ls, roles, q, hspells, hls, hlays, hmakes⟩ := Print.shows_program h
  obtain ⟨tokens, hscan, htokens⟩ := Scan.scan_spelt hspells
  obtain ⟨ts, us, rfl, hts, hus⟩ := List.map_eq_append_iff.1 htokens
  have hlines : ∀ u ∈ us, u.kind = .newline := fun u hu =>
    hls u.word (hus ▸ List.mem_map_of_mem hu)
  obtain ⟨vs, last, hplaced, hvs⟩ := hlays false none ts us hts fun w hw => by
    rw [hls w (hus ▸ hw)]
    decide
  have hend : placeFrom false q false last us = [] := by
    rw [← List.append_nil us, placeFrom_lines hlines]
    cases last <;> rfl
  rw [hend, List.append_nil] at hplaced
  -- what ends the module is a filler at most
  obtain ⟨zs, hmodule, hzs⟩ : ∃ zs, placeFrom true .ofModule false none (ts ++ us) =
      placeFrom false .ofModule false none (ts ++ us) ++ zs ∧ _ := placeFrom_module
    (fun t ht => hspells.kind_of_semicolon t.word (htokens ▸ List.mem_map_of_mem ht)) (by simp) _ _
  obtain ⟨ns', hns, hread⟩ := hmakes vs hvs
  have hall : Lines ns' (Token.placeModule (ts ++ us)) := by
    rw [Token.placeModule, hmodule, hplaced]
    rcases hzs with rfl | ⟨z, rfl, hz, hne⟩
    · rwa [List.append_nil]
    · exact hread.append_filler hz hne
  rw [htext]
  exact ⟨_, readProgram_eq hscan (hall.statements_eq (Nat.le_refl _) _),
    by simp [unplacedOfList_eq_map, hns, Head.fresh]⟩

/-- An `else` behind a loop behind an `if`, in the body of a do-loop that starts with another
loop. -/
def nestedLoops : Node :=
  let a : Node := .name .fresh "a"
  let b : Node := .name .fresh "b"
  let inner : Node := .forIn .fresh .const .values b a (.breakStmt .fresh)
  let tried : Node := .tryStmt .fresh (.block .fresh none [] [.throwStmt .fresh a])
    [.catchClause .fresh [b] (.block .fresh none [] [])] []
  .doWhile .fresh (.whileStmt .fresh a (.ifStmt .fresh b inner [.block .fresh none [] [tried]])) b

theorem nestedLoops_isNested : nestedLoops.IsNested (.statement .free false) := by
  have ha : IsOperatorTree (.name .fresh "a") := .name ⟨rfl, rfl⟩
  have hb : IsOperatorTree (.name .fresh "b") := .name ⟨rfl, rfl⟩
  have hinner : IsNested (.statement .inDo true) (.forIn .fresh .const .values (.name .fresh "b")
      (.name .fresh "a") (.breakStmt .fresh)) := .iterating .const .values ⟨rfl, rfl⟩ ha .breaks
  have htried : IsNested (.statement .free false) (.tryStmt .fresh
      (.block .fresh none [] [.throwStmt .fresh (.name .fresh "a")])
      [.catchClause .fresh [.name .fresh "b"] (.block .fresh none [] [])] []) :=
    .tries (.block (List.forall_mem_singleton.2 (.throws ha)))
      (List.forall_mem_singleton.2 (.catchesAs ⟨rfl, rfl⟩ (.block (by simp)))) (Nat.le_refl 1)
      (by simp) (Nat.zero_le 1)
  exact .doLoop hb (.whileLoop (by decide) ha (.ifElse hb hinner
    (.inBlock (.block (List.forall_mem_singleton.2 htried)))))

theorem readProgram_statements_nestedLoops :
    programText (.program .fresh [] [nestedLoops]) =
        "do while (a) if (b) for (const b of a) break; else \x7b\n  try \x7b\n" ++
          "    throw a;\n  \x7d catch (b) \x7b\x7d\n\x7d while (b);\n" ∧
      (∀ n ∈ [nestedLoops], n.IsNested (.statement .free false)) ∧
        ∃ p, readProgram (programText (.program .fresh [] [nestedLoops])) none = .ok p ∧
          p.unplaced = (Node.program .fresh [] [nestedLoops]).unplaced :=
  have hall : ∀ n ∈ [nestedLoops], n.IsNested (.statement .free false) :=
    List.forall_mem_singleton.2 nestedLoops_isNested
  ⟨by decide, hall, readProgram_statements hall none none⟩

end Node

end InlineTemplates
