import InlineTemplates.Proofs.ValueReading
import InlineTemplates.Template.Compiler

/-!
# Errors that are thrown at run time

In the place of a template that its compiler refuses there can stand a call that throws the reason.
It is read back from its text, whatever the reason is: the literal of a text ends at its closing
quote, and says the text.
-/

namespace InlineTemplates

open Lexeme (Spells)
open Token (Place)
open Token.Place (Lays NoArrow)

/-! ## Texts -/

namespace Print

variable {n : Node}

theorem text_block_single (level : Nat) (h : n.comments = []) :
    text level (.block .fresh none [] [n]) =
      Text.ofString "\x7b" ++ (Text.ofString "\n" ++ indentation (level + 1) ++
        (text (level + 1) n ++
          (Text.ofString "\n" ++ indentation level ++ Text.ofString "\x7d"))) := by
  rw [text_block]
  simp [lines, line, h, behind]

theorem text_function (level : Nat) (body : Node) :
    text level (.function .fresh false [] [] body) =
      Text.ofString "function" ++ (Text.ofString "(" ++ (Text.ofString ")" ++
        CodePoint.scalar ' ' :: text level body)) := rfl

theorem text_throwStmt (level : Nat) (h : n.comments = []) :
    text level (.throwStmt .fresh n) =
      Text.ofString "throw" ++ CodePoint.scalar ' ' :: (text level n ++ Text.ofString ";") := by
  have hplaced : placed 0 n (text level n) = text level n := by simp [placed, h, inlineComments]
  have hthrow : text level (.throwStmt .fresh n) =
      Text.ofString "throw " ++ placed 0 n (text level n) ++ Text.ofString ";" := rfl
  rw [hthrow, hplaced, List.append_assoc]
  rfl

theorem text_error (level : Nat) (message : Text) :
    text level (.new .fresh (.name .fresh "Error") [.literal .fresh (.str message)]) =
      Text.ofString "new" ++ CodePoint.scalar ' ' :: (Text.ofString "Error" ++
        (Text.ofString "(" ++ (message.stringLiteral ++ Text.ofString ")"))) := by
  have hnew : text level (.new .fresh (.name .fresh "Error") [.literal .fresh (.str message)]) =
      "new " ++ "Error" ++ parenthesized (commas [message.stringLiteral]) := rfl
  rw [hnew, parenthesized, commas, Text.join, List.intercalate_singleton, List.append_assoc,
    List.append_assoc]
  rfl

/-- A function that is called where it stands needs parentheses. -/
theorem expressionText_invoked (level : Nat) (body : Node) :
    Node.expressionText (.call .fresh false (.function .fresh false [] [] body) []) level 0 =
      Text.ofString "(" ++ (text level (.function .fresh false [] [] body) ++
        (Text.ofString ")" ++ (Text.ofString "(" ++ Text.ofString ")"))) := by
  have hcall (t : Text) :
      placed 0 (.call .fresh false (.function .fresh false [] [] body) []) t = t := rfl
  have hfunction (t : Text) :
      placed 13 (.function .fresh false [] [] body) t = parenthesized t := rfl
  rw [Node.expressionText, hcall, text_call, hfunction]
  simp [parenthesized, commas, Text.join, chain]

end Print

/-! ## Roles -/

namespace Token.Place

/-- From `p` on, the words get the roles, if no arrow function starts behind them either. -/
def Plays (p : Place) (ws roles : List Word) : Prop :=
  NoArrow ws ∧ ∃ q, Lays p ws roles q NoArrow

namespace Plays

variable {p : Place} {j k : Kind} {x : Text} {ws roles : List Word}

theorem nil : Plays p [] [] := ⟨by simp [NoArrow], p, lays_nil⟩

theorem append {q : Place} {vs roles' : List Word} (hvs : NoArrow vs)
    (h : Lays p vs roles' q NoArrow) (h' : Plays q ws roles) :
    Plays p (vs ++ ws) (roles' ++ roles) := by
  obtain ⟨hws, q', hlays⟩ := h'
  exact ⟨List.forall_mem_append.2 ⟨hvs, hws⟩, q',
    h.trans hlays fun rest hrest => List.forall_mem_append.2 ⟨hws, hrest⟩⟩

/-- Whether a token of kind `j` gets the role `k`, where it is no name and no statement ends. -/
structure Fits (p : Place) (newline : Bool) (j k : Kind) : Prop where
  kind : j ∉ [.newline, .semicolon, .name, .arrow]
  place : p.loops = [] ∧ p.endsBefore j newline = false ∧ p.closedBy k ≠ some .loopTail
  role (next : Option Kind) : p.fixedRole j next = k

theorem behindLines (ls : List Word) (hls : ∀ l ∈ ls, l.kind = .newline)
    (hp : Fits p (!ls.isEmpty) j k) (h : Plays (p.after k) ws roles) :
    Plays p (ls ++ ⟨j, x⟩ :: ws) (⟨k, x⟩ :: roles) := by
  obtain ⟨hkind, ⟨hloops, hends, hopen⟩, hrole⟩ := hp
  simp only [List.mem_cons, List.not_mem_nil, or_false, not_or] at hkind
  obtain ⟨hline, hsemicolon, hname, harrow⟩ := hkind
  have hlays := lays_fixed (w := ⟨j, x⟩) hls hloops (by simp [hline, hsemicolon, hname]) hends
    hopen hrole fun _ _ (hahead : NoArrow _) => hahead
  have hlsw : NoArrow (ls ++ [⟨j, x⟩]) := by
    refine List.forall_mem_append.2 ⟨fun l hl => ?_, by simpa using harrow⟩
    rw [hls l hl]
    decide
  simpa using append hlsw hlays h

theorem word (hp : Fits p false j k) (h : Plays (p.after k) ws roles) :
    Plays p (⟨j, x⟩ :: ws) (⟨k, x⟩ :: roles) := behindLines [] (by simp) hp h

theorem line (level : Nat) (hp : Fits p true j k) (h : Plays (p.after k) ws roles) :
    Plays p (.line level :: ⟨j, x⟩ :: ws) (⟨k, x⟩ :: roles) :=
  behindLines [.line level] (by simp [Word.line]) hp h

theorem name (hx : x ∉ ([("of" : Text), "async"] : List Text))
    (hp : p.loops = [] ∧ p.inClause = false ∧ p.startsMember = false ∧
      p.endsBefore .name false = false ∧ p.closedBy .name ≠ some .loopTail)
    (h : Plays (p.after .name) ws roles) : Plays p (⟨.name, x⟩ :: ws) (⟨.name, x⟩ :: roles) := by
  obtain ⟨hloops, hclause, hmember, hends, hopen⟩ := hp
  simp only [List.mem_cons, List.not_mem_nil, or_false, not_or] at hx
  have hne : (⟨.name, x⟩ : Word).kind ≠ .newline ∧ (⟨.name, x⟩ : Word).kind ≠ .semicolon :=
    ⟨nofun, nofun⟩
  have hname : NoArrow [⟨.name, x⟩] := by simp [NoArrow]
  refine append hname (lays_step [] (by simp) hloops hne.1 hne.2 hends hopen ?_) h
  intro t rest ht hrest
  obtain ⟨hkind, htext⟩ := Word.mk.inj ht
  rw [role_of_name hkind]
  simp [nameRole, hclause, hmember, htext, hx]

theorem semicolon (h : Plays p.afterTerminator ws roles) :
    Plays p (⟨.semicolon, ";"⟩ :: ws) (⟨.terminator, ";"⟩ :: roles) :=
  append (by simp [NoArrow]) (lays_semicolon p NoArrow) h

end Plays

end Token.Place

/-! ## Reading -/

namespace Grammar

open Parse

variable {r : Reader} {rules : Rules} {e body : Node} {t o c : Token} {ts : List Token}

theorem statement_throw {z : Token} (ht : t.kind = .throwWord)
    (h : (Phrase.assign e).IsRead r rules ts) (hz : z.kind = .terminator) (rest : List Token) :
    statement r (above r rules) (t :: (ts ++ z :: rest)) =
      .ok (⟨.ok (.throwStmt (.ofLoc t.start) e), false⟩, rest) := by
  have hvalue := h (z :: rest) (endsBelow_cons (by rw [hz]; decide))
  have hthrow : (do
      let _ ← next
      return (← (above r rules).assign).map (.throwStmt (.ofLoc t.start) ·) : Parse Draft)
      (t :: (ts ++ z :: rest)) = .ok (.ok (.throwStmt (.ofLoc t.start) e), z :: rest) := by
    rw [run_next, above_assign, run_bind hvalue]
    rfl
  have hterminated : terminated (do
      let _ ← next
      return (← (above r rules).assign).map (.throwStmt (.ofLoc t.start) ·))
      (t :: (ts ++ z :: rest)) = .ok (.ok (.throwStmt (.ofLoc t.start) e), rest) := by
    rw [terminated, run_bind hthrow, run_expect hz]
    rfl
  rw [statement, run_peek]
  simp only [ht]
  rw [run_bind hterminated]
  rfl

theorem block_single (ho : o.kind = .blockBrace) (ht : t.kind ≠ .rightBrace)
    (h : ∀ rest, rules.statement (t :: ts ++ rest) = .ok (⟨.ok e, false⟩, rest))
    (hc : c.kind = .rightBrace) (rest : List Token) :
    block rules (o :: (t :: ts ++ c :: rest)) =
      .ok (.ok (.block (.ofLoc o.start) (some c.stop) [] [e]), rest) := by
  have hlines : listUpTo .rightBrace rules.statement (t :: ts ++ c :: rest) =
      .ok ([⟨.ok e, false⟩], c :: rest) := by
    refine run_bind (loop_of_runs (.step
      (show _ = Except.ok (some ([⟨.ok e, false⟩] : List Line), c :: rest) from ?_) ?_
      (.stop ?_))) _
    · rw [run_atKind, if_neg (by simpa using ht), run_bind (h _)]
      rfl
    · simp only [List.length_append, List.length_cons]
      omega
    · rw [run_atKind, if_pos (by simp [hc])]
      rfl
  rw [block, run_expect ho, run_bind hlines, run_expect hc]
  rfl

theorem isRead_function (ht : t.kind = .functionWord) (ho : o.kind = .leftParen)
    (hc : c.kind = .rightParen)
    (hbody : ∀ rest, block rules (ts ++ rest) = .ok (.ok body, rest)) :
    (Phrase.primary (.function (.ofLoc t.start) false [] [] body)).IsRead r rules
      (t :: o :: c :: ts) := by
  intro rest
  have hparams : params rules (c :: (ts ++ rest)) = .ok (.ok [], ts ++ rest) := by
    have hnone := commaList_none (param rules) c (ts ++ rest)
    rw [hc] at hnone
    rw [params, run_bind hnone]
    rfl
  have hparts : paramsAndBlock rules (o :: c :: (ts ++ rest)) = .ok (.ok ([], body), rest) := by
    rw [paramsAndBlock, run_expect ho, run_bind hparams, run_bind (hbody rest)]
    rfl
  have hasync : (t :: o :: c :: (ts ++ rest)).head?.map Token.kind ≠ some .asyncWord := by
    simp [ht]
  have hname : (o :: c :: (ts ++ rest)).head?.map Token.kind ≠ some .name := by simp [ho]
  have hfunction : functionExpression rules (t :: o :: c :: (ts ++ rest)) =
      .ok (.ok (.function (.ofLoc t.start) false [] [] body), rest) := by
    rw [functionExpression, run_here, run_accept?_none hasync, run_expect ht,
      run_accept?_none hname, run_bind hparts]
    rfl
  simp only [List.cons_append, Grammar.primary, run_peek, ht]
  exact hfunction

/-- The words of a function that throws what the words in between say. -/
def functionWords (ws : List Word) : List Word :=
  ⟨.functionWord, "function"⟩ :: ⟨.leftParen, "("⟩ :: ⟨.rightParen, ")"⟩ ::
    ⟨.blockBrace, "\x7b"⟩ :: ⟨.throwWord, "throw"⟩ ::
      (ws ++ [⟨.terminator, ";"⟩, ⟨.rightBrace, "\x7d"⟩])

/-- The words of a call without arguments of what the words in between say. -/
def invokedWords (ws : List Word) : List Word :=
  ⟨.leftParen, "("⟩ :: (ws ++ [⟨.rightParen, ")"⟩, ⟨.leftParen, "("⟩, ⟨.rightParen, ")"⟩])

theorem makes_function {ws : List Word} (h : Makes ReadsExpression e ws) :
    Makes ReadsValue (.function .fresh false [] [] (.block .fresh none [] [.throwStmt .fresh e]))
      (functionWords ws) := by
  intro tokens htokens
  simp only [functionWords, List.map_eq_cons_iff, List.map_eq_append_iff, List.map_eq_nil_iff]
    at htokens
  obtain ⟨f, _, rfl, hf, o, _, rfl, ho, c, _, rfl, hc, b, _, rfl, hb, t, _, rfl, ht, ts, _, rfl,
    hts, z, _, rfl, hz, d, _, rfl, hd, rfl⟩ := htokens
  obtain ⟨n, hn, hread⟩ := h ts hts
  refine ⟨.function (.ofLoc f.start) false [] []
    (.block (.ofLoc b.start) (some d.stop) [] [.throwStmt (.ofLoc t.start) n]), ?_, ?_⟩
  · simp [Head.ofLoc, Head.fresh, Form.unplaced, hn]
  · refine ⟨⟨f, _, rfl, by rw [kind_of_word hf]; rfl⟩, fun r depth hdepth => ?_⟩
    simp only [List.length_cons, List.length_append] at hdepth
    obtain ⟨depth, rfl⟩ : ∃ d, depth = d + 2 := ⟨depth - 2, by omega⟩
    have hvalue := hread r depth (by omega)
    have hstatement (rest : List Token) : (rulesTo r (depth + 2)).statement
        (t :: (ts ++ [z]) ++ rest) = .ok (⟨.ok (.throwStmt (.ofLoc t.start) n), false⟩, rest) := by
      have hthrow := statement_throw (kind_of_word ht) hvalue (kind_of_word hz) rest
      rw [List.cons_append, List.append_assoc]
      exact hthrow
    have hbody (rest : List Token) : block (rulesTo r (depth + 2))
        (b :: t :: (ts ++ [z, d]) ++ rest) =
          .ok (.ok (.block (.ofLoc b.start) (some d.stop) [] [.throwStmt (.ofLoc t.start) n]),
            rest) := by
      have hblock := block_single (kind_of_word hb) (by rw [kind_of_word ht]; decide) hstatement
        (kind_of_word hd) rest
      simpa using hblock
    exact isRead_function (kind_of_word hf) (kind_of_word ho) (kind_of_word hc) hbody

theorem makes_invoked {f : Node} {ws : List Word} (h : Makes ReadsValue f ws) :
    Makes ReadsExpression (.call .fresh false f []) (invokedWords ws) := by
  intro tokens htokens
  simp only [invokedWords, List.map_eq_cons_iff, List.map_eq_append_iff, List.map_eq_nil_iff]
    at htokens
  obtain ⟨a, _, rfl, ha, ts, _, rfl, hts, b, _, rfl, hb, o, _, rfl, ho, c, _, rfl, hc, rfl⟩ :=
    htokens
  obtain ⟨n, hn, hread⟩ := h ts hts
  refine ⟨.call (.ofLoc a.start) false n [], by simp [Head.ofLoc, Head.fresh, hn], ?_⟩
  intro r depth hdepth
  simp only [List.length_cons, List.length_append] at hdepth
  obtain ⟨depth, rfl⟩ : ∃ d, depth = d + 1 := ⟨depth - 1, by omega⟩
  have hparens := isRead_parens (kind_of_word ha) (hread.expression r depth (by omega))
    (kind_of_word hb)
  have hbase := isRead_base (by rw [kind_of_word ha]; decide) hparens
  have hcall := isRead_call hbase chainSign_none (kind_of_word ho) isRead_none (kind_of_word hc)
  have htokens : a :: (ts ++ [b, o, c]) = a :: (ts ++ [b]) ++ ([] ++ (o :: [] ++ [c])) := by simp
  rw [htokens]
  exact isRead_expression (by rw [kind_of_word ha]; rfl) hcall

end Grammar

namespace Compiler

open Grammar
open Token.Place (Plays)

/-- The words of a call that throws, printed in a line indented by `level`. -/
def throwingWords (level : Nat) (message : Text) : List Word := [
  ⟨.leftParen, "("⟩, ⟨.functionWord, "function"⟩, ⟨.leftParen, "("⟩, ⟨.rightParen, ")"⟩,
  ⟨.leftBrace, "\x7b"⟩, .line (level + 1),
  ⟨.throwWord, "throw"⟩, ⟨.newWord, "new"⟩, ⟨.name, "Error"⟩, ⟨.leftParen, "("⟩,
  ⟨.string, message.stringLiteral⟩, ⟨.rightParen, ")"⟩, ⟨.semicolon, ";"⟩, .line level,
  ⟨.rightBrace, "\x7d"⟩, ⟨.rightParen, ")"⟩, ⟨.leftParen, "("⟩, ⟨.rightParen, ")"⟩]

def errorWords (message : Text) : List Word :=
  [⟨.newWord, "new"⟩, ⟨.name, "Error"⟩, ⟨.leftParen, "("⟩, ⟨.string, message.stringLiteral⟩,
    ⟨.rightParen, ")"⟩]

theorem spells_throwing (level : Nat) (message : Text) :
    Spells ((throwing message).expressionText level 0) (throwingWords level message) := by
  have hvisibly {x : String} (hx : Text.StartsVisibly (Text.ofString x)) (t : Text) :
      (Text.ofString x ++ t).StartsVisibly := hx.append t
  have hparen (t : Text) : Lexeme.EndsName (Text.ofString "(" ++ t) :=
    (Lexeme.endsName_cons _ _).2 (by decide)
  have hspace (t : Text) : Lexeme.EndsName (CodePoint.scalar ' ' :: t) :=
    (Lexeme.endsName_cons _ _).2 (by decide)
  have hlast : Spells (Text.ofString ")") [⟨.rightParen, ")"⟩] :=
    Spells.nil.sign (p := (")", .rightParen)) (by decide)
  have hcalled := (hlast.sign (p := ("(", .leftParen)) (by decide)).sign (p := (")", .rightParen))
    (by decide)
  have hend := (hcalled.sign (p := ("\x7d", .rightBrace)) (by decide)).line level
    (hvisibly ⟨_, _, rfl, by decide⟩ _)
  have hargs := (((hend.sign (p := (";", .semicolon)) (by decide)).sign (p := (")", .rightParen))
    (by decide)).string message).sign (p := ("(", .leftParen)) (by decide)
  have herror := hargs.name (x := "Error") (k := .name) rfl rfl (hparen _)
  have hnew := (herror.spaced (hvisibly ⟨_, _, rfl, by decide⟩ _)).name (x := "new")
    (k := .newWord) rfl rfl (hspace _)
  have hthrow := (hnew.spaced (hvisibly ⟨_, _, rfl, by decide⟩ _)).name (x := "throw")
    (k := .throwWord) rfl rfl (hspace _)
  have hbody := (hthrow.line (level + 1) (hvisibly ⟨_, _, rfl, by decide⟩ _)).sign
    (p := ("\x7b", .leftBrace)) (by decide)
  have hparams := ((hbody.spaced (hvisibly ⟨_, _, rfl, by decide⟩ _)).sign
    (p := (")", .rightParen)) (by decide)).sign (p := ("(", .leftParen)) (by decide)
  have hfunction := hparams.name (x := "function") (k := .functionWord) rfl rfl (hparen _)
  have hall := hfunction.sign (p := ("(", .leftParen)) (by decide)
  rw [throwing, Print.expressionText_invoked, Print.text_function, Print.text_block_single _ rfl,
    Print.text_throwStmt _ rfl, Print.text_error]
  simpa only [throwingWords, List.append_assoc, List.cons_append] using hall

theorem plays_throwing (level : Nat) (message : Text) :
    Plays .ofExpression (throwingWords level message)
      (invokedWords (functionWords (errorWords message))) := by
  -- up to the brace
  iterate 5 refine .word ⟨by decide, by decide, fun _ => rfl⟩ ?_
  -- the statement, in its line
  refine .line _ ⟨by decide, by decide, fun _ => rfl⟩ ?_
  refine .word ⟨by decide, by decide, fun _ => rfl⟩ ?_
  refine .name (by decide) (by decide) ?_
  iterate 3 refine .word ⟨by decide, by decide, fun _ => rfl⟩ ?_
  refine .semicolon ?_
  -- the brace, in its line, and the parentheses behind it
  refine .line _ ⟨by decide, by decide, fun _ => rfl⟩ ?_
  iterate 3 refine .word ⟨by decide, by decide, fun _ => rfl⟩ ?_
  exact .nil

theorem makes_error (message : Text) :
    Makes ReadsExpression (.new .fresh (.name .fresh "Error") [.literal .fresh (.str message)])
      (errorWords message) := by
  have hliteral : Makes (AsLeast 1) (.literal .fresh (.str message))
      [⟨.string, message.stringLiteral⟩] := makes_string.mono (by decide)
  have hmessage := makesAll_items (makes_value hliteral) makesAll_last
  have hcall : Suffix.Makes (.call false _) _ := Suffix.makes_call hmessage
  have hsuffixes := Suffix.makesSuffixes_cons hcall Suffix.makesSuffixes_nil
  have hname : Makes (AsLeast 14) (.name .fresh "Error") [⟨.name, "Error"⟩] := makes_name
  exact makes_construction hname hsuffixes

/-- The literal of a text is one string token up to its closing quote, whatever stands behind it,
and says the text. So a call that throws is read back, whatever its message is: as a call of a
function without parameters, of which the only statement throws an error with the message. -/
theorem throwing_read (message : Text) :
    (∀ rest, Lexeme.next? (message.stringLiteral ++ rest) =
      some (.token .string, message.stringLiteral.length)) ∧
    (∀ (r : Reader) (t : Token), t.text = message.stringLiteral →
      r.string t = .ok (.literal (.ofLoc t.start) (.str message))) ∧
    ∀ (level : Nat) (file : Option Text), ∃ n,
      Node.readExpression ((throwing message).expressionText level 0) file = .ok n ∧
        n.unplaced = Node.unplaced (.call .fresh false (.function .fresh false [] []
          (.block .fresh none [] [.throwStmt .fresh
            (.new .fresh (.name .fresh "Error") [.literal .fresh (.str message)])])) []) := by
  refine ⟨Lexeme.next?_stringLiteral message, fun r t ht => string_eq r ht, fun level file => ?_⟩
  obtain ⟨-, q, hlays⟩ := plays_throwing level message
  have hmakes := makes_invoked (makes_function (makes_error message))
  exact Node.readExpression_of_lays (spells_throwing level message) hlays (by simp [NoArrow])
    hmakes file

end Compiler

end InlineTemplates
