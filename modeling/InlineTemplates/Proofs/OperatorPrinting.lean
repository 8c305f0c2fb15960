import InlineTemplates.Grammar.Source
import InlineTemplates.Proofs.OperatorTrees
import InlineTemplates.Proofs.Spelling

/-!
# Operator trees survive printing

A tree of operators, printed with no more parentheses than its operators ask for, is read back as
the same tree. The text of an operator is cut into the words that make its tree, and a part stands
in parentheses where its precedence is less than its place needs.
-/

namespace InlineTemplates

open Grammar

namespace Print

/-- Where at least the precedence `p` is needed, the text is read as the tree. -/
def Shows (p : Nat) (e : Node) (t : Text) : Prop := ∃ ws, Writes t ws ∧ Makes (AsLeast p) e ws

variable {p q : Nat} {e : Node} {t u : Text} {loc : Option Location}

namespace Shows

theorem mono (h : Shows p e t) (hle : q ≤ p) : Shows q e t := by
  obtain ⟨ws, hwrites, hmakes⟩ := h
  exact ⟨ws, hwrites, hmakes.mono hle⟩

theorem parenthesized (h : Shows p e t) (q : Nat) : Shows q e (parenthesized t) := by
  obtain ⟨ws, hwrites, hmakes⟩ := h
  exact ⟨_, .enclosed (o := ("(", .leftParen)) (c := (")", .rightParen)) hwrites.toSpelt
    (by decide) (by decide), makes_parens hmakes q⟩

theorem placed (h : Shows (precedence e) e t) (hcomments : e.comments = []) (least : Nat) :
    Shows least e (placed least e t) := by
  simp only [Print.placed, hcomments, inlineComments, List.flatMap_nil, List.nil_append]
  split
  · exact h.parenthesized least
  · exact h.mono (Nat.le_of_not_lt ‹_›)

theorem operand (h : Shows (precedence e) e t) (hcomments : e.comments = []) (op : BinaryOp)
    (least : Nat) : Shows least e (operand op least e t) := by
  unfold Print.operand
  split
  · split
    · simp only [hcomments, inlineComments, List.flatMap_nil, List.nil_append]
      exact h.parenthesized least
    · exact h.placed hcomments least
  · exact h.placed hcomments least

/-! ## Literals -/

theorem name {x : Text} (hx : x.IsIdentifier) : Shows 14 (.name ⟨loc, []⟩ x) x :=
  ⟨_, .name hx, makes_name⟩

theorem string (x : Text) : Shows 14 (.literal ⟨loc, []⟩ (.str x)) x.stringLiteral :=
  ⟨_, .string x, makes_string⟩

theorem bool (b : Bool) : Shows 14 (.literal ⟨loc, []⟩ (.bool b)) (Literal.bool b).text := by
  cases b with
  | false => exact ⟨_, .reserved (k := .falseWord) rfl rfl rfl (by decide), makes_false⟩
  | true => exact ⟨_, .reserved (k := .trueWord) rfl rfl rfl (by decide), makes_true⟩

theorem null : Shows 14 (.literal ⟨loc, []⟩ .null) Literal.null.text :=
  ⟨_, .reserved (k := .nullWord) rfl rfl rfl (by decide), makes_null⟩

/-! ## Operators -/

/-- A sign runs together with its operand only if the operand starts with the sign. -/
theorem writes_unary {ws : List Word} (op : UnaryOp) (h : Writes t ws) :
    Writes (Print.unary op t) (op.word :: ws) := by
  have hspelt : Spelt (Print.unary op t) (op.word :: ws) := by
    unfold Print.unary
    rw [← op.word_text]
    cases hblank : op.isWord || (op.word.text.take 1).isPrefixOf t with
    | true =>
      rw [List.append_assoc]
      exact .apart op.standsApart h.toSpelt h.visibly
    | false =>
      obtain ⟨c, u, rfl, -⟩ := h.visibly
      obtain ⟨hsign, hne⟩ := Bool.or_eq_false_iff.1 hblank
      simp only [Text.when, Bool.false_eq_true, if_false, List.append_nil]
      refine .word op.standsApart.plain op.standsApart.raw_eq ?_ (fun rest _ => ?_) h.toSpelt
      · obtain ⟨d, v, heq, -⟩ := op.standsApart.visibly
        rw [heq]
        exact List.cons_ne_nil d v
      · refine UnaryOp.next?_word hsign (fun htext => ?_) (by simpa using h.notEqual) (u ++ rest)
        rw [htext] at hne
        simp at hne
  have hop : op.word.text.head? ≠ some (CodePoint.scalar '=') := by cases op <;> decide
  obtain ⟨c, v, heq, hc⟩ := op.standsApart.visibly
  unfold Print.unary at hspelt ⊢
  rw [← op.word_text, heq] at hspelt ⊢
  exact .of_cons hspelt hc (by simpa [heq] using hop)

theorem unary (op : UnaryOp) (h : Shows 10 e t) :
    Shows 10 (.unary ⟨loc, []⟩ op e) (Print.unary op t) := by
  obtain ⟨ws, hwrites, hmakes⟩ := h
  exact ⟨_, writes_unary op hwrites, makes_unary hmakes⟩

theorem update_inFront (op : UpdateOp) (h : Shows 13 e t) :
    Shows 10 (.update ⟨loc, []⟩ op true e) (op.text ++ t) := by
  obtain ⟨ws, hwrites, hmakes⟩ := h
  rw [← op.word_text]
  exact ⟨_, .sign op.sign_mem hwrites.toSpelt, makes_update_inFront hmakes⟩

theorem update_behind (op : UpdateOp) (h : Shows 13 e t) :
    Shows 11 (.update ⟨loc, []⟩ op false e) (t ++ op.text) := by
  obtain ⟨ws, hwrites, hmakes⟩ := h
  rw [← op.word_text]
  exact ⟨_, hwrites.append (hwrites.toSpelt.append_sign op.sign_mem), makes_update_behind hmakes⟩

theorem blanks_eq (t w u : Text) :
    t ++ CodePoint.scalar ' ' :: (w ++ CodePoint.scalar ' ' :: u) =
      t ++ (" " ++ w ++ " ") ++ u := by
  have hblank : Text.ofString " " = [CodePoint.scalar ' '] := rfl
  simp [hblank]

theorem binary {op : BinaryOp} {left right : Node} (hl : Shows op.precedence left t)
    (hr : Shows (op.precedence + 1) right u) :
    Shows op.precedence (.binary ⟨loc, []⟩ op left right) (t ++ " " ++ op.text ++ " " ++ u) := by
  obtain ⟨wl, hwl, hleft⟩ := hl
  obtain ⟨wr, hwr, hright⟩ := hr
  have hwrites := Writes.between hwl op.standsApart hwr
  rw [blanks_eq, op.word_text] at hwrites
  exact ⟨_, by simpa using hwrites, makes_binary hleft hright⟩

theorem assign {op : AssignOp} {target value : Node} (htarget : Shows 13 target t)
    (hvalue : Shows 1 value u) :
    Shows 1 (.assign ⟨loc, []⟩ op target value) (t ++ " " ++ op.text ++ " " ++ u) := by
  obtain ⟨wl, hwl, htarget⟩ := htarget
  obtain ⟨wr, hwr, hvalue⟩ := hvalue
  have hwrites := Writes.between hwl op.standsApart hwr
  rw [blanks_eq, op.word_text] at hwrites
  exact ⟨_, by simpa using hwrites, makes_assign htarget hvalue⟩

theorem ternary {condition thenValue elseValue : Node} {v : Text}
    (hcondition : Shows 3 condition t) (hthen : Shows 1 thenValue u)
    (helse : Shows 1 elseValue v) :
    Shows 2 (.ternary ⟨loc, []⟩ condition thenValue elseValue)
      (t ++ " ? " ++ u ++ " : " ++ v) := by
  obtain ⟨wc, hwc, hcondition⟩ := hcondition
  obtain ⟨wt, hwt, hthen⟩ := hthen
  obtain ⟨we, hwe, helse⟩ := helse
  have hquestion : Word.StandsApart ⟨.question, "?"⟩ :=
    ⟨rfl, rfl, ⟨_, _, rfl, by decide⟩, fun _ => rfl⟩
  have hcolon : Word.StandsApart ⟨.colon, ":"⟩ :=
    ⟨rfl, rfl, ⟨_, _, rfl, by decide⟩, fun _ => rfl⟩
  have hwrites := Writes.between hwc hquestion (.between hwt hcolon hwe)
  have hquestionText : Text.ofString " " ++ "?" ++ " " = " ? " := rfl
  have hcolonText : Text.ofString " " ++ ":" ++ " " = " : " := rfl
  rw [blanks_eq, blanks_eq, hquestionText, hcolonText] at hwrites
  exact ⟨_, by simpa using hwrites, makes_ternary hcondition hthen helse⟩

end Shows

/-! ## Elements -/

def ShowsElement (e : Node) (t : Text) : Prop :=
  ∃ ws, Writes t ws ∧ Makes (fun e => Derives (.element e)) e ws

theorem showsElement_value (h : Shows 1 e t) : ShowsElement e t := by
  obtain ⟨ws, hwrites, hmakes⟩ := h
  exact ⟨ws, hwrites, makes_value hmakes⟩

theorem showsElement_spread (h : Shows 1 e t) :
    ShowsElement (.spread ⟨loc, []⟩ e) ("..." ++ t) := by
  obtain ⟨ws, hwrites, hmakes⟩ := h
  exact ⟨_, .sign (p := ("...", .ellipsis)) (by decide) hwrites.toSpelt, makes_spread hmakes⟩

theorem join_cons (sep t : Text) (ts : List Text) :
    Text.join sep (t :: ts) = t ++ behind sep ts := by
  induction ts generalizing t with
  | nil => simp [behind, Text.join, List.intercalate]
  | cons u ts ih =>
    simp only [behind, Text.join, List.intercalate, List.intersperse_cons_cons,
      List.flatten_cons, List.flatMap_cons] at ih ⊢
    rw [ih, List.append_assoc]

theorem commas_cons (t : Text) (ts : List Text) : commas (t :: ts) = t ++ behind ", " ts :=
  join_cons ", " t ts

theorem behind_cons (before t : Text) (ts : List Text) :
    behind before (t :: ts) = before ++ (t ++ behind before ts) := by
  simp [behind]

theorem text_block (level : Nat) (head : Head) (stop : Option Location) (n : Node)
    (ns : List Node) :
    Print.text level (.block head stop [] (n :: ns)) = Text.ofString "\x7b" ++
      (behind "\n" (lines (level + 1) (n :: ns)) ++
        (Text.ofString "\n" ++ indentation level ++ Text.ofString "\x7d")) := by
  have hopen : Text.ofString "\x7b\n" = Text.ofString "\x7b" ++ Text.ofString "\n" := rfl
  have htext : Print.text level (.block head stop [] (n :: ns)) =
      braced level (lines (level + 1) (n :: ns)) [] [] := rfl
  simp only [htext, braced, lines, List.isEmpty_cons, Bool.false_and, Bool.false_eq_true,
    if_false, List.map_nil, List.append_nil, List.nil_append, join_cons, behind_cons, hopen,
    List.append_assoc]

theorem behind_append (before glue : Text) (ts : List Text) :
    behind (before ++ glue) ts = behind before (ts.map (glue ++ ·)) := by
  simp [behind, List.flatMap_map]

theorem behind_commas_cons (t : Text) (ts : List Text) :
    behind ", " (t :: ts) =
      Text.ofString "," ++ CodePoint.scalar ' ' :: (t ++ behind ", " ts) := by
  have hcomma : Text.ofString ", " = Text.ofString "," ++ [CodePoint.scalar ' '] := rfl
  rw [behind_cons, hcomma, List.append_assoc]
  rfl

theorem behind_endsName {before : Text} (hbefore : before.head?.any fun c => !c.isNamePart)
    (ts : List Text) {rest : Text} (hrest : Lexeme.EndsName rest) :
    Lexeme.EndsName (behind before ts ++ rest) := by
  cases before with
  | nil => simp at hbefore
  | cons c before =>
    cases ts with
    | nil => exact hrest
    | cons t ts => exact (Lexeme.endsName_cons _ _).2 (by simpa using hbefore)

variable {es : List Node} {text : Node → Text}

theorem items_spelt {ws vs : List Word} (h : Writes t ws)
    (h' : Spelt (behind ", " (es.map text)) vs) :
    Writes (t ++ behind ", " (es.map text)) (ws ++ vs) :=
  h.append (h.toSpelt.append h' fun _ => behind_endsName (by decide) _)

theorem more_spelt (h : ∀ e ∈ es, ShowsElement e (text e)) :
    ∃ ws, Spelt (behind ", " (es.map text)) ws ∧
      MakesAll (fun es => Derives (.more es)) es ws := by
  induction es with
  | nil => exact ⟨[], .nil, makesAll_last⟩
  | cons e es ih =>
    obtain ⟨wl, hwl, hmakes⟩ := h e List.mem_cons_self
    obtain ⟨wr, hwr, hmore⟩ := ih fun a ha => h a (List.mem_cons_of_mem e ha)
    have hitems := items_spelt hwl hwr
    rw [List.map_cons, behind_commas_cons]
    exact ⟨_, .sign (p := (",", .comma)) (by decide) (hitems.toSpelt.blank hitems.visibly),
      makesAll_more hmakes hmore⟩

theorem commas_spelt (h : ∀ e ∈ es, ShowsElement e (text e)) :
    ∃ ws, Spelt (commas (es.map text)) ws ∧ MakesAll (fun es => Derives (.items es)) es ws := by
  cases es with
  | nil => exact ⟨[], .nil, makesAll_none⟩
  | cons e es =>
    obtain ⟨wl, hwl, hmakes⟩ := h e List.mem_cons_self
    obtain ⟨wr, hwr, hmore⟩ := more_spelt fun a ha => h a (List.mem_cons_of_mem e ha)
    rw [List.map_cons, commas_cons]
    exact ⟨_, (items_spelt hwl hwr).toSpelt, makesAll_items hmakes hmore⟩

/-! ## Accesses and calls -/

namespace Shows

theorem chain_word (optional : Bool) : ∃ d : Word, (d = .dot ∨ d = .optionalChain) ∧
    d.text = chain optional "." ∧ d.kind = if optional then .optionalChain else .dot := by
  cases optional with
  | false => exact ⟨.dot, .inl rfl, rfl, rfl⟩
  | true => exact ⟨.optionalChain, .inr rfl, rfl, rfl⟩

theorem attr {property : Text} (optional : Bool) (hproperty : property.IsProperty)
    (h : Shows 13 e t) :
    Shows 13 (.attr ⟨loc, []⟩ property optional e) (t ++ chain optional "." ++ property) := by
  obtain ⟨ws, hwrites, hmakes⟩ := h
  obtain ⟨d, hd, htext, hkind⟩ := chain_word optional
  obtain ⟨k, hk, hspelt⟩ := Spelt.property hd hproperty
  refine ⟨_, ?_, makes_attr hmakes hkind hk⟩
  rw [List.append_assoc, ← htext]
  refine hwrites.append (hwrites.toSpelt.append hspelt fun rest _ => ?_)
  rcases hd with rfl | rfl <;> exact (Lexeme.endsName_cons _ _).2 (by decide)

theorem chain_spelt {vs : List Word} (optional : Bool) {o c : String × Token.Kind}
    (ho : o = ("[", .leftBracket) ∨ o = ("(", .leftParen)) (hc : c ∈ Lexeme.freeSigns)
    (h : Spelt u vs) :
    Spelt (chain optional [] ++ (Text.ofString o.1 ++ u ++ Text.ofString c.1))
      (chainWords optional ++ (⟨o.2, o.1⟩ :: vs ++ [⟨c.2, c.1⟩])) := by
  have hclosed := h.append_sign hc
  simp only [List.append_assoc]
  cases optional with
  | false =>
    have hopen : o ∈ Lexeme.freeSigns := by rcases ho with rfl | rfl <;> decide
    exact .sign hopen hclosed
  | true => exact .optionalSign ho hclosed

theorem chain_endsName (optional : Bool) {o : String × Token.Kind}
    (ho : o = ("[", .leftBracket) ∨ o = ("(", .leftParen)) (x : Text) :
    Lexeme.EndsName (chain optional [] ++ (Text.ofString o.1 ++ x)) := by
  cases optional with
  | false => rcases ho with rfl | rfl <;> exact (Lexeme.endsName_cons _ _).2 (by decide)
  | true => exact (Lexeme.endsName_cons _ _).2 (by decide)

theorem chain_writes {ws vs : List Word} (optional : Bool) {o c : String × Token.Kind}
    (ho : o = ("[", .leftBracket) ∨ o = ("(", .leftParen)) (hc : c ∈ Lexeme.freeSigns)
    (h : Writes t ws) (h' : Spelt u vs) :
    Writes (t ++ chain optional [] ++ (Text.ofString o.1 ++ u ++ Text.ofString c.1))
      (ws ++ (chainWords optional ++ (⟨o.2, o.1⟩ :: vs ++ [⟨c.2, c.1⟩]))) := by
  rw [List.append_assoc]
  refine h.append (h.toSpelt.append (chain_spelt optional ho hc h') fun rest _ => ?_)
  rw [List.append_assoc, List.append_assoc, List.append_assoc]
  exact chain_endsName optional ho _

theorem index {i : Node} (optional : Bool) (h : Shows 13 e t) (hi : Shows p i u) :
    Shows 13 (.index ⟨loc, []⟩ optional e i) (t ++ chain optional [] ++ "[" ++ u ++ "]") := by
  obtain ⟨wl, hwl, hmakes⟩ := h
  obtain ⟨wr, hwr, hindex⟩ := hi
  have hwrites := chain_writes (c := ("]", .rightBracket)) optional (.inl rfl) (by decide) hwl
    hwr.toSpelt
  exact ⟨_, by simpa using hwrites, makes_index hmakes hindex⟩

theorem call {args : List Node} (optional : Bool) (h : Shows 13 e t)
    (hargs : ∀ a ∈ args, ShowsElement a (text a)) :
    Shows 13 (.call ⟨loc, []⟩ optional e args)
      (t ++ chain optional [] ++ Print.parenthesized (commas (args.map text))) := by
  obtain ⟨wl, hwl, hmakes⟩ := h
  obtain ⟨wr, hspelt, hitems⟩ := commas_spelt hargs
  have hwrites := chain_writes (c := (")", .rightParen)) optional (.inr rfl) (by decide) hwl hspelt
  exact ⟨_, hwrites, makes_call hmakes hitems⟩

theorem array (h : ∀ e ∈ es, ShowsElement e (text e)) :
    Shows 14 (.array ⟨loc, []⟩ es) ("[" ++ commas (es.map text) ++ "]") := by
  obtain ⟨ws, hspelt, hitems⟩ := commas_spelt h
  exact ⟨_, .enclosed (o := ("[", .leftBracket)) (c := ("]", .rightBracket)) hspelt (by decide)
    (by decide), makes_array hitems⟩

end Shows

/-! ## Trees -/

theorem placedAll_texts (level least : Nat) (ns : List Node) :
    placedAll least ns (texts level ns) = ns.map fun n => placed least n (Print.text level n) := by
  induction ns with
  | nil => rfl
  | cons n ns ih => simpa [placedAll, texts] using ih

theorem text_call (level : Nat) (head : Head) (optional : Bool) (func : Node) (args : List Node) :
    Print.text level (.call head optional func args) =
      placed 13 func (Print.text level func) ++ chain optional [] ++
        parenthesized (commas (args.map fun a => placed 1 a (Print.text level a))) := by
  rw [← placedAll_texts]
  rfl

theorem text_array (level : Nat) (head : Head) (elements : List Node) :
    Print.text level (.array head elements) =
      "[" ++ commas (elements.map fun e => placed 1 e (Print.text level e)) ++ "]" := by
  rw [← placedAll_texts]
  rfl

theorem comments_eq_nil (h : e.IsOperatorTree) : e.comments = [] := by
  cases h <;> rfl

theorem showsElement (h : e.elementValue.IsOperatorTree) (level : Nat)
    (hshows : Shows (precedence e.elementValue) e.elementValue (Print.text level e.elementValue)) :
    ShowsElement e (placed Precedence.assign e (Print.text level e)) := by
  have hvalue := hshows.placed (comments_eq_nil h) 1
  unfold Node.elementValue at hvalue
  split at hvalue
  · exact showsElement_spread hvalue
  · exact showsElement_value hvalue

/-- Each tree of operators is printed with the precedence that it has. -/
theorem shows_text (h : e.IsOperatorTree) (level : Nat) :
    Shows (precedence e) e (Print.text level e) := by
  induction h with
  | name hx => exact .name hx
  | string t => exact .string t
  | bool b => exact .bool b
  | null => exact .null
  | unary op h ih => exact .unary op (ih.placed (comments_eq_nil h) 10)
  | update op inFront h ih =>
    have hoperand := ih.placed (comments_eq_nil h) 13
    cases inFront with
    | false => exact .update_behind op hoperand
    | true => exact .update_inFront op hoperand
  | binary op hl hr ihl ihr =>
    exact .binary (ihl.operand (comments_eq_nil hl) op _) (ihr.operand (comments_eq_nil hr) op _)
  | ternary hcondition hthen helse ihcondition ihthen ihelse =>
    exact .ternary (ihcondition.placed (comments_eq_nil hcondition) 3)
      (ihthen.placed (comments_eq_nil hthen) 1) (ihelse.placed (comments_eq_nil helse) 1)
  | assign op htarget hvalue ihtarget ihvalue =>
    exact .assign (ihtarget.placed (comments_eq_nil htarget) 13)
      (ihvalue.placed (comments_eq_nil hvalue) 1)
  | call optional hfunc hargs ihfunc ihargs =>
    rw [text_call]
    exact .call optional (ihfunc.placed (comments_eq_nil hfunc) 13)
      fun a ha => showsElement (hargs a ha) level (ihargs a ha)
  | attr optional hproperty h ih =>
    exact .attr optional hproperty (ih.placed (comments_eq_nil h) 13)
  | index optional h hi ih ihi =>
    exact .index optional (ih.placed (comments_eq_nil h) 13) (ihi.placed (comments_eq_nil hi) 0)
  | array h ih =>
    rw [text_array]
    exact .array fun e he => showsElement (h e he) level (ih e he)

end Print

namespace Node

theorem readExpression_eq {source : Text} {tokens : List Token} {n : Node} (file : Option Text)
    (hscan : Scan.scan source = .ok ⟨tokens, []⟩)
    (hread : ∀ r : Reader, (rulesTo r ((Token.placeExpression tokens).length + 1)).assign
      (Token.placeExpression tokens) = .ok (.ok n, [])) :
    readExpression source file = .ok n := by
  simp only [readExpression, expressionTo, Grammar.scan, hscan, readAll]
  simp only [hread, pure, bind, Except.bind, Except.pure]
  rfl

theorem readExpression_of_writes {t : Text} {ws : List Word} {e : Node} (hwrites : Writes t ws)
    (hread : ∀ tokens : List Token, tokens.map Token.word = ws → ∃ n : Node,
      n.unplaced = e.unplaced ∧ ∀ (r : Reader) (depth : Nat), tokens.length ≤ depth →
        (Phrase.assign n).IsRead r (rulesTo r depth) tokens) (file : Option Text) :
    ∃ n, readExpression t file = .ok n ∧ n.unplaced = e.unplaced := by
  have hspells := hwrites.spells Lexeme.endsName_nil .nil
  rw [List.append_nil, List.append_nil] at hspells
  obtain ⟨tokens, hscan, htokens⟩ := Scan.scan_spelt hspells
  obtain ⟨n, hn, hall⟩ := hread _ (Word.placeExpression_words hwrites.settled htokens)
  refine ⟨n, readExpression_eq file hscan fun r => ?_, hn⟩
  have hassign := hall r _ (Nat.le_refl _) [] (by simp [EndsBelow])
  rwa [List.append_nil] at hassign

/-- A tree of operators is read from its text, wherever the text is to stand. -/
theorem expressionText_reads {e : Node} (h : e.IsOperatorTree) (level least : Nat)
    (file : Option Text) : ∃ n, readExpression (e.expressionText level least) file = .ok n ∧
      n.unplaced = e.unplaced := by
  obtain ⟨ws, hwrites, hmakes⟩ :=
    (Print.shows_text h level).placed (Print.comments_eq_nil h) least
  refine readExpression_of_writes hwrites (fun tokens htokens => ?_) file
  obtain ⟨n, hn, hderives⟩ := hmakes tokens htokens
  exact ⟨n, hn, hderives.assign.isRead⟩

/-- Operators that need parentheses, and signs that need a blank, behind optional accesses. -/
def crowded : Node :=
  let either : Node := .binary .fresh .or (.name .fresh "a") (.name .fresh "b")
  let negated : Node := .unary .fresh .minus (.update .fresh .decrement true (.name .fresh "c"))
  .call .fresh true (.attr .fresh "in" true (.name .fresh "f"))
    [.spread .fresh (.binary .fresh .nullish either negated)]

theorem crowded_isOperatorTree : crowded.IsOperatorTree := by
  have hname (x : Text) (hform : Identifier.hasForm x) (hfree : Lexeme.nameKind x = .name) :
      IsOperatorTree (.name .fresh x) := .name ⟨hform, hfree⟩
  refine .call true (.attr true (.name rfl) (hname "f" rfl rfl)) (List.forall_mem_singleton.2 ?_)
  exact .binary .nullish (.binary .or (hname "a" rfl rfl) (hname "b" rfl rfl))
    (.unary .minus (.update .decrement true (hname "c" rfl rfl)))

theorem expressionText_reads_crowded :
    crowded.expressionText 0 0 = "f?.in?.(...(a || b) ?? - --c)" ∧ crowded.IsOperatorTree ∧
      ∃ n, readExpression (crowded.expressionText 0 0) none = .ok n ∧
        n.unplaced = crowded.unplaced :=
  ⟨by decide, crowded_isOperatorTree, expressionText_reads crowded_isOperatorTree 0 0 none⟩

end Node

end InlineTemplates
