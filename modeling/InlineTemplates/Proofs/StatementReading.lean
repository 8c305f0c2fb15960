import InlineTemplates.Proofs.ModuleClauses

/-!
# Statements are read

One lemma for each statement: where its parts are read, it is. What is read as a statement is so in
front of any tokens that do not go on with it; an `else` goes on with an `if` that has none yet.
The lines of a block or a program may have fillers between them, which leave no statement.
-/

namespace InlineTemplates

open Token (Kind)

namespace Token.Kind

/-- Whether a line can start with a token of this kind: it goes on with no statement in front of it,
and ends no block. -/
def startsLine (k : Kind) : Bool :=
  k ∉ [rightBrace, elseWord, catchWord, finallyWord]

end Token.Kind

def VarKind.word : VarKind → Word
  | const => ⟨.constWord, "const"⟩
  | .let => ⟨.letWord, "let"⟩
  | var => ⟨.varWord, "var"⟩

def Iteration.word : Iteration → Word
  | values => ⟨.ofWord, "of"⟩
  | keys => ⟨.inWord, "in"⟩

namespace Grammar

open Parse

/-! ## What statements are made of -/

/-- The tokens of a part that may be missing. -/
inductive Maybe (P : Node → List Token → Prop) : List Node → List Token → Prop
  | none : Maybe P [] []
  | some {n : Node} {ts : List Token} (h : P n ts) : Maybe P [n] ts

def Expressed (e : Node) (ts : List Token) : Prop := Derives (.assign e) ts

/-- The tokens are a variable with or without its value. -/
inductive Declares : Node → List Token → Prop
  | bare {t : Token} (ht : t.kind = .name) :
    Declares (.declarator (.ofLoc t.start) (Reader.name t) []) [t]
  | value {t a : Token} {e : Node} {ts : List Token} (ht : t.kind = .name) (ha : a.kind = .assign)
    (he : Expressed e ts) :
    Declares (.declarator (.ofLoc t.start) (Reader.name t) [e]) (t :: a :: ts)

inductive DeclaresMore : List Node → List Token → Prop
  | last : DeclaresMore [] []
  | more {c : Token} {n : Node} {ns : List Node} {ts us : List Token} (hc : c.kind = .comma)
    (h : Declares n ts) (hmore : DeclaresMore ns us) : DeclaresMore (n :: ns) (c :: (ts ++ us))

/-- The tokens are a declaration of variables, without its end. -/
inductive DeclaresAll : Node → List Token → Prop
  | mk {k : VarKind} {t : Token} {n : Node} {ns : List Node} {ts us : List Token}
    (ht : t.kind = k.word.kind) (h : Declares n ts) (hmore : DeclaresMore ns us) :
    DeclaresAll (.varDecl (.ofLoc t.start) k (n :: ns)) (t :: (ts ++ us))

/-- What can stand behind a statement. `closed` says that the statement can stand in front of an
`else`. -/
def EndsStatement (closed : Bool) (rest : List Token) : Prop :=
  ∀ t ∈ rest.head?, t.kind ≠ .catchWord ∧ t.kind ≠ .finallyWord ∧ (t.kind = .elseWord → closed)

/-- The tokens are read as the statement. -/
structure ReadsStatement (closed : Bool) (n : Node) (ts : List Token) : Prop where
  starts : ∃ t us, ts = t :: us ∧ t.kind.startsLine
  read (r : Reader) (d : Nat) (hdepth : ts.length ≤ d) (rest : List Token)
    (hrest : EndsStatement closed rest) :
    statement r (rulesTo r d) (ts ++ rest) = .ok (⟨.ok n, false⟩, rest)

structure ReadsBlock (n : Node) (ts : List Token) : Prop where
  starts : ∃ t us, ts = t :: us ∧ t.kind = .blockBrace
  read (r : Reader) (d : Nat) (hdepth : ts.length ≤ d) (rest : List Token) :
    block (rulesTo r d) (ts ++ rest) = .ok (.ok n, rest)

structure ReadsHandler (n : Node) (ts : List Token) : Prop where
  starts : ∃ t us, ts = t :: us ∧ t.kind = .catchWord
  read (r : Reader) (d : Nat) (hdepth : ts.length ≤ d) (rest : List Token) :
    catchClause (rulesTo r d) (ts ++ rest) = .ok (.ok n, rest)

/-- The tokens are the lines of a block or a program. -/
inductive Lines : List Node → List Token → Prop
  | nil : Lines [] []
  | filler {t : Token} {ns : List Node} {ts : List Token} (ht : t.kind = .terminator)
    (hne : t.text ≠ ";") (h : Lines ns ts) : Lines ns (t :: ts)
  | statement {n : Node} {ns : List Node} {ts us : List Token} (h : ReadsStatement false n ts)
    (hmore : Lines ns us) : Lines (n :: ns) (ts ++ us)

variable {r : Reader} {rules : Rules} {d : Nat} {closed : Bool} {e n m : Node}
  {es ns : List Node} {t o c z : Token} {ts us vs ws rest : List Token}

/-! ## Parts -/

theorem Expressed.read (h : Expressed e ts) (hdepth : ts.length ≤ d) (r : Reader)
    (rest : List Token) (hrest : EndsBelow 1 rest) :
    (rulesTo r (d + 1)).assign (ts ++ rest) = .ok (.ok e, rest) :=
  h.isRead r d hdepth rest hrest

theorem Expressed.starts (h : Expressed e ts) : ∃ t us, ts = t :: us ∧ t.kind.startsOperand :=
  Derives.startsWith h

theorem kind_ne_of_startsOperand {k : Kind} (h : k.startsOperand) :
    k ∉ ([.terminator, .rightParen, .rightBrace, .constWord, .letWord, .varWord, .elseWord,
      .catchWord, .finallyWord] : List Kind) := by
  revert h
  cases k <;> decide

theorem condition_eq (ho : o.kind = .leftParen) (he : Expressed e ts) (hdepth : ts.length ≤ d)
    (hc : c.kind = .rightParen) (r : Reader) (rest : List Token) :
    condition (rulesTo r (d + 1)) (o :: (ts ++ c :: rest)) = .ok (.ok e, rest) := by
  have hread := he.read hdepth r (c :: rest) (endsBelow_cons (by rw [hc]; decide))
  rw [condition, run_expect ho, run_bind hread, run_expect hc]
  rfl

theorem optionalUpTo_eq {k : Kind} (h : Maybe Expressed es ts) (hdepth : ts.length ≤ d)
    (hc : c.kind = k) (hk : k = .terminator ∨ k = .rightParen) (r : Reader) (rest : List Token) :
    optionalUpTo k (rulesTo r (d + 1)).assign (ts ++ c :: rest) =
      .ok (.ok es, c :: rest) := by
  cases h with
  | none =>
    rw [List.nil_append, optionalUpTo, run_atKind, if_pos (by simp [hc])]
    rfl
  | some h =>
    have hread := h.read hdepth r (c :: rest)
      (endsBelow_cons (by rw [hc]; rcases hk with rfl | rfl <;> decide))
    obtain ⟨t, us, rfl, ht⟩ := h.starts
    have hne := kind_ne_of_startsOperand ht
    have hkind : t.kind ≠ k := by
      rintro rfl
      rcases hk with hk | hk <;> simp [hk] at hne
    rw [optionalUpTo, run_atKind, if_neg (by simpa using hkind), single, run_bind hread]
    rfl

theorem ReadsStatement.body_eq (h : ReadsStatement closed n ts) (hdepth : ts.length ≤ d)
    (r : Reader) (hrest : EndsStatement closed rest) :
    body (rulesTo r (d + 1)) (ts ++ rest) = .ok (.ok n, rest) := by
  have hstatement : (rulesTo r (d + 1)).statement (ts ++ rest) = _ :=
    h.read r d hdepth rest hrest
  rw [body, run_bind hstatement]
  rfl

/-! ## Declarations -/

theorem declarator_eq (h : Declares n ts) (hdepth : ts.length ≤ d) (r : Reader)
    (hrest : EndsBelow 1 rest) :
    declarator (rulesTo r (d + 1)) (ts ++ rest) = .ok (.ok n, rest) := by
  cases h with
  | bare ht =>
    have hnone : rest.head?.map Token.kind ≠ some .assign := hrest.head_ne (by decide)
    rw [List.singleton_append, declarator, run_expect ht, behind?, run_bind (a := .ok [])]
    · rfl
    · rw [run_accept?_none hnone]
      rfl
  | @value t a e ts ht ha he =>
    simp only [List.length_cons] at hdepth
    have hread := he.read (d := d) (by omega) r rest hrest
    rw [List.cons_append, List.cons_append, declarator, run_expect ht, behind?,
      run_bind (a := .ok [e])]
    · rfl
    · rw [run_accept? ha]
      simp only [run_bind hread]
      rfl

def separatedStep {α : Type} (item : Parse α) (items : List α) : Parse (Option (List α)) := do
  match ← accept? .comma with
  | none => return none
  | some _ => return some ((← item) :: items)

theorem commaSeparated_eq {α : Type} (item : Parse α) :
    commaSeparated item = (do
      let first ← item
      let items ← loop (separatedStep item) [first]
      return items.reverse) := rfl

/-- What can stand behind a declaration of variables. -/
def EndsDeclaration (rest : List Token) : Prop :=
  EndsBelow 1 rest ∧ rest.head?.map Token.kind ≠ some .comma

theorem DeclaresMore.endsBelow (h : DeclaresMore ns ts) (hrest : EndsBelow 1 rest) :
    EndsBelow 1 (ts ++ rest) := by
  cases h with
  | last => exact hrest
  | more hc => exact endsBelow_cons (by rw [hc]; decide)

theorem runs_declarators (h : DeclaresMore ns ts) (hdepth : ts.length ≤ d) (r : Reader)
    (hrest : EndsDeclaration rest) (acc : List Draft) :
    Runs (separatedStep (declarator (rulesTo r (d + 1)))) acc (ts ++ rest)
      ((ns.map .ok).reverse ++ acc, rest) := by
  induction h generalizing acc with
  | last =>
    refine .stop ?_
    rw [separatedStep, List.nil_append, run_accept?_none hrest.2]
    rfl
  | @more c n ns ts us hc h hmore ih =>
    simp only [List.length_cons, List.length_append] at hdepth
    have hitem := declarator_eq h (d := d) (by omega) r (hmore.endsBelow hrest.1)
    have hstep : separatedStep (declarator (rulesTo r (d + 1))) acc
        (c :: (ts ++ us) ++ rest) = .ok (some (.ok n :: acc), us ++ rest) := by
      rw [List.cons_append, List.append_assoc, separatedStep, run_accept? hc]
      simp only [run_bind hitem]
      rfl
    refine .step hstep ?_ (by simpa using ih (by omega) (.ok n :: acc))
    simp only [List.cons_append, List.length_cons, List.length_append]
    omega

theorem varKind_eq {k : VarKind} (ht : t.kind = k.word.kind) (rest : List Token) :
    varKind (t :: rest) = .ok (k, rest) := by
  rw [varKind, run_peek]
  cases k <;> simp only [ht, VarKind.word, run_next] <;> rfl

theorem varDeclaration_eq (h : DeclaresAll n ts) (hdepth : ts.length ≤ d) (r : Reader)
    (hrest : EndsDeclaration rest) :
    varDeclaration (rulesTo r (d + 1)) (ts ++ rest) = .ok (.ok n, rest) := by
  obtain @⟨k, t, n, ns, ts, us, ht, h, hmore⟩ := h
  simp only [List.length_cons, List.length_append] at hdepth
  have hfirst := declarator_eq h (d := d) (by omega) r (hmore.endsBelow hrest.1)
  have hruns := runs_declarators hmore (d := d) (by omega) r hrest [.ok n]
  have hall : commaSeparated (declarator (rulesTo r (d + 1))) (ts ++ (us ++ rest)) =
      .ok ((n :: ns).map .ok, rest) := by
    rw [commaSeparated_eq, run_bind hfirst, run_bind (loop_of_runs hruns), List.reverse_append,
      List.reverse_reverse]
    rfl
  rw [List.cons_append, List.append_assoc, varDeclaration, run_here, run_bind (varKind_eq ht _),
    run_bind hall, mapM_ok]
  rfl

theorem endsDeclaration_terminator (hz : z.kind = .terminator) (rest : List Token) :
    EndsDeclaration (z :: rest) :=
  ⟨endsBelow_cons (by rw [hz]; decide), by simp [hz]⟩

/-! ## Statements that a terminator ends -/

/-- What a rule reads is a statement, if the rule is the one for the first token. -/
theorem reads_of_rule (rule : Reader → Rules → Parse Draft) (ht : t.kind.startsLine)
    (hstatement : ∀ r rules us, statement r rules (t :: us) =
      (do return ⟨← rule r rules, false⟩ : Parse Line) (t :: us))
    (h : ∀ (r : Reader) (d : Nat) (rest : List Token), ts.length ≤ d →
      EndsStatement closed rest →
        rule r (rulesTo r (d + 1)) (t :: (ts ++ rest)) = .ok (.ok n, rest)) :
    ReadsStatement closed n (t :: ts) := by
  refine ⟨⟨t, ts, rfl, ht⟩, fun r d hdepth rest hrest => ?_⟩
  rw [List.length_cons] at hdepth
  obtain ⟨d, rfl⟩ : ∃ d', d = d' + 1 := Nat.exists_eq_add_one_of_ne_zero (by omega)
  rw [List.cons_append, hstatement, run_bind (h r d rest (by omega) hrest)]
  rfl

theorem terminated_eq {rule : Parse Draft} (h : rule ts = .ok (.ok n, z :: rest))
    (hz : z.kind = .terminator) : terminated rule ts = .ok (.ok n, rest) := by
  rw [terminated, run_bind h, run_expect hz]
  rfl

theorem reads_varDecl (h : DeclaresAll n ts) (hz : z.kind = .terminator) :
    ReadsStatement closed n (ts ++ [z]) := by
  have hread (r : Reader) (d : Nat) (hdepth : ts.length ≤ d) (rest : List Token) :=
    terminated_eq (varDeclaration_eq h hdepth r (endsDeclaration_terminator hz rest)) hz
  obtain @⟨k, t, n, ns, ts, us, ht, -, -⟩ := h
  rw [List.cons_append]
  refine reads_of_rule (fun _ rules => terminated (varDeclaration rules))
    (by rw [ht]; cases k <;> rfl) (fun r rules us => ?_) fun r d rest hdepth _ => ?_
  · rw [statement, run_peek]
    cases k <;> simp only [ht, VarKind.word]
  · rw [List.length_append, List.length_singleton] at hdepth
    rw [List.append_assoc, List.singleton_append]
    exact hread r d (by rw [List.length_cons]; omega) rest

theorem statement_expression (ht : t.kind.startsOperand) (r : Reader) (rules : Rules)
    (ts : List Token) : statement r rules (t :: ts) =
      (do return ⟨← terminated (expressionStatement r rules), false⟩ : Parse Line) (t :: ts) := by
  rw [statement, run_peek]
  cases hk : t.kind <;> first | rfl | (rw [hk] at ht; cases ht)

theorem reads_exprStmt (he : Expressed e (t :: ts)) (hz : z.kind = .terminator) :
    ReadsStatement closed (.exprStmt (.ofLoc t.start) e) (t :: (ts ++ [z])) := by
  obtain ⟨_, _, heq, ht⟩ := he.starts
  cases heq
  refine reads_of_rule (fun r rules => terminated (expressionStatement r rules)) ?_
    (statement_expression ht) fun r d rest hdepth _ => terminated_eq (z := z) ?_ hz
  · have hne := kind_ne_of_startsOperand ht
    simp only [List.mem_cons, List.not_mem_nil, or_false, not_or] at hne
    simp [Kind.startsLine, hne]
  · simp only [List.length_append, List.length_cons, List.length_nil] at hdepth
    have hread := he.isRead r (d + 1) (by simp only [List.length_cons]; omega) (z :: rest)
      (endsBelow_cons (by rw [hz]; decide))
    rw [List.append_assoc, List.singleton_append, expressionStatement, run_here,
      ← List.cons_append, run_bind hread]
    rfl

theorem reads_emptyStmt (hz : z.kind = .terminator) (htext : z.text = ";") :
    ReadsStatement closed (.emptyStmt (.ofLoc z.start)) [z] := by
  refine ⟨⟨z, [], rfl, by rw [hz]; rfl⟩, fun r d _ rest _ => ?_⟩
  rw [List.singleton_append, statement, run_peek]
  simp only [hz, run_next, htext]
  rfl

theorem reads_breakStmt (ht : t.kind = .breakWord) (hz : z.kind = .terminator) :
    ReadsStatement closed (.breakStmt (.ofLoc t.start)) [t, z] :=
  reads_of_rule
    (fun _ _ => terminated (do let _ ← next; return .ok (.breakStmt (.ofLoc t.start))))
    (by rw [ht]; rfl) (fun r rules us => by simp only [statement, run_peek, ht])
    fun _ _ _ _ _ => terminated_eq rfl hz

theorem reads_continueStmt (ht : t.kind = .continueWord) (hz : z.kind = .terminator) :
    ReadsStatement closed (.continueStmt (.ofLoc t.start)) [t, z] :=
  reads_of_rule
    (fun _ _ => terminated (do let _ ← next; return .ok (.continueStmt (.ofLoc t.start))))
    (by rw [ht]; rfl) (fun r rules us => by simp only [statement, run_peek, ht])
    fun _ _ _ _ _ => terminated_eq rfl hz

theorem reads_returnStmt (ht : t.kind = .returnWord) (he : Maybe Expressed es ts)
    (hz : z.kind = .terminator) :
    ReadsStatement closed (.returnStmt (.ofLoc t.start) es) (t :: (ts ++ [z])) := by
  refine reads_of_rule (fun _ rules => terminated (do
      let _ ← next
      let value ← optionalUpTo .terminator rules.assign
      return value.map (.returnStmt (.ofLoc t.start) ·))) (by rw [ht]; rfl)
    (fun r rules us => by simp only [statement, run_peek, ht])
    fun r d rest hdepth _ => terminated_eq (z := z) ?_ hz
  rw [List.length_append, List.length_singleton] at hdepth
  have hvalue := optionalUpTo_eq he (d := d) (by omega) hz (.inl rfl) r rest
  rw [run_next, List.append_assoc, List.singleton_append, run_bind hvalue]
  rfl

theorem reads_throwStmt (ht : t.kind = .throwWord) (he : Expressed e ts)
    (hz : z.kind = .terminator) :
    ReadsStatement closed (.throwStmt (.ofLoc t.start) e) (t :: (ts ++ [z])) := by
  refine reads_of_rule (fun _ rules => terminated (do
      let _ ← next
      return (← rules.assign).map (.throwStmt (.ofLoc t.start) ·))) (by rw [ht]; rfl)
    (fun r rules us => by simp only [statement, run_peek, ht])
    fun r d rest hdepth _ => terminated_eq (z := z) ?_ hz
  rw [List.length_append, List.length_singleton] at hdepth
  have hvalue := he.read (d := d) (by omega) r (z :: rest)
    (endsBelow_cons (by rw [hz]; decide))
  rw [run_next, List.append_assoc, List.singleton_append, run_bind hvalue]
  rfl

/-! ## Statements with bodies -/

theorem reads_ifStmt (ht : t.kind = .ifWord) (ho : o.kind = .leftParen) (he : Expressed e ts)
    (hc : c.kind = .rightParen) (hbody : ReadsStatement false n us) :
    ReadsStatement false (.ifStmt (.ofLoc t.start) e n []) (t :: o :: (ts ++ c :: us)) := by
  refine reads_of_rule (fun _ => ifStatement) (by rw [ht]; rfl)
    (fun r rules us => by simp only [statement, run_peek, ht]) fun r d rest hdepth hrest => ?_
  simp only [List.length_append, List.length_cons] at hdepth
  have hcondition := condition_eq ho he (d := d) (by omega) hc r (us ++ rest)
  have hthen := hbody.body_eq (d := d) (by omega) r hrest
  have hnone : rest.head?.map Token.kind ≠ some .elseWord := by
    intro heq
    obtain ⟨u, hu, hk⟩ := Option.map_eq_some_iff.1 heq
    exact Bool.false_ne_true ((hrest u hu).2.2 hk)
  have helse : behind? .elseWord (body (rulesTo r (d + 1))) rest = .ok (.ok [], rest) := by
    rw [behind?, run_accept?_none hnone]
    rfl
  simp only [List.cons_append, List.append_assoc]
  rw [ifStatement, run_here, run_expect ht, run_bind hcondition, run_bind hthen, run_bind helse]
  rfl

theorem reads_ifElse {l : Token} (ht : t.kind = .ifWord) (ho : o.kind = .leftParen)
    (he : Expressed e ts) (hc : c.kind = .rightParen) (hbody : ReadsStatement true n us)
    (hl : l.kind = .elseWord) (helse : ReadsStatement closed m vs) :
    ReadsStatement closed (.ifStmt (.ofLoc t.start) e n [m])
      (t :: o :: (ts ++ c :: (us ++ l :: vs))) := by
  refine reads_of_rule (fun _ => ifStatement) (by rw [ht]; rfl)
    (fun r rules us => by simp only [statement, run_peek, ht]) fun r d rest hdepth hrest => ?_
  simp only [List.length_append, List.length_cons] at hdepth
  have hends : EndsStatement true (l :: (vs ++ rest)) := by
    rintro u hu
    obtain rfl := Option.some.inj hu
    rw [hl]
    decide
  have hcondition := condition_eq ho he (d := d) (by omega) hc r (us ++ l :: (vs ++ rest))
  have hthen := hbody.body_eq (d := d) (by omega) r hends
  have hmore := helse.body_eq (d := d) (by omega) r hrest
  have helse : behind? .elseWord (body (rulesTo r (d + 1))) (l :: (vs ++ rest)) =
      .ok (.ok [m], rest) := by
    rw [behind?, run_accept? hl]
    simp only [run_bind hmore]
    rfl
  simp only [List.cons_append, List.append_assoc]
  rw [ifStatement, run_here, run_expect ht, run_bind hcondition, run_bind hthen, run_bind helse]
  rfl

theorem reads_whileStmt (ht : t.kind = .whileWord) (ho : o.kind = .leftParen) (he : Expressed e ts)
    (hc : c.kind = .rightParen) (hbody : ReadsStatement closed n us) :
    ReadsStatement closed (.whileStmt (.ofLoc t.start) e n) (t :: o :: (ts ++ c :: us)) := by
  refine reads_of_rule (fun _ => whileStatement) (by rw [ht]; rfl)
    (fun r rules us => by simp only [statement, run_peek, ht]) fun r d rest hdepth hrest => ?_
  simp only [List.length_append, List.length_cons] at hdepth
  have hcondition := condition_eq ho he (d := d) (by omega) hc r (us ++ rest)
  have hbody := hbody.body_eq (d := d) (by omega) r hrest
  simp only [List.cons_append, List.append_assoc]
  rw [whileStatement, run_here, run_expect ht, run_bind hcondition, run_bind hbody]
  rfl

/-- Whether an `else` can follow the body does not matter: the `while` of the loop does. -/
theorem reads_doWhile {w : Token} (ht : t.kind = .doWord)
    (hbody : ReadsStatement false n us) (hw : w.kind = .whileWord) (ho : o.kind = .leftParen)
    (he : Expressed e ts) (hc : c.kind = .rightParen) (hz : z.kind = .terminator) :
    ReadsStatement closed (.doWhile (.ofLoc t.start) n e)
      (t :: (us ++ w :: o :: (ts ++ [c, z]))) := by
  refine reads_of_rule (fun _ => doStatement) (by rw [ht]; rfl)
    (fun r rules us => by simp only [statement, run_peek, ht]) fun r d rest hdepth _ => ?_
  simp only [List.length_append, List.length_cons, List.length_nil] at hdepth
  have hends : EndsStatement false (w :: o :: (ts ++ c :: z :: rest)) := by
    rintro u hu
    obtain rfl := Option.some.inj hu
    rw [hw]
    decide
  have hbody := hbody.body_eq (d := d) (by omega) r hends
  have hcondition := condition_eq ho he (d := d) (by omega) hc r (z :: rest)
  simp only [List.cons_append, List.append_assoc, List.nil_append]
  rw [doStatement, run_here, run_expect ht, run_bind hbody, run_expect hw, run_bind hcondition,
    run_expect hz]
  rfl

/-! ## Loops with a head -/

/-- The first part of the head of a counting loop, without its end. -/
inductive StartsLoop : List Node → List Token → Prop
  | expression {es : List Node} {ts : List Token} (h : Maybe Expressed es ts) : StartsLoop es ts
  | declaration {n : Node} {ts : List Token} (h : DeclaresAll n ts) : StartsLoop [n] ts

theorem startsIteration_eq_false (h : ∀ j k ks, ts.map Token.kind = j :: .name :: k :: ks →
      ([Kind.constWord, .letWord, .varWord].contains j && [Kind.ofWord, .inWord].contains k) =
        false) :
    startsIteration ts = .ok (false, ts) := by
  rw [startsIteration, run_get, ← run_pure]
  refine congrFun ?_ ts
  split
  · rename_i heq
    rw [h _ _ _ heq]
  · rfl

theorem StartsLoop.startsIteration_eq (h : StartsLoop ns ts) (hz : z.kind = .terminator)
    (rest : List Token) : startsIteration (ts ++ z :: rest) = .ok (false, ts ++ z :: rest) := by
  refine startsIteration_eq_false fun j k ks heq => ?_
  cases h with
  | expression h =>
    cases h with
    | none =>
      obtain ⟨rfl, -⟩ := List.cons.inj heq
      rw [hz]
      rfl
    | some h =>
      obtain ⟨t, ts, rfl, ht⟩ := h.starts
      obtain ⟨rfl, -⟩ := List.cons.inj heq
      have hne := kind_ne_of_startsOperand ht
      simp only [List.mem_cons, List.not_mem_nil, or_false, not_or] at hne
      simp [hne]
  | declaration h =>
    -- behind the name there is a value, another variable or the end
    obtain @⟨_, t, n, ns, ts, us, -, h, hmore⟩ := h
    suffices hk : k = .assign ∨ k = .comma ∨ k = .terminator by
      rcases hk with rfl | rfl | rfl <;> exact Bool.and_false _
    cases h with
    | value _ ha =>
      simp only [List.cons_append, List.map_cons, List.cons.injEq] at heq
      exact .inl (heq.2.2.1 ▸ ha)
    | bare _ =>
      cases hmore with
      | last =>
        simp only [List.cons_append, List.nil_append, List.map_cons, List.cons.injEq] at heq
        exact .inr (.inr (heq.2.2.1 ▸ hz))
      | more hc =>
        simp only [List.cons_append, List.nil_append, List.map_cons, List.cons.injEq] at heq
        exact .inr (.inl (heq.2.2.1 ▸ hc))

theorem StartsLoop.run (h : StartsLoop ns ts) (hdepth : ts.length ≤ d)
    (hz : z.kind = .terminator) (r : Reader) (rest : List Token) (f : Drafts → Parse Draft) :
    (do
      let initial : Drafts ← match ← peekKind? with
        | some .constWord | some .letWord | some .varWord =>
          single (varDeclaration (rulesTo r (d + 1)))
        | _ => optionalUpTo .terminator (rulesTo r (d + 1)).assign
      f initial : Parse Draft) (ts ++ z :: rest) = f (.ok ns) (z :: rest) := by
  rw [run_peekKind?]
  cases h with
  | expression h =>
    have hread := run_bind (optionalUpTo_eq h hdepth hz (.inl rfl) r rest) f
    have hne : ∀ u ∈ (ts ++ z :: rest).head?,
        u.kind ≠ .constWord ∧ u.kind ≠ .letWord ∧ u.kind ≠ .varWord := by
      cases h with
      | none => simp [hz]
      | some h =>
        obtain ⟨t, ts, rfl, ht⟩ := h.starts
        have hne := kind_ne_of_startsOperand ht
        simp only [List.mem_cons, List.not_mem_nil, or_false, not_or] at hne
        simp [hne]
    cases hhead : (ts ++ z :: rest).head? with
    | none => simp at hhead
    | some u =>
      have hne := hne u hhead
      rw [Option.map_some]
      cases hk : u.kind <;> first | exact hread | simp [hk] at hne
  | @declaration n ts h =>
    have hread := varDeclaration_eq h hdepth r (endsDeclaration_terminator hz rest)
    have hsingle : single (varDeclaration (rulesTo r (d + 1))) (ts ++ z :: rest) =
        .ok (.ok [n], z :: rest) := by
      rw [single, run_bind hread]
      rfl
    obtain @⟨k, t, n, ns, ts, us, ht, -, -⟩ := h
    rw [List.cons_append, List.head?_cons, Option.map_some, ht]
    cases k <;> exact run_bind hsingle f

theorem reads_forStmt {z' : Token} {test update : List Node} (ht : t.kind = .forWord)
    (ho : o.kind = .leftParen) (hfirst : StartsLoop ns ts) (hz : z.kind = .terminator)
    (htest : Maybe Expressed test us) (hz' : z'.kind = .terminator)
    (hupdate : Maybe Expressed update vs) (hc : c.kind = .rightParen)
    (hbody : ReadsStatement closed n ws) :
    ReadsStatement closed (.forStmt (.ofLoc t.start) ns test update n)
      (t :: o :: (ts ++ z :: (us ++ z' :: (vs ++ c :: ws)))) := by
  refine reads_of_rule (fun r rules => forStatement rules) (by rw [ht]; rfl)
    (fun r rules us => by simp only [statement, run_peek, ht]) fun r d rest hdepth hrest => ?_
  simp only [List.length_append, List.length_cons] at hdepth
  have hstarts := hfirst.startsIteration_eq hz (us ++ z' :: (vs ++ c :: (ws ++ rest)))
  have hinitial := hfirst.run (d := d) (by omega) hz r
    (us ++ z' :: (vs ++ c :: (ws ++ rest))) (forRest (rulesTo r (d + 1)) t.start)
  have htest := optionalUpTo_eq htest (d := d) (by omega) hz' (.inl rfl) r
    (vs ++ c :: (ws ++ rest))
  have hupdate := optionalUpTo_eq hupdate (d := d) (by omega) hc (.inr rfl) r (ws ++ rest)
  have hbody := hbody.body_eq (d := d) (by omega) r hrest
  simp only [List.cons_append, List.append_assoc]
  rw [forStatement, run_here, run_expect ht, run_expect ho, run_bind hstarts]
  refine hinitial.trans ?_
  rw [forRest, run_expect hz, run_bind htest, run_expect hz', run_bind hupdate, run_expect hc,
    run_bind hbody]
  rfl

theorem iteration_eq {runs : Iteration} (ht : t.kind = runs.word.kind) (rest : List Token) :
    iteration (t :: rest) = .ok (runs, rest) := by
  cases runs with
  | values =>
    have ht : t.kind = .ofWord := ht
    rw [iteration, run_accept? ht]
    rfl
  | keys =>
    have ht : t.kind = .inWord := ht
    have hnone : (t :: rest).head?.map Token.kind ≠ some .ofWord := by simp [ht]
    rw [iteration, run_accept?_none hnone]
    simp only [run_expect ht]
    rfl

theorem reads_forIn {k : VarKind} {runs : Iteration} {v x u : Token} (ht : t.kind = .forWord)
    (ho : o.kind = .leftParen) (hv : v.kind = k.word.kind) (hx : x.kind = .name)
    (hu : u.kind = runs.word.kind) (he : Expressed e ts) (hc : c.kind = .rightParen)
    (hbody : ReadsStatement closed n us) :
    ReadsStatement closed (.forIn (.ofLoc t.start) k runs (Reader.name x) e n)
      (t :: o :: v :: x :: u :: (ts ++ c :: us)) := by
  refine reads_of_rule (fun r rules => forStatement rules) (by rw [ht]; rfl)
    (fun r rules us => by simp only [statement, run_peek, ht]) fun r d rest hdepth hrest => ?_
  simp only [List.length_append, List.length_cons] at hdepth
  have hiterable := he.read (d := d) (by omega) r (c :: (us ++ rest))
    (endsBelow_cons (by rw [hc]; decide))
  have hbody := hbody.body_eq (d := d) (by omega) r hrest
  have hstarts : startsIteration (v :: x :: u :: (ts ++ c :: (us ++ rest))) =
      .ok (true, v :: x :: u :: (ts ++ c :: (us ++ rest))) := by
    rw [startsIteration, run_get, List.map_cons, List.map_cons, List.map_cons, hv, hx, hu]
    cases k <;> cases runs <;> rfl
  simp only [List.cons_append, List.append_assoc]
  rw [forStatement, run_here, run_expect ht, run_expect ho, run_bind hstarts]
  simp only [if_true]
  rw [run_bind (varKind_eq hv _), run_expect hx, run_bind (iteration_eq hu _), run_bind hiterable,
    run_expect hc, run_bind hbody]
  rfl

/-! ## Lines -/

theorem Lines.append_filler (h : Lines ns ts) (hz : z.kind = .terminator) (hne : z.text ≠ ";") :
    Lines ns (ts ++ [z]) := by
  induction h with
  | nil => exact .filler hz hne .nil
  | filler ht hne _ ih => exact .filler ht hne ih
  | statement h _ ih =>
    rw [List.append_assoc]
    exact .statement h ih

theorem Lines.endsStatement (h : Lines ns ts) (hrest : EndsStatement false rest) :
    EndsStatement false (ts ++ rest) := by
  have hstarts {t : Token} {us : List Token} (ht : t.kind.startsLine) :
      EndsStatement false (t :: us) := by
    rintro u hu
    obtain rfl := Option.some.inj hu
    have hne : t.kind ∉ [.rightBrace, .elseWord, .catchWord, .finallyWord] := by
      simpa [Kind.startsLine] using ht
    simp only [List.mem_cons, List.not_mem_nil, or_false, not_or] at hne
    exact ⟨hne.2.2.1, hne.2.2.2, fun hk => absurd hk hne.2.1⟩
  cases h with
  | nil => exact hrest
  | filler ht => exact hstarts (by rw [ht]; rfl)
  | statement h =>
    obtain ⟨t, us, rfl, ht⟩ := h.starts
    exact hstarts ht

/-- A loop that reads one statement after the other reads the lines. -/
theorem Lines.runs (h : Lines ns ts) (hdepth : ts.length ≤ d) (r : Reader)
    (step : List Line → Parse (Option (List Line))) (rest : List Token)
    (hstep : ∀ acc t us, t.kind ≠ .rightBrace → step acc (t :: us) =
      (do return some ((← Grammar.statement r (rulesTo r d)) :: acc) :
        Parse (Option (List Line))) (t :: us))
    (hstop : ∀ acc, step acc rest = .ok (none, rest)) (hrest : EndsStatement false rest)
    (acc : List Line) : ∃ lines : List Line,
      Runs step acc (ts ++ rest) (lines.reverse ++ acc, rest) ∧
        (lines.filter (!·.isFiller)).mapM Line.draft = .ok ns := by
  induction h generalizing acc with
  | nil => exact ⟨[], .stop (hstop acc), rfl⟩
  | @filler t ns ts ht hne _ ih =>
    rw [List.length_cons] at hdepth
    let line : Line := ⟨.ok (.emptyStmt (.ofLoc t.start)), t.text != ";"⟩
    obtain ⟨lines, hruns, hlines⟩ := ih (by omega) (line :: acc)
    have hstatement : Grammar.statement r (rulesTo r d) (t :: (ts ++ rest)) =
        .ok (line, ts ++ rest) := by
      rw [Grammar.statement, run_peek]
      simp only [ht, run_next]
      rfl
    have hline : step acc (t :: (ts ++ rest)) = .ok (some (line :: acc), ts ++ rest) := by
      rw [hstep acc t _ (by rw [ht]; decide), run_bind hstatement]
      rfl
    refine ⟨line :: lines, .step hline (by simp) (by simpa using hruns), ?_⟩
    rw [List.filter_cons_of_neg (by simpa [line] using hne)]
    exact hlines
  | @statement n ns ts us h hmore ih =>
    rw [List.length_append] at hdepth
    let line : Line := ⟨.ok n, false⟩
    obtain ⟨lines, hruns, hlines⟩ := ih (by omega) (line :: acc)
    have hstatement := h.read r d (by omega) (us ++ rest) (hmore.endsStatement hrest)
    obtain ⟨t, ts, rfl, ht⟩ := h.starts
    have hbrace : t.kind ≠ .rightBrace := by
      rintro hk
      rw [hk] at ht
      cases ht
    have hline : step acc (t :: ts ++ us ++ rest) = .ok (some (line :: acc), us ++ rest) := by
      rw [List.cons_append] at hstatement
      rw [List.append_assoc, List.cons_append, hstep acc t _ hbrace, run_bind hstatement]
      rfl
    refine ⟨line :: lines, .step hline ?_ (by simpa using hruns), ?_⟩
    · simp only [List.length_append, List.length_cons]
      omega
    · rw [List.filter_cons_of_pos rfl, List.mapM_cons, hlines]
      rfl

theorem reads_block (ho : o.kind = .blockBrace) (h : Lines ns ts) (hc : c.kind = .rightBrace) :
    ReadsBlock (.block (.ofLoc o.start) (some c.stop) [] ns) (o :: (ts ++ [c])) := by
  refine ⟨⟨o, _, rfl, ho⟩, fun r d hdepth rest => ?_⟩
  simp only [List.length_append, List.length_cons, List.length_nil] at hdepth
  obtain ⟨d, rfl⟩ : ∃ d', d = d' + 1 := Nat.exists_eq_add_one_of_ne_zero (by omega)
  have hends : EndsStatement false (c :: rest) := by
    rintro u hu
    obtain rfl := Option.some.inj hu
    rw [hc]
    exact ⟨nofun, nofun, nofun⟩
  let step (items : List Line) : Parse (Option (List Line)) := do
    if ← atKind .rightBrace then return none
    else return some ((← (rulesTo r (d + 1)).statement) :: items)
  have hstep (acc : List Line) (t : Token) (us : List Token) (ht : t.kind ≠ .rightBrace) :
      step acc (t :: us) = (do return some ((← statement r (rulesTo r d)) :: acc) :
        Parse (Option (List Line))) (t :: us) := by
    simp only [step]
    rw [run_atKind, if_neg (by simpa using ht)]
    rfl
  have hstop (acc : List Line) : step acc (c :: rest) = .ok (none, c :: rest) := by
    simp only [step]
    rw [run_atKind, if_pos (by simp [hc])]
    rfl
  obtain ⟨lines, hruns, hlines⟩ :=
    h.runs (d := d) (by omega) r step (c :: rest) hstep hstop hends []
  have hlist : listUpTo .rightBrace (rulesTo r (d + 1)).statement (ts ++ c :: rest) =
      .ok (lines, c :: rest) := by
    have hloop : loop step [] (ts ++ c :: rest) = _ := loop_of_runs hruns
    rw [listUpTo]
    refine (run_bind hloop _).trans ?_
    rw [List.append_nil, List.reverse_reverse]
    rfl
  rw [List.cons_append, List.append_assoc, List.singleton_append, block, run_expect ho,
    run_bind hlist, run_expect hc]
  simp only [hlines]
  rfl

theorem ReadsBlock.statement (h : ReadsBlock n ts) : ReadsStatement closed n ts := by
  obtain ⟨t, us, rfl, ht⟩ := h.starts
  refine reads_of_rule (fun _ => block) (by rw [ht]; rfl)
    (fun r rules us => by simp only [Grammar.statement, run_peek, ht])
    fun r d rest hdepth _ => ?_
  exact h.read r (d + 1) (by rw [List.length_cons]; omega) rest

theorem Lines.statements_eq (h : Lines ns ts) (hdepth : ts.length ≤ d) (r : Reader) :
    statements (rulesTo r (d + 1)) ts = .ok (.ok ns, []) := by
  obtain ⟨lines, hruns, hlines⟩ := h.runs hdepth r (lineStep (rulesTo r (d + 1))) []
    (fun _ _ _ _ => rfl) (fun _ => rfl) (by simp [EndsStatement]) []
  rw [List.append_nil, List.append_nil] at hruns
  rw [Grammar.statements_eq, run_bind (loop_of_runs hruns), List.reverse_reverse, hlines]
  rfl

/-! ## Handlers -/

inductive Caught : List Node → List Token → Prop
  | nothing : Caught [] []
  | name {o t c : Token} (ho : o.kind = .leftParen) (ht : t.kind = .name)
    (hc : c.kind = .rightParen) : Caught [Reader.name t] [o, t, c]

inductive Finally : List Node → List Token → Prop
  | nothing : Finally [] []
  | block {t : Token} {n : Node} {ts : List Token} (ht : t.kind = .finallyWord)
    (h : ReadsBlock n ts) : Finally [n] (t :: ts)

theorem reads_handler (ht : t.kind = .catchWord) (hparam : Caught es ts) (h : ReadsBlock n us) :
    ReadsHandler (.catchClause (.ofLoc t.start) es n) (t :: (ts ++ us)) := by
  refine ⟨⟨t, _, rfl, ht⟩, fun r d hdepth rest => ?_⟩
  simp only [List.length_cons, List.length_append] at hdepth
  have hblock := h.read r d (by omega) rest
  have hcaught : behind? .leftParen (do
      let name ← expect .name
      let _ ← expect .rightParen
      return .ok (Reader.name name)) (ts ++ (us ++ rest)) = .ok (.ok es, us ++ rest) := by
    cases hparam with
    | nothing =>
      obtain ⟨u, us, rfl, hu⟩ := h.starts
      have hnone : (u :: us ++ rest).head?.map Token.kind ≠ some .leftParen := by simp [hu]
      rw [List.nil_append, behind?, run_accept?_none hnone]
      rfl
    | name ho hx hc =>
      rw [behind?, List.cons_append, run_accept? ho]
      simp only [List.cons_append, List.nil_append, bind_assoc]
      rw [run_expect hx, run_expect hc]
      rfl
  rw [List.cons_append, List.append_assoc, catchClause, run_here, run_expect ht, run_bind hcaught,
    run_bind hblock]
  rfl

theorem reads_tryStmt (ht : t.kind = .tryWord) (hblock : ReadsBlock n ts)
    (hhandler : Maybe ReadsHandler es us) (hfinally : Finally ns vs) :
    ReadsStatement closed (.tryStmt (.ofLoc t.start) n es ns) (t :: (ts ++ (us ++ vs))) := by
  refine reads_of_rule (fun _ => tryStatement) (by rw [ht]; rfl)
    (fun r rules us => by simp only [statement, run_peek, ht]) fun r d rest hdepth hrest => ?_
  simp only [List.length_append] at hdepth
  have hread := hblock.read r (d + 1) (by omega) (us ++ (vs ++ rest))
  -- what follows the block is no handler if there is none, and the end is behind both
  have hends : ∀ u ∈ (vs ++ rest).head?, u.kind ≠ .catchWord := by
    cases hfinally with
    | nothing => exact fun u hu => (hrest u hu).1
    | block ht => simp [ht]
  have hcatch (f : Drafts → Parse Draft) : (do
      if ← atKind .catchWord then f (← single (catchClause (rulesTo r (d + 1))))
      else f (.ok []) : Parse Draft) (us ++ (vs ++ rest)) = f (.ok es) (vs ++ rest) := by
    cases hhandler with
    | none =>
      rw [List.nil_append, run_atKind, if_neg (by
        simpa using fun h => (Option.map_eq_some_iff.1 h).elim fun u hu => hends u hu.1 hu.2)]
    | some h =>
      have hread := h.read r (d + 1) (by omega) (vs ++ rest)
      obtain ⟨u, us, rfl, hu⟩ := h.starts
      rw [run_atKind, if_pos (by simp [hu]), single, bind_assoc, run_bind hread]
      rfl
  have hend : behind? .finallyWord (block (rulesTo r (d + 1))) (vs ++ rest) =
      .ok (.ok ns, rest) := by
    cases hfinally with
    | nothing =>
      have hnone : rest.head?.map Token.kind ≠ some .finallyWord := fun h =>
        (Option.map_eq_some_iff.1 h).elim fun u hu => (hrest u hu.1).2.1 hu.2
      rw [List.nil_append, behind?, run_accept?_none hnone]
      rfl
    | block ht h =>
      rw [List.length_cons] at hdepth
      have hread := h.read r (d + 1) (by omega) rest
      rw [List.cons_append, behind?, run_accept? ht]
      simp only [run_bind hread]
      rfl
  simp only [List.append_assoc]
  rw [tryStatement, run_here, run_expect ht, run_bind hread]
  refine (hcatch _).trans ?_
  rw [run_bind hend]
  rfl

end Grammar

end InlineTemplates
