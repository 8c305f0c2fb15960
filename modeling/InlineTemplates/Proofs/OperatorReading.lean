import InlineTemplates.Proofs.OperatorPhrases

/-!
# Phrases of operators are read

Whatever derives from the grammar of operators is read as its tree, in front of any tokens that do
not bind more tightly than the phrase.
-/

namespace InlineTemplates

/-! ## Running rules -/

namespace Parse

variable {α β : Type} {ts rest : List Token} {t : Token} {k : Token.Kind}

theorem run_bind {x : Parse α} {a : α} (h : x ts = .ok (a, rest)) (f : α → Parse β) :
    (x >>= f) ts = f a rest := by
  change Except.bind (x ts) _ = _
  rw [h]
  rfl

theorem run_pure (a : α) : (pure a : Parse α) ts = .ok (a, ts) := rfl

theorem run_get (f : List Token → Parse β) : (get >>= f) ts = f ts ts := rfl

theorem run_peek (f : Token → Parse β) : (peek >>= f) (t :: ts) = f t (t :: ts) := rfl

theorem run_here (f : Location → Parse β) : (here >>= f) (t :: ts) = f t.start (t :: ts) := rfl

theorem run_next (f : Token → Parse β) : (next >>= f) (t :: ts) = f t ts := rfl

theorem run_peekKind? (f : Option Token.Kind → Parse β) :
    (peekKind? >>= f) ts = f (ts.head?.map Token.kind) ts := rfl

theorem run_peekSecond? (f : Option Token.Kind → Parse β) :
    (peekSecond? >>= f) ts = f ((ts.drop 1).head?.map Token.kind) ts := rfl

theorem run_atKind (f : Bool → Parse β) :
    (atKind k >>= f) ts = f (ts.head?.map Token.kind = some k) ts := rfl

theorem run_expect (h : t.kind = k) (f : Token → Parse β) : (expect k >>= f) (t :: ts) = f t ts :=
  run_bind (by simp [expect, h]) f

theorem run_accept? (h : t.kind = k) (f : Option Token → Parse β) :
    (accept? k >>= f) (t :: ts) = f (some t) ts :=
  run_bind (by simp [accept?, h]) f

theorem run_accept?_none (h : ts.head?.map Token.kind ≠ some k) (f : Option Token → Parse β) :
    (accept? k >>= f) ts = f none ts := by
  refine run_bind ?_ f
  cases ts with
  | nil => rfl
  | cons t ts =>
    have hne : t.kind ≠ k := by simpa using h
    simp [accept?, hne]

/-- The steps of a loop up to the one that gives nothing. Each step consumes a token. -/
inductive Runs (step : α → Parse (Option α)) : α → List Token → α × List Token → Prop
  | stop {a : α} {ts : List Token} (h : step a ts = .ok (none, ts)) : Runs step a ts (a, ts)
  | step {a b : α} {ts rest : List Token} {res : α × List Token}
    (h : step a ts = .ok (some b, rest)) (hlt : rest.length < ts.length)
    (hrest : Runs step b rest res) : Runs step a ts res

theorem iterate_of_runs {step : α → Parse (Option α)} {a : α} {res : α × List Token}
    (h : Runs step a ts res) {clock : List Token} (hclock : ts.length ≤ clock.length) :
    iterate step clock a ts = .ok res := by
  induction h generalizing clock with
  | stop h =>
    cases clock with
    | nil => rfl
    | cons c clock => rw [iterate, run_bind h]; rfl
  | step h hlt _ ih =>
    cases clock with
    | nil => simp only [List.length_nil] at hclock; omega
    | cons c clock =>
      rw [List.length_cons] at hclock
      rw [iterate, run_bind h]
      exact ih (by omega)

theorem loop_of_runs {step : α → Parse (Option α)} {a : α} {res : α × List Token}
    (h : Runs step a ts res) : loop step a ts = .ok res :=
  iterate_of_runs h (Nat.le_refl _)

end Parse

namespace Grammar

open Parse

/-! ## Reading phrases -/

/-- The next token does not bind as tightly as the precedence. -/
def EndsBelow (p : Nat) (ts : List Token) : Prop := ∀ t ∈ ts.head?, t.kind.tightness < p

theorem EndsBelow.mono {p q : Nat} {ts : List Token} (h : EndsBelow p ts) (hle : p ≤ q) :
    EndsBelow q ts := fun t ht => Nat.lt_of_lt_of_le (h t ht) hle

theorem EndsBelow.head_ne {p : Nat} {ts : List Token} (h : EndsBelow p ts) {k : Token.Kind}
    (hk : p ≤ k.tightness) : ts.head?.map Token.kind ≠ some k := by
  cases ts with
  | nil => simp
  | cons t ts =>
    have := h t rfl
    rintro heq
    obtain rfl : t.kind = k := by simpa using heq
    omega

section Reading

variable (r : Reader) (rules : Rules)

def above : Rules :=
  ⟨Grammar.assign r rules, Grammar.unary r rules, Grammar.postfixed r rules, statement r rules⟩

@[simp]
theorem above_assign : (above r rules).assign = Grammar.assign r rules := rfl

@[simp]
theorem above_unary : (above r rules).unary = Grammar.unary r rules := rfl

/-- The operators with their operands, given the number of precedences below the unary one. -/
def operandBelow : Nat → Parse Operand
  | 0 => Grammar.unary r rules
  | n + 1 => binaryLevel (9 - n) (operandBelow n)

def operand (p : Nat) : Parse Operand := operandBelow r rules (10 - p)

theorem operand_of_lt {p : Nat} (hp : p < 10) :
    operand r rules p = binaryLevel p (operand r rules (p + 1)) := by
  have hsucc : 10 - p = 9 - p + 1 := by omega
  have hlevel : 9 - (9 - p) = p := by omega
  rw [operand, hsucc, operandBelow, hlevel, operand, show 10 - (p + 1) = 9 - p by omega]

theorem operand_unary : operand r rules 10 = Grammar.unary r rules := rfl

theorem operand_ternary : operand r rules 3 = Grammar.binary r rules := rfl

def binaryStep (start : Location) (p : Nat) (operand : Parse Operand) (left : Operand) :
    Parse (Option Operand) := do
  match (← peekKind?).bind BinaryOp.ofKind? with
  | none => return none
  | some op =>
    if op.precedence = p then
      let _ ← next
      let right ← operand
      return some ⟨do return .binary (.ofLoc start) op (← left.draft) (← right.draft), false⟩
    else return none

theorem binaryLevel_eq (p : Nat) (operand : Parse Operand) :
    binaryLevel p operand = (do
      let start ← here
      let first ← operand
      loop (binaryStep start p operand) first) := rfl

def commaStep {α : Type} (close : Token.Kind) (item : Parse α) (items : List α) :
    Parse (Option (List α)) := do
  match ← accept? .comma with
  | none => return none
  | some _ => if ← atKind close then return none else return some ((← item) :: items)

theorem commaList_eq {α : Type} (close : Token.Kind) (item : Parse α) :
    commaList close item = (do
      if ← atKind close then
        let _ ← next
        return []
      let first ← item
      let items ← loop (commaStep close item) [first]
      let _ ← expect close
      return items.reverse) := rfl

theorem commaList_none {α : Type} (item : Parse α) (c : Token) (rest : List Token) :
    commaList c.kind item (c :: rest) = .ok ([], rest) := by
  simp only [commaList_eq, run_atKind, List.head?_cons, Option.map_some, decide_true, if_true,
    run_next]
  rfl

theorem commaList_of_runs {α : Type} {item : Parse α} {a : α} {items : List α} {c t : Token}
    {ts us rest : List Token} (hne : t.kind ≠ c.kind) (hitem : item (t :: ts) = .ok (a, us))
    (hruns : Runs (commaStep c.kind item) [a] us (items, c :: rest)) :
    commaList c.kind item (t :: ts) = .ok (items.reverse, rest) := by
  simp only [commaList_eq, run_atKind, List.head?_cons, Option.map_some, Option.some.injEq, hne,
    decide_false, Bool.false_eq_true, if_false, run_bind hitem, run_bind (loop_of_runs hruns),
    run_expect rfl]
  rfl

theorem commaStep_none {α : Type} {ts : List Token}
    (h : ts.head?.map Token.kind ≠ some .comma) (close : Token.Kind) (item : Parse α)
    (items : List α) : commaStep close item items ts = .ok (none, ts) := by
  simp only [commaStep, run_accept?_none h]
  rfl

theorem commaStep_some {α : Type} {item : Parse α} {a : α} {close : Token.Kind} {comma t : Token}
    {ts rest : List Token} (hcomma : comma.kind = .comma) (hne : t.kind ≠ close)
    (hitem : item (t :: ts) = .ok (a, rest)) (items : List α) :
    commaStep close item items (comma :: t :: ts) = .ok (some (a :: items), rest) := by
  simp only [commaStep, run_accept? hcomma, run_atKind, List.head?_cons, Option.map_some,
    Option.some.injEq, hne, decide_false, Bool.false_eq_true, if_false, run_bind hitem]
  rfl

/-- The phrase is read from the tokens, whatever stands behind them that does not go on with it.
Where operators group to the left, the loop over them goes on behind the phrase. -/
def Phrase.IsRead : Phrase → List Token → Prop
  | .primary e, ts => ∀ rest, Grammar.primary r rules (ts ++ rest) = .ok (.ok e, rest)
  | .postfixed e, ts => ∀ t us, ts = t :: us → ∀ rest res,
    Runs (postfixStep r rules t.start) (.ok e) rest res →
      Grammar.postfixed r rules (ts ++ rest) = .ok res
  | .operand isTarget p e, ts =>
    if p < 10 then
      ∀ t us, ts = t :: us → ∀ rest res, EndsBelow (p + 1) rest →
        Runs (binaryStep t.start p (Grammar.operand r rules (p + 1))) ⟨.ok e, isTarget⟩ rest res →
          Grammar.operand r rules p (ts ++ rest) = .ok res
    else
      ∀ rest, EndsBelow p rest →
        Grammar.operand r rules p (ts ++ rest) = .ok (⟨.ok e, isTarget⟩, rest)
  | .assign e, ts => ∀ rest, EndsBelow 1 rest →
    Grammar.assign r rules (ts ++ rest) = .ok (.ok e, rest)
  | .element e, ts => ∀ rest, EndsBelow 1 rest →
    Grammar.element (above r rules) (ts ++ rest) = .ok (.ok e, rest)
  | .items es, ts => ∀ c rest, c.kind.closesItems →
    commaList c.kind (Grammar.element (above r rules)) (ts ++ c :: rest) =
      .ok (es.map .ok, rest)
  | .more es, ts => ∀ c rest acc, c.kind.closesItems →
    Runs (commaStep c.kind (Grammar.element (above r rules))) acc (ts ++ c :: rest)
      ((es.map .ok).reverse ++ acc, c :: rest)

variable {r rules} {e : Node} {es : List Node} {t : Token} {ts us rest : List Token}
  {isTarget : Bool} {p : Nat}

/-! ### Primaries -/

theorem isRead_name (ht : t.kind = .name) :
    (Phrase.primary (Reader.name t)).IsRead r rules [t] := by
  obtain ⟨kind, text, start, stop⟩ := t
  obtain rfl : kind = .name := ht
  exact fun _ => rfl

theorem isRead_string {v : Text} (ht : t.kind = .string)
    (hv : (Reader.inside t).unescaped = .ok v) :
    (Phrase.primary (.literal (.ofLoc t.start) (.str v))).IsRead r rules [t] := by
  intro rest
  simp only [List.cons_append, List.nil_append, Grammar.primary, run_peek, ht, run_next,
    Reader.string, Reader.unescape, hv]
  rfl

theorem isRead_true (ht : t.kind = .trueWord) :
    (Phrase.primary (.literal (.ofLoc t.start) (.bool true))).IsRead r rules [t] := by
  obtain ⟨kind, text, start, stop⟩ := t
  obtain rfl : kind = .trueWord := ht
  exact fun _ => rfl

theorem isRead_false (ht : t.kind = .falseWord) :
    (Phrase.primary (.literal (.ofLoc t.start) (.bool false))).IsRead r rules [t] := by
  obtain ⟨kind, text, start, stop⟩ := t
  obtain rfl : kind = .falseWord := ht
  exact fun _ => rfl

theorem isRead_null (ht : t.kind = .nullWord) :
    (Phrase.primary (.literal (.ofLoc t.start) .null)).IsRead r rules [t] := by
  obtain ⟨kind, text, start, stop⟩ := t
  obtain rfl : kind = .nullWord := ht
  exact fun _ => rfl

theorem mapM_ok (es : List Node) : (es.map Except.ok : List Draft).mapM id = .ok es := by
  induction es with
  | nil => rfl
  | cons e es ih => rw [List.map_cons, List.mapM_cons, ih]; rfl

theorem isRead_array {o c : Token} (ho : o.kind = .leftBracket)
    (h : (Phrase.items es).IsRead r rules ts) (hc : c.kind = .rightBracket) :
    (Phrase.primary (.array (.ofLoc o.start) es)).IsRead r (above r rules) (o :: ts ++ [c]) := by
  intro rest
  have hitems := h c rest (by rw [hc]; rfl)
  rw [hc] at hitems
  simp only [List.cons_append, List.append_assoc, List.nil_append, Grammar.primary, run_peek, ho,
    run_next, run_bind hitems, mapM_ok]
  rfl

theorem endsBelow_cons {u : Token} (h : u.kind.tightness < p) : EndsBelow p (u :: rest) := by
  intro v hv
  obtain rfl := Option.some.inj hv
  exact h

theorem isRead_parens {o c : Token} (ho : o.kind = .leftParen)
    (h : (Phrase.assign e).IsRead r rules ts) (hc : c.kind = .rightParen) :
    (Phrase.primary e).IsRead r (above r rules) (o :: ts ++ [c]) := by
  intro rest
  have hinner := h (c :: rest) (endsBelow_cons (by rw [hc]; decide))
  simp only [List.cons_append, List.append_assoc, List.nil_append, Grammar.primary, run_peek, ho,
    run_next, above_assign]
  rw [run_bind hinner, run_expect hc]
  rfl

/-! ### Accesses and calls -/

theorem isRead_base (hnew : t.kind ≠ .newWord)
    (h : (Phrase.primary e).IsRead r rules (t :: ts)) :
    (Phrase.postfixed e).IsRead r rules (t :: ts) := by
  rintro u us heq rest res hruns
  cases heq
  have hprimary := h rest
  simp only [List.cons_append] at hprimary ⊢
  simp only [Grammar.postfixed, run_here, run_atKind, List.head?_cons, Option.map_some,
    Option.some.injEq, hnew, decide_false, Bool.false_eq_true, if_false]
  rw [run_bind hprimary]
  exact loop_of_runs hruns

theorem isRead_step {e' : Node} (h : (Phrase.postfixed e).IsRead r rules (t :: ts))
    (hstep : ∀ rest, postfixStep r rules t.start (.ok e) (us ++ rest) = .ok (some (.ok e'), rest))
    (hne : us ≠ []) : (Phrase.postfixed e').IsRead r rules (t :: ts ++ us) := by
  rintro u vs heq rest res hruns
  cases heq
  rw [List.append_assoc]
  refine h t ts rfl (us ++ rest) res (.step (hstep rest) ?_ hruns)
  have := List.length_pos_iff.2 hne
  rw [List.length_append]
  omega

theorem memberName_eq {q : Token} (hq : q.kind = .name ∨ q.kind = .privateName)
    (rest : List Token) : memberName (q :: rest) = .ok (q.text, rest) := by
  rcases hq with hq | hq
  · have hne : (q :: rest).head?.map Token.kind ≠ some .privateName := by simp [hq]
    simp only [memberName, run_accept?_none hne, run_expect hq]
    rfl
  · rw [memberName, run_accept? hq]
    rfl

theorem postfixStep_attr {d q : Token} {optional : Bool}
    (hd : d.kind = if optional then .optionalChain else .dot)
    (hq : q.kind = .name ∨ q.kind = .privateName) (start : Location) (rest : List Token) :
    postfixStep r rules start (.ok e) (d :: q :: rest) =
      .ok (some (.ok (.attr (.ofLoc start) q.text optional e)), rest) := by
  have hname := memberName_eq hq rest
  cases optional with
  | false =>
    simp only [postfixStep, run_peekKind?, List.head?_cons, Option.map_some, hd,
      Bool.false_eq_true, if_false, run_next, run_bind hname]
    rfl
  | true =>
    simp only [postfixStep, run_peekKind?, List.head?_cons, Option.map_some, hd, if_true, run_next]
    rcases hq with hq | hq <;> simp only [hq, run_bind hname] <;> rfl

def ChainSign (optional : Bool) (ds : List Token) : Prop :=
  ds.map Token.kind = if optional then [.optionalChain] else []

theorem chainSign_none : ChainSign false [] := rfl

theorem chainSign_some {d : Token} (hd : d.kind = .optionalChain) : ChainSign true [d] :=
  congrArg ([·]) hd

theorem postfixStep_index {i : Node} {ds : List Token} {o c : Token} {optional : Bool}
    (hds : ChainSign optional ds) (ho : o.kind = .leftBracket)
    (hi : (Phrase.assign i).IsRead r rules us) (hc : c.kind = .rightBracket) (start : Location)
    (rest : List Token) :
    postfixStep r (above r rules) start (.ok e) (ds ++ o :: (us ++ c :: rest)) =
      .ok (some (.ok (.index (.ofLoc start) optional e i)), rest) := by
  have hinner := hi (c :: rest) (endsBelow_cons (by rw [hc]; decide))
  cases optional with
  | false =>
    obtain rfl := List.map_eq_nil_iff.1 hds
    simp only [List.nil_append, postfixStep, run_peekKind?, List.head?_cons, Option.map_some, ho,
      run_next, above_assign]
    rw [run_bind hinner, run_expect hc]
    rfl
  | true =>
    obtain ⟨d, rfl, hd⟩ := List.map_eq_singleton_iff.1 hds
    simp only [List.cons_append, List.nil_append, postfixStep, run_peekKind?, List.head?_cons,
      Option.map_some, hd, ho, run_next, above_assign]
    rw [run_bind hinner, run_expect hc]
    rfl

theorem arguments_eq {o c : Token} (ho : o.kind = .leftParen)
    (h : (Phrase.items es).IsRead r rules us) (hc : c.kind = .rightParen) (rest : List Token) :
    arguments (above r rules) (o :: (us ++ c :: rest)) = .ok (.ok es, rest) := by
  have hitems := h c rest (by rw [hc]; rfl)
  rw [hc] at hitems
  rw [arguments, run_expect ho, run_bind hitems, mapM_ok]
  rfl

theorem postfixStep_call {ds : List Token} {o c : Token} {optional : Bool}
    (hds : ChainSign optional ds) (ho : o.kind = .leftParen)
    (hargs : (Phrase.items es).IsRead r rules us) (hc : c.kind = .rightParen) (start : Location)
    (rest : List Token) :
    postfixStep r (above r rules) start (.ok e) (ds ++ o :: (us ++ c :: rest)) =
      .ok (some (.ok (.call (.ofLoc start) optional e es)), rest) := by
  cases optional with
  | false =>
    obtain rfl := List.map_eq_nil_iff.1 hds
    simp only [List.nil_append, postfixStep, run_peekKind?, List.head?_cons, Option.map_some, ho]
    rw [run_bind (arguments_eq ho hargs hc rest)]
    rfl
  | true =>
    obtain ⟨d, rfl, hd⟩ := List.map_eq_singleton_iff.1 hds
    simp only [List.cons_append, List.nil_append, postfixStep, run_peekKind?, List.head?_cons,
      Option.map_some, hd, ho, run_next]
    rw [run_bind (arguments_eq ho hargs hc rest)]
    rfl

theorem isRead_attr {d q : Token} {optional : Bool}
    (h : (Phrase.postfixed e).IsRead r rules (t :: ts))
    (hd : d.kind = if optional then .optionalChain else .dot)
    (hq : q.kind = .name ∨ q.kind = .privateName) :
    (Phrase.postfixed (.attr (.ofLoc t.start) q.text optional e)).IsRead r rules
      (t :: ts ++ [d, q]) :=
  isRead_step h (postfixStep_attr hd hq t.start) (by simp)

theorem isRead_index {i : Node} {ds : List Token} {o c : Token} {optional : Bool}
    (h : (Phrase.postfixed e).IsRead r (above r rules) (t :: ts)) (hds : ChainSign optional ds)
    (ho : o.kind = .leftBracket) (hi : (Phrase.assign i).IsRead r rules us)
    (hc : c.kind = .rightBracket) :
    (Phrase.postfixed (.index (.ofLoc t.start) optional e i)).IsRead r (above r rules)
      (t :: ts ++ (ds ++ (o :: us ++ [c]))) := by
  refine isRead_step h (fun rest => ?_) (by simp)
  simpa using postfixStep_index hds ho hi hc t.start rest

theorem isRead_call {ds : List Token} {o c : Token} {optional : Bool}
    (h : (Phrase.postfixed e).IsRead r (above r rules) (t :: ts)) (hds : ChainSign optional ds)
    (ho : o.kind = .leftParen) (hargs : (Phrase.items es).IsRead r rules us)
    (hc : c.kind = .rightParen) :
    (Phrase.postfixed (.call (.ofLoc t.start) optional e es)).IsRead r (above r rules)
      (t :: ts ++ (ds ++ (o :: us ++ [c]))) := by
  refine isRead_step h (fun rest => ?_) (by simp)
  simpa using postfixStep_call hds ho hargs hc t.start rest

/-! ### Operators -/

/-- No operator follows that binds as tightly as those of a kind do. -/
theorem operator_none {α : Type} {ofKind? : Token.Kind → Option α} (h : EndsBelow p rest)
    (hall : ∀ k, (ofKind? k).isSome → p ≤ k.tightness) :
    (rest.head?.map Token.kind).bind ofKind? = none := by
  cases rest with
  | nil => rfl
  | cons t rest =>
    rw [List.head?_cons, Option.map_some, Option.bind_some, ← Option.not_isSome_iff_eq_none]
    intro hk
    have := hall _ hk
    have := h t rfl
    omega

theorem unary_le_tightness (k : Token.Kind) : (UpdateOp.ofKind? k).isSome → 10 ≤ k.tightness := by
  cases k <;> decide

theorem tightness_of_update {k : Token.Kind} {op : UpdateOp} (h : UpdateOp.ofKind? k = some op) :
    k.tightness = 11 := by
  have hall : (UpdateOp.ofKind? k).all fun _ => k.tightness == 11 := by cases k <;> rfl
  rw [h] at hall
  simpa using hall

theorem tightness_of_binary {k : Token.Kind} {op : BinaryOp} (h : BinaryOp.ofKind? k = some op) :
    k.tightness = op.precedence := by
  have hall : (BinaryOp.ofKind? k).all fun op => k.tightness == op.precedence := by
    cases k <;> rfl
  rw [h] at hall
  simpa using hall

theorem tightness_of_assign {k : Token.Kind} {op : AssignOp} (h : AssignOp.ofKind? k = some op) :
    k.tightness = 1 := by
  have hall : (AssignOp.ofKind? k).all fun _ => k.tightness == 1 := by cases k <;> rfl
  rw [h] at hall
  simpa using hall

theorem postfixStep_none (h : EndsBelow 13 rest) (start : Location) (value : Draft) :
    postfixStep r rules start value rest = .ok (none, rest) := by
  have hne {k : Token.Kind} (hk : 13 ≤ k.tightness) := h.head_ne hk
  rw [postfixStep, run_peekKind?]
  generalize rest.head?.map Token.kind = o at hne ⊢
  split
  case h_6 => rfl
  all_goals exact absurd rfl (hne (by decide))

theorem postfixed_eq (h : (Phrase.postfixed e).IsRead r rules (t :: ts)) (rest : List Token)
    (hrest : EndsBelow 13 rest) :
    Grammar.postfixed r rules (t :: ts ++ rest) = .ok (.ok e, rest) :=
  h t ts rfl rest _ (.stop (postfixStep_none hrest t.start _))

theorem ofKind?_of_startsPrimary {k : Token.Kind} (h : k.startsPrimary) :
    UnaryOp.ofKind? k = none ∧ UpdateOp.ofKind? k = none := by
  revert h
  cases k <;> decide

theorem isRead_plain (ht : UnaryOp.ofKind? t.kind = none ∧ UpdateOp.ofKind? t.kind = none)
    (h : ∀ rest, EndsBelow 13 rest →
      Grammar.postfixed r rules (t :: ts ++ rest) = .ok (.ok e, rest)) :
    (Phrase.operand true 10 e).IsRead r rules (t :: ts) := by
  intro rest hrest
  obtain ⟨hunary, hupdate⟩ := ht
  have hpostfixed := h rest (hrest.mono (by decide))
  have hnone := operator_none hrest unary_le_tightness
  simp only [List.cons_append] at hpostfixed ⊢
  simp only [operand_unary, Grammar.unary, run_peek, hunary, hupdate]
  rw [run_bind hpostfixed, run_peekKind?, hnone]
  rfl

theorem isRead_updated {op : UpdateOp} {o : Token} (ht : t.kind.startsPrimary)
    (h : (Phrase.postfixed e).IsRead r rules (t :: ts)) (ho : UpdateOp.ofKind? o.kind = some op) :
    (Phrase.operand false 10 (.update (.ofLoc t.start) op false e)).IsRead r rules
      (t :: ts ++ [o]) := by
  intro rest _
  obtain ⟨hunary, hupdate⟩ := ofKind?_of_startsPrimary ht
  have hpostfixed := postfixed_eq h (o :: rest)
    (endsBelow_cons (by rw [tightness_of_update ho]; decide))
  rw [List.append_assoc]
  simp only [List.cons_append, List.nil_append] at hpostfixed ⊢
  simp only [operand_unary, Grammar.unary, run_peek, hunary, hupdate]
  rw [run_bind hpostfixed, run_peekKind?]
  simp only [List.head?_cons, Option.map_some, Option.bind_some, ho, run_next]
  rfl

theorem isRead_update {op : UpdateOp} {o : Token} (ho : UpdateOp.ofKind? o.kind = some op)
    (h : (Phrase.operand isTarget 10 e).IsRead r rules ts) :
    (Phrase.operand false 10 (.update (.ofLoc o.start) op true e)).IsRead r (above r rules)
      (o :: ts) := by
  intro rest hrest
  have hunary : UnaryOp.ofKind? o.kind = none := by
    have hall : (UpdateOp.ofKind? o.kind).all fun _ => (UnaryOp.ofKind? o.kind).isNone := by
      cases o.kind <;> rfl
    rw [ho] at hall
    simpa using hall
  have hinner : Grammar.unary r rules (ts ++ rest) = .ok (⟨.ok e, isTarget⟩, rest) := h rest hrest
  rw [List.cons_append, operand_unary]
  unfold Grammar.unary
  simp only [run_peek, hunary, ho, run_next, above_unary, run_bind hinner]
  rfl

theorem isRead_unary {op : UnaryOp} {o : Token} (ho : UnaryOp.ofKind? o.kind = some op)
    (h : (Phrase.operand isTarget 10 e).IsRead r rules ts) :
    (Phrase.operand false 10 (.unary (.ofLoc o.start) op e)).IsRead r (above r rules)
      (o :: ts) := by
  intro rest hrest
  have hinner : Grammar.unary r rules (ts ++ rest) = .ok (⟨.ok e, isTarget⟩, rest) := h rest hrest
  rw [List.cons_append, operand_unary]
  unfold Grammar.unary
  simp only [run_peek, ho, run_next, above_unary, run_bind hinner]
  rfl

theorem binaryStep_none (h : EndsBelow p rest) (start : Location) (operand : Parse Operand)
    (left : Operand) : binaryStep start p operand left rest = .ok (none, rest) := by
  rw [binaryStep, run_peekKind?]
  cases rest with
  | nil => rfl
  | cons t rest =>
    simp only [List.head?_cons, Option.map_some, Option.bind_some]
    cases hop : BinaryOp.ofKind? t.kind with
    | none => rfl
    | some op =>
      have hlt := h t rfl
      rw [tightness_of_binary hop] at hlt
      simp only [if_neg (Nat.ne_of_lt hlt)]
      rfl

theorem operand_eq (h : (Phrase.operand isTarget p e).IsRead r rules (t :: ts))
    (rest : List Token) (hrest : EndsBelow p rest) :
    Grammar.operand r rules p (t :: ts ++ rest) = .ok (⟨.ok e, isTarget⟩, rest) := by
  simp only [Phrase.IsRead] at h
  split at h
  · exact h t ts rfl rest _ (hrest.mono (Nat.le_succ p)) (.stop (binaryStep_none hrest _ _ _))
  · exact h rest hrest

theorem isRead_looser (hp : p < 10)
    (h : (Phrase.operand isTarget (p + 1) e).IsRead r rules (t :: ts)) :
    (Phrase.operand isTarget p e).IsRead r rules (t :: ts) := by
  simp only [Phrase.IsRead, if_pos hp]
  rintro u us heq rest res hrest hruns
  cases heq
  have hinner := operand_eq h rest hrest
  rw [operand_of_lt r rules hp, binaryLevel_eq]
  rw [List.cons_append] at hinner ⊢
  rw [run_here, run_bind hinner]
  exact loop_of_runs hruns

theorem isRead_binary {op : BinaryOp} {isTarget' : Bool} {left right : Node} {u o : Token}
    (hl : (Phrase.operand isTarget op.precedence left).IsRead r rules (t :: ts))
    (ho : BinaryOp.ofKind? o.kind = some op)
    (hr : (Phrase.operand isTarget' (op.precedence + 1) right).IsRead r rules (u :: us)) :
    (Phrase.operand false op.precedence (.binary (.ofLoc t.start) op left right)).IsRead r rules
      (t :: ts ++ o :: u :: us) := by
  have hp : op.precedence < 10 := by cases op <;> decide
  simp only [Phrase.IsRead, if_pos hp] at hl ⊢
  rintro v vs heq rest res hrest hruns
  cases heq
  have hright := operand_eq hr rest hrest
  rw [List.append_assoc]
  refine hl t ts rfl _ res ?_ (.step ?_ ?_ hruns)
  · exact endsBelow_cons (by rw [tightness_of_binary ho]; omega)
  · rw [List.cons_append, binaryStep, run_peekKind?]
    simp only [List.head?_cons, Option.map_some, Option.bind_some, ho, if_true, run_next,
      run_bind hright]
    rfl
  · simp only [List.length_append, List.length_cons]
    omega

/-! ### Expressions -/

theorem startsArrow_eq (ht : t.kind.startsOperand) (hts : ∀ u ∈ t :: ts, u.kind ≠ .arrow)
    (hrest : EndsBelow 1 rest) :
    startsArrow (t :: ts ++ rest) = .ok (false, t :: ts ++ rest) := by
  obtain ⟨-, -, hparen, hasync⟩ := closesItems_of_startsOperand ht
  have hsecond : ((t :: ts ++ rest).drop 1).head?.map Token.kind ≠ some .arrow := by
    cases ts with
    | nil => exact hrest.head_ne (by decide)
    | cons u ts => simpa using hts u (by simp)
  rw [startsArrow, run_peekKind?, run_peekSecond?]
  generalize ((t :: ts ++ rest).drop 1).head?.map Token.kind = second at hsecond ⊢
  generalize hfirst : (t :: ts ++ rest).head?.map Token.kind = first
  have hne : first ≠ some .arrowParen ∧ first ≠ some .asyncWord := by
    rw [← hfirst]
    simpa using ⟨hparen, hasync⟩
  split
  case h_5 => rfl
  all_goals simp at hne hsecond

theorem assign_le_tightness (k : Token.Kind) : (AssignOp.ofKind? k).isSome → 1 ≤ k.tightness := by
  cases k <;> decide

theorem isRead_operators
    (hfirst : ∀ rest, EndsBelow 1 rest →
      startsArrow (t :: ts ++ rest) = .ok (false, t :: ts ++ rest))
    (h : (Phrase.operand isTarget 3 e).IsRead r rules (t :: ts)) :
    (Phrase.assign e).IsRead r rules (t :: ts) := by
  intro rest hrest
  have hoperand := operand_eq h rest (hrest.mono (by decide))
  have hassign := operator_none hrest assign_le_tightness
  have hquestion : rest.head?.map Token.kind ≠ some .question := hrest.head_ne (by decide)
  rw [Grammar.assign, run_bind (hfirst rest hrest)]
  simp only [List.cons_append, Bool.false_eq_true, if_false, run_here] at hoperand ⊢
  rw [operand_ternary] at hoperand
  rw [run_bind hoperand]
  simp only [run_peekKind?, hassign, run_accept?_none hquestion]
  cases isTarget <;> rfl

theorem isRead_ternary {condition thenValue elseValue : Node} {q c : Token} {vs : List Token}
    (ht : t.kind.startsOperand) (hts : ∀ u ∈ t :: ts ++ q :: us ++ c :: vs, u.kind ≠ .arrow)
    (hcondition : (Phrase.operand isTarget 3 condition).IsRead r (above r rules) (t :: ts))
    (hq : q.kind = .question) (hthen : (Phrase.assign thenValue).IsRead r rules us)
    (hc : c.kind = .colon) (helse : (Phrase.assign elseValue).IsRead r rules vs) :
    (Phrase.assign (.ternary (.ofLoc t.start) condition thenValue elseValue)).IsRead r
      (above r rules) (t :: ts ++ q :: us ++ c :: vs) := by
  intro rest hrest
  have hleft := operand_eq hcondition (q :: (us ++ c :: (vs ++ rest)))
    (endsBelow_cons (by rw [hq]; decide))
  have hmiddle := hthen (c :: (vs ++ rest)) (endsBelow_cons (by rw [hc]; decide))
  have hright := helse rest hrest
  have hnone : ∀ u ∈ t :: (ts ++ q :: us ++ c :: vs), u.kind ≠ .arrow := hts
  have hfirst := startsArrow_eq ht hnone hrest
  simp only [List.cons_append, List.append_assoc] at hfirst hleft ⊢
  rw [operand_ternary] at hleft
  rw [Grammar.assign, run_bind hfirst]
  have hassign : AssignOp.ofKind? q.kind = none := by rw [hq]; rfl
  simp only [Bool.false_eq_true, if_false, run_here, run_bind hleft, run_peekKind?,
    List.head?_cons, Option.map_some, Option.bind_some, hassign, above_assign]
  cases isTarget <;>
    simp only [run_accept? hq, run_bind hmiddle, run_expect hc, run_bind hright] <;> rfl

theorem isRead_assign {op : AssignOp} {target value : Node} {o : Token}
    (ht : t.kind.startsOperand) (hts : ∀ u ∈ t :: ts ++ o :: us, u.kind ≠ .arrow)
    (htarget : (Phrase.operand true 3 target).IsRead r (above r rules) (t :: ts))
    (ho : AssignOp.ofKind? o.kind = some op) (hvalue : (Phrase.assign value).IsRead r rules us) :
    (Phrase.assign (.assign (.ofLoc t.start) op target value)).IsRead r (above r rules)
      (t :: ts ++ o :: us) := by
  intro rest hrest
  have hleft := operand_eq htarget (o :: (us ++ rest))
    (endsBelow_cons (by rw [tightness_of_assign ho]; decide))
  have hright := hvalue rest hrest
  have hnone : ∀ u ∈ t :: (ts ++ o :: us), u.kind ≠ .arrow := hts
  have hfirst := startsArrow_eq ht hnone hrest
  simp only [List.cons_append, List.append_assoc] at hfirst hleft ⊢
  rw [operand_ternary] at hleft
  rw [Grammar.assign, run_bind hfirst]
  simp only [Bool.false_eq_true, if_false, run_here, run_bind hleft, run_peekKind?,
    List.head?_cons, Option.map_some, Option.bind_some, ho, run_next, above_assign,
    run_bind hright]
  rfl

/-! ### Lists -/

theorem isRead_value (ht : t.kind ≠ .ellipsis) (h : (Phrase.assign e).IsRead r rules (t :: ts)) :
    (Phrase.element e).IsRead r rules (t :: ts) := by
  intro rest hrest
  have hvalue := h rest hrest
  have hne : (t :: (ts ++ rest)).head?.map Token.kind ≠ some .ellipsis := by simpa using ht
  simp only [List.cons_append] at hvalue ⊢
  simp only [Grammar.element, run_here, run_accept?_none hne, above_assign, hvalue]

theorem isRead_spread {o : Token} (ho : o.kind = .ellipsis)
    (h : (Phrase.assign e).IsRead r rules ts) :
    (Phrase.element (.spread (.ofLoc o.start) e)).IsRead r rules (o :: ts) := by
  intro rest hrest
  simp only [List.cons_append, Grammar.element, run_here, run_accept? ho, above_assign,
    run_bind (h rest hrest)]
  rfl

theorem closesItems_cases {k : Token.Kind} (h : k.closesItems) :
    k.tightness = 0 ∧ k ≠ .comma := by
  revert h
  cases k <;> decide

theorem isRead_none : (Phrase.items []).IsRead r rules [] := fun c rest _ =>
  commaList_none _ c rest

theorem isRead_last : (Phrase.more []).IsRead r rules [] := by
  intro c rest acc hc
  obtain ⟨-, hcomma⟩ := closesItems_cases hc
  exact .stop (commaStep_none (by simpa using hcomma) _ _ _)

theorem endsBelow_more (hus : ∀ u ∈ us.head?, u.kind = .comma) {c : Token}
    (hc : c.kind.closesItems) (rest : List Token) : EndsBelow 1 (us ++ c :: rest) := by
  cases us with
  | nil => exact endsBelow_cons (by rw [(closesItems_cases hc).1]; decide)
  | cons u us => exact endsBelow_cons (by rw [hus u rfl]; decide)

theorem ne_of_closesItems {c : Token} (ht : t.kind.closesItems = false)
    (hc : c.kind.closesItems) : t.kind ≠ c.kind := by
  rintro heq
  rw [heq, hc] at ht
  cases ht

theorem isRead_items (ht : t.kind.closesItems = false)
    (h : (Phrase.element e).IsRead r rules (t :: ts)) (hus : ∀ u ∈ us.head?, u.kind = .comma)
    (hmore : (Phrase.more es).IsRead r rules us) :
    (Phrase.items (e :: es)).IsRead r rules (t :: ts ++ us) := by
  intro c rest hc
  have helement := h (us ++ c :: rest) (endsBelow_more hus hc rest)
  rw [List.append_assoc]
  refine (commaList_of_runs (ne_of_closesItems ht hc) helement
    (hmore c rest [.ok e] hc)).trans ?_
  simp

theorem isRead_more {comma : Token} (hcomma : comma.kind = .comma)
    (ht : t.kind.closesItems = false) (h : (Phrase.element e).IsRead r rules (t :: ts))
    (hus : ∀ u ∈ us.head?, u.kind = .comma) (hmore : (Phrase.more es).IsRead r rules us) :
    (Phrase.more (e :: es)).IsRead r rules (comma :: (t :: ts) ++ us) := by
  intro c rest acc hc
  have helement := h (us ++ c :: rest) (endsBelow_more hus hc rest)
  have hbehind := hmore c rest (.ok e :: acc) hc
  rw [List.append_assoc]
  refine .step (commaStep_some hcomma (ne_of_closesItems ht hc) helement acc) ?_
    (by simpa using hbehind)
  simp only [List.length_append, List.length_cons]
  omega

/-! ### All phrases -/

end Reading

/-- What derives from the grammar is read, given a rule for each token. -/
theorem Derives.isRead {phrase : Phrase} {ts : List Token} (h : Derives phrase ts) (r : Reader)
    (depth : Nat) (hdepth : ts.length ≤ depth) : phrase.IsRead r (rulesTo r depth) ts := by
  induction h generalizing depth with
  | name ht => exact isRead_name ht
  | string ht hv => exact isRead_string ht hv
  | true ht => exact isRead_true ht
  | false ht => exact isRead_false ht
  | null ht => exact isRead_null ht
  | base h ih =>
    obtain ⟨t, us, rfl, ht⟩ := h.startsWith
    refine isRead_base (fun hk => ?_) (ih depth hdepth)
    rw [hk] at ht
    cases ht
  | plain h ih =>
    obtain ⟨t, us, rfl, ht⟩ := h.startsWith
    exact isRead_plain (ofKind?_of_startsPrimary ht) (postfixed_eq (ih depth hdepth))
  | looser hp h ih =>
    obtain ⟨t, us, rfl, -⟩ := h.startsWith
    exact isRead_looser hp (ih depth hdepth)
  | operators h ih =>
    obtain ⟨t, us, rfl, ht⟩ := h.startsWith
    exact isRead_operators (fun _ => startsArrow_eq ht h.no_arrow) (ih depth hdepth)
  | none => exact isRead_none
  | last => exact isRead_last
  | value h ih =>
    obtain ⟨t, us, rfl, ht⟩ := h.startsWith
    exact isRead_value (closesItems_of_startsOperand ht).2.1 (ih depth hdepth)
  | spread ho h ih =>
    rw [List.length_cons] at hdepth
    exact isRead_spread ho (ih _ (by omega))
  | attr _ hd hp ih =>
    rw [List.length_append] at hdepth
    exact isRead_attr (ih _ (by omega)) hd hp
  | updated h ho ih =>
    obtain ⟨t, us, heq, ht⟩ := h.startsWith
    cases heq
    rw [List.length_append] at hdepth
    exact isRead_updated ht (ih _ (by omega)) ho
  | binary _ ho hr ih ihr =>
    obtain ⟨t, us, rfl, -⟩ := hr.startsWith
    simp only [List.length_append, List.length_cons] at hdepth ih ihr
    exact isRead_binary (ih _ (by omega)) ho (ihr _ (by omega))
  | items h hmore ih ihmore =>
    obtain ⟨t, us, rfl, ht⟩ := h.startsWith
    rw [List.length_append] at hdepth
    exact isRead_items ht (ih _ (by omega)) hmore.startsWith (ihmore _ (by omega))
  | more hc h hmore ih ihmore =>
    obtain ⟨t, us, rfl, ht⟩ := h.startsWith
    rw [List.length_append, List.length_cons] at hdepth
    exact isRead_more hc ht (ih _ (by omega)) hmore.startsWith (ihmore _ (by omega))
  | array ho _ hc ih =>
    simp only [List.length_append, List.length_cons] at hdepth
    cases depth with
    | zero => omega
    | succ depth => exact isRead_array ho (ih _ (by omega)) hc
  | parens ho _ hc ih =>
    simp only [List.length_append, List.length_cons] at hdepth
    cases depth with
    | zero => omega
    | succ depth => exact isRead_parens ho (ih _ (by omega)) hc
  | index h ho hi hc ih ihi =>
    simp only [List.length_append, List.length_cons] at hdepth
    cases depth with
    | zero => omega
    | succ depth =>
      rw [List.append_assoc]
      exact isRead_index (ih (depth + 1) (by rw [List.length_cons]; omega)) chainSign_none ho
        (ihi _ (by omega)) hc
  | optionalIndex h hd ho hi hc ih ihi =>
    simp only [List.length_append, List.length_cons] at hdepth
    cases depth with
    | zero => omega
    | succ depth =>
      rw [List.append_assoc]
      exact isRead_index (ih (depth + 1) (by rw [List.length_cons]; omega)) (chainSign_some hd)
        ho (ihi _ (by omega)) hc
  | call h ho hargs hc ih ihargs =>
    simp only [List.length_append, List.length_cons] at hdepth
    cases depth with
    | zero => omega
    | succ depth =>
      rw [List.append_assoc]
      exact isRead_call (ih (depth + 1) (by rw [List.length_cons]; omega)) chainSign_none ho
        (ihargs _ (by omega)) hc
  | optionalCall h hd ho hargs hc ih ihargs =>
    simp only [List.length_append, List.length_cons] at hdepth
    cases depth with
    | zero => omega
    | succ depth =>
      rw [List.append_assoc]
      exact isRead_call (ih (depth + 1) (by rw [List.length_cons]; omega)) (chainSign_some hd)
        ho (ihargs _ (by omega)) hc
  | update ho _ ih =>
    rw [List.length_cons] at hdepth
    cases depth with
    | zero => omega
    | succ depth => exact isRead_update ho (ih _ (by omega))
  | unary ho _ ih =>
    rw [List.length_cons] at hdepth
    cases depth with
    | zero => omega
    | succ depth => exact isRead_unary ho (ih _ (by omega))
  | ternary hcondition hq hthen hc helse ih ihthen ihelse =>
    have harrow := (Derives.ternary hcondition hq hthen hc helse).no_arrow
    obtain ⟨t, us, heq, ht⟩ := hcondition.startsWith
    cases heq
    simp only [List.length_append, List.length_cons] at hdepth
    cases depth with
    | zero => omega
    | succ depth =>
      exact isRead_ternary ht harrow (ih (depth + 1) (by rw [List.length_cons]; omega)) hq
        (ihthen _ (by omega)) hc (ihelse _ (by omega))
  | assign htarget ho hvalue ih ihvalue =>
    have harrow := (Derives.assign htarget ho hvalue).no_arrow
    obtain ⟨t, us, heq, ht⟩ := htarget.startsWith
    cases heq
    simp only [List.length_append, List.length_cons] at hdepth
    cases depth with
    | zero => omega
    | succ depth =>
      exact isRead_assign ht harrow (ih (depth + 1) (by rw [List.length_cons]; omega)) ho
        (ihvalue _ (by omega))

end Grammar

end InlineTemplates
