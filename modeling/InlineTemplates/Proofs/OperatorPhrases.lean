import InlineTemplates.Grammar.Statement
import InlineTemplates.Node.Print

/-!
# The grammar of operators

Which tokens make an expression of operators, and which tree it is, as a grammar of its own: one
rule for each way to put a phrase together, without a word on how a phrase is found.
-/

namespace InlineTemplates

/-! ## Phrases -/

namespace Token.Kind

def startsPrimary : Kind → Bool
  | name | string | trueWord | falseWord | nullWord | leftBracket | leftParen => true
  | _ => false

def startsOperand (k : Kind) : Bool :=
  k.startsPrimary || (UnaryOp.ofKind? k).isSome || (UpdateOp.ofKind? k).isSome

/-- How tightly a token of this kind binds the operand in front of it. -/
def tightness (k : Kind) : Nat :=
  match k with
  | dot | optionalChain | leftBracket | leftParen | template => Precedence.postfixed
  | increment | decrement => Precedence.update
  | question => Precedence.ternary
  | arrow => Precedence.assign
  | _ =>
    match BinaryOp.ofKind? k, AssignOp.ofKind? k with
    | some op, _ => op.precedence
    | none, some _ => Precedence.assign
    | none, none => 0

/-- Whether a list of items ends at a token of this kind. -/
def closesItems (k : Kind) : Bool := k = rightParen || k = rightBracket

end Token.Kind

namespace Grammar

/-- What some tokens are to be read as. -/
inductive Phrase where
  | primary (e : Node)
  /-- A primary with accesses and calls behind it. -/
  | postfixed (e : Node)
  /-- Operators of at least a precedence with their operands. -/
  | operand (isTarget : Bool) (precedence : Nat) (e : Node)
  | assign (e : Node)
  | element (e : Node)
  /-- Elements with commas between them. -/
  | items (es : List Node)
  /-- Elements with commas in front of them. -/
  | more (es : List Node)

/-- The tokens make the phrase. A node starts where its first token starts. -/
inductive Derives : Phrase → List Token → Prop
  -- primaries
  | name {t : Token} (ht : t.kind = .name) : Derives (.primary (Reader.name t)) [t]
  | string {t : Token} {v : Text} (ht : t.kind = .string)
    (hv : (Reader.inside t).unescaped = .ok v) :
    Derives (.primary (.literal (.ofLoc t.start) (.str v))) [t]
  | true {t : Token} (ht : t.kind = .trueWord) :
    Derives (.primary (.literal (.ofLoc t.start) (.bool .true))) [t]
  | false {t : Token} (ht : t.kind = .falseWord) :
    Derives (.primary (.literal (.ofLoc t.start) (.bool .false))) [t]
  | null {t : Token} (ht : t.kind = .nullWord) :
    Derives (.primary (.literal (.ofLoc t.start) .null)) [t]
  | array {o c : Token} {es : List Node} {ts : List Token} (ho : o.kind = .leftBracket)
    (h : Derives (.items es) ts) (hc : c.kind = .rightBracket) :
    Derives (.primary (.array (.ofLoc o.start) es)) (o :: ts ++ [c])
  | parens {o c : Token} {e : Node} {ts : List Token} (ho : o.kind = .leftParen)
    (h : Derives (.assign e) ts) (hc : c.kind = .rightParen) :
    Derives (.primary e) (o :: ts ++ [c])
  -- accesses and calls
  | base {e : Node} {ts : List Token} (h : Derives (.primary e) ts) : Derives (.postfixed e) ts
  | attr {e : Node} {t d p : Token} {ts : List Token} {optional : Bool}
    (h : Derives (.postfixed e) (t :: ts))
    (hd : d.kind = if optional then .optionalChain else .dot)
    (hp : p.kind = .name ∨ p.kind = .privateName) :
    Derives (.postfixed (.attr (.ofLoc t.start) p.text optional e)) (t :: ts ++ [d, p])
  | index {e i : Node} {t o c : Token} {ts us : List Token} (h : Derives (.postfixed e) (t :: ts))
    (ho : o.kind = .leftBracket) (hi : Derives (.assign i) us) (hc : c.kind = .rightBracket) :
    Derives (.postfixed (.index (.ofLoc t.start) .false e i)) (t :: ts ++ o :: us ++ [c])
  | optionalIndex {e i : Node} {t d o c : Token} {ts us : List Token}
    (h : Derives (.postfixed e) (t :: ts)) (hd : d.kind = .optionalChain)
    (ho : o.kind = .leftBracket) (hi : Derives (.assign i) us) (hc : c.kind = .rightBracket) :
    Derives (.postfixed (.index (.ofLoc t.start) .true e i)) (t :: ts ++ d :: o :: us ++ [c])
  | call {e : Node} {args : List Node} {t o c : Token} {ts us : List Token}
    (h : Derives (.postfixed e) (t :: ts)) (ho : o.kind = .leftParen)
    (hargs : Derives (.items args) us) (hc : c.kind = .rightParen) :
    Derives (.postfixed (.call (.ofLoc t.start) .false e args)) (t :: ts ++ o :: us ++ [c])
  | optionalCall {e : Node} {args : List Node} {t d o c : Token} {ts us : List Token}
    (h : Derives (.postfixed e) (t :: ts)) (hd : d.kind = .optionalChain)
    (ho : o.kind = .leftParen) (hargs : Derives (.items args) us) (hc : c.kind = .rightParen) :
    Derives (.postfixed (.call (.ofLoc t.start) .true e args)) (t :: ts ++ d :: o :: us ++ [c])
  -- operators
  | plain {e : Node} {ts : List Token} (h : Derives (.postfixed e) ts) :
    Derives (.operand .true Precedence.unary e) ts
  | updated {op : UpdateOp} {e : Node} {t o : Token} {ts : List Token}
    (h : Derives (.postfixed e) (t :: ts)) (ho : UpdateOp.ofKind? o.kind = some op) :
    Derives (.operand .false Precedence.unary (.update (.ofLoc t.start) op .false e))
      (t :: ts ++ [o])
  | update {op : UpdateOp} {isTarget : Bool} {e : Node} {o : Token} {ts : List Token}
    (ho : UpdateOp.ofKind? o.kind = some op)
    (h : Derives (.operand isTarget Precedence.unary e) ts) :
    Derives (.operand .false Precedence.unary (.update (.ofLoc o.start) op .true e)) (o :: ts)
  | unary {op : UnaryOp} {isTarget : Bool} {e : Node} {o : Token} {ts : List Token}
    (ho : UnaryOp.ofKind? o.kind = some op)
    (h : Derives (.operand isTarget Precedence.unary e) ts) :
    Derives (.operand .false Precedence.unary (.unary (.ofLoc o.start) op e)) (o :: ts)
  | looser {isTarget : Bool} {p : Nat} {e : Node} {ts : List Token} (hp : p < Precedence.unary)
    (h : Derives (.operand isTarget (p + 1) e) ts) : Derives (.operand isTarget p e) ts
  | binary {op : BinaryOp} {isTarget isTarget' : Bool} {left right : Node} {t o : Token}
    {ts us : List Token} (hl : Derives (.operand isTarget op.precedence left) (t :: ts))
    (ho : BinaryOp.ofKind? o.kind = some op)
    (hr : Derives (.operand isTarget' (op.precedence + 1) right) us) :
    Derives (.operand .false op.precedence (.binary (.ofLoc t.start) op left right))
      (t :: ts ++ o :: us)
  -- expressions
  | operators {isTarget : Bool} {e : Node} {ts : List Token}
    (h : Derives (.operand isTarget (Precedence.ternary + 1) e) ts) : Derives (.assign e) ts
  | ternary {isTarget : Bool} {condition thenValue elseValue : Node} {t q c : Token}
    {ts us vs : List Token}
    (hcondition : Derives (.operand isTarget (Precedence.ternary + 1) condition) (t :: ts))
    (hq : q.kind = .question) (hthen : Derives (.assign thenValue) us) (hc : c.kind = .colon)
    (helse : Derives (.assign elseValue) vs) :
    Derives (.assign (.ternary (.ofLoc t.start) condition thenValue elseValue))
      (t :: ts ++ q :: us ++ c :: vs)
  | assign {op : AssignOp} {target value : Node} {t o : Token} {ts us : List Token}
    (htarget : Derives (.operand .true (Precedence.ternary + 1) target) (t :: ts))
    (ho : AssignOp.ofKind? o.kind = some op) (hvalue : Derives (.assign value) us) :
    Derives (.assign (.assign (.ofLoc t.start) op target value)) (t :: ts ++ o :: us)
  -- lists
  | value {e : Node} {ts : List Token} (h : Derives (.assign e) ts) : Derives (.element e) ts
  | spread {e : Node} {o : Token} {ts : List Token} (ho : o.kind = .ellipsis)
    (h : Derives (.assign e) ts) : Derives (.element (.spread (.ofLoc o.start) e)) (o :: ts)
  | none : Derives (.items []) []
  | items {e : Node} {es : List Node} {ts us : List Token} (h : Derives (.element e) ts)
    (hmore : Derives (.more es) us) : Derives (.items (e :: es)) (ts ++ us)
  | last : Derives (.more []) []
  | more {e : Node} {es : List Node} {c : Token} {ts us : List Token} (hc : c.kind = .comma)
    (h : Derives (.element e) ts) (hmore : Derives (.more es) us) :
    Derives (.more (e :: es)) (c :: ts ++ us)

/-! ## How phrases start -/

def Phrase.StartsWith : Phrase → List Token → Prop
  | .primary _, ts | .postfixed _, ts => ∃ t us, ts = t :: us ∧ t.kind.startsPrimary
  | .operand .., ts | .assign _, ts => ∃ t us, ts = t :: us ∧ t.kind.startsOperand
  | .element _, ts => ∃ t us, ts = t :: us ∧ t.kind.closesItems = false
  | .items [], ts => ts = []
  | .items (_ :: _), ts => ∃ t us, ts = t :: us ∧ t.kind.closesItems = false
  | .more _, ts => ∀ t ∈ ts.head?, t.kind = .comma

theorem startsOperand_of_startsPrimary {k : Token.Kind} (h : k.startsPrimary) :
    k.startsOperand := by
  simp [Token.Kind.startsOperand, h]

theorem closesItems_of_startsOperand {k : Token.Kind} (h : k.startsOperand) :
    k.closesItems = false ∧ k ≠ .ellipsis ∧ k ≠ .arrowParen ∧ k ≠ .asyncWord := by
  revert h
  cases k <;> decide

theorem Derives.startsWith {phrase : Phrase} {ts : List Token} (h : Derives phrase ts) :
    phrase.StartsWith ts := by
  induction h with
  | name ht | string ht | true ht | false ht | null ht | array ht | parens ht =>
    exact ⟨_, _, rfl, by rw [ht]; rfl⟩
  | base _ ih => exact ih
  | attr _ _ _ ih | index _ _ _ _ ih | optionalIndex _ _ _ _ _ ih | call _ _ _ _ ih
  | optionalCall _ _ _ _ _ ih =>
    obtain ⟨t, us, heq, ht⟩ := ih
    cases heq
    exact ⟨_, _, rfl, ht⟩
  | plain _ ih =>
    obtain ⟨t, us, rfl, ht⟩ := ih
    exact ⟨t, us, rfl, startsOperand_of_startsPrimary ht⟩
  | updated _ _ ih =>
    obtain ⟨t, us, heq, ht⟩ := ih
    cases heq
    exact ⟨_, _, rfl, startsOperand_of_startsPrimary ht⟩
  | update ho | unary ho => exact ⟨_, _, rfl, by simp [Token.Kind.startsOperand, ho]⟩
  | looser _ _ ih | operators _ ih => exact ih
  | binary _ _ _ ih | ternary _ _ _ _ _ ih | assign _ _ _ ih =>
    obtain ⟨t, us, heq, ht⟩ := ih
    cases heq
    exact ⟨_, _, rfl, ht⟩
  | value _ ih =>
    obtain ⟨t, us, rfl, ht⟩ := ih
    exact ⟨t, us, rfl, (closesItems_of_startsOperand ht).1⟩
  | spread ho => exact ⟨_, _, rfl, by rw [ho]; rfl⟩
  | none => rfl
  | items _ _ ih =>
    obtain ⟨t, us, rfl, ht⟩ := ih
    exact ⟨t, _, rfl, ht⟩
  | last => simp [Phrase.StartsWith]
  | more hc => simpa [Phrase.StartsWith] using hc

/-- No arrow function is among the tokens of a phrase. -/
theorem Derives.no_arrow {phrase : Phrase} {ts : List Token} (h : Derives phrase ts) :
    ∀ t ∈ ts, t.kind ≠ .arrow := by
  have hop {α : Type} {ofKind? : Token.Kind → Option α} (harrow : ofKind? .arrow = .none)
      {k : Token.Kind} {op : α} (hk : ofKind? k = some op) : k ≠ .arrow := by
    rintro rfl
    rw [harrow] at hk
    cases hk
  have hall {ts us : List Token} (hts : ∀ t ∈ ts, t.kind ≠ .arrow)
      (hus : ∀ t ∈ us, t.kind ≠ .arrow) : ∀ t ∈ ts ++ us, t.kind ≠ .arrow :=
    List.forall_mem_append.2 ⟨hts, hus⟩
  have hone {t : Token} {k : Token.Kind} (ht : t.kind = k) (hk : k ≠ .arrow) :
      ∀ u ∈ [t], u.kind ≠ .arrow := by simpa [ht] using hk
  induction h with
  | name ht | string ht | true ht | false ht | null ht => exact hone ht (by decide)
  | array ho _ hc ih | parens ho _ hc ih =>
    exact hall (hall (hone ho (by decide)) ih) (hone hc (by decide))
  | base _ ih | plain _ ih | looser _ _ ih | operators _ ih | value _ ih => exact ih
  | attr _ hd hp ih =>
    refine hall ih (hall (hone hd (by split <;> decide)) (hone rfl ?_))
    rcases hp with hp | hp <;> rw [hp] <;> decide
  | index _ ho _ hc ih ihi | call _ ho _ hc ih ihi =>
    exact hall (hall ih (hall (hone ho (by decide)) ihi)) (hone hc (by decide))
  | optionalIndex _ hd ho _ hc ih ihi | optionalCall _ hd ho _ hc ih ihi =>
    exact hall (hall ih (hall (hone hd (by decide)) (hall (hone ho (by decide)) ihi)))
      (hone hc (by decide))
  | updated _ ho ih => exact hall ih (hone rfl (hop rfl ho))
  | update ho _ ih | unary ho _ ih => exact hall (hone rfl (hop rfl ho)) ih
  | binary _ ho _ ih ihr | assign _ ho _ ih ihr =>
    exact hall ih (hall (hone rfl (hop rfl ho)) ihr)
  | ternary _ hq _ hc _ ih ihthen ihelse =>
    exact hall (hall ih (hall (hone hq (by decide)) ihthen)) (hall (hone hc (by decide)) ihelse)
  | spread ho _ ih => exact hall (hone ho (by decide)) ih
  | none | last => simp
  | items _ _ ih ihmore => exact hall ih ihmore
  | more hc _ _ ih ihmore => exact hall (hall (hone hc (by decide)) ih) ihmore

end Grammar

end InlineTemplates
