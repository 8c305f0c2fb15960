import InlineTemplates.Grammar.Source
import InlineTemplates.Proofs.OperatorReading
import InlineTemplates.Proofs.Spelling

/-!
# The words of operator trees

Trees of operators and the words that make each of them. The words of the parts, put together with
the words of an operator, derive from the grammar of operators at the precedence of the operator,
and inside parentheses at every precedence.
-/

namespace InlineTemplates

/-! ## Trees up to places -/

/-- The form without the place where a block or a class body ends. -/
@[simp]
def Form.unplaced : Form → Form
  | block _ trailing => block none trailing
  | classBody _ trailing => classBody none trailing
  | form => form

namespace Node

mutual

@[simp]
def unplaced : Node → Node
  | mk head form slots => mk { head with loc := none } form.unplaced (unplacedOfSlots slots)

@[simp]
def unplacedOfSlots : List (List Node) → List (List Node)
  | [] => []
  | slot :: rest => unplacedOfList slot :: unplacedOfSlots rest

@[simp]
def unplacedOfList : List Node → List Node
  | [] => []
  | n :: rest => unplaced n :: unplacedOfList rest

end

theorem unplacedOfList_eq_map (ns : List Node) : unplacedOfList ns = ns.map unplaced := by
  induction ns with
  | nil => rfl
  | cons n ns ih => rw [unplacedOfList, ih, List.map_cons]

/-- What an element of a list holds: the value of a spread, or the element itself. -/
def elementValue : Node → Node
  | .spread ⟨_, []⟩ value => value
  | n => n

/-- The trees of operators: names, literals that are no numbers, operators, calls, accesses and
arrays. Elements of arrays and arguments may be spread. There are no comments. -/
inductive IsOperatorTree : Node → Prop
  | name {loc : Option Location} {x : Text} (hx : x.IsIdentifier) :
    IsOperatorTree (.name ⟨loc, []⟩ x)
  | string {loc : Option Location} (t : Text) : IsOperatorTree (.literal ⟨loc, []⟩ (.str t))
  | bool {loc : Option Location} (b : Bool) : IsOperatorTree (.literal ⟨loc, []⟩ (.bool b))
  | null {loc : Option Location} : IsOperatorTree (.literal ⟨loc, []⟩ .null)
  | unary {loc : Option Location} (op : UnaryOp) {e : Node} (h : IsOperatorTree e) :
    IsOperatorTree (.unary ⟨loc, []⟩ op e)
  | update {loc : Option Location} (op : UpdateOp) (inFront : Bool) {e : Node}
    (h : IsOperatorTree e) : IsOperatorTree (.update ⟨loc, []⟩ op inFront e)
  | binary {loc : Option Location} (op : BinaryOp) {left right : Node}
    (hl : IsOperatorTree left) (hr : IsOperatorTree right) :
    IsOperatorTree (.binary ⟨loc, []⟩ op left right)
  | ternary {loc : Option Location} {condition thenValue elseValue : Node}
    (hcondition : IsOperatorTree condition) (hthen : IsOperatorTree thenValue)
    (helse : IsOperatorTree elseValue) :
    IsOperatorTree (.ternary ⟨loc, []⟩ condition thenValue elseValue)
  | assign {loc : Option Location} (op : AssignOp) {target value : Node}
    (htarget : IsOperatorTree target) (hvalue : IsOperatorTree value) :
    IsOperatorTree (.assign ⟨loc, []⟩ op target value)
  | call {loc : Option Location} (optional : Bool) {func : Node} {args : List Node}
    (hfunc : IsOperatorTree func) (hargs : ∀ a ∈ args, IsOperatorTree a.elementValue) :
    IsOperatorTree (.call ⟨loc, []⟩ optional func args)
  | attr {loc : Option Location} {property : Text} (optional : Bool) {e : Node}
    (hproperty : property.IsProperty) (h : IsOperatorTree e) :
    IsOperatorTree (.attr ⟨loc, []⟩ property optional e)
  | index {loc : Option Location} (optional : Bool) {e i : Node} (h : IsOperatorTree e)
    (hi : IsOperatorTree i) : IsOperatorTree (.index ⟨loc, []⟩ optional e i)
  | array {loc : Option Location} {elements : List Node}
    (h : ∀ e ∈ elements, IsOperatorTree e.elementValue) :
    IsOperatorTree (.array ⟨loc, []⟩ elements)

end Node

/-! ## Operators as words -/

namespace UnaryOp

def word : UnaryOp → Word
  | not => ⟨.bang, not.text⟩
  | minus => ⟨.minus, minus.text⟩
  | plus => ⟨.plus, plus.text⟩
  | typeof => ⟨.typeofWord, typeof.text⟩
  | void => ⟨.voidWord, void.text⟩
  | delete => ⟨.deleteWord, delete.text⟩
  | await => ⟨.awaitWord, await.text⟩

theorem word_text (op : UnaryOp) : op.word.text = op.text := by cases op <;> rfl

theorem ofKind?_word (op : UnaryOp) : ofKind? op.word.kind = some op := by cases op <;> rfl

theorem standsApart (op : UnaryOp) : op.word.StandsApart := by
  cases op <;> exact ⟨rfl, rfl, ⟨_, _, rfl, by decide⟩, fun _ => rfl⟩

/-- A sign in front of its operand stands for itself, unless the operand starts with it. -/
theorem next?_word {op : UnaryOp} (hop : op.isWord = false) {c : CodePoint}
    (hne : op.word.text ≠ [c]) (heq : c ≠ CodePoint.scalar '=') (rest : Text) :
    Lexeme.next? (op.word.text ++ c :: rest) = some (.token op.word.kind, op.word.text.length) := by
  have hsign (d : CodePoint) (hd : op.word.text = [d]) : c ∉ [CodePoint.scalar '=', d] := by
    have hcd : c ≠ d := fun h => hne (h ▸ hd)
    simp [heq, hcd]
  have hfirst : Lexeme.sign? (op.word.text ++ c :: rest) = some (op.word.kind, 1) := by
    cases op with
    | not =>
      exact Lexeme.sign?_short ("!", .bang) ['=', '!'] (by decide) rfl (by decide)
        (hsign '!' rfl) rest
    | minus =>
      exact Lexeme.sign?_short ("-", .minus) ['=', '-'] (by decide) rfl (by decide)
        (hsign '-' rfl) rest
    | plus =>
      exact Lexeme.sign?_short ("+", .plus) ['=', '+'] (by decide) rfl (by decide)
        (hsign '+' rfl) rest
    | _ => cases hop
  have hnext : Lexeme.next? (op.word.text ++ c :: rest) =
      (Lexeme.sign? (op.word.text ++ c :: rest)).map fun s => (Lexeme.Class.token s.1, s.2) := by
    cases op with
    | not | minus | plus => rfl
    | _ => cases hop
  rw [hnext, hfirst]
  cases op with
  | not | minus | plus => rfl
  | _ => cases hop

end UnaryOp

namespace UpdateOp

def sign : UpdateOp → String × Token.Kind
  | increment => ("++", .increment)
  | decrement => ("--", .decrement)

theorem sign_mem (op : UpdateOp) : op.sign ∈ Lexeme.freeSigns := by cases op <;> decide

def word (op : UpdateOp) : Word := ⟨op.sign.2, op.sign.1⟩

theorem word_text (op : UpdateOp) : op.word.text = op.text := by cases op <;> rfl

theorem ofKind?_word (op : UpdateOp) : ofKind? op.word.kind = some op := by cases op <;> rfl

end UpdateOp

namespace BinaryOp

def word : BinaryOp → Word
  | nullish => ⟨.nullish, nullish.text⟩
  | or => ⟨.or, or.text⟩
  | and => ⟨.and, and.text⟩
  | equal => ⟨.equal, equal.text⟩
  | notEqual => ⟨.notEqual, notEqual.text⟩
  | strictEqual => ⟨.strictEqual, strictEqual.text⟩
  | strictNotEqual => ⟨.strictNotEqual, strictNotEqual.text⟩
  | less => ⟨.less, less.text⟩
  | greater => ⟨.greater, greater.text⟩
  | lessEqual => ⟨.lessEqual, lessEqual.text⟩
  | greaterEqual => ⟨.greaterEqual, greaterEqual.text⟩
  | instanceof => ⟨.instanceofWord, instanceof.text⟩
  | isIn => ⟨.inWord, isIn.text⟩
  | plus => ⟨.plus, plus.text⟩
  | minus => ⟨.minus, minus.text⟩
  | times => ⟨.star, times.text⟩
  | divide => ⟨.slash, divide.text⟩
  | remainder => ⟨.percent, remainder.text⟩

theorem word_text (op : BinaryOp) : op.word.text = op.text := by cases op <;> rfl

theorem ofKind?_word (op : BinaryOp) : ofKind? op.word.kind = some op := by cases op <;> rfl

theorem standsApart (op : BinaryOp) : op.word.StandsApart := by
  cases op <;> exact ⟨rfl, rfl, ⟨_, _, rfl, by decide⟩, fun _ => rfl⟩

end BinaryOp

namespace AssignOp

def word : AssignOp → Word
  | set => ⟨.assign, set.text⟩
  | plus => ⟨.plusAssign, plus.text⟩
  | minus => ⟨.minusAssign, minus.text⟩
  | times => ⟨.starAssign, times.text⟩
  | divide => ⟨.slashAssign, divide.text⟩
  | remainder => ⟨.percentAssign, remainder.text⟩
  | or => ⟨.orAssign, or.text⟩
  | and => ⟨.andAssign, and.text⟩
  | nullish => ⟨.nullishAssign, nullish.text⟩

theorem word_text (op : AssignOp) : op.word.text = op.text := by cases op <;> rfl

theorem ofKind?_word (op : AssignOp) : ofKind? op.word.kind = some op := by cases op <;> rfl

theorem standsApart (op : AssignOp) : op.word.StandsApart := by
  cases op <;> exact ⟨rfl, rfl, ⟨_, _, rfl, by decide⟩, fun _ => rfl⟩

end AssignOp

namespace Grammar

/-! ## Trees with at least a precedence -/

theorem Derives.loosened {isTarget : Bool} {p q : Nat} {e : Node} {ts : List Token}
    (h : Derives (.operand isTarget q e) ts) (hq : q ≤ 10) (hle : p ≤ q) :
    Derives (.operand isTarget p e) ts := by
  induction q with
  | zero =>
    obtain rfl := Nat.le_zero.1 hle
    exact h
  | succ q ih =>
    rcases Nat.le_succ_iff.1 hle with hle | rfl
    · exact ih (.looser hq h) (by omega) hle
    · exact h

/-- The tokens make the tree where at least a precedence is needed. -/
def AsLeast (p : Nat) (e : Node) (ts : List Token) : Prop :=
  if 14 ≤ p then Derives (.primary e) ts
  else if 11 < p then Derives (.postfixed e) ts
  else if 3 ≤ p then ∃ isTarget, Derives (.operand isTarget (min p 10) e) ts
  else Derives (.assign e) ts

variable {p q : Nat} {e : Node} {ts : List Token}

theorem asLeast_postfixed (h : Derives (.postfixed e) ts) : AsLeast 13 e ts := h

theorem asLeast_operand {isTarget : Bool} (h : Derives (.operand isTarget p e) ts) (hp : 3 ≤ p)
    (hp' : p ≤ 10) : AsLeast p e ts := by
  have h14 : ¬14 ≤ p := by omega
  have h11 : ¬11 < p := by omega
  have hmin : min p 10 = p := by omega
  simp only [AsLeast, h14, h11, hp, hmin, if_false, if_true]
  exact ⟨isTarget, h⟩

theorem asLeast_assign (h : Derives (.assign e) ts) (hp : p < 3) : AsLeast p e ts := by
  have h14 : ¬14 ≤ p := by omega
  have h11 : ¬11 < p := by omega
  have h3 : ¬3 ≤ p := by omega
  simpa only [AsLeast, h14, h11, h3, if_false] using h

theorem AsLeast.postfixed (h : AsLeast p e ts) (hp : 11 < p) : Derives (.postfixed e) ts := by
  simp only [AsLeast, hp, if_true] at h
  split at h
  · exact .base h
  · exact h

theorem AsLeast.operand (h : AsLeast p e ts) (hq : 3 ≤ q) (hle : q ≤ min p 10) :
    ∃ isTarget, Derives (.operand isTarget q e) ts := by
  by_cases hp : 11 < p
  · have hplain : Derives (.operand true 10 e) ts := .plain (h.postfixed hp)
    exact ⟨true, hplain.loosened (Nat.le_refl _) (by omega)⟩
  · have h14 : ¬14 ≤ p := by omega
    have h3 : 3 ≤ p := by omega
    simp only [AsLeast, h14, hp, h3, if_false, if_true] at h
    obtain ⟨isTarget, h⟩ := h
    exact ⟨isTarget, h.loosened (by omega) hle⟩

theorem AsLeast.assign (h : AsLeast p e ts) : Derives (.assign e) ts := by
  by_cases hp : 3 ≤ p
  · obtain ⟨isTarget, h⟩ := h.operand (Nat.le_refl 3) (by omega)
    exact .operators h
  · have h14 : ¬14 ≤ p := by omega
    have h11 : ¬11 < p := by omega
    simpa only [AsLeast, h14, h11, hp, if_false] using h

/-- What has a precedence has any lower one. -/
theorem AsLeast.mono (h : AsLeast p e ts) (hle : q ≤ p) : AsLeast q e ts := by
  unfold AsLeast
  split
  · have hp : 14 ≤ p := by omega
    simpa only [AsLeast, hp, if_true] using h
  split
  · exact h.postfixed (by omega)
  split
  · exact h.operand (by omega) (by omega)
  · exact h.assign

theorem asLeast_primary (h : Derives (.primary e) ts) (p : Nat) : AsLeast p e ts := by
  by_cases hp : 14 ≤ p
  · simpa only [AsLeast, hp, if_true] using h
  · have h14 : AsLeast 14 e ts := h
    exact h14.mono (by omega)

/-! ## Words that make a tree -/

/-- Tokens with the words make a tree that is `e` up to its places. -/
def Makes (P : Node → List Token → Prop) (e : Node) (ws : List Word) : Prop :=
  ∀ ts, ts.map Token.word = ws → ∃ n, n.unplaced = e.unplaced ∧ P n ts

def MakesAll (P : List Node → List Token → Prop) (es : List Node) (ws : List Word) : Prop :=
  ∀ ts, ts.map Token.word = ws → ∃ ns, ns.map Node.unplaced = es.map Node.unplaced ∧ P ns ts

theorem kind_of_word {t : Token} {w : Word} (h : t.word = w) : t.kind = w.kind := by rw [← h]; rfl

theorem text_of_word {t : Token} {w : Word} (h : t.word = w) : t.text = w.text := by rw [← h]; rfl

variable {ws wl wr : List Word} {loc : Option Location}

theorem Makes.mono (h : Makes (AsLeast p) e ws) (hle : q ≤ p) : Makes (AsLeast q) e ws := by
  intro ts hts
  obtain ⟨n, hn, h⟩ := h ts hts
  exact ⟨n, hn, h.mono hle⟩

/-! ### Primaries -/

theorem makes_token {w : Word} (n : Token → Node)
    (h : ∀ t : Token, t.word = w → (n t).unplaced = e.unplaced ∧ Derives (.primary (n t)) [t]) :
    Makes (AsLeast 14) e [w] := by
  intro ts hts
  obtain ⟨t, rfl, ht⟩ := List.map_eq_singleton_iff.1 hts
  exact ⟨n t, (h t ht).1, (h t ht).2⟩

theorem makes_name {x : Text} : Makes (AsLeast 14) (.name ⟨loc, []⟩ x) [⟨.name, x⟩] :=
  makes_token Reader.name fun t ht =>
    ⟨by simp [Reader.name, Head.ofLoc, text_of_word ht], .name (kind_of_word ht)⟩

theorem unescaped_inside {t : Token} {x : Text} (ht : t.text = x.stringLiteral) :
    (Reader.inside t).unescaped = .ok x := by
  have hinside : Reader.inside t = x.flatMap Text.literalPoint := by
    simp [Reader.inside, ht, Text.stringLiteral_eq]
  rw [hinside, Text.unescaped_literalPoints]

theorem makes_string {x : Text} :
    Makes (AsLeast 14) (.literal ⟨loc, []⟩ (.str x)) [⟨.string, x.stringLiteral⟩] :=
  makes_token (fun t => .literal (.ofLoc t.start) (.str x)) fun _ ht =>
    ⟨by simp [Head.ofLoc], .string (kind_of_word ht) (unescaped_inside (text_of_word ht))⟩

theorem makes_true {x : Text} :
    Makes (AsLeast 14) (.literal ⟨loc, []⟩ (.bool true)) [⟨.trueWord, x⟩] :=
  makes_token (fun t => .literal (.ofLoc t.start) (.bool true)) fun _ ht =>
    ⟨by simp [Head.ofLoc], .true (kind_of_word ht)⟩

theorem makes_false {x : Text} :
    Makes (AsLeast 14) (.literal ⟨loc, []⟩ (.bool false)) [⟨.falseWord, x⟩] :=
  makes_token (fun t => .literal (.ofLoc t.start) (.bool false)) fun _ ht =>
    ⟨by simp [Head.ofLoc], .false (kind_of_word ht)⟩

theorem makes_null {x : Text} :
    Makes (AsLeast 14) (.literal ⟨loc, []⟩ .null) [⟨.nullWord, x⟩] :=
  makes_token (fun t => .literal (.ofLoc t.start) .null) fun _ ht =>
    ⟨by simp [Head.ofLoc], .null (kind_of_word ht)⟩

theorem enclosed_of_words {o c : Word} {ts : List Token}
    (hts : ts.map Token.word = o :: ws ++ [c]) :
    ∃ (a : Token) (us : List Token) (b : Token), ts = a :: us ++ [b] ∧
      a.kind = o.kind ∧ us.map Token.word = ws ∧ b.kind = c.kind := by
  obtain ⟨as, bs, rfl, has, hbs⟩ := List.map_eq_append_iff.1 hts
  obtain ⟨a, us, rfl, ha, hus⟩ := List.map_eq_cons_iff.1 has
  obtain ⟨b, rfl, hb⟩ := List.map_eq_singleton_iff.1 hbs
  exact ⟨a, us, b, rfl, kind_of_word ha, hus, kind_of_word hb⟩

theorem makes_parens (h : Makes (AsLeast p) e ws) (q : Nat) :
    Makes (AsLeast q) e (⟨.leftParen, "("⟩ :: ws ++ [⟨.rightParen, ")"⟩]) := by
  intro ts hts
  obtain ⟨o, us, c, rfl, ho, hus, hc⟩ := enclosed_of_words hts
  obtain ⟨n, hn, h⟩ := h us hus
  exact ⟨n, hn, asLeast_primary (.parens ho h.assign hc) q⟩

theorem makes_array {es : List Node} (h : MakesAll (fun es => Derives (.items es)) es ws) :
    Makes (AsLeast 14) (.array ⟨loc, []⟩ es)
      (⟨.leftBracket, "["⟩ :: ws ++ [⟨.rightBracket, "]"⟩]) := by
  intro ts hts
  obtain ⟨o, us, c, rfl, ho, hus, hc⟩ := enclosed_of_words hts
  obtain ⟨ns, hns, h⟩ := h us hus
  refine ⟨.array (.ofLoc o.start) ns, ?_, asLeast_primary (.array ho h hc) 14⟩
  simp [Node.unplacedOfList_eq_map, hns, Head.ofLoc]

/-! ### Elements -/

theorem makes_value (h : Makes (AsLeast 1) e ws) :
    Makes (fun e => Derives (.element e)) e ws := by
  intro ts hts
  obtain ⟨n, hn, h⟩ := h ts hts
  exact ⟨n, hn, .value h.assign⟩

theorem makes_spread (h : Makes (AsLeast 1) e ws) :
    Makes (fun e => Derives (.element e)) (.spread ⟨loc, []⟩ e) (⟨.ellipsis, "..."⟩ :: ws) := by
  intro ts hts
  obtain ⟨o, us, rfl, ho, hus⟩ := List.map_eq_cons_iff.1 hts
  obtain ⟨n, hn, h⟩ := h us hus
  exact ⟨.spread (.ofLoc o.start) n, by simp [hn, Head.ofLoc], .spread (kind_of_word ho) h.assign⟩

theorem makesAll_none : MakesAll (fun es => Derives (.items es)) [] [] := by
  intro ts hts
  obtain rfl := List.map_eq_nil_iff.1 hts
  exact ⟨[], rfl, .none⟩

theorem makesAll_items {es : List Node} (h : Makes (fun e => Derives (.element e)) e wl)
    (hmore : MakesAll (fun es => Derives (.more es)) es wr) :
    MakesAll (fun es => Derives (.items es)) (e :: es) (wl ++ wr) := by
  intro ts hts
  obtain ⟨us, vs, rfl, hus, hvs⟩ := List.map_eq_append_iff.1 hts
  obtain ⟨n, hn, h⟩ := h us hus
  obtain ⟨ns, hns, hmore⟩ := hmore vs hvs
  exact ⟨n :: ns, by simp [hn, hns], .items h hmore⟩

theorem makesAll_last : MakesAll (fun es => Derives (.more es)) [] [] := by
  intro ts hts
  obtain rfl := List.map_eq_nil_iff.1 hts
  exact ⟨[], rfl, .last⟩

theorem makesAll_more {es : List Node} (h : Makes (fun e => Derives (.element e)) e wl)
    (hmore : MakesAll (fun es => Derives (.more es)) es wr) :
    MakesAll (fun es => Derives (.more es)) (e :: es) (⟨.comma, ","⟩ :: (wl ++ wr)) := by
  intro ts hts
  obtain ⟨c, us, rfl, hc, hus⟩ := List.map_eq_cons_iff.1 hts
  obtain ⟨us, vs, rfl, hus, hvs⟩ := List.map_eq_append_iff.1 hus
  obtain ⟨n, hn, h⟩ := h us hus
  obtain ⟨ns, hns, hmore⟩ := hmore vs hvs
  exact ⟨n :: ns, by simp [hn, hns], .more (kind_of_word hc) h hmore⟩

/-! ### Accesses and calls -/

def chainWords (optional : Bool) : List Word := if optional then [.optionalChain] else []

theorem makes_attr {optional : Bool} {d : Word} {k : Token.Kind} {x : Text}
    (h : Makes (AsLeast 13) e ws) (hd : d.kind = if optional then .optionalChain else .dot)
    (hk : k = .name ∨ k = .privateName) :
    Makes (AsLeast 13) (.attr ⟨loc, []⟩ x optional e) (ws ++ [d, ⟨k, x⟩]) := by
  intro ts hts
  obtain ⟨us, vs, rfl, hus, hvs⟩ := List.map_eq_append_iff.1 hts
  obtain ⟨a, vs, rfl, ha, hvs⟩ := List.map_eq_cons_iff.1 hvs
  obtain ⟨b, rfl, hb⟩ := List.map_eq_singleton_iff.1 hvs
  obtain ⟨n, hn, h⟩ := h us hus
  have hpostfixed := h.postfixed (by decide)
  obtain ⟨t, us, rfl, -⟩ := hpostfixed.startsWith
  refine ⟨.attr (.ofLoc t.start) b.text optional n, ?_, asLeast_postfixed
    (.attr hpostfixed (by rw [kind_of_word ha, hd]) (by rw [kind_of_word hb]; exact hk))⟩
  simp [hn, Head.ofLoc, text_of_word hb]

theorem makes_index {optional : Bool} {i : Node} (h : Makes (AsLeast 13) e wl)
    (hi : Makes (AsLeast p) i wr) :
    Makes (AsLeast 13) (.index ⟨loc, []⟩ optional e i)
      (wl ++ (chainWords optional ++ (⟨.leftBracket, "["⟩ :: wr ++ [⟨.rightBracket, "]"⟩]))) := by
  intro ts hts
  obtain ⟨us, vs, rfl, hus, hvs⟩ := List.map_eq_append_iff.1 hts
  obtain ⟨ds, vs, rfl, hds, hvs⟩ := List.map_eq_append_iff.1 hvs
  obtain ⟨o, vs, c, rfl, ho, hvs, hc⟩ := enclosed_of_words hvs
  obtain ⟨n, hn, h⟩ := h us hus
  obtain ⟨m, hm, hi⟩ := hi vs hvs
  have hpostfixed := h.postfixed (by decide)
  obtain ⟨t, us, rfl, -⟩ := hpostfixed.startsWith
  refine ⟨.index (.ofLoc t.start) optional n m, by simp [hn, hm, Head.ofLoc], ?_⟩
  cases optional with
  | false =>
    obtain rfl := List.map_eq_nil_iff.1 hds
    simpa using asLeast_postfixed (.index hpostfixed ho hi.assign hc)
  | true =>
    obtain ⟨d, rfl, hd⟩ := List.map_eq_singleton_iff.1 hds
    simpa using asLeast_postfixed (.optionalIndex hpostfixed (kind_of_word hd) ho hi.assign hc)

theorem makes_call {optional : Bool} {args : List Node} (h : Makes (AsLeast 13) e wl)
    (hargs : MakesAll (fun es => Derives (.items es)) args wr) :
    Makes (AsLeast 13) (.call ⟨loc, []⟩ optional e args)
      (wl ++ (chainWords optional ++ (⟨.leftParen, "("⟩ :: wr ++ [⟨.rightParen, ")"⟩]))) := by
  intro ts hts
  obtain ⟨us, vs, rfl, hus, hvs⟩ := List.map_eq_append_iff.1 hts
  obtain ⟨ds, vs, rfl, hds, hvs⟩ := List.map_eq_append_iff.1 hvs
  obtain ⟨o, vs, c, rfl, ho, hvs, hc⟩ := enclosed_of_words hvs
  obtain ⟨n, hn, h⟩ := h us hus
  obtain ⟨ms, hms, hargs⟩ := hargs vs hvs
  have hpostfixed := h.postfixed (by decide)
  obtain ⟨t, us, rfl, -⟩ := hpostfixed.startsWith
  refine ⟨.call (.ofLoc t.start) optional n ms,
    by simp [hn, Node.unplacedOfList_eq_map, hms, Head.ofLoc], ?_⟩
  cases optional with
  | false =>
    obtain rfl := List.map_eq_nil_iff.1 hds
    simpa using asLeast_postfixed (.call hpostfixed ho hargs hc)
  | true =>
    obtain ⟨d, rfl, hd⟩ := List.map_eq_singleton_iff.1 hds
    simpa using asLeast_postfixed (.optionalCall hpostfixed (kind_of_word hd) ho hargs hc)

/-! ### Operators -/

theorem makes_unary {op : UnaryOp} (h : Makes (AsLeast 10) e ws) :
    Makes (AsLeast 10) (.unary ⟨loc, []⟩ op e) (op.word :: ws) := by
  intro ts hts
  obtain ⟨o, us, rfl, ho, hus⟩ := List.map_eq_cons_iff.1 hts
  have hop : UnaryOp.ofKind? o.kind = some op := by rw [kind_of_word ho, op.ofKind?_word]
  obtain ⟨n, hn, h⟩ := h us hus
  obtain ⟨_, h⟩ := h.operand (q := 10) (by decide) (by decide)
  exact ⟨.unary (.ofLoc o.start) op n, by simp [hn, Head.ofLoc],
    asLeast_operand (.unary hop h) (by decide) (Nat.le_refl 10)⟩

theorem makes_update_inFront {op : UpdateOp} (h : Makes (AsLeast 13) e ws) :
    Makes (AsLeast 10) (.update ⟨loc, []⟩ op true e) (op.word :: ws) := by
  intro ts hts
  obtain ⟨o, us, rfl, ho, hus⟩ := List.map_eq_cons_iff.1 hts
  have hop : UpdateOp.ofKind? o.kind = some op := by rw [kind_of_word ho, op.ofKind?_word]
  obtain ⟨n, hn, h⟩ := h us hus
  obtain ⟨_, h⟩ := h.operand (q := 10) (by decide) (by decide)
  exact ⟨.update (.ofLoc o.start) op true n, by simp [hn, Head.ofLoc],
    asLeast_operand (.update hop h) (by decide) (Nat.le_refl 10)⟩

theorem makes_update_behind {op : UpdateOp} (h : Makes (AsLeast 13) e ws) :
    Makes (AsLeast 11) (.update ⟨loc, []⟩ op false e) (ws ++ [op.word]) := by
  intro ts hts
  obtain ⟨us, vs, rfl, hus, hvs⟩ := List.map_eq_append_iff.1 hts
  obtain ⟨o, rfl, ho⟩ := List.map_eq_singleton_iff.1 hvs
  have hop : UpdateOp.ofKind? o.kind = some op := by rw [kind_of_word ho, op.ofKind?_word]
  obtain ⟨n, hn, h⟩ := h us hus
  have hpostfixed := h.postfixed (by decide)
  obtain ⟨t, us, rfl, -⟩ := hpostfixed.startsWith
  exact ⟨.update (.ofLoc t.start) op false n, by simp [hn, Head.ofLoc],
    _, .updated hpostfixed hop⟩

theorem makes_binary {op : BinaryOp} {left right : Node}
    (hl : Makes (AsLeast op.precedence) left wl)
    (hr : Makes (AsLeast (op.precedence + 1)) right wr) :
    Makes (AsLeast op.precedence) (.binary ⟨loc, []⟩ op left right) (wl ++ op.word :: wr) := by
  intro ts hts
  obtain ⟨ls, rest, rfl, hls, hrest⟩ := List.map_eq_append_iff.1 hts
  obtain ⟨o, rs, rfl, ho, hrs⟩ := List.map_eq_cons_iff.1 hrest
  have hop : BinaryOp.ofKind? o.kind = some op := by rw [kind_of_word ho, op.ofKind?_word]
  have hprecedence : 3 ≤ op.precedence ∧ op.precedence ≤ 9 := by cases op <;> decide
  obtain ⟨l, hl', hleft⟩ := hl ls hls
  obtain ⟨r, hr', hright⟩ := hr rs hrs
  obtain ⟨_, hleft⟩ := hleft.operand hprecedence.1 (by omega)
  obtain ⟨_, hright⟩ := hright.operand (q := op.precedence + 1) (by omega) (by omega)
  obtain ⟨t, us, rfl, -⟩ := hleft.startsWith
  exact ⟨.binary (.ofLoc t.start) op l r, by simp [hl', hr', Head.ofLoc],
    asLeast_operand (.binary hleft hop hright) hprecedence.1 (by omega)⟩

theorem makes_ternary {condition thenValue elseValue : Node} {wc wt we : List Word}
    (hcondition : Makes (AsLeast 3) condition wc) (hthen : Makes (AsLeast 1) thenValue wt)
    (helse : Makes (AsLeast 1) elseValue we) :
    Makes (AsLeast 2) (.ternary ⟨loc, []⟩ condition thenValue elseValue)
      (wc ++ ⟨.question, "?"⟩ :: (wt ++ ⟨.colon, ":"⟩ :: we)) := by
  intro ts hts
  obtain ⟨us, vs, rfl, hus, hvs⟩ := List.map_eq_append_iff.1 hts
  obtain ⟨a, vs, rfl, ha, hvs⟩ := List.map_eq_cons_iff.1 hvs
  obtain ⟨vs, zs, rfl, hthens, hzs⟩ := List.map_eq_append_iff.1 hvs
  obtain ⟨b, zs, rfl, hb, hzs⟩ := List.map_eq_cons_iff.1 hzs
  obtain ⟨n, hn, hcondition⟩ := hcondition us hus
  obtain ⟨m, hm, hthen⟩ := hthen vs hthens
  obtain ⟨k, hk, helse⟩ := helse zs hzs
  obtain ⟨_, hcondition⟩ := hcondition.operand (Nat.le_refl 3) (by decide)
  obtain ⟨t, us, rfl, -⟩ := hcondition.startsWith
  have hternary := Derives.ternary hcondition (kind_of_word ha) hthen.assign (kind_of_word hb)
    helse.assign
  refine ⟨.ternary (.ofLoc t.start) n m k, by simp [hn, hm, hk, Head.ofLoc],
    asLeast_assign ?_ (by decide)⟩
  simpa using hternary

theorem makes_assign {op : AssignOp} {target value : Node}
    (htarget : Makes (AsLeast 13) target wl) (hvalue : Makes (AsLeast 1) value wr) :
    Makes (AsLeast 1) (.assign ⟨loc, []⟩ op target value) (wl ++ op.word :: wr) := by
  intro ts hts
  obtain ⟨us, vs, rfl, hus, hvs⟩ := List.map_eq_append_iff.1 hts
  obtain ⟨o, vs, rfl, ho, hvs⟩ := List.map_eq_cons_iff.1 hvs
  have hop : AssignOp.ofKind? o.kind = some op := by rw [kind_of_word ho, op.ofKind?_word]
  obtain ⟨n, hn, htarget⟩ := htarget us hus
  obtain ⟨m, hm, hvalue⟩ := hvalue vs hvs
  have hplain : Derives (.operand true 10 n) us := .plain (htarget.postfixed (by decide))
  have hloose := hplain.loosened (p := 3) (Nat.le_refl 10) (by decide)
  obtain ⟨t, us, rfl, -⟩ := hloose.startsWith
  exact ⟨.assign (.ofLoc t.start) op n m, by simp [hn, hm, Head.ofLoc],
    asLeast_assign (Derives.assign hloose hop hvalue.assign) (by decide)⟩

end Grammar

end InlineTemplates
