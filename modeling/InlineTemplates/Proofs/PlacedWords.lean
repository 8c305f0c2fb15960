import InlineTemplates.Proofs.Words
import InlineTemplates.Token.Placed

/-!
# Words in their places

In an expression without braces, statements and arrow functions only parentheses and brackets are
open, so no statement ends and no word plays a role. The words keep the kinds that they are cut
with, except that a reserved word behind a point is a name.
-/

namespace InlineTemplates

namespace Token

@[simp]
theorem word_kind (t : Token) : t.word.kind = t.kind := rfl

namespace Kind

/-- The kinds that keep their role where no brace, no statement and no arrow function is around,
unless a point stands in front of them. -/
def isPlain : Kind → Bool
  | name | privateName | number | string | template
  | trueWord | falseWord | nullWord | newWord | typeofWord | voidWord | deleteWord | awaitWord
  | instanceofWord | inWord
  | leftParen | rightParen | leftBracket | rightBracket | ellipsis | comma | colon | question
  | assign | plusAssign | minusAssign | starAssign | slashAssign | percentAssign | orAssign
  | andAssign | nullishAssign
  | strictEqual | strictNotEqual | equal | notEqual | lessEqual | greaterEqual | less | greater
  | nullish | or | and | increment | decrement | plus | minus | star | slash | percent
  | bang => true
  | _ => false

def isPoint (k : Kind) : Bool := k = dot || k = optionalChain

def followsPoint (k : Kind) : Bool :=
  k = name || k = privateName || k = leftParen || k = leftBracket

end Kind

namespace Place

/-- A place inside an expression, with only parentheses and brackets open. -/
structure InExpression (p : Place) : Prop where
  nonempty : p.stack ≠ []
  contexts : ∀ c ∈ p.stack, c = .group ∨ c = .bracket
  clause : p.inClause = false
  loops : p.loops = []
  paren : p.nextParen = none

variable {p : Place} {k : Kind} {t : Token} {rest : List Token}

/-! ## The last token -/

section Last

variable {js ks : List Kind}

theorem lastIn_iff : p.lastIn ks ↔ ∃ j ∈ ks, p.last = some j := by
  simp [lastIn, Option.any_eq_true, and_comm]

theorem lastIs_eq_lastIn (p : Place) (k : Kind) : p.lastIs k = p.lastIn [k] := by
  rw [Bool.eq_iff_iff, lastIn_iff]
  simp [lastIs]

theorem lastIn_mono (h : p.lastIn js) (hks : ∀ j ∈ js, j ∈ ks) : p.lastIn ks := by
  obtain ⟨j, hj, hlast⟩ := lastIn_iff.1 h
  exact lastIn_iff.2 ⟨j, hks j hj, hlast⟩

theorem lastIn_eq_false_mono (h : p.lastIn ks = false) (hjs : ∀ j ∈ js, j ∈ ks) :
    p.lastIn js = false := by
  rw [← Bool.not_eq_true] at h ⊢
  exact fun hlast => h (lastIn_mono hlast hjs)

theorem lastIn_disjoint (h : p.lastIn js) (hjs : ∀ j ∈ js, j ∉ ks) : p.lastIn ks = false := by
  obtain ⟨j, hj, hlast⟩ := lastIn_iff.1 h
  rw [← Bool.not_eq_true, lastIn_iff]
  rintro ⟨k, hk, hlast'⟩
  obtain rfl := Option.some.inj (hlast.symm.trans hlast')
  exact hjs j hj hk

end Last

theorem InExpression.ofExpression : InExpression .ofExpression :=
  ⟨by simp [Place.ofExpression], by simp [Place.ofExpression], rfl, rfl, rfl⟩

theorem InExpression.context_eq (h : InExpression p) :
    p.context = .group ∨ p.context = .bracket := by
  obtain ⟨c, below, hstack⟩ := List.exists_cons_of_ne_nil h.nonempty
  have hc := h.contexts c (by rw [hstack]; exact List.mem_cons_self)
  simpa [context, hstack] using hc

theorem InExpression.inLines_eq (h : InExpression p) : p.inLines = false := by
  rcases h.context_eq with hc | hc <;> simp [inLines, hc]

theorem InExpression.startsStatement_eq (h : InExpression p) : p.startsStatement = false := by
  rcases h.context_eq with hc | hc <;> simp [startsStatement, hc]

theorem InExpression.startsMember_eq (h : InExpression p) : p.startsMember = false := by
  rcases h.context_eq with hc | hc <;> simp [startsMember, hc]

theorem InExpression.closesLoop_eq (h : InExpression p) (k : Kind) : p.closesLoop k = false := by
  simp [closesLoop, h.loops]

theorem InExpression.endsBefore_eq (h : InExpression p) (k : Kind) :
    p.endsBefore k false = false := by
  simp [endsBefore, endsBranch, h.inLines_eq]

theorem head?_of_closedBy {c : Context} (h : p.closedBy k = some c) :
    p.stack.head? = some c := by
  unfold closedBy at h
  split at h
  case h_4 => cases h
  all_goals exact (Option.ite_none_right_eq_some.1 h).2

theorem InExpression.closedBy_ne (h : InExpression p) (k : Kind) :
    p.closedBy k ≠ some .loopTail := by
  intro hclosed
  have hcontext := h.contexts _ (List.mem_of_mem_head? (head?_of_closedBy hclosed))
  simp at hcontext

theorem InExpression.stackAfter_cases (h : InExpression p) (hk : k.isPlain ∨ k.isPoint) :
    p.stackAfter k = p.stack ∨ 1 < p.stack.length ∧ p.stackAfter k = p.stack.tail ∨
      ∃ c, (c = .group ∨ c = .bracket) ∧ p.stackAfter k = c :: p.stack := by
  simp only [stackAfter, h.paren, Option.getD_none]
  repeat' split
  case h_4 | h_5 => exact .inr (.inr ⟨_, .inl rfl, rfl⟩)
  case h_6 => exact .inr (.inr ⟨_, .inr rfl, rfl⟩)
  all_goals first
    | exact .inl rfl
    | exact .inr (.inl ⟨‹1 < p.stack.length›, rfl⟩)
    | exact absurd hk (by decide)

theorem InExpression.after (h : InExpression p) (hk : k.isPlain ∨ k.isPoint) :
    InExpression (p.after k) := by
  have hopens : k.opensHead = false ∧ k ≠ .doWord := by
    revert hk
    cases k <;> decide
  refine ⟨?nonempty, ?contexts, ?clause, ?loops, ?paren⟩
  case nonempty =>
    change p.stackAfter k ≠ []
    rcases h.stackAfter_cases hk with hs | ⟨hlt, hs⟩ | ⟨c, -, hs⟩ <;> rw [hs]
    · exact h.nonempty
    · exact List.ne_nil_of_length_pos (by rw [List.length_tail]; omega)
    · exact List.cons_ne_nil _ _
  case contexts =>
    change ∀ c ∈ p.stackAfter k, _
    rcases h.stackAfter_cases hk with hs | ⟨-, hs⟩ | ⟨c, hc, hs⟩ <;> rw [hs]
    · exact h.contexts
    · exact fun d hd => h.contexts d (List.mem_of_mem_tail hd)
    · exact List.forall_mem_cons.2 ⟨hc, h.contexts⟩
  case clause => simp [Place.after, inClauseAfter, h.startsStatement_eq, h.clause]
  case loops => simp [Place.after, hopens.2, h.loops]
  case paren => simp [Place.after, hopens.1]

theorem InExpression.placeFrom_cons (h : InExpression p) (hline : t.kind ≠ .newline)
    (hsemicolon : t.kind ≠ .semicolon) (module : Bool) (last : Option Token) :
    placeFrom module p false last (t :: rest) =
      { t with kind := p.role t rest } ::
        placeFrom module (p.after (p.role t rest)) false
          (some { t with kind := p.role t rest }) rest := by
  rw [placeFrom, if_neg hline, if_neg hsemicolon]
  simp [h.closesLoop_eq, h.endsBefore_eq, h.closedBy_ne]

/-- Tokens among which no line ends and no arrow function starts. -/
structure Flat (ts : List Token) : Prop where
  lines : ∀ t ∈ ts, t.kind ≠ .newline
  arrows : ∀ t ∈ ts, t.kind ≠ .arrow

theorem Flat.tail (h : Flat (t :: rest)) : Flat rest :=
  ⟨(List.forall_mem_cons.1 h.lines).2, (List.forall_mem_cons.1 h.arrows).2⟩

theorem significant_eq (h : ∀ t ∈ rest, t.kind ≠ .newline) : significant rest = rest := by
  cases rest with
  | nil => rfl
  | cons t rest =>
    have ht := h t List.mem_cons_self
    simp [significant, ht]

theorem closesIntoArrow_eq (h : ∀ t ∈ rest, t.kind ≠ .arrow) (depth : Nat) :
    closesIntoArrow depth rest = false := by
  induction rest generalizing depth with
  | nil => rfl
  | cons t rest ih =>
    obtain ⟨-, h⟩ := List.forall_mem_cons.1 h
    unfold closesIntoArrow
    split
    · exact ih h _
    split
    · cases depth with
      | succ depth => exact ih h depth
      | zero =>
        rw [Option.any_eq_false]
        intro a ha
        have hmem := (List.dropWhile_suffix _).subset (List.mem_of_mem_head? ha)
        simpa using h a hmem
    · exact ih h depth

theorem marksAsync_eq (h : Flat rest) (hfunction : ∀ u ∈ rest.head?, u.kind ≠ .functionWord) :
    marksAsync t rest = false := by
  cases rest with
  | nil => rfl
  | cons u rest =>
    obtain ⟨-, hlines⟩ := List.forall_mem_cons.1 h.lines
    obtain ⟨-, harrows⟩ := List.forall_mem_cons.1 h.arrows
    have hu : u.kind ≠ .functionWord := hfunction u rfl
    have harrow : rest.head?.any (fun a => a.kind = .arrow) = false := by
      cases rest with
      | nil => rfl
      | cons a rest => simpa using harrows a List.mem_cons_self
    rw [marksAsync, significant_eq h.lines]
    simp only [significant_eq hlines, closesIntoArrow_eq harrows, harrow, hu]
    simp

theorem InExpression.nameRole_eq (h : InExpression p) (hflat : Flat rest)
    (hfunction : ∀ u ∈ rest.head?, u.kind ≠ .functionWord) : p.nameRole t rest = .name := by
  have hcontext : p.context ≠ .head := by
    rcases h.context_eq with hc | hc <;> rw [hc] <;> decide
  simp [nameRole, h.clause, h.startsMember_eq, hcontext, marksAsync_eq hflat hfunction]

theorem InExpression.role_eq (h : InExpression p) (hk : t.kind.isPlain ∨ t.kind.isPoint)
    (hlast : t.kind.isReserved → p.lastIn [.dot, .optionalChain] = false) (hflat : Flat rest)
    (hfunction : t.kind = .name → ∀ u ∈ rest.head?, u.kind ≠ .functionWord) :
    p.role t rest = t.kind := by
  have hne : t.kind ≠ .leftBrace ∧ t.kind ≠ .functionWord ∧ t.kind ≠ .classWord := by
    revert hk
    cases t.kind <;> decide
  obtain ⟨hbrace, hfn, hclass⟩ := hne
  rw [role, if_neg hbrace, closesIntoArrow_eq hflat.arrows]
  simp only [Bool.false_eq_true, and_false, if_false]
  split
  · rename_i hreserved
    simp [reservedRole, hfn, hclass, hlast hreserved, h.startsMember_eq]
  split
  · rename_i hname
    rw [hname, h.nameRole_eq hflat (hfunction hname)]
  · rfl

/-- Behind a point a reserved word is a name. -/
theorem InExpression.role_behindPoint (h : InExpression p)
    (hlast : p.last = some .dot ∨ p.last = some .optionalChain)
    (hk : t.kind.isReserved ∨ t.kind = .name) (hflat : Flat rest)
    (hfunction : ∀ u ∈ rest.head?, u.kind ≠ .functionWord) : p.role t rest = .name := by
  have hne : t.kind ≠ .leftBrace := by
    revert hk
    cases t.kind <;> decide
  have hpoint : p.lastIn [.dot, .optionalChain] = true := by
    rcases hlast with hl | hl <;> simp [lastIn, hl]
  have hdeclares : p.lastIs .exportWord = false ∧ p.lastIs .asyncWord = false := by
    rcases hlast with hl | hl <;> simp [lastIs, hl]
  rw [role, if_neg hne, closesIntoArrow_eq hflat.arrows]
  simp only [Bool.false_eq_true, and_false, if_false]
  split
  · simp [reservedRole, hpoint, hdeclares, h.startsStatement_eq]
  · rename_i hreserved
    rw [if_pos (hk.resolve_left hreserved), h.nameRole_eq hflat hfunction]

end Place

end Token

namespace Word

open Token (Kind Place)
open Token.Place (InExpression Flat)

/-- The word as it is cut from a text, where a name can be a reserved word. -/
def raw (w : Word) : Word := if w.kind = .name then ⟨Lexeme.nameKind w.text, w.text⟩ else w

/-- The words of an expression without braces, statements and arrow functions. Only behind a point
is a reserved word a name. -/
inductive Settled : List Word → Prop
  | nil : Settled []
  | plain {w : Word} {ws : List Word} (hk : w.kind.isPlain) (hraw : w.raw = w) (h : Settled ws) :
    Settled (w :: ws)
  | behindPoint {d w : Word} {ws : List Word} (hd : d.kind.isPoint) (hw : w.kind.followsPoint)
    (h : Settled ws) : Settled (d :: w :: ws)

theorem Settled.append {ws ws' : List Word} (h : Settled ws) (h' : Settled ws') :
    Settled (ws ++ ws') := by
  induction h with
  | nil => exact h'
  | plain hk hraw _ ih => exact .plain hk hraw ih
  | behindPoint hd hw _ ih => exact .behindPoint hd hw ih

theorem raw_of_ne_name {w : Word} (h : w.kind ≠ .name) : w.raw = w := if_neg h

theorem raw_text (w : Word) : w.raw.text = w.text := by
  unfold raw
  split <;> rfl

theorem nameKind_cases (t : Text) :
    Lexeme.nameKind t = .name ∨ (Lexeme.nameKind t).isReserved := by
  unfold Lexeme.nameKind
  cases h : Kind.reservedWords.find? fun w => Text.ofString w.1 == t with
  | none => exact .inl rfl
  | some w =>
    exact .inr (List.any_eq_true.2 ⟨w, List.mem_of_find?_eq_some h, by simp⟩)

theorem raw_cases {w : Word} (h : w.kind.followsPoint) :
    w.kind = .name ∧ (w.raw.kind.isReserved ∨ w.raw.kind = .name) ∨ w.raw = w ∧
      w.kind.isPlain ∧ w.kind.isReserved = false := by
  by_cases hname : w.kind = .name
  · refine .inl ⟨hname, ?_⟩
    rw [raw, if_pos hname]
    exact (nameKind_cases w.text).symm
  · refine .inr ⟨raw_of_ne_name hname, ?_⟩
    revert h hname
    cases w.kind <;> decide

theorem raw_point {d : Word} (h : d.kind.isPoint) : d.raw = d := by
  refine raw_of_ne_name fun hname => ?_
  rw [hname] at h
  cases h

theorem Settled.raw_kind_ne {ws : List Word} (h : Settled ws) :
    ∀ w ∈ ws, w.raw.kind ≠ .newline ∧ w.raw.kind ≠ .semicolon ∧ w.raw.kind ≠ .arrow := by
  have hkinds : ∀ k : Kind, k.isPlain ∨ k.isPoint ∨ k.isReserved ∨ k = .name →
      k ≠ .newline ∧ k ≠ .semicolon ∧ k ≠ .arrow := by
    intro k
    cases k <;> decide
  induction h with
  | nil => simp
  | plain hk hraw _ ih => exact List.forall_mem_cons.2 ⟨hkinds _ (.inl (by rwa [hraw])), ih⟩
  | @behindPoint d w _ hd hw _ ih =>
    refine List.forall_mem_cons.2 ⟨hkinds _ (.inr (.inl (by rwa [raw_point hd]))), ?_⟩
    refine List.forall_mem_cons.2 ⟨hkinds _ ?_, ih⟩
    rcases raw_cases hw with ⟨-, hk⟩ | ⟨hraw, hk, -⟩
    · exact .inr (.inr hk)
    · exact .inl (by rwa [hraw])

theorem Settled.head_raw {ws : List Word} (h : Settled ws) :
    ∀ w ∈ ws.head?, w.raw.kind.isPlain ∨ w.raw.kind.isPoint := by
  rintro w hw
  cases h with
  | nil => cases hw
  | plain hk hraw _ =>
    obtain rfl := Option.some.inj hw
    exact .inl (by rwa [hraw])
  | behindPoint hd _ _ =>
    obtain rfl := Option.some.inj hw
    exact .inr (by rwa [raw_point hd])

theorem Settled.head_raw_ne {ws : List Word} (h : Settled ws) :
    ∀ w ∈ ws.head?, w.raw.kind ≠ .functionWord ∧ w.raw.kind ≠ .elseWord := by
  intro w hw
  have hk := h.head_raw w hw
  constructor <;> intro heq <;> simp [heq, Kind.isPlain, Kind.isPoint] at hk

def Cuts (ts : List Token) (ws : List Word) : Prop := ts.map Token.word = ws.map raw

theorem Cuts.cons_inv {ts : List Token} {w : Word} {ws : List Word} (h : Cuts ts (w :: ws)) :
    ∃ t rest, ts = t :: rest ∧ t.word = w.raw ∧ Cuts rest ws := by
  obtain ⟨t, rest, rfl, ht, hrest⟩ := List.map_eq_cons_iff.1 h
  exact ⟨t, rest, rfl, ht, hrest⟩

theorem Cuts.flat {ts : List Token} {ws : List Word} (h : Cuts ts ws) (hws : Settled ws) :
    Flat ts ∧ ∀ t ∈ ts.head?, t.kind ≠ .functionWord := by
  have hkinds : ∀ t ∈ ts, t.kind ≠ .newline ∧ t.kind ≠ .semicolon ∧ t.kind ≠ .arrow := by
    intro t ht
    obtain ⟨w, hw, heq⟩ : ∃ w ∈ ws, w.raw = t.word := by
      rw [← List.mem_map, ← show _ = _ from h]
      exact List.mem_map_of_mem ht
    have := hws.raw_kind_ne w hw
    rwa [heq] at this
  refine ⟨⟨fun t ht => (hkinds t ht).1, fun t ht => (hkinds t ht).2.2⟩, ?_⟩
  cases ws with
  | nil =>
    obtain rfl := List.map_eq_nil_iff.1 h
    simp
  | cons w ws =>
    obtain ⟨t, rest, rfl, ht, -⟩ := h.cons_inv
    have := (hws.head_raw_ne w rfl).1
    rw [← ht] at this
    simpa using this

theorem placeFrom_kept {p : Place} (hp : InExpression p) {t : Token} {rest : List Token}
    (hk : t.kind.isPlain ∨ t.kind.isPoint)
    (hlast : t.kind.isReserved → p.lastIn [.dot, .optionalChain] = false) (hflat : Flat rest)
    (hfunction : t.kind = .name → ∀ u ∈ rest.head?, u.kind ≠ .functionWord)
    (last : Option Token) :
    Place.placeFrom false p false last (t :: rest) =
      t :: Place.placeFrom false (p.after t.kind) false (some t) rest := by
  have hne : t.kind ≠ .newline ∧ t.kind ≠ .semicolon := by
    revert hk
    cases t.kind <;> decide
  rw [hp.placeFrom_cons hne.1 hne.2, hp.role_eq hk hlast hflat hfunction]

theorem lastIn_after (p : Place) {k : Kind} (hk : k.isPoint = false) :
    (p.after k).lastIn [.dot, .optionalChain] = false := by
  revert hk
  simp only [Place.after, Place.lastIn]
  cases k <;> decide

theorem isPoint_of_isPlain {k : Kind} (h : k.isPlain) : k.isPoint = false := by
  revert h
  cases k <;> decide

/-- In an expression each word takes the kind that it should have. -/
theorem placeFrom_words {ws : List Word} (hws : Settled ws) {ts : List Token} (h : Cuts ts ws)
    {p : Place} (hp : InExpression p) (hlast : p.lastIn [.dot, .optionalChain] = false)
    (last : Option Token) : (Place.placeFrom false p false last ts).map Token.word = ws := by
  induction hws generalizing ts p last with
  | nil =>
    obtain rfl := List.map_eq_nil_iff.1 h
    cases last <;> rfl
  | @plain w ws hk hraw hws ih =>
    obtain ⟨t, rest, rfl, ht, hrest⟩ := h.cons_inv
    rw [hraw] at ht
    have hplain : t.kind.isPlain := by rwa [← Token.word_kind, ht]
    obtain ⟨hflat, hfunction⟩ := hrest.flat hws
    rw [placeFrom_kept hp (.inl hplain) (fun _ => hlast) hflat fun _ => hfunction, List.map_cons,
      ht, ih hrest (hp.after (.inl hplain)) (lastIn_after p (isPoint_of_isPlain hplain))]
  | @behindPoint d w ws hd hw hws ih =>
    obtain ⟨hflat, -⟩ := h.flat (.behindPoint hd hw hws)
    obtain ⟨s, rest, rfl, hs, hrest⟩ := h.cons_inv
    obtain ⟨t, rest, rfl, ht, hrest'⟩ := hrest.cons_inv
    rw [raw_point hd] at hs
    have hpoint : s.kind.isPoint := by rwa [← Token.word_kind, hs]
    have hs' := hp.after (.inr hpoint)
    obtain ⟨hflat', hfunction⟩ := hrest'.flat hws
    have hlast' : s.kind = .dot ∨ s.kind = .optionalChain := by simpa [Kind.isPoint] using hpoint
    have hnot : s.kind.isReserved = false ∧ s.kind ≠ .name := by
      rcases hlast' with hk | hk <;> rw [hk] <;> decide
    rw [placeFrom_kept hp (.inr hpoint) (by simp [hnot.1]) hflat.tail (absurd · hnot.2),
      List.map_cons, hs]
    congr 1
    rcases raw_cases hw with ⟨hname, hk⟩ | ⟨hraw, hplain, hreserved⟩
    · -- the word is a name, whatever it was cut as
      rw [← ht, Token.word_kind] at hk
      have hline : t.kind ≠ .newline ∧ t.kind ≠ .semicolon := by
        revert hk
        cases t.kind <;> decide
      have hword : ({ t with kind := .name } : Token).word = w := by
        have htext : t.text = w.text := by rw [← raw_text w, ← ht]; rfl
        rw [Token.word, htext, ← hname]
      rw [hs'.placeFrom_cons hline.1 hline.2,
        hs'.role_behindPoint (by simpa [Place.after] using hlast') hk hflat' hfunction,
        List.map_cons, hword, ih hrest' (hs'.after (.inl rfl)) (lastIn_after _ rfl)]
    · rw [hraw] at ht
      have hplain' : t.kind.isPlain := by rwa [← Token.word_kind, ht]
      have hreserved' : t.kind.isReserved = false := by rwa [← Token.word_kind, ht]
      rw [placeFrom_kept hs' (.inl hplain') (by simp [hreserved']) hflat' fun _ => hfunction,
        List.map_cons, ht,
        ih hrest' (hs'.after (.inl hplain')) (lastIn_after _ (isPoint_of_isPlain hplain'))]

theorem placeExpression_words {ws : List Word} (hws : Settled ws) {ts : List Token}
    (h : Cuts ts ws) : (Token.placeExpression ts).map Token.word = ws :=
  placeFrom_words hws h .ofExpression rfl none

end Word

end InlineTemplates
