import InlineTemplates.Proofs.NumberLiterals
import InlineTemplates.Proofs.ValueReading

/-!
# The words of quoted values

Literals, lists and mappings are written down in few kinds of words, and each keeps its kind:
no statement and no class starts inside a value. `Prints` says of a text which words it is cut
into, and between which places they stand. Texts are put together by appending.
-/

namespace InlineTemplates

open Lexeme (Spells)
open Token (Kind Place)
open Token.Place (Lays)

/-! ## Roles -/

namespace Token.Kind

def isQuoted : Kind → Bool
  | string | number | trueWord | falseWord | leftBracket | rightBracket | leftBrace | rightBrace
  | comma | colon => true
  | _ => false

end Token.Kind

namespace Token.Place

variable {stack : List Context} {p : Place} {w : Word} {k : Kind}

/-- The contexts of a quoted value that is an expression. -/
structure Nested (stack : List Context) : Prop where
  nonempty : stack ≠ []
  contexts : ∀ c ∈ stack, c = .group ∨ c = .bracket ∨ c = .object

theorem Nested.cons {c : Context} (h : Nested stack) (hc : c = .bracket ∨ c = .object) :
    Nested (c :: stack) :=
  ⟨List.cons_ne_nil _ _, List.forall_mem_cons.2 ⟨.inr hc, h.contexts⟩⟩

structure InValue (stack : List Context) (p : Place) : Prop where
  stack : p.stack = stack
  loops : p.loops = []
  classes : p.classes = []
  last : ∀ k ∈ p.last, k.isQuoted

structure StartsValue (stack : List Context) (p : Place) : Prop extends InValue stack p where
  member : p.startsMember = false

theorem startsValue_ofExpression : StartsValue [.group] .ofExpression :=
  ⟨⟨rfl, rfl, rfl, by simp [Place.ofExpression, ofModule]⟩, rfl⟩

namespace InValue

theorem context_cases (h : InValue stack p) (hs : Nested stack) :
    p.context = .group ∨ p.context = .bracket ∨ p.context = .object := by
  obtain ⟨c, below, rfl⟩ := List.exists_cons_of_ne_nil hs.nonempty
  have hc := hs.contexts c List.mem_cons_self
  simpa [context, h.stack] using hc

theorem inLines_eq (h : InValue stack p) (hs : Nested stack) : p.inLines = false := by
  rcases h.context_cases hs with hc | hc | hc <;> simp [inLines, hc]

theorem lastIn_eq (h : InValue stack p) {ks : List Kind} (hks : ∀ k ∈ ks, k.isQuoted = false) :
    p.lastIn ks = false := by
  rw [lastIn, Option.any_eq_false]
  intro k hk
  rw [List.contains_eq_mem, decide_eq_false_iff_not]
  intro hmem
  have hquoted := h.last k hk
  rw [hks k hmem] at hquoted
  cases hquoted

theorem startsValue_bracket (h : InValue (.bracket :: stack) p) :
    StartsValue (.bracket :: stack) p :=
  ⟨h, by simp [startsMember, context, h.stack]⟩

theorem startsValue_colon (h : InValue stack p) (hs : Nested stack) (hlast : p.last = some .colon) :
    StartsValue stack p := by
  refine ⟨h, ?_⟩
  rcases h.context_cases hs with hc | hc | hc <;> simp [startsMember, hc, lastIn, hlast]

/-- Each kind is its own role: no block and no declaration starts in a value, and a reserved word
is a name only where a member starts. -/
theorem fixedRole_eq (h : InValue stack p) (hs : Nested stack) (hk : k.isQuoted)
    (hmember : k.isReserved → p.startsMember = false) (next : Option Kind) :
    p.fixedRole k next = k := by
  rw [fixedRole]
  split
  · next hbrace =>
    have hblock : p.last.any Kind.opensBlock = false := by
      rw [Option.any_eq_false]
      intro j hj
      have hquoted := h.last j hj
      revert hquoted
      cases j <;> decide
    have hstarts : p.startsStatement = false := by
      rcases h.context_cases hs with hc | hc | hc <;> simp [startsStatement, hc]
    simp [braceRole, h.classes, hblock, hstarts, hbrace]
  · split
    · next hreserved =>
      have hne : k ≠ .functionWord ∧ k ≠ .classWord := by
        revert hk
        cases k <;> decide
      exact reservedRole_eq hne (h.lastIn_eq (by decide)) (.inl (hmember hreserved))
    · rfl

theorem lays (h : InValue stack p) (hs : Nested stack) {ls : List Word}
    (hls : ∀ l ∈ ls, l.kind = .newline) (hw : w.kind.isQuoted)
    (hmember : w.kind.isReserved → p.startsMember = false) :
    InValue (p.stackAfter w.kind) (p.after w.kind) ∧
      Lays p (ls ++ [w]) [w] (p.after w.kind) fun _ => True := by
  have hkinds : w.kind ∉ [.newline, .semicolon, .name] ∧ w.kind ≠ .leftParen ∧
      w.kind ≠ .classWord ∧ w.kind ≠ .classDeclaration ∧ w.kind ≠ .classBrace ∧
        w.kind ≠ .doWord := by
    revert hw
    cases w.kind <;> decide
  obtain ⟨hplain, hparen, hclass, hdeclaration, hbrace, hdo⟩ := hkinds
  have hends : p.endsBefore w.kind (!ls.isEmpty) = false := by
    simp [endsBefore, endsBranch, h.inLines_eq hs]
  have hopen : p.closedBy w.kind ≠ some .loopTail := by
    intro hclosed
    have hhead := head?_of_closedBy hclosed
    rw [h.stack] at hhead
    have hcontext := hs.contexts _ (List.mem_of_mem_head? hhead)
    simp at hcontext
  refine ⟨⟨rfl, ?_, ?_, ?_⟩, ?_⟩
  · simp [Place.after, hdo, h.loops]
  · simp [Place.after, hclass, hdeclaration, hbrace, h.classes]
  · simpa [Place.after] using hw
  · exact lays_fixed hls h.loops hplain hends hopen (h.fixedRole_eq hs hw hmember)
      fun hk => absurd hk hparen

end InValue

end Token.Place

/-! ## Texts -/

def EndsValue (t : Text) : Prop := ∀ c ∈ t.head?, c = ',' ∨ c = '\n' ∨ c = ']' ∨ c = '\x7d'

theorem EndsValue.endsInteger {t : Text} (h : EndsValue t) : Lexeme.EndsInteger t := by
  intro c hc
  have hdigit (hval : c.val < 0x30 ∨ 0x3A ≤ c.val ∧ c.val < 0x660) : c.isDigit = false :=
    CodePoint.isDigit_eq_false hval
  rcases h c hc with rfl | rfl | rfl | rfl <;> exact ⟨hdigit (by decide), by decide, by decide⟩

theorem EndsValue.endsName {t : Text} (h : EndsValue t) : Lexeme.EndsName t := fun c hc =>
  (h.endsInteger c hc).2.1

namespace Word

def unbroken (ws : List Word) : List Word := ws.filter (·.kind ≠ .newline)

@[simp]
theorem unbroken_nil : unbroken [] = [] := rfl

theorem unbroken_cons {w : Word} (h : w.kind ≠ .newline) (ws : List Word) :
    unbroken (w :: ws) = w :: unbroken ws := by
  simp [unbroken, h]

@[simp]
theorem unbroken_line (level : Nat) (ws : List Word) :
    unbroken (.line level :: ws) = unbroken ws := rfl

theorem unbroken_lines {ls : List Word} (h : ∀ l ∈ ls, l.kind = .newline) : unbroken ls = [] := by
  simpa [unbroken] using h

@[simp]
theorem unbroken_append (ws vs : List Word) :
    unbroken (ws ++ vs) = unbroken ws ++ unbroken vs := List.filter_append ws vs

end Word

/-- From each place of which `start` holds, the text is cut into the words in front of a text of
which `follows` holds, and these keep their kinds. `ends` holds of the place behind them. -/
structure Prints (start : Place → Prop) (t : Text) (ws : List Word) (ends : Place → Prop)
    (follows : Text → Prop) : Prop where
  cut {rest : Text} {wr : List Word} (hrest : follows rest) (h : Spells rest wr) :
    Spells (t ++ rest) (ws ++ wr)
  lays {p : Place} (hp : start p) : ∃ q, ends q ∧ Lays p ws (Word.unbroken ws) q fun _ => True

namespace Prints

open Token.Place (Nested InValue StartsValue)

variable {start start' mid ends ends' : Place → Prop} {follows follows' : Text → Prop}
  {t u : Text} {ws vs : List Word} {stack : List Token.Context}

theorem nil : Prints start [] [] start follows :=
  ⟨fun _ h => h, fun {p} hp => ⟨p, hp, Token.Place.lays_nil⟩⟩

theorem append (h : Prints start t ws mid follows) (h' : Prints mid u vs ends follows')
    (hu : ∀ rest, follows' rest → follows (u ++ rest)) :
    Prints start (t ++ u) (ws ++ vs) ends follows' := by
  refine ⟨fun hrest hspells => ?_, fun hp => ?_⟩
  · rw [List.append_assoc, List.append_assoc]
    exact h.cut (hu _ hrest) (h'.cut hrest hspells)
  · obtain ⟨q, hq, hlays⟩ := h.lays hp
    obtain ⟨q', hq', hlays'⟩ := h'.lays hq
    rw [Word.unbroken_append]
    exact ⟨q', hq', hlays.trans hlays' fun _ _ => trivial⟩

theorem weaken (h : Prints start t ws ends follows) (hstart : ∀ p, start' p → start p)
    (hends : ∀ p, ends p → ends' p) (hfollows : ∀ rest, follows' rest → follows rest) :
    Prints start' t ws ends' follows' := by
  refine ⟨fun hrest => h.cut (hfollows _ hrest), fun hp => ?_⟩
  obtain ⟨q, hq, hlays⟩ := h.lays (hstart _ hp)
  exact ⟨q, hends q hq, hlays⟩

theorem blank (h : Prints start t ws ends follows) (ht : t.StartsVisibly) :
    Prints start (CodePoint.scalar ' ' :: t) ws ends follows :=
  ⟨fun hrest hspells => (h.cut hrest hspells).spaced (ht.append _), h.lays⟩

theorem word {w : Word} (ls : List Word) {stack' : List Token.Context} (hs : Nested stack)
    (hls : ∀ l ∈ ls, l.kind = .newline) (hw : w.kind.isQuoted)
    (hmember : ∀ p, start p → InValue stack p ∧ (w.kind.isReserved → p.startsMember = false))
    (hstack : ∀ p : Place, p.stack = stack → p.stackAfter w.kind = stack')
    (hcut : ∀ {rest wr}, follows rest → Spells rest wr → Spells (t ++ rest) (ls ++ w :: wr)) :
    Prints start t (ls ++ [w]) (fun q => InValue stack' q ∧ q.last = some w.kind) follows := by
  refine ⟨fun hrest hspells => by simpa using hcut hrest hspells, fun {p} hp => ?_⟩
  obtain ⟨hp, hreserved⟩ := hmember p hp
  obtain ⟨hafter, hlays⟩ := hp.lays hs hls hw hreserved
  have hunbroken : Word.unbroken (ls ++ [w]) = [w] := by
    have hline : w.kind ≠ .newline := by
      rintro hk
      rw [hk] at hw
      cases hw
    rw [Word.unbroken_append, Word.unbroken_lines hls, Word.unbroken_cons hline]
    rfl
  rw [hunbroken]
  exact ⟨_, ⟨hstack p hp.stack ▸ hafter, rfl⟩, hlays⟩

theorem sign {x : String × Kind} {stack' : List Token.Context} (hs : Nested stack)
    (hx : x ∈ Lexeme.freeSigns ∨ x ∈ CutInto.signs) (hk : x.2.isQuoted ∧ x.2.isReserved = false)
    (hstack : ∀ p : Place, p.stack = stack → p.stackAfter x.2 = stack') :
    Prints (InValue stack) (Text.ofString x.1) [⟨x.2, x.1⟩]
      (fun q => InValue stack' q ∧ q.last = some x.2) fun _ => True :=
  word (w := ⟨x.2, x.1⟩) [] hs (by simp) hk.1
    (fun _ hp => ⟨hp, fun hreserved => absurd hreserved (by simp [hk.2])⟩) hstack
    fun _ h => h.sign hx

end Prints

end InlineTemplates
