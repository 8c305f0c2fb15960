import Mathlib.Data.Option.Basic
import InlineTemplates.Proofs.Scanning
import InlineTemplates.Proofs.Semicolons

/-!
# What placing keeps

Tokens get their roles with three stacks: of the open brackets, of the classes that wait for their
bodies and of the do-loops that wait for their `while`. Whatever the tokens are, balanced or not, no
step takes from an empty stack and the outermost context stays. Apart from line breaks and
semicolons all tokens come out in their order, with other kinds at most, and a terminator that no
semicolon stands for follows a token that can end a statement.
-/

namespace InlineTemplates

namespace Token

/-- Whether a token has this kind only where it stands. The text of a token alone gives it none of
these. -/
def Kind.isRole : Kind → Bool
  | terminator | blockBrace | classBrace | arrowParen | functionDeclaration | classDeclaration
  | fromWord | asWord | ofWord | asyncWord | staticWord | getWord | setWord => true
  | _ => false

end Token

/-! ## Tokens without roles -/

namespace Lexeme

open Token

variable {t : Text} {n : Nat} {k : Kind}

theorem nameKind_isRole (t : Text) : (nameKind t).isRole = false := by
  have hwords : ∀ w ∈ Kind.reservedWords, w.2.isRole = false := by decide
  unfold nameKind
  cases hw : Kind.reservedWords.find? fun w => Text.ofString w.1 == t with
  | none => rfl
  | some w => exact hwords w (List.mem_of_find?_eq_some hw)

theorem sign?_isRole {s : Kind × Nat} (h : sign? t = some s) : s.1.isRole = false := by
  have hsigns : ∀ p ∈ Kind.punctuation, p.2.isRole = false := by decide
  obtain ⟨p, hp, rfl⟩ := Option.map_eq_some_iff.1 h
  exact hsigns p (List.mem_of_find?_eq_some hp)

theorem next?_isRole (h : next? t = some (.token k, n)) : k.isRole = false := by
  have hall : ∀ c, next? t = some c → ∀ k, c.1 = .token k → k.isRole = false := by
    unfold next?
    refine all_orElse ?_ <| all_orElse ?_ <| all_orElse ?_ <| all_orElse ?_ <|
      all_orElse ?name <| all_orElse ?_ <| all_orElse ?_ <| all_orElse ?_ <| all_orElse ?_ <|
      all_orElse ?_ ?sign
    all_goals
      intro c hc k hk
      obtain ⟨m, hm, rfl⟩ := Option.map_eq_some_iff.1 hc
      cases hk
    case name => exact nameKind_isRole _
    case sign => exact sign?_isRole hm
    all_goals rfl
  exact hall _ h k rfl

end Lexeme

namespace Scan

theorem scanFrom_isRole {fuel : Nat} {loc : Location} {t : Text} {s : Scan}
    (h : scanFrom fuel loc t = .ok s) : ∀ u ∈ s.tokens, u.kind.isRole = false := by
  induction fuel generalizing loc t s with
  | zero =>
    cases t with
    | nil =>
      obtain rfl := Except.ok.inj h
      simp
    | cons c rest => cases h
  | succ fuel ih =>
    cases t with
    | nil =>
      obtain rfl := Except.ok.inj h
      simp
    | cons c rest =>
      rw [scanFrom] at h
      split at h
      · cases h
      · next cls n hnext =>
        obtain ⟨below, hbelow, rfl⟩ := exists_ok_of_map h
        have hrest := ih hbelow
        cases cls with
        | token k => exact List.forall_mem_cons.2 ⟨Lexeme.next?_isRole hnext, hrest⟩
        | comment => exact hrest
        | blank => exact hrest

theorem scan_isRole {source : Text} {s : Scan} (h : scan source = .ok s) :
    ∀ u ∈ s.tokens, u.kind.isRole = false :=
  scanFrom_isRole h

end Scan

namespace Token

open Place (terminatorOf placeFrom)

/-- A token apart from its kind. -/
def content (t : Token) : Text × Location × Location := (t.text, t.start, t.stop)

/-! ## Steps that can fail -/

namespace Place

variable {p : Place} {k : Kind} {t : Token} {rest : List Token} {outermost : Context}

/-- `leaveLoop`, which fails if no do-loop waits for its `while`. -/
def leaveLoop? (p : Place) : Option Place := do
  let loops ← p.loops.tail?
  return { p with loops := loops, nextParen := some .loopTail }

/-- `stackAfter`, which fails if a bracket closes where none is open. -/
def stackAfter? (p : Place) (k : Kind) : Option (List Context) :=
  match k with
  | .rightParen | .rightBracket | .rightBrace =>
    if 1 < p.stack.length then p.stack.tail? else p.stack
  | _ => p.stackAfter k

/-- The classes that wait behind a token. Fails if a body opens for which none waits. -/
def classesAfter? (p : Place) (k : Kind) : Option (List Nat) :=
  if k = .classBrace then p.classes.tail? else (p.after k).classes

/-- `after`, which fails if one of the stacks does. -/
def after? (p : Place) (k : Kind) : Option Place := do
  let stack ← p.stackAfter? k
  let classes ← p.classesAfter? k
  return { p.after k with stack := stack, classes := classes }

theorem tail?_eq {α : Type} {l : List α} (h : l ≠ []) : l.tail? = some l.tail := by
  cases l with
  | nil => exact absurd rfl h
  | cons a l => rfl

theorem leaveLoop?_eq (h : p.loops ≠ []) : p.leaveLoop? = some p.leaveLoop := by
  simp [leaveLoop?, leaveLoop, tail?_eq h]

theorem stackAfter?_eq (p : Place) (k : Kind) : p.stackAfter? k = some (p.stackAfter k) := by
  have hclose : (if 1 < p.stack.length then p.stack.tail? else some p.stack) =
      some (if 1 < p.stack.length then p.stack.tail else p.stack) := by
    split
    · next h => exact tail?_eq (List.ne_nil_of_length_pos (Nat.zero_lt_of_lt h))
    · rfl
  cases k <;> first | exact hclose | rfl

theorem classesAfter?_eq (h : k = .classBrace → p.classes ≠ []) :
    p.classesAfter? k = some (p.after k).classes := by
  unfold classesAfter?
  split
  · next hk =>
    subst hk
    exact tail?_eq (h rfl)
  · rfl

theorem after?_eq (h : k = .classBrace → p.classes ≠ []) : p.after? k = some (p.after k) := by
  rw [after?, stackAfter?_eq, classesAfter?_eq h]
  rfl

/-! ## The stacks -/

theorem loops_of_closesLoop (h : p.closesLoop k) : p.loops ≠ [] := by
  intro hnil
  simp [closesLoop, hnil] at h

theorem reservedRole_ne_classBrace {next : Option Kind} (hk : k ≠ .classBrace) :
    p.reservedRole k next ≠ .classBrace := by
  unfold reservedRole
  dsimp only
  repeat' split
  all_goals simp [hk]

theorem nameRole_ne_classBrace : p.nameRole t rest ≠ .classBrace := by
  unfold nameRole
  dsimp only
  repeat' split
  all_goals simp

/-- A brace opens the body of a class only where a class waits for it. -/
theorem classes_of_role (ht : t.kind.isRole = false) (h : p.role t rest = .classBrace) :
    p.classes ≠ [] := by
  have hne : t.kind ≠ .classBrace := by
    intro heq
    rw [heq] at ht
    cases ht
  unfold role at h
  split at h
  · intro hnil
    simp only [braceRole, hnil, List.head?_nil, if_neg (Option.some_ne_none _).symm] at h
    split at h <;> cases h
  split at h
  · cases h
  split at h
  · exact absurd h (reservedRole_ne_classBrace hne)
  split at h
  · exact absurd h nameRole_ne_classBrace
  · exact absurd h hne

theorem stackAfter_outermost (h : p.stack.getLast? = some outermost) (k : Kind) :
    (p.stackAfter k).getLast? = some outermost := by
  have hopen (c : Context) : (c :: p.stack).getLast? = some outermost := by
    rw [List.getLast?_cons, h]
    rfl
  have hclose : (if 1 < p.stack.length then p.stack.tail else p.stack).getLast? =
      some outermost := by
    split
    · next hlen => rw [List.getLast?_tail, if_neg (by omega), h]
    · exact h
  cases k <;> first | exact hopen _ | exact hclose | exact h

end Place

namespace Visit

variable {v : Visit} {outermost : Context}

/-- `left`, which fails if the token is to leave a do-loop and none waits for its `while`. -/
def left? (v : Visit) : Option Place :=
  if v.before.closesLoop v.token.kind then v.place.leaveLoop? else v.place

/-- What is known behind a token that is no semicolon. Fails if one of the stacks does. -/
def after? (v : Visit) : Option Place := do
  let left ← v.left?
  let after ← left.after? v.role
  return if v.endsBehind then after.afterTerminator else after

theorem place_stacks (v : Visit) :
    v.place.stack = v.before.stack ∧ v.place.loops = v.before.loops := by
  rw [place]
  split <;> exact ⟨rfl, rfl⟩

theorem left_stacks (v : Visit) :
    v.left.stack = v.before.stack ∧ v.left.classes = v.place.classes := by
  rw [left, ← (place_stacks v).1]
  split <;> exact ⟨rfl, rfl⟩

theorem left?_eq (v : Visit) : v.left? = some v.left := by
  rw [left?, left]
  split
  · next hcloses =>
    exact Place.leaveLoop?_eq ((place_stacks v).2 ▸ Place.loops_of_closesLoop hcloses)
  · rfl

theorem after?_eq (ht : v.token.kind.isRole = false) (hsemicolon : v.token.kind ≠ .semicolon) :
    v.after? = some v.after := by
  have hclasses : v.role = .classBrace → v.left.classes ≠ [] := by
    rw [(left_stacks v).2]
    exact Place.classes_of_role ht
  rw [after?, left?_eq, Option.bind_eq_bind, Option.bind_some, Place.after?_eq hclasses, after,
    if_neg hsemicolon]
  rfl

theorem after_outermost (h : v.before.stack.getLast? = some outermost) :
    v.after.stack.getLast? = some outermost := by
  have hstack := Place.stackAfter_outermost ((left_stacks v).1 ▸ h) v.role
  rw [after]
  split
  · exact h
  split <;> exact hstack

end Visit

namespace Place

variable {p : Place} {ts : List Token} {outermost : Context} {module newline : Bool}
  {last : Option Token}

/-- `placeFrom`, which fails at a step that takes from an empty stack, and at a token in front of
which the outermost context is gone. -/
def placeFrom? (outermost : Context) (module : Bool) (p : Place) (newline : Bool)
    (last : Option Token) : List Token → Option (List Token)
  | [] => placeFrom module p newline last []
  | t :: rest =>
    if t.kind = .newline then placeFrom? outermost module p true last rest
    else if t.kind = .semicolon then do
      let us ← placeFrom? outermost module p.afterTerminator false last rest
      return terminatorOf t :: us
    else do
      guard (p.stack.getLast? = some outermost)
      let v : Visit := ⟨p, newline, t, rest⟩
      let after ← v.after?
      let us ← placeFrom? outermost module after false (some v.placed) rest
      return v.output ++ us

theorem placeFrom?_eq (h : p.stack.getLast? = some outermost)
    (hts : ∀ t ∈ ts, t.kind.isRole = false) :
    placeFrom? outermost module p newline last ts = some (placeFrom module p newline last ts) := by
  induction ts generalizing p newline last with
  | nil => rfl
  | cons t rest ih =>
    obtain ⟨ht, hrest⟩ := List.forall_mem_cons.1 hts
    by_cases hline : t.kind = .newline
    · rw [placeFrom?, if_pos hline, placeFrom_newline hline]
      exact ih h hrest
    by_cases hsemicolon : t.kind = .semicolon
    · rw [placeFrom?, if_neg hline, if_pos hsemicolon, placeFrom_semicolon hsemicolon,
        ih (p := p.afterTerminator) h hrest]
      rfl
    let v : Visit := ⟨p, newline, t, rest⟩
    have hbehind : v.after.stack.getLast? = some outermost := Visit.after_outermost h
    have hafter : v.after? = some v.after := Visit.after?_eq ht hsemicolon
    have hguard : guard (p.stack.getLast? = some outermost) = some () := by
      rw [h, guard, if_pos rfl]
      rfl
    rw [placeFrom?, if_neg hline, if_neg hsemicolon, placeFrom_visit hline hsemicolon, hguard]
    simp only [hafter, Option.bind_eq_bind, Option.bind_some, ih hbehind hrest, v]
    rfl

end Place

/-! ## What comes out -/

/-- How placed tokens come of tokens; `last` is the kind of the placed token in front. -/
inductive Placing : Option Kind → List Token → List Token → Prop
  | done {last : Option Kind} : Placing last [] []
  | newline {last : Option Kind} {t : Token} {ts us : List Token} (ht : t.kind = .newline)
      (h : Placing last ts us) : Placing last (t :: ts) us
  /-- A semicolon becomes one terminator. -/
  | semicolon {last : Option Kind} {t : Token} {ts us : List Token} (ht : t.kind = .semicolon)
      (h : Placing (some .terminator) ts us) : Placing last (t :: ts) (terminatorOf t :: us)
  /-- Any other token stays a token, with a kind of its own. -/
  | kept {last : Option Kind} {t : Token} {k : Kind} {ts us : List Token}
    (hline : t.kind ≠ .newline)
      (hsemicolon : t.kind ≠ .semicolon) (hk : k ≠ .terminator) (h : Placing (some k) ts us) :
      Placing last (t :: ts) ({ t with kind := k } :: us)
  /-- A terminator that no semicolon stands for follows a token that can end a statement. -/
  | inserted {k : Kind} {u : Token} {ts us : List Token} (hk : k.canEnd) (hu : u.kind = .terminator)
      (h : Placing (some .terminator) ts us) : Placing (some k) ts (u :: us)

namespace Placing

variable {last : Option Kind} {ts us : List Token}

/-- Without terminators there are the tokens that are neither line break nor semicolon, all of
them, in their order, with their texts and where they stand. -/
theorem contents (h : Placing last ts us) :
    (us.filter fun u => u.kind ≠ .terminator).map content =
      (ts.filter fun t => t.kind ≠ .newline ∧ t.kind ≠ .semicolon).map content := by
  induction h with
  | done => rfl
  | newline ht h ih => simpa [ht] using ih
  | semicolon ht h ih => simpa [ht, terminatorOf] using ih
  | kept hline hsemicolon hk h ih => simpa [hline, hsemicolon, hk, content] using ih
  | inserted hk hu h ih => simpa [hu] using ih

end Placing

namespace Place

variable {p : Place} {ts : List Token} {module newline : Bool} {last : Option Token}

/-- The last token can end a statement only if its kind can. -/
def Ended (p : Place) : Prop := p.canEnd → p.last.any Kind.canEnd

theorem afterTerminator_ended (p : Place) : p.afterTerminator.Ended :=
  fun h => absurd h Bool.false_ne_true

theorem after_ended (p : Place) (k : Kind) : (p.after k).Ended :=
  fun h => (Bool.and_eq_true_iff.1 h).1

theorem placing_of_canEnd {t : Token} {us : List Token} (hp : p.Ended) (h : p.canEnd)
    (hus : Placing (some .terminator) ts us) : Placing p.last ts (terminatorOf t :: us) := by
  have hlast := hp h
  cases hk : p.last with
  | none =>
    rw [hk] at hlast
    cases hlast
  | some k =>
    rw [hk] at hlast
    exact .inserted hlast rfl hus

theorem placing_visit {v : Visit} {us : List Token} (hp : v.before.Ended)
    (ht : v.token.kind.isRole = false) (hline : v.token.kind ≠ .newline)
    (hsemicolon : v.token.kind ≠ .semicolon) (hus : Placing v.after.last v.rest us) :
    Placing v.before.last (v.token :: v.rest) (v.output ++ us) := by
  have hrole : v.role ≠ .terminator := by
    refine role_ne_terminator fun heq => ?_
    rw [heq] at ht
    cases ht
  have hbehind : Placing (some v.role) v.rest
      ((if v.endsBehind then [terminatorOf v.token] else []) ++ us) := by
    rw [Visit.after, if_neg hsemicolon] at hus
    cases hb : v.endsBehind with
    | true =>
      rw [hb] at hus
      exact .inserted (Visit.role_canEnd hsemicolon (.inl hb)) rfl hus
    | false =>
      rw [hb] at hus
      exact hus
  have hplaced (last : Option Kind) : Placing last (v.token :: v.rest)
      (v.placed :: ((if v.endsBehind then [terminatorOf v.token] else []) ++ us)) :=
    .kept hline hsemicolon hrole hbehind
  rw [Visit.output, if_neg hsemicolon, List.append_assoc, List.cons_append]
  cases hends : v.endsBefore with
  | true => exact placing_of_canEnd hp (canEnd_of_endsBefore hends) (hplaced _)
  | false => exact hplaced _

theorem visit_ended (v : Visit) : v.after.Ended := by
  rw [Visit.after]
  split
  · exact afterTerminator_ended _
  split
  · exact afterTerminator_ended _
  · exact after_ended _ _

theorem placing_placeFrom (hp : p.Ended) (hts : ∀ t ∈ ts, t.kind.isRole = false) :
    Placing p.last ts (placeFrom module p newline last ts) := by
  induction ts generalizing p newline last with
  | nil =>
    cases last with
    | none => exact .done
    | some t =>
      rw [placeFrom]
      split
      · next hend => exact placing_of_canEnd hp (Bool.and_eq_true_iff.1 hend).2 .done
      · exact .done
  | cons t rest ih =>
    obtain ⟨ht, hrest⟩ := List.forall_mem_cons.1 hts
    by_cases hline : t.kind = .newline
    · rw [placeFrom_newline hline]
      exact .newline hline (ih hp hrest)
    by_cases hsemicolon : t.kind = .semicolon
    · rw [placeFrom_semicolon hsemicolon]
      exact .semicolon hsemicolon (ih (afterTerminator_ended p) hrest)
    · rw [placeFrom_visit hline hsemicolon]
      exact placing_visit (v := ⟨p, newline, t, rest⟩) hp ht hline hsemicolon
        (ih (visit_ended _) hrest)

def first (module : Bool) : Place := if module then .ofModule else .ofExpression

end Place

/-- The tokens of a module, or those of an expression that stands alone, in their places. -/
def inPlace (module : Bool) (ts : List Token) : List Token :=
  if module then placeModule ts else placeExpression ts

theorem inPlace_eq (module : Bool) (ts : List Token) :
    inPlace module ts = placeFrom module (Place.first module) false none ts := by
  cases module <;> rfl

/-- Placing ends for any tokens that have no roles yet, keeps those that are neither line break nor
semicolon, and puts terminators for semicolons and behind tokens that can end a statement. -/
theorem placing_inPlace (module : Bool) {ts : List Token} (h : ∀ t ∈ ts, t.kind.isRole = false) :
    Place.placeFrom? (Place.first module).context module (Place.first module) false none ts =
        some (inPlace module ts) ∧
      ((inPlace module ts).filter fun t => t.kind ≠ .terminator).map content =
        (ts.filter fun t => t.kind ≠ .newline ∧ t.kind ≠ .semicolon).map content ∧
      Placing none ts (inPlace module ts) := by
  have hstack : (Place.first module).stack.getLast? = some (Place.first module).context := by
    cases module <;> rfl
  have hended : (Place.first module).Ended := by
    cases module <;> exact fun h => absurd h Bool.false_ne_true
  have hlast : (Place.first module).last = none := by
    cases module <;> rfl
  have hplacing : Placing none ts (inPlace module ts) := by
    rw [inPlace_eq, ← hlast]
    exact Place.placing_placeFrom hended h
  refine ⟨?_, hplacing.contents, hplacing⟩
  rw [inPlace_eq]
  exact Place.placeFrom?_eq hstack h

/-- Brackets close that none opened, and a `while` stands in the body of the do-loop that waits for
its own. -/
theorem placing_unbalanced :
    let ts := [Kind.rightBrace, .doWord, .leftBrace, .whileWord, .rightParen, .newline, .name,
      .semicolon, .rightBrace, .whileWord, .leftParen, .rightParen].map
        fun k => (⟨k, "", default, default⟩ : Token)
    Placing none ts (inPlace true ts) ∧
      (inPlace true ts).map Token.kind = [.rightBrace, .doWord, .blockBrace, .whileWord,
        .rightParen, .terminator, .name, .terminator, .rightBrace, .whileWord, .leftParen,
        .rightParen, .terminator] :=
  ⟨(placing_inPlace true (by decide)).2.2, by decide⟩

end Token

end InlineTemplates
