import InlineTemplates.Proofs.PlacedWords

/-!
# Tokens as they are met

What happens at one token when tokens get their roles: whether it ends the statement in front of
it, which role it has, whether a statement ends behind it, and what is known then. Placing is one
such visit after the other.
-/

namespace InlineTemplates

namespace Token

open Place (significant terminatorOf placeFrom)

/-- A token that is no line break, where it is met. -/
structure Visit where
  /-- What is known behind the tokens in front. -/
  before : Place
  /-- Whether a line break stands in front of the token. -/
  newline : Bool
  token : Token
  rest : List Token

namespace Visit

variable (v : Visit)

/-- Whether the statement in front of the token ends at it. -/
def endsBefore : Bool := v.before.endsBefore v.token.kind v.newline

/-- The place in which the token gets its role. -/
def place : Place := if v.endsBefore then v.before.afterTerminator else v.before

def role : Kind := v.place.role v.token v.rest

def placed : Token := { v.token with kind := v.role }

/-- The place that the token leaves: one out of the loop if it is the `while` of a do-loop. -/
def left : Place := if v.before.closesLoop v.token.kind then v.place.leaveLoop else v.place

/-- Whether the token closes the condition of a do-loop without a semicolon behind it. -/
def endsBehind : Bool :=
  v.left.closedBy v.role = some .loopTail ∧
    (significant v.rest).head?.all fun next => next.kind ≠ .semicolon

def after : Place :=
  if v.token.kind = .semicolon then v.before.afterTerminator
  else if v.endsBehind then (v.left.after v.role).afterTerminator
  else v.left.after v.role

/-- What the token becomes, with the terminators around it. -/
def output : List Token :=
  if v.token.kind = .semicolon then [terminatorOf v.token]
  else (if v.endsBefore then [terminatorOf v.token] else []) ++
    v.placed :: if v.endsBehind then [terminatorOf v.token] else []

end Visit

namespace Place

variable {p : Place} {t : Token} {rest : List Token} {module newline : Bool} {last : Option Token}

theorem significant_cons (h : t.kind ≠ .newline) : significant (t :: rest) = t :: rest := by
  simp [significant, h]

theorem role_of_reserved (h : t.kind.isReserved) :
    p.role t rest = p.reservedRole t.kind ((significant rest).head?.map Token.kind) := by
  have hne : t.kind ≠ .leftBrace ∧ t.kind ≠ .leftParen := by
    revert h
    cases t.kind <;> decide
  simp [Place.role, hne, h]

theorem role_of_name (h : t.kind = .name) : p.role t rest = p.nameRole t rest := by
  have hreserved : Kind.isReserved .name = false := rfl
  simp [Place.role, h, hreserved]

def visits (p : Place) (newline : Bool) : List Token → List Visit
  | [] => []
  | t :: rest =>
    if t.kind = .newline then p.visits true rest
    else
      let v : Visit := ⟨p, newline, t, rest⟩
      v :: v.after.visits false rest

theorem visits_newline (h : t.kind = .newline) :
    p.visits newline (t :: rest) = p.visits true rest := by
  rw [visits, if_pos h]

theorem visits_cons (h : t.kind ≠ .newline) :
    p.visits newline (t :: rest) =
      ⟨p, newline, t, rest⟩ :: (Visit.after ⟨p, newline, t, rest⟩).visits false rest := by
  rw [visits, if_neg h]

theorem placeFrom_newline (h : t.kind = .newline) :
    placeFrom module p newline last (t :: rest) = placeFrom module p true last rest := by
  rw [placeFrom, if_pos h]

theorem placeFrom_semicolon (h : t.kind = .semicolon) :
    placeFrom module p newline last (t :: rest) =
      terminatorOf t :: placeFrom module p.afterTerminator false last rest := by
  have hline : t.kind ≠ .newline := by rw [h]; decide
  rw [placeFrom, if_neg hline, if_pos h]

theorem placeFrom_visit (hline : t.kind ≠ .newline) (hsemicolon : t.kind ≠ .semicolon) :
    let v : Visit := ⟨p, newline, t, rest⟩
    placeFrom module p newline last (t :: rest) =
      v.output ++ placeFrom module v.after false (some v.placed) rest := by
  intro v
  have hbehind : (v.left.closedBy v.role = some .loopTail ∧
      (significant rest).head?.all (fun next => next.kind ≠ .semicolon) = true) ↔
      v.endsBehind = true := by
    simp [Visit.endsBehind, v]
  rw [placeFrom, if_neg hline, if_neg hsemicolon]
  -- what the definition computes at the token is what the visit names
  change (if v.left.closedBy v.role = some .loopTail ∧ _ then
      (if v.endsBefore then [terminatorOf t, v.placed] else [v.placed]) ++ terminatorOf t ::
        placeFrom module (v.left.after v.role).afterTerminator false (some v.placed) rest
    else
      (if v.endsBefore then [terminatorOf t, v.placed] else [v.placed]) ++
        placeFrom module (v.left.after v.role) false (some v.placed) rest) = _
  have hkind : v.token.kind ≠ .semicolon := hsemicolon
  simp only [hbehind, Visit.output, Visit.after, if_neg hkind]
  cases v.endsBefore <;> cases v.endsBehind <;> rfl

end Place

end Token

end InlineTemplates
