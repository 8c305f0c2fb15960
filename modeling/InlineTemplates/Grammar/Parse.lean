import InlineTemplates.Token

/-!
# Parsing tokens

A rule of the grammar consumes tokens from the front, or fails at the first token that does not go
on with what the rule allows.
-/

namespace InlineTemplates

/-- A rule: what it reads from the tokens in front of it, or the token at which it fails, which is
`none` at the end of the input. -/
abbrev Parse := StateT (List Token) (Except (Option Token))

namespace Parse

/-- Fails at the next token. -/
def fail {α : Type} : Parse α := fun ts => .error ts.head?

/-- The next token. At the end of the input there is none to go on with. -/
def peek : Parse Token := fun ts =>
  match ts with
  | [] => .error none
  | t :: _ => .ok (t, ts)

/-- The kind of the next token. -/
def peekKind? : Parse (Option Token.Kind) := fun ts => .ok (ts.head?.map Token.kind, ts)

/-- The kind of the token behind the next one. -/
def peekSecond? : Parse (Option Token.Kind) := fun ts =>
  .ok ((ts.drop 1).head?.map Token.kind, ts)

/-- Where the next token starts. -/
def here : Parse Location := do return (← peek).start

/-- The next token, which is consumed. -/
def next : Parse Token := fun ts =>
  match ts with
  | [] => .error none
  | t :: rest => .ok (t, rest)

/-- Consumes a token of kind `k`. -/
def expect (k : Token.Kind) : Parse Token := fun ts =>
  match ts with
  | [] => .error none
  | t :: rest => if t.kind = k then .ok (t, rest) else .error (some t)

/-- Consumes the next token if it is of kind `k`. -/
def accept? (k : Token.Kind) : Parse (Option Token) := fun ts =>
  match ts with
  | [] => .ok (none, ts)
  | t :: rest => if t.kind = k then .ok (some t, rest) else .ok (none, ts)

/-- Whether the next token is of kind `k`. -/
def atKind (k : Token.Kind) : Parse Bool := do return (← peekKind?) = some k

/-- Runs `step` until it gives nothing, at most once for each token of `clock`. -/
def iterate {α : Type} (step : α → Parse (Option α)) (clock : List Token) (a : α) : Parse α :=
  match clock with
  | [] => pure a
  | _ :: clock => do
    match ← step a with
    | none => pure a
    | some a' => iterate step clock a'

/-- Runs `step` until it gives nothing. Each step consumes a token, so there are no more steps
than tokens. -/
def loop {α : Type} (step : α → Parse (Option α)) (a : α) : Parse α := do
  iterate step (← get) a

/-- What `item` reads, over and over, up to a token of kind `close`, which stays. -/
def listUpTo {α : Type} (close : Token.Kind) (item : Parse α) : Parse (List α) := do
  let items ← loop (fun (items : List α) => do
    if ← atKind close then return none
    else return some ((← item) :: items)) []
  return items.reverse

/-- What `item` reads, once and then behind every comma. -/
def commaSeparated {α : Type} (item : Parse α) : Parse (List α) := do
  let first ← item
  let items ← loop (fun (items : List α) => do
    match ← accept? .comma with
    | none => return none
    | some _ => return some ((← item) :: items)) [first]
  return items.reverse

/-- What `item` reads, any number of times with commas between, up to a token of kind `close`,
which is consumed. A comma may also stand behind the last item. -/
def commaList {α : Type} (close : Token.Kind) (item : Parse α) : Parse (List α) := do
  if ← atKind close then
    let _ ← next
    return []
  let first ← item
  let items ← loop (fun (items : List α) => do
    match ← accept? .comma with
    | none => return none
    | some _ => if ← atKind close then return none else return some ((← item) :: items)) [first]
  let _ ← expect close
  return items.reverse

end Parse

end InlineTemplates
