import InlineTemplates.Failure
import InlineTemplates.Node

/-!
# Walking a program

A visitor enters each node in front of those below it and asks for edits: statements in front of the
program, another node in the place of the one entered, or none. The walk goes on below whatever
stands there then. Statements that come in on the way are not entered.

The statements of the program are kept apart, since any visit can change their list. A statement is
entered with the index that it has then, and a replacement goes to that index even if statements
came in front of it meanwhile. All other nodes are rebuilt on the way back.
-/

namespace InlineTemplates

/-- A change that a visitor asks for. -/
inductive Edit where
  /-- Puts a statement in front of the program. -/
  | insertFront (statement : Node)
  /-- Removes a statement of the program, if there are that many. -/
  | drop (index : Nat)
  /-- Puts another node in the place of the one entered. Comments in front of it stay. -/
  | replace (new : Node)
  /-- Removes the node entered. Comments in front of it go to the next node of its list, or behind
  the last line of the container around it. -/
  | remove
deriving Inhabited

namespace Traversal

/-! ## The statements of the program -/

/-- A statement, and whether it will still be entered. -/
structure Item where
  node : Node
  isPending : Bool
deriving Inhabited

/-- The statements, the comments behind them, and the index of the statement that is being walked,
if it is still there. -/
structure Body where
  items : List Item
  trailing : List Text
  here : Option Nat
deriving Inhabited

namespace Body

def statements (b : Body) : List Node := b.items.map Item.node

def insertFront (b : Body) (statement : Node) : Body :=
  { b with items := ⟨statement, false⟩ :: b.items, here := b.here.map (· + 1) }

/-- The index of a statement after the one at `index` is removed. -/
def shifted (index : Nat) (h : Nat) : Option Nat :=
  if h = index then none else if index < h then some (h - 1) else some h

def drop (b : Body) (index : Nat) : Body :=
  match b.items.drop index with
  | [] => b
  | removed :: rest =>
    let comments := removed.node.comments
    let before := b.items.take index
    let here := b.here.bind (shifted index)
    match rest with
    | [] => ⟨before, comments ++ b.trailing, here⟩
    | next :: rest =>
      ⟨before ++ { next with node := next.node.prependComments comments } :: rest, b.trailing, here⟩

/-- The statement that is being walked. -/
def current? (b : Body) : Option Node := (b.here.bind (b.items[·]?)).map Item.node

/-- Puts a statement at an index, and goes on there. -/
def replaceAt? (b : Body) (index : Nat) (new : Node) : Option Body :=
  if index < b.items.length then
    some { b with items := b.items.set index ⟨new, false⟩, here := some index }
  else none

/-- Removes the statement that is being walked. -/
def removeHere (b : Body) : Body := (b.here.map b.drop).getD b

/-- Starts to walk the statement at `index`. -/
def enter (b : Body) (index : Nat) : Body :=
  { b with
    items := b.items.modify index fun item => { item with isPending := false }
    here := some index }

/-- Puts the parts of a walked statement back. The comments in front of it are those that it has
got meanwhile. -/
def putBack (b : Body) (walked : Node) : Body :=
  match b.here with
  | none => b
  | some h =>
    { b with
      items := b.items.modify h fun item =>
        { item with node := walked.withComments item.node.comments } }

/-- The first statement that will still be entered. -/
def nextPending? (b : Body) : Option Nat := b.items.findIdx? Item.isPending

end Body

/-! ## Visits -/

/-- What a visitor sees: a node, where it stands in its parent, and the program. The root stands
nowhere. -/
structure Visit where
  node : Node
  position : Option Node.Position
  body : Body
deriving Inhabited

/-- A visitor with a memory. The memory stays when the visitor fails. -/
abbrev Visitor (σ : Type) := Visit → ExceptT Error (StateM σ) (List Edit)

/-- The state of a walk. -/
structure Walk (σ : Type) where
  body : Body
  memory : σ

abbrev WalkM (σ : Type) := ExceptT Error (StateM (Walk σ))

variable {σ : Type}

/-- The edits that the visitor asks for at a node. -/
def ask (visitor : Visitor σ) (node : Node) (position : Option Node.Position) :
    WalkM σ (List Edit) :=
  ExceptT.mk fun s =>
    let (edits, memory) := (visitor ⟨node, position, s.body⟩).run.run s.memory
    (edits, { s with memory })

def modifyBody (f : Body → Body) : WalkM σ Unit := modify fun s => { s with body := f s.body }

/-- What stands where a node was entered. -/
structure Outcome where
  node : Node
  isNew : Bool
  isRemoved : Bool

/-- Makes an edit at a node below a statement. -/
def editInner (o : Outcome) : Edit → WalkM σ Outcome
  | .insertFront statement => do
    modifyBody (·.insertFront statement)
    return o
  | .drop index => do
    modifyBody (·.drop index)
    return o
  | .replace new => return { o with node := new.prependComments o.node.comments, isNew := true }
  | .remove => return { o with isRemoved := true }

/-- Makes an edit at the statement that was entered at `index`. -/
def editStatement (index : Nat) (o : Outcome) : Edit → WalkM σ Outcome
  | .replace new => do
    let body := (← get).body
    let new := new.prependComments ((body.current?.getD o.node).comments)
    match body.replaceAt? index new with
    | none => throw .malformed
    | some body =>
      modifyBody fun _ => body
      return { o with node := new, isNew := true }
  | .remove => do
    modifyBody Body.removeHere
    return { o with isRemoved := true }
  | edit => editInner o edit

/-- Makes an edit at the root. -/
def editRoot (o : Outcome) : Edit → WalkM σ Outcome
  | .replace _ => throw .rootReplaced
  | .remove => throw .rootRemoved
  | edit => editInner o edit

/-- Enters a node and makes the edits. -/
def visit (visitor : Visitor σ) (edit : Outcome → Edit → WalkM σ Outcome) (node : Node)
    (position : Option Node.Position) : WalkM σ Outcome := do
  (← ask visitor node position).foldlM edit ⟨node, false, false⟩

/-! ## Nodes below a statement -/

/-- What is left of a node: the node, or the comments of one that was removed. -/
inductive Left where
  | node (n : Node)
  | comments (cs : List Text)

variable (visitor : Visitor σ) (belowNew : Node → WalkM σ Node)

mutual

/-- Enters a node and those below it. `belowNew` walks below a replacement. -/
def walkNode (position : Node.Position) (carried : List Text) : Node → WalkM σ Left
  | .mk head form slots => do
    let head := { head with comments := carried ++ head.comments }
    let o ← visit visitor editInner (.mk head form slots) (some position)
    if o.isRemoved then return .comments o.node.comments
    else if o.isNew then return .node (← belowNew o.node)
    else
      let (slots, spilled) ← walkSlots form.slots slots
      return .node (.mk head (form.mapTrailing (spilled ++ ·)) slots)

/-- Enters the nodes of all slots. Besides the slots there are the comments that no node took. -/
def walkSlots : List Slot → List (List Node) → WalkM σ (List (List Node) × List Text)
  | s :: specs, nodes :: slots => do
    let (nodes, spilled) ← walkList s 0 [] nodes
    let (slots, spilled') ← walkSlots specs slots
    return (nodes :: slots, spilled ++ spilled')
  | _, slots => return (slots, [])

/-- Enters the nodes of one slot, of which the first is at `index` and takes the comments
`carried`. -/
def walkList (s : Slot) (index : Nat) (carried : List Text) :
    List Node → WalkM σ (List Node × List Text)
  | [] => return ([], carried)
  | n :: rest => do
    match ← walkNode ⟨s.name, if s.arity = .many then some index else none⟩ carried n with
    | .node n =>
      let (nodes, spilled) ← walkList s (index + 1) [] rest
      return (n :: nodes, spilled)
    | .comments cs => walkList s index (if s.arity = .many then cs else []) rest

end

/-- Enters all nodes below one. -/
def walkBelow (n : Node) : WalkM σ Node := do
  let (slots, spilled) ← walkSlots visitor belowNew n.form.slots n.slots
  return .mk n.head (n.form.mapTrailing (spilled ++ ·)) slots

/-- Enters all nodes below a replacement, with at most `depth` replacements inside one another. -/
def walkBelowNew : Nat → Node → WalkM σ Node
  | 0, _ => throw .tooDeep
  | depth + 1, n => walkBelow visitor (walkBelowNew depth) n

/-! ## The program -/

/-- How many replacements may stand inside one another. -/
def limit : Nat := 1000

/-- Enters the statement at `index` and the nodes below it. -/
def walkStatement (index : Nat) : WalkM σ Unit := do
  modifyBody (·.enter index)
  match (← get).body.current? with
  | none => return ()
  | some n =>
    let o ← visit visitor (editStatement index) n (some ⟨"body", some index⟩)
    if o.isRemoved then return ()
    else
      let walked ← walkBelow visitor (walkBelowNew visitor limit) o.node
      modifyBody (·.putBack walked)

/-- Enters the statements that are pending, at most `count` of them. -/
def walkPending : Nat → WalkM σ Unit
  | 0 => return ()
  | count + 1 => do
    match (← get).body.nextPending? with
    | none => return ()
    | some index =>
      walkStatement visitor index
      walkPending count

/-- Enters the root, and then the statements in order. -/
def walkProgram (root : Node) : WalkM σ Unit := do
  let _ ← visit visitor editRoot root none
  modifyBody fun b => { b with items := b.items.map fun item => { item with isPending := true } }
  walkPending visitor (← get).body.items.length

/-- Walks a program. What the visitor remembers stays even if the walk fails. -/
def run (memory : σ) (root : Node) : Except Error Node × σ :=
  match root with
  | .program head trailing statements =>
    let body : Body := ⟨statements.map (⟨·, false⟩), trailing, none⟩
    let (result, walk) := (walkProgram visitor root).run.run ⟨body, memory⟩
    (result.map fun _ => .program head walk.body.trailing walk.body.statements, walk.memory)
  | _ => (.error .malformed, memory)

end Traversal

end InlineTemplates
