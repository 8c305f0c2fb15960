import InlineTemplates.Failure
import InlineTemplates.Node

/-!
# Addresses in a tree

An address leads from a node to one below it, position by position. The node there can be looked up,
replaced and removed. Comments are kept: those of a replaced node stay in front of the new one, and
those of a removed one go to its next sibling, or behind the last line of the container around it.
-/

namespace InlineTemplates

/-- The way from a node to one below it. -/
abbrev Address := List Node.Position

namespace Node

/-- The nodes in a slot. -/
def slot (n : Node) (name : String) : List Node :=
  (((n.form.slots.zip n.slots).find? fun s => s.1.name = name).map (·.2)).getD []

/-- The node with what is in a slot changed by `f`. -/
def modifySlot (n : Node) (name : String) (f : List Node → List Node) : Node :=
  mk n.head n.form
    (List.zipWith (fun s nodes => if s.name = name then f nodes else nodes) n.form.slots n.slots)

/-- The child at a position. -/
def child? (n : Node) (p : Position) : Option Node := (n.slot p.slot)[p.index.getD 0]?

/-- The node with the child at a position changed by `f`. -/
def modifyChild (n : Node) (p : Position) (f : Node → Node) : Node :=
  n.modifySlot p.slot fun nodes => nodes.modify (p.index.getD 0) f

/-- The node at an address. -/
def find? (n : Node) : Address → Option Node
  | [] => some n
  | p :: rest => (n.child? p).bind (·.find? rest)

/-- The tree with the node at an address changed by `f`. -/
def modifyAt (n : Node) (f : Node → Node) : Address → Node
  | [] => f n
  | p :: rest => n.modifyChild p fun c => c.modifyAt f rest

/-! ## Removing -/

/-- A list without its item `i`, and the comments of that item unless the next one takes them. -/
def dropItem (nodes : List Node) (i : Nat) : List Node × List Text :=
  match nodes.drop i with
  | [] => (nodes, [])
  | [removed] => (nodes.take i, removed.comments)
  | removed :: next :: rest => (nodes.take i ++ next.prependComments removed.comments :: rest, [])

/-- The node without the child at a position. -/
def removeChild (n : Node) (p : Position) : Node :=
  match p.index with
  | none => n.modifySlot p.slot fun _ => []
  | some i =>
    (n.modifySlot p.slot fun nodes => (dropItem nodes i).1).prependTrailing
      (dropItem (n.slot p.slot) i).2

/-- The tree without the node at an address. -/
def remove (n : Node) (a : Address) : Except Error Node :=
  match a.reverse with
  | [] => .error .rootRemoved
  | p :: parent => .ok (n.modifyAt (·.removeChild p) parent.reverse)

/-- The tree with another node at an address. -/
def replace (n : Node) (a : Address) (new : Node) : Except Error Node :=
  match a with
  | [] => .error .rootReplaced
  | a => .ok (n.modifyAt (fun old => new.prependComments old.comments) a)

/-- The node without what it says under a name, if that is no node and it can do without. -/
def forget? (n : Node) (field : String) : Option Node :=
  if field = "loc" then some (n.withLoc none)
  else (n.form.without? field).map fun form => mk n.head form n.slots

/-! ## Reporting -/

/-- A failure that a caller sees at a node of the given source. -/
def noted (n : Node) (phase : Phase) (message : Text) (origin : SourceUnit) : Error :=
  .report ⟨.noted phase message, n.loc, origin⟩

end Node

end InlineTemplates
