import InlineTemplates.Node

/-!
# Comments on a tree

The grammar does not see comments. Each is put in front of the first node that starts where the
comment ends or later, or behind the last line of the innermost container of lines around it if
that ends first. Only nodes that are printed with their comments count.
-/

namespace InlineTemplates

namespace Comment

/-- What a comment can do at a node. -/
structure Place where
  /-- Where the node starts, if comments can stand in front of it. -/
  anchor : Option Location
  /-- From where to where the node is a container of lines. -/
  container : Option (Location × Option Location)
deriving Inhabited

/-- The extent of a container of lines. A program holds all of its source. -/
def container? (n : Node) : Option (Location × Option Location) :=
  match n.form with
  | .program _ => some (⟨0, 0⟩, none)
  | .block stop _ | .classBody stop _ => n.loc.map fun start => (start, stop)
  | _ => none

mutual

/-- The places of a tree, the node's own first, and those below it in source order. -/
def places (isAnchor : Bool) : Node → List Place
  | .mk head form slots =>
    ⟨if isAnchor then head.loc else none, container? (.mk head form [])⟩ ::
      placesOfSlots form.slots slots

def placesOfSlots : List Slot → List (List Node) → List Place
  | s :: specs, ns :: slots => placesOfList s.anchoring ns ++ placesOfSlots specs slots
  | _, _ => []

def placesOfList (anchoring : Anchoring) : List Node → List Place
  | [] => []
  | n :: rest =>
    match anchoring with
    | .none => []
    | .expressions => places n.isExpression n ++ placesOfList .expressions rest
    | .all => places true n ++ placesOfList .all rest

end

/-- A place among others, by its number. -/
abbrev Numbered := Nat × Place

/-- The first anchor at `l` or behind it, with its number. -/
def anchorFrom? (l : Location) (places : List Numbered) : Option (Nat × Location) :=
  places.foldl (fun best (i, p) =>
    match p.anchor, best with
    | some a, none => if l.le a then some (i, a) else none
    | some a, some (_, b) => if l.le a && !(b.le a) then some (i, a) else best
    | none, _ => best) none

/-- The innermost container around `c`, with its number and its end. -/
def containerOf? (c : Comment) (places : List Numbered) : Option (Nat × Option Location) :=
  (places.foldl (fun best (i, p) =>
    match p.container with
    | none => best
    | some (start, stop) =>
      if start.le c.start && stop.all c.stop.le && best.all (fun b => b.1.le start) then
        some (start, i, stop)
      else best) (none : Option (Location × Nat × Option Location))).map (·.2)

/-- Where a comment goes: in front of the node with a number, or behind the last line of it. -/
inductive Target where
  | front (number : Nat)
  | trailing (number : Nat)
deriving DecidableEq, Inhabited

/-- The target of a comment. Without an anchor and a container it goes in front of the root. -/
def target (places : List Numbered) (c : Comment) : Target :=
  match anchorFrom? c.stop places, containerOf? c places with
  | some (i, _), none => .front i
  | some (i, a), some (j, stop) => if stop.any (·.le a) then .trailing j else .front i
  | none, some (j, _) => .trailing j
  | none, none => .front 0

/-- The comments that a node gets. -/
structure Addition where
  front : List Text
  trailing : List Text
deriving Inhabited

/-- The node with its comments put behind those that it has. -/
def Addition.apply (a : Addition) (n : Node) : Node :=
  .mk { n.head with comments := n.comments ++ a.front } (n.form.mapTrailing (· ++ a.trailing))
    n.slots

mutual

/-- The tree with the additions made; there is one for each place, in order. -/
def addAll : Node → StateM (List Addition) Node
  | .mk head form slots => do
    let own := (← get).headD ⟨[], []⟩
    modify List.tail
    let slots ← addAllToSlots form.slots slots
    return own.apply (.mk head form slots)

def addAllToSlots : List Slot → List (List Node) → StateM (List Addition) (List (List Node))
  | s :: specs, ns :: slots => do
    let ns ← match s.anchoring with
      | .none => pure ns
      | .expressions | .all => addAllToList ns
    return ns :: (← addAllToSlots specs slots)
  | _, slots => return slots

def addAllToList : List Node → StateM (List Addition) (List Node)
  | [] => return []
  | n :: rest => do
    let n ← addAll n
    return n :: (← addAllToList rest)

end

/-- The tree with the comments of its source. -/
def attach (root : Node) (comments : List Comment) : Node :=
  if comments.isEmpty then root
  else
    let places := (places root.isExpression root).zipIdx.map fun (p, i) => (i, p)
    let targets := comments.map fun c => (target places c, c.text)
    let textsAt (t : Target) := (targets.filter fun x => x.1 = t).map (·.2)
    let additions := places.map fun (i, _) => ⟨textsAt (.front i), textsAt (.trailing i)⟩
    ((addAll root).run additions).1

end Comment

end InlineTemplates
