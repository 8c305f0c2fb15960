import InlineTemplates.Token

/-!
# The parts of a template

The inside of a template is a chunk of text, and then any number of times a hole `${…}` and a chunk.
A hole holds code, in which strings and templates can hold braces that do not close it.
-/

namespace InlineTemplates

namespace Template

/-- What stands open inside a hole. -/
inductive Nest where
  | string (quote : CodePoint)
  | template
  | code
deriving DecidableEq

/-- The source of a hole and where it starts. -/
structure Hole where
  source : Text
  start : Location
deriving DecidableEq, Inhabited

/-- The rest of a template seen from inside a chunk or a hole: the rest of that part, the chunks
behind it and the holes behind it. -/
structure Rest where
  current : Text
  chunks : List Text
  holes : List Hole
deriving Inhabited

namespace Rest

def cons (c : CodePoint) (r : Rest) : Rest := { r with current := c :: r.current }

/-- The rest seen from a chunk that ends in front of a hole. -/
def intoHole (start : Location) (r : Rest) : Rest := ⟨[], r.chunks, ⟨r.current, start⟩ :: r.holes⟩

/-- The rest seen from a hole that ends in front of a chunk. -/
def intoChunk (r : Rest) : Rest := ⟨[], r.current :: r.chunks, r.holes⟩

end Rest

/-- What stands open behind `c` in a hole, with what stood open in front of it, and whether the code
point behind `c` is taken as it is. `none` means that `c` closes the hole. -/
def nestAfter (c : CodePoint) : List Nest → Option (List Nest × Bool)
  | .string quote :: below =>
    if c = '\\' then some (.string quote :: below, true)
    else if c = quote then some (below, false)
    else some (.string quote :: below, false)
  | .template :: below =>
    if c = '\\' then some (.template :: below, true)
    else if c = '\x60' then some (below, false)
    else some (.template :: below, false)
  | nest =>
    if c = '"' ∨ c = '\'' then some (.string c :: nest, false)
    else if c = '\x60' then some (.template :: nest, false)
    else if c = '\x7b' then some (.code :: nest, false)
    else if c = '\x7d' then
      match nest with
      | [] => none
      | _ :: below => some (below, false)
    else some (nest, false)

/-- The parts of the text behind `loc`. `nest` is given inside a hole; `escaped` says that the first
code point is taken as it is. A hole that does not close has no parts. -/
def restFrom (nest : Option (List Nest)) (escaped : Bool) (loc : Location) : Text → Option Rest
  | [] => if nest.isNone then some ⟨[], [], []⟩ else none
  | [c] =>
    match nest with
    | none => some ⟨[c], [], []⟩
    | some [] => if c = '\x7d' ∧ !escaped then some ⟨[], [[]], []⟩ else none
    | some _ => none
  | c :: d :: rest =>
    let loc' := loc.step c
    if escaped then (restFrom nest false loc' (d :: rest)).map (Rest.cons c)
    else
      match nest with
      | none =>
        if c = '$' ∧ d = '\x7b' then
          (restFrom (some []) false (loc'.step d) rest).map (Rest.intoHole (loc'.step d))
        else (restFrom none (c = '\\') loc' (d :: rest)).map (Rest.cons c)
      | some (.template :: below) =>
        if c = '$' ∧ d = '\x7b' then
          (restFrom (some (.code :: .template :: below)) false (loc'.step d) rest).map
            fun r => (r.cons d).cons c
        else
          match nestAfter c (.template :: below) with
          | some (nest', escaped') =>
            (restFrom (some nest') escaped' loc' (d :: rest)).map (Rest.cons c)
          | none => none
      | some nest =>
        match nestAfter c nest with
        | some (nest', escaped') =>
          (restFrom (some nest') escaped' loc' (d :: rest)).map (Rest.cons c)
        | none => (restFrom none false loc' (d :: rest)).map Rest.intoChunk

/-- The chunks and the holes of the inside of a template that starts at `loc`. There is one chunk
more than there are holes. -/
def parts? (loc : Location) (inside : Text) : Option (List Text × List Hole) :=
  (restFrom none false loc inside).map fun r => (r.current :: r.chunks, r.holes)

end Template

end InlineTemplates
