import InlineTemplates.Node.Comments
import InlineTemplates.Proofs.Positions

/-!
# The places of a tree

A name, a string and a template say by their form what stands in the source. Some slots span a part
of a source when each such node below them is found where it says that it starts, and the places of
all nodes go forward through that part.

Spans are put together from front to back. They move with a fragment into the source around it, and
comments do not count.
-/

namespace InlineTemplates

/-! ## Places in order -/

/-- The places go forward from `lo` to `hi`. -/
structure Location.InOrder (lo hi : Location) (ls : List Location) : Prop where
  bounds : lo.le hi
  above : ∀ l ∈ ls, lo.le l
  below : ∀ l ∈ ls, l.le hi
  sorted : ls.Pairwise fun a b => a.le b

namespace Location.InOrder

variable {lo lo' mid hi hi' : Location} {as bs : List Location}

theorem nil (h : lo.le hi) : InOrder lo hi [] := ⟨h, by simp, by simp, .nil⟩

theorem append (ha : InOrder lo mid as) (hb : InOrder mid hi bs) : InOrder lo hi (as ++ bs) := by
  refine ⟨le_trans ha.bounds hb.bounds, ?_, ?_, ?_⟩
  · intro l hl
    rcases List.mem_append.1 hl with hl | hl
    · exact ha.above l hl
    · exact le_trans ha.bounds (hb.above l hl)
  · intro l hl
    rcases List.mem_append.1 hl with hl | hl
    · exact le_trans (ha.below l hl) hb.bounds
    · exact hb.below l hl
  · refine List.pairwise_append.2 ⟨ha.sorted, hb.sorted, ?_⟩
    intro a ha' b hb'
    exact le_trans (ha.below a ha') (hb.above b hb')

theorem widen (hlo : lo'.le lo) (hhi : hi.le hi') (h : InOrder lo hi as) : InOrder lo' hi' as := by
  refine ⟨le_trans hlo (le_trans h.bounds hhi), ?_, ?_, h.sorted⟩
  · intro l hl
    exact le_trans hlo (h.above l hl)
  · intro l hl
    exact le_trans (h.below l hl) hhi

theorem cons (h : InOrder lo hi as) : InOrder lo hi (lo :: as) := by
  refine ⟨h.bounds, ?_, ?_, List.pairwise_cons.2 ⟨h.above, h.sorted⟩⟩
  · simpa using h.above
  · simpa using ⟨h.bounds, h.below⟩

theorem map_within {origin : Location} {t : Text}
    (h : InOrder .start (Location.start.advance t) as) :
    InOrder origin (origin.advance t) (as.map origin.within) := by
  refine ⟨le_advance _ _, ?_, ?_, ?_⟩
  · intro l hl
    obtain ⟨a, ha, rfl⟩ := List.mem_map.1 hl
    have hstart := within_mono origin (le_refl _) (h.above a ha)
    simpa [within, start] using hstart
  · intro l hl
    obtain ⟨a, ha, rfl⟩ := List.mem_map.1 hl
    rw [← within_advance origin t]
    exact within_mono origin (h.above a ha) (h.below a ha)
  · refine List.pairwise_map.2 (h.sorted.imp_of_mem ?_)
    intro a b ha _ hab
    exact within_mono origin (h.above a ha) hab

end Location.InOrder

namespace Node

/-! ## What a node says about the source -/

def raw? (n : Node) : Option Text :=
  match n.form with
  | .quasi raw _ => some raw
  | _ => none

/-- The text of a name, a string or a template starts where the node does: the whole identifier, the
quotes with the body between them that has the value, or the backticks with the chunks and as many
holes as there are expressions. -/
def StandsIn (source : Text) : Node → Prop
  | mk head (.name ident) _ => ∃ l, head.loc = some l ∧ source.HoldsName l ident
  | mk head (.literal (.str value)) _ => ∃ l, ∃ quote : CodePoint, ∃ body : Text,
      head.loc = some l ∧ (quote = '"' ∨ quote = '\'') ∧ body.unescaped = .ok value ∧
        source.Holds l (quote :: body ++ [quote])
  | mk head .template slots => ∃ l quasis expressions raws holes,
      head.loc = some l ∧ slots = [quasis, expressions] ∧ quasis.map raw? = raws.map some ∧
        raws.length = holes.length + 1 ∧ holes.length = expressions.length ∧
        source.Holds l
          (CodePoint.scalar '\x60' :: Text.weave raws holes ++ [CodePoint.scalar '\x60'])
  | _ => True

/-- What is in the slots stands in the source, in order from `lo` to `hi`. -/
structure Spans (source : Text) (lo hi : Location) (slots : List (List Node)) : Prop where
  standing : ∀ n ∈ nodesOfSlots slots, n.StandsIn source
  inOrder : Location.InOrder lo hi ((nodesOfSlots slots).filterMap Node.loc)

theorem nodesOfSlots_append (as bs : List (List Node)) :
    nodesOfSlots (as ++ bs) = nodesOfSlots as ++ nodesOfSlots bs := by
  induction as with
  | nil => rfl
  | cons a as ih => simp [nodesOfSlots, ih]

theorem nodesOfList_append (ns ms : List Node) :
    nodesOfList (ns ++ ms) = nodesOfList ns ++ nodesOfList ms := by
  induction ns with
  | nil => rfl
  | cons n ns ih => simp [nodesOfList, ih]

namespace Spans

variable {source : Text} {lo lo' mid hi hi' l : Location} {form : Form}
  {as bs slots : List (List Node)} {ns ms : List Node} {n : Node}

theorem nil (h : lo.le hi) : Spans source lo hi [] := ⟨by simp [nodesOfSlots], .nil h⟩

theorem append (ha : Spans source lo mid as) (hb : Spans source mid hi bs) :
    Spans source lo hi (as ++ bs) := by
  refine ⟨?_, ?_⟩
  · intro n hn
    rw [nodesOfSlots_append] at hn
    exact (List.mem_append.1 hn).elim (ha.standing n) (hb.standing n)
  · rw [nodesOfSlots_append, List.filterMap_append]
    exact ha.inOrder.append hb.inOrder

theorem widen (hlo : lo'.le lo) (hhi : hi.le hi') (h : Spans source lo hi slots) :
    Spans source lo' hi' slots :=
  ⟨h.standing, h.inOrder.widen hlo hhi⟩

theorem earlier (hlo : lo'.le lo) (h : Spans source lo hi slots) : Spans source lo' hi slots :=
  h.widen hlo (Location.le_refl hi)

theorem later (hhi : hi.le hi') (h : Spans source lo hi slots) : Spans source lo hi' slots :=
  h.widen (Location.le_refl lo) hhi

theorem of_nodes_eq (hn : nodesOfSlots as = nodesOfSlots bs) (h : Spans source lo hi as) :
    Spans source lo hi bs := by
  refine ⟨?_, ?_⟩ <;> rw [← hn]
  · exact h.standing
  · exact h.inOrder

theorem empty (h : lo.le hi) : Spans source lo hi [[]] := by
  refine of_nodes_eq ?_ (nil h)
  rfl

theorem join (h : Spans source lo hi [ns, ms]) : Spans source lo hi [ns ++ ms] := by
  refine h.of_nodes_eq ?_
  simp [nodesOfSlots, nodesOfList_append]

theorem cons (hn : Spans source lo mid [[n]]) (hns : Spans source mid hi [ns]) :
    Spans source lo hi [n :: ns] :=
  (hn.append hns).join

theorem node (h : Spans source l hi slots)
    (hs : (Node.mk (Head.ofLoc l) form slots).StandsIn source) :
    Spans source l hi [[Node.mk (Head.ofLoc l) form slots]] := by
  refine ⟨?_, ?_⟩
  · simpa [nodesOfSlots, nodesOfList, nodes] using ⟨hs, h.standing⟩
  · simpa [nodesOfSlots, nodesOfList, nodes, Node.loc, Node.head, Head.ofLoc] using h.inOrder.cons

theorem node_of_loc_none {head : Head} (hl : head.loc = none) (h : Spans source lo hi slots)
    (hs : (Node.mk head form slots).StandsIn source) :
    Spans source lo hi [[Node.mk head form slots]] := by
  refine ⟨?_, ?_⟩
  · simpa [nodesOfSlots, nodesOfList, nodes] using ⟨hs, h.standing⟩
  · simpa [nodesOfSlots, nodesOfList, nodes, Node.loc, Node.head, hl] using h.inOrder

theorem twice {head : Head} {ident : Text} (h : Spans source lo hi [[.name head ident]]) :
    Spans source lo hi [[.name head ident], [.name head ident]] := by
  have hs : (Node.name head ident).StandsIn source :=
    h.standing _ (by simp [nodesOfSlots, nodesOfList, nodes])
  obtain ⟨l, hl, -⟩ := id hs
  have hlocs : (nodesOfSlots [[Node.name head ident]]).filterMap Node.loc = [l] := by
    simp [nodesOfSlots, nodesOfList, nodes, Node.loc, Node.head, hl]
  have horder := h.inOrder
  rw [hlocs] at horder
  -- all of it is at one place, so both copies are
  have hone : Spans source l l [[.name head ident]] := by
    refine ⟨h.standing, ?_⟩
    rw [hlocs]
    exact (Location.InOrder.nil (Location.le_refl l)).cons
  exact (hone.widen (horder.above l List.mem_cons_self) (Location.le_refl _)).append
    (hone.later (horder.below l List.mem_cons_self))

end Spans

/-! ## Trees that are moved -/

section Moved

variable (f : Location → Location)

mutual

theorem nodes_mapLocations :
    ∀ n : Node, (n.mapLocations f).nodes = n.nodes.map (mapLocations f)
  | .mk head form slots => by
    rw [mapLocations, nodes, nodes, List.map_cons, nodesOfSlots_mapLocations slots, mapLocations]

theorem nodesOfSlots_mapLocations : ∀ slots : List (List Node),
    nodesOfSlots (mapLocationsOfSlots f slots) = (nodesOfSlots slots).map (mapLocations f)
  | [] => rfl
  | ns :: rest => by
    rw [mapLocationsOfSlots, nodesOfSlots, nodesOfSlots, nodesOfList_mapLocations ns,
      nodesOfSlots_mapLocations rest, List.map_append]

theorem nodesOfList_mapLocations : ∀ ns : List Node,
    nodesOfList (mapLocationsOfList f ns) = (nodesOfList ns).map (mapLocations f)
  | [] => rfl
  | n :: rest => by
    rw [mapLocationsOfList, nodesOfList, nodesOfList, nodes_mapLocations n,
      nodesOfList_mapLocations rest, List.map_append]

end

theorem loc_mapLocations (n : Node) : (n.mapLocations f).loc = n.loc.map f := by
  cases n with
  | mk head form slots => rfl

theorem mapLocationsOfList_eq (ns : List Node) :
    mapLocationsOfList f ns = ns.map (mapLocations f) := by
  induction ns with
  | nil => rfl
  | cons n ns ih => simp [mapLocationsOfList, ih]

theorem raw?_mapLocations (n : Node) : (n.mapLocations f).raw? = n.raw? := by
  obtain ⟨head, form, slots⟩ := n
  cases form <;> rfl

end Moved

section Fragment

variable {source fragment : Text} {origin : Location}

theorem StandsIn.within (hf : source.HoldsApart origin fragment) {n : Node}
    (h : n.StandsIn fragment) : (n.mapLocations origin.within).StandsIn source := by
  obtain ⟨head, form, slots⟩ := n
  cases form
  case name =>
    obtain ⟨l, hl, h⟩ := h
    exact ⟨origin.within l, by simp [hl], hf.holdsName h⟩
  case literal value =>
    cases value
    case str =>
      obtain ⟨l, quote, body, hl, hq, hv, h⟩ := h
      exact ⟨origin.within l, quote, body, by simp [hl], hq, hv, hf.holds.within h⟩
    all_goals trivial
  case template =>
    obtain ⟨l, quasis, expressions, raws, holes, hl, rfl, hraws, hlen, hholes, h⟩ := h
    refine ⟨origin.within l, quasis.map (mapLocations origin.within),
      expressions.map (mapLocations origin.within), raws, holes, by simp [hl], ?_, ?_, hlen,
      by simpa using hholes, hf.holds.within h⟩
    · simp [mapLocationsOfSlots, mapLocationsOfList_eq]
    · simpa [List.map_map, Function.comp_def, raw?_mapLocations] using hraws
  all_goals trivial

/-- A tree that spans a fragment spans it in the source around it. -/
theorem Spans.within (hf : source.HoldsApart origin fragment) {slots : List (List Node)}
    (h : Spans fragment .start (Location.start.advance fragment) slots) :
    Spans source origin (origin.advance fragment) (mapLocationsOfSlots origin.within slots) := by
  refine ⟨?_, ?_⟩ <;> rw [nodesOfSlots_mapLocations]
  · intro n hn
    obtain ⟨m, hm, rfl⟩ := List.mem_map.1 hn
    exact (h.standing m hm).within hf
  · have hlocs : ((nodesOfSlots slots).map (mapLocations origin.within)).filterMap Node.loc =
        ((nodesOfSlots slots).filterMap Node.loc).map origin.within := by
      rw [List.filterMap_map, List.map_filterMap]
      exact List.filterMap_congr fun n _ => loc_mapLocations _ n
    rw [hlocs]
    exact h.inOrder.map_within

end Fragment

/-! ## Comments -/

mutual

/-- The tree without its comments. -/
def bare : Node → Node
  | mk head form slots => mk ⟨head.loc, []⟩ (form.mapTrailing fun _ => []) (bareOfSlots slots)

def bareOfSlots : List (List Node) → List (List Node)
  | [] => []
  | slot :: rest => bareOfList slot :: bareOfSlots rest

def bareOfList : List Node → List Node
  | [] => []
  | n :: rest => bare n :: bareOfList rest

end

mutual

theorem nodes_bare : ∀ n : Node, n.bare.nodes = n.nodes.map bare
  | .mk head form slots => by
    rw [bare, nodes, nodes, List.map_cons, nodesOfSlots_bare slots, bare]

theorem nodesOfSlots_bare : ∀ slots : List (List Node),
    nodesOfSlots (bareOfSlots slots) = (nodesOfSlots slots).map bare
  | [] => rfl
  | ns :: rest => by
    rw [bareOfSlots, nodesOfSlots, nodesOfSlots, nodesOfList_bare ns, nodesOfSlots_bare rest,
      List.map_append]

theorem nodesOfList_bare : ∀ ns : List Node,
    nodesOfList (bareOfList ns) = (nodesOfList ns).map bare
  | [] => rfl
  | n :: rest => by
    rw [bareOfList, nodesOfList, nodesOfList, nodes_bare n, nodesOfList_bare rest, List.map_append]

end

theorem bareOfList_eq (ns : List Node) : bareOfList ns = ns.map bare := by
  induction ns with
  | nil => rfl
  | cons n ns ih => simp [bareOfList, ih]

theorem bareOfSlots_eq (slots : List (List Node)) : bareOfSlots slots = slots.map (·.map bare) := by
  induction slots with
  | nil => rfl
  | cons ns slots ih => simp [bareOfSlots, bareOfList_eq, ih]

theorem loc_bare (n : Node) : n.bare.loc = n.loc := by
  obtain ⟨head, form, slots⟩ := n
  rfl

theorem raw?_bare (n : Node) : n.bare.raw? = n.raw? := by
  obtain ⟨head, form, slots⟩ := n
  cases form <;> rfl

theorem standsIn_bare {source : Text} (n : Node) : n.bare.StandsIn source ↔ n.StandsIn source := by
  obtain ⟨head, form, slots⟩ := n
  cases form
  case literal value => cases value <;> exact Iff.rfl
  case template =>
    constructor
    · rintro ⟨l, quasis, expressions, raws, holes, hl, hslots, hraws, hlen, hholes, h⟩
      rw [bareOfSlots_eq] at hslots
      obtain ⟨quasis', rest, rfl, rfl, hrest⟩ := List.map_eq_cons_iff.1 hslots
      obtain ⟨expressions', none, rfl, rfl, hnone⟩ := List.map_eq_cons_iff.1 hrest
      obtain rfl := List.map_eq_nil_iff.1 hnone
      refine ⟨l, quasis', expressions', raws, holes, hl, rfl, ?_, hlen, by simpa using hholes, h⟩
      simpa [List.map_map, Function.comp_def, raw?_bare] using hraws
    · rintro ⟨l, quasis, expressions, raws, holes, hl, rfl, hraws, hlen, hholes, h⟩
      refine ⟨l, quasis.map bare, expressions.map bare, raws, holes, hl, ?_, ?_, hlen, ?_, h⟩
      · simp [bareOfSlots_eq]
      · simpa [List.map_map, Function.comp_def, raw?_bare] using hraws
      · simpa using hholes
  all_goals exact Iff.rfl

theorem spans_bareOfSlots {source : Text} {lo hi : Location} {slots : List (List Node)} :
    Spans source lo hi (bareOfSlots slots) ↔ Spans source lo hi slots := by
  have hlocs : ((nodesOfSlots slots).map bare).filterMap Node.loc =
      (nodesOfSlots slots).filterMap Node.loc := by
    rw [List.filterMap_map]
    exact List.filterMap_congr fun n _ => loc_bare n
  constructor
  · rintro ⟨hs, ho⟩
    rw [nodesOfSlots_bare] at hs ho
    rw [hlocs] at ho
    exact ⟨fun n hn => (standsIn_bare n).1 (hs _ (List.mem_map_of_mem hn)), ho⟩
  · rintro ⟨hs, ho⟩
    refine ⟨?_, ?_⟩ <;> rw [nodesOfSlots_bare]
    · intro n hn
      obtain ⟨m, hm, rfl⟩ := List.mem_map.1 hn
      exact (standsIn_bare m).2 (hs m hm)
    · rwa [hlocs]

end Node

namespace Comment

theorem mapTrailing_mapTrailing (f : List Text → List Text) (form : Form) :
    (form.mapTrailing f).mapTrailing (fun _ => []) = form.mapTrailing fun _ => [] := by
  cases form <;> rfl

mutual

theorem bare_addAll : ∀ (n : Node) (s : List Addition), ((addAll n).run s).1.bare = n.bare
  | .mk head form slots, s => by
    have ih := bare_addAllToSlots form.slots slots s.tail
    rw [addAll, Node.bare, ← ih]
    exact congrArg (Node.mk _ · _) (mapTrailing_mapTrailing _ form)

theorem bare_addAllToSlots : ∀ (specs : List Slot) (slots : List (List Node)) (s : List Addition),
    Node.bareOfSlots ((addAllToSlots specs slots).run s).1 = Node.bareOfSlots slots
  | spec :: specs, ns :: slots, s => by
    rw [addAllToSlots]
    split
    · rw [Node.bareOfSlots, ← bare_addAllToSlots specs slots s]
      rfl
    all_goals
      rw [Node.bareOfSlots, ← bare_addAllToList ns s,
        ← bare_addAllToSlots specs slots ((addAllToList ns).run s).2]
      rfl
  | [], slots, s => by rw [addAllToSlots]; rfl; simp
  | spec :: specs, [], s => by rw [addAllToSlots]; rfl; simp

theorem bare_addAllToList : ∀ (ns : List Node) (s : List Addition),
    Node.bareOfList ((addAllToList ns).run s).1 = Node.bareOfList ns
  | [], s => by rw [addAllToList]; rfl
  | n :: rest, s => by
    have hn := bare_addAll n s
    have hrest := bare_addAllToList rest ((addAll n).run s).2
    rw [addAllToList, Node.bareOfList, ← hn, ← hrest]
    rfl

end

theorem bare_attach (root : Node) (comments : List Comment) :
    (attach root comments).bare = root.bare := by
  unfold attach
  split
  · rfl
  · exact bare_addAll _ _

theorem spans_attach {source : Text} {lo hi : Location} {root : Node} {comments : List Comment} :
    Node.Spans source lo hi [[attach root comments]] ↔ Node.Spans source lo hi [[root]] := by
  have hbare : Node.bareOfSlots [[attach root comments]] = Node.bareOfSlots [[root]] := by
    simp [Node.bareOfSlots, Node.bareOfList, bare_attach]
  rw [← Node.spans_bareOfSlots, hbare, Node.spans_bareOfSlots]

end Comment

end InlineTemplates
