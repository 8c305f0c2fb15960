import InlineTemplates.Proofs.Passes

/-!
# What a walk makes of the answers

The walk over a program makes a pass of the answers of an orderly visitor. Below a statement the
only change to the program are the statements that come in front of it.
-/

namespace InlineTemplates

namespace Traversal

open Node (bareOfSlots bareOfList nodesOfSlots nodesOfList)

variable {σ α β : Type} {visitor : Visitor σ}

/-! ## Statements in front -/

namespace Body

def prepend (b : Body) (ns : List Node) : Body :=
  { b with items := ns.map (⟨·, false⟩) ++ b.items, here := b.here.map (· + ns.length) }

theorem prepend_nil (b : Body) : b.prepend [] = b := by
  obtain ⟨items, trailing, here⟩ := b
  simp [prepend]

theorem prepend_prepend (b : Body) (ns ms : List Node) :
    (b.prepend ns).prepend ms = b.prepend (ms ++ ns) := by
  have hsum (h : Nat) : h + ns.length + ms.length = h + (ms.length + ns.length) := by omega
  simp [prepend, Function.comp_def, hsum]

end Body

section Steps

variable {s s' t : Walk σ} {edit : Outcome → Edit → WalkM σ Outcome}

theorem gives_fronts (hedit : ∀ o n, edit o (.insertFront n) = editInner o (.insertFront n))
    (ns : List Node) {edits : List Edit} {o o' : Outcome}
    (h : Gives (edits.foldlM edit o) { s with body := s.body.prepend ns.reverse } o' s') :
    Gives ((ns.map Edit.insertFront ++ edits).foldlM edit o) s o' s' := by
  induction ns generalizing s with
  | nil => rwa [List.reverse_nil, Body.prepend_nil] at h
  | cons n ns ih =>
    rw [List.map_cons, List.cons_append, List.foldlM_cons, hedit]
    refine gives_bind.mpr ⟨o, { s with body := s.body.prepend [n] }, rfl, ih ?_⟩
    rwa [Body.prepend_prepend, ← List.reverse_cons]

/-- A visit makes the decision between the statements that come in front of the program. -/
theorem gives_visit (hedit : ∀ o n, edit o (.insertFront n) = editInner o (.insertFront n))
    {n : Node} {position : Option Node.Position} {a : Answer} {m : σ} {o : Outcome}
    (h : Answers visitor ⟨n, position, s.body⟩ s.memory a m)
    (hdecision : Gives (a.decision.edits.foldlM edit ⟨n, false, false⟩)
      ⟨s.body.prepend a.before.reverse, m⟩ o t) :
    Gives (visit visitor edit n position) s o
      { t with body := t.body.prepend a.after.reverse } := by
  refine gives_bind.mpr ⟨a.edits, { s with memory := m }, gives_ask.mpr ⟨m, h, rfl⟩, ?_⟩
  refine gives_fronts hedit a.before ?_
  rw [List.foldlM_append]
  refine gives_bind.mpr ⟨o, t, hdecision, ?_⟩
  rw [← List.append_nil (a.after.map _)]
  exact gives_fronts hedit a.after (gives_pure.mpr ⟨rfl, rfl⟩)

/-- From `s` on, a walk below a statement gives something, after calls that only put statements in
front of the program. -/
def Walks (visitor : Visitor σ) (m : WalkM σ α) (s : Walk σ) (P : α → List Call → Prop) : Prop :=
  ∃ x calls s', Gives m s x s' ∧ Calls visitor s.memory calls s'.memory ∧
    s'.body = s.body.prepend (fronts calls) ∧ P x calls

namespace Walks

variable {m : WalkM σ α} {P Q : α → List Call → Prop} {R : β → List Call → Prop}

theorem pure {x : α} (h : P x []) : Walks visitor (Pure.pure x) s P :=
  ⟨x, [], s, gives_pure.mpr ⟨rfl, rfl⟩, .nil, (s.body.prepend_nil).symm, h⟩

theorem bind {f : α → WalkM σ β} (h : Walks visitor m s P)
    (hf : ∀ x calls t, P x calls → Walks visitor (f x) t fun y calls' => R y (calls ++ calls')) :
    Walks visitor (m >>= f) s R := by
  obtain ⟨x, calls, t, hgives, hcalls, hbody, hx⟩ := h
  obtain ⟨y, calls', s', hgives', hcalls', hbody', hy⟩ := hf x calls t hx
  refine ⟨y, calls ++ calls', s', gives_bind.mpr ⟨x, t, hgives, hgives'⟩, hcalls.append hcalls',
    ?_, hy⟩
  rw [hbody', hbody, Body.prepend_prepend, fronts_append]

theorem mono (h : Walks visitor m s P) (hPQ : ∀ x calls, P x calls → Q x calls) :
    Walks visitor m s Q := by
  obtain ⟨x, calls, s', hgives, hcalls, hbody, hx⟩ := h
  exact ⟨x, calls, s', hgives, hcalls, hbody, hPQ x calls hx⟩

end Walks

end Steps

/-! ## Visits below a statement -/

section Nodes

variable {belowNew : Node → WalkM σ Node} {s : Walk σ}

/-- What stands in the place of a node below a statement when it is entered. -/
def Decision.outcome (n : Node) : Decision → Outcome
  | keep => ⟨n, false, false⟩
  | replace new => ⟨new.prependComments n.comments, true, false⟩
  | remove => ⟨n, false, true⟩

theorem visit_walks (hv : Answering visitor) (n : Node) (position : Node.Position) (s : Walk σ) :
    Walks visitor (visit visitor editInner n (some position)) s fun o calls =>
      ∃ a body m m', calls = [⟨⟨n, some position, body⟩, a⟩] ∧
        Answers visitor ⟨n, some position, body⟩ m a m' ∧ o = a.decision.outcome n := by
  obtain ⟨a, m', h⟩ := hv ⟨n, some position, s.body⟩ s.memory
  have hdecision (t : Walk σ) :
      Gives (a.decision.edits.foldlM editInner ⟨n, false, false⟩) t (a.decision.outcome n) t := by
    cases a.decision <;> rfl
  refine ⟨_, [⟨_, a⟩], _, gives_visit (fun _ _ => rfl) h (hdecision _), .cons h .nil, ?_,
    a, s.body, s.memory, m', rfl, h, rfl⟩
  exact Body.prepend_prepend ..

/-! ## Trees that are kept -/

/-- The calls enter the nodes and keep them. -/
def Keep (calls : List Call) (ns : List Node) : Prop := calls.map Call.step = keeping ns

theorem Keep.append {as bs : List Call} {ns ms : List Node} (ha : Keep as ns) (hb : Keep bs ms) :
    Keep (as ++ bs) (ns ++ ms) := by
  unfold Keep keeping at *
  rw [List.map_append, List.map_append, ha, hb]

theorem visit_keeps (hv : Answering visitor) {n : Node} (hn : IsKept visitor n)
    (position : Node.Position) (s : Walk σ) :
    Walks visitor (visit visitor editInner n (some position)) s fun o calls =>
      o = ⟨n, false, false⟩ ∧ Keep calls [n] := by
  refine (visit_walks hv n position s).mono ?_
  rintro o calls ⟨a, body, m, m', rfl, h, rfl⟩
  have hkeep := hn.keep h
  exact ⟨by rw [hkeep]; rfl, by simp [Keep, keeping, Call.step, hkeep]⟩

mutual

/-- The walk enters all nodes of a tree that is kept, and changes nothing in it. -/
theorem walkNode_keeps (hv : Answering visitor) (position : Node.Position) :
    ∀ (n : Node) (s : Walk σ), (∀ x ∈ n.nodes, IsKept visitor x) →
      Walks visitor (walkNode visitor belowNew position [] n) s fun left calls =>
        left = .node n ∧ Keep calls n.nodes
  | .mk head form slots, s, h => by
    obtain ⟨hn, hslots⟩ := List.forall_mem_cons.1 h
    rw [walkNode]
    refine (visit_keeps hv hn position s).bind ?_
    rintro o calls t ⟨rfl, hcalls⟩
    refine (walkSlots_keeps hv slots form.slots t hn.shaped hslots).bind ?_
    rintro ⟨slots', spilled⟩ calls' t' ⟨hout, hcalls'⟩
    cases hout
    dsimp only
    rw [Sites.mapTrailing_nil]
    exact .pure ⟨rfl, hcalls.append (by rwa [List.append_nil])⟩

theorem walkSlots_keeps (hv : Answering visitor) :
    ∀ (slots : List (List Node)) (specs : List Slot) (s : Walk σ), slots.length = specs.length →
      (∀ x ∈ nodesOfSlots slots, IsKept visitor x) →
      Walks visitor (walkSlots visitor belowNew specs slots) s fun out calls =>
        out = (slots, []) ∧ Keep calls (nodesOfSlots slots)
  | [], [], s, _, _ => by
    rw [walkSlots]
    · exact .pure ⟨rfl, rfl⟩
    · nofun
  | ns :: slots, spec :: specs, s, hlength, h => by
    obtain ⟨hns, hslots⟩ := List.forall_mem_append.1 h
    rw [walkSlots]
    refine (walkList_keeps hv spec ns 0 s hns).bind ?_
    rintro _ calls t ⟨rfl, hcalls⟩
    refine (walkSlots_keeps hv slots specs t (Nat.succ.inj hlength) hslots).bind ?_
    rintro _ calls' t' ⟨rfl, hcalls'⟩
    exact .pure ⟨rfl, hcalls.append (by rwa [List.append_nil])⟩

theorem walkList_keeps (hv : Answering visitor) (spec : Slot) :
    ∀ (ns : List Node) (index : Nat) (s : Walk σ), (∀ x ∈ nodesOfList ns, IsKept visitor x) →
      Walks visitor (walkList visitor belowNew spec index [] ns) s fun out calls =>
        out = (ns, []) ∧ Keep calls (nodesOfList ns)
  | [], index, s, _ => by
    rw [walkList]
    exact .pure ⟨rfl, rfl⟩
  | n :: rest, index, s, h => by
    obtain ⟨hn, hrest⟩ := List.forall_mem_append.1 h
    rw [walkList]
    refine (walkNode_keeps hv _ n s hn).bind ?_
    rintro _ calls t ⟨rfl, hcalls⟩
    refine (walkList_keeps hv spec rest (index + 1) t hrest).bind ?_
    rintro _ calls' t' ⟨rfl, hcalls'⟩
    exact .pure ⟨rfl, hcalls.append (by rwa [List.append_nil])⟩

end

theorem walkBelow_keeps (hv : Answering visitor) {n : Node} (hn : IsShaped n)
    (h : ∀ x ∈ nodesOfSlots n.slots, IsKept visitor x) (s : Walk σ) :
    Walks visitor (walkBelow visitor belowNew n) s fun out calls =>
      out = n ∧ Keep calls (nodesOfSlots n.slots) := by
  obtain ⟨head, form, slots⟩ := n
  refine (walkSlots_keeps hv slots form.slots s hn h).bind ?_
  rintro _ calls t ⟨rfl, hcalls⟩
  refine .pure ⟨?_, by rwa [List.append_nil]⟩
  exact congrArg (Node.mk head · slots) (Sites.mapTrailing_nil form)

theorem walkBelowNew_keeps (hv : Answering visitor) (depth : Nat) {n : Node} (hn : IsShaped n)
    (h : ∀ x ∈ nodesOfSlots n.slots, IsKept visitor x) (s : Walk σ) :
    Walks visitor (walkBelowNew visitor (depth + 1) n) s fun out calls =>
      out = n ∧ Keep calls (nodesOfSlots n.slots) :=
  walkBelow_keeps hv hn h s

/-! ## Trees with edits -/

def Left.nodes : Left → List Node
  | .node n => [n]
  | .comments _ => []

theorem bare_mapTrailing (head : Head) (form : Form) (f : List Text → List Text)
    (slots : List (List Node)) :
    (Node.mk head (form.mapTrailing f) slots).bare =
      .mk ⟨head.loc, []⟩ (form.mapTrailing fun _ => []) (bareOfSlots slots) :=
  congrArg (Node.mk _ · _) (Comment.mapTrailing_mapTrailing f form)

theorem bare_prependComments (n : Node) (comments : List Text) :
    (n.prependComments comments).bare = n.bare := by
  obtain ⟨head, form, slots⟩ := n
  rfl

theorem Keep.bareSteps {calls : List Call} {ns : List Node} (h : Keep calls ns) :
    bareSteps calls = keeping (ns.map Node.bare) := by
  have hmap : Traversal.bareSteps calls = (calls.map Call.step).map Step.bare := by
    simp [Traversal.bareSteps]
  rw [hmap, h]
  simp [keeping, Step.bare, Decision.bare]

theorem passes_replace (n new : Node) :
    Passes n (⟨n, .replace new.bare⟩ :: keeping ((nodesOfSlots new.slots).map Node.bare))
      [new.bare] := by
  rw [← Node.nodesOfSlots_bare]
  obtain ⟨head, form, slots⟩ := new
  exact .replace

mutual

/-- The walk over a tree is a pass. -/
theorem walkNode_passes (hv : Orderly visitor) (position : Node.Position) :
    ∀ (n : Node) (carried : List Text) (s : Walk σ), (∀ x ∈ n.nodes, IsShaped x) →
      Walks visitor (walkNode visitor (walkBelowNew visitor limit) position carried n) s
        fun left calls => Passes n.bare (bareSteps calls) (left.nodes.map Node.bare)
  | .mk head form slots, carried, s, h => by
    obtain ⟨hn, hslots⟩ := List.forall_mem_cons.1 h
    rw [walkNode]
    refine (visit_walks hv.answering _ position s).bind ?_
    rintro _ _ t ⟨a, body, m, m', rfl, hanswer, rfl⟩
    -- the comments that the node takes over are not seen
    have hfirst (calls : List Call) :
        bareSteps ([⟨⟨.mk { head with comments := carried ++ head.comments } form slots,
          some position, body⟩, a⟩] ++ calls) =
        ⟨(Node.mk head form slots).bare, a.decision.bare⟩ :: bareSteps calls := rfl
    simp only [hfirst]
    cases hd : a.decision with
    | keep =>
      refine (walkSlots_passes hv slots form.slots t hn hslots).bind ?_
      rintro ⟨slots', spilled⟩ calls t' hpasses
      refine .pure ?_
      rw [List.append_nil, Left.nodes, List.map_singleton, bare_mapTrailing]
      exact .keep hpasses
    | replace new =>
      obtain ⟨hnew, hkept⟩ := hv.replacement hanswer hd
      have hbelow := walkBelowNew_keeps hv.answering 999
        (n := new.prependComments (carried ++ head.comments)) hnew hkept t
      refine hbelow.bind ?_
      rintro _ calls t' ⟨rfl, hcalls⟩
      refine .pure ?_
      rw [List.append_nil, Left.nodes, List.map_singleton, bare_prependComments, hcalls.bareSteps]
      exact passes_replace _ new
    | remove => exact .pure .remove

theorem walkSlots_passes (hv : Orderly visitor) :
    ∀ (slots : List (List Node)) (specs : List Slot) (s : Walk σ), slots.length = specs.length →
      (∀ x ∈ nodesOfSlots slots, IsShaped x) →
      Walks visitor (walkSlots visitor (walkBelowNew visitor limit) specs slots) s
        fun out calls => PassesSlots (bareOfSlots slots) (bareSteps calls) (bareOfSlots out.1)
  | [], [], s, _, _ => by
    rw [walkSlots]
    · exact .pure .nil
    · nofun
  | ns :: slots, spec :: specs, s, hlength, h => by
    obtain ⟨hns, hslots⟩ := List.forall_mem_append.1 h
    rw [walkSlots]
    refine (walkList_passes hv spec ns 0 [] s hns).bind ?_
    rintro ⟨ns', spilled⟩ calls t hpasses
    refine (walkSlots_passes hv slots specs t (Nat.succ.inj hlength) hslots).bind ?_
    rintro ⟨slots', spilled'⟩ calls' t' hpasses'
    refine .pure ?_
    rw [List.append_nil, bareSteps_append]
    exact .cons hpasses hpasses'

theorem walkList_passes (hv : Orderly visitor) (spec : Slot) :
    ∀ (ns : List Node) (index : Nat) (carried : List Text) (s : Walk σ),
      (∀ x ∈ nodesOfList ns, IsShaped x) →
      Walks visitor (walkList visitor (walkBelowNew visitor limit) spec index carried ns) s
        fun out calls => PassesAll (bareOfList ns) (bareSteps calls) (bareOfList out.1)
  | [], index, carried, s, _ => by
    rw [walkList]
    exact .pure .nil
  | n :: rest, index, carried, s, h => by
    obtain ⟨hn, hrest⟩ := List.forall_mem_append.1 h
    rw [walkList]
    refine (walkNode_passes hv _ n carried s hn).bind ?_
    rintro left calls t hpasses
    cases left with
    | node r =>
      refine (walkList_passes hv spec rest (index + 1) [] t hrest).bind ?_
      rintro ⟨ns', spilled⟩ calls' t' hpasses'
      refine .pure ?_
      rw [List.append_nil, bareSteps_append]
      exact .cons hpasses hpasses'
    | comments cs =>
      refine (walkList_passes hv spec rest index _ t hrest).mono ?_
      rintro ⟨ns', spilled⟩ calls' hpasses'
      rw [bareSteps_append]
      exact .cons hpasses hpasses'

end

theorem walkBelow_passes (hv : Orderly visitor) {n : Node} (hn : ∀ x ∈ n.nodes, IsShaped x)
    (s : Walk σ) :
    Walks visitor (walkBelow visitor (walkBelowNew visitor limit) n) s fun out calls =>
      Passes n.bare (⟨n.bare, .keep⟩ :: bareSteps calls) [out.bare] := by
  obtain ⟨head, form, slots⟩ := n
  obtain ⟨hn, hslots⟩ := List.forall_mem_cons.1 hn
  refine (walkSlots_passes hv slots form.slots s hn hslots).bind ?_
  rintro ⟨slots', spilled⟩ calls t hpasses
  refine .pure ?_
  rw [List.append_nil, bare_mapTrailing]
  exact .keep hpasses

end Nodes

end Traversal

end InlineTemplates
