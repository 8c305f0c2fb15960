import InlineTemplates.Proofs.Edits

/-!
# Programs that are edited while they are walked

The walk over a program makes a pass over its statements. The root stays, statements that the
visitor puts in front when it is shown the root are entered too, and those that it puts there later
are not.
-/

namespace InlineTemplates

namespace Traversal

open Node (bareOfList nodesOfSlots nodesOfList)

variable {σ : Type} {visitor : Visitor σ}

/-! ## The statement that is walked -/

namespace Body

variable {b : Body} {pre post : List Item} {item : Item}

/-- The statement that is walked, between those in front of it and those behind it. -/
structure At (b : Body) (pre : List Item) (item : Item) (post : List Item) : Prop where
  items : b.items = pre ++ item :: post
  here : b.here = some pre.length

theorem at_enter (h : b.items = pre ++ item :: post) :
    (b.enter pre.length).At pre { item with isPending := false } post := by
  refine ⟨?_, rfl⟩
  change b.items.modify _ _ = _
  rw [h, Sites.modify_behind]

theorem replaceAt (h : b.items = pre ++ item :: post) (new : Node) :
    ∃ b', b.replaceAt? pre.length new = some b' ∧ b'.At pre ⟨new, false⟩ post := by
  refine ⟨{ b with items := b.items.set pre.length ⟨new, false⟩, here := some pre.length },
    if_pos (by simp [h]), ?_, rfl⟩
  simp [h]

namespace At

theorem prepend (h : b.At pre item post) (ns : List Node) :
    (b.prepend ns).At (ns.map (⟨·, false⟩) ++ pre) item post := by
  constructor
  · change _ ++ b.items = _
    rw [h.items, List.append_assoc]
  · change b.here.map _ = _
    rw [h.here, List.length_append, List.length_map, Nat.add_comm]
    rfl

theorem current (h : b.At pre item post) : b.current? = some item.node := by
  simp [current?, h.here, h.items]

theorem putBack (h : b.At pre item post) (walked : Node) :
    (b.putBack walked).items =
      pre ++ { item with node := walked.withComments item.node.comments } :: post := by
  rw [Body.putBack, h.here]
  change b.items.modify _ _ = _
  rw [h.items, Sites.modify_behind]

/-- The comments of a removed statement go to the next one, if there is one. -/
theorem removeHere {pending : List Node} (h : b.At pre item (pending.map (⟨·, true⟩))) :
    ∃ pending' : List Node, pending'.map Node.bare = pending.map Node.bare ∧
      b.removeHere.items = pre ++ pending'.map (⟨·, true⟩) := by
  have hdrop : b.removeHere = b.drop pre.length := by rw [Body.removeHere, h.here]; rfl
  have hrest : b.items.drop pre.length = item :: pending.map (⟨·, true⟩) := by
    rw [h.items, List.drop_left]
  have hfront : b.items.take pre.length = pre := by rw [h.items, List.take_left]
  rw [hdrop, drop, hrest, hfront]
  cases pending with
  | nil => exact ⟨[], rfl, (List.append_nil pre).symm⟩
  | cons next rest =>
    refine ⟨next.prependComments item.node.comments :: rest, ?_, rfl⟩
    rw [List.map_cons, List.map_cons, bare_prependComments]

end At

end Body

/-! ## Statements -/

section Statements

variable {s t : Walk σ} {pre post : List Item} {n m : Node}

theorem putBack_walks {below : WalkM σ Node} {P : Node → List Call → Prop}
    (hat : t.body.At pre ⟨m, false⟩ post) (h : Walks visitor below t P) :
    ∃ r calls s', Gives (do let walked ← below; modifyBody (·.putBack walked)) t () s' ∧
      Calls visitor t.memory calls s'.memory ∧ P r calls ∧
      s'.body.items = (fronts calls).map (⟨·, false⟩) ++
        (pre ++ ⟨r.withComments m.comments, false⟩ :: post) := by
  obtain ⟨r, calls, t', hgives, hcalls, hbody, hr⟩ := h
  refine ⟨r, calls, _, gives_bind.mpr ⟨r, t', hgives, gives_modifyBody.mpr rfl⟩, hcalls, hr, ?_⟩
  change (t'.body.putBack r).items = _
  rw [hbody, (hat.prepend (fronts calls)).putBack, List.append_assoc]

theorem editStatement_insertFront (index : Nat) (o : Outcome) (n : Node) :
    (editStatement index o (.insertFront n) : WalkM σ Outcome) = editInner o (.insertFront n) := rfl

theorem gives_replace {front mid : List Item} {hit item : Item} (hat : t.body.At pre item post)
    (hsplit : pre ++ item :: post = front ++ hit :: mid) (new : Node) (n : Node) :
    ∃ b : Body, b.At front ⟨new.prependComments item.node.comments, false⟩ mid ∧
      Gives ((Decision.replace new).edits.foldlM (editStatement front.length) ⟨n, false, false⟩) t
        ⟨new.prependComments item.node.comments, true, false⟩ { t with body := b } := by
  obtain ⟨b, hb, hat'⟩ := Body.replaceAt (hat.items.trans hsplit)
    (new.prependComments item.node.comments)
  refine ⟨b, hat', gives_bind.mpr ⟨_, _, ?_, gives_pure.mpr ⟨rfl, rfl⟩⟩⟩
  refine gives_bind.mpr ⟨t, t, gives_get.mpr ⟨rfl, rfl⟩, ?_⟩
  simp only [hat.current, Option.getD_some, hb]
  exact gives_bind.mpr ⟨(), _, gives_modifyBody.mpr rfl, gives_pure.mpr ⟨rfl, rfl⟩⟩

theorem gives_remove (index : Nat) (n : Node) (t : Walk σ) :
    Gives (Decision.remove.edits.foldlM (editStatement index) ⟨n, false, false⟩) t ⟨n, false, true⟩
      { t with body := t.body.removeHere } := rfl

/-- What a visitor is shown when a statement of the program is entered. -/
def shown (s : Walk σ) (index : Nat) (n : Node) : Visit :=
  ⟨n, some ⟨"body", some index⟩, s.body.enter index⟩

variable {a : Answer} {m' : σ} {new : Node}

/-- A statement is entered, and the walk goes on below unless it was removed. -/
theorem gives_walkStatement {item : Item} {s' : Walk σ} {o : Outcome}
    (hat : (s.body.enter pre.length).At pre item post)
    (hanswer : Answers visitor (shown s pre.length item.node) s.memory a m')
    (hdecision : Gives
      (a.decision.edits.foldlM (editStatement pre.length) ⟨item.node, false, false⟩)
      ⟨(s.body.enter pre.length).prepend a.before.reverse, m'⟩ o t)
    (hrest : Gives (if o.isRemoved then pure () else do
      let walked ← walkBelow visitor (walkBelowNew visitor limit) o.node
      modifyBody (·.putBack walked)) { t with body := t.body.prepend a.after.reverse } () s') :
    Gives (walkStatement visitor pre.length) s () s' := by
  refine gives_bind.mpr ⟨(), _, gives_modifyBody.mpr rfl, ?_⟩
  refine gives_bind.mpr ⟨_, _, gives_get.mpr ⟨rfl, rfl⟩, ?_⟩
  simp only [hat.current]
  refine gives_bind.mpr ⟨o, _, ?_, hrest⟩
  exact gives_visit (s := ⟨s.body.enter pre.length, s.memory⟩)
    (editStatement_insertFront pre.length) hanswer hdecision

theorem bare_withComments (n : Node) (comments : List Text) :
    (n.withComments comments).bare = n.bare := by
  obtain ⟨head, form, slots⟩ := n
  rfl

structure PassesStatement (visitor : Visitor σ) (s : Walk σ) (pre : List Item) (n : Node)
    (pending : List Node) (calls : List Call) (left pending' : List Node) (s' : Walk σ) : Prop where
  gives : Gives (walkStatement visitor pre.length) s () s'
  called : Calls visitor s.memory calls s'.memory
  passes : Passes n.bare (bareSteps calls) (left.map Node.bare)
  behind : pending'.map Node.bare = pending.map Node.bare
  items : s'.body.items = (fronts calls).map (⟨·, false⟩) ++
    (pre ++ left.map (⟨·, false⟩) ++ pending'.map (⟨·, true⟩))

variable {pending : List Node}

theorem walkStatement_keeps (hv : Orderly visitor)
    (hat : (s.body.enter pre.length).At pre ⟨n, false⟩ (pending.map (⟨·, true⟩)))
    (hanswer : Answers visitor (shown s pre.length n) s.memory a m') (hd : a.decision = .keep)
    (hn : ∀ x ∈ n.nodes, IsShaped x) :
    ∃ calls r s', PassesStatement visitor s pre n pending (⟨shown s pre.length n, a⟩ :: calls) [r]
      pending s' := by
  obtain ⟨r, calls, s', hgives, hcalls, hpasses, hitems⟩ := putBack_walks
    (t := ⟨((s.body.enter pre.length).prepend a.before.reverse).prepend a.after.reverse, m'⟩)
    ((hat.prepend a.before.reverse).prepend a.after.reverse) (walkBelow_passes hv hn _)
  have hdecision : Gives (a.decision.edits.foldlM (editStatement pre.length) ⟨n, false, false⟩)
      ⟨(s.body.enter pre.length).prepend a.before.reverse, m'⟩ ⟨n, false, false⟩
      ⟨(s.body.enter pre.length).prepend a.before.reverse, m'⟩ := by
    rw [hd]
    exact gives_pure.mpr ⟨rfl, rfl⟩
  refine ⟨calls, r.withComments n.comments, s', gives_walkStatement hat hanswer hdecision hgives,
    .cons hanswer hcalls, ?_, rfl, ?_⟩
  · change Passes _ (⟨n.bare, a.decision.bare⟩ :: bareSteps calls) _
    rw [List.map_singleton, bare_withComments, hd]
    exact hpasses
  · rw [hitems]
    simp [fronts, Answer.fronts]

/-- A replacement goes to the index where the statement was entered. What the visitor has put in
front of the program until then moves the statement away from there. -/
theorem walkStatement_replaces (hv : Answering visitor)
    (hat : (s.body.enter pre.length).At pre ⟨n, false⟩ post)
    (hanswer : Answers visitor (shown s pre.length n) s.memory a m')
    (hd : a.decision = .replace new) (hnew : IsShaped new)
    (hkept : ∀ x ∈ nodesOfSlots new.slots, IsKept visitor x) {front mid : List Item} {hit : Item}
    (hsplit : a.before.reverse.map (⟨·, false⟩) ++ pre ++ ⟨n, false⟩ :: post = front ++ hit :: mid)
    (hindex : front.length = pre.length) :
    ∃ calls r s', Gives (walkStatement visitor pre.length) s () s' ∧
      Calls visitor s.memory (⟨shown s pre.length n, a⟩ :: calls) s'.memory ∧
      Keep calls (nodesOfSlots new.slots) ∧ r.bare = new.bare ∧
      s'.body.items = (fronts calls).map (⟨·, false⟩) ++
        (a.after.reverse.map (⟨·, false⟩) ++ (front ++ ⟨r, false⟩ :: mid)) := by
  obtain ⟨b, hb, hgives⟩ := gives_replace
    (t := ⟨(s.body.enter pre.length).prepend a.before.reverse, m'⟩) (hat.prepend _) hsplit new n
  obtain ⟨r, calls, s', hgives', hcalls, ⟨hr, hkeep⟩, hitems⟩ := putBack_walks
    (t := ⟨b.prepend a.after.reverse, m'⟩) (hb.prepend a.after.reverse)
    (walkBelowNew_keeps hv limit (n := new.prependComments n.comments) hnew hkept _)
  rw [hindex, ← hd] at hgives
  refine ⟨calls, r.withComments (new.prependComments n.comments).comments, s',
    gives_walkStatement hat hanswer hgives hgives', .cons hanswer hcalls, hkeep, ?_, ?_⟩
  · rw [bare_withComments, hr, bare_prependComments]
  · rw [hitems, List.append_assoc]

/-- After others were put in front of the program, the replacement of a statement takes the place of
one of those in front of it. The statement stays, and what is below it is not entered. -/
theorem walkStatement_replaces_other (hv : Answering visitor)
    (hat : (s.body.enter pre.length).At pre ⟨n, false⟩ post)
    (hanswer : Answers visitor (shown s pre.length n) s.memory a m')
    (hd : a.decision = .replace new) (hbefore : a.before ≠ []) (hnew : IsShaped new)
    (hkept : ∀ x ∈ nodesOfSlots new.slots, IsKept visitor x) :
    ∃ front hit mid calls r s', a.before.reverse.map (⟨·, false⟩) ++ pre = front ++ hit :: mid ∧
      front.length = pre.length ∧
      Gives (walkStatement visitor pre.length) s () s' ∧
      Calls visitor s.memory (⟨shown s pre.length n, a⟩ :: calls) s'.memory ∧
      Keep calls (nodesOfSlots new.slots) ∧ r.bare = new.bare ∧
      s'.body.items = (fronts calls).map (⟨·, false⟩) ++
        (a.after.reverse.map (⟨·, false⟩) ++
          (front ++ ⟨r, false⟩ :: (mid ++ ⟨n, false⟩ :: post))) := by
  have hlt : pre.length < (a.before.reverse.map (⟨·, false⟩) ++ pre : List Item).length := by
    have hpos := List.length_pos_iff.2 hbefore
    rw [List.length_append, List.length_map, List.length_reverse]
    omega
  obtain ⟨front, hit, mid, hsplit, hindex⟩ : ∃ (front : List Item) (hit : Item) (mid : List Item),
      a.before.reverse.map (⟨·, false⟩) ++ pre = front ++ hit :: mid ∧
        front.length = pre.length := by
    obtain ⟨front, mid, hsplit, hindex, -⟩ := @List.exists_of_set _ _ ⟨n, false⟩ _ hlt
    exact ⟨front, _, mid, hsplit, hindex⟩
  have hsplit' : a.before.reverse.map (⟨·, false⟩) ++ pre ++ ⟨n, false⟩ :: post =
      front ++ hit :: (mid ++ ⟨n, false⟩ :: post) := by
    rw [hsplit, List.append_assoc, List.cons_append]
  obtain ⟨calls, r, s', h⟩ := walkStatement_replaces hv hat hanswer hd hnew hkept hsplit' hindex
  exact ⟨front, hit, mid, calls, r, s', hsplit, hindex, h⟩

-- the replacement of the second statement takes the place of the first
example : run (ofAnswers fun v =>
      if v.position = some ⟨"body", some 1⟩ then
        ⟨[.breakStmt .fresh], .replace (.continueStmt .fresh), []⟩
      else ⟨[], .keep, []⟩) ()
    (.program .fresh [] [.emptyStmt .fresh, .returnStmt .fresh []]) =
    (.ok (.program .fresh [] [.breakStmt .fresh, .continueStmt .fresh, .returnStmt .fresh []]),
      ()) := rfl

theorem walkStatement_removes
    (hat : (s.body.enter pre.length).At pre ⟨n, false⟩ (pending.map (⟨·, true⟩)))
    (hanswer : Answers visitor (shown s pre.length n) s.memory a m') (hd : a.decision = .remove) :
    ∃ pending' s', PassesStatement visitor s pre n pending [⟨shown s pre.length n, a⟩] [] pending'
      s' := by
  obtain ⟨pending', hpending, hremoved⟩ := (hat.prepend a.before.reverse).removeHere
  have hdecision : Gives (a.decision.edits.foldlM (editStatement pre.length) ⟨n, false, false⟩)
      ⟨(s.body.enter pre.length).prepend a.before.reverse, m'⟩ ⟨n, false, true⟩
      ⟨((s.body.enter pre.length).prepend a.before.reverse).removeHere, m'⟩ := by
    rw [hd]
    exact gives_remove ..
  refine ⟨pending', _, gives_walkStatement hat hanswer hdecision (gives_pure.mpr ⟨rfl, rfl⟩),
    .cons hanswer .nil, ?_, hpending, ?_⟩
  · change Passes _ [⟨n.bare, a.decision.bare⟩] _
    rw [hd]
    exact .remove
  · change _ ++ (Body.removeHere _).items = _
    rw [hremoved]
    simp [fronts, Answer.fronts]

theorem walkStatement_passes (hv : Orderly visitor)
    (hitems : s.body.items = pre ++ ⟨n, true⟩ :: pending.map (⟨·, true⟩))
    (hn : ∀ x ∈ n.nodes, IsShaped x) :
    ∃ calls left pending' s', PassesStatement visitor s pre n pending calls left pending' s' := by
  have hat := Body.at_enter hitems
  obtain ⟨a, m', hanswer⟩ := hv.answering (shown s pre.length n) s.memory
  cases hd : a.decision with
  | keep =>
    obtain ⟨calls, r, s', h⟩ := walkStatement_keeps hv hat hanswer hd hn
    exact ⟨_, _, _, _, h⟩
  | replace new =>
    -- nothing came in front of the statement yet, so it still stands at its index
    have hbefore : a.before = [] := hv.fits hanswer new hd
    obtain ⟨hnew, hkept⟩ := hv.replacement hanswer hd
    obtain ⟨calls, r, s', hgives, hcalls, hkeep, hr, hitems'⟩ :=
      walkStatement_replaces hv.answering hat hanswer hd hnew hkept
        (by rw [hbefore, List.reverse_nil, List.map_nil, List.nil_append]) rfl
    refine ⟨_, [r], pending, s', hgives, hcalls, ?_, rfl, ?_⟩
    · change Passes _ (⟨n.bare, a.decision.bare⟩ :: bareSteps calls) _
      rw [List.map_singleton, hr, hkeep.bareSteps, hd]
      exact passes_replace _ new
    · rw [hitems']
      simp [fronts, Answer.fronts, hbefore]
  | remove =>
    obtain ⟨pending', s', h⟩ := walkStatement_removes hat hanswer hd
    exact ⟨_, _, _, _, h⟩

end Statements

/-! ## The program -/

section Program

variable {s : Walk σ}

theorem editRoot_insertFront (o : Outcome) (n : Node) :
    (editRoot o (.insertFront n) : WalkM σ Outcome) = editInner o (.insertFront n) := rfl

theorem isShaped_bare (n : Node) : IsShaped n.bare ↔ IsShaped n := by
  obtain ⟨head, form, slots⟩ := n
  have hform : (form.mapTrailing fun _ => []).slots = form.slots := by cases form <;> rfl
  change (Node.bareOfSlots slots).length = (form.mapTrailing fun _ => []).slots.length ↔
    slots.length = form.slots.length
  rw [Node.bareOfSlots_eq, List.length_map, hform]

theorem shaped_of_bare {ns ms : List Node} (h : ns.map Node.bare = ms.map Node.bare)
    (hms : ∀ x ∈ nodesOfList ms, IsShaped x) : ∀ x ∈ nodesOfList ns, IsShaped x := by
  have hnodes : (nodesOfList ns).map Node.bare = (nodesOfList ms).map Node.bare := by
    rw [← Node.nodesOfList_bare, ← Node.nodesOfList_bare, Node.bareOfList_eq, h,
      Node.bareOfList_eq]
  intro x hx
  have hbare : x.bare ∈ (nodesOfList ms).map Node.bare := hnodes ▸ List.mem_map_of_mem hx
  obtain ⟨y, hy, heq⟩ := List.mem_map.1 hbare
  rw [← isShaped_bare, ← heq, isShaped_bare]
  exact hms y hy

theorem walkPending_passes (hv : Orderly visitor) (count : Nat) (pre : List Node)
    {pending : List Node} {s : Walk σ} (hcount : pending.length ≤ count)
    (hshaped : ∀ x ∈ nodesOfList pending, IsShaped x)
    (hitems : s.body.items = pre.map (⟨·, false⟩) ++ pending.map (⟨·, true⟩)) :
    ∃ calls after s', Gives (walkPending visitor count) s () s' ∧
      Calls visitor s.memory calls s'.memory ∧
      PassesAll (pending.map Node.bare) (bareSteps calls) (after.map Node.bare) ∧
      s'.body.items = (fronts calls ++ pre ++ after).map (⟨·, false⟩) := by
  induction count generalizing pre pending s with
  | zero =>
    obtain rfl := List.length_eq_zero_iff.1 (Nat.le_zero.1 hcount)
    exact ⟨[], [], s, gives_pure.mpr ⟨rfl, rfl⟩, .nil, .nil, by simpa [fronts] using hitems⟩
  | succ count ih =>
    cases pending with
    | nil =>
      have hitems' : s.body.items = pre.map (⟨·, false⟩) := by simpa using hitems
      refine ⟨[], [], s, ?_, .nil, .nil, by simpa [fronts] using hitems'⟩
      refine gives_bind.mpr ⟨s, s, gives_get.mpr ⟨rfl, rfl⟩, ?_⟩
      simp only [Sites.nextPending?_none hitems']
      exact gives_pure.mpr ⟨rfl, rfl⟩
    | cons n pending =>
      obtain ⟨hn, hpending⟩ := List.forall_mem_append.1 hshaped
      have hfirst : s.body.items = pre.map (⟨·, false⟩) ++ ⟨n, true⟩ :: pending.map (⟨·, true⟩) :=
        hitems
      obtain ⟨calls, left, pending', t, hgives, hcalled, hpasses, hbehind, hitems'⟩ :=
        walkStatement_passes hv hfirst hn
      -- the comments of a removed statement may have gone to the next one
      have hlength : pending'.length = pending.length := by
        rw [← List.length_map (f := Node.bare), hbehind, List.length_map]
      obtain ⟨calls', after, s', hgives', hcalled', hpasses', hitems''⟩ :=
        ih (fronts calls ++ pre ++ left) (hlength ▸ Nat.le_of_succ_le_succ hcount)
          (shaped_of_bare hbehind hpending) (hitems'.trans (by simp))
      refine ⟨calls ++ calls', left ++ after, s', ?_, hcalled.append hcalled', ?_, ?_⟩
      · refine gives_bind.mpr ⟨s, s, gives_get.mpr ⟨rfl, rfl⟩, ?_⟩
        simp only [Sites.nextPending?_spec hitems]
        rw [List.length_map] at hgives
        exact gives_bind.mpr ⟨(), t, hgives, hgives'⟩
      · rw [List.map_cons, List.map_append, bareSteps_append]
        exact .cons hpasses (hbehind ▸ hpasses')
      · rw [hitems'', fronts_append]
        simp only [List.append_assoc]

/-- The walk over a program enters the root and keeps it, and makes a pass over the statements that
the program has then. The statements that come in front of them later are not entered. -/
theorem run_passes (hv : Orderly visitor) {statements : List Node}
    (hshaped : ∀ x ∈ nodesOfList statements, IsShaped x) (head : Head) (trailing : List Text)
    (m : σ) :
    ∃ first calls after trailing' m',
      Calls visitor m (first :: calls) m' ∧
        first.step = ⟨.program head trailing statements, .keep⟩ ∧
        PassesAll ((first.answer.fronts ++ statements).map Node.bare) (bareSteps calls)
          (after.map Node.bare) ∧
        run visitor m (.program head trailing statements) =
          (.ok (.program head trailing' (fronts calls ++ after)), m') := by
  let body : Body := ⟨statements.map (⟨·, false⟩), trailing, none⟩
  obtain ⟨a, m₁, hanswer⟩ := hv.answering ⟨.program head trailing statements, none, body⟩ m
  have hkeep : a.decision = .keep := hv.fits hanswer
  have hdecision (t : Walk σ) (o : Outcome) : Gives (a.decision.edits.foldlM editRoot o) t o t := by
    rw [hkeep]
    exact gives_pure.mpr ⟨rfl, rfl⟩
  have hroot : Gives (visit visitor editRoot (.program head trailing statements) none) ⟨body, m⟩
      ⟨.program head trailing statements, false, false⟩ ⟨body.prepend a.fronts, m₁⟩ := by
    rw [Answer.fronts, ← Body.prepend_prepend]
    exact gives_visit (s := ⟨body, m⟩) editRoot_insertFront hanswer (hdecision _ _)
  have hfront : ∀ x ∈ nodesOfList (a.fronts ++ statements), IsShaped x := by
    rw [Node.nodesOfList_append, List.forall_mem_append]
    exact ⟨hv.front hanswer, hshaped⟩
  let entered : Body := { body.prepend a.fronts with
    items := (body.prepend a.fronts).items.map fun item => { item with isPending := true } }
  have hitems : entered.items = (a.fronts ++ statements).map (⟨·, true⟩) := by
    simp [entered, body, Body.prepend, Function.comp_def]
  obtain ⟨calls, after, s', hgives, hcalled, hpasses, hitems'⟩ :=
    walkPending_passes hv entered.items.length [] (s := ⟨entered, m₁⟩) (by simp [hitems]) hfront
      hitems
  have hprogram : Gives (walkProgram visitor (.program head trailing statements)) ⟨body, m⟩ ()
      s' := by
    refine gives_bind.mpr ⟨_, _, hroot, gives_bind.mpr ⟨(), _, gives_modifyBody.mpr rfl, ?_⟩⟩
    exact gives_bind.mpr ⟨_, _, gives_get.mpr ⟨rfl, rfl⟩, hgives⟩
  refine ⟨⟨_, a⟩, calls, after, s'.body.trailing, s'.memory, .cons hanswer hcalled,
    congrArg (Step.mk _) hkeep, hpasses, ?_⟩
  have hstatements : s'.body.statements = fronts calls ++ after := by
    rw [Body.statements, hitems', List.append_nil, List.map_map]
    exact List.map_id _
  have hrun := hprogram
  unfold Gives at hrun
  simp only [run]
  rw [hrun, ← hstatements]
  rfl

/-- Empty statements of the program go, and a name `old` that is a value becomes `new`, behind a
statement that is put in front of the program for it. -/
def renewal (v : Visit) : Answer :=
  if v.position = some ⟨"value", none⟩ ∧ v.node.form = .name "old" then
    ⟨[.breakStmt .fresh], .replace (.name .fresh "new"), []⟩
  else if v.position.isSome ∧ v.node.form = .emptyStmt then ⟨[], .remove, []⟩
  else ⟨[], .keep, []⟩

theorem orderly_renewal : Orderly (ofAnswers renewal : Visitor Unit) := by
  refine orderly_ofAnswers ?_ ?_ ?_
  · intro v
    unfold renewal
    split_ifs with hname hempty
    · rw [hname.1]
      trivial
    · exact Answer.fits_of_remove hempty.1 rfl
    · exact Answer.fits_of_keep rfl
  · intro v
    have hshaped : ∀ x ∈ nodesOfList [Node.breakStmt .fresh], IsShaped x := by
      simp [nodesOfList, Node.nodes, nodesOfSlots, IsShaped, Node.slots, Node.form, Form.slots]
    unfold renewal
    split_ifs
    · exact hshaped
    · simp [Answer.fronts, nodesOfList]
    · simp [Answer.fronts, nodesOfList]
  · intro v new hnew
    have hleaf : new = .name .fresh "new" := by
      unfold renewal at hnew
      split_ifs at hnew
      exact (Decision.replace.inj hnew).symm
    rw [hleaf]
    exact ⟨rfl, by simp [nodesOfSlots, Node.slots]⟩

/-- The program `old; ; kept;`. -/
def renewable : List Node :=
  [.exprStmt .fresh (.name .fresh "old"), .emptyStmt .fresh, .exprStmt .fresh (.name .fresh "kept")]

theorem run_passes_renewable :
    ∃ first calls after trailing' m',
      Calls (ofAnswers renewal) () (first :: calls) m' ∧
        first.step = ⟨.program .fresh [] renewable, .keep⟩ ∧
        PassesAll ((first.answer.fronts ++ renewable).map Node.bare) (bareSteps calls)
          (after.map Node.bare) ∧
        run (ofAnswers renewal) () (.program .fresh [] renewable) =
          (.ok (.program .fresh trailing' (fronts calls ++ after)), m') := by
  refine run_passes orderly_renewal ?_ .fresh [] ()
  simp [renewable, nodesOfList, Node.nodes, nodesOfSlots, IsShaped, Node.slots, Node.form,
    Form.slots]

example : run (ofAnswers renewal) () (.program .fresh [] renewable) =
    (.ok (.program .fresh [] [.breakStmt .fresh, .exprStmt .fresh (.name .fresh "new"),
      .exprStmt .fresh (.name .fresh "kept")]), ()) := rfl

end Program

end Traversal

end InlineTemplates
