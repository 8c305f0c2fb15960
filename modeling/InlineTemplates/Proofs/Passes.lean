import InlineTemplates.Proofs.Rewriting
import InlineTemplates.Proofs.Spans

/-!
# Passes over trees

At each node a visitor keeps the node, puts another one in its place or removes it, and it may put
statements in front of the program. A pass says which nodes are entered then and what is left: the
nodes of the tree in order, below a replacement the nodes of the replacement, and none below a
removed node. Comments are left out, since those of a removed node go to another one.
-/

namespace InlineTemplates

namespace Traversal

open Node (bareOfSlots bareOfList nodesOfSlots nodesOfList)

variable {σ α β : Type}

/-! ## Answers -/

/-- What becomes of a node. -/
inductive Decision where
  | keep
  | replace (new : Node)
  | remove

namespace Decision

def edits : Decision → List Edit
  | keep => []
  | replace new => [.replace new]
  | remove => [.remove]

def bare : Decision → Decision
  | keep => keep
  | replace new => replace new.bare
  | remove => remove

end Decision

/-- A decision, and the statements that are put in front of the program before and after it. -/
structure Answer where
  before : List Node
  decision : Decision
  after : List Node

namespace Answer

def edits (a : Answer) : List Edit :=
  a.before.map .insertFront ++ (a.decision.edits ++ a.after.map .insertFront)

/-- The statements in front of the program, in the order in which they stand there. -/
def fronts (a : Answer) : List Node := a.after.reverse ++ a.before.reverse

end Answer

def Answers (visitor : Visitor σ) (v : Visit) (m : σ) (a : Answer) (m' : σ) : Prop :=
  (visitor v).run.run m = (.ok a.edits, m')

/-! ## Calls -/

/-- A node that is entered, and what becomes of it. -/
structure Step where
  node : Node
  decision : Decision

def Step.bare (s : Step) : Step := ⟨s.node.bare, s.decision.bare⟩

/-- What a visitor is shown, and its answer. -/
structure Call where
  visit : Visit
  answer : Answer

def Call.step (c : Call) : Step := ⟨c.visit.node, c.answer.decision⟩

/-- Calls of a visitor one after another, between two states of its memory. -/
inductive Calls (visitor : Visitor σ) : σ → List Call → σ → Prop
  | nil {m : σ} : Calls visitor m [] m
  | cons {m m' m'' : σ} {c : Call} {calls : List Call} (h : Answers visitor c.visit m c.answer m')
      (hs : Calls visitor m' calls m'') : Calls visitor m (c :: calls) m''

theorem Calls.append {visitor : Visitor σ} {m m' m'' : σ} {as bs : List Call}
    (ha : Calls visitor m as m') (hb : Calls visitor m' bs m'') :
    Calls visitor m (as ++ bs) m'' := by
  induction ha with
  | nil => exact hb
  | cons h _ ih => exact .cons h (ih hb)

/-- The statements that come in front of the program during some calls, in the order in which they
stand there. -/
def fronts : List Call → List Node
  | [] => []
  | c :: calls => fronts calls ++ c.answer.fronts

theorem fronts_append (as bs : List Call) : fronts (as ++ bs) = fronts bs ++ fronts as := by
  induction as with
  | nil => exact (List.append_nil _).symm
  | cons c as ih => rw [List.cons_append, fronts, fronts, ih, List.append_assoc]

def bareSteps (calls : List Call) : List Step := calls.map fun c => c.step.bare

theorem bareSteps_append (as bs : List Call) :
    bareSteps (as ++ bs) = bareSteps as ++ bareSteps bs :=
  List.map_append

/-! ## Passes -/

def keeping (ns : List Node) : List Step := ns.map (⟨·, .keep⟩)

mutual

/-- The steps of a pass over a tree, and what is left of it. -/
inductive Passes : Node → List Step → List Node → Prop
  | keep {head : Head} {form : Form} {slots slots' : List (List Node)} {steps : List Step}
      (h : PassesSlots slots steps slots') :
      Passes (.mk head form slots) (⟨.mk head form slots, .keep⟩ :: steps)
        [.mk head form slots']
  | replace {n new : Node} : Passes n (⟨n, .replace new⟩ :: keeping (nodesOfSlots new.slots)) [new]
  | remove {n : Node} : Passes n [⟨n, .remove⟩] []

inductive PassesSlots : List (List Node) → List Step → List (List Node) → Prop
  | nil : PassesSlots [] [] []
  | cons {ns ns' : List Node} {slots slots' : List (List Node)} {steps steps' : List Step}
      (h : PassesAll ns steps ns') (hs : PassesSlots slots steps' slots') :
      PassesSlots (ns :: slots) (steps ++ steps') (ns' :: slots')

inductive PassesAll : List Node → List Step → List Node → Prop
  | nil : PassesAll [] [] []
  | cons {n : Node} {left ns ns' : List Node} {steps steps' : List Step} (h : Passes n steps left)
      (hs : PassesAll ns steps' ns') : PassesAll (n :: ns) (steps ++ steps') (left ++ ns')

end

mutual

theorem Passes.kept : ∀ {n : Node} {steps : List Step} {left : List Node}, Passes n steps left →
    (∀ s ∈ steps, s.decision = .keep) → steps = keeping n.nodes ∧ left = [n]
  | .mk head form slots, _, _, h, hkeep => by
    cases h with
    | keep h =>
      obtain ⟨rfl, rfl⟩ := PassesSlots.kept h (List.forall_mem_cons.1 hkeep).2
      exact ⟨rfl, rfl⟩
    | replace => cases (List.forall_mem_cons.1 hkeep).1
    | remove => cases (List.forall_mem_cons.1 hkeep).1

theorem PassesSlots.kept : ∀ {slots : List (List Node)} {steps : List Step}
    {left : List (List Node)}, PassesSlots slots steps left →
    (∀ s ∈ steps, s.decision = .keep) → steps = keeping (nodesOfSlots slots) ∧ left = slots
  | [], _, _, h, _ => by
    cases h
    exact ⟨rfl, rfl⟩
  | ns :: slots, _, _, h, hkeep => by
    cases h with
    | cons h hs =>
      obtain ⟨hkeep, hkeeps⟩ := List.forall_mem_append.1 hkeep
      obtain ⟨rfl, rfl⟩ := PassesAll.kept h hkeep
      obtain ⟨rfl, rfl⟩ := PassesSlots.kept hs hkeeps
      exact ⟨List.map_append.symm, rfl⟩

theorem PassesAll.kept : ∀ {ns : List Node} {steps : List Step} {left : List Node},
    PassesAll ns steps left → (∀ s ∈ steps, s.decision = .keep) →
    steps = keeping (nodesOfList ns) ∧ left = ns
  | [], _, _, h, _ => by
    cases h
    exact ⟨rfl, rfl⟩
  | n :: ns, _, _, h, hkeep => by
    cases h with
    | cons h hs =>
      obtain ⟨hkeep, hkeeps⟩ := List.forall_mem_append.1 hkeep
      obtain ⟨rfl, rfl⟩ := Passes.kept h hkeep
      obtain ⟨rfl, rfl⟩ := PassesAll.kept hs hkeeps
      exact ⟨List.map_append.symm, rfl⟩

end

/-! ## Visitors -/

/-- A node with the slots of its form. -/
def IsShaped (n : Node) : Prop := n.slots.length = n.form.slots.length

/-- A node that the visitor keeps wherever it stands. -/
structure IsKept (visitor : Visitor σ) (n : Node) : Prop where
  shaped : IsShaped n
  keep {position : Option Node.Position} {body : Body} {m m' : σ} {a : Answer}
    (h : Answers visitor ⟨n, position, body⟩ m a m') : a.decision = .keep

/-- The visitor answers everywhere. -/
def Answering (visitor : Visitor σ) : Prop :=
  ∀ (v : Visit) (m : σ), ∃ a m', Answers visitor v m a m'

/-- At the root no decision but to keep it fits, and at a statement of the program a replacement
fits only before other statements come in front of it. -/
def Answer.Fits (a : Answer) : Option Node.Position → Prop
  | none => a.decision = .keep
  | some ⟨"body", some _⟩ => ∀ new, a.decision = .replace new → a.before = []
  | some _ => True

theorem Answer.fits_of_keep {a : Answer} {position : Option Node.Position}
    (h : a.decision = .keep) : a.Fits position := by
  unfold Fits
  split
  · exact h
  · intro new hnew
    cases h.symm.trans hnew
  · trivial

theorem Answer.fits_of_remove {a : Answer} {position : Option Node.Position}
    (hposition : position.isSome) (h : a.decision = .remove) : a.Fits position := by
  unfold Fits
  split
  · cases hposition
  · intro new hnew
    cases h.symm.trans hnew
  · trivial

/-- The visitor gives answers that fit everywhere, and it keeps the nodes below its replacements. -/
structure Orderly (visitor : Visitor σ) : Prop where
  answering : Answering visitor
  fits {v : Visit} {m m' : σ} {a : Answer} (h : Answers visitor v m a m') : a.Fits v.position
  front {v : Visit} {m m' : σ} {a : Answer} (h : Answers visitor v m a m') :
    ∀ x ∈ nodesOfList a.fronts, IsShaped x
  replacement {v : Visit} {m m' : σ} {a : Answer} {new : Node} (h : Answers visitor v m a m')
    (hnew : a.decision = .replace new) :
    IsShaped new ∧ ∀ x ∈ nodesOfSlots new.slots, IsKept visitor x

/-! ## Visitors without a memory -/

/-- The visitor that gives these answers. -/
def ofAnswers (answer : Visit → Answer) : Visitor σ := fun v => pure (answer v).edits

section

variable {answer : Visit → Answer} {a b : Answer} {v : Visit} {m m' : σ}

theorem answers_ofAnswers : Answers (ofAnswers answer) v m a m' ↔
    a.edits = (answer v).edits ∧ m' = m := by
  change (Except.ok (answer v).edits, m) = (Except.ok a.edits, m') ↔ _
  rw [Prod.mk.injEq, Except.ok.injEq]
  exact and_congr eq_comm eq_comm

/-- The statement that an edit puts in front of the program. -/
def front? : Edit → Option Node
  | .insertFront n => some n
  | _ => none

theorem front?_edits (d : Decision) : d.edits.filterMap front? = [] := by
  cases d <;> rfl

theorem front?_insertFront (n : Node) : front? (.insertFront n) = some n := rfl

/-- The edits say what is put in front of the program. -/
theorem fronts_of_edits (h : a.edits = b.edits) : a.fronts = b.fronts := by
  have hfronts (a : Answer) : a.fronts = (a.edits.filterMap front?).reverse := by
    simp [Answer.edits, Answer.fronts, front?_edits, front?_insertFront, List.filterMap_map,
      Function.comp_def]
  rw [hfronts, h, ← hfronts]

theorem decision_of_edits (h : a.edits = b.edits) : a.decision = b.decision := by
  have hdecision (a : Answer) :
      a.decision.edits = a.edits.filter fun edit => (front? edit).isNone := by
    cases hd : a.decision <;>
      simp [Answer.edits, hd, Decision.edits, front?, List.filter_map, Function.comp_def]
  have hedits : a.decision.edits = b.decision.edits := by rw [hdecision, h, ← hdecision]
  cases ha : a.decision <;> cases hb : b.decision <;> simp_all [Decision.edits]

theorem Answer.Fits.of_edits {position : Option Node.Position} (h : a.edits = b.edits)
    (hb : b.Fits position) : a.Fits position := by
  have hd := decision_of_edits h
  unfold Fits at *
  split at hb
  · exact hd.trans hb
  · intro new hnew
    have hbefore := hb new (hd ▸ hnew)
    rw [edits, edits, hbefore, ← hd, hnew] at h
    cases hab : a.before with
    | nil => rfl
    | cons n before =>
      rw [hab] at h
      cases (List.cons.inj h).1
  · trivial

/-- Answers that fit are those of an orderly visitor if the nodes below the replacements are
kept. -/
theorem orderly_ofAnswers (hfits : ∀ v, (answer v).Fits v.position)
    (hfront : ∀ v, ∀ x ∈ nodesOfList (answer v).fronts, IsShaped x)
    (hreplacement : ∀ v new, (answer v).decision = .replace new →
      IsShaped new ∧ ∀ x ∈ nodesOfSlots new.slots,
        IsShaped x ∧ ∀ position body, (answer ⟨x, position, body⟩).decision = .keep) :
    Orderly (ofAnswers answer : Visitor σ) where
  answering v m := ⟨answer v, m, answers_ofAnswers.2 ⟨rfl, rfl⟩⟩
  fits h := (hfits _).of_edits (answers_ofAnswers.1 h).1
  front h := by
    rw [fronts_of_edits (answers_ofAnswers.1 h).1]
    exact hfront _
  replacement h hnew := by
    rw [decision_of_edits (answers_ofAnswers.1 h).1] at hnew
    obtain ⟨hshaped, hbelow⟩ := hreplacement _ _ hnew
    refine ⟨hshaped, fun x hx => ⟨(hbelow x hx).1, fun h => ?_⟩⟩
    rw [decision_of_edits (answers_ofAnswers.1 h).1]
    exact (hbelow x hx).2 _ _

end

end Traversal

end InlineTemplates
