import Mathlib.Algebra.GroupWithZero.Nat
import InlineTemplates.Proofs.Constructions

/-!
# Chains and their parentheses

A chain is a name with accesses and calls behind it, of which some are optional, and with
parentheses around any of its prefixes. Where the value in front of an optional one is nullish, the
steps from there on are skipped, up to the end of the chain or to the closing parenthesis of the
prefix. A tree says of each step whether it is optional and nothing of parentheses, so a chain is
printed without them: each optional step then reaches up to the end of the chain.
-/

namespace InlineTemplates

open Grammar

/-! ## Texts and places -/

namespace Form

theorem eq_of_unplaced {f g : Form} (h : f.unplaced = g.unplaced)
    (hg : ∀ stop trailing, g ≠ .block stop trailing ∧ g ≠ .classBody stop trailing) : f = g := by
  have hgood : g.unplaced = g := by
    cases g with
    | block stop trailing => exact absurd rfl (hg stop trailing).1
    | classBody stop trailing => exact absurd rfl (hg stop trailing).2
    | _ => rfl
  rw [hgood] at h
  cases f with
  | block stop trailing => exact absurd h.symm (hg none trailing).1
  | classBody stop trailing => exact absurd h.symm (hg none trailing).2
  | _ => exact h

end Form

namespace Node

variable {n e : Node} {loc : Option Location} {form : Form} {slots : List (List Node)}

theorem unplacedOfSlots_eq_map (slots : List (List Node)) :
    unplacedOfSlots slots = slots.map (·.map unplaced) := by
  induction slots with
  | nil => rfl
  | cons slot slots ih => rw [unplacedOfSlots, ih, List.map_cons, unplacedOfList_eq_map]

theorem exists_of_unplaced (h : n.unplaced = (mk ⟨loc, []⟩ form slots).unplaced)
    (hform : ∀ stop trailing, form ≠ .block stop trailing ∧ form ≠ .classBody stop trailing) :
    ∃ loc' slots', n = mk ⟨loc', []⟩ form slots' ∧
      slots'.map (·.map unplaced) = slots.map (·.map unplaced) := by
  obtain ⟨⟨loc', comments⟩, form', slots'⟩ := n
  simp only [unplaced, mk.injEq, Head.mk.injEq, true_and, unplacedOfSlots_eq_map] at h
  obtain ⟨rfl, hforms, hslots⟩ := h
  obtain rfl := Form.eq_of_unplaced hforms hform
  exact ⟨loc', slots', rfl, hslots⟩

theorem one_of_unplaced {slots : List (List Node)}
    (h : slots.map (·.map unplaced) = [[e.unplaced]]) :
    ∃ a, slots = [[a]] ∧ a.unplaced = e.unplaced := by
  obtain ⟨slot, rfl, hslot⟩ := List.map_eq_singleton_iff.1 h
  obtain ⟨a, rfl, ha⟩ := List.map_eq_singleton_iff.1 hslot
  exact ⟨a, rfl, ha⟩

theorem cons_of_unplaced {slots rest : List (List Node)}
    (h : slots.map (·.map unplaced) = [e.unplaced] :: rest) :
    ∃ a slots', slots = [a] :: slots' ∧ a.unplaced = e.unplaced ∧
      slots'.map (·.map unplaced) = rest := by
  obtain ⟨slot, slots', rfl, hslot, hrest⟩ := List.map_eq_cons_iff.1 h
  obtain ⟨a, rfl, ha⟩ := List.map_eq_singleton_iff.1 hslot
  exact ⟨a, slots', rfl, ha, hrest⟩

theorem precedence_unplaced (n : Node) : Print.precedence n.unplaced = Print.precedence n := by
  obtain ⟨head, form, slots⟩ := n
  cases form <;> rfl

theorem comments_unplaced (n : Node) : n.unplaced.comments = n.comments := by
  obtain ⟨head, form, slots⟩ := n
  rfl

theorem placed_unplaced (least : Nat) (n : Node) (t : Text) :
    Print.placed least n.unplaced t = Print.placed least n t := by
  rw [Print.placed, precedence_unplaced, comments_unplaced, Print.placed]

theorem operand_unplaced (op : BinaryOp) (least : Nat) (n : Node) (t : Text) :
    Print.operand op least n.unplaced t = Print.operand op least n t := by
  have hplaced := placed_unplaced least n t
  obtain ⟨head, form, slots⟩ := n
  cases form with
  | binary inner =>
    change (if Print.mixesNullish op inner then _ else _) =
      if Print.mixesNullish op inner then _ else _
    rw [hplaced]
    rfl
  | _ => exact hplaced

end Node

namespace Print

open Node (unplaced exists_of_unplaced one_of_unplaced cons_of_unplaced)

variable {n e : Node} {t u : Text}

theorem placed_of_unplaced (hn : n.unplaced = e.unplaced) (ht : t = u) (least : Nat) :
    placed least n t = placed least e u := by
  rw [← Node.placed_unplaced, hn, Node.placed_unplaced, ht]

theorem operand_of_unplaced (hn : n.unplaced = e.unplaced) (ht : t = u) (op : BinaryOp)
    (least : Nat) : operand op least n t = operand op least e u := by
  rw [← Node.operand_unplaced, hn, Node.operand_unplaced, ht]

def Unplaced (level : Nat) (e : Node) : Prop :=
  ∀ n : Node, n.unplaced = e.unplaced → text level n = text level e

variable {level : Nat}

theorem Unplaced.placed (h : Unplaced level e) (hn : n.unplaced = e.unplaced) (least : Nat) :
    placed least n (text level n) = Print.placed least e (text level e) :=
  placed_of_unplaced hn (h n hn) least

theorem Unplaced.operand (h : Unplaced level e) (hn : n.unplaced = e.unplaced) (op : BinaryOp)
    (least : Nat) : operand op least n (text level n) = Print.operand op least e (text level e) :=
  operand_of_unplaced hn (h n hn) op least

theorem unplaced_element (h : Unplaced level e.elementValue) : Unplaced level e := by
  unfold Node.elementValue at h
  split at h
  · next loc value =>
    intro n hn
    obtain ⟨loc', slots, rfl, hslots⟩ := exists_of_unplaced hn (by simp)
    obtain ⟨a, rfl, ha⟩ := one_of_unplaced hslots
    exact congrArg (Text.ofString "..." ++ ·) (h.placed ha 1)
  · exact h

theorem map_of_unplaced {ns es : List Node} {f : Node → Text}
    (hns : ns.map unplaced = es.map unplaced)
    (h : ∀ e ∈ es, ∀ n : Node, n.unplaced = e.unplaced → f n = f e) : ns.map f = es.map f := by
  induction es generalizing ns with
  | nil =>
    obtain rfl := List.map_eq_nil_iff.1 hns
    rfl
  | cons e es ih =>
    obtain ⟨n, ns, rfl, hn, hns⟩ := List.map_eq_cons_iff.1 hns
    obtain ⟨he, hes⟩ := List.forall_mem_cons.1 h
    rw [List.map_cons, List.map_cons, he n hn, ih hns hes]

/-- A tree of operators has the same text whatever its places are. -/
theorem text_of_unplaced (h : e.IsOperatorTree) (level : Nat) : Unplaced level e := by
  induction h with
  | name | string | bool | null =>
    intro n hn
    obtain ⟨loc, slots, rfl, hslots⟩ := exists_of_unplaced hn (by simp)
    obtain rfl := List.map_eq_nil_iff.1 hslots
    rfl
  | unary op h ih =>
    intro n hn
    obtain ⟨loc, slots, rfl, hslots⟩ := exists_of_unplaced hn (by simp)
    obtain ⟨a, rfl, ha⟩ := one_of_unplaced hslots
    exact congrArg (Print.unary op) (ih.placed ha 10)
  | update op inFront h ih =>
    intro n hn
    obtain ⟨loc, slots, rfl, hslots⟩ := exists_of_unplaced hn (by simp)
    obtain ⟨a, rfl, ha⟩ := one_of_unplaced hslots
    exact congrArg (fun t => if inFront then op.text ++ t else t ++ op.text) (ih.placed ha 13)
  | binary op hl hr ihl ihr =>
    intro n hn
    obtain ⟨loc, slots, rfl, hslots⟩ := exists_of_unplaced hn (by simp)
    obtain ⟨a, slots, rfl, ha, hslots⟩ := cons_of_unplaced hslots
    obtain ⟨b, rfl, hb⟩ := one_of_unplaced hslots
    exact congrArg₂ (fun t u => t ++ " " ++ op.text ++ " " ++ u) (ihl.operand ha op _)
      (ihr.operand hb op _)
  | ternary hcondition hthen helse ihcondition ihthen ihelse =>
    intro n hn
    obtain ⟨loc, slots, rfl, hslots⟩ := exists_of_unplaced hn (by simp)
    obtain ⟨a, slots, rfl, ha, hslots⟩ := cons_of_unplaced hslots
    obtain ⟨b, slots, rfl, hb, hslots⟩ := cons_of_unplaced hslots
    obtain ⟨c, rfl, hc⟩ := one_of_unplaced hslots
    change Print.placed 3 a _ ++ " ? " ++ Print.placed 1 b _ ++ " : " ++ Print.placed 1 c _ = _
    rw [ihcondition.placed ha 3, ihthen.placed hb 1, ihelse.placed hc 1]
    rfl
  | assign op htarget hvalue ihtarget ihvalue =>
    intro n hn
    obtain ⟨loc, slots, rfl, hslots⟩ := exists_of_unplaced hn (by simp)
    obtain ⟨a, slots, rfl, ha, hslots⟩ := cons_of_unplaced hslots
    obtain ⟨b, rfl, hb⟩ := one_of_unplaced hslots
    exact congrArg₂ (fun t u => t ++ " " ++ op.text ++ " " ++ u) (ihtarget.placed ha 13)
      (ihvalue.placed hb 1)
  | call optional hfunc hargs ihfunc ihargs =>
    intro n hn
    obtain ⟨loc, slots, rfl, hslots⟩ := exists_of_unplaced hn (by simp)
    obtain ⟨a, slots, rfl, ha, hslots⟩ := cons_of_unplaced hslots
    obtain ⟨args, rfl, hmap⟩ := List.map_eq_singleton_iff.1 hslots
    rw [text_call, text_call, ihfunc.placed ha 13, map_of_unplaced hmap fun e he n hn =>
      (unplaced_element (ihargs e he)).placed hn 1]
  | attr optional hproperty h ih =>
    intro n hn
    obtain ⟨loc, slots, rfl, hslots⟩ := exists_of_unplaced hn (by simp)
    obtain ⟨a, rfl, ha⟩ := one_of_unplaced hslots
    exact congrArg (fun t => t ++ chain optional "." ++ _) (ih.placed ha 13)
  | index optional h hi ih ihi =>
    intro n hn
    obtain ⟨loc, slots, rfl, hslots⟩ := exists_of_unplaced hn (by simp)
    obtain ⟨a, slots, rfl, ha, hslots⟩ := cons_of_unplaced hslots
    obtain ⟨i, rfl, hi⟩ := one_of_unplaced hslots
    exact congrArg₂ (fun t u => t ++ chain optional [] ++ "[" ++ u ++ "]") (ih.placed ha 13)
      (ihi.placed hi 0)
  | array h ih =>
    intro n hn
    obtain ⟨loc, slots, rfl, hslots⟩ := exists_of_unplaced hn (by simp)
    obtain ⟨elements, rfl, hmap⟩ := List.map_eq_singleton_iff.1 hslots
    rw [text_array, text_array, map_of_unplaced hmap fun e he n hn =>
      (unplaced_element (ih e he)).placed hn 1]

end Print

/-! ## Steps -/

namespace Suffix

/-- Whether a nullish value in front of the step ends the chain. -/
def isOptional : Suffix → Bool
  | name optional _ | index optional _ | call optional _ => optional

variable {e : Node} {s : Suffix} {t : Text}

theorem precedence_on (head : Head) (e : Node) (s : Suffix) :
    Print.precedence (s.on head e) = Precedence.postfixed := by
  cases s <;> rfl

theorem text_on (level : Nat) (head : Head) (e : Node) (s : Suffix) :
    Print.text level (s.on head e) =
      Print.placed Precedence.postfixed e (Print.text level e) ++ s.text level := by
  cases s with
  | name optional property => exact List.append_assoc _ _ _
  | index optional i =>
    change _ ++ Print.chain optional [] ++ "[" ++ i.expressionText level 0 ++ "]" = _
    simp only [text, List.append_assoc]
  | call optional args =>
    rw [on, Print.text_call, List.append_assoc]
    rfl

theorem isOperatorTree_on (he : e.IsOperatorTree) (hs : s.IsOperators) :
    (s.on .fresh e).IsOperatorTree := by
  cases s with
  | name optional property => exact .attr optional hs he
  | index optional i => exact .index optional he hs
  | call optional args => exact .call optional he hs

theorem shows_on (he : Print.Shows Precedence.postfixed e t) (hs : s.IsOperators) (level : Nat) :
    Print.Shows Precedence.postfixed (s.on .fresh e) (t ++ s.text level) := by
  cases s with
  | name optional property =>
    rw [text, ← List.append_assoc]
    exact .attr optional hs he
  | index optional i =>
    have hi := (Print.shows_text hs level).placed (Print.comments_eq_nil hs) 0
    simp only [text, ← List.append_assoc]
    exact .index optional he hi
  | call optional args =>
    rw [text, ← List.append_assoc]
    exact .call optional he fun a ha =>
      Print.showsElement (hs a ha) level (Print.shows_text (hs a ha) level)

end Suffix

/-! ## Chains -/

/-- A name with accesses and calls behind it, of which any prefix may stand in parentheses. -/
inductive Chain where
  | name (x : Text)
  | step (c : Chain) (s : Suffix)
  | group (c : Chain)

namespace Chain

def text (level : Nat) : Chain → Text
  | name x => x
  | step c s => c.text level ++ s.text level
  | group c => Print.parenthesized (c.text level)

def tree : Chain → Node
  | name x => .name .fresh x
  | step c s => s.on .fresh c.tree
  | group c => c.tree

def bare : Chain → Chain
  | name x => name x
  | step c s => step c.bare s
  | group c => c.bare

/-- The name is an identifier, and inside the steps there are only trees of operators. -/
def IsOperators : Chain → Prop
  | name x => x.IsIdentifier
  | step c s => c.IsOperators ∧ s.IsOperators
  | group c => c.IsOperators

def steps : Chain → List Suffix
  | name _ => []
  | step c s => c.steps ++ [s]
  | group c => c.steps

/-- For each optional step how many steps are skipped with it, where `behind` steps stand behind
the chain. -/
def extents (behind : Nat) : Chain → List Nat
  | name _ => []
  | step c s => c.extents (behind + 1) ++ if s.isOptional then [behind + 1] else []
  | group c => c.extents 0

/-- Whether some parentheses close over an optional step. -/
def enclosesOptional : Chain → Bool
  | name _ => false
  | step c _ => c.enclosesOptional
  | group c => c.steps.any Suffix.isOptional

/-- No step stands behind parentheses that close over an optional step. -/
def Ungrouped : Chain → Prop
  | name _ => True
  | step c _ => c.enclosesOptional = false
  | group c => c.Ungrouped

variable {c : Chain} {level : Nat}

theorem steps_bare (c : Chain) : c.bare.steps = c.steps := by
  induction c with
  | name x => rfl
  | step c s ih => rw [bare, steps, ih, steps]
  | group c ih => exact ih

/-! ### What a chain is read as -/

theorem shows_tree (h : c.IsOperators) (level : Nat) :
    Print.Shows Precedence.postfixed c.tree (c.text level) := by
  induction c with
  | name x => exact (Print.Shows.name h).mono (by decide)
  | step c s ih => exact Suffix.shows_on (ih h.1) h.2 level
  | group c ih => exact (ih h).parenthesized _

theorem isOperatorTree_tree (h : c.IsOperators) : c.tree.IsOperatorTree := by
  induction c with
  | name x => exact .name h
  | step c s ih => exact Suffix.isOperatorTree_on (ih h.1) h.2
  | group c ih => exact ih h

theorem expressionText_tree (c : Chain) {least : Nat} (hleast : least ≤ Precedence.postfixed) :
    c.tree.expressionText level least = c.bare.text level := by
  induction c generalizing least with
  | name x =>
    have hlow : ¬Precedence.primary < least := by
      simp only [Precedence.primary, Precedence.postfixed] at hleast ⊢
      omega
    exact if_neg hlow
  | step c s ih =>
    have hcomments : (s.on .fresh c.tree).comments = [] := by cases s <;> rfl
    rw [tree, Node.expressionText, Print.placed, Suffix.precedence_on, hcomments,
      if_neg (Nat.not_lt.2 hleast), Suffix.text_on]
    exact congrArg (· ++ s.text level) (ih (Nat.le_refl _))
  | group c ih => exact ih hleast

/-! ### What is skipped -/

def optionals (c : Chain) : Nat := c.steps.countP Suffix.isOptional

theorem optionals_step (c : Chain) (s : Suffix) :
    (step c s).optionals = c.optionals + if s.isOptional then 1 else 0 := by
  rw [optionals, steps, List.countP_append, List.countP_singleton, optionals]

theorem length_extents (c : Chain) (behind : Nat) : (c.extents behind).length = c.optionals := by
  induction c generalizing behind with
  | name x => rfl
  | step c s ih =>
    rw [extents, optionals_step, List.length_append, ih]
    cases s.isOptional <;> rfl
  | group c ih => exact ih 0

theorem sum_extents_bare (c : Chain) (behind : Nat) :
    (c.bare.extents behind).sum = (c.bare.extents 0).sum + behind * c.optionals := by
  induction c generalizing behind with
  | name x => rfl
  | step c s ih =>
    rw [bare, extents, extents, List.sum_append, List.sum_append, ih, ih (0 + 1), optionals_step]
    cases s.isOptional <;> simp [Nat.mul_add, Nat.add_mul] <;> omega
  | group c ih => exact ih behind

theorem sum_extents_le (c : Chain) (behind : Nat) :
    (c.extents behind).sum ≤ (c.bare.extents behind).sum := by
  induction c generalizing behind with
  | name x => exact Nat.le_refl _
  | step c s ih =>
    rw [extents, bare, extents, List.sum_append, List.sum_append]
    exact Nat.add_le_add_right (ih _) _
  | group c ih =>
    have hbare := sum_extents_bare c behind
    have hle : (c.extents 0).sum ≤ (c.bare.extents 0).sum := ih 0
    change (c.extents 0).sum ≤ (c.bare.extents behind).sum
    omega

theorem optionals_pos {c : Chain} (h : c.steps.any Suffix.isOptional = true) :
    0 < c.optionals := by
  rw [optionals, List.countP_pos_iff]
  exact List.any_eq_true.1 h

/-- Parentheses over an optional step keep it from the steps behind the chain. -/
theorem sum_extents_lt {behind : Nat} (h : c.enclosesOptional = true) (hbehind : 0 < behind) :
    (c.extents behind).sum < (c.bare.extents behind).sum := by
  induction c generalizing behind with
  | name x => cases h
  | step c s ih =>
    rw [extents, bare, extents, List.sum_append, List.sum_append]
    exact Nat.add_lt_add_right (ih h (Nat.succ_pos behind)) _
  | group c ih =>
    have hbare := sum_extents_bare c behind
    have hle := sum_extents_le c 0
    have hmore : 0 < behind * c.optionals := Nat.mul_pos hbehind (optionals_pos h)
    change (c.extents 0).sum < (c.bare.extents behind).sum
    omega

theorem extents_of_plain (h : c.enclosesOptional = false) (behind : Nat) :
    c.bare.extents behind = c.extents behind := by
  induction c generalizing behind with
  | name x => rfl
  | step c s ih => rw [bare, extents, extents, ih h]
  | group c ih =>
    have hnone : c.optionals = 0 := by
      rw [optionals, List.countP_eq_zero]
      exact List.any_eq_false.1 h
    have hbare := length_extents c.bare behind
    have hgroup := length_extents c 0
    rw [optionals, steps_bare, ← optionals, hnone] at hbare
    rw [hnone] at hgroup
    rw [bare, extents, List.eq_nil_of_length_eq_zero hbare, List.eq_nil_of_length_eq_zero hgroup]

/-- The parentheses can go exactly if no step stands behind some that close over an optional
step. -/
theorem extents_bare_iff (c : Chain) : c.bare.extents 0 = c.extents 0 ↔ c.Ungrouped := by
  induction c with
  | name x => exact iff_of_true rfl trivial
  | step c s ih =>
    rw [Ungrouped]
    cases h : c.enclosesOptional with
    | false => exact iff_of_true (extents_of_plain (c := step c s) h 0) rfl
    | true =>
      have hlt := sum_extents_lt h (Nat.succ_pos 0)
      refine iff_of_false (fun heq => ?_) Bool.noConfusion
      rw [bare, extents, extents, List.append_cancel_right_eq] at heq
      exact absurd (congrArg List.sum heq.symm) (Nat.ne_of_lt hlt)
  | group c ih => exact ih

/-- A chain is printed from what it is read as without its parentheses. All steps are there, and
those that are optional reach as far as before exactly if no step stands behind parentheses that
close over an optional step. -/
theorem readExpression_text (h : c.IsOperators) (level : Nat) (file : Option Text) :
    (∃ n, Node.readExpression (c.text level) file = .ok n ∧ n.unplaced = c.tree.unplaced ∧
      n.expressionText level 0 = c.bare.text level) ∧
    c.bare.steps = c.steps ∧ (c.bare.extents 0 = c.extents 0 ↔ c.Ungrouped) := by
  obtain ⟨ws, hwrites, hmakes⟩ := shows_tree h level
  refine ⟨?_, steps_bare c, extents_bare_iff c⟩
  obtain ⟨n, hread, hn⟩ := Node.readExpression_of_writes hwrites (fun tokens htokens => by
    obtain ⟨n, hn, hderives⟩ := hmakes tokens htokens
    exact ⟨n, hn, hderives.assign.isRead⟩) file
  refine ⟨n, hread, hn, ?_⟩
  have htext := Print.text_of_unplaced (isOperatorTree_tree h) level
  rw [Node.expressionText, htext.placed hn, ← Node.expressionText]
  exact expressionText_tree c (Nat.zero_le _)

/-- The parentheses keep `.c` from the optional access, which is printed without them. -/
example : let c := step (group (step (name "a") (.name true "b"))) (.name false "c")
    c.text 0 = "(a?.b).c" ∧ c.bare.text 0 = "a?.b.c" ∧ c.extents 0 = [1] ∧
      c.bare.extents 0 = [2] := by
  decide

end Chain

end InlineTemplates
