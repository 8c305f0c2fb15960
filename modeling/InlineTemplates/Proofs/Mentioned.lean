import InlineTemplates.Proofs.References

/-!
# The names that a tree mentions

The name of a reference and all names that the scopes around it bind are mentioned in the tree. So a
name that the tree does not mention is free at each of its references.
-/

namespace InlineTemplates

open Scope

/-- Whether a tree mentions a name, as a reference or as a declaration. -/
def Mentioned (n : Node) (x : Text) : Prop := ∃ m ∈ n.nodes, m.ident? = some x

variable {n m : Node} {slot : List Node} {slots : List (List Node)} {x : Text}

/-! ## Nodes below a node -/

theorem mem_nodesOfList {ns : List Node} : m ∈ Node.nodesOfList ns ↔ ∃ n ∈ ns, m ∈ n.nodes := by
  induction ns with
  | nil => simp [Node.nodesOfList]
  | cons n rest ih => simp [Node.nodesOfList, ih]

theorem mem_nodesOfSlots :
    m ∈ Node.nodesOfSlots slots ↔ ∃ slot ∈ slots, ∃ n ∈ slot, m ∈ n.nodes := by
  induction slots with
  | nil => simp [Node.nodesOfSlots]
  | cons slot rest ih => simp [Node.nodesOfSlots, ih, mem_nodesOfList]

theorem mentioned_of_ident? (h : n.ident? = some x) : Mentioned n x := by
  refine ⟨n, ?_, h⟩
  obtain ⟨head, form, slots⟩ := n
  rw [Node.nodes]
  exact List.mem_cons_self

theorem mentioned_of_child (hslot : slot ∈ n.slots) (hm : m ∈ slot) (h : Mentioned m x) :
    Mentioned n x := by
  obtain ⟨inner, hinner, hx⟩ := h
  obtain ⟨head, form, slots⟩ := n
  refine ⟨inner, ?_, hx⟩
  rw [Node.nodes]
  exact List.mem_cons_of_mem _ (mem_nodesOfSlots.mpr ⟨slot, hslot, m, hm, hinner⟩)

theorem mentioned_iff :
    Mentioned n x ↔ n.ident? = some x ∨ ∃ slot ∈ n.slots, ∃ m ∈ slot, Mentioned m x := by
  constructor
  · rintro ⟨m, hm, hx⟩
    obtain ⟨head, form, slots⟩ := n
    rw [Node.nodes, List.mem_cons, mem_nodesOfSlots] at hm
    obtain rfl | ⟨slot, hslot, inner, hinner, hm⟩ := hm
    · exact .inl hx
    · exact .inr ⟨slot, hslot, inner, hinner, m, hm, hx⟩
  · rintro (hx | ⟨slot, hslot, m, hm, hx⟩)
    · exact mentioned_of_ident? hx
    · exact mentioned_of_child hslot hm hx

theorem mentioned_name {head : Head} {ident : Text} :
    Mentioned (.name head ident) x ↔ ident = x := by
  rw [mentioned_iff]
  simp only [Node.ident?, Node.slots, Option.some.injEq, List.not_mem_nil, false_and, exists_false,
    or_false]

/-! ## Names of declarations -/

theorem mentioned_of_idents {names : List Node} (hslot : names ∈ n.slots) (h : x ∈ idents names) :
    Mentioned n x := by
  obtain ⟨m, hm, hx⟩ := List.mem_filterMap.mp h
  exact mentioned_of_child hslot hm (mentioned_of_ident? hx)

theorem mentioned_of_paramName? (h : paramName? n = some x) : Mentioned n x := by
  unfold paramName? at h
  split at h
  · exact mentioned_of_child List.mem_cons_self List.mem_cons_self (mentioned_of_ident? h)
  · cases h

theorem mentioned_of_declaratorName? (h : declaratorName? n = some x) : Mentioned n x := by
  unfold declaratorName? at h
  split at h
  · exact mentioned_of_child List.mem_cons_self List.mem_cons_self (mentioned_of_ident? h)
  · cases h

theorem mentioned_of_localName? (h : localName? n = some x) : Mentioned n x := by
  unfold localName? at h
  split at h
  · exact mentioned_of_child List.mem_cons_self List.mem_cons_self (mentioned_of_ident? h)
  · exact mentioned_of_child List.mem_cons_self List.mem_cons_self (mentioned_of_ident? h)
  · exact mentioned_of_child (List.mem_cons_of_mem _ List.mem_cons_self) List.mem_cons_self
      (mentioned_of_ident? h)
  · cases h

theorem mentioned_of_declaratorNames {declarations : List Node} (hslot : declarations ∈ n.slots)
    (h : x ∈ declaratorNames declarations) : Mentioned n x := by
  obtain ⟨m, hm, hx⟩ := List.mem_filterMap.mp h
  exact mentioned_of_child hslot hm (mentioned_of_declaratorName? hx)

theorem mentioned_of_paramNames {params : List Node} (hslot : params ∈ n.slots)
    (h : x ∈ paramNames params) : Mentioned n x := by
  obtain ⟨m, hm, hx⟩ := List.mem_filterMap.mp h
  exact mentioned_of_child hslot hm (mentioned_of_paramName? hx)

theorem mem_hoistedAll {ns : List Node} : x ∈ hoistedAll ns ↔ ∃ n ∈ ns, x ∈ hoisted n := by
  induction ns with
  | nil => simp [hoistedAll]
  | cons n rest ih => simp [hoistedAll, ih]

theorem mentioned_of_hoisted (n : Node) (h : x ∈ hoisted n) : Mentioned n x := by
  induction n using Node.induct with
  | step n ih =>
    have below : ∀ slot ∈ n.slots, ∀ m ∈ slot, x ∈ hoisted m → Mentioned n x :=
      fun slot hslot m hm hx => mentioned_of_child hslot hm (ih slot hslot m hm hx)
    have all : ∀ slot ∈ n.slots, x ∈ hoistedAll slot → Mentioned n x := by
      intro slot hslot hx
      obtain ⟨m, hm, hx⟩ := mem_hoistedAll.mp hx
      exact below slot hslot m hm hx
    clear ih
    revert h below all
    fun_cases hoisted n
    all_goals
      intro h below all
      simp only [Node.slots, List.mem_cons, List.not_mem_nil, or_false, forall_eq_or_imp,
        forall_eq] at below all
    all_goals try simp only [List.mem_append] at h
    case case1 => exact mentioned_of_declaratorNames List.mem_cons_self h
    case case2 => exact absurd h List.not_mem_nil
    case case3 => exact all h
    case case4 => exact h.elim below.2.1 all.2.2
    case case5 => exact h.elim all.1 below.2.2.2
    case case6 =>
      refine h.elim (fun h => ?_) below.2.2
      split at h
      · exact mentioned_of_child List.mem_cons_self List.mem_cons_self
          (mentioned_of_ident? (Option.mem_toList.mp h))
      · exact absurd h List.not_mem_nil
    case case7 => exact below.2 h
    case case8 => exact below.1 h
    case case9 => exact h.elim (fun h => h.elim below.1 all.2.1) all.2.2
    case case10 => exact below.2 h
    case case11 => exact absurd h List.not_mem_nil

theorem mentioned_of_declaration (h : Mentioned (declaration n) x) : Mentioned n x := by
  unfold declaration at h
  split at h
  · exact mentioned_of_child List.mem_cons_self List.mem_cons_self h
  · exact h

theorem mentioned_of_declaredBy (h : x ∈ declaredBy n) : Mentioned n x := by
  apply mentioned_of_declaration
  unfold declaredBy at h
  split at h
  · next specifiers _ hn =>
    obtain ⟨m, hm, hx⟩ := List.mem_filterMap.mp h
    rw [hn]
    exact mentioned_of_child List.mem_cons_self hm (mentioned_of_localName? hx)
  · next hn =>
    rw [hn]
    exact mentioned_of_child List.mem_cons_self List.mem_cons_self
      (mentioned_of_ident? (Option.mem_toList.mp h))
  · next hn =>
    rw [hn]
    exact mentioned_of_idents List.mem_cons_self h
  · next hn =>
    rw [hn]
    split at h
    · exact absurd h List.not_mem_nil
    · exact mentioned_of_declaratorNames List.mem_cons_self h
  · exact absurd h List.not_mem_nil

theorem mentioned_of_declaredInBlock {statements : List Node} (hslot : statements ∈ n.slots)
    (h : x ∈ declaredInBlock statements) : Mentioned n x := by
  obtain ⟨m, hm, hx⟩ := List.mem_flatMap.mp h
  exact mentioned_of_child hslot hm (mentioned_of_declaredBy hx)

theorem mentioned_of_declared {statements : List Node} (hslot : statements ∈ n.slots)
    (h : x ∈ declared statements) : Mentioned n x := by
  rcases List.mem_append.mp h with h | h
  · exact mentioned_of_declaredInBlock hslot h
  · obtain ⟨m, hm, hx⟩ := List.mem_flatMap.mp h
    exact mentioned_of_child hslot hm (mentioned_of_declaration (mentioned_of_hoisted _ hx))

theorem mentioned_of_ownNames (h : x ∈ ownNames n) : Mentioned n x := by
  unfold ownNames at h
  split at h
  · exact mentioned_of_idents List.mem_cons_self h
  · exact mentioned_of_idents List.mem_cons_self h
  · exact absurd h List.not_mem_nil

theorem mentioned_of_defaultNames (h : x ∈ defaultNames n) : Mentioned n x := by
  unfold defaultNames at h
  split at h
  · exact mentioned_of_child List.mem_cons_self List.mem_cons_self (mentioned_of_ownNames h)
  · exact absurd h List.not_mem_nil

theorem mentioned_of_bodyNames (h : x ∈ bodyNames n) : Mentioned n x := by
  unfold bodyNames at h
  split at h
  · exact mentioned_of_declared List.mem_cons_self h
  · exact absurd h List.not_mem_nil

/-! ## Scopes -/

theorem mem_of_mem_loopNames {kind : VarKind} {names : List Text} (h : x ∈ loopNames kind names) :
    x ∈ names := by
  unfold loopNames at h
  split at h
  · exact absurd h List.not_mem_nil
  · exact h

theorem mentioned_of_initialNames {initial : List Node} (hslot : initial ∈ n.slots)
    (h : x ∈ initialNames initial) : Mentioned n x := by
  unfold initialNames at h
  split at h
  · refine mentioned_of_child hslot List.mem_cons_self ?_
    unfold initialName at h
    split at h
    · exact mentioned_of_declaratorNames List.mem_cons_self (mem_of_mem_loopNames h)
    · exact absurd h List.not_mem_nil
  · exact absurd h List.not_mem_nil

theorem mentioned_of_functionScopes {own : List Text} {params : List Node} {body : Node}
    {scope : Env} (hown : x ∈ own → Mentioned n x) (hparams : params ∈ n.slots)
    (hbody : [body] ∈ n.slots)
    (hscope : scope = paramScope own params body ∨ scope = bodyScope own params body)
    (h : scope.Binds x) : Mentioned n x := by
  have hparam : x ∈ paramNames params → Mentioned n x := mentioned_of_paramNames hparams
  rcases hscope with rfl | rfl
  · simp only [Env.Binds, paramScope, List.mem_append, List.not_mem_nil, or_false] at h
    exact h.elim hown hparam
  · simp only [Env.Binds, bodyScope, List.mem_append, List.not_mem_nil, or_false] at h
    refine h.elim hown fun h => h.elim hparam fun h => ?_
    exact mentioned_of_child hbody List.mem_cons_self (mentioned_of_bodyNames h)

theorem inner_binds_iff (names : List Text) : Env.Binds ⟨names, [], []⟩ x ↔ x ∈ names :=
  or_iff_left List.not_mem_nil

theorem early_binds_iff (names : List Text) : Env.Binds ⟨[], names, []⟩ x ↔ x ∈ names :=
  or_iff_right List.not_mem_nil

theorem plain_binds_not : ¬ Env.plain.Binds x :=
  not_or.mpr ⟨List.not_mem_nil, List.not_mem_nil⟩

/-- What a scope in a node binds is mentioned in the node. -/
theorem mentioned_of_scope {scope : Env} (hscope : some scope ∈ slotScopes n)
    (h : scope.Binds x) : Mentioned n x := by
  revert hscope
  fun_cases slotScopes n
  all_goals
    intro hscope
    simp only [List.mem_cons, List.not_mem_nil, reduceCtorEq, Option.some.injEq, or_false,
      false_or, some_eq_plainIf, List.mem_map] at hscope
  case case1 =>
    exact mentioned_of_functionScopes (mentioned_of_idents (by simp [Node.slots]))
      (by simp [Node.slots]) (by simp [Node.slots]) hscope h
  case case2 =>
    exact mentioned_of_functionScopes (absurd · List.not_mem_nil) (by simp [Node.slots])
      (by simp [Node.slots]) hscope h
  case case3 =>
    exact mentioned_of_functionScopes (absurd · List.not_mem_nil) (by simp [Node.slots])
      (by simp [Node.slots]) hscope h
  case case4 =>
    rcases hscope with ⟨-, rfl⟩ | hscope
    · exact absurd h plain_binds_not
    · exact mentioned_of_functionScopes (absurd · List.not_mem_nil) (by simp [Node.slots])
        (by simp [Node.slots]) hscope h
  case case5 =>
    rcases hscope with ⟨-, rfl⟩ | hscope
    · exact absurd h plain_binds_not
    · exact mentioned_of_functionScopes (absurd · List.not_mem_nil) (by simp [Node.slots])
        (by simp [Node.slots]) hscope h
  case case6 => exact absurd (hscope ▸ h) plain_binds_not
  case case7 =>
    rcases hscope with rfl | rfl
    · exact mentioned_of_idents List.mem_cons_self ((early_binds_iff _).mp h)
    · exact mentioned_of_idents List.mem_cons_self ((inner_binds_iff _).mp h)
  case case8 => rcases hscope with rfl | rfl <;> exact absurd h plain_binds_not
  case case9 => rcases hscope with ⟨-, rfl⟩ | rfl <;> exact absurd h plain_binds_not
  case case10 => rcases hscope with ⟨-, rfl⟩ | rfl <;> exact absurd h plain_binds_not
  case case11 =>
    subst hscope
    exact mentioned_of_declaredInBlock List.mem_cons_self ((inner_binds_iff _).mp h)
  case case12 =>
    rcases hscope with rfl | rfl | rfl | rfl <;>
      exact mentioned_of_initialNames List.mem_cons_self ((inner_binds_iff _).mp h)
  case case13 =>
    rcases hscope with rfl | rfl
    · have hname := mem_of_mem_loopNames ((early_binds_iff _).mp h)
      exact mentioned_of_child List.mem_cons_self List.mem_cons_self
        (mentioned_of_ident? (Option.mem_toList.mp hname))
    · have hname := mem_of_mem_loopNames ((inner_binds_iff _).mp h)
      exact mentioned_of_child List.mem_cons_self List.mem_cons_self
        (mentioned_of_ident? (Option.mem_toList.mp hname))
  case case14 => exact absurd (hscope ▸ h) plain_binds_not
  case case15 =>
    subst hscope
    exact mentioned_of_idents List.mem_cons_self ((inner_binds_iff _).mp h)
  case case20 => rcases hscope with rfl | ⟨-, rfl⟩ <;> exact absurd h plain_binds_not
  case case21 => exact absurd (hscope.2 ▸ h) plain_binds_not
  case case22 =>
    obtain ⟨_, _, rfl⟩ := hscope
    exact absurd h plain_binds_not

/-! ## References -/

def NamesMentioned (P : Text → Prop) (e : Env) (r : Reference) : Prop :=
  P r.name ∧ ∀ x, r.env.Binds x → e.Binds x ∨ P x

mutual

theorem reference_mentioned (P : Text → Prop) : ∀ (n : Node) (e : Env),
    (∀ x, Mentioned n x → P x) → ∀ r ∈ n.references e, NamesMentioned P e r
  | .mk head form slots, e, hP, r, hr => by
    cases hi : (Node.mk head form slots).ident? with
    | some i =>
      have hi' := hP i (mentioned_of_ident? hi)
      obtain ⟨_, hn⟩ := Node.eq_name_of_ident? hi
      rw [hn, Node.references, List.mem_singleton] at hr
      rw [hr]
      exact ⟨hi', fun x hx => .inl hx⟩
    | none =>
      rw [Node.references_eq_slots hi] at hr
      exact slots_mentioned P slots _ e
        (fun slot hslot m hm x hx => hP x (mentioned_of_child hslot hm hx))
        (fun scope hscope x hx => hP x (mentioned_of_scope hscope hx)) r hr

theorem slots_mentioned (P : Text → Prop) :
    ∀ (slots : List (List Node)) (scopes : List (Option Env))
    (e : Env), (∀ slot ∈ slots, ∀ m ∈ slot, ∀ x, Mentioned m x → P x) →
    (∀ scope, some scope ∈ scopes → ∀ x, scope.Binds x → P x) →
    ∀ r ∈ Node.referencesOfSlots e scopes slots, NamesMentioned P e r
  | slot :: rest, some scope :: scopes, e, hslots, hscopes, r, hr => by
    rw [Node.referencesOfSlots, List.mem_append] at hr
    rw [List.forall_mem_cons] at hslots
    obtain hr | hr := hr
    · have h := list_mentioned P slot (e.enter scope) hslots.1 r hr
      refine ⟨h.1, fun x hx => (h.2 x hx).elim (fun hx => ?_) .inr⟩
      rw [Env.binds_enter] at hx
      exact hx.elim (fun hx => .inr (hscopes scope List.mem_cons_self x hx)) .inl
    · exact slots_mentioned P rest scopes e hslots.2
        (fun s hs => hscopes s (List.mem_cons_of_mem _ hs)) r hr
  | slot :: rest, none :: scopes, e, hslots, hscopes, r, hr => by
    rw [Node.referencesOfSlots] at hr
    rw [List.forall_mem_cons] at hslots
    exact slots_mentioned P rest scopes e hslots.2
      (fun s hs => hscopes s (List.mem_cons_of_mem _ hs)) r hr
  | [], _, e, _, _, r, hr => by simp [Node.referencesOfSlots] at hr
  | _ :: _, [], e, _, _, r, hr => by simp [Node.referencesOfSlots] at hr

theorem list_mentioned (P : Text → Prop) : ∀ (ns : List Node) (e : Env),
    (∀ m ∈ ns, ∀ x, Mentioned m x → P x) →
    ∀ r ∈ Node.referencesOfList e ns, NamesMentioned P e r
  | [], _, _, r, hr => by simp [Node.referencesOfList] at hr
  | n :: rest, e, hns, r, hr => by
    rw [Node.referencesOfList, List.mem_append] at hr
    rw [List.forall_mem_cons] at hns
    obtain hr | hr := hr
    · exact reference_mentioned P n e hns.1 r hr
    · exact list_mentioned P rest e hns.2 r hr

end

end InlineTemplates
