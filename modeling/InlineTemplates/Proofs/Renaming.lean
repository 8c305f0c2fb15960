import InlineTemplates.Proofs.Alike

/-!
# Renaming a binding of the module

A renaming changes the references that it reaches, and no other. A reference is out of reach where a
scope hides the old name.
-/

namespace InlineTemplates

open Scope

namespace Scope

variable {old new : Text}

/-! ## Names -/

/-- A name before and after a renaming. -/
def Renamed (old new a b : Text) : Prop := b = a ∨ a = old ∧ b = new

theorem renamed_refl (a : Text) : Renamed old new a a := .inl rfl

theorem eq_of_renamed {xs ys : List Text} (h : List.Forall₂ (Renamed old new) xs ys)
    (hold : old ∉ xs) : ys = xs := by
  induction h with
  | nil => rfl
  | cons h _ ih =>
    rw [List.mem_cons, not_or] at hold
    obtain h | ⟨h, -⟩ := h
    · rw [h, ih hold.2]
    · exact absurd h.symm hold.1

theorem mem_of_renamed {xs ys : List Text} (h : List.Forall₂ (Renamed old new) xs ys) {x : Text}
    (hold : x ≠ old) (hnew : x ≠ new) : x ∈ ys ↔ x ∈ xs := by
  induction h with
  | nil => rfl
  | cons h _ ih =>
    rw [List.mem_cons, List.mem_cons, ih]
    obtain rfl | ⟨rfl, rfl⟩ := h
    · rfl
    · simp [hold, hnew]

/-! ## The tree -/

/-- Trees that differ only as a renaming may make them differ: in names, in an exported name that is
spelt out, and in a value that its property no longer shares with the key. -/
inductive Respelt (old new : Text) : Node → Node → Prop where
  | name {head : Head} {i i' : Text} : Renamed old new i i' →
    Respelt old new (.name head i) (.name head i')
  | mk {head : Head} {form : Form} {slots slots' : List (List Node)} :
    List.Forall₂ (List.Forall₂ (Respelt old new)) slots slots' →
    Respelt old new (.mk head form slots) (.mk head form slots')
  | exportSpecifier {head localHead : Head} {exported : List Node} :
    Respelt old new (.exportSpecifier head (.name localHead old) exported)
      (.exportSpecifier head (.name ⟨localHead.loc, []⟩ new)
        (if exported.isEmpty then [.name ⟨localHead.loc, []⟩ old] else exported))
  | property {head valueHead : Head} {computed : Bool} {key key' : Node} :
    Respelt old new key key' →
    Respelt old new (.property head computed true key (.name valueHead old))
      (.property head computed false key' (.name ⟨valueHead.loc, []⟩ new))

abbrev AllRespelt (old new : Text) : List Node → List Node → Prop :=
  List.Forall₂ (Respelt old new)

mutual

theorem respelt_refl : ∀ n : Node, Respelt old new n n
  | .mk _ _ slots => .mk (slotsRespelt_refl slots)

theorem slotsRespelt_refl :
    ∀ slots : List (List Node), List.Forall₂ (AllRespelt old new) slots slots
  | [] => .nil
  | slot :: rest => .cons (allRespelt_refl slot) (slotsRespelt_refl rest)

theorem allRespelt_refl : ∀ ns : List Node, AllRespelt old new ns ns
  | [] => .nil
  | n :: rest => .cons (respelt_refl n) (allRespelt_refl rest)

end

theorem allRespelt_map {f : Node → Node} {ns : List Node} (h : ∀ n ∈ ns, Respelt old new n (f n)) :
    AllRespelt old new ns (ns.map f) :=
  List.forall₂_map_right_iff.mpr (List.forall₂_same.mpr h)

theorem slotsRespelt_map {f : Node → Node} {slots : List (List Node)}
    (h : ∀ slot ∈ slots, ∀ n ∈ slot, Respelt old new n (f n)) :
    List.Forall₂ (AllRespelt old new) slots (slots.map (List.map f)) :=
  List.forall₂_map_right_iff.mpr
    (List.forall₂_same.mpr fun slot hslot => allRespelt_map (h slot hslot))

theorem one_respelt {a b : Node} (h : Respelt old new a b) : AllRespelt old new [a] [b] :=
  .cons h .nil

theorem alike_of_respelt {a b : Node} (h : Respelt old new a b) : Alike (Renamed old new) a b := by
  induction a using Node.induct generalizing b with
  | step a ih =>
    cases h with
    | name hi => exact .name hi
    | @mk head form slots slots' hs =>
      by_cases hname : ∃ i, form = .name i ∧ slots = []
      · obtain ⟨i, rfl, rfl⟩ := hname
        cases hs
        exact .name (renamed_refl i)
      · refine .mk ?_ fun i hi hslots => hname ⟨i, hi, hslots⟩
        have hslots := (List.forall₂_and_left _ _).mpr ⟨ih, hs⟩
        refine hslots.imp fun slot slot' h => ?_
        exact ((List.forall₂_and_left _ _).mpr h).imp fun m m' h => h.1 h.2
    | exportSpecifier => exact .exportSpecifier (.name (.inr ⟨rfl, rfl⟩))
    | property hkey =>
      exact .property (ih _ List.mem_cons_self _ List.mem_cons_self hkey) (.name (.inr ⟨rfl, rfl⟩))

theorem renameExport_respelt (n : Node) : Respelt old new n (renameExport old new n) := by
  unfold renameExport
  split
  · split
    · next h =>
      subst h
      exact .exportSpecifier
    · exact respelt_refl _
  · exact respelt_refl _

theorem renameExport_alike (n : Node) : Alike (Renamed old new) n (renameExport old new n) :=
  alike_of_respelt (renameExport_respelt n)

@[simp] theorem renameAll_eq_map (ns : List Node) :
    renameAll old new ns = ns.map (rename old new) := by
  induction ns with
  | nil => rfl
  | cons n rest ih => rw [renameAll, ih]; rfl

@[simp] theorem renameSlots_eq_map (slots : List (List Node)) :
    renameSlots old new slots = slots.map (List.map (rename old new)) := by
  induction slots with
  | nil => rfl
  | cons slot rest ih => rw [renameSlots, ih, renameAll_eq_map]; rfl

theorem renamed_ite (ident : Text) :
    Renamed old new ident (if ident = old then new else ident) := by
  split
  · next h => exact .inr ⟨h, rfl⟩
  · exact .inl rfl

theorem rename_respelt (n : Node) : Respelt old new n (rename old new n) := by
  induction n using Node.induct with
  | step n ih =>
    have key_respelt (computed : Bool) {key : Node} (h : Respelt old new key (rename old new key)) :
        Respelt old new key (if computed then rename old new key else key) := by
      cases computed <;> first | exact h | exact respelt_refl key
    revert ih
    fun_cases rename old new n
    all_goals
      simp only [Node.slots, List.mem_cons, List.not_mem_nil, or_false, forall_eq_or_imp, forall_eq,
        renameAll_eq_map, renameSlots_eq_map]
      intro ih
    case case1 => exact .name (renamed_ite _)
    case case2 =>
      exact .mk (.cons (one_respelt ih.1) (slotsRespelt_refl _))
    case case3 =>
      exact .mk (.cons (one_respelt ih.1) (.cons (allRespelt_map ih.2.1)
        (.cons (one_respelt ih.2.2) .nil)))
    case case4 =>
      exact .mk (.cons (one_respelt (key_respelt _ ih.1)) (slotsRespelt_refl _))
    case case5 =>
      exact .mk (.cons (one_respelt (key_respelt _ ih.1)) (.cons (allRespelt_map ih.2.1)
        (.cons (one_respelt ih.2.2) .nil)))
    case case6 =>
      exact .mk (.cons (one_respelt (key_respelt _ ih.1)) (slotsRespelt_refl _))
    case case7 =>
      exact .mk (.cons (one_respelt (key_respelt _ ih.1)) (.cons (allRespelt_map ih.2.1)
        (.cons (one_respelt ih.2.2) .nil)))
    case case8 =>
      exact .mk (.cons (allRespelt_refl _) (.cons (allRespelt_map ih.2.1) (slotsRespelt_refl _)))
    case case9 =>
      exact .mk (.cons (allRespelt_map ih.1) (.cons (allRespelt_map ih.2.1)
        (.cons (one_respelt ih.2.2) .nil)))
    case case10 =>
      exact .mk (.cons (one_respelt (key_respelt _ ih.1)) (.cons (allRespelt_map ih.2) .nil))
    case case11 =>
      exact .mk (.cons (allRespelt_refl _) (.cons (one_respelt ih.2.1) (slotsRespelt_refl _)))
    case case12 =>
      exact .mk (.cons (one_respelt ih.1) (.cons (one_respelt ih.2.1)
        (.cons (one_respelt ih.2.2) .nil)))
    case case13 _ hshort =>
      rw [Bool.and_eq_true, beq_iff_eq] at hshort
      obtain ⟨_, hvalue⟩ := Node.eq_name_of_ident? hshort.2
      rw [hshort.1, hvalue]
      exact .property (key_respelt _ ih.1)
    case case14 =>
      exact .mk (.cons (one_respelt (key_respelt _ ih.1)) (.cons (one_respelt ih.2) .nil))
    case case15 =>
      exact .mk (.cons (allRespelt_refl _) (.cons (one_respelt ih.2) .nil))
    case case16 =>
      refine .mk (.cons (allRespelt_map ih.1) (.cons ?_ (slotsRespelt_refl _)))
      split
      · exact allRespelt_map fun m _ => renameExport_respelt m
      · exact allRespelt_refl _
    case case17 => exact respelt_refl _
    case case18 => exact .mk (slotsRespelt_map ih)

theorem rename_alike (n : Node) : Alike (Renamed old new) n (rename old new n) :=
  alike_of_respelt (rename_respelt n)

/-! ## Mentioned names -/

theorem mentioned_renameExport {x : Text} (n : Node) (h : Mentioned (renameExport old new n) x) :
    Mentioned n x ∨ x = new := by
  unfold renameExport at h
  split at h
  · next head localHead ident exported =>
    split at h
    · next hident =>
      subst hident
      rw [mentioned_iff] at h ⊢
      simp only [Node.ident?, Node.slots, reduceCtorEq, false_or, List.mem_cons, List.not_mem_nil,
        or_false, exists_eq_or_imp, exists_eq_left, mentioned_name] at h ⊢
      obtain h | h := h
      · exact .inr h.symm
      · split at h
        · obtain ⟨m, hm, hx⟩ := h
          rw [List.mem_singleton.mp hm, mentioned_name] at hx
          exact .inl (.inl hx)
        · exact .inl (.inr h)
    · exact .inl h
  · exact .inl h

/-- Behind a renaming a tree mentions nothing but what it mentioned, and the new name. -/
theorem mentioned_rename {x : Text} (n : Node) (h : Mentioned (rename old new n) x) :
    Mentioned n x ∨ x = new := by
  induction n using Node.induct with
  | step n ih =>
    revert ih h
    fun_cases rename old new n
    all_goals
      intro ih h
      simp only [Node.slots, List.mem_cons, List.not_mem_nil, or_false, forall_eq_or_imp, forall_eq]
        at ih
      rw [mentioned_iff] at h ⊢
      simp only [Node.slots, List.mem_cons, List.not_mem_nil, or_false, exists_eq_or_imp,
        exists_eq_left, renameAll_eq_map, renameSlots_eq_map, List.mem_map,
        exists_exists_and_eq_and] at h ⊢
    case case13 =>
      simp only [Node.ident?, mentioned_name] at h ⊢
      grind
    case case16 =>
      have hspecifiers (m : Node) :
          Mentioned (renameExport old new m) x → Mentioned m x ∨ x = new :=
        mentioned_renameExport m
      simp only [Node.ident?] at h ⊢
      grind
    case case18 hname _ _ _ _ _ _ _ _ _ _ =>
      rw [Node.ident?_of_not_name fun ident hform hslots =>
        hname ident hform (List.map_eq_nil_iff.mp hslots)] at h
      grind
    all_goals simp only [Node.ident?] at h ⊢; grind

/-! ## Reach -/

/-- A reference after a renaming. -/
def retarget (old new : Text) (r : Reference) : Reference :=
  if r.name = old ∧ ¬ r.env.Hides old then { r with name := new } else r

theorem functionHides_iff (name : Text) (params : List Node) (body : Node) :
    functionHides name params body ↔ name ∈ paramNames params ∨ name ∈ bodyNames body := by
  unfold functionHides
  rw [Bool.or_eq_true]
  refine or_congr ?_ ?_
  · rw [List.any_eq_true, paramNames, List.mem_filterMap]
    refine exists_congr fun p => and_congr_right fun _ => ?_
    unfold paramName?
    split
    · exact beq_iff_eq
    · simp only [reduceCtorEq]
  · unfold bodyNames
    split
    · exact List.contains_iff_mem
    · simp only [Bool.false_eq_true, List.not_mem_nil]

theorem functionHides_iff_paramScope (params : List Node) (body : Node) :
    functionHides old params body ↔ (paramScope [] params body).Hides old :=
  functionHides_iff old params body

theorem functionHides_iff_bodyScope (params : List Node) (body : Node) :
    functionHides old params body ↔ (bodyScope [] params body).Hides old := by
  rw [functionHides_iff, ← List.mem_append]
  exact (or_iff_left List.not_mem_nil).symm

theorem retarget_of_hides {r : Reference} (h : r.env.Hides old) : retarget old new r = r :=
  if_neg fun hr => hr.2 h

mutual

theorem hides_of_mem (x : Text) :
    ∀ (n : Node) (e : Env), e.Hides x → ∀ r ∈ n.references e, r.env.Hides x
  | .mk head form slots, e, h, r, hr => by
    cases hi : (Node.mk head form slots).ident? with
    | none =>
      rw [Node.references_eq_slots hi] at hr
      exact hides_of_mem_slots x slots _ e h r hr
    | some i =>
      obtain ⟨_, hn⟩ := Node.eq_name_of_ident? hi
      rw [hn, Node.references, List.mem_singleton] at hr
      rw [hr]
      exact h

theorem hides_of_mem_slots (x : Text) :
    ∀ (slots : List (List Node)) (scopes : List (Option Env)) (e : Env), e.Hides x →
    ∀ r ∈ Node.referencesOfSlots e scopes slots, r.env.Hides x
  | slot :: rest, some scope :: scopes, e, h, r, hr => by
    rw [Node.referencesOfSlots, List.mem_append] at hr
    obtain hr | hr := hr
    · exact hides_of_mem_list x slot (e.enter scope) ((Env.hides_enter ..).mpr (.inr h)) r hr
    · exact hides_of_mem_slots x rest scopes e h r hr
  | slot :: rest, none :: scopes, e, h, r, hr => by
    rw [Node.referencesOfSlots] at hr
    exact hides_of_mem_slots x rest scopes e h r hr
  | [], _, e, h, r, hr => by simp [Node.referencesOfSlots] at hr
  | _ :: _, [], e, h, r, hr => by simp [Node.referencesOfSlots] at hr

theorem hides_of_mem_list (x : Text) : ∀ (ns : List Node) (e : Env), e.Hides x →
    ∀ r ∈ Node.referencesOfList e ns, r.env.Hides x
  | [], _, _, r, hr => by simp [Node.referencesOfList] at hr
  | n :: rest, e, h, r, hr => by
    rw [Node.referencesOfList, List.mem_append] at hr
    obtain hr | hr := hr
    · exact hides_of_mem x n e h r hr
    · exact hides_of_mem_list x rest e h r hr

end

theorem list_retarget_eq_self {ns : List Node} {e : Env} (h : e.Hides old) :
    (Node.referencesOfList e ns).map (retarget old new) = Node.referencesOfList e ns :=
  List.map_congr_left (fun r hr => retarget_of_hides (hides_of_mem_list old ns e h r hr)) |>.trans
    (List.map_id _)

/-! ## References -/

/-- Whether a renaming changes the references of `ns` to those of `ms`, where nothing hides the old
name. -/
def Retargets (old new : Text) (ns ms : List Node) : Prop :=
  ∀ e : Env, ¬ e.Hides old →
    Node.referencesOfList e ms = (Node.referencesOfList e ns).map (retarget old new)

/-- Whether a renaming changes the references of slots inside `e` to those of other slots. -/
def SlotsRetarget (old new : Text) (e : Env) (scopes : List (Option Env))
    (slots slots' : List (List Node)) : Prop :=
  Node.referencesOfSlots e scopes slots' =
    (Node.referencesOfSlots e scopes slots).map (retarget old new)

theorem retargets_map {ns : List Node}
    (h : ∀ n ∈ ns, ∀ e : Env, ¬ e.Hides old →
      (rename old new n).references e = (n.references e).map (retarget old new)) :
    Retargets old new ns (ns.map (rename old new)) := by
  intro e he
  induction ns with
  | nil => rfl
  | cons n rest ih =>
    rw [List.forall_mem_cons] at h
    rw [List.map_cons, Node.referencesOfList, Node.referencesOfList, List.map_append, h.1 e he,
      ih h.2]

theorem retargets_one {n m : Node}
    (h : ∀ e : Env, ¬ e.Hides old → m.references e = (n.references e).map (retarget old new)) :
    Retargets old new [n] [m] := by
  intro e he
  simp only [Node.referencesOfList, List.append_nil]
  exact h e he

section Slots

variable {e scope : Env} {scopes : List (Option Env)} {slot slot' : List Node}
  {rest rest' : List (List Node)}

theorem SlotsRetarget.nil : SlotsRetarget old new e scopes [] [] := by
  unfold SlotsRetarget
  rw [Node.referencesOfSlots]
  · rfl
  · nofun
  · nofun

theorem SlotsRetarget.silent (h : SlotsRetarget old new e scopes rest rest') :
    SlotsRetarget old new e (none :: scopes) (slot :: rest) (slot' :: rest') := h

theorem SlotsRetarget.hidden (hscope : scope.Hides old)
    (h : SlotsRetarget old new e scopes rest rest') :
    SlotsRetarget old new e (some scope :: scopes) (slot :: rest) (slot :: rest') := by
  unfold SlotsRetarget at h ⊢
  rw [Node.referencesOfSlots, Node.referencesOfSlots, List.map_append, h,
    list_retarget_eq_self ((Env.hides_enter ..).mpr (.inl hscope))]

theorem SlotsRetarget.reached (he : ¬ e.Hides old) (hscope : ¬ scope.Hides old)
    (hslot : Retargets old new slot slot') (h : SlotsRetarget old new e scopes rest rest') :
    SlotsRetarget old new e (some scope :: scopes) (slot :: rest) (slot' :: rest') := by
  have hboth : ¬ (e.enter scope).Hides old := by
    rw [Env.hides_enter]
    exact not_or.mpr ⟨hscope, he⟩
  unfold SlotsRetarget at h ⊢
  rw [Node.referencesOfSlots, Node.referencesOfSlots, List.map_append, h, hslot _ hboth]

theorem plain_hides_not : ¬ Env.plain.Hides old := by
  simp [Env.Hides, Env.plain]

theorem SlotsRetarget.plain (he : ¬ e.Hides old) (hslot : Retargets old new slot slot')
    (h : SlotsRetarget old new e scopes rest rest') :
    SlotsRetarget old new e (some .plain :: scopes) (slot :: rest) (slot' :: rest') :=
  .reached he plain_hides_not hslot h

theorem SlotsRetarget.all (he : ¬ e.Hides old) {slots : List (List Node)}
    (hscopes : ∀ scope, some scope ∈ scopes → ¬ scope.Hides old)
    (hslots : ∀ slot ∈ slots, Retargets old new slot (slot.map (rename old new))) :
    SlotsRetarget old new e scopes slots (slots.map (List.map (rename old new))) := by
  induction slots generalizing scopes with
  | nil => exact .nil
  | cons slot rest ih =>
    rw [List.forall_mem_cons] at hslots
    rcases scopes with _ | ⟨_ | scope, scopes⟩
    · rfl
    · exact .silent (ih (fun s hs => hscopes s (.tail _ hs)) hslots.2)
    · exact .reached he (hscopes scope List.mem_cons_self) hslots.1
        (ih (fun s hs => hscopes s (.tail _ hs)) hslots.2)

end Slots

/-! ## Scopes that stay -/

def Mentions (scope : Env) (x : Text) : Prop :=
  x ∈ scope.inner ∨ x ∈ scope.early ∨ x ∈ scope.late

theorem eq_of_scope_alike {scope scope' : Env} (h : Env.Alike (Renamed old new) scope scope')
    (hold : ¬ Mentions scope old) : scope' = scope := by
  simp only [Mentions, not_or] at hold
  obtain ⟨inner, early, late⟩ := scope'
  rw [show inner = scope.inner from eq_of_renamed h.inner hold.1,
    show early = scope.early from eq_of_renamed h.early hold.2.1,
    show late = scope.late from eq_of_renamed h.late hold.2.2]

theorem eq_of_scopes_alike {scopes scopes' : List (Option Env)}
    (h : ScopesAlike (Renamed old new) scopes scopes')
    (hold : ∀ scope, some scope ∈ scopes → ¬ Mentions scope old) : scopes' = scopes := by
  induction h with
  | nil => rfl
  | cons h _ ih =>
    rw [ih fun scope hscope => hold scope (.tail _ hscope)]
    cases h with
    | none => rfl
    | some h => rw [eq_of_scope_alike h (hold _ List.mem_cons_self)]

theorem functionScopes_rename (new : Text) (own : List Text) {params : List Node} {body : Node}
    (h : ¬ functionHides old params body) :
    paramScope own (params.map (rename old new)) (rename old new body) =
        paramScope own params body ∧
      bodyScope own (params.map (rename old new)) (rename old new body) =
        bodyScope own params body := by
  rw [functionHides_iff, not_or] at h
  have hparams : paramNames (params.map (rename old new)) = paramNames params :=
    eq_of_renamed (paramNames_alike (allAlike_map fun n _ => rename_alike n)) h.1
  have hbody : bodyNames (rename old new body) = bodyNames body :=
    eq_of_renamed (bodyNames_alike (rename_alike body)) h.2
  unfold paramScope bodyScope
  rw [hparams, hbody]
  exact ⟨rfl, rfl⟩

theorem any_ident_iff (names : List Node) :
    (names.any fun n => n.ident? == some old) ↔ old ∈ idents names := by
  simp only [List.any_eq_true, beq_iff_eq, idents, List.mem_filterMap]

theorem mentions_inner {names : List Text} : Mentions ⟨names, [], []⟩ old ↔ old ∈ names := by
  simp only [Mentions, List.not_mem_nil, or_false]

theorem mentions_plain_not : ¬ Mentions .plain old :=
  fun h => List.not_mem_nil (mentions_inner.mp h)

theorem mentions_functionScopes {own : List Text} {params : List Node} {body : Node}
    (hown : old ∉ own) (h : ¬ functionHides old params body) :
    ¬ Mentions (paramScope own params body) old ∧ ¬ Mentions (bodyScope own params body) old := by
  rw [functionHides_iff, not_or] at h
  simp [Mentions, paramScope, bodyScope, hown, h]

theorem hides_of_initialNames (head : Head) (initial test update : List Node) (body : Node)
    (h : old ∈ initialNames initial) : hides old (.forStmt head initial test update body) := by
  rcases initial with _ | ⟨n, _ | _⟩
  · exact absurd h List.not_mem_nil
  · change old ∈ initialName n at h
    unfold initialName at h
    split at h
    · next kind declarations =>
      unfold loopNames at h
      split at h
      · exact absurd h List.not_mem_nil
      · next hkind =>
        simp only [hides, bne_iff_ne, Bool.and_eq_true]
        exact ⟨hkind, List.contains_iff_mem.mpr h⟩
    · exact absurd h List.not_mem_nil
  · exact absurd h List.not_mem_nil

theorem mentions_not_of_hides_not {head : Head} {form : Form} {slots : List (List Node)}
    (hdecl : ∀ isAsync name params body, form = .functionDecl isAsync →
      slots = [[name], params, [body]] → False)
    (hobject : ∀ computed role isAsync key params body,
      form = .objectMethod computed role isAsync → slots = [[key], params, [body]] → False)
    (hmethod : ∀ computed isStatic role isAsync key params body,
      form = .classMethod computed isStatic role isAsync →
        slots = [[key], params, [body]] → False)
    (hclass : ∀ name superclass body, form = .classExpr →
      slots = [name, superclass, [body]] → False)
    (hloop : ∀ kind runs name iterable body, form = .forIn kind runs →
      slots = [[name], [iterable], [body]] → False)
    (h : ¬ hides old (.mk head form slots)) :
    ∀ scope, some scope ∈ slotScopes (.mk head form slots) → ¬ Mentions scope old := by
  intro scope hscope
  generalize hn : Node.mk head form slots = n at h hscope
  revert h hscope
  fun_cases slotScopes n
  all_goals intro h hscope
  all_goals
    simp only [List.mem_cons, List.not_mem_nil, reduceCtorEq, Option.some.injEq, or_false,
      false_or, some_eq_plainIf, List.mem_map] at hscope
  case case1 =>
    simp only [hides, Bool.or_eq_true, not_or, any_ident_iff] at h
    have hboth := mentions_functionScopes h.1 h.2
    rcases hscope with rfl | rfl
    · exact hboth.1
    · exact hboth.2
  case case2 =>
    have hboth := mentions_functionScopes List.not_mem_nil h
    rcases hscope with rfl | rfl
    · exact hboth.1
    · exact hboth.2
  case case3 => cases hn; exact absurd rfl (hdecl _ _ _ _ rfl)
  case case4 => cases hn; exact absurd rfl (hobject _ _ _ _ _ _ rfl)
  case case5 => cases hn; exact absurd rfl (hmethod _ _ _ _ _ _ _ rfl)
  case case7 => cases hn; exact absurd rfl (hclass _ _ _ rfl)
  case case13 => cases hn; exact absurd rfl (hloop _ _ _ _ _ rfl)
  case case11 =>
    rw [hscope, mentions_inner]
    exact fun hold => h (List.contains_iff_mem.mpr hold)
  case case12 =>
    have hloop' := mt (hides_of_initialNames _ _ _ _ _) h
    rcases hscope with rfl | rfl | rfl | rfl <;> exact fun hold => hloop' (mentions_inner.mp hold)
  case case15 =>
    rw [hscope, mentions_inner]
    exact fun hold => h ((any_ident_iff _).mpr hold)
  case case6 => rw [hscope]; exact mentions_plain_not
  case case8 => rcases hscope with rfl | rfl <;> exact mentions_plain_not
  case case9 => rcases hscope with ⟨-, rfl⟩ | rfl <;> exact mentions_plain_not
  case case10 => rcases hscope with ⟨-, rfl⟩ | rfl <;> exact mentions_plain_not
  case case14 => rw [hscope]; exact mentions_plain_not
  case case20 => rcases hscope with rfl | ⟨-, rfl⟩ <;> exact mentions_plain_not
  case case21 => rw [hscope.2]; exact mentions_plain_not
  case case22 =>
    obtain ⟨_, _, rfl⟩ := hscope
    exact mentions_plain_not

theorem not_hides_of_mentions_not {scope : Env} (h : ¬ Mentions scope old) : ¬ scope.Hides old :=
  fun hides => h (hides.imp_right .inr)

/-! ## The renaming of a tree -/

theorem retarget_of_slots {n m : Node} {e : Env} (hn : n.ident? = none) (hm : m.ident? = none)
    (hscopes : slotScopes m = slotScopes n)
    (h : SlotsRetarget old new e (slotScopes n) n.slots m.slots) :
    m.references e = (n.references e).map (retarget old new) := by
  rw [Node.references_eq_slots hn, Node.references_eq_slots hm, hscopes]
  exact h

/-- The slots of a function that hides the name stay, apart from the first. -/
theorem SlotsRetarget.hiddenFunction {e : Env} {params : List Node} {body : Node}
    (h : functionHides old params body) :
    SlotsRetarget old new e [some (paramScope [] params body), some (bodyScope [] params body)]
      [params, [body]] [params, [body]] :=
  .hidden ((functionHides_iff_paramScope ..).mp h)
    (.hidden ((functionHides_iff_bodyScope ..).mp h) .nil)

theorem SlotsRetarget.reachedFunction {e : Env} (he : ¬ e.Hides old) {params params' : List Node}
    {body body' : Node} (h : ¬ functionHides old params body)
    (hparams : Retargets old new params params') (hbody : Retargets old new [body] [body']) :
    SlotsRetarget old new e [some (paramScope [] params body), some (bodyScope [] params body)]
      [params, [body]] [params', [body']] :=
  .reached he (mt (functionHides_iff_paramScope ..).mpr h) hparams
    (.reached he (mt (functionHides_iff_bodyScope ..).mpr h) hbody .nil)

theorem SlotsRetarget.key {e : Env} (he : ¬ e.Hides old) (computed : Bool) {key : Node}
    (hkey : ∀ e : Env, ¬ e.Hides old →
      (rename old new key).references e = (key.references e).map (retarget old new))
    {scopes : List (Option Env)} {rest rest' : List (List Node)}
    (h : SlotsRetarget old new e scopes rest rest') :
    SlotsRetarget old new e (plainIf computed :: scopes) ([key] :: rest)
      ([if computed then rename old new key else key] :: rest') := by
  cases computed with
  | true => exact .plain he (retargets_one hkey) h
  | false => exact .silent h

theorem references_name (head : Head) (ident : Text) (e : Env) :
    (Node.name head ident).references e = [⟨ident, e⟩] := rfl

theorem retarget_name {e : Env} (he : ¬ e.Hides old) (ident : Text) :
    retarget old new ⟨ident, e⟩ = ⟨if ident = old then new else ident, e⟩ := by
  unfold retarget
  split
  · next h => rw [if_pos h.1]
  · next h => rw [if_neg fun hi => h ⟨hi, he⟩]

theorem references_rename_name {e : Env} (he : ¬ e.Hides old) (head head' : Head) (ident : Text) :
    (Node.name head' (if ident = old then new else ident)).references e =
      ((Node.name head ident).references e).map (retarget old new) := by
  rw [references_name, references_name, List.map_singleton, retarget_name he]

theorem references_renameExport {n : Node} (h : isExportSpecifier n) (e : Env)
    (he : ¬ e.Hides old) :
    (renameExport old new n).references e = (n.references e).map (retarget old new) := by
  unfold isExportSpecifier at h
  split at h
  · next head localName exported =>
    cases hi : localName.ident? with
    | some ident =>
      obtain ⟨localHead, rfl⟩ := Node.eq_name_of_ident? hi
      have hone : Retargets old new [.name localHead ident]
          [.name ⟨localHead.loc, []⟩ (if ident = old then new else ident)] :=
        retargets_one fun e he => references_rename_name he localHead _ ident
      rw [renameExport]
      split
      · next hold =>
        rw [if_pos hold] at hone
        exact retarget_of_slots rfl rfl rfl (.plain he hone (.silent .nil))
      · next hold =>
        rw [if_neg hold] at hone
        exact retarget_of_slots rfl rfl rfl (.plain he hone (.silent .nil))
    | none =>
      have hkept : renameExport old new (.exportSpecifier head localName exported) =
          .exportSpecifier head localName exported := by
        unfold renameExport
        split
        · next h => cases h; cases hi
        · rfl
      have hscopes : slotScopes (.exportSpecifier head localName exported) = [none, none] := by
        simp only [slotScopes, hi]
        rfl
      rw [hkept, Node.references_eq_slots rfl, hscopes]
      exact (SlotsRetarget.silent (.silent .nil) : SlotsRetarget old new e _ _ _)
  · cases h

theorem retargets_specifiers {specifiers : List Node} (h : specifiers.all isExportSpecifier) :
    Retargets old new specifiers (specifiers.map (renameExport old new)) := by
  intro e he
  induction specifiers with
  | nil => rfl
  | cons n rest ih =>
    rw [List.all_cons, Bool.and_eq_true] at h
    rw [List.map_cons, Node.referencesOfList, Node.referencesOfList, List.map_append, ih h.2,
      references_renameExport h.1 e he]

theorem early_hides_not (names : List Text) : ¬ Env.Hides ⟨[], names, []⟩ old :=
  not_or.mpr ⟨List.not_mem_nil, List.not_mem_nil⟩

theorem inner_hides_iff (names : List Text) : Env.Hides ⟨names, [], []⟩ old ↔ old ∈ names :=
  or_iff_left List.not_mem_nil

theorem mem_loopNames_iff (kind : VarKind) (n : Node) :
    old ∈ loopNames kind n.ident?.toList ↔ (kind != .var && n.ident? == some old) := by
  unfold loopNames
  cases kind <;> simp [Option.mem_toList]

/-- A node that hides the name has all its references inside scopes that hide it. -/
theorem retarget_of_hides_node {n : Node} {e : Env} (h : hides old n) :
    n.references e = (n.references e).map (retarget old new) := by
  revert h
  fun_cases hides old n
  · next head isAsync own params body =>
    intro h
    rw [Bool.or_eq_true, any_ident_iff, functionHides_iff] at h
    refine retarget_of_slots rfl rfl rfl (.silent (.hidden ?_ (.hidden ?_ .nil)))
    · rcases h with h | h | h <;> simp [Env.Hides, paramScope, h]
    · rcases h with h | h | h <;> simp [Env.Hides, bodyScope, h]
  · next head isAsync params body =>
    intro h
    exact retarget_of_slots rfl rfl rfl (.hiddenFunction h)
  · next head stop trailing statements =>
    intro h
    exact retarget_of_slots rfl rfl rfl
      (.hidden ((inner_hides_iff _).mpr (List.contains_iff_mem.mp h)) .nil)
  · next head loopHead kind declarations test update body =>
    intro h
    have hscope : Env.Hides ⟨initialNames [.varDecl loopHead kind declarations], [], []⟩ old := by
      rw [Bool.and_eq_true, bne_iff_ne] at h
      rw [inner_hides_iff]
      change old ∈ loopNames kind _
      rw [loopNames, if_neg h.1]
      exact List.contains_iff_mem.mp h.2
    exact retarget_of_slots rfl rfl rfl
      (.hidden hscope (.hidden hscope (.hidden hscope (.hidden hscope .nil))))
  · next head param body =>
    intro h
    exact retarget_of_slots rfl rfl rfl
      (.silent (.hidden ((inner_hides_iff _).mpr ((any_ident_iff _).mp h)) .nil))
  · intro h
    cases h

/-- The references of a tree after a renaming. -/
theorem references_rename (n : Node) : ∀ e : Env, ¬ e.Hides old →
    (rename old new n).references e = (n.references e).map (retarget old new) := by
  induction n using Node.induct with
  | step n ih =>
    intro e he
    have halike : Alike (Renamed old new) n (rename old new n) := rename_alike n
    revert ih halike
    fun_cases rename old new n
    all_goals
      simp only [Node.slots, List.mem_cons, List.not_mem_nil, or_false, forall_eq_or_imp, forall_eq,
        renameAll_eq_map, renameSlots_eq_map]
      intro ih halike
    case case1 head ident =>
      exact references_rename_name he head head ident
    case case2 hides =>
      exact retarget_of_slots rfl rfl rfl (.silent (.hiddenFunction hides))
    case case3 hides =>
      have hscopes := functionScopes_rename new [] hides
      refine retarget_of_slots rfl rfl ?_ (.silent (.reachedFunction he hides (retargets_map ih.2.1)
        (retargets_one ih.2.2)))
      simp only [slotScopes, hscopes.1, hscopes.2]
    case case4 hides =>
      exact retarget_of_slots rfl rfl rfl (.key he _ ih.1 (.hiddenFunction hides))
    case case5 hides =>
      have hscopes := functionScopes_rename new [] hides
      refine retarget_of_slots rfl rfl ?_ (.key he _ ih.1 (.reachedFunction he hides
        (retargets_map ih.2.1) (retargets_one ih.2.2)))
      simp only [slotScopes, hscopes.1, hscopes.2]
    case case6 hides =>
      exact retarget_of_slots rfl rfl rfl (.key he _ ih.1 (.hiddenFunction hides))
    case case7 hides =>
      have hscopes := functionScopes_rename new [] hides
      refine retarget_of_slots rfl rfl ?_ (.key he _ ih.1 (.reachedFunction he hides
        (retargets_map ih.2.1) (retargets_one ih.2.2)))
      simp only [slotScopes, hscopes.1, hscopes.2]
    case case8 hides =>
      exact retarget_of_slots rfl rfl rfl (.silent (.reached he (early_hides_not _)
        (retargets_map ih.2.1)
        (.hidden ((inner_hides_iff _).mpr ((any_ident_iff _).mp hides)) .nil)))
    case case9 own superclass body hides =>
      rw [any_ident_iff] at hides
      have hown : idents (own.map (rename old new)) = idents own :=
        eq_of_renamed (idents_alike (allAlike_map fun n _ => rename_alike n)) hides
      refine retarget_of_slots rfl rfl ?_ (.silent (.reached he (early_hides_not _)
        (retargets_map ih.2.1) (.reached he (mt (inner_hides_iff _).mp hides)
          (retargets_one ih.2.2) .nil)))
      simp only [slotScopes, hown]
    case case10 =>
      exact retarget_of_slots rfl rfl rfl (.key he _ ih.1 (.plain he (retargets_map ih.2) .nil))
    case case11 hides =>
      rw [← mem_loopNames_iff] at hides
      exact retarget_of_slots rfl rfl rfl (.silent (.reached he (early_hides_not _)
        (retargets_one ih.2.1) (.hidden ((inner_hides_iff _).mpr hides) .nil)))
    case case12 kind _ loopName _ _ _ hides =>
      rw [← mem_loopNames_iff] at hides
      have hnames : loopNames kind (rename old new loopName).ident?.toList =
          loopNames kind loopName.ident?.toList :=
        eq_of_renamed
          (loopNames_alike kind (toList_alike (ident?_alike (rename_alike loopName)))) hides
      refine retarget_of_slots rfl rfl ?_ (.silent (.reached he (early_hides_not _)
        (retargets_one ih.2.1) (.reached he (mt (inner_hides_iff _).mp hides)
          (retargets_one ih.2.2) .nil)))
      simp only [slotScopes, hnames]
    case case13 _ hshort =>
      rw [Bool.and_eq_true, beq_iff_eq] at hshort
      obtain ⟨valueHead, hvalue⟩ := Node.eq_name_of_ident? hshort.2
      refine retarget_of_slots rfl rfl rfl (.key he _ ih.1 (.plain he (retargets_one ?_) .nil))
      intro e he
      rw [hvalue]
      have h : (Node.name ⟨valueHead.loc, []⟩ (if old = old then new else old)).references e =
          ((Node.name valueHead old).references e).map (retarget old new) :=
        references_rename_name he _ _ _
      rwa [if_pos rfl] at h
    case case14 =>
      exact retarget_of_slots rfl rfl rfl (.key he _ ih.1 (.plain he (retargets_one ih.2) .nil))
    case case15 =>
      exact retarget_of_slots rfl rfl rfl (.silent (.silent .nil))
    case case16 head declared specifiers source =>
      have hflag : (source.isEmpty && (if source.isEmpty then specifiers.map (renameExport old new)
          else specifiers).all isExportSpecifier) =
          (source.isEmpty && specifiers.all isExportSpecifier) := by
        cases source with
        | nil => exact (exportFlag_alike .nil (allAlike_map fun m _ => renameExport_alike m)).symm
        | cons => rfl
      refine retarget_of_slots rfl rfl ?_ (.plain he (retargets_map ih.1) ?_)
      · simp only [slotScopes, hflag]
      · cases hexport : source.isEmpty && specifiers.all isExportSpecifier with
        | true =>
          rw [Bool.and_eq_true] at hexport
          rw [if_pos hexport.1]
          exact .plain he (retargets_specifiers hexport.2) (.silent .nil)
        | false => exact .silent (.silent .nil)
    case case17 hides => exact retarget_of_hides_node hides
    case case18 head form slots hname hdecl hobject hmethod hclass _ hloop _ _ _ hides =>
      have hsilent := mentions_not_of_hides_not hdecl hobject hmethod hclass hloop hides
      have hscopes : slotScopes (.mk head form (slots.map (List.map (rename old new)))) =
          slotScopes (.mk head form slots) :=
        eq_of_scopes_alike (slotScopes_alike (slotsAlike_map fun _ _ n _ => rename_alike n)) hsilent
      have hname' (i : Text) (hi : form = .name i)
          (hs : slots.map (List.map (rename old new)) = []) : False :=
        hname i hi (List.map_eq_nil_iff.mp hs)
      exact retarget_of_slots (Node.ident?_of_not_name hname) (Node.ident?_of_not_name hname')
        hscopes
        (.all he (fun scope hscope => not_hides_of_mentions_not (hsilent scope hscope))
          (fun slot hslot => retargets_map (ih slot hslot)))

end Scope

end InlineTemplates
