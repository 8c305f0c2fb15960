import InlineTemplates.Proofs.Freshness
import InlineTemplates.Proofs.Renaming
import InlineTemplates.Template.Bindings

/-!
# Consumed imports

Taking the imports of the configured modules out of a program leaves its references where they are.
Those of a consumed import get its fresh name, and all others keep the name that they had, and stay
bound or unbound.
-/

namespace InlineTemplates

open Scope

/-! ## Heads -/

/-- Nodes that differ in their heads alone. -/
def SameBelow (a b : Node) : Prop := ∃ head, b = a.withHead head

theorem sameBelow_refl (n : Node) : SameBelow n n := by
  obtain ⟨head, form, slots⟩ := n
  exact ⟨head, rfl⟩

theorem sameBelow_prependComments (n : Node) (comments : List Text) :
    SameBelow n (n.prependComments comments) := ⟨_, rfl⟩

theorem alike_of_sameBelow {a b : Node} (h : SameBelow a b) : Alike Eq a b := by
  obtain ⟨head', rfl⟩ := h
  obtain ⟨head, form, slots⟩ := a
  by_cases hname : ∃ i, form = .name i ∧ slots = []
  · obtain ⟨i, rfl, rfl⟩ := hname
    exact .name rfl
  · exact .mk (slotsAlike_refl (fun _ => rfl) slots) fun i hi hs => hname ⟨i, hi, hs⟩

theorem references_of_sameBelow {a b : Node} (h : SameBelow a b) (e : Env) :
    b.references e = a.references e := by
  obtain ⟨head', rfl⟩ := h
  obtain ⟨head, form, slots⟩ := a
  by_cases hname : ∃ i, form = .name i ∧ slots = []
  · obtain ⟨i, rfl, rfl⟩ := hname
    rfl
  · have hnot (i : Text) (hi : form = .name i) (hs : slots = []) : False := hname ⟨i, hi, hs⟩
    change (Node.mk head' form slots).references e = _
    rw [Node.references_eq_slots (Node.ident?_of_not_name hnot),
      Node.references_eq_slots (Node.ident?_of_not_name hnot),
      slotScopes_eq (slotsAlike_refl (fun _ => rfl) slots)]
    rfl

theorem isStatement_alike {R : Text → Text → Prop} {a b : Node} (h : Alike R a b) :
    b.isStatement = a.isStatement := by
  cases h with
  | name => rfl
  | mk => rfl
  | exportSpecifier => rfl
  | property => rfl
  | application ha hb =>
    have hnot (n : Node) (h : n.form.isApplication) : n.isStatement = false := by
      obtain ⟨_, form, _⟩ := n
      cases form <;> first | rfl | cases h
    rw [hnot a ha, hnot b hb]

/-! ## The names of statements -/

/-- The names that a statement of a module binds for all of it. -/
def statementNames (n : Node) : List Text :=
  declaredBy n ++ hoisted (declaration n) ++ defaultNames n

theorem mem_moduleNames {statements : List Node} {x : Text} :
    x ∈ moduleNames statements ↔ ∃ n ∈ statements, x ∈ statementNames n := by
  simp only [moduleNames, declared, declaredInBlock, statementNames, List.mem_append,
    List.mem_flatMap]
  grind

theorem statementNames_alike {R : Text → Text → Prop} {a b : Node} (h : Alike R a b) :
    List.Forall₂ R (statementNames a) (statementNames b) :=
  List.rel_append (List.rel_append (declaredBy_alike h) (hoisted_alike (declaration_alike h)))
    (defaultNames_alike h)

theorem statementNames_of_sameBelow {a b : Node} (h : SameBelow a b) :
    statementNames b = statementNames a := by
  have hnames := statementNames_alike (alike_of_sameBelow h)
  rw [List.forall₂_eq_eq_eq] at hnames
  exact hnames.symm

/-! ## Lists that lose an item -/

theorem referencesOfList_append (e : Env) (xs ys : List Node) :
    Node.referencesOfList e (xs ++ ys) =
      Node.referencesOfList e xs ++ Node.referencesOfList e ys := by
  induction xs with
  | nil => rfl
  | cons n rest ih => rw [List.cons_append, Node.referencesOfList, Node.referencesOfList, ih,
      List.append_assoc]

theorem referencesOfList_of_sameBelow {xs ys : List Node} (h : List.Forall₂ SameBelow xs ys)
    (e : Env) : Node.referencesOfList e ys = Node.referencesOfList e xs := by
  induction h with
  | nil => rfl
  | cons h _ ih =>
    rw [Node.referencesOfList, Node.referencesOfList, references_of_sameBelow h, ih]

theorem moduleNames_of_sameBelow {xs ys : List Node} (h : List.Forall₂ SameBelow xs ys) (x : Text) :
    (∃ n ∈ ys, x ∈ statementNames n) ↔ ∃ n ∈ xs, x ∈ statementNames n := by
  induction h with
  | nil => rfl
  | cons h _ ih => simp only [List.mem_cons, exists_eq_or_imp, statementNames_of_sameBelow h, ih]

theorem dropItem_split {ns : List Node} {i : Nat} {removed : Node} (h : ns[i]? = some removed) :
    ∃ front rest rest', ns = front ++ removed :: rest ∧ (Node.dropItem ns i).1 = front ++ rest' ∧
      List.Forall₂ SameBelow rest rest' := by
  obtain ⟨hi, rfl⟩ := List.getElem?_eq_some_iff.mp h
  have hdrop : ns.drop i = ns[i] :: ns.drop (i + 1) := List.drop_eq_getElem_cons hi
  refine ⟨ns.take i, ns.drop (i + 1), ?_⟩
  rw [← hdrop, List.take_append_drop, Node.dropItem, hdrop]
  cases ns.drop (i + 1) with
  | nil => exact ⟨[], rfl, (List.append_nil _).symm, .nil⟩
  | cons next rest =>
    exact ⟨_, rfl, rfl, .cons (sameBelow_prependComments _ _)
      (List.forall₂_same.mpr fun n _ => sameBelow_refl n)⟩

theorem referencesOfList_dropItem {ns : List Node} {i : Nat} {removed : Node}
    (h : ns[i]? = some removed) (e : Env) (hnone : removed.references e = []) :
    Node.referencesOfList e (Node.dropItem ns i).1 = Node.referencesOfList e ns := by
  obtain ⟨front, rest, rest', hns, hdrop, hrest⟩ := dropItem_split h
  rw [hdrop, hns, referencesOfList_append, referencesOfList_append, Node.referencesOfList, hnone,
    List.nil_append, referencesOfList_of_sameBelow hrest]

theorem moduleNames_dropItem {ns : List Node} {i : Nat} {removed : Node}
    (h : ns[i]? = some removed) {x : Text} (hx : x ∉ statementNames removed) :
    x ∈ moduleNames (Node.dropItem ns i).1 ↔ x ∈ moduleNames ns := by
  obtain ⟨front, rest, rest', hns, hdrop, hrest⟩ := dropItem_split h
  rw [mem_moduleNames, mem_moduleNames, hdrop, hns]
  simp only [List.mem_append, List.mem_cons, or_and_right, exists_or, exists_eq_left,
    moduleNames_of_sameBelow hrest, hx, false_or]

theorem isStatement_of_allAlike {R : Text → Text → Prop} {xs ys : List Node} (h : AllAlike R xs ys)
    (hxs : ∀ n ∈ xs, n.isStatement) : ∀ n ∈ ys, n.isStatement := by
  induction h with
  | nil => exact hxs
  | cons h _ ih =>
    rw [List.forall_mem_cons] at hxs ⊢
    exact ⟨(isStatement_alike h).trans hxs.1, ih hxs.2⟩

theorem isStatement_dropItem {ns : List Node} {i : Nat} {removed : Node}
    (h : ns[i]? = some removed) (hns : ∀ n ∈ ns, n.isStatement) :
    ∀ n ∈ (Node.dropItem ns i).1, n.isStatement := by
  obtain ⟨front, rest, rest', rfl, hdrop, hrest⟩ := dropItem_split h
  rw [List.forall_mem_append, List.forall_mem_cons] at hns
  rw [hdrop, List.forall_mem_append]
  exact ⟨hns.1, isStatement_of_allAlike (hrest.imp fun _ _ h => alike_of_sameBelow h) hns.2.2⟩

theorem modify_split {ns : List Node} {i : Nat} {n : Node} (h : ns[i]? = some n) (f : Node → Node) :
    ∃ front rest, ns = front ++ n :: rest ∧ ns.modify i f = front ++ f n :: rest := by
  obtain ⟨hi, rfl⟩ := List.getElem?_eq_some_iff.mp h
  refine ⟨ns.take i, ns.drop (i + 1), ?_, ?_⟩
  · rw [← List.drop_eq_getElem_cons hi, List.take_append_drop]
  · rw [List.modify_eq_take_cons_drop hi]

/-! ## Imports -/

theorem statementNames_importDecl (head : Head) (specifiers : List Node) (source : Node) :
    statementNames (.importDecl head specifiers source) = specifiers.filterMap localName? := by
  simp [statementNames, declaredBy, declaration, hoisted, defaultNames]

theorem localName?_of_sameBelow {a b : Node} (h : SameBelow a b) : localName? b = localName? a := by
  have hname := localName?_alike (alike_of_sameBelow h)
  revert hname
  generalize localName? a = x
  generalize localName? b = y
  intro hname
  cases hname with
  | some h => rw [h]
  | none => rfl

theorem filterMap_of_sameBelow {xs ys : List Node} (h : List.Forall₂ SameBelow xs ys) :
    ys.filterMap localName? = xs.filterMap localName? := by
  induction h with
  | nil => rfl
  | cons h _ ih => rw [List.filterMap_cons, List.filterMap_cons, ih, localName?_of_sameBelow h]

theorem filterMap_dropItem {specifiers : List Node} {i : Nat} {specifier : Node}
    (h : specifiers[i]? = some specifier) {x : Text} (hx : localName? specifier ≠ some x) :
    x ∈ (Node.dropItem specifiers i).1.filterMap localName? ↔
      x ∈ specifiers.filterMap localName? := by
  obtain ⟨front, rest, rest', hns, hdrop, hrest⟩ := dropItem_split h
  rw [hdrop, hns, List.filterMap_append, List.filterMap_append, filterMap_of_sameBelow hrest,
    List.mem_append, List.mem_append, List.filterMap_cons]
  cases hname : localName? specifier with
  | none => rfl
  | some y =>
    rw [List.mem_cons]
    have hne : x ≠ y := fun hxy => hx (hname.trans (congrArg some hxy.symm))
    simp only [hne, false_or]

/-! ## Taking out a specifier -/

namespace Bindings

/-- What is left of a program when a specifier is taken out of it. -/
structure TakenOut (body body' : List Node) (names : Text → Prop) : Prop where
  references : ∀ e, Node.referencesOfList e body' = Node.referencesOfList e body
  names : ∀ x, ¬ names x → (x ∈ moduleNames body' ↔ x ∈ moduleNames body)
  statements : (∀ n ∈ body, n.isStatement) → ∀ n ∈ body', n.isStatement

theorem takeOut_spec (head : Head) (trailing : List Text) {stmtHead : Head}
    {body specifiers : List Node} {source specifier : Node} {index i : Nat}
    (hstmt : body[index]? = some (.importDecl stmtHead specifiers source))
    (hspec : specifiers[i]? = some specifier) :
    ∃ trailing' body', takeOut (.program head trailing body) index i =
      .program head trailing' body' ∧
      TakenOut body body' (fun x => localName? specifier = some x) := by
  have hchild : ((Node.program head trailing body).child? ⟨"body", some index⟩).map
      (·.slot "specifiers") = some specifiers := by
    change body[index]?.map _ = _
    rw [hstmt]
    rfl
  unfold takeOut
  simp only [hchild]
  split
  · next hone =>
    cases hone
    refine ⟨_, _, rfl, fun e => referencesOfList_dropItem hstmt e rfl, fun x hx => ?_,
      isStatement_dropItem hstmt⟩
    refine moduleNames_dropItem hstmt ?_
    rw [statementNames_importDecl]
    cases i with
    | zero =>
      cases hspec
      simpa [Option.eq_none_iff_forall_ne_some] using hx
    | succ => cases hspec
  · obtain ⟨front, rest, hbody, hmodify⟩ :=
      modify_split hstmt (·.removeChild ⟨"specifiers", some i⟩)
    refine ⟨trailing, body.modify index (·.removeChild ⟨"specifiers", some i⟩), rfl, fun e => ?_,
      fun x hx => ?_, fun hns => ?_⟩
    · rw [hmodify, hbody, referencesOfList_append, referencesOfList_append]
      rfl
    · rw [mem_moduleNames, mem_moduleNames, hmodify, hbody]
      simp only [List.mem_append, List.mem_cons, or_and_right, exists_or, exists_eq_left]
      have himport : x ∈ statementNames ((Node.importDecl stmtHead specifiers source).removeChild
          ⟨"specifiers", some i⟩) ↔
          x ∈ statementNames (.importDecl stmtHead specifiers source) := by
        change x ∈ statementNames (.importDecl stmtHead (Node.dropItem specifiers i).1 source) ↔ _
        rw [statementNames_importDecl, statementNames_importDecl]
        exact filterMap_dropItem hspec hx
      rw [himport]
    · rw [hbody, List.forall_mem_append, List.forall_mem_cons] at hns
      rw [hmodify, List.forall_mem_append, List.forall_mem_cons]
      exact ⟨hns.1, rfl, hns.2.2⟩

/-! ## Binding a specifier -/

/-- What became of a reference `q` when imports were consumed: `module` are the names that the
module bound, and `module'` those that it binds now. -/
inductive Became (module module' : List Text) (registry : Registry) (q r : Reference) : Prop where
  /-- It kept its name and is bound if it was. -/
  | kept (env : r.env = q.env) (name : r.name = q.name)
    (bound : r.IsBound module' ↔ q.IsBound module)
  /-- It is a use of a consumed import and got a fresh name. -/
  | renamed (env : r.env = q.env) (uid : r.name ∈ registry.map (·.1))
    (localName : q.name ∈ registry.map (·.2.localName)) (reached : ¬ q.env.Hides q.name)
  /-- It is a use of a consumed import in front of a body that declares the name. -/
  | late (env : r.env = q.env) (name : r.name = q.name)
    (localName : q.name ∈ registry.map (·.2.localName)) (late : q.name ∈ q.env.late)

theorem Became.refl (module : List Text) (registry : Registry) (q : Reference) :
    Became module module registry q q := .kept rfl rfl Iff.rfl

theorem isBound_congr {module module' : List Text} {r : Reference}
    (h : r.name ∈ module' ↔ r.name ∈ module) : r.IsBound module' ↔ r.IsBound module :=
  or_congr_right h

theorem Became.step {module module' module'' : List Text} {registry : Registry} {q r : Reference}
    {uid : Text} {binding : Binding} (h : Became module module' registry q r)
    (hfresh : r.name ≠ uid)
    (hnames : ∀ x, x ≠ binding.localName → x ≠ uid → (x ∈ module'' ↔ x ∈ module')) :
    Became module module'' (registry ++ [(uid, binding)]) q
      (retarget binding.localName uid r) := by
  have hkeys : uid ∈ (registry ++ [(uid, binding)]).map (·.1) := by simp
  have hlocals : binding.localName ∈ (registry ++ [(uid, binding)]).map (·.2.localName) := by simp
  have hmore {β : Type} {f : Text × Binding → β} {x : β} (hx : x ∈ registry.map f) :
      x ∈ (registry ++ [(uid, binding)]).map f := by
    rw [List.map_append]
    exact List.mem_append_left _ hx
  unfold retarget
  split
  · -- the reference is reached and gets the fresh name
    next hr =>
    cases h with
    | kept env name bound =>
      refine .renamed env hkeys (name ▸ hr.1 ▸ hlocals) ?_
      rw [← env, ← name, hr.1]
      exact hr.2
    | renamed env uid' localName reached => exact .renamed env hkeys (hmore localName) reached
    | late env name localName late =>
      refine absurd ?_ hr.2
      rw [← hr.1, name, env]
      exact .inr late
  · next hr =>
    cases h with
    | kept env name bound =>
      by_cases hold : r.name = binding.localName
      · have hides : r.env.Hides r.name := by
          by_contra hreached
          exact hr ⟨hold, hold ▸ hreached⟩
        rcases hides with hinner | hlate
        · refine .kept env name ?_
          have hq : q.IsBound module := .inl (.inl (env ▸ name ▸ hinner))
          exact ⟨fun _ => hq, fun _ => .inl (.inl hinner)⟩
        · exact .late env name (name ▸ hold ▸ hlocals) (env ▸ name ▸ hlate)
      · exact .kept env name ((isBound_congr (hnames _ hold hfresh)).trans bound)
    | renamed env uid' localName reached =>
      exact .renamed env (hmore uid') (hmore localName) reached
    | late env name localName late => exact .late env name (hmore localName) late

def Known (scope : Scope) (r : Reference) : Prop :=
  r.name ∈ scope.references ∧ ∀ x, r.env.Binds x → x ∈ scope.references

theorem Known.mono {scope scope' : Scope} {r : Reference} (h : Known scope r)
    (hscope : scope.references ⊆ scope'.references) : Known scope' r :=
  ⟨hscope h.1, fun x hx => hscope (h.2 x hx)⟩

/-- A state that is reached from a program with the statements `original`, and has the statements
`body` now. -/
structure Consumed (original : List Node) (s : State) (body : List Node) : Prop where
  program : ∃ head trailing, s.program = .program head trailing body
  references : List.Forall₂ (Became (moduleNames original) (moduleNames body) s.registry)
    (Node.referencesOfList .outside original) (Node.referencesOfList .outside body)
  known : ∀ r ∈ Node.referencesOfList .outside body, Known s.scope r
  names : moduleNames body ⊆ s.scope.references
  statements : (∀ n ∈ original, n.isStatement) → ∀ n ∈ body, n.isStatement

theorem specifier?_spec {module exported localName : Text} {statement : Node} {i : Nat}
    (h : specifier? module exported statement = some (i, localName)) :
    ∃ head specifiers source specifier, statement = .importDecl head specifiers source ∧
      specifiers[i]? = some specifier ∧ localName? specifier = some localName := by
  unfold specifier? at h
  split at h
  · next specifiers source hparts =>
    split at h
    · rw [Option.bind_eq_some_iff] at h
      obtain ⟨j, hj, h⟩ := h
      rw [Option.map_eq_some_iff] at h
      obtain ⟨name, hname, h⟩ := h
      cases h
      rw [Option.bind_eq_some_iff] at hname
      obtain ⟨specifier, hspec, hname⟩ := hname
      unfold Node.importParts? at hparts
      split at hparts
      · rw [Option.map_eq_some_iff] at hparts
        obtain ⟨_, _, hparts⟩ := hparts
        cases hparts
        exact ⟨_, _, _, _, rfl, hspec, hname⟩
      · cases hparts
    · cases h
  · cases h

theorem rename_importDecl (old new : Text) (head : Head) (specifiers : List Node) (source : Node) :
    rename old new (.importDecl head specifiers source) =
      .importDecl head (specifiers.map (rename old new)) (rename old new source) := by
  simp [rename, hides]

/-- A binding gets a name that no reference has and no scope binds. -/
theorem bind_spec (module : Text) (options : ModuleOptions) (s : State) (index i : Nat)
    (localName : Text) : ∃ uid scope, uid ∉ s.scope.references ∧
      scope.references = uid :: uid :: s.scope.references ∧
      bind module options s index i localName =
        ⟨takeOut (renameProgram localName uid s.program) index i, scope,
          s.registry ++ [(uid, ⟨module, options, localName⟩)]⟩ :=
  ⟨_, _, s.scope.generateFor_not_mem_references _ _, rfl, rfl⟩

theorem bind_consumed {original : List Node} {module : Text} {options : ModuleOptions} {s : State}
    {index i : Nat} {localName : Text} {statement : Node} {body : List Node}
    (h : Consumed original s body)
    (hstmt : (s.program.slot "body")[index]? = some statement)
    (hspec : specifier? module options.exported statement = some (i, localName)) :
    ∃ body', Consumed original (bind module options s index i localName) body' := by
  obtain ⟨⟨head, trailing, hprogram⟩, hbecame, hknown, hmodule, hstatements⟩ := h
  obtain ⟨stmtHead, specifiers, source, specifier, rfl, hi, hlocal⟩ := specifier?_spec hspec
  rw [hprogram] at hstmt
  change body[index]? = _ at hstmt
  obtain ⟨uid, scope, hfresh, hscope, hbind⟩ := bind_spec module options s index i localName
  rw [hbind]
  -- the program after the renaming
  have hrenamed : renameProgram localName uid s.program =
      .program head trailing (body.map (rename localName uid)) := by
    rw [hprogram, renameProgram, renameAll_eq_map]
  have halike : AllAlike (Renamed localName uid) body (body.map (rename localName uid)) :=
    allAlike_map fun n _ => rename_alike n
  have hretarget : Node.referencesOfList .outside (body.map (rename localName uid)) =
      (Node.referencesOfList .outside body).map (retarget localName uid) :=
    retargets_map (fun n _ => references_rename n) .outside plain_hides_not
  have hspecifier : ∀ x, x ≠ localName → x ≠ uid →
      localName? (rename localName uid specifier) ≠ some x := by
    intro x hold hnew hx
    have hrel : Option.Rel (Renamed localName uid) (localName? specifier)
        (localName? (rename localName uid specifier)) := localName?_alike (rename_alike specifier)
    rw [hlocal, hx] at hrel
    rcases hrel with h | _
    rcases h with h | h
    · exact hold h
    · exact hnew h.2
  -- the program without the specifier
  have hstmt' : (body.map (rename localName uid))[index]? = some (.importDecl stmtHead
      (specifiers.map (rename localName uid)) (rename localName uid source)) := by
    rw [List.getElem?_map, hstmt, Option.map_some, rename_importDecl]
  have hi' : (specifiers.map (rename localName uid))[i]? =
      some (rename localName uid specifier) := by
    rw [List.getElem?_map, hi, Option.map_some]
  obtain ⟨trailing', body', htaken, hreferences, hnames, hkept⟩ :=
    takeOut_spec head trailing hstmt' hi'
  have hstay (x : Text) (hold : x ≠ localName) (hnew : x ≠ uid) :
      x ∈ moduleNames body' ↔ x ∈ moduleNames body := by
    rw [hnames x (hspecifier x hold hnew)]
    exact mem_of_renamed (moduleNames_alike halike) hold hnew
  refine ⟨body', ⟨head, trailing', by rw [hrenamed, htaken]⟩, ?_, ?_, ?_,
    fun horiginal => hkept (isStatement_of_allAlike halike (hstatements horiginal))⟩
  · rw [hreferences, hretarget, List.forall₂_map_right_iff]
    refine (((List.forall₂_and_left _ _).mpr ⟨hknown, hbecame.flip⟩).flip).imp fun q r hr => ?_
    exact hr.2.step (fun huid => hfresh (huid ▸ hr.1.1)) hstay
  · rw [hreferences, hretarget]
    intro r' hr'
    obtain ⟨r, hr, rfl⟩ := List.mem_map.mp hr'
    have hr : Known scope r := (hknown r hr).mono (by simp [hscope])
    unfold retarget
    split
    · exact ⟨by simp [hscope], hr.2⟩
    · exact hr
  · intro x hx
    by_cases hnew : x = uid
    · simp [hscope, hnew]
    · have hmore : s.scope.references ⊆ scope.references := by simp [hscope]
      refine hmore (hmodule ?_)
      by_cases hold : x = localName
      · rw [hold, mem_moduleNames]
        refine ⟨_, List.mem_of_getElem? hstmt, ?_⟩
        rw [statementNames_importDecl]
        exact List.mem_filterMap.mpr ⟨specifier, List.mem_of_getElem? hi, hlocal⟩
      · exact (hstay x hold hnew).mp hx

theorem bindFrom_consumed {original : List Node} {module : Text} {options : ModuleOptions} :
    ∀ (count index : Nat) (s : State), (∃ body, Consumed original s body) →
      ∃ body, Consumed original (bindFrom module options count index s) body := by
  intro count
  induction count with
  | zero => exact fun _ _ h => h
  | succ count ih =>
    intro index s h
    unfold bindFrom
    extract_lets statements
    split
    · exact h
    · next statement hstmt =>
      split
      · exact ih _ _ h
      · next hspec =>
        obtain ⟨body, h⟩ := h
        exact ih _ _ (bind_consumed h hstmt hspec)

/-- The scope of a program knows all names of its references. -/
theorem known_ofProgram {head : Head} {trailing : List Text} {body : List Node} :
    ∀ r ∈ Node.referencesOfList .outside body,
      Known (Scope.ofProgram (.program head trailing body)) r := by
  have hmentioned : ∀ m ∈ body, ∀ x, Mentioned m x →
      x ∈ (Scope.ofProgram (.program head trailing body)).references := by
    intro m hm x hx
    obtain ⟨n, hn, hx⟩ :=
      mentioned_of_child (n := .program head trailing body) List.mem_cons_self hm hx
    exact List.mem_filterMap.mpr ⟨n, hn, hx⟩
  intro r hr
  have h := list_mentioned _ body .outside hmentioned r hr
  exact ⟨h.1, fun x hx => (h.2 x hx).elim (fun hx => absurd hx plain_binds_not) id⟩

theorem moduleNames_ofProgram {head : Head} {trailing : List Text} {body : List Node} :
    moduleNames body ⊆ (Scope.ofProgram (.program head trailing body)).references := by
  intro x hx
  have hmentioned : Mentioned (.program head trailing body) x := by
    rw [moduleNames, List.mem_append, List.mem_flatMap] at hx
    rcases hx with hx | ⟨n, hn, hx⟩
    · exact mentioned_of_declared List.mem_cons_self hx
    · exact mentioned_of_child (n := .program head trailing body) List.mem_cons_self hn
        (mentioned_of_defaultNames hx)
  obtain ⟨n, hn, hx⟩ := hmentioned
  exact List.mem_filterMap.mpr ⟨n, hn, hx⟩

/-- The references of the program after all imports are consumed. -/
theorem resolve_consumed (modules : List (Text × ModuleOptions)) (head : Head)
    (trailing : List Text) (body : List Node) :
    ∃ body', Consumed body (resolve modules (.program head trailing body)
      (Scope.ofProgram (.program head trailing body))) body' := by
  have hstart : ∃ body', Consumed body
      ⟨.program head trailing body, Scope.ofProgram (.program head trailing body), []⟩ body' :=
    ⟨body, ⟨head, trailing, rfl⟩, List.forall₂_same.mpr fun q _ => .refl _ _ q, known_ofProgram,
      moduleNames_ofProgram, id⟩
  unfold resolve
  revert hstart
  generalize (⟨.program head trailing body, _, []⟩ : State) = s
  intro hstart
  induction modules generalizing s with
  | nil => exact hstart
  | cons m rest ih => exact ih _ (bindFrom_consumed _ _ _ hstart)

end Bindings

end InlineTemplates
