import InlineTemplates.Proofs.Remains

/-!
# Specifiers that are consumed

In an import of a configured module the first specifier of its export is consumed, and the import is
gone if that was all that it had. Which one it is depends neither on names nor on comments, so the
order in which imports are consumed and names are changed does not matter.
-/

namespace InlineTemplates

open Scope

/-! ## Renaming and heads -/

namespace Scope

theorem hides_withHead (old : Text) (head : Head) (n : Node) :
    hides old (n.withHead head) = hides old n := by
  fun_cases hides old n
  case case6 hfunction harrow hblock hfor hcatch =>
    obtain ⟨head', form, slots⟩ := n
    unfold hides
    split <;> try rfl
    all_goals
      rename_i heq
      cases heq
    · exact (hfunction _ _ _ _ _ rfl).elim
    · exact (harrow _ _ _ _ rfl).elim
    · exact (hblock _ _ _ _ rfl).elim
    · exact (hfor _ _ _ _ _ _ _ rfl).elim
    · exact (hcatch _ _ _ rfl).elim
  all_goals rfl

theorem rename_withHead (old new : Text) (head : Head) (n : Node) :
    rename old new (n.withHead head) = (rename old new n).withHead head := by
  fun_cases rename old new n
  case case17 head' form slots _ _ _ _ _ _ _ _ _ _ hhides =>
    have hhides' := hides_withHead old head (.mk head' form slots)
    simp_all [Node.withHead, rename, Node.form, Node.slots]
  case case18 head' form slots _ _ _ _ _ _ _ _ _ _ hhides =>
    have hhides' := hides_withHead old head (.mk head' form slots)
    simp_all [Node.withHead, rename, Node.form, Node.slots]
  all_goals simp_all +zetaDelta [Node.withHead, rename, Node.form, Node.slots]

end Scope

theorem SameBelow.trans {a b d : Node} (h : SameBelow a b) (h' : SameBelow b d) :
    SameBelow a d := by
  obtain ⟨head, rfl⟩ := h
  obtain ⟨head', rfl⟩ := h'
  exact ⟨head', rfl⟩

theorem SameBelow.rename (old new : Text) {a b : Node} (h : SameBelow a b) :
    SameBelow (rename old new a) (rename old new b) := by
  obtain ⟨head, rfl⟩ := h
  exact ⟨head, rename_withHead old new head a⟩

theorem dropItem_eraseIdx {ns : List Node} {i : Nat} (h : i < ns.length) :
    List.Forall₂ SameBelow (ns.eraseIdx i) (Node.dropItem ns i).1 := by
  have hsame (ms : List Node) : List.Forall₂ SameBelow ms ms :=
    List.forall₂_same.mpr fun n _ => sameBelow_refl n
  rw [List.eraseIdx_eq_take_drop_succ, Node.dropItem, List.drop_eq_getElem_cons h]
  cases ns.drop (i + 1) with
  | nil =>
    rw [List.append_nil]
    exact hsame _
  | cons next rest =>
    exact List.rel_append (hsame _) (.cons (sameBelow_prependComments _ _) (hsame _))

namespace Bindings

/-! ## The specifier that is consumed -/

/-- The index of the first specifier of an export, if it has a local name. -/
def first? (exported : Text) (specifiers : List Node) : Option Nat :=
  (specifiers.findIdx? (Node.importsExport exported)).filter fun i =>
    (specifiers[i]?.bind localName?).isSome

/-- The index of the specifier that is consumed in a statement. -/
def consumed? (module exported : Text) (n : Node) : Option Nat :=
  n.importParts?.bind fun (specifiers, source) =>
    if source = module then first? exported specifiers else none

theorem consumed?_importDecl (module exported : Text) (head : Head) (specifiers : List Node)
    (source : Node) : consumed? module exported (.importDecl head specifiers source) =
      if source.string? = some module then first? exported specifiers else none := by
  simp only [consumed?, Node.importParts?]
  cases source.string? with
  | none => rfl
  | some text => simp

theorem consumed?_eq (module exported : Text) (n : Node) :
    consumed? module exported n = (specifier? module exported n).map (·.1) := by
  unfold consumed? specifier?
  cases n.importParts? with
  | none => rfl
  | some parts =>
    obtain ⟨specifiers, source⟩ := parts
    dsimp only [Option.bind_some]
    split
    · unfold first?
      cases specifiers.findIdx? (Node.importsExport exported) with
      | none => rfl
      | some i =>
        rw [Option.filter_some, Option.bind_some]
        cases specifiers[i]?.bind localName? <;> rfl
    · rfl

theorem importsExport_withHead (head : Head) (exported : Text) (n : Node) :
    (n.withHead head).importsExport exported = n.importsExport exported := by
  fun_cases Node.importsExport exported n
  case case3 hdefault hnamed =>
    obtain ⟨head', form, slots⟩ := n
    unfold Node.importsExport
    split <;> try rfl
    all_goals
      rename_i heq
      cases heq
    · exact (hdefault _ _ rfl).elim
    · exact (hnamed _ _ _ rfl).elim
  all_goals rfl

/-- No other specifier of an export takes the place of the only one. -/
theorem first?_eraseIdx {exported : Text} {specifiers : List Node} {i : Nat}
    (h : first? exported specifiers = some i)
    (hone : specifiers.countP (Node.importsExport exported) ≤ 1) :
    first? exported (specifiers.eraseIdx i) = none := by
  obtain ⟨hfound, -⟩ := Option.filter_eq_some_iff.mp h
  obtain ⟨hi, hmatch, -⟩ := List.findIdx?_eq_some_iff_getElem.mp hfound
  have hcount := (List.getElem_cons_eraseIdx_perm hi).countP_eq (Node.importsExport exported)
  rw [List.countP_cons_of_pos hmatch] at hcount
  have hnone : (specifiers.eraseIdx i).countP (Node.importsExport exported) = 0 := by omega
  have hlost : (specifiers.eraseIdx i).findIdx? (Node.importsExport exported) = none := by
    rw [List.findIdx?_eq_none_iff]
    simpa [List.countP_eq_zero] using hnone
  rw [first?, hlost]
  rfl

theorem findIdx?_of_parts (exported : Text) {as bs : List Node}
    (h : List.Forall₂ SamePart as bs) :
    bs.findIdx? (Node.importsExport exported) = as.findIdx? (Node.importsExport exported) := by
  induction h with
  | nil => rfl
  | cons h _ ih => rw [List.findIdx?_cons, List.findIdx?_cons, ih, h.importsExport]

theorem isNamed_of_parts {as bs : List Node} (h : List.Forall₂ SamePart as bs) (i : Nat) :
    (bs[i]?.bind localName?).isSome = (as[i]?.bind localName?).isSome := by
  induction h generalizing i with
  | nil => rfl
  | cons h _ ih =>
    cases i with
    | zero => exact h.localName
    | succ i => exact ih i

theorem first?_of_parts (exported : Text) {as bs : List Node} (h : List.Forall₂ SamePart as bs) :
    first? exported bs = first? exported as := by
  unfold first?
  simp only [findIdx?_of_parts exported h, isNamed_of_parts h]

theorem importParts?_withHead (head : Head) (n : Node) :
    (n.withHead head).importParts? = n.importParts? := by
  fun_cases Node.importParts? n
  case case1 => rfl
  case case2 hnot =>
    obtain ⟨head', form, slots⟩ := n
    unfold Node.importParts?
    split
    · next heq =>
      cases heq
      exact (hnot _ _ _ rfl).elim
    · rfl

theorem importParts?_rename (old new : Text) (n : Node) : (rename old new n).importParts? =
    n.importParts?.map fun p => (p.1.map (rename old new), p.2) := by
  fun_cases rename old new n
  case case17 head form slots _ _ _ _ _ _ _ _ _ _ hhides =>
    cases form <;> first | rfl | skip
    case importDecl =>
      simp [hides] at hhides
  case case18 head form slots _ _ _ _ _ _ _ _ _ _ _ =>
    cases form <;> first | rfl | skip
    case importDecl =>
      rcases slots with _ | ⟨specifiers, _ | ⟨_ | ⟨source, _ | _⟩, _ | _⟩⟩ <;> first | rfl | skip
      have hsource := (samePart_rename old new source).string
      simp [renameSlots, renameAll, renameAll_eq_map, Node.importParts?, hsource,
        Option.map_map, Function.comp_def]
  all_goals rfl

/-! ## Statements with other comments -/

/-- Statements that differ in heads alone: their own, and those of the specifiers of an import. -/
inductive SameStatement : Node → Node → Prop where
  | below {a b : Node} (h : SameBelow a b) : SameStatement a b
  | importDecl {head head' : Head} {specifiers specifiers' : List Node} {source : Node}
      (h : List.Forall₂ SameBelow specifiers specifiers') :
      SameStatement (.importDecl head specifiers source) (.importDecl head' specifiers' source)

theorem SameStatement.refl (n : Node) : SameStatement n n := .below (sameBelow_refl n)

theorem SameStatement.of_importDecl {head : Head} {specifiers : List Node} {source b : Node}
    (h : SameStatement (.importDecl head specifiers source) b) :
    ∃ head' specifiers', b = .importDecl head' specifiers' source ∧
      List.Forall₂ SameBelow specifiers specifiers' := by
  cases h with
  | below h =>
    obtain ⟨head', rfl⟩ := h
    exact ⟨head', specifiers, rfl, List.forall₂_same.mpr fun n _ => sameBelow_refl n⟩
  | importDecl h => exact ⟨_, _, rfl, h⟩

theorem SameStatement.trans {a b d : Node} (h : SameStatement a b) (h' : SameStatement b d) :
    SameStatement a d := by
  cases h with
  | below h =>
    cases h' with
    | below h' => exact .below (h.trans h')
    | @importDecl head _ specifiers _ source h' =>
      obtain ⟨head', heq⟩ := h
      obtain ⟨head'', form, slots⟩ := a
      change Node.importDecl head specifiers source = .mk head' form slots at heq
      cases heq
      exact .importDecl h'
  | importDecl h =>
    obtain ⟨head', specifiers', rfl, hnext⟩ := h'.of_importDecl
    exact .importDecl (allRelated_trans (fun _ _ _ h h' => h.trans h') h hnext)

theorem SameStatement.rename (old new : Text) {a b : Node} (h : SameStatement a b) :
    SameStatement (rename old new a) (rename old new b) := by
  cases h with
  | below h => exact .below (h.rename old new)
  | importDecl h =>
    rw [rename_importDecl, rename_importDecl]
    exact .importDecl (List.rel_map (fun _ _ h => h.rename old new) h)

theorem samePart_of_sameBelow {a b : Node} (h : SameBelow a b) : SamePart a b := by
  refine ⟨string?_alike (alike_of_sameBelow h), fun exported => ?_, ?_⟩
  · obtain ⟨head, rfl⟩ := h
    exact importsExport_withHead head exported a
  · rw [localName?_of_sameBelow h]

theorem SameStatement.consumed? {module exported : Text} {a b : Node} (h : SameStatement a b) :
    consumed? module exported b = consumed? module exported a := by
  unfold Bindings.consumed?
  cases h with
  | below h =>
    obtain ⟨head, rfl⟩ := h
    rw [importParts?_withHead]
  | importDecl h =>
    have hparts := h.imp fun _ _ h => samePart_of_sameBelow h
    simp only [Node.importParts?, Option.bind_map, Function.comp_def,
      first?_of_parts exported hparts]

theorem consumed?_rename (old new module exported : Text) (n : Node) :
    consumed? module exported (rename old new n) = consumed? module exported n := by
  unfold consumed?
  rw [importParts?_rename]
  cases n.importParts? with
  | none => rfl
  | some parts =>
    have hparts : List.Forall₂ SamePart parts.1 (parts.1.map (Scope.rename old new)) :=
      List.forall₂_map_right_iff.mpr
        (List.forall₂_same.mpr fun n _ => samePart_rename old new n)
    simp only [Option.map_some, Option.bind_some, first?_of_parts exported hparts]

/-! ## Statements without what is consumed -/

/-- A statement without the specifier that is consumed for an export, if there is more to it. -/
def without? (module exported : Text) (n : Node) : Option Node :=
  match consumed? module exported n with
  | none => some n
  | some i =>
    if (n.slot "specifiers").length = 1 then none
    else some (n.modifySlot "specifiers" (·.eraseIdx i))

def withoutAll? (modules : List (Text × ModuleOptions)) (n : Node) : Option Node :=
  modules.foldlM (fun n (module, options) => without? module options.exported n) n

/-- A tree with its names changed as the entries say, one after another. -/
def renamedBy (registry : Registry) (n : Node) : Node :=
  registry.foldl (fun n (uid, binding) => rename binding.localName uid n) n

variable {module exported : Text} {n : Node} {i : Nat}

theorem without?_of_none (h : consumed? module exported n = none) :
    without? module exported n = some n := by
  simp only [without?, h]

theorem without?_importDecl {head : Head} {specifiers : List Node} {source : Node}
    (h : consumed? module exported (.importDecl head specifiers source) = some i) :
    without? module exported (.importDecl head specifiers source) =
      if specifiers.length = 1 then none
      else some (.importDecl head (specifiers.eraseIdx i) source) := by
  simp only [without?, h]
  rfl

theorem eq_importDecl_of_consumed? (h : consumed? module exported n = some i) :
    ∃ head specifiers source, n = .importDecl head specifiers source ∧ i < specifiers.length := by
  rw [consumed?_eq, Option.map_eq_some_iff] at h
  obtain ⟨⟨j, localName⟩, hspec, rfl⟩ := h
  obtain ⟨head, specifiers, source, specifier, rfl, hi, -⟩ := specifier?_spec hspec
  exact ⟨head, specifiers, source, rfl, (List.getElem?_eq_some_iff.mp hi).1⟩

theorem without?_some {n' : Node} (h : without? module exported n = some n') :
    (consumed? module exported n = none ∧ n' = n) ∨ ∃ head specifiers source i,
      n = .importDecl head specifiers source ∧ consumed? module exported n = some i ∧
        n' = .importDecl head (specifiers.eraseIdx i) source := by
  cases hindex : consumed? module exported n with
  | none =>
    rw [without?_of_none hindex] at h
    cases h
    exact .inl ⟨rfl, rfl⟩
  | some i =>
    obtain ⟨head, specifiers, source, rfl, -⟩ := eq_importDecl_of_consumed? hindex
    rw [without?_importDecl hindex] at h
    split at h
    · cases h
    · cases h
      exact .inr ⟨head, specifiers, source, i, rfl, rfl, rfl⟩

theorem without?_rename (old new module exported : Text) (n : Node) :
    without? module exported (rename old new n) =
      (without? module exported n).map (rename old new) := by
  cases h : consumed? module exported n with
  | none =>
    have h' := (consumed?_rename old new module exported n).trans h
    rw [without?_of_none h, without?_of_none h', Option.map_some]
  | some i =>
    have h' := (consumed?_rename old new module exported n).trans h
    obtain ⟨head, specifiers, source, rfl, -⟩ := eq_importDecl_of_consumed? h
    rw [rename_importDecl] at h' ⊢
    rw [without?_importDecl h, without?_importDecl h', List.length_map]
    split
    · rfl
    · rw [Option.map_some, rename_importDecl, List.eraseIdx_map]

theorem SameStatement.without? {a b : Node} (h : SameStatement a b) (module exported : Text) :
    Option.Rel SameStatement (without? module exported a) (without? module exported b) := by
  have hindex : Bindings.consumed? module exported b = Bindings.consumed? module exported a :=
    h.consumed?
  cases ha : Bindings.consumed? module exported a with
  | none =>
    rw [without?_of_none ha, without?_of_none (hindex.trans ha)]
    exact .some h
  | some i =>
    obtain ⟨head, specifiers, source, rfl, -⟩ := eq_importDecl_of_consumed? ha
    obtain ⟨head', specifiers', rfl, hspecifiers⟩ := h.of_importDecl
    rw [without?_importDecl ha, without?_importDecl (hindex.trans ha), hspecifiers.length_eq]
    split
    · exact .none
    · refine .some (.importDecl ?_)
      rw [List.eraseIdx_eq_take_drop_succ, List.eraseIdx_eq_take_drop_succ]
      exact List.rel_append (List.forall₂_take _ hspecifiers) (List.forall₂_drop _ hspecifiers)

theorem withoutAll?_cons (m : Text × ModuleOptions) (modules : List (Text × ModuleOptions))
    (n : Node) : withoutAll? (m :: modules) n =
      (without? m.1 m.2.exported n).bind (withoutAll? modules) := rfl

theorem withoutAll?_rename (old new : Text) (modules : List (Text × ModuleOptions)) (n : Node) :
    withoutAll? modules (rename old new n) = (withoutAll? modules n).map (rename old new) := by
  induction modules generalizing n with
  | nil => rfl
  | cons m modules ih =>
    rw [withoutAll?_cons, withoutAll?_cons, without?_rename]
    cases without? m.1 m.2.exported n with
    | none => rfl
    | some n' => exact ih n'

theorem SameStatement.withoutAll? {a b : Node} (h : SameStatement a b)
    (modules : List (Text × ModuleOptions)) :
    Option.Rel SameStatement (withoutAll? modules a) (withoutAll? modules b) := by
  induction modules generalizing a b with
  | nil => exact .some h
  | cons m modules ih =>
    rw [withoutAll?_cons, withoutAll?_cons]
    have hrel := h.without? m.1 m.2.exported
    revert hrel
    generalize Bindings.without? m.1 m.2.exported a = x
    generalize Bindings.without? m.1 m.2.exported b = y
    intro hrel
    cases hrel with
    | some h => exact ih h
    | none => exact .none

theorem withoutAll?_renamedBy (registry : Registry) (modules : List (Text × ModuleOptions))
    (n : Node) : withoutAll? modules (renamedBy registry n) =
      (withoutAll? modules n).map (renamedBy registry) := by
  induction registry generalizing n with
  | nil => exact Option.map_id'.symm
  | cons e registry ih =>
    change withoutAll? modules (renamedBy registry (rename e.2.localName e.1 n)) = _
    rw [ih, withoutAll?_rename, Option.map_map]
    rfl

theorem SameStatement.renamedBy {a b : Node} (h : SameStatement a b) (registry : Registry) :
    SameStatement (renamedBy registry a) (renamedBy registry b) := by
  induction registry generalizing a b with
  | nil => exact h
  | cons e registry ih => exact ih (h.rename e.2.localName e.1)

/-! ## Lists of statements -/

abbrev AllSame : List Node → List Node → Prop := List.Forall₂ SameStatement

namespace AllSame

variable {as bs ds as' bs' : List Node}

theorem refl (ns : List Node) : AllSame ns ns := List.forall₂_same.mpr fun n _ => .refl n

theorem trans (h : AllSame as bs) (h' : AllSame bs ds) : AllSame as ds :=
  allRelated_trans (fun _ _ _ h h' => h.trans h') h h'

theorem append (h : AllSame as bs) (h' : AllSame as' bs') : AllSame (as ++ as') (bs ++ bs') :=
  List.rel_append h h'

theorem renamedBy (h : AllSame as bs) (registry : Registry) :
    AllSame (as.map (renamedBy registry)) (bs.map (Bindings.renamedBy registry)) :=
  List.rel_map (fun _ _ h => h.renamedBy registry) h

theorem without? (h : AllSame as bs) (module exported : Text) :
    AllSame (as.filterMap (without? module exported))
      (bs.filterMap (Bindings.without? module exported)) :=
  List.rel_filterMap (fun _ _ h => h.without? module exported) h

theorem withoutAll? (h : AllSame as bs) (modules : List (Text × ModuleOptions)) :
    AllSame (as.filterMap (withoutAll? modules)) (bs.filterMap (Bindings.withoutAll? modules)) :=
  List.rel_filterMap (fun _ _ h => h.withoutAll? modules) h

end AllSame

/-- Whether something is consumed in a statement for a module. -/
def holds (m : Text × ModuleOptions) (n : Node) : Bool := (consumed? m.1 m.2.exported n).isSome

theorem countP_holds_of_same {as bs : List Node} (h : AllSame as bs) (m : Text × ModuleOptions) :
    bs.countP (holds m) = as.countP (holds m) := by
  induction h with
  | nil => rfl
  | cons h _ ih => rw [List.countP_cons, List.countP_cons, ih, holds, holds, h.consumed?]

theorem holds_rename (old new : Text) (m : Text × ModuleOptions) (n : Node) :
    holds m (rename old new n) = holds m n :=
  congrArg Option.isSome (consumed?_rename old new m.1 m.2.exported n)

theorem holds_renamedBy (registry : Registry) (m : Text × ModuleOptions) (n : Node) :
    holds m (renamedBy registry n) = holds m n := by
  induction registry generalizing n with
  | nil => rfl
  | cons e registry ih => exact (ih _).trans (holds_rename e.2.localName e.1 m n)

theorem countP_holds_renamedBy {registry : Registry} {as bs : List Node}
    (h : AllSame (as.map (renamedBy registry)) bs) (m : Text × ModuleOptions) :
    bs.countP (holds m) = as.countP (holds m) := by
  rw [countP_holds_of_same h, List.countP_map]
  exact List.countP_congr fun n _ => by rw [Function.comp_apply, holds_renamedBy]

theorem withoutAll?_renamedAll (registry : Registry) (modules : List (Text × ModuleOptions))
    (ns : List Node) : (ns.map (renamedBy registry)).filterMap (withoutAll? modules) =
      (ns.filterMap (withoutAll? modules)).map (renamedBy registry) := by
  rw [List.map_filterMap, List.filterMap_map]
  exact List.filterMap_congr fun n _ => withoutAll?_renamedBy registry modules n

theorem without?_cons (module exported : Text) (n : Node) (ns : List Node) :
    (n :: ns).filterMap (without? module exported) =
      (without? module exported n).toList ++ ns.filterMap (without? module exported) := by
  rw [List.filterMap_cons]
  cases without? module exported n <;> rfl

theorem without?_renameAll (old new module exported : Text) (ns : List Node) :
    (ns.filterMap (without? module exported)).map (rename old new) =
      (ns.map (rename old new)).filterMap (without? module exported) := by
  rw [List.map_filterMap, List.filterMap_map]
  exact List.filterMap_congr fun n _ => (without?_rename old new module exported n).symm

/-! ## Different modules -/

theorem source_of_consumed? {module exported : Text} {head : Head} {specifiers : List Node}
    {source : Node} {i : Nat}
    (h : consumed? module exported (.importDecl head specifiers source) = some i) :
    source.string? = some module := by
  rw [consumed?_importDecl] at h
  split at h
  · assumption
  · cases h

theorem holds_of_source {m : Text × ModuleOptions} {module : Text} {head : Head}
    {specifiers : List Node} {source : Node} (hsource : source.string? = some module)
    (hne : m.1 ≠ module) : holds m (.importDecl head specifiers source) = false := by
  simp [holds, consumed?_importDecl, hsource, hne.symm]

theorem holds_without? {m : Text × ModuleOptions} {module exported : Text} (hne : m.1 ≠ module)
    {n n' : Node} (h : without? module exported n = some n') : holds m n' = holds m n := by
  rcases without?_some h with ⟨-, rfl⟩ | ⟨head, specifiers, source, i, rfl, hindex, rfl⟩
  · rfl
  · have hsource := source_of_consumed? hindex
    rw [holds_of_source hsource hne, holds_of_source hsource hne]

theorem not_holds_of_without? {m : Text × ModuleOptions} {module exported : Text}
    (hne : m.1 ≠ module) {n : Node} (h : without? module exported n = none) :
    holds m n = false := by
  cases hindex : consumed? module exported n with
  | none =>
    rw [without?_of_none hindex] at h
    cases h
  | some i =>
    obtain ⟨head, specifiers, source, rfl, -⟩ := eq_importDecl_of_consumed? hindex
    exact holds_of_source (source_of_consumed? hindex) hne

theorem countP_holds_without? {m : Text × ModuleOptions} {module exported : Text}
    (hne : m.1 ≠ module) (ns : List Node) :
    (ns.filterMap (without? module exported)).countP (holds m) = ns.countP (holds m) := by
  induction ns with
  | nil => rfl
  | cons n ns ih =>
    cases h : without? module exported n with
    | none =>
      rw [List.filterMap_cons_none h, List.countP_cons, not_holds_of_without? hne h, ih]
      rfl
    | some n' =>
      rw [List.filterMap_cons_some h, List.countP_cons, List.countP_cons, holds_without? hne h, ih]

/-! ## Statements with one specifier of an export -/

/-- How many specifiers of the export of a module a statement has. -/
def matching (m : Text × ModuleOptions) (n : Node) : Nat :=
  match n.importParts? with
  | some (specifiers, source) =>
    if source = m.1 then specifiers.countP (Node.importsExport m.2.exported) else 0
  | none => 0

theorem matching_importDecl (m : Text × ModuleOptions) (head : Head) (specifiers : List Node)
    (source : Node) : matching m (.importDecl head specifiers source) =
      if source.string? = some m.1 then specifiers.countP (Node.importsExport m.2.exported)
      else 0 := by
  simp only [matching, Node.importParts?]
  cases source.string? with
  | none => rfl
  | some text => simp

theorem matching_without? {m : Text × ModuleOptions} {module exported : Text} {n n' : Node}
    (h : without? module exported n = some n') : matching m n' ≤ matching m n := by
  rcases without?_some h with ⟨-, rfl⟩ | ⟨head, specifiers, source, i, rfl, -, rfl⟩
  · exact Nat.le_refl _
  · rw [matching_importDecl, matching_importDecl]
    split
    · exact (List.eraseIdx_sublist _ _).countP_le
    · exact Nat.le_refl _

/-- The first specifier of an export is the only one if there is at most one. -/
theorem not_holds_without? {m : Text × ModuleOptions} {n n' : Node} (hone : matching m n ≤ 1)
    (h : without? m.1 m.2.exported n = some n') : holds m n' = false := by
  rcases without?_some h with ⟨hnone, rfl⟩ | ⟨head, specifiers, source, i, rfl, hindex, rfl⟩
  · rw [holds, hnone]
    rfl
  · have hsource := source_of_consumed? hindex
    rw [consumed?_importDecl, if_pos hsource] at hindex
    rw [matching_importDecl, if_pos hsource] at hone
    rw [holds, consumed?_importDecl, if_pos hsource, first?_eraseIdx hindex hone]
    rfl

theorem holds_withoutAll? {m : Text × ModuleOptions} {modules : List (Text × ModuleOptions)}
    (hne : m.1 ∉ modules.map (·.1)) {n n' : Node} (h : withoutAll? modules n = some n') :
    holds m n' = holds m n := by
  induction modules generalizing n with
  | nil =>
    cases h
    rfl
  | cons m' modules ih =>
    rw [List.map_cons, List.mem_cons, not_or] at hne
    rw [withoutAll?_cons, Option.bind_eq_some_iff] at h
    obtain ⟨n'', hfirst, hrest⟩ := h
    exact (ih hne.2 hrest).trans (holds_without? hne.1 hfirst)

theorem not_holds_withoutAll? {m : Text × ModuleOptions} {modules : List (Text × ModuleOptions)}
    (hmodules : (modules.map (·.1)).Nodup) (hm : m ∈ modules) {n n' : Node}
    (hone : matching m n ≤ 1) (h : withoutAll? modules n = some n') : holds m n' = false := by
  induction modules generalizing n with
  | nil => cases hm
  | cons m' modules ih =>
    obtain ⟨hnew, hmodules⟩ := List.nodup_cons.mp hmodules
    rw [withoutAll?_cons, Option.bind_eq_some_iff] at h
    obtain ⟨n'', hfirst, hrest⟩ := h
    rcases List.mem_cons.mp hm with rfl | hm
    · -- the modules behind this one leave what it left
      exact (holds_withoutAll? hnew hrest).trans (not_holds_without? hone hfirst)
    · exact ih hmodules hm (Nat.le_trans (matching_without? hfirst) hone) hrest

end Bindings

end InlineTemplates
