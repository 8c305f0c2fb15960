import Mathlib.Data.List.Forall2
import InlineTemplates.Proofs.Mentioned

/-!
# Trees that declare alike

Two trees are alike if they differ only in names, by a relation, and in applications. Then they
declare the same names up to the relation, and so do the scopes in them.
-/

namespace InlineTemplates

open Scope

/-- Whether a node of this form applies a function to a template or to arguments. -/
def Form.isApplication : Form → Bool
  | tagged | call _ => true
  | _ => false

/-- Trees that differ only in names, related by `R`, and in applications. -/
inductive Alike (R : Text → Text → Prop) : Node → Node → Prop where
  | name {h h' : Head} {i i' : Text} : R i i' → Alike R (.name h i) (.name h' i')
  | mk {h h' : Head} {form : Form} {slots slots' : List (List Node)} :
    List.Forall₂ (List.Forall₂ (Alike R)) slots slots' → (∀ i, form = .name i → slots ≠ []) →
    Alike R (.mk h form slots) (.mk h' form slots')
  | exportSpecifier {h h' : Head} {l l' : Node} {e e' : List Node} :
    Alike R l l' → Alike R (.exportSpecifier h l e) (.exportSpecifier h' l' e')
  | property {h h' : Head} {c s s' : Bool} {key key' value value' : Node} :
    Alike R key key' → Alike R value value' →
    Alike R (.property h c s key value) (.property h' c s' key' value')
  | application {a b : Node} : a.form.isApplication → b.form.isApplication → Alike R a b

abbrev AllAlike (R : Text → Text → Prop) : List Node → List Node → Prop :=
  List.Forall₂ (Alike R)

theorem Alike.induct {R : Text → Text → Prop} {motive : (a b : Node) → Alike R a b → Prop}
    (name : ∀ {h h' i i'} (hi : R i i'), motive (.name h i) (.name h' i') (.name hi))
    (mk : ∀ {h h' form slots slots'}
      (_ : List.Forall₂ (List.Forall₂ fun a b => ∃ h : Alike R a b, motive a b h) slots slots')
      (alike : Alike R (.mk h form slots) (.mk h' form slots')),
      motive (.mk h form slots) (.mk h' form slots') alike)
    (exportSpecifier : ∀ {h h' l l' e e'} (hl : Alike R l l'), motive l l' hl →
      motive (.exportSpecifier h l e) (.exportSpecifier h' l' e') (.exportSpecifier hl))
    (property : ∀ {h h' c s s' key key' value value'} (hkey : Alike R key key')
      (hvalue : Alike R value value'), motive key key' hkey → motive value value' hvalue →
      motive (.property h c s key value) (.property h' c s' key' value') (.property hkey hvalue))
    (application : ∀ {a b : Node} (ha : a.form.isApplication) (hb : b.form.isApplication),
      motive a b (.application ha hb))
    {a b : Node} (h : Alike R a b) : motive a b h :=
  @Alike.rec R motive
    (fun slots slots' _ =>
      List.Forall₂ (List.Forall₂ fun a b => ∃ h : Alike R a b, motive a b h) slots slots')
    (fun as bs _ => List.Forall₂ (fun a b => ∃ h : Alike R a b, motive a b h) as bs)
    name (fun hs hname ih => mk ih (.mk hs hname)) exportSpecifier property application .nil
    (fun _ _ ih ihs => .cons ih ihs) .nil (fun h _ ih ihs => .cons ⟨h, ih⟩ ihs) _ _ h

variable {R : Text → Text → Prop} {a b : Node} {as bs : List Node}

/-! ## Lists and slots -/

mutual

theorem alike_refl (hR : ∀ x, R x x) : ∀ n, Alike R n n
  | .mk _ form [] => by
    by_cases h : ∃ i, form = .name i
    · obtain ⟨i, rfl⟩ := h
      exact .name (hR i)
    · exact .mk .nil fun i hi => absurd ⟨i, hi⟩ h
  | .mk _ _ (slot :: rest) =>
    .mk (.cons (allAlike_refl hR slot) (slotsAlike_refl hR rest)) fun _ _ => List.cons_ne_nil _ _

theorem slotsAlike_refl (hR : ∀ x, R x x) :
    ∀ slots, List.Forall₂ (AllAlike R) slots slots
  | [] => .nil
  | slot :: rest => .cons (allAlike_refl hR slot) (slotsAlike_refl hR rest)

theorem allAlike_refl (hR : ∀ x, R x x) : ∀ ns, AllAlike R ns ns
  | [] => .nil
  | n :: rest => .cons (alike_refl hR n) (allAlike_refl hR rest)

end

theorem allAlike_map {f : Node → Node} {ns : List Node}
    (h : ∀ n ∈ ns, Alike R n (f n)) : AllAlike R ns (ns.map f) :=
  List.forall₂_map_right_iff.mpr (List.forall₂_same.mpr h)

theorem slotsAlike_map {f : Node → Node} {slots : List (List Node)}
    (h : ∀ slot ∈ slots, ∀ n ∈ slot, Alike R n (f n)) :
    List.Forall₂ (AllAlike R) slots (slots.map (List.map f)) :=
  List.forall₂_map_right_iff.mpr
    (List.forall₂_same.mpr fun slot hslot => allAlike_map (h slot hslot))

/-! ## Names -/

theorem rel_of_isApplication {α : Type} {P : α → α → Prop} {f : Node → α} {x : α} (hx : P x x)
    (hf : ∀ n : Node, n.form.isApplication → f n = x) (ha : a.form.isApplication)
    (hb : b.form.isApplication) : P (f a) (f b) := by
  rw [hf a ha, hf b hb]
  exact hx

theorem ident?_of_isApplication (n : Node) (h : n.form.isApplication) : n.ident? = none := by
  obtain ⟨_, form, _⟩ := n
  cases form <;> first | rfl | cases h

theorem ident?_alike (h : Alike R a b) : Option.Rel R a.ident? b.ident? := by
  cases h with
  | name h => exact .some h
  | @mk _ _ form slots slots' hs hname =>
    cases form <;> first | exact .none | skip
    rename_i ident
    cases hs with
    | nil => exact absurd rfl (hname _ rfl)
    | cons => exact .none
  | exportSpecifier => exact .none
  | property => exact .none
  | application ha hb => exact rel_of_isApplication .none ident?_of_isApplication ha hb

theorem idents_alike (h : AllAlike R as bs) : List.Forall₂ R (idents as) (idents bs) :=
  List.rel_filterMap (fun _ _ h => ident?_alike h) h

theorem toList_alike {x y : Option Text} (h : Option.Rel R x y) :
    List.Forall₂ R x.toList y.toList := by
  cases h with
  | some h => exact .cons h .nil
  | none => exact .nil

theorem localName?_of_isApplication (n : Node) (h : n.form.isApplication) :
    localName? n = none := by
  obtain ⟨_, form, _⟩ := n
  cases form <;> first | rfl | cases h

theorem localName?_alike (h : Alike R a b) : Option.Rel R (localName? a) (localName? b) := by
  cases h with
  | name => exact .none
  | @mk _ _ form slots slots' hs =>
    cases form <;> first | exact .none | skip
    case importDefault =>
      rcases hs with _ | ⟨_ | ⟨h, _ | _⟩, _ | _⟩ <;> first | exact .none | exact ident?_alike h
    case importNamespace =>
      rcases hs with _ | ⟨_ | ⟨h, _ | _⟩, _ | _⟩ <;> first | exact .none | exact ident?_alike h
    case importNamed =>
      rcases hs with _ | ⟨_ | ⟨_, _ | _⟩, _ | ⟨_ | ⟨h, _ | _⟩, _ | _⟩⟩ <;>
        first | exact .none | exact ident?_alike h
  | exportSpecifier => exact .none
  | property => exact .none
  | application ha hb => exact rel_of_isApplication .none localName?_of_isApplication ha hb

theorem paramName?_of_isApplication (n : Node) (h : n.form.isApplication) :
    paramName? n = none := by
  obtain ⟨_, form, _⟩ := n
  cases form <;> first | rfl | cases h

theorem paramName?_alike (h : Alike R a b) : Option.Rel R (paramName? a) (paramName? b) := by
  cases h with
  | name => exact .none
  | @mk _ _ form slots slots' hs =>
    cases form <;> first | exact .none | skip
    rcases hs with _ | ⟨_ | ⟨h, _ | _⟩, _ | ⟨_, _ | _⟩⟩ <;>
      first | exact .none | exact ident?_alike h
  | exportSpecifier => exact .none
  | property => exact .none
  | application ha hb => exact rel_of_isApplication .none paramName?_of_isApplication ha hb

theorem paramNames_alike (h : AllAlike R as bs) : List.Forall₂ R (paramNames as) (paramNames bs) :=
  List.rel_filterMap (fun _ _ h => paramName?_alike h) h

theorem declaratorName?_of_isApplication (n : Node) (h : n.form.isApplication) :
    declaratorName? n = none := by
  obtain ⟨_, form, _⟩ := n
  cases form <;> first | rfl | cases h

theorem declaratorName?_alike (h : Alike R a b) :
    Option.Rel R (declaratorName? a) (declaratorName? b) := by
  cases h with
  | name => exact .none
  | @mk _ _ form slots slots' hs =>
    cases form <;> first | exact .none | skip
    rcases hs with _ | ⟨_ | ⟨h, _ | _⟩, _ | ⟨_, _ | _⟩⟩ <;>
      first | exact .none | exact ident?_alike h
  | exportSpecifier => exact .none
  | property => exact .none
  | application ha hb => exact rel_of_isApplication .none declaratorName?_of_isApplication ha hb

theorem declaratorNames_alike (h : AllAlike R as bs) :
    List.Forall₂ R (declaratorNames as) (declaratorNames bs) :=
  List.rel_filterMap (fun _ _ h => declaratorName?_alike h) h

/-! ## Declarations -/

theorem hoisted_of_isApplication (n : Node) (h : n.form.isApplication) : hoisted n = [] := by
  obtain ⟨_, form, _⟩ := n
  cases form <;> first | rfl | cases h

theorem hoistedAll_alike_of
    (h : List.Forall₂ (fun a b => ∃ _ : Alike R a b, List.Forall₂ R (hoisted a) (hoisted b))
      as bs) :
    List.Forall₂ R (hoistedAll as) (hoistedAll bs) := by
  induction h with
  | nil => exact .nil
  | cons h _ ih =>
    simp only [hoistedAll]
    exact List.rel_append h.2 ih

theorem hoisted_alike (h : Alike R a b) : List.Forall₂ R (hoisted a) (hoisted b) := by
  induction h using Alike.induct with
  | name => exact .nil
  | @mk _ _ form slots slots' hs alike =>
    cases form <;> first | exact .nil | skip
    case varDecl kind _ =>
      rcases hs with _ | ⟨h, _ | _⟩ <;> first | exact .nil | skip
      simp only [hoisted]
      split
      · exact declaratorNames_alike (h.imp fun _ _ h => h.1)
      · exact .nil
    case block =>
      rcases hs with _ | ⟨h, _ | _⟩ <;> first | exact .nil | exact hoistedAll_alike_of h
    case ifStmt =>
      rcases hs with _ | ⟨_ | ⟨_, _ | _⟩, _ | ⟨_ | ⟨hthen, _ | _⟩, _ | ⟨helse, _ | _⟩⟩⟩ <;>
        first | exact .nil | skip
      simp only [hoisted]
      exact List.rel_append hthen.2 (hoistedAll_alike_of helse)
    case forStmt =>
      rcases hs with _ | ⟨hinit, _ | ⟨_, _ | ⟨_, _ | ⟨_ | ⟨hbody, _ | _⟩, _ | _⟩⟩⟩⟩ <;>
        first | exact .nil | skip
      simp only [hoisted]
      exact List.rel_append (hoistedAll_alike_of hinit) hbody.2
    case forIn =>
      rcases hs with
        _ | ⟨_ | ⟨hname, _ | _⟩, _ | ⟨_ | ⟨_, _ | _⟩, _ | ⟨_ | ⟨hbody, _ | _⟩, _ | _⟩⟩⟩ <;>
        first | exact .nil | skip
      simp only [hoisted]
      refine List.rel_append ?_ hbody.2
      split
      · exact toList_alike (ident?_alike hname.1)
      · exact .nil
    case whileStmt =>
      rcases hs with _ | ⟨_ | ⟨_, _ | _⟩, _ | ⟨_ | ⟨hbody, _ | _⟩, _ | _⟩⟩ <;>
        first | exact .nil | skip
      simp only [hoisted]
      exact hbody.2
    case doWhile =>
      rcases hs with _ | ⟨_ | ⟨hbody, _ | _⟩, _ | ⟨_ | ⟨_, _ | _⟩, _ | _⟩⟩ <;>
        first | exact .nil | skip
      simp only [hoisted]
      exact hbody.2
    case tryStmt =>
      rcases hs with _ | ⟨_ | ⟨hblock, _ | _⟩, _ | ⟨hhandler, _ | ⟨hfinal, _ | _⟩⟩⟩ <;>
        first | exact .nil | skip
      simp only [hoisted]
      exact List.rel_append (List.rel_append hblock.2 (hoistedAll_alike_of hhandler))
        (hoistedAll_alike_of hfinal)
    case catchClause =>
      rcases hs with _ | ⟨_, _ | ⟨_ | ⟨hbody, _ | _⟩, _ | _⟩⟩ <;>
        first | exact .nil | skip
      simp only [hoisted]
      exact hbody.2
  | exportSpecifier => exact .nil
  | property => exact .nil
  | application ha hb => exact rel_of_isApplication .nil hoisted_of_isApplication ha hb

theorem declaration_of_isApplication (n : Node) (h : n.form.isApplication) : declaration n = n := by
  obtain ⟨_, form, _⟩ := n
  cases form <;> first | rfl | cases h

theorem declaration_alike (h : Alike R a b) : Alike R (declaration a) (declaration b) := by
  have hab := h
  cases h with
  | name => exact hab
  | @mk _ _ form slots slots' hs =>
    cases form <;> first | exact hab | skip
    rcases hs with _ | ⟨_ | ⟨h, _ | _⟩, _ | ⟨_, _ | ⟨_, _ | _⟩⟩⟩ <;> first | exact h | exact hab
  | exportSpecifier => exact hab
  | property => exact hab
  | application ha hb =>
    rw [declaration_of_isApplication _ ha, declaration_of_isApplication _ hb]
    exact hab

theorem declaredBy_alike (h : Alike R a b) : List.Forall₂ R (declaredBy a) (declaredBy b) := by
  have hd := declaration_alike h
  unfold declaredBy
  generalize declaration a = a' at hd ⊢
  generalize declaration b = b' at hd ⊢
  cases hd with
  | name => exact .nil
  | @mk _ _ form slots slots' hs =>
    cases form <;> first | exact .nil | skip
    case importDecl =>
      rcases hs with _ | ⟨hspecs, _ | ⟨_ | ⟨_, _ | _⟩, _ | _⟩⟩ <;> first | exact .nil | skip
      exact List.rel_filterMap (fun _ _ h => localName?_alike h) hspecs
    case functionDecl =>
      rcases hs with _ | ⟨_ | ⟨hname, _ | _⟩, _ | ⟨_, _ | ⟨_ | ⟨_, _ | _⟩, _ | _⟩⟩⟩ <;>
        first | exact .nil | skip
      exact toList_alike (ident?_alike hname)
    case classDecl =>
      rcases hs with _ | ⟨hname, _ | ⟨_, _ | ⟨_ | ⟨_, _ | _⟩, _ | _⟩⟩⟩ <;>
        first | exact .nil | skip
      exact idents_alike hname
    case varDecl kind _ =>
      rcases hs with _ | ⟨h, _ | _⟩ <;> first | exact .nil | skip
      cases kind <;> first | exact .nil | exact declaratorNames_alike h
  | exportSpecifier => exact .nil
  | property => exact .nil
  | application ha hb =>
    obtain ⟨_, form, _⟩ := a'
    obtain ⟨_, form', _⟩ := b'
    cases form <;> cases ha <;> cases form' <;> cases hb <;> exact .nil

theorem declaredInBlock_alike (h : AllAlike R as bs) :
    List.Forall₂ R (declaredInBlock as) (declaredInBlock bs) :=
  List.rel_flatMap h fun _ _ h => declaredBy_alike h

theorem declared_alike (h : AllAlike R as bs) : List.Forall₂ R (declared as) (declared bs) :=
  List.rel_append (declaredInBlock_alike h)
    (List.rel_flatMap h fun _ _ h => hoisted_alike (declaration_alike h))

theorem bodyNames_of_isApplication (n : Node) (h : n.form.isApplication) : bodyNames n = [] := by
  obtain ⟨_, form, _⟩ := n
  cases form <;> first | rfl | cases h

theorem bodyNames_alike (h : Alike R a b) : List.Forall₂ R (bodyNames a) (bodyNames b) := by
  cases h with
  | name => exact .nil
  | @mk _ _ form slots slots' hs =>
    cases form <;> first | exact .nil | skip
    rcases hs with _ | ⟨h, _ | _⟩ <;> first | exact .nil | exact declared_alike h
  | exportSpecifier => exact .nil
  | property => exact .nil
  | application ha hb => exact rel_of_isApplication .nil bodyNames_of_isApplication ha hb

theorem ownNames_of_isApplication (n : Node) (h : n.form.isApplication) : ownNames n = [] := by
  obtain ⟨_, form, _⟩ := n
  cases form <;> first | rfl | cases h

theorem ownNames_alike (h : Alike R a b) : List.Forall₂ R (ownNames a) (ownNames b) := by
  cases h with
  | name => exact .nil
  | @mk _ _ form slots slots' hs =>
    cases form <;> first | exact .nil | skip
    case function =>
      rcases hs with _ | ⟨hname, _ | ⟨_, _ | ⟨_ | ⟨_, _ | _⟩, _ | _⟩⟩⟩ <;>
        first | exact .nil | exact idents_alike hname
    case classExpr =>
      rcases hs with _ | ⟨hname, _ | ⟨_, _ | ⟨_ | ⟨_, _ | _⟩, _ | _⟩⟩⟩ <;>
        first | exact .nil | exact idents_alike hname
  | exportSpecifier => exact .nil
  | property => exact .nil
  | application ha hb => exact rel_of_isApplication .nil ownNames_of_isApplication ha hb

theorem defaultNames_of_isApplication (n : Node) (h : n.form.isApplication) :
    defaultNames n = [] := by
  obtain ⟨_, form, _⟩ := n
  cases form <;> first | rfl | cases h

theorem defaultNames_alike (h : Alike R a b) :
    List.Forall₂ R (defaultNames a) (defaultNames b) := by
  cases h with
  | name => exact .nil
  | @mk _ _ form slots slots' hs =>
    cases form <;> first | exact .nil | skip
    rcases hs with _ | ⟨_ | ⟨h, _ | _⟩, _ | _⟩ <;> first | exact .nil | exact ownNames_alike h
  | exportSpecifier => exact .nil
  | property => exact .nil
  | application ha hb => exact rel_of_isApplication .nil defaultNames_of_isApplication ha hb

theorem moduleNames_alike (h : AllAlike R as bs) :
    List.Forall₂ R (moduleNames as) (moduleNames bs) :=
  List.rel_append (declared_alike h) (List.rel_flatMap h fun _ _ h => defaultNames_alike h)

/-! ## Scopes -/

/-- Scopes whose names are related one by one. -/
structure Env.Alike (R : Text → Text → Prop) (e e' : Env) : Prop where
  inner : List.Forall₂ R e.inner e'.inner
  early : List.Forall₂ R e.early e'.early
  late : List.Forall₂ R e.late e'.late

theorem plain_alike : Env.Alike R .plain .plain := ⟨.nil, .nil, .nil⟩

theorem plainIf_alike {holds holds' : Bool} (h : holds = holds') :
    Option.Rel (Env.Alike R) (plainIf holds) (plainIf holds') := by
  rw [← h]
  cases holds with
  | true => exact .some plain_alike
  | false => exact .none

theorem isSome_of_rel {x y : Option Text} (h : Option.Rel R x y) : x.isSome = y.isSome := by
  cases h <;> rfl

theorem isExportSpecifier_of_isApplication (n : Node) (h : n.form.isApplication) :
    isExportSpecifier n = false := by
  obtain ⟨_, form, _⟩ := n
  cases form <;> first | rfl | cases h

theorem isExportSpecifier_alike (h : Alike R a b) : isExportSpecifier a = isExportSpecifier b := by
  cases h with
  | name => rfl
  | @mk _ _ form slots slots' hs =>
    cases form <;> first | rfl | skip
    rcases hs with _ | ⟨_ | ⟨_, _ | _⟩, _ | ⟨_, _ | _⟩⟩ <;> rfl
  | exportSpecifier => rfl
  | property => rfl
  | application ha hb => exact rel_of_isApplication rfl isExportSpecifier_of_isApplication ha hb

theorem exportFlag_alike {source source' : List Node} (hsource : AllAlike R source source')
    (h : AllAlike R as bs) : (source.isEmpty && as.all isExportSpecifier) =
      (source'.isEmpty && bs.all isExportSpecifier) := by
  have hall : as.all isExportSpecifier = bs.all isExportSpecifier := by
    induction h with
    | nil => rfl
    | cons h _ ih => rw [List.all_cons, List.all_cons, isExportSpecifier_alike h, ih]
  rw [hall]
  cases hsource <;> rfl

theorem loopNames_alike (kind : VarKind) {xs ys : List Text} (h : List.Forall₂ R xs ys) :
    List.Forall₂ R (loopNames kind xs) (loopNames kind ys) := by
  unfold loopNames
  split
  · exact .nil
  · exact h

theorem initialName_of_isApplication (n : Node) (h : n.form.isApplication) :
    initialName n = [] := by
  obtain ⟨_, form, _⟩ := n
  cases form <;> first | rfl | cases h

theorem initialName_alike (h : Alike R a b) : List.Forall₂ R (initialName a) (initialName b) := by
  cases h with
  | name => exact .nil
  | @mk _ _ form slots slots' hs =>
    cases form <;> first | exact .nil | skip
    rcases hs with _ | ⟨h, _ | _⟩ <;>
      first | exact .nil | exact loopNames_alike _ (declaratorNames_alike h)
  | exportSpecifier => exact .nil
  | property => exact .nil
  | application ha hb => exact rel_of_isApplication .nil initialName_of_isApplication ha hb

theorem initialNames_alike (h : AllAlike R as bs) :
    List.Forall₂ R (initialNames as) (initialNames bs) := by
  rcases h with _ | ⟨h, _ | _⟩ <;> first | exact .nil | exact initialName_alike h

theorem paramScope_alike {own own' : List Text} (hown : List.Forall₂ R own own')
    (hparams : AllAlike R as bs) (hbody : Alike R a b) :
    Env.Alike R (paramScope own as a) (paramScope own' bs b) :=
  ⟨List.rel_append hown (paramNames_alike hparams), .nil, bodyNames_alike hbody⟩

theorem bodyScope_alike {own own' : List Text} (hown : List.Forall₂ R own own')
    (hparams : AllAlike R as bs) (hbody : Alike R a b) :
    Env.Alike R (bodyScope own as a) (bodyScope own' bs b) :=
  ⟨List.rel_append hown (List.rel_append (paramNames_alike hparams) (bodyNames_alike hbody)),
    .nil, .nil⟩

abbrev ScopesAlike (R : Text → Text → Prop) : List (Option Env) → List (Option Env) → Prop :=
  List.Forall₂ (Option.Rel (Env.Alike R))

theorem plainScopes_alike (specs : List Slot) :
    ScopesAlike R (specs.map fun _ => some .plain) (specs.map fun _ => some .plain) := by
  induction specs with
  | nil => exact .nil
  | cons _ _ ih => exact .cons (.some plain_alike) ih

theorem slotScopes_alike {h h' : Head} {form : Form} {slots slots' : List (List Node)}
    (hs : List.Forall₂ (AllAlike R) slots slots') :
    ScopesAlike R (slotScopes (.mk h form slots)) (slotScopes (.mk h' form slots')) := by
  have hplain := plainScopes_alike (R := R) form.slots
  cases form <;> first | exact hplain | skip
  case arrow =>
    rcases hs with _ | ⟨hparams, _ | ⟨_ | ⟨hbody, _ | _⟩, _ | _⟩⟩ <;> first | exact hplain | skip
    exact .cons (.some (paramScope_alike .nil hparams hbody))
      (.cons (.some (bodyScope_alike .nil hparams hbody)) .nil)
  case function =>
    rcases hs with _ | ⟨hown, _ | ⟨hparams, _ | ⟨_ | ⟨hbody, _ | _⟩, _ | _⟩⟩⟩ <;>
      first | exact hplain | skip
    exact .cons .none (.cons (.some (paramScope_alike (idents_alike hown) hparams hbody))
      (.cons (.some (bodyScope_alike (idents_alike hown) hparams hbody)) .nil))
  case classExpr =>
    rcases hs with _ | ⟨hown, _ | ⟨_, _ | ⟨_ | ⟨_, _ | _⟩, _ | _⟩⟩⟩ <;>
      first | exact hplain | skip
    exact .cons .none (.cons (.some ⟨.nil, idents_alike hown, .nil⟩)
      (.cons (.some ⟨idents_alike hown, .nil, .nil⟩) .nil))
  case property =>
    rcases hs with _ | ⟨_ | ⟨_, _ | _⟩, _ | ⟨_ | ⟨_, _ | _⟩, _ | _⟩⟩ <;>
      first | exact hplain | skip
    exact .cons (plainIf_alike rfl) (.cons (.some plain_alike) .nil)
  case objectMethod =>
    rcases hs with _ | ⟨_ | ⟨_, _ | _⟩, _ | ⟨hparams, _ | ⟨_ | ⟨hbody, _ | _⟩, _ | _⟩⟩⟩ <;>
      first | exact hplain | skip
    exact .cons (plainIf_alike rfl) (.cons (.some (paramScope_alike .nil hparams hbody))
      (.cons (.some (bodyScope_alike .nil hparams hbody)) .nil))
  case param =>
    rcases hs with _ | ⟨_ | ⟨_, _ | _⟩, _ | ⟨_, _ | _⟩⟩ <;> first | exact hplain | skip
    exact .cons .none (.cons (.some plain_alike) .nil)
  case block =>
    rcases hs with _ | ⟨h, _ | _⟩ <;> first | exact hplain | skip
    exact .cons (.some ⟨declaredInBlock_alike h, .nil, .nil⟩) .nil
  case forStmt =>
    rcases hs with _ | ⟨hinit, _ | ⟨_, _ | ⟨_, _ | ⟨_ | ⟨_, _ | _⟩, _ | _⟩⟩⟩⟩ <;>
      first | exact hplain | skip
    have hscope := (⟨initialNames_alike hinit, .nil, .nil⟩ : Env.Alike R ⟨_, [], []⟩ ⟨_, [], []⟩)
    exact .cons (.some hscope) (.cons (.some hscope) (.cons (.some hscope)
      (.cons (.some hscope) .nil)))
  case forIn kind _ =>
    rcases hs with _ | ⟨_ | ⟨hname, _ | _⟩, _ | ⟨_ | ⟨_, _ | _⟩, _ | ⟨_ | ⟨_, _ | _⟩, _ | _⟩⟩⟩ <;>
      first | exact hplain | skip
    have hnames := loopNames_alike kind (toList_alike (ident?_alike hname))
    exact .cons .none (.cons (.some ⟨.nil, hnames, .nil⟩) (.cons (.some ⟨hnames, .nil, .nil⟩) .nil))
  case functionDecl =>
    rcases hs with _ | ⟨_ | ⟨_, _ | _⟩, _ | ⟨hparams, _ | ⟨_ | ⟨hbody, _ | _⟩, _ | _⟩⟩⟩ <;>
      first | exact hplain | skip
    exact .cons .none (.cons (.some (paramScope_alike .nil hparams hbody))
      (.cons (.some (bodyScope_alike .nil hparams hbody)) .nil))
  case classDecl =>
    rcases hs with _ | ⟨_, _ | ⟨_, _ | ⟨_ | ⟨_, _ | _⟩, _ | _⟩⟩⟩ <;> first | exact hplain | skip
    exact .cons .none (.cons (.some plain_alike) (.cons (.some plain_alike) .nil))
  case importDecl =>
    rcases hs with _ | ⟨_, _ | ⟨_ | ⟨_, _ | _⟩, _ | _⟩⟩ <;> first | exact hplain | skip
    exact .cons .none (.cons .none .nil)
  case exportNamed =>
    rcases hs with _ | ⟨_, _ | ⟨hspecs, _ | ⟨hsource, _ | _⟩⟩⟩ <;> first | exact hplain | skip
    have hflag := exportFlag_alike hsource hspecs
    exact .cons (.some plain_alike) (.cons (plainIf_alike hflag) (.cons .none .nil))
  case declarator =>
    rcases hs with _ | ⟨_ | ⟨_, _ | _⟩, _ | ⟨_, _ | _⟩⟩ <;> first | exact hplain | skip
    exact .cons .none (.cons (.some plain_alike) .nil)
  case catchClause =>
    rcases hs with _ | ⟨hparam, _ | ⟨_ | ⟨_, _ | _⟩, _ | _⟩⟩ <;> first | exact hplain | skip
    exact .cons .none (.cons (.some ⟨idents_alike hparam, .nil, .nil⟩) .nil)
  case classMethod =>
    rcases hs with _ | ⟨_ | ⟨_, _ | _⟩, _ | ⟨hparams, _ | ⟨_ | ⟨hbody, _ | _⟩, _ | _⟩⟩⟩ <;>
      first | exact hplain | skip
    exact .cons (plainIf_alike rfl) (.cons (.some (paramScope_alike .nil hparams hbody))
      (.cons (.some (bodyScope_alike .nil hparams hbody)) .nil))
  case classProperty =>
    rcases hs with _ | ⟨_ | ⟨_, _ | _⟩, _ | ⟨_, _ | _⟩⟩ <;> first | exact hplain | skip
    exact .cons (plainIf_alike rfl) (.cons (.some plain_alike) .nil)
  case importDefault =>
    rcases hs with _ | ⟨_ | ⟨_, _ | _⟩, _ | _⟩ <;> first | exact hplain | exact .cons .none .nil
  case importNamespace =>
    rcases hs with _ | ⟨_ | ⟨_, _ | _⟩, _ | _⟩ <;> first | exact hplain | exact .cons .none .nil
  case importNamed =>
    rcases hs with _ | ⟨_ | ⟨_, _ | _⟩, _ | ⟨_ | ⟨_, _ | _⟩, _ | _⟩⟩ <;>
      first | exact hplain | exact .cons .none (.cons .none .nil)
  case exportSpecifier =>
    rcases hs with _ | ⟨_ | ⟨hlocal, _ | _⟩, _ | ⟨_, _ | _⟩⟩ <;> first | exact hplain | skip
    exact .cons (plainIf_alike (isSome_of_rel (ident?_alike hlocal))) (.cons .none .nil)

theorem Env.eq_of_alike {e e' : Env} (h : Env.Alike Eq e e') : e' = e := by
  obtain ⟨inner, early, late⟩ := e
  obtain ⟨inner', early', late'⟩ := e'
  obtain ⟨hinner, hearly, hlate⟩ := h
  rw [List.forall₂_eq_eq_eq] at hinner hearly hlate
  cases hinner
  cases hearly
  cases hlate
  rfl

/-- Nodes that declare the same names give the same scopes to their slots. -/
theorem slotScopes_eq {h h' : Head} {form : Form} {slots slots' : List (List Node)}
    (hs : List.Forall₂ (AllAlike Eq) slots slots') :
    slotScopes (.mk h' form slots') = slotScopes (.mk h form slots) := by
  have halike : List.Forall₂ (Option.Rel (Env.Alike Eq)) (slotScopes (.mk h form slots))
      (slotScopes (.mk h' form slots')) := slotScopes_alike hs
  revert halike
  generalize slotScopes (.mk h form slots) = scopes
  generalize slotScopes (.mk h' form slots') = scopes'
  intro halike
  induction halike with
  | nil => rfl
  | cons h _ ih =>
    rw [ih]
    cases h with
    | none => rfl
    | some h => rw [Env.eq_of_alike h]

end InlineTemplates
