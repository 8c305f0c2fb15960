import InlineTemplates.Program.Scope

/-!
# References

A reference is a name that stands for a value: no declaration, no key, no name of an export. Each
has around it the names that the scopes between the module and itself bind.
-/

namespace InlineTemplates

/-- The names that the scopes around a place bind, without those of the module. -/
structure Env where
  inner : List Text
  /-- The names that a loop or a class binds, seen from its own head. They are bound there, but
  have no value yet. -/
  early : List Text
  /-- The names that the body of a function declares, seen from its parameters. They are not bound
  there. -/
  late : List Text
deriving DecidableEq, Inhabited

namespace Env

def outside : Env := ⟨[], [], []⟩

/-- The scope that adds no names. -/
def plain : Env := ⟨[], [], []⟩

/-- What a scope binds inside another. -/
def enter (e : Env) (scope : Env) : Env :=
  ⟨scope.inner ++ e.inner, scope.early ++ e.early, scope.late ++ e.late⟩

/-- Whether a scope between the module and the place binds a name. -/
def Binds (e : Env) (name : Text) : Prop := name ∈ e.inner ∨ name ∈ e.early

/-- Whether a renaming of the binding of the module leaves the name alone here. -/
def Hides (e : Env) (name : Text) : Prop := name ∈ e.inner ∨ name ∈ e.late

instance (e : Env) (name : Text) : Decidable (e.Binds name) :=
  inferInstanceAs (Decidable (_ ∨ _))

instance (e : Env) (name : Text) : Decidable (e.Hides name) :=
  inferInstanceAs (Decidable (_ ∨ _))

@[simp] theorem enter_plain (e : Env) : e.enter plain = e := rfl

theorem hides_enter (e scope : Env) (name : Text) :
    (e.enter scope).Hides name ↔ scope.Hides name ∨ e.Hides name := by
  simp only [Hides, enter, List.mem_append]
  exact or_or_or_comm

theorem binds_enter (e scope : Env) (name : Text) :
    (e.enter scope).Binds name ↔ scope.Binds name ∨ e.Binds name := by
  simp only [Binds, enter, List.mem_append]
  exact or_or_or_comm

end Env

/-- A name that stands for a value, and the scopes around it. -/
structure Reference where
  name : Text
  env : Env
deriving DecidableEq, Inhabited

namespace Reference

/-- Whether a reference is bound in a module that binds the names `module`. -/
def IsBound (module : List Text) (r : Reference) : Prop := r.env.Binds r.name ∨ r.name ∈ module

/-- Whether a reference leads to the module, which binds the names `module`. -/
def LeadsTo (module : List Text) (r : Reference) : Prop := ¬ r.env.Binds r.name ∧ r.name ∈ module

instance (module : List Text) (r : Reference) : Decidable (r.IsBound module) :=
  inferInstanceAs (Decidable (_ ∨ _))

instance (module : List Text) (r : Reference) : Decidable (r.LeadsTo module) :=
  inferInstanceAs (Decidable (_ ∧ _))

end Reference

namespace Scope

/-! ## Scopes -/

def paramName? : Node → Option Text
  | .param _ _ name _ => name.ident?
  | _ => none

def paramNames (params : List Node) : List Text := params.filterMap paramName?

def bodyNames : Node → List Text
  | .block _ _ _ statements => declared statements
  | _ => []

def declaratorName? : Node → Option Text
  | .declarator _ name _ => name.ident?
  | _ => none

def idents (names : List Node) : List Text := names.filterMap Node.ident?

/-- The scope of the parameters of a function with its own name `own`. -/
def paramScope (own : List Text) (params : List Node) (body : Node) : Env :=
  ⟨own ++ paramNames params, [], bodyNames body⟩

/-- The scope of the body of a function with its own name `own`. -/
def bodyScope (own : List Text) (params : List Node) (body : Node) : Env :=
  ⟨own ++ (paramNames params ++ bodyNames body), [], []⟩

/-- The scope of a place that may be part of the one around it, if it holds references. -/
def plainIf (holds : Bool) : Option Env := if holds then some .plain else none

@[simp] theorem some_eq_plainIf {scope : Env} {holds : Bool} :
    some scope = plainIf holds ↔ holds ∧ scope = .plain := by
  cases holds with
  | true => exact ⟨fun h => ⟨rfl, Option.some.inj h⟩, fun h => congrArg some h.2⟩
  | false => exact ⟨nofun, nofun⟩

/-- The names that a loop declares for itself. -/
def loopNames (kind : VarKind) (names : List Text) : List Text :=
  if kind = .var then [] else names

def initialName : Node → List Text
  | .varDecl _ kind declarations => loopNames kind (declaratorNames declarations)
  | _ => []

def initialNames : List Node → List Text
  | [initial] => initialName initial
  | _ => []

def isExportSpecifier : Node → Bool
  | .exportSpecifier .. => true
  | _ => false

/-- The scopes of the slots of a node, in order. A slot without one holds no references. -/
def slotScopes : Node → List (Option Env)
  | .function _ _ own params body =>
    [none, some (paramScope (idents own) params body), some (bodyScope (idents own) params body)]
  | .arrow _ _ params body =>
    [some (paramScope [] params body), some (bodyScope [] params body)]
  | .functionDecl _ _ _ params body =>
    [none, some (paramScope [] params body), some (bodyScope [] params body)]
  | .objectMethod _ computed _ _ _ params body =>
    [plainIf computed, some (paramScope [] params body), some (bodyScope [] params body)]
  | .classMethod _ computed _ _ _ _ params body =>
    [plainIf computed, some (paramScope [] params body), some (bodyScope [] params body)]
  | .param .. => [none, some .plain]
  | .classExpr _ own _ _ =>
    [none, some ⟨[], idents own, []⟩, some ⟨idents own, [], []⟩]
  | .classDecl .. => [none, some .plain, some .plain]
  | .classProperty _ computed .. => [plainIf computed, some .plain]
  | .property _ computed .. => [plainIf computed, some .plain]
  | .block _ _ _ statements => [some ⟨declaredInBlock statements, [], []⟩]
  | .forStmt _ initial _ _ _ =>
    let scope : Env := ⟨initialNames initial, [], []⟩
    [some scope, some scope, some scope, some scope]
  | .forIn _ kind _ loopName _ _ =>
    let names := loopNames kind loopName.ident?.toList
    [none, some ⟨[], names, []⟩, some ⟨names, [], []⟩]
  | .declarator .. => [none, some .plain]
  | .catchClause _ param _ => [none, some ⟨idents param, [], []⟩]
  | .importDecl .. => [none, none]
  | .importDefault .. => [none]
  | .importNamespace .. => [none]
  | .importNamed .. => [none, none]
  | .exportNamed _ _ specifiers source =>
    [some .plain, plainIf (source.isEmpty && specifiers.all isExportSpecifier), none]
  | .exportSpecifier _ localName _ => [plainIf localName.ident?.isSome, none]
  | .mk _ form _ => form.slots.map fun _ => some .plain

end Scope

namespace Node

theorem eq_name_of_ident? {n : Node} {ident : Text} (h : n.ident? = some ident) :
    ∃ head, n = name head ident := by
  unfold ident? at h
  split at h
  · cases h
    exact ⟨_, rfl⟩
  · cases h

/-! ## References -/

mutual

/-- The references of a tree inside the scopes `e`, in source order. -/
def references (e : Env) : Node → List Reference
  | name _ ident => [⟨ident, e⟩]
  | mk head form slots => referencesOfSlots e (Scope.slotScopes (.mk head form slots)) slots

def referencesOfSlots (e : Env) : List (Option Env) → List (List Node) → List Reference
  | some scope :: scopes, slot :: rest =>
    referencesOfList (e.enter scope) slot ++ referencesOfSlots e scopes rest
  | none :: scopes, _ :: rest => referencesOfSlots e scopes rest
  | _, _ => []

def referencesOfList (e : Env) : List Node → List Reference
  | [] => []
  | n :: rest => references e n ++ referencesOfList e rest

end

theorem ident?_of_not_name {head : Head} {form : Form} {slots : List (List Node)}
    (h : ∀ ident, form = .name ident → slots = [] → False) :
    (mk head form slots).ident? = none := by
  rw [ident?]
  rintro _ ident hn
  cases hn
  exact h ident rfl rfl

theorem references_eq_slots {n : Node} (h : n.ident? = none) (e : Env) :
    n.references e = referencesOfSlots e (Scope.slotScopes n) n.slots := by
  obtain ⟨head, form, slots⟩ := n
  rw [references]
  · rfl
  · rintro ident rfl rfl
    cases h

/-! ## Induction -/

mutual

/-- Induction over trees: a tree has the property if all in its slots have it. -/
theorem induct {motive : Node → Prop}
    (step : ∀ n : Node, (∀ slot ∈ n.slots, ∀ m ∈ slot, motive m) → motive n) : ∀ n, motive n
  | mk head form slots => step (mk head form slots) (inductSlots step slots)

theorem inductSlots {motive : Node → Prop}
    (step : ∀ n : Node, (∀ slot ∈ n.slots, ∀ m ∈ slot, motive m) → motive n) :
    ∀ slots : List (List Node), ∀ slot ∈ slots, ∀ m ∈ slot, motive m
  | [], _, h => absurd h List.not_mem_nil
  | first :: rest, slot, h => by
    rw [List.mem_cons] at h
    obtain rfl | h := h
    · exact inductList step slot
    · exact inductSlots step rest slot h

theorem inductList {motive : Node → Prop}
    (step : ∀ n : Node, (∀ slot ∈ n.slots, ∀ m ∈ slot, motive m) → motive n) :
    ∀ ns : List Node, ∀ m ∈ ns, motive m
  | [], _, h => absurd h List.not_mem_nil
  | n :: rest, m, h => by
    rw [List.mem_cons] at h
    obtain rfl | h := h
    · exact induct step m
    · exact inductList step rest m h

end

end Node

namespace Scope

/-! ## The module -/

def ownNames : Node → List Text
  | .function _ _ own _ _ => idents own
  | .classExpr _ own _ _ => idents own
  | _ => []

/-- The name under which the module knows the function or the class that it exports as the
default. -/
def defaultNames : Node → List Text
  | .exportDefault _ value => ownNames value
  | _ => []

/-- The names that the statements of a module bind. -/
def moduleNames (statements : List Node) : List Text :=
  declared statements ++ statements.flatMap defaultNames

/-- The names that a program binds for all that is in it. -/
def programNames : Node → List Text
  | .program _ _ body => moduleNames body
  | _ => []

def programReferences : Node → List Reference
  | .program _ _ body => Node.referencesOfList .outside body
  | _ => []

end Scope

end InlineTemplates
