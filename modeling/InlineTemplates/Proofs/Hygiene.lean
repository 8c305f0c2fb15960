import InlineTemplates.Precompile
import InlineTemplates.Proofs.Sites

/-!
# Hygiene of the pass

The pass leaves no name of its own unbound, and takes no name away from what the program meant by
it. The factory at a site is the one of the import unless the program declares the same name around
the site.
-/

namespace InlineTemplates

open Scope

namespace Sites

variable {c : Context} {factory : Option Text} {a b : Node}

/-! ## Imports stay what they are -/

theorem string?_of_isApplication (n : Node) (h : n.form.isApplication) : n.string? = none := by
  obtain ⟨_, form, _⟩ := n
  cases form <;> first | rfl | cases h

theorem importsExport_of_isApplication (exported : Text) (n : Node) (h : n.form.isApplication) :
    n.importsExport exported = false := by
  obtain ⟨_, form, _⟩ := n
  cases form <;> first | rfl | cases h

theorem importParts?_of_isApplication (n : Node) (h : n.form.isApplication) :
    n.importParts? = none := by
  obtain ⟨_, form, _⟩ := n
  cases form <;> first | rfl | cases h

theorem string?_rewritten (h : Rewritten c factory a b) : b.string? = a.string? := by
  cases h with
  | @kept head form slots slots' _ hs =>
    cases form <;> first | rfl | skip
    cases hs <;> rfl
  | site _ hexpansion _ => exact eq_of_expansion string?_of_isApplication hexpansion

theorem nameText?_rewritten (h : Rewritten c factory a b) : b.nameText? = a.nameText? := by
  rw [Node.nameText?, Node.nameText?, ident?_rewritten h, string?_rewritten h]

theorem importsExport_rewritten (exported : Text) (h : Rewritten c factory a b) :
    b.importsExport exported = a.importsExport exported := by
  cases h with
  | @kept head form slots slots' _ hs =>
    have hslots := forall₂_of_slotsRelated (S := fun a b => b.nameText? = a.nameText?)
      (fun _ _ h => nameText?_rewritten h) (fun _ => rfl) hs
    cases form <;> first | rfl | skip
    case importDefault => rcases hslots with _ | ⟨_ | ⟨_, _ | _⟩, _ | _⟩ <;> rfl
    case importNamed =>
      rcases hslots with _ | ⟨_ | ⟨h, _ | _⟩, _ | ⟨_ | ⟨_, _ | _⟩, _ | _⟩⟩ <;>
        first | rfl | simp only [Node.importsExport, h]
  | site _ hexpansion _ =>
    exact eq_of_expansion (importsExport_of_isApplication exported) hexpansion

theorem localName?_rewritten (h : Rewritten c factory a b) : localName? b = localName? a := by
  have hname := localName?_alike (alike_of_rewritten h)
  revert hname
  generalize localName? a = x
  generalize localName? b = y
  intro hname
  cases hname with
  | some h => rw [h]
  | none => rfl

theorem find_rewritten (exported : Text) {specifiers specifiers' : List Node}
    (h : AllRewritten c factory specifiers specifiers') :
    (specifiers'.find? (Node.importsExport exported)).bind localName? =
      (specifiers.find? (Node.importsExport exported)).bind localName? := by
  induction h with
  | nil => rfl
  | cons h _ ih =>
    rw [List.find?_cons, List.find?_cons, importsExport_rewritten exported h]
    split
    · exact localName?_rewritten h
    · exact ih

theorem importName_importDecl (t : Target) {head : Head} {specifiers specifiers' : List Node}
    (hspecifiers : AllRewritten c factory specifiers specifiers')
    (hsource : Rewritten c factory a b) :
    Imports.localName? t (.importDecl head specifiers' b) =
      Imports.localName? t (.importDecl head specifiers a) := by
  simp only [Imports.localName?, Node.importParts?, string?_rewritten hsource]
  cases a.string? with
  | none => rfl
  | some source =>
    simp only [Option.map_some]
    rw [find_rewritten t.exported hspecifiers]

theorem importName_rewritten (t : Target) (h : Rewritten c factory a b) :
    Imports.localName? t b = Imports.localName? t a := by
  cases h with
  | @kept head form slots slots' _ hs =>
    cases form <;> first | rfl | skip
    case importDecl =>
      cases hs with
      | nil => rfl
      | cons hspecifiers hs =>
        cases hs with
        | nil => rfl
        | @cons _ _ _ _ more _ hsource hs =>
          rcases hsource with _ | ⟨hsource, _ | _⟩
          · rfl
          · cases hs with
            | nil => exact importName_importDecl t hspecifiers hsource
            | rest =>
              cases more with
              | nil => exact importName_importDecl t hspecifiers hsource
              | cons => rfl
          · rfl
  | site _ hexpansion _ =>
    refine eq_of_expansion (x := none) (fun n hn => ?_) hexpansion
    rw [Imports.localName?, importParts?_of_isApplication n hn]

end Sites

namespace Imports

/-! ## The import of the factory -/

theorem mem_statementNames_of_localName? {t : Target} {statement : Node} {x : Text}
    (h : localName? t statement = some x) : x ∈ statementNames statement := by
  unfold localName? at h
  split at h
  · next specifiers source hparts =>
    split at h
    · obtain ⟨specifier, hfind, hname⟩ := Option.bind_eq_some_iff.mp h
      unfold Node.importParts? at hparts
      split at hparts
      · obtain ⟨_, _, hparts⟩ := Option.map_eq_some_iff.mp hparts
        cases hparts
        rw [statementNames_importDecl]
        exact List.mem_filterMap.mpr ⟨specifier, List.mem_of_find?_eq_some hfind, hname⟩
      · cases hparts
    · cases h
  · cases h

theorem localName?_declaration (t : Target) (x : Text) :
    localName? t (declaration t x) = some x := by
  unfold declaration
  dsimp only
  split
  · next h => simp [localName?, Node.importParts?, Node.string?, Node.importsExport, h,
      Scope.localName?, Node.ident?]
  · next h => simp [localName?, Node.importParts?, Node.string?, Node.importsExport, h,
      Scope.localName?, Node.ident?, Node.nameText?]

theorem existing?_some {t : Target} {statements : List Node} {imported : ImportedName}
    (h : existing? t statements = some imported) :
    ∃ statement ∈ statements, localName? t statement = some imported.name := by
  induction statements with
  | nil => cases h
  | cons statement rest ih =>
    unfold existing? at h
    split at h
    · next name hname =>
      cases h
      exact ⟨statement, List.mem_cons_self, hname⟩
    · obtain ⟨m, hm, hname⟩ := ih h
      exact ⟨m, List.mem_cons_of_mem _ hm, hname⟩

theorem exists_existing? {t : Target} {statements : List Node} {statement : Node} {x : Text}
    (h : statement ∈ statements) (hname : localName? t statement = some x) :
    ∃ imported, existing? t statements = some imported := by
  induction statements with
  | nil => cases h
  | cons first rest ih =>
    rw [existing?]
    split
    · exact ⟨_, rfl⟩
    · next hfirst =>
      rcases List.mem_cons.mp h with rfl | h
      · rw [hfirst] at hname
        cases hname
      · exact ih h

/-- The first time that an export is asked for, an import of the program has it, or a new one with a
name that the program does not have. -/
theorem request_spec (asked real : Target) (statements : List Node) (scope : Scope) :
    ((∃ statement ∈ statements,
        localName? real statement = some (request [] asked real statements scope).imported.name) ∧
      (request [] asked real statements scope).declaration = none) ∨
    (request [] asked real statements scope).imported.name ∉ scope.references ∧
      (request [] asked real statements scope).declaration =
        some (declaration real (request [] asked real statements scope).imported.name) := by
  unfold request
  rw [List.lookup_nil]
  cases h : existing? real statements with
  | some imported => exact .inl ⟨existing?_some h, rfl⟩
  | none => exact .inr ⟨scope.generate_not_mem_references _, rfl⟩

end Imports

namespace Precompiler

variable (p : Precompiler) (program : Node) (origin : SourceUnit)

/-! ## The references of the output -/

/-- The program without the imports of the configured modules, and the bindings that they made. -/
def consumed : Bindings.State :=
  Bindings.resolve p.modules program (Scope.ofProgram program)

def context : Sites.Context := ⟨p.compiler, p.options, (p.consumed program).registry, origin⟩

/-- Where the walk over the sites starts. -/
def start : Sites.Start :=
  ⟨(p.consumed program).scope, (p.consumed program).program.slot "body"⟩

/-- The export that makes templates, where the options redirect it. -/
def factoryTarget : Target :=
  p.options.resolveTarget Compiler.factoryExport Compiler.factoryModule

def factoryName : Text := ((p.start program).grant (p.context program origin)).imported.name

/-- The references of the output `out`, with what each comes from. What the pass put in front of the
statements has none. -/
def occurrences (out : Node) : List Occurrence :=
  let before := (p.start program).statements
  let after := out.slot "body"
  Sites.occurrencesOfList (p.context program origin) (p.factoryName program origin) false .outside
    before (after.drop (after.length - before.length))

/-- The nodes of the output `out` that are left of the program. What comes from the source among the
references of `out` is in these. -/
def keptNodes (out : Node) : List Node :=
  let before := (p.start program).statements
  let after := out.slot "body"
  Sites.keptNodesOfList (p.context program origin) (p.factoryName program origin) before
    (after.drop (after.length - before.length))

variable {p program origin} {body before after : List Node} {isAsked : Bool} {out : Node}

/-- What became of a program with the statements `body`: `before` are its statements in front of the
walk and `after` those behind it. -/
structure Walked (p : Precompiler) (program : Node) (origin : SourceUnit) (body before : List Node)
    (isAsked : Bool) (after : List Node) (out : Node) : Prop where
  consumed : Bindings.Consumed body (p.consumed program) before
  rewritten : Sites.AllRewritten (p.context program origin)
    ((p.start program).name? (p.context program origin) isAsked) before after
  out : ∃ head trailing, out = .program head trailing
    ((p.start program).front (p.context program origin) isAsked ++ after)

theorem Walked.statements (h : Walked p program origin body before isAsked after out) :
    (p.start program).statements = before := by
  obtain ⟨head, trailing, hprogram⟩ := h.consumed.program
  change (p.consumed program).program.slot "body" = before
  rw [hprogram]
  rfl

theorem content?_of_isEmpty {c : Sites.Context} (h : c.registry.isEmpty) (n : Node) :
    Sites.content? c n = none := by
  unfold Sites.content?
  rw [List.isEmpty_iff.mp h]
  split <;> rfl

theorem rewritten_refl {c : Sites.Context} (h : ∀ n, Sites.content? c n = none) (n : Node) :
    Sites.Rewritten c none n n := by
  induction n using Node.induct with
  | step n ih =>
    obtain ⟨head, form, slots⟩ := n
    refine .kept (h _) ?_
    generalize form.slots = specs
    change ∀ slot ∈ slots, ∀ m ∈ slot, Sites.Rewritten c none m m at ih
    induction slots generalizing specs with
    | nil => exact .nil specs
    | cons slot rest ihrest =>
      rw [List.forall_mem_cons] at ih
      cases specs with
      | nil => exact .rest _
      | cons spec specs => exact .cons (List.forall₂_same.mpr ih.1) (ihrest specs ih.2)

def memory (p : Precompiler) (program : Node) (origin : SourceUnit) : Sites.Memory :=
  (Traversal.run (Sites.visitor (p.context program origin)) ⟨(p.consumed program).scope, [], []⟩
    (p.consumed program).program).2

/-- What the pass does to a program, and that it remembers the factory if it asked for it. -/
theorem walked_with_memory {head : Head} {trailing : List Text}
    (hbody : ∀ n ∈ body, n.isStatement)
    (h : (p.transform (.program head trailing body) origin).result = .ok out) :
    ∃ before isAsked after,
      Walked p (.program head trailing body) origin body before isAsked after out ∧
      (isAsked → (p.memory (.program head trailing body) origin).imports ≠ []) := by
  obtain ⟨before, hconsumed⟩ := Bindings.resolve_consumed p.modules head trailing body
  obtain ⟨head', trailing', hprogram⟩ := hconsumed.program
  unfold transform at h
  dsimp only at h
  split at h
  · next hempty =>
    cases h
    refine ⟨before, false, before, ⟨hconsumed, ?_, head', trailing', hprogram⟩, nofun⟩
    exact List.forall₂_same.mpr fun n _ => rewritten_refl (content?_of_isEmpty hempty) n
  · change (Traversal.run (Sites.visitor (p.context _ origin)) ⟨_, [], []⟩ _).1 = .ok out at h
    rw [hprogram] at h
    obtain ⟨isAsked, after, hrewritten, hout, hasked⟩ :=
      Sites.run_spec (hconsumed.statements hbody) h
    have hstart : p.start (.program head trailing body) =
        ⟨(p.consumed (.program head trailing body)).scope, before⟩ := by
      unfold start consumed
      rw [hprogram]
      rfl
    refine ⟨before, isAsked, after,
      ⟨hconsumed, hstart ▸ hrewritten, head', trailing', hstart ▸ hout⟩, ?_⟩
    have hconsumedProgram : (p.consumed (.program head trailing body)).program =
        .program head' trailing' before := hprogram
    rw [memory, hconsumedProgram]
    exact hasked

theorem walked_of_transform {head : Head} {trailing : List Text}
    (hbody : ∀ n ∈ body, n.isStatement)
    (h : (p.transform (.program head trailing body) origin).result = .ok out) :
    ∃ before isAsked after,
      Walked p (.program head trailing body) origin body before isAsked after out := by
  obtain ⟨before, isAsked, after, hwalked, -⟩ := walked_with_memory hbody h
  exact ⟨before, isAsked, after, hwalked⟩

theorem drop_of_walked (h : Walked p program origin body before isAsked after out) :
    (out.slot "body").drop ((out.slot "body").length - before.length) = after := by
  obtain ⟨head, trailing, hout⟩ := h.out
  have hslot : out.slot "body" =
      (p.start program).front (p.context program origin) isAsked ++ after := by
    rw [hout]
    rfl
  rw [hslot, List.length_append, h.rewritten.length_eq, Nat.add_sub_cancel, List.drop_left]

theorem occurrences_of_walked (h : Walked p program origin body before isAsked after out) :
    p.occurrences program origin out =
      Sites.occurrencesOfList (p.context program origin) (p.factoryName program origin) false
        .outside before after := by
  unfold occurrences
  dsimp only
  rw [h.statements, drop_of_walked h]

theorem keptNodes_of_walked (h : Walked p program origin body before isAsked after out) :
    p.keptNodes program origin out =
      Sites.keptNodesOfList (p.context program origin) (p.factoryName program origin) before
        after := by
  unfold keptNodes
  dsimp only
  rw [h.statements, drop_of_walked h]

theorem moduleNames_append (xs ys : List Node) (x : Text) :
    x ∈ moduleNames (xs ++ ys) ↔ x ∈ moduleNames xs ∨ x ∈ moduleNames ys := by
  simp only [mem_moduleNames, List.mem_append, or_and_right, exists_or]

theorem exists_of_forall₂ {α β : Type} {R : α → β → Prop} {xs : List α} {ys : List β}
    (h : List.Forall₂ R xs ys) : ∀ x ∈ xs, ∃ y ∈ ys, R x y := by
  induction h with
  | nil => exact fun _ h => absurd h List.not_mem_nil
  | cons h _ ih =>
    rw [List.forall_mem_cons]
    refine ⟨⟨_, List.mem_cons_self, h⟩, fun x hx => ?_⟩
    obtain ⟨y, hy, hxy⟩ := ih x hx
    exact ⟨y, List.mem_cons_of_mem _ hy, hxy⟩

theorem programNames_of_walked (h : Walked p program origin body before isAsked after out)
    {x : Text} (hx : x ∈ moduleNames before) : x ∈ programNames out := by
  obtain ⟨head, trailing, hout⟩ := h.out
  rw [hout]
  refine (moduleNames_append _ _ _).mpr (.inr ?_)
  rwa [Sites.moduleNames_rewritten h.rewritten]

theorem factory_spec (p : Precompiler) (program : Node) (origin : SourceUnit) :
    ((∃ statement ∈ (p.start program).statements,
        Imports.localName? p.factoryTarget statement = some (p.factoryName program origin)) ∧
      ((p.start program).grant (p.context program origin)).declaration = none) ∨
    p.factoryName program origin ∉ (p.consumed program).scope.references ∧
      ((p.start program).grant (p.context program origin)).declaration =
        some (Imports.declaration p.factoryTarget (p.factoryName program origin)) :=
  Imports.request_spec Sites.asked p.factoryTarget _ _

theorem references_front (isAsked : Bool) (e : Env) :
    Node.referencesOfList e ((p.start program).front (p.context program origin) isAsked) = [] := by
  unfold Sites.Start.front
  split
  · obtain ⟨-, hdeclaration⟩ | ⟨-, hdeclaration⟩ := factory_spec p program origin
    · rw [hdeclaration]
      rfl
    · rw [hdeclaration]
      rfl
  · rfl

theorem rewritten_factoryName {a b : Node} (h : Sites.Rewritten (p.context program origin)
    ((p.start program).name? (p.context program origin) isAsked) a b) :
    Sites.Rewritten (p.context program origin) (some (p.factoryName program origin)) a b := by
  cases isAsked with
  | true => exact h
  | false => exact h.mono

theorem references_of_walked (h : Walked p program origin body before isAsked after out) :
    (p.occurrences program origin out).map Occurrence.reference = programReferences out := by
  obtain ⟨head, trailing, hout⟩ := h.out
  have hcomplete := Sites.complete_list
    (h.rewritten.imp fun _ _ h => Sites.complete_of_rewritten (rewritten_factoryName h)) false
    .outside
  rw [occurrences_of_walked h, hcomplete, hout, programReferences, referencesOfList_append,
    references_front, List.nil_append]

theorem imports_factory (h : Walked p program origin body before true after out) :
    ∃ statement ∈ out.slot "body",
      Imports.localName? p.factoryTarget statement = some (p.factoryName program origin) := by
  obtain ⟨head, trailing, hout⟩ := h.out
  have hslot : out.slot "body" =
      (p.start program).front (p.context program origin) true ++ after := by
    rw [hout]
    rfl
  rw [hslot]
  obtain ⟨⟨statement, hstatement, hname⟩, -⟩ | ⟨-, hdeclaration⟩ := factory_spec p program origin
  · rw [h.statements] at hstatement
    obtain ⟨statement', hstatement', hrewritten⟩ := exists_of_forall₂ h.rewritten _ hstatement
    refine ⟨statement', List.mem_append_right _ hstatement', ?_⟩
    rw [Sites.importName_rewritten _ hrewritten, hname]
  · refine ⟨_, List.mem_append_left _ ?_, Imports.localName?_declaration _ _⟩
    rw [Sites.Start.front, hdeclaration]
    exact List.mem_singleton_self _

theorem mem_programNames {head : Head} {trailing : List Text} {x : Text}
    (hout : out = .program head trailing body) :
    x ∈ programNames out ↔ ∃ statement ∈ out.slot "body", x ∈ statementNames statement := by
  rw [hout]
  exact mem_moduleNames

theorem factory_mem_programNames (h : Walked p program origin body before true after out) :
    p.factoryName program origin ∈ programNames out := by
  obtain ⟨head, trailing, hout⟩ := h.out
  obtain ⟨statement, hstatement, hname⟩ := imports_factory h
  exact (mem_programNames hout).mpr
    ⟨statement, hstatement, Imports.mem_statementNames_of_localName? hname⟩

theorem placed_of_walked (h : Walked p program origin body before isAsked after out) :
    ∀ o ∈ p.occurrences program origin out,
      Sites.IsPlaced ((p.start program).name? (p.context program origin) isAsked) false
        (Node.referencesOfList .outside before) o := by
  rw [occurrences_of_walked h]
  refine Sites.allPlaced_list (h.rewritten.imp fun _ _ h => ?_) false .outside
  refine Sites.allPlaced_of_rewritten (fun x hx => ?_) h
  cases isAsked with
  | true => exact (Option.some.inj hx).symm
  | false => cases hx

theorem factory_of_walked (h : Walked p program origin body before isAsked after out)
    {o : Occurrence} (ho : o ∈ p.occurrences program origin out) {isEmbedded : Bool}
    (horigin : o.origin = .factory isEmbedded) :
    isAsked ∧ o.reference.name = p.factoryName program origin ∧
      (isEmbedded = false →
        ∃ q ∈ Node.referencesOfList .outside before, q.env = o.reference.env) := by
  have hplaced := placed_of_walked h o ho
  rw [Sites.IsPlaced, horigin] at hplaced
  cases isAsked with
  | true =>
    exact ⟨rfl, (Option.some.inj hplaced.1).symm, fun hembedded => (hplaced.2 hembedded).2⟩
  | false => exact nomatch hplaced.1

/-- The references of the source that are left are those in front of the walk, in their order. -/
theorem sources_of_walked (h : Walked p program origin body before isAsked after out) :
    (Sites.sources (p.occurrences program origin out)).Sublist
      (Node.referencesOfList .outside before) := by
  rw [occurrences_of_walked h]
  exact Sites.fromSource_list (h.rewritten.imp fun _ _ h => Sites.fromSource_of_rewritten
    (rewritten_factoryName h)) false .outside

theorem content?_of_walked (h : Walked p program origin body before isAsked after out) :
    ∀ n ∈ p.keptNodes program origin out,
      Sites.content? (p.context program origin) n = none := by
  rw [keptNodes_of_walked h]
  exact Sites.forall_keptNodesOfList (h.rewritten.imp fun _ _ h =>
    Sites.content?_of_mem_keptNodes (rewritten_factoryName h))

/-! ## Nothing is left behind -/

/-- A reference `q` to a consumed import, which is `r` in the output. It has a fresh name there,
unless it stands in a parameter of a function whose body declares the name. The head of a loop or a
class counts as outside of it, also where the loop or the class has the name of the import. -/
structure IsUse (registry : Registry) (q r : Reference) : Prop where
  localName : q.name ∈ registry.map (·.2.localName)
  reached : q.name ∉ q.env.inner
  fresh : q.name ∉ q.env.late → r.name ∈ registry.map (·.1)

/-- Whether a reference `r` of the output that was `q` in the program is bound, or was not bound
under the same name, or belongs to a consumed import. -/
def Follows (registry : Registry) (module module' : List Text) (r q : Reference) : Prop :=
  r.env = q.env ∧
    (r.IsBound module' ∨ r.name = q.name ∧ ¬ q.IsBound module ∨ IsUse registry q r)

/-- Whether a reference of the output that nothing binds may be there, by what it comes from. -/
def MayBeUnbound (o : Occurrence) : Prop :=
  match o.origin with
  | .source => True
  | .payload => True
  | .factory _ => False
  | .stub => o.reference.name = "Error"

theorem follows_of_became {registry : Registry} {module module' module'' : List Text}
    {q r : Reference} (h : Bindings.Became module module' registry q r)
    (hmodule : module' ⊆ module'') : Follows registry module module'' r q := by
  cases h with
  | kept env name bound =>
    refine ⟨env, ?_⟩
    by_cases hbound : q.IsBound module
    · exact .inl ((bound.mpr hbound).imp id fun h => hmodule h)
    · exact .inr (.inl ⟨name, hbound⟩)
  | renamed env uid localName reached =>
    exact ⟨env, .inr (.inr ⟨localName, fun h => reached (.inl h), fun _ => uid⟩)⟩
  | late env name localName late =>
    refine ⟨env, ?_⟩
    by_cases hinner : q.name ∈ q.env.inner
    · refine .inl (.inl (.inl ?_))
      rwa [env, name]
    · exact .inr (.inr ⟨localName, hinner, fun hlate => absurd late hlate⟩)

theorem sublistForall₂_of_sublist {α β : Type} {R : α → β → Prop} {xs ys : List α} {zs : List β}
    (h : xs.Sublist ys) (hR : List.Forall₂ R ys zs) : List.SublistForall₂ R xs zs := by
  induction h generalizing zs with
  | slnil => exact .nil
  | cons _ _ ih =>
    cases hR with
    | cons _ hR => exact .cons_right (ih hR)
  | cons_cons _ _ ih =>
    cases hR with
    | cons h hR => exact .cons h (ih hR)

/-- What the references of the output `out` that nothing binds are. -/
structure NothingDangles (p : Precompiler) (program : Node) (origin : SourceUnit) (out : Node) :
    Prop where
  complete : (p.occurrences program origin out).map Occurrence.reference = programReferences out
  unbound : ∀ o ∈ p.occurrences program origin out,
    ¬ o.reference.IsBound (programNames out) → MayBeUnbound o
  sources : List.SublistForall₂
    (Follows (p.consumed program).registry (programNames program) (programNames out))
    (Sites.sources (p.occurrences program origin out)) (programReferences program)
  /-- A use that is left stands at no site. -/
  sites : ∀ n ∈ p.keptNodes program origin out,
    Sites.content? (p.context program origin) n = none

/-- The output leaves no name unbound that was bound in the program. What it leaves unbound was so
under the same name, or is part of a compiled template, or is the `Error` of the code for a refused
one, or is a use of a consumed import which is no template. -/
theorem unbound_of_transform {head : Head} {trailing : List Text}
    (hbody : ∀ n ∈ body, n.isStatement)
    (h : (p.transform (.program head trailing body) origin).result = .ok out) :
    NothingDangles p (.program head trailing body) origin out := by
  obtain ⟨before, isAsked, after, hwalked⟩ := walked_of_transform hbody h
  refine ⟨references_of_walked hwalked, fun o ho hunbound => ?_, ?_, content?_of_walked hwalked⟩
  · have hplaced := placed_of_walked hwalked o ho
    unfold Sites.IsPlaced at hplaced
    unfold MayBeUnbound
    cases horigin : o.origin with
    | source => trivial
    | payload => trivial
    | stub =>
      rw [horigin] at hplaced
      exact hplaced
    | factory isEmbedded =>
      obtain ⟨hasked, hname, -⟩ := factory_of_walked hwalked ho horigin
      subst hasked
      refine hunbound (.inr ?_)
      rw [hname]
      exact factory_mem_programNames hwalked
  · refine sublistForall₂_of_sublist (sources_of_walked hwalked) ?_
    exact (hwalked.consumed.references.flip).imp fun r q hbecame =>
      follows_of_became hbecame fun x hx => programNames_of_walked hwalked hx

theorem exists_ok {ε α : Type} {P : α → Prop} [DecidablePred P] {r : Except ε α}
    (h : r.toOption.any fun x => decide (P x)) : ∃ x, r = .ok x ∧ P x := by
  cases r with
  | error => cases h
  | ok x => exact ⟨x, rfl, of_decide_eq_true h⟩

/-- The pass for the default export of one module, with a compiler that gives `0`. -/
def plainPass (module : Text) : Precompiler where
  options := ⟨.null, none, [], [], .null, .null⟩
  compiler := fun _ _ => .ok "0"
  modules := [(module, .ofExport "default")]

def defaultImport (localName module : Text) : Node :=
  .importDecl .fresh [.importDefault .fresh (.name .fresh localName)]
    (.literal .fresh (.str module))

/-- `import hbs from "m"; f(hbs, hbs("x"));` -/
def handedOn : List Node :=
  [defaultImport "hbs" "m",
    .exprStmt .fresh (.call .fresh false (.name .fresh "f") [.name .fresh "hbs",
      .call .fresh false (.name .fresh "hbs") [.literal .fresh (.str "x")]])]

theorem unbound_of_transform_handedOn :
    (∀ n ∈ handedOn, n.isStatement) ∧
      ∃ out, ((plainPass "m").transform (.program .fresh [] handedOn) ⟨none, none⟩).result =
        .ok out ∧
        NothingDangles (plainPass "m") (.program .fresh [] handedOn) ⟨none, none⟩ out := by
  have hstatements : ∀ n ∈ handedOn, n.isStatement := by decide
  obtain ⟨out, hout, -⟩ : ∃ out, ((plainPass "m").transform (.program .fresh [] handedOn)
      ⟨none, none⟩).result = .ok out ∧ True := exists_ok (by decide +kernel)
  exact ⟨hstatements, out, hout, unbound_of_transform hstatements hout⟩

/-- The name of an import that is handed on is unbound in the output, and nowhere in the program. -/
theorem handedOn_unbound :
    ∃ out, ((plainPass "m").transform (.program .fresh [] handedOn) ⟨none, none⟩).result =
      .ok out ∧
      ∃ r ∈ Sites.sources
          ((plainPass "m").occurrences (.program .fresh [] handedOn) ⟨none, none⟩ out),
        ¬ r.IsBound (programNames out) ∧
          ∀ q ∈ programReferences (.program .fresh [] handedOn), q.name ≠ r.name :=
  exists_ok (by decide +kernel)

/-! ## The factory is the one that is imported -/

/-- The name of a new import is no other name of the program, and no scope around a site binds
it. -/
theorem new_factory_spec (h : Walked p program origin body before true after out)
    (hnew : ∀ statement ∈ before, Imports.localName? p.factoryTarget statement = none) :
    out.slot "body" =
        Imports.declaration p.factoryTarget (p.factoryName program origin) :: after ∧
      p.factoryName program origin ∉ moduleNames after ∧
      ∀ q ∈ Node.referencesOfList .outside before,
        ¬ q.env.Binds (p.factoryName program origin) := by
  obtain ⟨⟨statement, hstatement, hname⟩, -⟩ | ⟨hfresh, hdeclaration⟩ :=
    factory_spec p program origin
  · rw [h.statements] at hstatement
    rw [hnew statement hstatement] at hname
    cases hname
  · obtain ⟨head, trailing, hout⟩ := h.out
    refine ⟨?_, fun hmodule => ?_, fun q hq hbinds => ?_⟩
    · rw [hout, Sites.Start.front, hdeclaration]
      rfl
    · rw [Sites.moduleNames_rewritten h.rewritten] at hmodule
      exact hfresh (h.consumed.names hmodule)
    · exact hfresh ((h.consumed.known q hq).2 _ hbinds)

/-- What the references of the output `out` to the factory lead to. -/
structure Hygienic (p : Precompiler) (program : Node) (origin : SourceUnit) (out : Node) :
    Prop where
  complete : (p.occurrences program origin out).map Occurrence.reference = programReferences out
  /-- Each has the name under which some statement of the module imports the factory. -/
  imported : ∀ o ∈ p.occurrences program origin out, ∀ isEmbedded, o.origin = .factory isEmbedded →
    ∃ statement ∈ out.slot "body",
      Imports.localName? p.factoryTarget statement = some o.reference.name
  leads : ∀ o ∈ p.occurrences program origin out, ∀ isEmbedded, o.origin = .factory isEmbedded →
    (o.reference.LeadsTo (programNames out) ↔ ¬ o.reference.env.Binds o.reference.name)
  /-- The import is new if the program had none. Then it alone has the name. -/
  created : (∀ statement ∈ (p.start program).statements,
      Imports.localName? p.factoryTarget statement = none) →
    ∀ o ∈ p.occurrences program origin out, o.origin = .factory false →
      o.reference.LeadsTo (programNames out) ∧
        ∃ rest, out.slot "body" = Imports.declaration p.factoryTarget o.reference.name :: rest ∧
          o.reference.name ∉ moduleNames rest

/-- The factory at a site is the one that the module imports unless a scope around the site binds
its name. At the sites of the program itself none does if the import is new. -/
theorem factory_of_transform {head : Head} {trailing : List Text}
    (hbody : ∀ n ∈ body, n.isStatement)
    (h : (p.transform (.program head trailing body) origin).result = .ok out) :
    Hygienic p (.program head trailing body) origin out := by
  obtain ⟨before, isAsked, after, hwalked⟩ := walked_of_transform hbody h
  refine ⟨references_of_walked hwalked, fun o ho isEmbedded horigin => ?_,
    fun o ho isEmbedded horigin => ?_, fun hnew o ho horigin => ?_⟩
  · obtain ⟨rfl, hname, -⟩ := factory_of_walked hwalked ho horigin
    rw [hname]
    exact imports_factory hwalked
  · obtain ⟨rfl, hname, -⟩ := factory_of_walked hwalked ho horigin
    refine and_iff_left ?_
    rw [hname]
    exact factory_mem_programNames hwalked
  · obtain ⟨rfl, hname, henv⟩ := factory_of_walked hwalked ho horigin
    rw [hwalked.statements] at hnew
    obtain ⟨hslot, hfresh, hbinds⟩ := new_factory_spec hwalked hnew
    obtain ⟨q, hq, hqenv⟩ := henv rfl
    rw [hname]
    refine ⟨⟨?_, ?_⟩, after, hslot, hfresh⟩
    · rw [← hqenv, hname]
      exact hbinds q hq
    · rw [hname]
      exact factory_mem_programNames hwalked

/-- `import { createTemplateFactory as f } from "@ember/template-factory"; import hbs from "m";
function g(p) { return hbs("x"); }`, with the parameter `p`. -/
def reusing (p : Text) : List Node :=
  [Imports.declaration ⟨Compiler.factoryExport, Compiler.factoryModule⟩ "f",
    defaultImport "hbs" "m",
    .functionDecl .fresh false (.name .fresh "g") [.param .fresh false (.name .fresh p) []]
      (.block .fresh none [] [.returnStmt .fresh
        [.call .fresh false (.name .fresh "hbs") [.literal .fresh (.str "x")]]])]

/-- The import is new in the first program, and the second has it. -/
theorem factory_of_transform_reusing :
    ((∀ n ∈ handedOn, n.isStatement) ∧
      ∃ out, ((plainPass "m").transform (.program .fresh [] handedOn) ⟨none, none⟩).result =
        .ok out ∧ Hygienic (plainPass "m") (.program .fresh [] handedOn) ⟨none, none⟩ out) ∧
    (∀ n ∈ reusing "p", n.isStatement) ∧
      ∃ out, ((plainPass "m").transform (.program .fresh [] (reusing "p")) ⟨none, none⟩).result =
        .ok out ∧ Hygienic (plainPass "m") (.program .fresh [] (reusing "p")) ⟨none, none⟩ out ∧
        ∃ o ∈ (plainPass "m").occurrences (.program .fresh [] (reusing "p")) ⟨none, none⟩ out,
          o.origin = .factory false ∧ o.reference.name = "f" ∧
            o.reference.LeadsTo (programNames out) := by
  have hnew : ∀ n ∈ handedOn, n.isStatement := by decide
  have hreused : ∀ n ∈ reusing "p", n.isStatement := by decide
  refine ⟨⟨hnew, ?_⟩, hreused, ?_⟩
  · obtain ⟨out, hout, -⟩ : ∃ out, ((plainPass "m").transform (.program .fresh [] handedOn)
        ⟨none, none⟩).result = .ok out ∧ True := exists_ok (by decide +kernel)
    exact ⟨out, hout, factory_of_transform hnew hout⟩
  · obtain ⟨out, hout, o, ho, horigin, hname, hbinds⟩ :
        ∃ out, ((plainPass "m").transform (.program .fresh [] (reusing "p"))
          ⟨none, none⟩).result = .ok out ∧
          ∃ o ∈ (plainPass "m").occurrences (.program .fresh [] (reusing "p")) ⟨none, none⟩ out,
            o.origin = .factory false ∧ o.reference.name = "f" ∧
              ¬ o.reference.env.Binds o.reference.name := exists_ok (by decide +kernel)
    have hygienic := factory_of_transform hreused hout
    exact ⟨out, hout, hygienic, o, ho, horigin, hname,
      (hygienic.leads o ho false horigin).mpr hbinds⟩

/-- A parameter takes the name of the import that the program already has. -/
theorem shadowed_factory :
    ∃ out, ((plainPass "m").transform (.program .fresh [] (reusing "f")) ⟨none, none⟩).result =
      .ok out ∧
      ∃ o ∈ (plainPass "m").occurrences (.program .fresh [] (reusing "f")) ⟨none, none⟩ out,
        o.origin = .factory false ∧ ¬ o.reference.LeadsTo (programNames out) :=
  exists_ok (by decide +kernel)

end Precompiler

end InlineTemplates
