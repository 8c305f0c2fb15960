import InlineTemplates.Proofs.Expansion
import InlineTemplates.Proofs.Remains

/-!
# The compilation of a program

The pass compiles exactly the sites of a program, each once and in their order, and stops at the
first that fails. Nothing else changes but the imports, and what the compiler gives is left alone.
-/

namespace InlineTemplates

open Scope

namespace Precompiler

variable (p : Precompiler) (program : Node) (origin : SourceUnit)

/-! ## The sites of a program -/

def sites : List Node :=
  Sites.sitesOfList (p.consumed program).registry (p.start program).statements

def attempt : Sites.Attempt := Sites.attempt (p.context program origin) (p.sites program)

def LacksFactory : Prop :=
  ∀ statement ∈ (p.start program).statements, Imports.localName? p.factoryTarget statement = none

variable {p program origin} {head : Head} {trailing : List Text} {body before after : List Node}
  {isAsked : Bool} {out : Node}

theorem isSite_of_mem_sites :
    ∀ n ∈ p.sites program, Sites.isSite (p.context program origin).registry n :=
  Sites.isSite_of_mem_list _ _

theorem sites_of_isEmpty (h : (p.consumed program).registry.isEmpty) : p.sites program = [] := by
  refine List.eq_nil_iff_forall_not_mem.mpr fun n hn => ?_
  have hsite := @isSite_of_mem_sites p program ⟨none, none⟩ n hn
  rw [← Sites.isSome_content?, content?_of_isEmpty h n] at hsite
  cases hsite

theorem consumed_spec (p : Precompiler) (head : Head) (trailing : List Text)
    (hbody : ∀ n ∈ body, n.isStatement) :
    ∃ head' trailing' before, (p.consumed (.program head trailing body)).program =
        .program head' trailing' before ∧
      (p.start (.program head trailing body)).statements = before ∧
      ∀ n ∈ before, n.isStatement := by
  obtain ⟨before, hconsumed⟩ := Bindings.resolve_consumed p.modules head trailing body
  obtain ⟨head', trailing', hprogram⟩ := hconsumed.program
  have hprogram : (p.consumed (.program head trailing body)).program =
      .program head' trailing' before := hprogram
  refine ⟨head', trailing', before, hprogram, ?_, hconsumed.statements hbody⟩
  rw [start, hprogram]
  rfl

theorem walk_tries (hbody : ∀ n ∈ body, n.isStatement)
    (hinert : Sites.IsOpaque (p.context (.program head trailing body) origin)) :
    (p.memory (.program head trailing body) origin).compilations.reverse =
        (p.attempt (.program head trailing body) origin).requests ∧
      failure? (Traversal.run (Sites.visitor (p.context (.program head trailing body) origin))
        ⟨(p.consumed (.program head trailing body)).scope, [], []⟩
        (p.consumed (.program head trailing body)).program).1 =
        (p.attempt (.program head trailing body) origin).failure ∧
      ((p.attempt (.program head trailing body) origin).requests = [] →
        (p.memory (.program head trailing body) origin).imports = []) := by
  obtain ⟨head', trailing', before, hprogram, hstatements, hbefore⟩ :=
    consumed_spec p head trailing hbody
  unfold attempt sites memory
  rw [hstatements, hprogram]
  exact Sites.run_tries hinert hbefore _ rfl

theorem transform_tries (hbody : ∀ n ∈ body, n.isStatement)
    (hinert : Sites.IsOpaque (p.context (.program head trailing body) origin)) :
    (p.transform (.program head trailing body) origin).compilations =
        (p.attempt (.program head trailing body) origin).requests ∧
      failure? (p.transform (.program head trailing body) origin).result =
        (p.attempt (.program head trailing body) origin).failure := by
  obtain ⟨hcompilations, hfailure, -⟩ := walk_tries hbody hinert
  unfold transform
  dsimp only
  split
  · next hempty =>
    have hnone : p.sites (.program head trailing body) = [] := sites_of_isEmpty hempty
    rw [attempt, hnone]
    exact ⟨rfl, rfl⟩
  · exact ⟨hcompilations, hfailure⟩

theorem attempt_of_ok (hbody : ∀ n ∈ body, n.isStatement)
    (hinert : Sites.IsOpaque (p.context (.program head trailing body) origin))
    (h : (p.transform (.program head trailing body) origin).result = .ok out) :
    (p.attempt (.program head trailing body) origin).failure = none := by
  rw [← (transform_tries hbody hinert).2, h]
  rfl

theorem attempt_of_error (hbody : ∀ n ∈ body, n.isStatement)
    (hinert : Sites.IsOpaque (p.context (.program head trailing body) origin)) {e : Error}
    (h : (p.transform (.program head trailing body) origin).result = .error e) :
    (p.attempt (.program head trailing body) origin).failure = some e := by
  rw [← (transform_tries hbody hinert).2, h]
  rfl

/-- The factory is asked for if there is a site. -/
theorem isAsked_iff (hbody : ∀ n ∈ body, n.isStatement)
    (hinert : Sites.IsOpaque (p.context (.program head trailing body) origin))
    (hwalked : Walked p (.program head trailing body) origin body before isAsked after out)
    (hmemory : isAsked → (p.memory (.program head trailing body) origin).imports ≠ []) :
    isAsked ↔ p.sites (.program head trailing body) ≠ [] := by
  constructor
  · intro hasked hnone
    refine hmemory hasked ((walk_tries hbody hinert).2.2 ?_)
    rw [attempt, hnone]
    rfl
  · intro hsome
    cases isAsked with
    | true => rfl
    | false =>
      refine absurd ?_ hsome
      have hnone := Sites.sitesOfList_of_rewritten_none hwalked.rewritten
      rwa [← hwalked.statements] at hnone

/-! ## The import of the factory -/

/-- A factory has no consumed name if no import that remains gives it one. -/
theorem lookup_factoryName (h : ∀ statement ∈ (p.start program).statements, ∀ x,
      Imports.localName? p.factoryTarget statement = some x →
      (p.consumed program).registry.lookup x = none) (origin : SourceUnit) :
    (p.consumed program).registry.lookup (p.factoryName program origin) = none := by
  obtain ⟨⟨statement, hstatement, hname⟩, -⟩ | ⟨hfresh, -⟩ := factory_spec p program origin
  · exact h statement hstatement _ hname
  · rw [List.lookup_eq_none_iff]
    intro entry hentry
    rw [bne_iff_ne]
    intro hname
    exact hfresh (hname ▸ Bindings.resolve_knowsFresh _ _ _ _ (List.mem_map_of_mem hentry))

theorem declaration_of_lacks (h : p.LacksFactory program) (origin : SourceUnit) :
    ((p.start program).grant (p.context program origin)).declaration =
      some (Imports.declaration p.factoryTarget (p.factoryName program origin)) := by
  obtain ⟨⟨statement, hstatement, hname⟩, -⟩ | ⟨-, hdeclaration⟩ := factory_spec p program origin
  · rw [h statement hstatement] at hname
    cases hname
  · exact hdeclaration

theorem declaration_of_has (h : ¬ p.LacksFactory program) (origin : SourceUnit) :
    ((p.start program).grant (p.context program origin)).declaration = none := by
  simp only [LacksFactory, not_forall] at h
  obtain ⟨statement, hstatement, hname⟩ := h
  obtain ⟨x, hx⟩ := Option.ne_none_iff_exists'.mp hname
  obtain ⟨imported, himported⟩ := Imports.exists_existing? hstatement hx
  change (Imports.request [] Sites.asked p.factoryTarget (p.start program).statements _).declaration
    = none
  rw [Imports.request, List.lookup_nil, himported]

theorem front_of_new (h : p.LacksFactory program) (origin : SourceUnit) :
    (p.start program).front (p.context program origin) true =
      [Imports.declaration p.factoryTarget (p.factoryName program origin)] := by
  rw [Sites.Start.front, declaration_of_lacks h]
  rfl

theorem front_of_has (h : ¬ p.LacksFactory program) (origin : SourceUnit) (isAsked : Bool) :
    (p.start program).front (p.context program origin) isAsked = [] := by
  rw [Sites.Start.front, declaration_of_has h]
  cases isAsked <;> rfl

theorem sites_front (registry : Registry) (origin : SourceUnit) (isAsked : Bool) :
    Sites.sitesOfList registry ((p.start program).front (p.context program origin) isAsked) =
      [] := by
  cases isAsked with
  | false => rfl
  | true =>
    by_cases h : p.LacksFactory program
    · rw [front_of_new h]
      unfold Imports.declaration
      split <;> rfl
    · rw [front_of_has h]
      rfl

theorem isImport_rewritten {c : Sites.Context} {factory : Option Text} {a b : Node}
    (h : Sites.Rewritten c factory a b) : b.isImport = a.isImport := by
  cases h with
  | kept => rfl
  | site _ hexpansion _ =>
    refine Sites.eq_of_expansion (x := false) (fun n hn => ?_) hexpansion
    obtain ⟨_, form, _⟩ := n
    cases form <;> first | rfl | cases hn

theorem countP_rewritten {c : Sites.Context} {factory : Option Text} {as bs : List Node}
    (h : Sites.AllRewritten c factory as bs) :
    bs.countP Node.isImport = as.countP Node.isImport := by
  induction h with
  | nil => rfl
  | cons h _ ih => rw [List.countP_cons, List.countP_cons, isImport_rewritten h, ih]

theorem slot_of_walked (h : Walked p program origin body before isAsked after out) :
    out.slot "body" = (p.start program).front (p.context program origin) isAsked ++ after := by
  obtain ⟨head, trailing, hout⟩ := h.out
  rw [hout]
  rfl

theorem countP_of_walked (hmodules : (p.modules.map (·.1)).Nodup)
    (hwalked : Walked p (.program head trailing body) origin body before isAsked after out) :
    (out.slot "body").countP Node.isImport + body.countP (Bindings.isTaken p.modules) =
      body.countP Node.isImport +
        ((p.start (.program head trailing body)).front
          (p.context (.program head trailing body) origin) isAsked).countP Node.isImport := by
  have hremains := Bindings.countP_isImport_resolve hmodules head trailing body
  have hbefore : ((Bindings.resolve p.modules (.program head trailing body)
      (Scope.ofProgram (.program head trailing body))).program.slot "body") = before :=
    hwalked.statements
  rw [hbefore] at hremains
  rw [slot_of_walked hwalked, List.countP_append, countP_rewritten hwalked.rewritten]
  omega

/-! ## Exactly the sites -/

/-- What the pass does with the sites of a program. -/
structure CompilesSites (p : Precompiler) (program : Node) (origin : SourceUnit) : Prop where
  /-- It succeeds if no site stops it. -/
  succeeds : (∃ out, (p.transform program origin).result = .ok out) ↔
    ∀ n ∈ p.sites program, Sites.offence? (p.context program origin) n = none
  /-- The compiler is called once for each site, in their order. -/
  calls : ∀ out, (p.transform program origin).result = .ok out →
    List.Forall₂ (Sites.IsRequest (p.context program origin)) (p.sites program)
      (p.transform program origin).compilations
  /-- No site is left, unless an import that remains gives the factory a consumed name. -/
  gone : ∀ out, (p.transform program origin).result = .ok out →
    (∀ statement ∈ (p.start program).statements, ∀ x,
      Imports.localName? p.factoryTarget statement = some x →
      (p.consumed program).registry.lookup x = none) →
    Sites.sitesOfList (p.consumed program).registry (out.slot "body") = []
  /-- One import is new if there is a site and no import that remains has the factory. -/
  newImport : ∀ out, (p.transform program origin).result = .ok out →
    p.sites program ≠ [] ∧ p.LacksFactory program →
    (out.slot "body").countP Node.isImport +
        (program.slot "body").countP (Bindings.isTaken p.modules) =
      (program.slot "body").countP Node.isImport + 1
  noImport : ∀ out, (p.transform program origin).result = .ok out →
    ¬ (p.sites program ≠ [] ∧ p.LacksFactory program) →
    (out.slot "body").countP Node.isImport +
        (program.slot "body").countP (Bindings.isTaken p.modules) =
      (program.slot "body").countP Node.isImport
  /-- It stops at the first site that fails. The sites in front of it were compiled. -/
  stops : ∀ e, (p.transform program origin).result = .error e →
    ∃ front n rest calls last, p.sites program = front ++ n :: rest ∧
      (∀ m ∈ front, Sites.offence? (p.context program origin) m = none) ∧
      List.Forall₂ (Sites.IsRequest (p.context program origin)) front calls ∧
      Sites.Stops (p.context program origin) n e last ∧
      (p.transform program origin).compilations = calls ++ last

/-- Exactly the sites of a program are compiled if no expression that the compiler gives mentions a
consumed name. -/
theorem compilations_of_transform (hbody : ∀ n ∈ body, n.isStatement)
    (hmodules : (p.modules.map (·.1)).Nodup)
    (hpayloads : ∀ template options payload e, p.compiler template options = .ok payload →
      Node.readExpression payload (some Compiler.outputName) = .ok e →
      ∀ x, Mentioned e x → (p.consumed (.program head trailing body)).registry.lookup x = none) :
    CompilesSites p (.program head trailing body) origin := by
  have hinert : Sites.IsOpaque (p.context (.program head trailing body) origin) :=
    fun template options payload e hpayload he =>
      Sites.sites_of_not_mentioned (hpayloads template options payload e hpayload he)
  obtain ⟨hcompilations, hfailure⟩ := transform_tries hbody hinert
  refine ⟨?_, fun out h => ?_, fun out h hfree => ?_, fun out h hneeds => ?_,
    fun out h hneeds => ?_, fun e h => ?_⟩
  · rw [← failure?_eq_none_iff, hfailure]
    exact ⟨fun h => (Sites.attempt_done isSite_of_mem_sites h).1, Sites.attempt_of_offence?⟩
  · rw [hcompilations]
    obtain ⟨-, hrequests⟩ := Sites.attempt_done isSite_of_mem_sites (attempt_of_ok hbody hinert h)
    exact hrequests.imp fun _ _ hrequest => Sites.isRequest_of_request? hrequest
  · obtain ⟨before, isAsked, after, hwalked⟩ := walked_of_transform hbody h
    rw [slot_of_walked hwalked, Sites.sitesOfList_append, sites_front, List.nil_append]
    -- what is not called by the name of the factory was no site before
    refine Sites.sitesOfList_of_rewritten (fun name hname => ?_) hwalked.rewritten
    cases isAsked with
    | false => cases hname
    | true =>
      cases hname
      exact lookup_factoryName hfree origin
  · obtain ⟨before, isAsked, after, hwalked, hmemory⟩ := walked_with_memory hbody h
    obtain rfl := (isAsked_iff hbody hinert hwalked hmemory).mpr hneeds.1
    have hcount := countP_of_walked hmodules hwalked
    rw [front_of_new hneeds.2] at hcount
    exact hcount
  · obtain ⟨before, isAsked, after, hwalked, hmemory⟩ := walked_with_memory hbody h
    have hcount := countP_of_walked hmodules hwalked
    by_cases hlacks : p.LacksFactory (.program head trailing body)
    · -- then there is no site that asks for it
      have hasked : isAsked = false := by
        refine Bool.eq_false_iff.mpr fun hasked => ?_
        exact hneeds ⟨(isAsked_iff hbody hinert hwalked hmemory).mp hasked, hlacks⟩
      rw [hasked] at hcount
      exact hcount
    · rw [front_of_has hlacks] at hcount
      exact hcount
  · obtain ⟨front, n, rest, calls, last, hsites, hfront, hcalls, -, hstops, hrequests⟩ :=
      Sites.attempt_stopped isSite_of_mem_sites (attempt_of_error hbody hinert h)
    exact ⟨front, n, rest, calls, last, hsites, hfront,
      hcalls.imp fun _ _ hrequest => Sites.isRequest_of_request? hrequest, hstops,
      hcompilations.trans hrequests⟩

theorem plainPass_expression {module template payload : Text} {options : Entries} {e : Node}
    (hpayload : (plainPass module).compiler template options = .ok payload)
    (he : Node.readExpression payload (some Compiler.outputName) = .ok e) (x : Text) :
    ¬ Mentioned e x := by
  obtain ⟨e', he', hnames⟩ : ∃ e', Node.readExpression "0" (some Compiler.outputName) = .ok e' ∧
      e'.nodes.filterMap Node.ident? = [] := exists_ok (by decide +kernel)
  cases hpayload
  rw [he] at he'
  cases he'
  rintro ⟨m, hm, hx⟩
  have hmem := List.mem_filterMap.mpr ⟨m, hm, hx⟩
  rw [hnames] at hmem
  cases hmem

theorem compilations_of_transform_handedOn :
    (∀ n ∈ handedOn, n.isStatement) ∧ ((plainPass "m").modules.map (·.1)).Nodup ∧
      (∀ template options payload e, (plainPass "m").compiler template options = .ok payload →
        Node.readExpression payload (some Compiler.outputName) = .ok e → ∀ x, ¬ Mentioned e x) ∧
      CompilesSites (plainPass "m") (.program .fresh [] handedOn) ⟨none, none⟩ := by
  have hstatements : ∀ n ∈ handedOn, n.isStatement := by decide
  have hmodules : ((plainPass "m").modules.map (·.1)).Nodup := by decide
  exact ⟨hstatements, hmodules, fun _ _ _ _ => plainPass_expression,
    compilations_of_transform hstatements hmodules fun _ _ _ _ hpayload he x hx =>
      absurd hx (plainPass_expression hpayload he x)⟩

/-- `import hbs from "m"; import { createTemplateFactory as hbs } from "@ember/template-factory";
hbs("x");` -/
def declaredTwice : List Node :=
  [defaultImport "hbs" "m",
    Imports.declaration ⟨Compiler.factoryExport, Compiler.factoryModule⟩ "hbs",
    .exprStmt .fresh (.call .fresh false (.name .fresh "hbs") [.literal .fresh (.str "x")])]

/-- A site is left if a name is declared twice, since the import of the factory then gets the fresh
name of the other. -/
theorem declaredTwice_site :
    (∀ template options payload e, (plainPass "m").compiler template options = .ok payload →
      Node.readExpression payload (some Compiler.outputName) = .ok e → ∀ x, ¬ Mentioned e x) ∧
    ∃ out, ((plainPass "m").transform (.program .fresh [] declaredTwice) ⟨none, none⟩).result =
      .ok out ∧
      (Sites.sitesOfList ((plainPass "m").consumed (.program .fresh [] declaredTwice)).registry
        (out.slot "body")).length = 1 :=
  ⟨fun _ _ _ _ => plainPass_expression, exists_ok (by decide +kernel)⟩

/-! ## What the compiler gives is left alone -/

/-- What the pass does with the expressions that the compiler gives. -/
structure KeepsPayloads (p : Precompiler) (program : Node) (origin : SourceUnit) : Prop where
  /-- The walk comes to an end, and fails only where a site does. -/
  bounded : (p.transform program origin).result ≠ .error .tooDeep
  fails : ∀ e, (p.transform program origin).result = .error e →
    ∃ n ∈ p.sites program, Sites.offence? (p.context program origin) n = some e
  /-- In the place of each site stands what the one request that it made became, and nothing else is
  changed. -/
  places : ∀ out, (p.transform program origin).result = .ok out → ∃ imports expand,
    (imports = [] ∨
      imports = [Imports.declaration p.factoryTarget (p.factoryName program origin)]) ∧
    out.slot "body" = imports ++
      (p.start program).statements.map (Sites.mapSites (p.consumed program).registry expand) ∧
    List.Forall₂ (fun n r => Sites.IsRequest (p.context program origin) n r ∧
        ∃ compiled, Sites.IsCompiled (p.context program origin) (p.factoryName program origin) r
          compiled ∧ expand n = Sites.placed n compiled)
      (p.sites program) (p.transform program origin).compilations

theorem front_spec (program : Node) (origin : SourceUnit) (isAsked : Bool) :
    (p.start program).front (p.context program origin) isAsked = [] ∨
      (p.start program).front (p.context program origin) isAsked =
        [Imports.declaration p.factoryTarget (p.factoryName program origin)] := by
  by_cases h : p.LacksFactory program
  · cases isAsked with
    | false => exact .inl rfl
    | true => exact .inr (front_of_new h origin)
  · exact .inl (front_of_has h origin isAsked)

theorem forall₂_and {α β : Type} {R S : α → β → Prop} {xs : List α} {ys : List β}
    (h : List.Forall₂ R xs ys) (h' : ∀ x ∈ xs, ∀ y, R x y → S x y) : List.Forall₂ S xs ys := by
  induction h with
  | nil => exact .nil
  | cons h _ ih =>
    obtain ⟨hx, hxs⟩ := List.forall_mem_cons.mp h'
    exact .cons (hx _ h) (ih hxs)

/-- If all that the compiler gives are expressions without sites, the pass comes to an end and
leaves them as they are. -/
theorem payloads_of_transform (hbody : ∀ n ∈ body, n.isStatement)
    (hpayloads : ∀ template options payload, p.compiler template options = .ok payload →
      ∃ e, Node.readExpression payload (some Compiler.outputName) = .ok e ∧
        Sites.sites (p.consumed (.program head trailing body)).registry e = []) :
    KeepsPayloads p (.program head trailing body) origin := by
  have hinert : Sites.IsOpaque (p.context (.program head trailing body) origin) := by
    intro template options payload e hpayload he
    obtain ⟨e', he', hplain⟩ := hpayloads template options payload hpayload
    rw [he] at he'
    cases he'
    exact hplain
  have hcompilations := (transform_tries hbody hinert).1
  have hfails : ∀ e, (p.transform (.program head trailing body) origin).result = .error e →
      ∃ n ∈ p.sites (.program head trailing body),
        Sites.offence? (p.context (.program head trailing body) origin) n = some e := by
    intro e h
    obtain ⟨front, n, rest, calls, last, hsites, -, -, hn, -, -⟩ :=
      Sites.attempt_stopped isSite_of_mem_sites (attempt_of_error hbody hinert h)
    exact ⟨n, hsites ▸ List.mem_append_right _ List.mem_cons_self, hn⟩
  refine ⟨fun hdeep => ?_, hfails, fun out h => ?_⟩
  · obtain ⟨n, -, hn⟩ := hfails _ hdeep
    refine Sites.offence?_bounded (fun template options payload hpayload => ?_) n hn
    obtain ⟨e, he, -⟩ := hpayloads template options payload hpayload
    exact ⟨e, he⟩
  · obtain ⟨hoffence, hrequests⟩ :=
      Sites.attempt_done isSite_of_mem_sites (attempt_of_ok hbody hinert h)
    obtain ⟨before, isAsked, after, hwalked⟩ := walked_of_transform hbody h
    refine ⟨_, Sites.expanded (p.context (.program head trailing body) origin)
      (p.factoryName (.program head trailing body) origin), front_spec _ origin isAsked, ?_, ?_⟩
    · rw [slot_of_walked hwalked, hwalked.statements]
      exact congrArg _ (Sites.eq_map_of_rewritten hinert
        (hwalked.rewritten.imp fun _ _ h => rewritten_factoryName h))
    · rw [hcompilations]
      refine forall₂_and hrequests fun n hn r hrequest => ?_
      exact ⟨Sites.isRequest_of_request? hrequest,
        Sites.expanded_of_request? hrequest (hoffence n hn) _⟩

/-- The pass for the default export of `m`, with a compiler that gives the expression `payload`. -/
def givingPass (payload : Text) : Precompiler :=
  { plainPass "m" with compiler := fun _ _ => .ok payload }

/-- A compiler may mention a consumed name as long as it makes no site of it. -/
theorem payloads_of_transform_handedOn :
    (∀ n ∈ handedOn, n.isStatement) ∧
      (∀ template options payload, (givingPass "f(_m)").compiler template options = .ok payload →
        ∃ e, Node.readExpression payload (some Compiler.outputName) = .ok e ∧
          Sites.sites ((givingPass "f(_m)").consumed (.program .fresh [] handedOn)).registry e =
            []) ∧
      KeepsPayloads (givingPass "f(_m)") (.program .fresh [] handedOn) ⟨none, none⟩ := by
  have hstatements : ∀ n ∈ handedOn, n.isStatement := by decide
  have hpayloads : ∀ template options payload,
      (givingPass "f(_m)").compiler template options = .ok payload →
      ∃ e, Node.readExpression payload (some Compiler.outputName) = .ok e ∧
        Sites.sites ((givingPass "f(_m)").consumed (.program .fresh [] handedOn)).registry e =
          [] := by
    intro template options payload hpayload
    cases hpayload
    obtain ⟨e, he, hplain⟩ : ∃ e, Node.readExpression "f(_m)" (some Compiler.outputName) = .ok e ∧
        (Sites.sites ((givingPass "f(_m)").consumed (.program .fresh [] handedOn)).registry
          e).length = 0 := exists_ok (by decide +kernel)
    exact ⟨e, he, List.eq_nil_of_length_eq_zero hplain⟩
  exact ⟨hstatements, hpayloads, payloads_of_transform hstatements hpayloads⟩

/-- The pass for the default export of `m`, with a compiler that gives a template for `x`. -/
def nestingPass : Precompiler :=
  { plainPass "m" with
    compiler := fun template _ => .ok (if template = "x" then "_m('y')" else "0") }

/-- A site that the compiler gives is compiled like any other. -/
theorem nestingPass_compilations :
    (∀ template options payload, nestingPass.compiler template options = .ok payload →
      ∃ e, Node.readExpression payload (some Compiler.outputName) = .ok e) ∧
    (nestingPass.sites (.program .fresh [] handedOn)).length = 1 ∧
      (nestingPass.transform (.program .fresh [] handedOn) ⟨none, none⟩).compilations.map
        Compilation.template = ["x", "y"] := by
  have hnested : ∃ e, Node.readExpression "_m('y')" (some Compiler.outputName) = .ok e ∧ True :=
    exists_ok (by decide +kernel)
  have hzero : ∃ e, Node.readExpression "0" (some Compiler.outputName) = .ok e ∧ True :=
    exists_ok (by decide +kernel)
  refine ⟨fun template options payload hpayload => ?_, by decide +kernel, by decide +kernel⟩
  change Except.ok (if _ then _ else _) = _ at hpayload
  split at hpayload
  · cases hpayload
    exact hnested.imp fun _ h => h.1
  · cases hpayload
    exact hzero.imp fun _ h => h.1

end Precompiler

end InlineTemplates
