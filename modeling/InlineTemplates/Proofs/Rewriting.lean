import InlineTemplates.Proofs.Alike
import InlineTemplates.Template.Sites

/-!
# What the walk over the sites does

The walk changes sites and nothing else. All sites get one name for the factory, the one that is
asked for at the first site, and its import stands in front of the program from then on.
-/

namespace InlineTemplates

open Traversal

/-! ## Steps of a walk -/

section Steps

variable {σ α β : Type} {s s' t : Walk σ}

/-- Whether a computation that starts at `s` gives `x` and ends at `s'`. -/
def Gives (m : WalkM σ α) (s : Walk σ) (x : α) (s' : Walk σ) : Prop := m.run.run s = (.ok x, s')

theorem gives_pure {x y : α} : Gives (pure x : WalkM σ α) s y s' ↔ y = x ∧ s' = s := by
  constructor
  · intro h
    cases h
    exact ⟨rfl, rfl⟩
  · rintro ⟨rfl, rfl⟩
    rfl

theorem gives_bind {m : WalkM σ α} {f : α → WalkM σ β} {y : β} :
    Gives (m >>= f) s y s' ↔ ∃ x t, Gives m s x t ∧ Gives (f x) t y s' := by
  unfold Gives
  rw [ExceptT.run_bind, StateT.run_bind]
  rcases m.run.run s with ⟨_ | x, t⟩
  · constructor
    · intro h
      cases h
    · rintro ⟨x, t, h, -⟩
      cases h
  · constructor
    · intro h
      exact ⟨x, t, rfl, h⟩
    · rintro ⟨x, t, h, hf⟩
      cases h
      exact hf

theorem gives_throw_not {e : Error} {y : α} : ¬ Gives (throw e : WalkM σ α) s y s' := nofun

theorem gives_get {y : Walk σ} : Gives (get : WalkM σ (Walk σ)) s y s' ↔ y = s ∧ s' = s := by
  constructor
  · intro h
    cases h
    exact ⟨rfl, rfl⟩
  · rintro ⟨rfl, rfl⟩
    rfl

theorem gives_modifyBody {f : Body → Body} {y : Unit} :
    Gives (modifyBody f) s y s' ↔ s' = { s with body := f s.body } := by
  constructor
  · intro h
    cases h
    rfl
  · rintro rfl
    rfl

theorem gives_ask {visitor : Visitor σ} {n : Node} {position : Option Node.Position}
    {edits : List Edit} :
    Gives (ask visitor n position) s edits s' ↔
      ∃ memory, (visitor ⟨n, position, s.body⟩).run.run s.memory = (.ok edits, memory) ∧
        s' = { s with memory } := by
  unfold Gives ask
  change (((visitor ⟨n, position, s.body⟩).run.run s.memory).1,
    { s with memory := ((visitor ⟨n, position, s.body⟩).run.run s.memory).2 }) = _ ↔ _
  rcases (visitor ⟨n, position, s.body⟩).run.run s.memory with ⟨result, memory⟩
  constructor
  · intro h
    cases h
    exact ⟨memory, rfl, rfl⟩
  · rintro ⟨_, h, rfl⟩
    cases h
    rfl

end Steps

namespace Sites

variable (c : Context)

/-! ## Rewritten trees -/

/-- What stands in the place of a node if it is a site, before the walk goes on below: the compiled
template in the hands of `factory`. -/
def expansion (factory : Text) (n : Node) : Option Node :=
  match content? c n with
  | some (.ok (template, options)) =>
    (Compiler.compile c.compiler template (.name .fresh factory) options n c.origin).toOption
  | _ => none

/-- What a replacement becomes at the place of a node. -/
def placed (n compiled : Node) : Node := (compiled.withLoc n.loc).prependComments n.comments

/-- Slots of which those that a form has are related node by node. -/
inductive SlotsRelated (R : Node → Node → Prop) :
    List Slot → List (List Node) → List (List Node) → Prop where
  | cons {s : Slot} {specs : List Slot} {ns ns' : List Node} {slots slots' : List (List Node)} :
    List.Forall₂ R ns ns' → SlotsRelated R specs slots slots' →
    SlotsRelated R (s :: specs) (ns :: slots) (ns' :: slots')
  | rest (slots : List (List Node)) : SlotsRelated R [] slots slots
  | nil (specs : List Slot) : SlotsRelated R specs [] []

/-- Trees before and after the walk. With `factory` sites are in the hands of that name, and without
there is no site. -/
inductive Rewritten (factory : Option Text) : Node → Node → Prop where
  | kept {head : Head} {form : Form} {slots slots' : List (List Node)} :
    content? c (.mk head form slots) = none →
    SlotsRelated (Rewritten factory) form.slots slots slots' →
    Rewritten factory (.mk head form slots) (.mk head form slots')
  | site {n compiled : Node} {name : Text} {slots' : List (List Node)} :
    factory = some name → expansion c name n = some compiled →
    SlotsRelated (Rewritten factory) compiled.form.slots compiled.slots slots' →
    Rewritten factory n (.mk (placed n compiled).head compiled.form slots')

abbrev AllRewritten (factory : Option Text) : List Node → List Node → Prop :=
  List.Forall₂ (Rewritten c factory)

abbrev SlotsRewritten (factory : Option Text) :
    List Slot → List (List Node) → List (List Node) → Prop :=
  SlotsRelated (Rewritten c factory)

theorem Rewritten.induct {factory : Option Text}
    {motive : (a b : Node) → Rewritten c factory a b → Prop}
    (kept : ∀ {head form slots slots'} (_ : content? c (.mk head form slots) = none)
      (_ : SlotsRelated (fun a b => ∃ h : Rewritten c factory a b, motive a b h)
        form.slots slots slots')
      (h : Rewritten c factory (.mk head form slots) (.mk head form slots')),
      motive (.mk head form slots) (.mk head form slots') h)
    (site : ∀ {n compiled name slots'} (_ : factory = some name)
      (_ : expansion c name n = some compiled)
      (_ : SlotsRelated (fun a b => ∃ h : Rewritten c factory a b, motive a b h)
        compiled.form.slots compiled.slots slots')
      (h : Rewritten c factory n (.mk (placed n compiled).head compiled.form slots')),
      motive n (.mk (placed n compiled).head compiled.form slots') h)
    {a b : Node} (h : Rewritten c factory a b) : motive a b h :=
  @Rewritten.rec c factory motive
    (fun specs slots slots' _ =>
      SlotsRelated (fun a b => ∃ h : Rewritten c factory a b, motive a b h) specs slots slots')
    (fun as bs _ => List.Forall₂ (fun a b => ∃ h : Rewritten c factory a b, motive a b h) as bs)
    (fun hc hs ih => kept hc ih (.kept hc hs))
    (fun hname he hs ih => site hname he ih (.site hname he hs))
    (fun _ _ ih ihs => .cons ih ihs) (fun slots => .rest slots) (fun specs => .nil specs)
    .nil (fun h _ ih ihs => .cons ⟨h, ih⟩ ihs) _ _ h

theorem SlotsRelated.imp {R S : Node → Node → Prop} {specs : List Slot}
    {slots slots' : List (List Node)} (h : SlotsRelated R specs slots slots')
    (hRS : ∀ a b, R a b → S a b) : SlotsRelated S specs slots slots' := by
  induction h with
  | cons h _ ih => exact .cons (h.imp hRS) ih
  | rest slots => exact .rest slots
  | nil specs => exact .nil specs

theorem Rewritten.mono {name : Text} {a b : Node} (h : Rewritten c none a b) :
    Rewritten c (some name) a b := by
  induction h using Rewritten.induct with
  | kept hc hs => exact .kept hc (hs.imp fun _ _ h => h.2)
  | site hname => cases hname

/-! ## The visitor -/

theorem visitor_run (v : Visit) (m : Memory) :
    (visitor c v).run.run m =
      match content? c v.node with
      | none => (.ok [], m)
      | some (.error e) => (.error e, m)
      | some (.ok (template, options)) =>
        let grant := factory c m v.body.statements
        let m' : Memory := ⟨grant.scope, grant.imports,
          ⟨template, Compiler.optionsFor template options⟩ :: m.compilations⟩
        match Compiler.compile c.compiler template (.name .fresh grant.imported.name) options
            v.node c.origin with
        | .error e => (.error e, m')
        | .ok compiled =>
          (.ok (grant.declaration.toList.map .insertFront ++
            [.replace (compiled.withLoc v.node.loc)]), m') := by
  unfold visitor
  cases content? c v.node with
  | none => rfl
  | some content =>
    rcases content with e | ⟨template, options⟩
    · rfl
    · change ((liftM (Compiler.compile c.compiler template
          (.name .fresh (factory c m v.body.statements).imported.name) options v.node c.origin) >>=
          _ : ExceptT Error (StateM Memory) (List Edit)).run.run _) = _
      dsimp only
      cases Compiler.compile c.compiler template
        (.name .fresh (factory c m v.body.statements).imported.name) options v.node c.origin <;> rfl

/-! ## States of the walk -/

/-- The export that is asked for at each site. -/
def asked : Target := ⟨Compiler.factoryExport, Compiler.factoryModule⟩

/-- The names and the statements of a program at the start of the walk. -/
structure Start where
  scope : Scope
  statements : List Node

variable (start : Start)

/-- What asking for the factory leads to at the first site. -/
def Start.grant : Imports.Grant := factory c ⟨start.scope, [], []⟩ start.statements

def Start.name? (isAsked : Bool) : Option Text :=
  if isAsked then some (start.grant c).imported.name else none

/-- What is known of a state: in front of the first site nothing has changed, and behind it the name
of the factory is remembered. -/
def Holds (isAsked : Bool) (s : Walk Memory) : Prop :=
  if isAsked then s.memory.imports.lookup asked = some (start.grant c).imported
  else s.memory.scope = start.scope ∧ s.memory.imports = [] ∧ s.body.statements = start.statements

/-- The statements behind the first site, if that was passed on the way. -/
def advanced (isAsked isAsked' : Bool) (body : Body) : Body :=
  if isAsked' && !isAsked then (start.grant c).declaration.toList.foldl Body.insertFront body
  else body

/-- What a part of the walk does to the state. -/
structure Advances (isAsked : Bool) (s : Walk Memory) (isAsked' : Bool) (s' : Walk Memory) :
    Prop where
  holds : Holds c start isAsked' s'
  asked : isAsked → isAsked'
  body : s'.body = advanced c start isAsked isAsked' s.body

variable {c start} {isAsked isAsked' isAsked'' : Bool} {s s' t : Walk Memory}

theorem Advances.refl (h : Holds c start isAsked s) : Advances c start isAsked s isAsked s :=
  ⟨h, id, by simp [advanced]⟩

theorem Advances.trans (h : Advances c start isAsked s isAsked' t)
    (h' : Advances c start isAsked' t isAsked'' s') : Advances c start isAsked s isAsked'' s' := by
  refine ⟨h'.holds, h'.asked ∘ h.asked, ?_⟩
  rw [h'.body, h.body]
  have hfirst := h.asked
  have hsecond := h'.asked
  cases isAsked <;> cases isAsked' <;> cases isAsked'' <;> simp_all [advanced]

theorem Rewritten.advance {a b : Node} (h : Rewritten c (start.name? c isAsked) a b)
    (hasked : isAsked → isAsked') : Rewritten c (start.name? c isAsked') a b := by
  cases isAsked with
  | true => rwa [hasked rfl]
  | false =>
    cases isAsked' with
    | true => exact h.mono
    | false => exact h

theorem lookup_request (imports : Imports) (asked real : Target) (statements : List Node)
    (scope : Scope) :
    (imports.request asked real statements scope).imports.lookup asked =
      some (imports.request asked real statements scope).imported := by
  unfold Imports.request
  split
  · next h => exact h
  · split
    · exact List.lookup_cons_self
    · exact List.lookup_cons_self

theorem request_of_lookup {imports : Imports} {asked : Target} {imported : ImportedName}
    (h : imports.lookup asked = some imported) (real : Target) (statements : List Node)
    (scope : Scope) :
    imports.request asked real statements scope = ⟨imported, none, scope, imports⟩ := by
  rw [Imports.request, h]

theorem factory_of_holds (h : Holds c start isAsked s) :
    (factory c s.memory s.body.statements).imported = (start.grant c).imported ∧
      (factory c s.memory s.body.statements).imports.lookup asked =
        some (start.grant c).imported ∧
      (factory c s.memory s.body.statements).declaration =
        if isAsked then none else (start.grant c).declaration := by
  cases isAsked with
  | true =>
    have h : s.memory.imports.lookup asked = some (start.grant c).imported := h
    have hgrant : factory c s.memory s.body.statements =
        ⟨(start.grant c).imported, none, s.memory.scope, s.memory.imports⟩ :=
      request_of_lookup h _ _ _
    rw [hgrant]
    exact ⟨rfl, h, rfl⟩
  | false =>
    obtain ⟨hscope, himports, hstatements⟩ : _ ∧ _ ∧ _ := h
    have hgrant : factory c s.memory s.body.statements = start.grant c := by
      unfold Start.grant factory
      rw [hscope, himports, hstatements]
    rw [hgrant]
    exact ⟨rfl, lookup_request _ _ _ _ _, rfl⟩

/-! ## Visits -/

theorem expansion_of_compile {n : Node} {template : Text} {options : Entries} {name : Text}
    {compiled : Node} (hcontent : content? c n = some (.ok (template, options)))
    (hcompiled : Compiler.compile c.compiler template (.name .fresh name) options n c.origin =
      .ok compiled) : expansion c name n = some compiled := by
  rw [expansion, hcontent]
  simp only [hcompiled]
  rfl

theorem ask_spec (h : Holds c start isAsked s) {n : Node} {position : Option Node.Position}
    {edits : List Edit} (hgives : Gives (ask (visitor c) n position) s edits t) :
    (content? c n = none ∧ edits = [] ∧ t = s) ∨
    ∃ compiled, expansion c (start.grant c).imported.name n = some compiled ∧
      edits = (if isAsked then none else (start.grant c).declaration).toList.map .insertFront ++
        [.replace (compiled.withLoc n.loc)] ∧
      t.memory.imports.lookup asked = some (start.grant c).imported ∧ t.body = s.body := by
  obtain ⟨memory, hrun, rfl⟩ := gives_ask.mp hgives
  rw [visitor_run] at hrun
  obtain ⟨himported, hlookup, hdeclaration⟩ := factory_of_holds h
  split at hrun
  · next hcontent =>
    cases hrun
    exact .inl ⟨hcontent, rfl, rfl⟩
  · cases hrun
  · next template options hcontent =>
    dsimp only at hrun
    rw [himported, hdeclaration] at hrun
    split at hrun
    · cases hrun
    · next compiled hcompiled =>
      cases hrun
      exact .inr ⟨compiled, expansion_of_compile hcontent hcompiled, rfl, hlookup, rfl⟩

theorem editInner_replace {o o' : Outcome} {new : Node} :
    Gives (editInner o (.replace new) : WalkM Memory Outcome) s o' s' ↔
      o' = { o with node := new.prependComments o.node.comments, isNew := true } ∧ s' = s :=
  gives_pure

theorem editInner_insertFront {o o' : Outcome} {statement : Node} :
    Gives (editInner o (.insertFront statement) : WalkM Memory Outcome) s o' s' ↔
      o' = o ∧ s' = { s with body := s.body.insertFront statement } := by
  unfold editInner
  rw [gives_bind]
  constructor
  · rintro ⟨_, t, hmodify, hreturn⟩
    obtain rfl := gives_modifyBody.mp hmodify
    exact gives_pure.mp hreturn
  · rintro ⟨rfl, rfl⟩
    exact ⟨(), _, gives_modifyBody.mpr rfl, gives_pure.mpr ⟨rfl, rfl⟩⟩

/-- What the edits of a site do below a statement. -/
theorem editInner_site {declaration : Option Node} {n new : Node} {o : Outcome}
    (h : Gives ((declaration.toList.map Edit.insertFront ++ [Edit.replace new]).foldlM editInner
      ⟨n, false, false⟩ : WalkM Memory Outcome) s o s') :
    o = ⟨new.prependComments n.comments, true, false⟩ ∧
      s' = { s with body := declaration.toList.foldl Body.insertFront s.body } := by
  cases declaration with
  | none =>
    obtain ⟨o', t, hreplace, hreturn⟩ := gives_bind.mp h
    obtain ⟨rfl, rfl⟩ := editInner_replace.mp hreplace
    exact gives_pure.mp hreturn
  | some statement =>
    obtain ⟨_, t, hinsert, h⟩ := gives_bind.mp h
    obtain ⟨rfl, rfl⟩ := editInner_insertFront.mp hinsert
    obtain ⟨o', t, hreplace, hreturn⟩ := gives_bind.mp h
    obtain ⟨rfl, rfl⟩ := editInner_replace.mp hreplace
    exact gives_pure.mp hreturn

/-- What a visit of a node below a statement leads to. -/
theorem visit_inner_spec (h : Holds c start isAsked s) {n : Node}
    {position : Option Node.Position} {o : Outcome}
    (hgives : Gives (visit (visitor c) editInner n position) s o s') :
    (content? c n = none ∧ o = ⟨n, false, false⟩ ∧ s' = s) ∨
    ∃ compiled, expansion c (start.grant c).imported.name n = some compiled ∧
      o = ⟨placed n compiled, true, false⟩ ∧ Advances c start isAsked s true s' := by
  obtain ⟨edits, t, hask, hedits⟩ := gives_bind.mp hgives
  rcases ask_spec h hask with ⟨hcontent, rfl, rfl⟩ | ⟨compiled, hexpansion, rfl, hlookup, hbody⟩
  · obtain ⟨rfl, rfl⟩ := gives_pure.mp hedits
    exact .inl ⟨hcontent, rfl, rfl⟩
  · obtain ⟨rfl, rfl⟩ := editInner_site hedits
    refine .inr ⟨compiled, hexpansion, rfl, hlookup, fun _ => rfl, ?_⟩
    cases isAsked <;> simp [advanced, hbody]

/-! ## Nodes below a statement -/

/-- What a walk below a node does: the node stays what it is, and its slots are walked. -/
def WalksBelow (c : Context) (start : Start) (below : Node → WalkM Memory Node) : Prop :=
  ∀ (isAsked : Bool) (s : Walk Memory) (n r : Node) (s' : Walk Memory), Holds c start isAsked s →
    Gives (below n) s r s' →
    ∃ isAsked', Advances c start isAsked s isAsked' s' ∧ r.head = n.head ∧ r.form = n.form ∧
      SlotsRewritten c (start.name? c isAsked') n.form.slots n.slots r.slots

theorem mapTrailing_nil (form : Form) : form.mapTrailing (([] : List Text) ++ ·) = form := by
  cases form <;> rfl

variable {below : Node → WalkM Memory Node}

mutual

theorem walkNode_spec (hbelow : WalksBelow c start below) (position : Node.Position) :
    ∀ (n : Node) (isAsked : Bool) (s : Walk Memory) (left : Left) (s' : Walk Memory),
      Holds c start isAsked s → Gives (walkNode (visitor c) below position [] n) s left s' →
      ∃ isAsked' n', left = .node n' ∧ Advances c start isAsked s isAsked' s' ∧
        Rewritten c (start.name? c isAsked') n n'
  | .mk head form slots, isAsked, s, left, s', hholds, hgives => by
    rw [walkNode] at hgives
    obtain ⟨o, t, hvisit, hwalk⟩ := gives_bind.mp hgives
    change Gives (visit (visitor c) editInner (.mk head form slots) (some position)) s o t at hvisit
    rcases visit_inner_spec hholds hvisit with
      ⟨hcontent, rfl, rfl⟩ | ⟨compiled, hexpansion, rfl, hadvances⟩
    · -- no site: the slots are walked
      obtain ⟨⟨slots', spilled⟩, t', hslots, hreturn⟩ := gives_bind.mp hwalk
      obtain ⟨rfl, rfl⟩ := gives_pure.mp hreturn
      obtain ⟨isAsked', hspilled, hadvances, hrelated⟩ :=
        walkSlots_spec hbelow slots form.slots isAsked _ _ _ hholds hslots
      cases hspilled
      rw [mapTrailing_nil]
      exact ⟨isAsked', _, rfl, hadvances, .kept hcontent hrelated⟩
    · -- a site: the walk goes on below the replacement
      obtain ⟨r, t', hr, hreturn⟩ := gives_bind.mp hwalk
      obtain ⟨rfl, rfl⟩ := gives_pure.mp hreturn
      obtain ⟨isAsked', hadvances', hhead, hform, hrelated⟩ := hbelow _ _ _ _ _ hadvances.holds hr
      have hasked : isAsked' = true := hadvances'.asked rfl
      subst hasked
      refine ⟨true, r, rfl, hadvances.trans hadvances', ?_⟩
      obtain ⟨rhead, rform, rslots⟩ := r
      cases hhead
      cases hform
      exact .site rfl hexpansion hrelated

theorem walkSlots_spec (hbelow : WalksBelow c start below) :
    ∀ (slots : List (List Node)) (specs : List Slot) (isAsked : Bool) (s : Walk Memory)
      (result : List (List Node) × List Text) (s' : Walk Memory), Holds c start isAsked s →
      Gives (walkSlots (visitor c) below specs slots) s result s' →
      ∃ isAsked', result.2 = [] ∧ Advances c start isAsked s isAsked' s' ∧
        SlotsRewritten c (start.name? c isAsked') specs slots result.1
  | nodes :: slots, spec :: specs, isAsked, s, result, s', hholds, hgives => by
    rw [walkSlots] at hgives
    obtain ⟨⟨nodes', spilled⟩, t, hnodes, hgives⟩ := gives_bind.mp hgives
    obtain ⟨⟨slots', spilled'⟩, t', hslots, hgives⟩ := gives_bind.mp hgives
    obtain ⟨rfl, rfl⟩ := gives_pure.mp hgives
    obtain ⟨isAsked', hspilled, hadvances, hall⟩ :=
      walkList_spec hbelow spec nodes 0 isAsked s _ _ hholds hnodes
    obtain ⟨isAsked'', hspilled', hadvances', hrelated⟩ :=
      walkSlots_spec hbelow slots specs isAsked' t _ _ hadvances.holds hslots
    cases hspilled
    cases hspilled'
    exact ⟨isAsked'', rfl, hadvances.trans hadvances',
      .cons (hall.imp fun _ _ h => h.advance hadvances'.asked) hrelated⟩
  | slots, [], isAsked, s, result, s', hholds, hgives => by
    rw [walkSlots] at hgives
    · obtain ⟨rfl, rfl⟩ := gives_pure.mp hgives
      exact ⟨isAsked, rfl, .refl hholds, .rest slots⟩
    · nofun
  | [], spec :: specs, isAsked, s, result, s', hholds, hgives => by
    rw [walkSlots] at hgives
    · obtain ⟨rfl, rfl⟩ := gives_pure.mp hgives
      exact ⟨isAsked, rfl, .refl hholds, .nil _⟩
    · nofun

theorem walkList_spec (hbelow : WalksBelow c start below) (spec : Slot) :
    ∀ (ns : List Node) (index : Nat) (isAsked : Bool) (s : Walk Memory)
      (result : List Node × List Text) (s' : Walk Memory), Holds c start isAsked s →
      Gives (walkList (visitor c) below spec index [] ns) s result s' →
      ∃ isAsked', result.2 = [] ∧ Advances c start isAsked s isAsked' s' ∧
        AllRewritten c (start.name? c isAsked') ns result.1
  | [], index, isAsked, s, result, s', hholds, hgives => by
    rw [walkList] at hgives
    obtain ⟨rfl, rfl⟩ := gives_pure.mp hgives
    exact ⟨isAsked, rfl, .refl hholds, .nil⟩
  | n :: rest, index, isAsked, s, result, s', hholds, hgives => by
    rw [walkList] at hgives
    obtain ⟨left, t, hnode, hgives⟩ := gives_bind.mp hgives
    obtain ⟨isAsked', n', rfl, hadvances, hrewritten⟩ :=
      walkNode_spec hbelow _ n isAsked s _ _ hholds hnode
    obtain ⟨⟨rest', spilled⟩, t', hrest, hgives⟩ := gives_bind.mp hgives
    obtain ⟨rfl, rfl⟩ := gives_pure.mp hgives
    obtain ⟨isAsked'', hspilled, hadvances', hall⟩ :=
      walkList_spec hbelow spec rest (index + 1) isAsked' t _ _ hadvances.holds hrest
    exact ⟨isAsked'', hspilled, hadvances.trans hadvances',
      .cons (hrewritten.advance hadvances'.asked) hall⟩

end

theorem walkBelow_spec (hbelow : WalksBelow c start below) :
    WalksBelow c start (walkBelow (visitor c) below) := by
  intro isAsked s n r s' hholds hgives
  unfold walkBelow at hgives
  obtain ⟨⟨slots', spilled⟩, t, hslots, hreturn⟩ := gives_bind.mp hgives
  obtain ⟨rfl, rfl⟩ := gives_pure.mp hreturn
  obtain ⟨isAsked', hspilled, hadvances, hrelated⟩ :=
    walkSlots_spec hbelow n.slots n.form.slots isAsked _ _ _ hholds hslots
  cases hspilled
  exact ⟨isAsked', hadvances, rfl, mapTrailing_nil _, hrelated⟩

theorem walkBelowNew_spec (depth : Nat) :
    WalksBelow c start (walkBelowNew (visitor c) depth) := by
  induction depth with
  | zero => exact fun _ _ _ _ _ _ h => absurd h gives_throw_not
  | succ depth ih => exact walkBelow_spec ih

/-! ## Statements -/

theorem content?_of_isStatement {n : Node} (h : n.isStatement) : content? c n = none := by
  obtain ⟨head, form, slots⟩ := n
  cases form <;> first | rfl | cases h

theorem visit_statement {n : Node} (hn : content? c n = none)
    {edit : Traversal.Outcome → Edit → WalkM Memory Traversal.Outcome}
    {position : Option Node.Position} {o : Traversal.Outcome}
    (hgives : Gives (visit (visitor c) edit n position) s o s') :
    o = ⟨n, false, false⟩ ∧ s' = s := by
  obtain ⟨edits, t, hask, hedits⟩ := gives_bind.mp hgives
  obtain ⟨memory, hrun, rfl⟩ := gives_ask.mp hask
  rw [visitor_run] at hrun
  simp only [hn] at hrun
  cases hrun
  exact gives_pure.mp hedits

theorem eq_of_slotsRelated {R : Node → Node → Prop} (hR : ∀ a b, R a b → b = a)
    {specs : List Slot} {slots slots' : List (List Node)}
    (h : SlotsRelated R specs slots slots') : slots' = slots := by
  induction h with
  | cons h _ ih =>
    have hns := h.imp (S := Eq) fun a b hab => (hR a b hab).symm
    rw [List.forall₂_eq_eq_eq] at hns
    rw [ih, hns]
  | rest => rfl
  | nil => rfl

theorem eq_of_rewritten {a b : Node} (h : Rewritten c none a b) : b = a := by
  induction h using Rewritten.induct with
  | kept _ hs => rw [eq_of_slotsRelated (fun a b h => h.2) hs]
  | site hname => cases hname

/-- The items that come in front of the program between two states. -/
def opening (c : Context) (start : Start) (isAsked isAsked' : Bool) : List Item :=
  if isAsked' && !isAsked then (start.grant c).declaration.toList.map (⟨·, false⟩) else []

theorem advanced_spec (body : Body) :
    (advanced c start isAsked isAsked' body).items =
        opening c start isAsked isAsked' ++ body.items ∧
      (advanced c start isAsked isAsked' body).here =
        body.here.map (· + (opening c start isAsked isAsked').length) ∧
      (advanced c start isAsked isAsked' body).trailing = body.trailing := by
  unfold advanced opening
  split
  · cases (start.grant c).declaration with
    | none => exact ⟨rfl, by simp, rfl⟩
    | some => exact ⟨rfl, rfl, rfl⟩
  · exact ⟨rfl, by simp, rfl⟩

theorem Advances.body_spec (h : Advances c start isAsked s isAsked' s') :
    s'.body.items = opening c start isAsked isAsked' ++ s.body.items ∧
      s'.body.here = s.body.here.map (· + (opening c start isAsked isAsked').length) ∧
      s'.body.trailing = s.body.trailing := by
  rw [h.body]
  exact advanced_spec _

theorem modify_behind {α : Type} (xs ys : List α) (y : α) (f : α → α) :
    (xs ++ y :: ys).modify xs.length f = xs ++ f y :: ys := by
  induction xs with
  | nil => rfl
  | cons x rest ih => rw [List.cons_append, List.length_cons, List.modify_succ_cons, ih]; rfl

theorem withComments_of_head {n r : Node} (h : r.head = n.head) :
    r.withComments n.comments = r := by
  obtain ⟨head, form, slots⟩ := r
  cases h
  rfl

theorem walkStatement_spec {pre post : List Item} {n : Node} {u : Unit}
    (hitems : s.body.items = pre ++ ⟨n, true⟩ :: post) (hn : n.isStatement)
    (hholds : Holds c start isAsked s)
    (hgives : Gives (walkStatement (visitor c) pre.length) s u s') :
    ∃ isAsked' r, Holds c start isAsked' s' ∧ (isAsked → isAsked') ∧
      Rewritten c (start.name? c isAsked') n r ∧ s'.body.trailing = s.body.trailing ∧
      s'.body.items = opening c start isAsked isAsked' ++ (pre ++ ⟨r, false⟩ :: post) := by
  unfold walkStatement at hgives
  obtain ⟨_, t, henter, hgives⟩ := gives_bind.mp hgives
  obtain rfl := gives_modifyBody.mp henter
  obtain ⟨_, t, hget, hgives⟩ := gives_bind.mp hgives
  obtain ⟨rfl, rfl⟩ := gives_get.mp hget
  have hentered : (s.body.enter pre.length).items = pre ++ ⟨n, false⟩ :: post := by
    change s.body.items.modify pre.length _ = _
    rw [hitems, modify_behind]
  have hcurrent : (s.body.enter pre.length).current? = some n := by
    change ((s.body.enter pre.length).items[pre.length]?).map Item.node = some n
    rw [hentered]
    simp
  have hholds' : Holds c start isAsked { s with body := s.body.enter pre.length } := by
    cases isAsked with
    | true => exact hholds
    | false =>
      obtain ⟨hscope, himports, hstatements⟩ : _ ∧ _ ∧ _ := hholds
      refine ⟨hscope, himports, ?_⟩
      rw [← hstatements]
      simp [Body.statements, hentered, hitems]
  simp only [hcurrent] at hgives
  obtain ⟨o, t, hvisit, hgives⟩ := gives_bind.mp hgives
  obtain ⟨rfl, rfl⟩ := visit_statement (content?_of_isStatement hn) hvisit
  obtain ⟨r, t, hbelow, hput⟩ := gives_bind.mp hgives
  obtain rfl := gives_modifyBody.mp hput
  obtain ⟨isAsked', hadvances, hhead, hform, hrelated⟩ :=
    walkBelow_spec (walkBelowNew_spec limit) isAsked _ n r t hholds' hbelow
  obtain ⟨hitems', hhere', htrailing'⟩ := hadvances.body_spec
  have hrewritten : Rewritten c (start.name? c isAsked') n r := by
    obtain ⟨head, form, slots⟩ := n
    obtain ⟨head', form', slots'⟩ := r
    cases hhead
    cases hform
    exact .kept (content?_of_isStatement hn) hrelated
  -- the walked statement is put back where it was
  have hput : (t.body.putBack r).items =
      opening c start isAsked isAsked' ++ (pre ++ ⟨r, false⟩ :: post) := by
    have hhere : t.body.here = some (opening c start isAsked isAsked' ++ pre).length := by
      rw [hhere', List.length_append, Nat.add_comm]
      rfl
    rw [Body.putBack, hhere]
    change t.body.items.modify _ _ = _
    rw [hitems', hentered, ← List.append_assoc, modify_behind, List.append_assoc]
    simp only [withComments_of_head hhead]
  have htrailing : (t.body.putBack r).trailing = t.body.trailing := by
    unfold Body.putBack
    split <;> rfl
  refine ⟨isAsked', r, ?_, hadvances.asked, hrewritten, htrailing.trans htrailing', hput⟩
  have hend := hadvances.holds
  cases isAsked' with
  | true => exact hend
  | false =>
    obtain ⟨hscope, himports, hstatements⟩ : _ ∧ _ ∧ _ := hend
    refine ⟨hscope, himports, ?_⟩
    have hsame : r = n := eq_of_rewritten hrewritten
    rw [← hstatements]
    change (t.body.putBack r).items.map Item.node = t.body.items.map Item.node
    rw [hput, hitems', hentered, hsame]

/-! ## The program -/

theorem nextPending?_spec {b : Body} {pre pending : List Node} {n : Node}
    (h : b.items = pre.map (⟨·, false⟩) ++ (n :: pending).map (⟨·, true⟩)) :
    b.nextPending? = some pre.length := by
  rw [Body.nextPending?, h]
  clear h
  induction pre with
  | nil => rfl
  | cons m pre ih =>
    rw [List.map_cons, List.cons_append, List.findIdx?_cons, ih]
    rfl

theorem nextPending?_none {b : Body} {pre : List Node} (h : b.items = pre.map (⟨·, false⟩)) :
    b.nextPending? = none := by
  rw [Body.nextPending?, h, List.findIdx?_eq_none_iff]
  intro item hitem
  obtain ⟨n, _, rfl⟩ := List.mem_map.mp hitem
  rfl

theorem opening_trans (h : isAsked → isAsked') (h' : isAsked' → isAsked'') :
    opening c start isAsked isAsked'' =
      opening c start isAsked' isAsked'' ++ opening c start isAsked isAsked' := by
  cases isAsked <;> cases isAsked' <;> cases isAsked'' <;> simp_all [opening]

theorem opening_nodes (isAsked isAsked' : Bool) :
    ((opening c start isAsked isAsked').map Item.node).map (⟨·, false⟩) =
      opening c start isAsked isAsked' := by
  unfold opening
  split
  · simp
  · rfl

theorem walkPending_spec {pending : List Node} (hpending : ∀ n ∈ pending, n.isStatement) :
    ∀ (count : Nat) (pre : List Node) (isAsked : Bool) (s s' : Walk Memory) (u : Unit),
      pending.length ≤ count → Holds c start isAsked s →
      s.body.items = pre.map (⟨·, false⟩) ++ pending.map (⟨·, true⟩) →
      Gives (walkPending (visitor c) count) s u s' →
      ∃ (isAsked' : Bool) (after : List Node), (isAsked → isAsked') ∧ Holds c start isAsked' s' ∧
        AllRewritten c (start.name? c isAsked') pending after ∧
        s'.body.trailing = s.body.trailing ∧
        s'.body.items = opening c start isAsked isAsked' ++ (pre ++ after).map (⟨·, false⟩) := by
  induction pending with
  | nil =>
    intro count pre isAsked s s' u _ hholds hitems hgives
    have hitems' : s.body.items = pre.map (⟨·, false⟩) := by
      rw [hitems, List.map_nil, List.append_nil]
    have hstay : s' = s := by
      cases count with
      | zero => exact (gives_pure.mp hgives).2
      | succ count =>
        unfold walkPending at hgives
        obtain ⟨_, t, hget, hmatch⟩ := gives_bind.mp hgives
        obtain ⟨rfl, rfl⟩ := gives_get.mp hget
        simp only [nextPending?_none hitems'] at hmatch
        exact (gives_pure.mp hmatch).2
    subst hstay
    refine ⟨isAsked, [], id, hholds, .nil, rfl, ?_⟩
    rw [hitems', List.append_nil]
    simp [opening]
  | cons n pending ih =>
    intro count pre isAsked s s' u hcount hholds hitems hgives
    obtain ⟨hn, hpending⟩ := List.forall_mem_cons.mp hpending
    cases count with
    | zero => simp at hcount
    | succ count =>
      unfold walkPending at hgives
      obtain ⟨_, t, hget, hmatch⟩ := gives_bind.mp hgives
      obtain ⟨rfl, rfl⟩ := gives_get.mp hget
      simp only [nextPending?_spec hitems] at hmatch
      obtain ⟨_, t', hstatement, hrest⟩ := gives_bind.mp hmatch
      rw [← List.length_map (f := fun n => (⟨n, false⟩ : Item))] at hstatement
      obtain ⟨isAsked', r, hholds', hasked, hrewritten, htrailing, hitems'⟩ :=
        walkStatement_spec hitems hn hholds hstatement
      obtain ⟨isAsked'', after, hasked', hend, hall, htrailing', hitems''⟩ :=
        ih hpending count ((opening c start isAsked isAsked').map Item.node ++ pre ++ [r]) isAsked'
          t' s' u (Nat.le_of_succ_le_succ hcount) hholds'
          (by rw [hitems', List.map_append, List.map_append, opening_nodes]; simp) hrest
      refine ⟨isAsked'', r :: after, hasked' ∘ hasked, hend,
        .cons (hrewritten.advance hasked') hall, htrailing'.trans htrailing, ?_⟩
      rw [hitems'', opening_trans hasked hasked']
      simp only [List.map_append, opening_nodes, List.append_assoc, List.map_cons,
        List.nil_append, List.cons_append]

/-- The statements that the walk puts in front of the program. -/
def Start.front (c : Context) (start : Start) (isAsked : Bool) : List Node :=
  if isAsked then (start.grant c).declaration.toList else []

theorem opening_front (isAsked : Bool) :
    (opening c start false isAsked).map Item.node = start.front c isAsked := by
  cases isAsked with
  | true =>
    change ((start.grant c).declaration.toList.map _).map Item.node = _
    rw [List.map_map]
    exact List.map_id _
  | false => rfl

/-- What the walk of a program gives, and that it remembers the factory if it asked for it. -/
theorem run_spec {head : Head} {trailing : List Text} {body : List Node} {out : Node}
    (hbody : ∀ n ∈ body, n.isStatement) {scope : Scope}
    (h : (run (visitor c) ⟨scope, [], []⟩ (.program head trailing body)).1 = .ok out) :
    ∃ (isAsked : Bool) (after : List Node),
      AllRewritten c ((Start.mk scope body).name? c isAsked) body after ∧
      out = .program head trailing ((Start.mk scope body).front c isAsked ++ after) ∧
      (isAsked →
        (run (visitor c) ⟨scope, [], []⟩ (.program head trailing body)).2.imports ≠ []) := by
  unfold run at h ⊢
  dsimp only at h ⊢
  generalize hs : ({ body := ⟨body.map (⟨·, false⟩), trailing, none⟩, memory := ⟨scope, [], []⟩ } :
    Walk Memory) = s at h ⊢
  rcases hwalk : (walkProgram (visitor c) (.program head trailing body)).run.run s with
    ⟨_ | u, s'⟩
  · rw [hwalk] at h
    cases h
  · rw [hwalk] at h
    cases h
    have hgives : Gives (walkProgram (visitor c) (.program head trailing body)) s u s' := hwalk
    unfold walkProgram at hgives
    obtain ⟨o, t, hvisit, hmark⟩ := gives_bind.mp hgives
    obtain ⟨-, rfl⟩ := visit_statement (c := c) rfl hvisit
    obtain ⟨_, t', hpend, hget⟩ := gives_bind.mp hmark
    obtain rfl := gives_modifyBody.mp hpend
    obtain ⟨_, t'', hstate, hrest⟩ := gives_bind.mp hget
    obtain ⟨rfl, rfl⟩ := gives_get.mp hstate
    subst hs
    have hmarked : (body.map fun n => (⟨n, false⟩ : Item)).map
          (fun item => { item with isPending := true }) =
        body.map (⟨·, true⟩) := by
      rw [List.map_map]
      rfl
    have hstatements : (body.map fun n => (⟨n, true⟩ : Item)).map Item.node = body := by
      rw [List.map_map]
      exact List.map_id body
    have hholds : Holds c ⟨scope, body⟩ false
        ⟨⟨body.map (⟨·, true⟩), trailing, none⟩, ⟨scope, [], []⟩⟩ := ⟨rfl, rfl, hstatements⟩
    simp only [hmarked] at hrest
    obtain ⟨isAsked, after, -, hend, hall, htrailing, hitems⟩ :=
      walkPending_spec hbody _ [] false _ s' u (Nat.le_of_eq (List.length_map _).symm) hholds rfl
        hrest
    have hafter : (after.map fun n => (⟨n, false⟩ : Item)).map Item.node = after := by
      rw [List.map_map]
      exact List.map_id after
    refine ⟨isAsked, after, hall, ?_, ?_⟩
    · rw [htrailing, Body.statements, hitems, List.map_append, opening_front, List.nil_append,
        hafter]
    · rintro rfl himports
      have hlookup : s'.memory.imports.lookup asked = _ := hend
      rw [himports] at hlookup
      cases hlookup

end Sites

end InlineTemplates
