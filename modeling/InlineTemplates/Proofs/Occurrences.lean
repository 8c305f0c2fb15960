import InlineTemplates.Proofs.Consumption
import InlineTemplates.Proofs.Rewriting

/-!
# Where the names of the output come from

Each reference of a walked tree is one of the source, the factory at a site, part of a compiled
template, or part of the code that stands for a refused one.
-/

namespace InlineTemplates

open Scope

/-- Where a reference of a walked tree comes from. -/
inductive Origin where
  | source
  /-- The factory at a site; the site may be part of a compiled template. -/
  | factory (isEmbedded : Bool)
  /-- A compiled template. -/
  | payload
  /-- The code that stands for a refused template. -/
  | stub
deriving DecidableEq

structure Occurrence where
  reference : Reference
  origin : Origin
deriving DecidableEq

namespace Sites

variable (c : Context)

mutual

/-- The references of a walked tree inside `e`, by the tree before the walk. Sites are in the hands
of `factory`. -/
def occurrences (factory : Text) (isEmbedded : Bool) (e : Env) (before : Node) :
    Node → List Occurrence
  | .mk head form slots =>
    match expansion c factory before with
    | some (.call _ _ _ [payload]) => occurrencesOfCall factory isEmbedded e payload slots
    | some _ => ((Node.mk head form slots).references e).map (⟨·, .stub⟩)
    | none =>
      match (Node.mk head form slots).ident? with
      | some ident => [⟨⟨ident, e⟩, if isEmbedded then .payload else .source⟩]
      | none =>
        occurrencesOfSlots factory isEmbedded e (slotScopes (.mk head form slots)) before.slots
          slots
termination_by structural n => n

def occurrencesOfCall (factory : Text) (isEmbedded : Bool) (e : Env) (payload : Node) :
    List (List Node) → List Occurrence
  | [[func], [argument]] =>
    (func.references e).map (⟨·, .factory isEmbedded⟩) ++
      occurrences factory true e payload argument
  | _ => []
termination_by structural slots => slots

def occurrencesOfSlots (factory : Text) (isEmbedded : Bool) (e : Env) :
    List (Option Env) → List (List Node) → List (List Node) → List Occurrence
  | some scope :: scopes, before :: befores, slot :: rest =>
    occurrencesOfList factory isEmbedded (e.enter scope) before slot ++
      occurrencesOfSlots factory isEmbedded e scopes befores rest
  | none :: scopes, _ :: befores, _ :: rest =>
    occurrencesOfSlots factory isEmbedded e scopes befores rest
  | _, _, _ => []
termination_by structural _ _ slots => slots

def occurrencesOfList (factory : Text) (isEmbedded : Bool) (e : Env) :
    List Node → List Node → List Occurrence
  | before :: befores, n :: rest =>
    occurrences factory isEmbedded e before n ++ occurrencesOfList factory isEmbedded e befores rest
  | _, _ => []
termination_by structural _ ns => ns

end

variable {c}

/-! ## Sites -/

theorem content?_isSome_of_expansion {factory : Text} {n compiled : Node}
    (h : expansion c factory n = some compiled) : (content? c n).isSome := by
  unfold expansion at h
  split at h
  · next hcontent => rw [hcontent]; rfl
  · cases h

theorem site_of_content? {n : Node} (h : (content? c n).isSome) :
    (∃ head nameHead ident quasi, n = .tagged head (.name nameHead ident) quasi) ∨
    ∃ head isOptional nameHead ident args,
      n = .call head isOptional (.name nameHead ident) args := by
  unfold content? at h
  split at h
  · exact .inl ⟨_, _, _, _, rfl⟩
  · exact .inr ⟨_, _, _, _, _, rfl⟩
  · cases h

/-- A site becomes a call of the factory with one payload, or of a function that throws. -/
theorem expansion_spec {factory : Text} {n compiled : Node}
    (h : expansion c factory n = some compiled) :
    (∃ payload, compiled = .call .fresh false (.name .fresh factory) [payload]) ∨
    ∃ message, compiled = Compiler.throwing message := by
  unfold expansion at h
  split at h
  · next template options hcontent =>
    unfold Compiler.compile at h
    dsimp only at h
    split at h
    · next payload hpayload =>
      cases hembedded : Compiler.embedded template payload with
      | error e =>
        rw [hembedded] at h
        cases h
      | ok n =>
        rw [hembedded] at h
        cases h
        exact .inl ⟨_, rfl⟩
    · split at h
      · cases h
        exact .inr ⟨_, rfl⟩
      · cases h
  · cases h

/-! ## Declarations -/

theorem forall₂_of_slotsRelated {R S : Node → Node → Prop} (hRS : ∀ a b, R a b → S a b)
    (hS : ∀ n, S n n) {specs : List Slot} {slots slots' : List (List Node)}
    (h : SlotsRelated R specs slots slots') : List.Forall₂ (List.Forall₂ S) slots slots' := by
  induction h with
  | cons h _ ih => exact .cons (h.imp hRS) ih
  | rest => exact List.forall₂_same.mpr fun slot _ => List.forall₂_same.mpr fun n _ => hS n
  | nil => exact .nil

theorem isApplication_of_content? {n : Node} (h : (content? c n).isSome) :
    n.form.isApplication := by
  obtain ⟨_, _, _, _, rfl⟩ | ⟨_, _, _, _, _, rfl⟩ := site_of_content? h <;> rfl

theorem isApplication_of_expansion {factory : Text} {n compiled : Node}
    (h : expansion c factory n = some compiled) : compiled.form.isApplication := by
  obtain ⟨_, rfl⟩ | ⟨_, rfl⟩ := expansion_spec h <;> rfl

theorem eq_of_expansion {α : Type} {name : Text} {n compiled : Node} {slots : List (List Node)}
    {f : Node → α} {x : α} (hf : ∀ n : Node, n.form.isApplication → f n = x)
    (h : expansion c name n = some compiled) :
    f (.mk (placed n compiled).head compiled.form slots) = f n := by
  have hafter : compiled.form.isApplication := isApplication_of_expansion h
  rw [hf n (isApplication_of_content? (content?_isSome_of_expansion h))]
  exact hf _ hafter

theorem alike_of_rewritten {factory : Option Text} {a b : Node} (h : Rewritten c factory a b) :
    Alike Eq a b := by
  induction h using Rewritten.induct with
  | @kept head form slots slots' _ hs =>
    have hslots := forall₂_of_slotsRelated (fun _ _ h => h.2) (alike_refl fun _ => rfl) hs
    by_cases hname : ∃ i, form = .name i ∧ slots = []
    · obtain ⟨i, rfl, rfl⟩ := hname
      cases hslots
      exact .name rfl
    · exact .mk hslots fun i hi hs => hname ⟨i, hi, hs⟩
  | @site n compiled _ _ _ hexpansion =>
    have hafter : compiled.form.isApplication := isApplication_of_expansion hexpansion
    exact .application (isApplication_of_content? (content?_isSome_of_expansion hexpansion)) hafter

theorem ident?_rewritten {factory : Option Text} {a b : Node} (h : Rewritten c factory a b) :
    b.ident? = a.ident? := by
  have hident := ident?_alike (alike_of_rewritten h)
  revert hident
  generalize a.ident? = x
  generalize b.ident? = y
  intro hident
  cases hident with
  | some h => rw [h]
  | none => rfl

theorem moduleNames_rewritten {factory : Option Text} {before after : List Node}
    (h : AllRewritten c factory before after) : moduleNames after = moduleNames before := by
  have hnames := moduleNames_alike (h.imp fun _ _ h => alike_of_rewritten h)
  rw [List.forall₂_eq_eq_eq] at hnames
  exact hnames.symm

/-! ## The references of a walked tree -/

theorem eq_of_listRelated {P : Node → Prop} {ns ns' : List Node}
    (h : List.Forall₂ (fun a b => (∀ m ∈ a.nodes, P m) → b = a) ns ns')
    (hn : ∀ m ∈ Node.nodesOfList ns, P m) : ns' = ns := by
  induction h with
  | nil => rfl
  | cons h _ ih =>
    rw [Node.nodesOfList] at hn
    rw [h fun m hm => hn m (List.mem_append_left _ hm),
      ih fun m hm => hn m (List.mem_append_right _ hm)]

theorem eq_of_slotsRelated_of_nodes {P : Node → Prop} {specs : List Slot}
    {slots slots' : List (List Node)}
    (h : SlotsRelated (fun a b => (∀ m ∈ a.nodes, P m) → b = a) specs slots slots')
    (hn : ∀ m ∈ Node.nodesOfSlots slots, P m) : slots' = slots := by
  induction h with
  | cons h _ ih =>
    rw [Node.nodesOfSlots] at hn
    rw [eq_of_listRelated h fun m hm => hn m (List.mem_append_left _ hm),
      ih fun m hm => hn m (List.mem_append_right _ hm)]
  | rest => rfl
  | nil => rfl

theorem eq_of_rewritten_of_content? {factory : Option Text} {a b : Node}
    (h : Rewritten c factory a b) (hn : ∀ m ∈ a.nodes, content? c m = none) : b = a := by
  induction h using Rewritten.induct with
  | kept _ hs =>
    rw [eq_of_slotsRelated_of_nodes (hs.imp fun _ _ h => h.2)
      fun m hm => hn m (List.mem_cons_of_mem _ hm)]
  | @site n compiled _ _ _ hexpansion =>
    have hsite := content?_isSome_of_expansion hexpansion
    have hself : n ∈ n.nodes := by
      obtain ⟨head, form, slots⟩ := n
      exact List.mem_cons_self
    rw [hn n hself] at hsite
    cases hsite

theorem expansion_of_content? {name : Text} {n : Node} (h : content? c n = none) :
    expansion c name n = none := by
  rw [expansion, h]

theorem slotScopes_length_le (n : Node) : (slotScopes n).length ≤ n.form.slots.length := by
  fun_cases slotScopes n
  all_goals simp [Node.form, Form.slots]

theorem slotScopes_of_slotsRelated {R : Node → Node → Prop} (hR : ∀ a b, R a b → Alike Eq a b)
    {specs : List Slot} {head : Head} {form : Form} {slots slots' : List (List Node)}
    (h : SlotsRelated R specs slots slots') :
    slotScopes (.mk head form slots') = slotScopes (.mk head form slots) :=
  slotScopes_eq (forall₂_of_slotsRelated hR (alike_refl fun _ => rfl) h)

theorem occurrences_kept {name : Text} {isEmbedded : Bool} {e : Env} {before : Node} {head : Head}
    {form : Form} {slots : List (List Node)} (hcontent : content? c before = none)
    (hident : (Node.mk head form slots).ident? = none) :
    occurrences c name isEmbedded e before (.mk head form slots) =
      occurrencesOfSlots c name isEmbedded e (slotScopes (.mk head form slots)) before.slots
        slots := by
  rw [occurrences, expansion_of_content? hcontent]
  simp only [hident]

theorem occurrences_name {name : Text} {isEmbedded : Bool} {e : Env} {before : Node} {head : Head}
    {ident : Text} (hcontent : content? c before = none) :
    occurrences c name isEmbedded e before (.name head ident) =
      [⟨⟨ident, e⟩, if isEmbedded then .payload else .source⟩] := by
  rw [occurrences, expansion_of_content? hcontent]
  rfl

theorem slots_of_call {R : Node → Node → Prop} {func payload : Node} {slots' : List (List Node)}
    (h : SlotsRelated R (Form.call false).slots [[func], [payload]] slots') :
    ∃ func' payload', slots' = [[func'], [payload']] ∧ R func func' ∧ R payload payload' := by
  cases h with
  | cons hfunc h =>
    cases h with
    | cons hargs h =>
      rcases hfunc with _ | ⟨hfunc, _ | _⟩
      rcases hargs with _ | ⟨hargs, _ | _⟩
      cases h <;> exact ⟨_, _, rfl, hfunc, hargs⟩

theorem occurrences_site {name : Text} {isEmbedded : Bool} {e : Env} {before payload : Node}
    {head : Head} {func argument : Node}
    (h : expansion c name before = some (.call .fresh false (.name .fresh name) [payload])) :
    occurrences c name isEmbedded e before (.call head false func [argument]) =
      (func.references e).map (⟨·, .factory isEmbedded⟩) ++
        occurrences c name true e payload argument := by
  rw [occurrences, h]
  rfl

theorem occurrences_stub {name message : Text} {isEmbedded : Bool} {e : Env} {before n : Node}
    (h : expansion c name before = some (Compiler.throwing message)) :
    occurrences c name isEmbedded e before n = (n.references e).map (⟨·, .stub⟩) := by
  obtain ⟨head, form, slots⟩ := n
  rw [occurrences, h]
  rfl

section Partition

variable {name : Text}

def Complete (c : Context) (name : Text) (a b : Node) : Prop :=
  ∀ (isEmbedded : Bool) (e : Env),
    (occurrences c name isEmbedded e a b).map Occurrence.reference = b.references e

theorem complete_list {as bs : List Node} (h : List.Forall₂ (Complete c name) as bs)
    (isEmbedded : Bool) (e : Env) :
    (occurrencesOfList c name isEmbedded e as bs).map Occurrence.reference =
      Node.referencesOfList e bs := by
  induction h with
  | nil => rfl
  | cons h _ ih =>
    rw [occurrencesOfList, Node.referencesOfList, List.map_append, h isEmbedded e, ih]

theorem complete_slots {specs : List Slot} {slots slots' : List (List Node)}
    (h : SlotsRelated (Complete c name) specs slots slots') (isEmbedded : Bool) (e : Env)
    {scopes : List (Option Env)} (hscopes : scopes.length ≤ specs.length) :
    (occurrencesOfSlots c name isEmbedded e scopes slots slots').map Occurrence.reference =
      Node.referencesOfSlots e scopes slots' := by
  induction h generalizing scopes with
  | cons h _ ih =>
    rcases scopes with _ | ⟨_ | scope, scopes⟩
    · rfl
    · exact ih (Nat.le_of_succ_le_succ hscopes)
    · rw [occurrencesOfSlots, Node.referencesOfSlots, List.map_append, complete_list h,
        ih (Nat.le_of_succ_le_succ hscopes)]
  | rest slots =>
    rw [List.eq_nil_of_length_eq_zero (Nat.le_zero.mp hscopes)]
    cases slots <;> rfl
  | nil => rcases scopes with _ | ⟨_ | scope, scopes⟩ <;> rfl

/-- Each reference of a walked tree occurs. -/
theorem complete_of_rewritten {a b : Node} (h : Rewritten c (some name) a b) :
    Complete c name a b := by
  induction h using Rewritten.induct with
  | @kept head form slots slots' hcontent hs =>
    intro isEmbedded e
    cases hident : (Node.mk head form slots').ident? with
    | some ident =>
      obtain ⟨head', hname⟩ := Node.eq_name_of_ident? hident
      rw [hname, occurrences_name hcontent]
      rfl
    | none =>
      rw [occurrences_kept hcontent hident, Node.references_eq_slots hident]
      exact complete_slots (hs.imp fun _ _ h => h.2) isEmbedded e (slotScopes_length_le _)
  | @site n compiled factory slots' hfactory hexpansion hs =>
    intro isEmbedded e
    cases hfactory
    obtain ⟨payload, rfl⟩ | ⟨message, rfl⟩ := expansion_spec hexpansion
    · obtain ⟨func, argument, rfl, _, _, hargument⟩ := slots_of_call hs
      change (occurrences c name isEmbedded e n (.call _ false func [argument])).map _ = _
      rw [occurrences_site hexpansion, List.map_append, hargument true e, List.map_map]
      change (func.references e).map id ++ _ =
        func.references e ++ [] ++ (argument.references e ++ [] ++ [])
      simp only [List.map_id, List.append_nil]
    · rw [occurrences_stub hexpansion, List.map_map]
      exact List.map_id _

end Partition

/-! ## The references of the source -/

def sources (occurrences : List Occurrence) : List Reference :=
  (occurrences.filter (·.origin = .source)).map Occurrence.reference

@[simp] theorem sources_append (xs ys : List Occurrence) :
    sources (xs ++ ys) = sources xs ++ sources ys := by
  rw [sources, List.filter_append, List.map_append]
  rfl

theorem sources_of_origin (origin : Origin) (h : origin ≠ .source) (rs : List Reference) :
    sources (rs.map (⟨·, origin⟩)) = [] := by
  rw [sources, List.filter_eq_nil_iff.mpr, List.map_nil]
  intro o ho
  obtain ⟨r, -, rfl⟩ := List.mem_map.mp ho
  simpa using h

section Sources

variable {name : Text}

/-- Whether the references of the source are among those of `a`, in their order. A compiled template
has none. -/
def FromSource (c : Context) (name : Text) (a b : Node) : Prop :=
  ∀ (isEmbedded : Bool) (e : Env),
    (sources (occurrences c name isEmbedded e a b)).Sublist
      (if isEmbedded then [] else a.references e)

theorem fromSource_list {as bs : List Node} (h : List.Forall₂ (FromSource c name) as bs)
    (isEmbedded : Bool) (e : Env) :
    (sources (occurrencesOfList c name isEmbedded e as bs)).Sublist
      (if isEmbedded then [] else Node.referencesOfList e as) := by
  induction h with
  | nil => exact List.nil_sublist _
  | cons h _ ih =>
    have hfirst := h isEmbedded e
    rw [occurrencesOfList, sources_append]
    cases isEmbedded with
    | true => exact hfirst.append ih
    | false => exact hfirst.append ih

theorem fromSource_slots {specs : List Slot} {slots slots' : List (List Node)}
    (h : SlotsRelated (FromSource c name) specs slots slots') (isEmbedded : Bool) (e : Env)
    {scopes : List (Option Env)} (hscopes : scopes.length ≤ specs.length) :
    (sources (occurrencesOfSlots c name isEmbedded e scopes slots slots')).Sublist
      (if isEmbedded then [] else Node.referencesOfSlots e scopes slots) := by
  induction h generalizing scopes with
  | cons h _ ih =>
    rcases scopes with _ | ⟨_ | scope, scopes⟩
    · exact List.nil_sublist _
    · exact ih (Nat.le_of_succ_le_succ hscopes)
    · have hfirst := fromSource_list h isEmbedded (e.enter scope)
      have hrest := ih (Nat.le_of_succ_le_succ hscopes)
      rw [occurrencesOfSlots, sources_append]
      cases isEmbedded with
      | true => exact hfirst.append hrest
      | false => exact hfirst.append hrest
  | rest slots =>
    rw [List.eq_nil_of_length_eq_zero (Nat.le_zero.mp hscopes)]
    cases slots <;> exact List.nil_sublist _
  | nil => rcases scopes with _ | ⟨_ | scope, scopes⟩ <;> exact List.nil_sublist _

/-- The references of the source stay in their order. -/
theorem fromSource_of_rewritten {a b : Node} (h : Rewritten c (some name) a b) :
    FromSource c name a b := by
  induction h using Rewritten.induct with
  | @kept head form slots slots' hcontent hs h =>
    intro isEmbedded e
    cases hident : (Node.mk head form slots').ident? with
    | some ident =>
      obtain ⟨head', hname⟩ := Node.eq_name_of_ident? hident
      obtain ⟨head'', hbefore⟩ := Node.eq_name_of_ident? ((ident?_rewritten h).symm.trans hident)
      rw [hname, occurrences_name hcontent, hbefore]
      cases isEmbedded with
      | true => exact List.nil_sublist _
      | false => exact List.Sublist.refl _
    | none =>
      have hscopes : slotScopes (.mk head form slots') = slotScopes (.mk head form slots) :=
        slotScopes_of_slotsRelated (fun _ _ h => alike_of_rewritten h.1) hs
      rw [occurrences_kept hcontent hident, hscopes,
        Node.references_eq_slots ((ident?_rewritten h).symm.trans hident)]
      exact fromSource_slots (hs.imp fun _ _ h => h.2) isEmbedded e (slotScopes_length_le _)
  | @site n compiled factory slots' hfactory hexpansion hs =>
    intro isEmbedded e
    cases hfactory
    obtain ⟨payload, rfl⟩ | ⟨message, rfl⟩ := expansion_spec hexpansion
    · obtain ⟨func, argument, rfl, _, _, hargument⟩ := slots_of_call hs
      have hpayload : sources (occurrences c name true e payload argument) = [] :=
        List.sublist_nil.mp (hargument true e)
      change (sources (occurrences c name isEmbedded e n (.call _ false func [argument]))).Sublist _
      rw [occurrences_site hexpansion, sources_append, hpayload, sources_of_origin _ (by simp)]
      exact List.nil_sublist _
    · rw [occurrences_stub hexpansion, sources_of_origin _ (by simp)]
      exact List.nil_sublist _

end Sources

/-! ## The references of the sites -/

section Placed

variable {name : Text} {factory : Option Text}

/-- What is known of a reference that is not one of the source, by the references `before` of the
tree before the walk. -/
def IsPlaced (factory : Option Text) (isEmbedded : Bool) (before : List Reference)
    (o : Occurrence) : Prop :=
  match o.origin with
  | .factory inner =>
    factory = some o.reference.name ∧
      (inner = false → isEmbedded = false ∧ ∃ q ∈ before, q.env = o.reference.env)
  | .stub => o.reference.name = "Error"
  | _ => True

theorem IsPlaced.mono {isEmbedded : Bool} {before before' : List Reference}
    {o : Occurrence} (h : IsPlaced factory isEmbedded before o) (hbefore : before ⊆ before') :
    IsPlaced factory isEmbedded before' o := by
  unfold IsPlaced at h ⊢
  split at h
  · exact ⟨h.1, fun hinner =>
      ⟨(h.2 hinner).1, (h.2 hinner).2.imp fun q hq => ⟨hbefore hq.1, hq.2⟩⟩⟩
  · exact h
  · trivial

def AllPlaced (c : Context) (name : Text) (factory : Option Text) (a b : Node) : Prop :=
  ∀ (isEmbedded : Bool) (e : Env), ∀ o ∈ occurrences c name isEmbedded e a b,
    IsPlaced factory isEmbedded (a.references e) o

theorem allPlaced_list {as bs : List Node} (h : List.Forall₂ (AllPlaced c name factory) as bs)
    (isEmbedded : Bool) (e : Env) :
    ∀ o ∈ occurrencesOfList c name isEmbedded e as bs,
      IsPlaced factory isEmbedded (Node.referencesOfList e as) o := by
  induction h with
  | nil => exact fun _ h => absurd h List.not_mem_nil
  | cons h _ ih =>
    intro o ho
    rw [occurrencesOfList, List.mem_append] at ho
    rcases ho with ho | ho
    · exact (h isEmbedded e o ho).mono (List.subset_append_left _ _)
    · exact (ih o ho).mono (List.subset_append_right _ _)

theorem allPlaced_slots {specs : List Slot} {slots slots' : List (List Node)}
    (h : SlotsRelated (AllPlaced c name factory) specs slots slots') (isEmbedded : Bool) (e : Env)
    {scopes : List (Option Env)} (hscopes : scopes.length ≤ specs.length) :
    ∀ o ∈ occurrencesOfSlots c name isEmbedded e scopes slots slots',
      IsPlaced factory isEmbedded (Node.referencesOfSlots e scopes slots) o := by
  induction h generalizing scopes with
  | cons h _ ih =>
    intro o ho
    rcases scopes with _ | ⟨_ | scope, scopes⟩
    · exact absurd ho List.not_mem_nil
    · exact ih (Nat.le_of_succ_le_succ hscopes) o ho
    · rw [occurrencesOfSlots, List.mem_append] at ho
      rcases ho with ho | ho
      · exact (allPlaced_list h isEmbedded _ o ho).mono (List.subset_append_left _ _)
      · exact (ih (Nat.le_of_succ_le_succ hscopes) o ho).mono (List.subset_append_right _ _)
  | rest slots =>
    rw [List.eq_nil_of_length_eq_zero (Nat.le_zero.mp hscopes)]
    cases slots <;> exact fun _ h => absurd h List.not_mem_nil
  | nil => rcases scopes with _ | ⟨_ | scope, scopes⟩ <;> exact fun _ h => absurd h List.not_mem_nil

theorem content?_throwing (message : Text) : ∀ m ∈ (Compiler.throwing message).nodes,
    content? c m = none := by
  intro m hm
  simp only [Compiler.throwing, Node.nodes, Node.nodesOfSlots, Node.nodesOfList, List.mem_cons,
    List.mem_append, List.not_mem_nil, or_false, false_or, List.append_nil] at hm
  rcases hm with rfl | rfl | rfl | rfl | rfl | rfl | rfl <;> rfl

theorem mentioned_throwing {head : Head} {message x : Text}
    (h : Mentioned
      (.mk head (Compiler.throwing message).form (Compiler.throwing message).slots) x) :
    x = "Error" := by
  obtain ⟨m, hm, hx⟩ := h
  rcases List.mem_cons.mp hm with rfl | hm
  · cases hx
  · simp only [Compiler.throwing, Node.slots, Node.nodes, Node.nodesOfSlots, Node.nodesOfList,
      List.mem_cons, List.mem_append, List.not_mem_nil, or_false, false_or, List.append_nil] at hm
    rcases hm with rfl | rfl | rfl | rfl | rfl | rfl <;> cases hx
    rfl

theorem site_reference {n : Node} (h : (content? c n).isSome) (e : Env) :
    ∃ q ∈ n.references e, q.env = e := by
  obtain ⟨_, _, ident, _, rfl⟩ | ⟨_, _, _, ident, _, rfl⟩ := site_of_content? h <;>
    exact ⟨⟨ident, e⟩, List.mem_cons_self, rfl⟩

/-- All references that are not of the source are those of a site. -/
theorem allPlaced_of_rewritten (hname : ∀ x ∈ factory, x = name) {a b : Node}
    (h : Rewritten c factory a b) : AllPlaced c name factory a b := by
  induction h using Rewritten.induct with
  | @kept head form slots slots' hcontent hs h =>
    intro isEmbedded e o ho
    cases hident : (Node.mk head form slots').ident? with
    | some ident =>
      obtain ⟨head', hafter⟩ := Node.eq_name_of_ident? hident
      rw [hafter, occurrences_name hcontent, List.mem_singleton] at ho
      subst ho
      cases isEmbedded <;> trivial
    | none =>
      have hscopes : slotScopes (.mk head form slots') = slotScopes (.mk head form slots) :=
        slotScopes_of_slotsRelated (fun _ _ h => alike_of_rewritten h.1) hs
      rw [occurrences_kept hcontent hident, hscopes] at ho
      rw [Node.references_eq_slots ((ident?_rewritten h).symm.trans hident)]
      exact allPlaced_slots (hs.imp fun _ _ h => h.2) isEmbedded e (slotScopes_length_le _) o ho
  | @site n compiled name' slots' hfactory hexpansion hs =>
    intro isEmbedded e o ho
    obtain rfl : name = name' := (hname name' hfactory).symm
    obtain ⟨payload, rfl⟩ | ⟨message, rfl⟩ := expansion_spec hexpansion
    · obtain ⟨func, argument, rfl, ⟨hfunc, _⟩, _, hargument⟩ := slots_of_call hs
      obtain ⟨_, rfl⟩ := Node.eq_name_of_ident? ((ident?_rewritten hfunc).trans rfl)
      change o ∈ occurrences c name isEmbedded e n (.call _ false _ [argument]) at ho
      rw [occurrences_site hexpansion, List.mem_append] at ho
      rcases ho with ho | ho
      · -- the factory at the site itself
        obtain rfl := List.mem_singleton.mp ho
        refine ⟨hfactory, fun hinner => ⟨hinner, ?_⟩⟩
        exact site_reference (content?_isSome_of_expansion hexpansion) e
      · -- what is in the compiled template has no part in the source
        have h := hargument true e o ho
        unfold IsPlaced at h ⊢
        split at h
        · exact ⟨h.1, fun hinner => absurd (h.2 hinner).1 nofun⟩
        · exact h
        · trivial
    · rw [occurrences_stub hexpansion] at ho
      have hslots : slots' = (Compiler.throwing message).slots :=
        eq_of_slotsRelated_of_nodes (hs.imp fun _ _ h => eq_of_rewritten_of_content? h.1)
          fun m hm => content?_throwing message m (List.mem_cons_of_mem _ hm)
      obtain ⟨r, hr, rfl⟩ := List.mem_map.mp ho
      subst hslots
      exact mentioned_throwing (reference_mentioned (Mentioned _) _ e (fun _ h => h) r hr).1

end Placed

end Sites

end InlineTemplates
