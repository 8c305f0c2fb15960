import InlineTemplates.Proofs.Requests
import InlineTemplates.Proofs.Sites

/-!
# The order of the compilations

The walk compiles the sites of a program one after another, as they stand in the source, and stops
at the first that fails. What the compiler gives holds no sites, so the walk below it does nothing.
-/

namespace InlineTemplates

open Traversal

namespace Sites

variable {c : Context}

/-! ## Attempts -/

/-- What is tried at some sites: what is handed to the compiler, and the failure that stops the
pass. -/
structure Attempt where
  requests : List Compilation
  failure : Option Error

namespace Attempt

def nothing : Attempt := ⟨[], none⟩

/-- Goes on unless there was a failure. -/
def andThen (a b : Attempt) : Attempt :=
  match a.failure with
  | some _ => a
  | none => ⟨a.requests ++ b.requests, b.failure⟩

theorem andThen_nothing (a : Attempt) : a.andThen nothing = a := by
  obtain ⟨requests, _ | e⟩ := a
  · simp [andThen, nothing]
  · rfl

theorem andThen_assoc (a b d : Attempt) : (a.andThen b).andThen d = a.andThen (b.andThen d) := by
  obtain ⟨requests, _ | e⟩ := a
  · obtain ⟨requests', _ | e'⟩ := b
    · simp [andThen]
    · rfl
  · rfl

end Attempt

variable (c) in
/-- What is tried at sites one after another. -/
def attempt : List Node → Attempt
  | [] => .nothing
  | n :: rest => .andThen ⟨(request? c n).toList, offence? c n⟩ (attempt rest)

theorem attempt_append (xs ys : List Node) :
    attempt c (xs ++ ys) = (attempt c xs).andThen (attempt c ys) := by
  induction xs with
  | nil => rfl
  | cons n rest ih => rw [List.cons_append, attempt, attempt, ih, Attempt.andThen_assoc]

mutual

theorem isSite_of_mem (registry : Registry) :
    ∀ n : Node, ∀ m ∈ sites registry n, isSite registry m
  | .mk head form slots, m, hm => by
    rw [sites] at hm
    split at hm
    · next hsite => rwa [List.mem_singleton.mp hm]
    · exact isSite_of_mem_slots registry slots form.slots m hm

theorem isSite_of_mem_slots (registry : Registry) :
    ∀ (slots : List (List Node)) (specs : List Slot),
      ∀ m ∈ sitesOfSlots registry specs slots, isSite registry m
  | nodes :: slots, spec :: specs, m, hm => by
    rcases List.mem_append.mp hm with hm | hm
    · exact isSite_of_mem_list registry nodes m hm
    · exact isSite_of_mem_slots registry slots specs m hm
  | slots, [], m, hm => by
    rw [sitesOfSlots] at hm
    · cases hm
    · nofun
  | [], spec :: specs, m, hm => by
    rw [sitesOfSlots] at hm
    · cases hm
    · nofun

theorem isSite_of_mem_list (registry : Registry) :
    ∀ ns : List Node, ∀ m ∈ sitesOfList registry ns, isSite registry m
  | [], _, hm => absurd hm List.not_mem_nil
  | n :: rest, m, hm => by
    rcases List.mem_append.mp hm with hm | hm
    · exact isSite_of_mem registry n m hm
    · exact isSite_of_mem_list registry rest m hm

end

variable (c) in
/-- A site that stops the pass, by the calls of the compiler that it makes. -/
inductive Stops (n : Node) (e : Error) : List Compilation → Prop where
  /-- It is no template. -/
  | misused : content? c n = some (.error e) → Stops n e []
  /-- The compiler refuses it, or gives no expression. -/
  | refused {r : Compilation} : IsRequest c n r → refusal? c n r = some e → Stops n e [r]

theorem exists_request {n : Node} (hsite : isSite c.registry n) (h : offence? c n = none) :
    ∃ r, request? c n = some r ∧ refusal? c n r = none := by
  rw [← isSome_content?, Option.isSome_iff_exists] at hsite
  obtain ⟨content, hcontent⟩ := hsite
  unfold offence? at h
  rw [hcontent] at h
  rcases content with e | ⟨template, options⟩
  · cases h
  · have hrequest : request? c n = some ⟨template, Compiler.optionsFor template options⟩ := by
      rw [request?, hcontent]
    rw [hrequest] at h
    exact ⟨_, hrequest, h⟩

theorem stops_of_offence? {n : Node} {e : Error} (h : offence? c n = some e) :
    Stops c n e (request? c n).toList := by
  unfold offence? at h
  split at h
  · next e' hcontent =>
    cases h
    rw [request?, hcontent]
    exact .misused hcontent
  · obtain ⟨r, hrequest, hrefusal⟩ := Option.bind_eq_some_iff.mp h
    rw [hrequest]
    exact .refused (isRequest_of_request? hrequest) hrefusal

theorem attempt_done {ns : List Node} (hsites : ∀ n ∈ ns, isSite c.registry n)
    (h : (attempt c ns).failure = none) :
    (∀ n ∈ ns, offence? c n = none) ∧
      List.Forall₂ (fun n r => request? c n = some r) ns (attempt c ns).requests := by
  induction ns with
  | nil => exact ⟨fun _ hm => absurd hm List.not_mem_nil, .nil⟩
  | cons n rest ih =>
    obtain ⟨hsite, hsites⟩ := List.forall_mem_cons.mp hsites
    rw [attempt, Attempt.andThen] at h ⊢
    cases hoffence : offence? c n with
    | some e => simp [hoffence] at h
    | none =>
      simp only [hoffence] at h ⊢
      obtain ⟨hrest, hrequests⟩ := ih hsites h
      obtain ⟨r, hrequest, -⟩ := exists_request hsite hoffence
      rw [hrequest]
      exact ⟨List.forall_mem_cons.mpr ⟨hoffence, hrest⟩, .cons hrequest hrequests⟩

theorem attempt_of_offence? {ns : List Node} (h : ∀ n ∈ ns, offence? c n = none) :
    (attempt c ns).failure = none := by
  induction ns with
  | nil => rfl
  | cons n rest ih =>
    obtain ⟨hn, hrest⟩ := List.forall_mem_cons.mp h
    rw [attempt, Attempt.andThen]
    simp only [hn]
    exact ih hrest

/-- A failure is that of the first site that stops the pass. Those in front of it made their
requests. -/
theorem attempt_stopped {ns : List Node} {e : Error} (hsites : ∀ n ∈ ns, isSite c.registry n)
    (h : (attempt c ns).failure = some e) :
    ∃ front n rest calls last, ns = front ++ n :: rest ∧ (∀ m ∈ front, offence? c m = none) ∧
      List.Forall₂ (fun n r => request? c n = some r) front calls ∧
      offence? c n = some e ∧ Stops c n e last ∧ (attempt c ns).requests = calls ++ last := by
  induction ns with
  | nil => cases h
  | cons n rest ih =>
    obtain ⟨hsite, hsites⟩ := List.forall_mem_cons.mp hsites
    rw [attempt, Attempt.andThen] at h ⊢
    cases hoffence : offence? c n with
    | some e' =>
      simp only [hoffence] at h ⊢
      cases h
      exact ⟨[], n, rest, [], _, rfl, fun _ hm => absurd hm List.not_mem_nil, .nil, hoffence,
        stops_of_offence? hoffence, rfl⟩
    | none =>
      simp only [hoffence] at h ⊢
      obtain ⟨r, hrequest, -⟩ := exists_request hsite hoffence
      obtain ⟨front, n', rest', calls, last, rfl, hfront, hcalls, hn', hstops, hrequests⟩ :=
        ih hsites h
      refine ⟨n :: front, n', rest', r :: calls, last, rfl,
        List.forall_mem_cons.mpr ⟨hoffence, hfront⟩, .cons hrequest hcalls, hn', hstops, ?_⟩
      rw [hrequest, hrequests]
      rfl

/-! ## Steps of a walk -/

section Steps

variable {α β : Type} {s t : Walk Memory}

/-- Whether a computation that starts at `s` tries what `a` says, and fails where `a` does. -/
structure Tries (m : WalkM Memory α) (s : Walk Memory) (a : Attempt) : Prop where
  compilations : (m.run.run s).2.memory.compilations =
    a.requests.reverse ++ s.memory.compilations
  failure : failure? (m.run.run s).1 = a.failure
  /-- Without a request the factory is not asked for. -/
  imports : a.requests = [] → (m.run.run s).2.memory.imports = s.memory.imports

theorem tries_of_gives {m : WalkM Memory α} {x : α} (h : Gives m s x t)
    (hsame : t.memory = s.memory) : Tries m s .nothing := by
  have hrun : m.run.run s = (.ok x, t) := h
  refine ⟨?_, ?_, fun _ => ?_⟩
  · rw [hrun]
    exact congrArg Memory.compilations hsame
  · rw [hrun]
    rfl
  · rw [hrun]
    exact congrArg Memory.imports hsame

theorem tries_pure (x : α) : Tries (pure x) s .nothing :=
  tries_of_gives (gives_pure.mpr ⟨rfl, rfl⟩) rfl

theorem Tries.bind {m : WalkM Memory α} {f : α → WalkM Memory β} {a b : Attempt}
    (h : Tries m s a) (hf : ∀ x t, Gives m s x t → Tries (f x) t b) :
    Tries (m >>= f) s (a.andThen b) := by
  obtain ⟨hcompilations, hfailure, himports⟩ := h
  have hrun : (m >>= f).run.run s = match m.run.run s with
      | (.ok x, t) => (f x).run.run t
      | (.error e, t) => (.error e, t) := by
    rw [ExceptT.run_bind, StateT.run_bind]
    rcases m.run.run s with ⟨_ | x, t⟩ <;> rfl
  rcases hm : m.run.run s with ⟨e | x, t⟩
  · -- `f` is not run, and `b` is not tried
    rw [hm] at hcompilations hfailure himports hrun
    have ha : a.andThen b = a := by rw [Attempt.andThen, ← hfailure]; rfl
    rw [ha]
    exact ⟨by rw [hrun]; exact hcompilations, by rw [hrun]; exact hfailure,
      by rw [hrun]; exact himports⟩
  · obtain ⟨hcompilations', hfailure', himports'⟩ := hf x t hm
    rw [hm] at hcompilations hfailure himports hrun
    have ha : a.andThen b = ⟨a.requests ++ b.requests, b.failure⟩ := by
      rw [Attempt.andThen, ← hfailure]; rfl
    rw [ha]
    refine ⟨?_, by rw [hrun]; exact hfailure', fun hnone => ?_⟩
    · rw [hrun, hcompilations', hcompilations, List.reverse_append, List.append_assoc]
    · obtain ⟨ha, hb⟩ := List.append_eq_nil_iff.mp hnone
      rw [hrun]
      exact (himports' hb).trans (himports ha)

theorem Tries.bindNothing {m : WalkM Memory α} {f : α → WalkM Memory β} {a : Attempt}
    (h : Tries m s a) (hf : ∀ x t, Gives m s x t → Tries (f x) t .nothing) :
    Tries (m >>= f) s a := by
  rw [← a.andThen_nothing]
  exact h.bind hf

end Steps

/-! ## Trees without sites -/

section Plain

variable {s s' : Walk Memory} {below : Node → WalkM Memory Node}

theorem visit_plain {n : Node} (h : content? c n = none)
    (edit : Outcome → Edit → WalkM Memory Outcome) (position : Option Node.Position) :
    Gives (visit (visitor c) edit n position) s ⟨n, false, false⟩ s := by
  refine gives_bind.mpr ⟨[], s, gives_ask.mpr ⟨s.memory, ?_, rfl⟩, gives_pure.mpr ⟨rfl, rfl⟩⟩
  rw [visitor_run]
  simp only [h]

theorem plain_of_sites {head : Head} {form : Form} {slots : List (List Node)}
    (h : sites c.registry (.mk head form slots) = []) :
    content? c (.mk head form slots) = none ∧ sitesOfSlots c.registry form.slots slots = [] := by
  rw [sites] at h
  split at h
  · cases h
  · next hsite => exact ⟨content?_eq_none_iff.mpr (Bool.eq_false_iff.mpr hsite), h⟩

mutual

theorem walkNode_plain (position : Node.Position) : ∀ (n : Node) (s : Walk Memory),
    sites c.registry n = [] → Gives (walkNode (visitor c) below position [] n) s (.node n) s
  | .mk head form slots, s, h => by
    obtain ⟨hcontent, hslots⟩ := plain_of_sites h
    rw [walkNode]
    refine gives_bind.mpr ⟨_, s, visit_plain hcontent _ _, ?_⟩
    refine gives_bind.mpr ⟨(slots, []), s, walkSlots_plain slots form.slots s hslots, ?_⟩
    dsimp only
    rw [mapTrailing_nil]
    exact gives_pure.mpr ⟨rfl, rfl⟩

theorem walkSlots_plain : ∀ (slots : List (List Node)) (specs : List Slot) (s : Walk Memory),
    sitesOfSlots c.registry specs slots = [] →
    Gives (walkSlots (visitor c) below specs slots) s (slots, []) s
  | nodes :: slots, spec :: specs, s, h => by
    obtain ⟨hnodes, hslots⟩ := List.append_eq_nil_iff.mp h
    rw [walkSlots]
    refine gives_bind.mpr ⟨(nodes, []), s, walkList_plain spec nodes 0 s hnodes, ?_⟩
    refine gives_bind.mpr ⟨(slots, []), s, walkSlots_plain slots specs s hslots, ?_⟩
    exact gives_pure.mpr ⟨rfl, rfl⟩
  | slots, [], s, _ => by
    rw [walkSlots]
    · exact gives_pure.mpr ⟨rfl, rfl⟩
    · nofun
  | [], spec :: specs, s, _ => by
    rw [walkSlots]
    · exact gives_pure.mpr ⟨rfl, rfl⟩
    · nofun

theorem walkList_plain (spec : Slot) : ∀ (ns : List Node) (index : Nat) (s : Walk Memory),
    sitesOfList c.registry ns = [] →
    Gives (walkList (visitor c) below spec index [] ns) s (ns, []) s
  | [], index, s, _ => by
    rw [walkList]
    exact gives_pure.mpr ⟨rfl, rfl⟩
  | n :: rest, index, s, h => by
    obtain ⟨hn, hrest⟩ := List.append_eq_nil_iff.mp h
    rw [walkList]
    refine gives_bind.mpr ⟨.node n, s, walkNode_plain _ n s hn, ?_⟩
    refine gives_bind.mpr ⟨(rest, []), s, walkList_plain spec rest (index + 1) s hrest, ?_⟩
    exact gives_pure.mpr ⟨rfl, rfl⟩

end

/-- Whether a walk below a node changes nothing where there are no sites. -/
def StaysPlain (c : Context) (below : Node → WalkM Memory Node) : Prop :=
  ∀ (n : Node) (s : Walk Memory), sitesOfSlots c.registry n.form.slots n.slots = [] →
    Gives (below n) s n s

theorem walkBelow_plain : StaysPlain c (walkBelow (visitor c) below) := by
  intro n s h
  obtain ⟨head, form, slots⟩ := n
  refine gives_bind.mpr ⟨(slots, []), s, walkSlots_plain slots form.slots s h, ?_⟩
  dsimp only
  rw [mapTrailing_nil]
  exact gives_pure.mpr ⟨rfl, rfl⟩

theorem walkBelowNew_plain (depth : Nat) : StaysPlain c (walkBelowNew (visitor c) (depth + 1)) :=
  walkBelow_plain

end Plain

/-! ## Replacements -/

variable (c) in
/-- Whether no expression that the compiler gives holds a site. -/
def IsOpaque : Prop := ∀ template options payload e,
  c.compiler template options = .ok payload →
  Node.readExpression payload (some Compiler.outputName) = .ok e → sites c.registry e = []

theorem isSite_withHead (registry : Registry) (n : Node) (head : Head) :
    isSite registry (n.withHead head) = isSite registry n := by
  obtain ⟨head', form, slots⟩ := n
  change isSite registry (.mk head form slots) = _
  unfold isSite
  split
  · next heq => cases heq; rfl
  · next heq => cases heq; rfl
  · next htag hcall =>
    split
    · next heq => cases heq; exact absurd rfl (htag _ _ _)
    · next heq => cases heq; exact absurd rfl (hcall _ _ _ _)
    · rfl

theorem sites_withHead {registry : Registry} {n : Node} (h : sites registry n = []) (head : Head) :
    sites registry (n.withHead head) = [] := by
  have hsite := isSite_withHead registry n head
  obtain ⟨_, form, slots⟩ := n
  rw [sites] at h
  split at h
  · cases h
  · next hnot =>
    change isSite registry (.mk head form slots) = _ at hsite
    change sites registry (.mk head form slots) = []
    rw [sites, hsite, if_neg hnot, h]

theorem isCompiled_of_expansion {factory : Text} {n compiled : Node}
    (h : expansion c factory n = some compiled) :
    ∃ r, request? c n = some r ∧ IsCompiled c factory r compiled := by
  unfold expansion at h
  split at h
  · next template options hcontent =>
    refine ⟨⟨template, Compiler.optionsFor template options⟩, by rw [request?, hcontent], ?_⟩
    cases hcompile : Compiler.compile c.compiler template (.name .fresh factory) options n
        c.origin with
    | error e =>
      rw [hcompile] at h
      cases h
    | ok compiled =>
      rw [hcompile] at h
      cases h
      exact isCompiled_of_compile hcompile
  · cases h

/-- What stands in the place of a site holds no other site. -/
theorem sites_of_isCompiled (hinert : IsOpaque c) {factory : Text} {r : Compilation}
    {compiled : Node} (h : IsCompiled c factory r compiled) :
    sitesOfSlots c.registry compiled.form.slots compiled.slots = [] := by
  cases h with
  | @call payload e hpayload hread =>
    have hplain : sites c.registry (e.appendComments [Compiler.templateComment r.template]) = [] :=
      sites_withHead (hinert _ _ _ _ hpayload hread) _
    change ([] ++ []) ++ ((sites c.registry _ ++ []) ++ []) = []
    rw [hplain]
    rfl
  | stub => rfl

/-! ## The walk -/

section Walk

variable {s s' : Walk Memory} {below : Node → WalkM Memory Node}

theorem request?_of_content? {n : Node} (h : content? c n = none) : request? c n = none := by
  rw [request?, h]

theorem offence?_of_content? {n : Node} (h : content? c n = none) : offence? c n = none := by
  rw [offence?, h, request?_of_content? h]
  rfl

theorem ask_tries (n : Node) (position : Option Node.Position) :
    Tries (ask (visitor c) n position) s ⟨(request? c n).toList, offence? c n⟩ := by
  have hrun : (ask (visitor c) n position).run.run s =
      ((visitor c ⟨n, position, s.body⟩).run.run s.memory).map id fun memory => { s with memory } :=
    rfl
  rw [visitor_run] at hrun
  cases hcontent : content? c n with
  | none =>
    rw [request?_of_content? hcontent, offence?_of_content? hcontent]
    simp only [hcontent] at hrun
    exact tries_of_gives hrun rfl
  | some content =>
    simp only [hcontent] at hrun
    unfold offence? request?
    rw [hcontent]
    rcases content with e | ⟨template, options⟩
    · exact ⟨by rw [hrun]; rfl, by rw [hrun]; rfl, fun _ => by rw [hrun]; rfl⟩
    · dsimp only [Option.bind_some]
      rw [← failure?_compile n template
        (.name .fresh (factory c s.memory s.body.statements).imported.name) options]
      dsimp only at hrun
      split at hrun
      · next hcompile => exact ⟨by rw [hrun]; rfl, by rw [hrun, hcompile]; rfl, nofun⟩
      · next hcompile => exact ⟨by rw [hrun]; rfl, by rw [hrun, hcompile]; rfl, nofun⟩

theorem editInner_tries (edits : List Edit) (o : Outcome) :
    Tries (edits.foldlM editInner o) s .nothing := by
  induction edits generalizing o s with
  | nil => exact tries_pure o
  | cons edit rest ih =>
    rw [List.foldlM_cons]
    refine Tries.bind (a := .nothing) ?_ fun o' t _ => ih o'
    cases edit <;> exact tries_of_gives rfl rfl

theorem visit_tries (n : Node) (position : Option Node.Position) :
    Tries (visit (visitor c) editInner n position) s ⟨(request? c n).toList, offence? c n⟩ :=
  (ask_tries n position).bindNothing fun edits _ _ => editInner_tries edits ⟨n, false, false⟩

theorem visit_site {n : Node} {position : Option Node.Position} {o : Outcome}
    (hinert : IsOpaque c) (hsite : isSite c.registry n)
    (hgives : Gives (visit (visitor c) editInner n position) s o s') :
    o.isRemoved = false ∧ o.isNew = true ∧
      sitesOfSlots c.registry o.node.form.slots o.node.slots = [] := by
  obtain ⟨edits, t, hask, hedits⟩ := gives_bind.mp hgives
  obtain ⟨memory, hrun, rfl⟩ := gives_ask.mp hask
  rw [visitor_run] at hrun
  split at hrun
  · next hcontent =>
    rw [content?_eq_none_iff.mp hcontent] at hsite
    cases hsite
  · cases hrun
  · dsimp only at hrun
    split at hrun
    · cases hrun
    · next compiled hcompiled =>
      cases hrun
      obtain ⟨rfl, -⟩ := editInner_site hedits
      have hplain := sites_of_isCompiled hinert (isCompiled_of_compile hcompiled)
      exact ⟨rfl, rfl, hplain⟩

theorem walkNode_keeps (hinert : IsOpaque c) {position : Node.Position} {n : Node} {left : Left}
    (h : Gives (walkNode (visitor c) below position [] n) s left s') : ∃ n', left = .node n' := by
  obtain ⟨head, form, slots⟩ := n
  rw [walkNode] at h
  obtain ⟨o, t, hvisit, h⟩ := gives_bind.mp h
  have hkept : o.isRemoved = false := by
    by_cases hsite : isSite c.registry (.mk head form slots)
    · exact (visit_site hinert hsite hvisit).1
    · have hcontent := content?_eq_none_iff.mpr (Bool.eq_false_iff.mpr hsite)
      obtain ⟨rfl, -⟩ := visit_statement hcontent hvisit
      rfl
  rw [if_neg (Bool.eq_false_iff.mp hkept)] at h
  split at h
  · obtain ⟨r, t', -, hreturn⟩ := gives_bind.mp h
    exact ⟨_, (gives_pure.mp hreturn).1⟩
  · obtain ⟨⟨slots', spilled⟩, t', -, hreturn⟩ := gives_bind.mp h
    exact ⟨_, (gives_pure.mp hreturn).1⟩

mutual

/-- The walk of a tree tries its sites. -/
theorem walkNode_tries (hinert : IsOpaque c) (hbelow : StaysPlain c below)
    (position : Node.Position) : ∀ (n : Node) (s : Walk Memory),
      Tries (walkNode (visitor c) below position [] n) s (attempt c (sites c.registry n))
  | .mk head form slots, s => by
    rw [walkNode, sites]
    by_cases hsite : isSite c.registry (.mk head form slots)
    · rw [if_pos hsite]
      refine (visit_tries (.mk head form slots) _).bind fun o t ho => ?_
      -- below a replacement there is no other, so the walk needs no more depth than one
      obtain ⟨hremoved, hnew, hplain⟩ := visit_site hinert hsite ho
      rw [if_neg (Bool.eq_false_iff.mp hremoved), if_pos hnew]
      exact (tries_of_gives (hbelow _ t hplain) rfl).bindNothing fun _ _ _ => tries_pure _
    · have hcontent := content?_eq_none_iff.mpr (Bool.eq_false_iff.mpr hsite)
      rw [if_neg hsite]
      refine (tries_of_gives (visit_plain hcontent _ _) rfl).bind fun o t ho => ?_
      obtain ⟨rfl, rfl⟩ := visit_statement hcontent ho
      exact (walkSlots_tries hinert hbelow slots form.slots t).bindNothing
        fun _ _ _ => tries_pure _

theorem walkSlots_tries (hinert : IsOpaque c) (hbelow : StaysPlain c below) :
    ∀ (slots : List (List Node)) (specs : List Slot) (s : Walk Memory),
      Tries (walkSlots (visitor c) below specs slots) s
        (attempt c (sitesOfSlots c.registry specs slots))
  | nodes :: slots, spec :: specs, s => by
    rw [walkSlots, sitesOfSlots, attempt_append]
    refine (walkList_tries hinert hbelow spec nodes 0 s).bind fun _ t _ => ?_
    exact (walkSlots_tries hinert hbelow slots specs t).bindNothing fun _ _ _ => tries_pure _
  | slots, [], s => by
    rw [walkSlots, sitesOfSlots]
    · exact tries_pure _
    · nofun
    · nofun
  | [], spec :: specs, s => by
    rw [walkSlots, sitesOfSlots]
    · exact tries_pure _
    · nofun
    · nofun

theorem walkList_tries (hinert : IsOpaque c) (hbelow : StaysPlain c below) (spec : Slot) :
    ∀ (ns : List Node) (index : Nat) (s : Walk Memory),
      Tries (walkList (visitor c) below spec index [] ns) s
        (attempt c (sitesOfList c.registry ns))
  | [], index, s => by
    rw [walkList]
    exact tries_pure _
  | n :: rest, index, s => by
    rw [walkList, sitesOfList, attempt_append]
    refine (walkNode_tries hinert hbelow _ n s).bind fun left t hleft => ?_
    obtain ⟨n', rfl⟩ := walkNode_keeps hinert hleft
    exact (walkList_tries hinert hbelow spec rest (index + 1) t).bindNothing
      fun _ _ _ => tries_pure _

end

theorem walkBelow_tries (hinert : IsOpaque c) (hbelow : StaysPlain c below) (n : Node) :
    Tries (walkBelow (visitor c) below n) s
      (attempt c (sitesOfSlots c.registry n.form.slots n.slots)) :=
  (walkSlots_tries hinert hbelow n.slots n.form.slots s).bindNothing fun _ _ _ => tries_pure _

/-! ### Statements -/

theorem gives_modifyBody_self (f : Body → Body) :
    Gives (modifyBody f : WalkM Memory Unit) s () { s with body := f s.body } :=
  gives_modifyBody.mpr rfl

theorem current?_enter {b : Body} {pre post : List Item} {n : Node} {isPending : Bool}
    (h : b.items = pre ++ ⟨n, isPending⟩ :: post) : (b.enter pre.length).current? = some n := by
  have hentered : (b.enter pre.length).items = pre ++ ⟨n, false⟩ :: post := by
    change b.items.modify pre.length _ = _
    rw [h, modify_behind]
  change ((b.enter pre.length).items[pre.length]?).map Item.node = some n
  rw [hentered]
  simp

theorem sites_of_isStatement {registry : Registry} {n : Node} (h : n.isStatement) :
    sites registry n = sitesOfSlots registry n.form.slots n.slots := by
  obtain ⟨head, form, slots⟩ := n
  have hsite : isSite registry (.mk head form slots) = false := by
    cases form <;> first | rfl | cases h
  rw [sites, hsite]
  rfl

theorem walkStatement_tries (hinert : IsOpaque c) {pre post : List Item} {n : Node}
    (hitems : s.body.items = pre ++ ⟨n, true⟩ :: post) (hn : n.isStatement) :
    Tries (walkStatement (visitor c) pre.length) s (attempt c (sites c.registry n)) := by
  unfold walkStatement
  refine (tries_of_gives (gives_modifyBody_self _) rfl).bind fun _ t henter => ?_
  obtain rfl := gives_modifyBody.mp henter
  refine (tries_of_gives (gives_get.mpr ⟨rfl, rfl⟩) rfl).bind fun _ t hget => ?_
  obtain ⟨rfl, rfl⟩ := gives_get.mp hget
  simp only [current?_enter hitems]
  have hcontent := content?_of_isStatement (c := c) hn
  refine (tries_of_gives (visit_plain hcontent _ _) rfl).bind fun o t hvisit => ?_
  obtain ⟨rfl, rfl⟩ := visit_statement hcontent hvisit
  rw [sites_of_isStatement hn]
  refine (walkBelow_tries hinert (walkBelowNew_plain _) n).bindNothing fun r t _ => ?_
  exact tries_of_gives (gives_modifyBody_self _) rfl

theorem walkPending_tries (hinert : IsOpaque c) {start : Start} {pending : List Node}
    (hpending : ∀ n ∈ pending, n.isStatement) :
    ∀ (count : Nat) (pre : List Node) (isAsked : Bool) (s : Walk Memory),
      pending.length ≤ count → Holds c start isAsked s →
      s.body.items = pre.map (⟨·, false⟩) ++ pending.map (⟨·, true⟩) →
      Tries (walkPending (visitor c) count) s (attempt c (sitesOfList c.registry pending)) := by
  induction pending with
  | nil =>
    intro count pre isAsked s _ _ hitems
    have hitems' : s.body.items = pre.map (⟨·, false⟩) := by
      rw [hitems, List.map_nil, List.append_nil]
    cases count with
    | zero => exact tries_pure _
    | succ count =>
      unfold walkPending
      refine (tries_of_gives (gives_get.mpr ⟨rfl, rfl⟩) rfl).bindNothing fun _ t hget => ?_
      obtain ⟨rfl, rfl⟩ := gives_get.mp hget
      simp only [nextPending?_none hitems']
      exact tries_pure _
  | cons n pending ih =>
    intro count pre isAsked s hcount hholds hitems
    obtain ⟨hn, hpending⟩ := List.forall_mem_cons.mp hpending
    cases count with
    | zero => simp at hcount
    | succ count =>
      unfold walkPending
      refine (tries_of_gives (gives_get.mpr ⟨rfl, rfl⟩) rfl).bind fun _ t hget => ?_
      obtain ⟨rfl, rfl⟩ := gives_get.mp hget
      simp only [nextPending?_spec hitems]
      rw [sitesOfList, attempt_append, ← List.length_map (f := fun n => (⟨n, false⟩ : Item))]
      refine (walkStatement_tries hinert hitems hn).bind fun _ t hstatement => ?_
      -- the import of the factory may have moved what is pending by one place
      obtain ⟨isAsked', r, hholds', -, -, -, hitems'⟩ :=
        walkStatement_spec hitems hn hholds hstatement
      refine ih hpending count ((opening c start isAsked isAsked').map Item.node ++ pre ++ [r])
        isAsked' t (Nat.le_of_succ_le_succ hcount) hholds' ?_
      rw [hitems', List.map_append, List.map_append, opening_nodes]
      simp

theorem walkProgram_tries (hinert : IsOpaque c) {head : Head} {trailing : List Text}
    {body : List Node} (hbody : ∀ n ∈ body, n.isStatement) (scope : Scope) :
    Tries (walkProgram (visitor c) (.program head trailing body))
      ⟨⟨body.map (⟨·, false⟩), trailing, none⟩, ⟨scope, [], []⟩⟩
      (attempt c (sitesOfList c.registry body)) := by
  have hroot : content? c (.program head trailing body) = none := rfl
  unfold walkProgram
  refine (tries_of_gives (visit_plain hroot _ _) rfl).bind fun _ t hvisit => ?_
  obtain ⟨-, rfl⟩ := visit_statement hroot hvisit
  refine (tries_of_gives (gives_modifyBody_self _) rfl).bind fun _ t hpend => ?_
  obtain rfl := gives_modifyBody.mp hpend
  refine (tries_of_gives (gives_get.mpr ⟨rfl, rfl⟩) rfl).bind fun _ t hget => ?_
  obtain ⟨rfl, rfl⟩ := gives_get.mp hget
  refine @walkPending_tries _ hinert ⟨scope, body⟩ _ hbody _ [] false _ ?_ ?_ ?_
  · simp
  · refine ⟨rfl, rfl, ?_⟩
    simp [Body.statements, Function.comp_def]
  · simp

/-- What the walk of a program hands to the compiler, where it fails, and that it does not ask for
the factory without a request. -/
theorem run_tries (hinert : IsOpaque c) {head : Head} {trailing : List Text} {body : List Node}
    (hbody : ∀ n ∈ body, n.isStatement) (scope : Scope) {result : Except Error Node}
    {memory : Memory}
    (h : run (visitor c) ⟨scope, [], []⟩ (.program head trailing body) = (result, memory)) :
    memory.compilations.reverse = (attempt c (sitesOfList c.registry body)).requests ∧
      failure? result = (attempt c (sitesOfList c.registry body)).failure ∧
      ((attempt c (sitesOfList c.registry body)).requests = [] → memory.imports = []) := by
  obtain ⟨hcompilations, hfailure, himports⟩ :=
    @walkProgram_tries _ hinert head trailing _ hbody scope
  rw [List.append_nil] at hcompilations
  unfold run at h
  dsimp only at h
  generalize (walkProgram (visitor c) (.program head trailing body)).run.run _ = r at *
  have hreverse := congrArg List.reverse hcompilations
  rw [List.reverse_reverse] at hreverse
  obtain ⟨_ | _, t⟩ := r <;> cases h <;> exact ⟨hreverse, hfailure, himports⟩

end Walk

end Sites

end InlineTemplates
