import InlineTemplates.Proofs.Occurrences

/-!
# The sites of a tree

A site is a template that a consumed name tags, or a call of such a name. The walk puts something
else in the place of each, so what it leaves of the source holds none.
-/

namespace InlineTemplates

namespace Sites

section Sites

variable (registry : Registry)

def isConsumed (n : Node) : Bool := n.ident?.any fun ident => (registry.lookup ident).isSome

def isTemplate : Node → Bool
  | .template .. => true
  | _ => false

/-- Whether a consumed name tags a template or is called. -/
def isSite : Node → Bool
  | .tagged _ tag quasi => isConsumed registry tag && isTemplate quasi
  | .call _ _ func _ => isConsumed registry func
  | _ => false

mutual

/-- The sites of a tree that are not part of another site, in the order of the source. -/
def sites : Node → List Node
  | .mk head form slots =>
    if isSite registry (.mk head form slots) then [.mk head form slots]
    else sitesOfSlots form.slots slots

def sitesOfSlots : List Slot → List (List Node) → List Node
  | _ :: specs, nodes :: slots => sitesOfList nodes ++ sitesOfSlots specs slots
  | _, _ => []

def sitesOfList : List Node → List Node
  | [] => []
  | n :: rest => sites n ++ sitesOfList rest

end

end Sites

variable {c : Context}

theorem isConsumed_iff {registry : Registry} {n : Node} : isConsumed registry n ↔
    ∃ head ident, n = .name head ident ∧ (registry.lookup ident).isSome := by
  constructor
  · intro h
    obtain ⟨ident, hident, hlookup⟩ := (Option.any_eq_true _ _).mp h
    obtain ⟨head, rfl⟩ := Node.eq_name_of_ident? hident
    exact ⟨head, ident, rfl, hlookup⟩
  · rintro ⟨head, ident, rfl, h⟩
    exact h

theorem isTemplate_iff {n : Node} :
    isTemplate n ↔ ∃ head quasis expressions, n = .template head quasis expressions := by
  constructor
  · intro h
    unfold isTemplate at h
    split at h
    · exact ⟨_, _, _, rfl⟩
    · cases h
  · rintro ⟨head, quasis, expressions, rfl⟩
    rfl

theorem isSome_content? (n : Node) : (content? c n).isSome = isSite c.registry n := by
  unfold content?
  split
  · rw [Option.isSome_map]
    exact (Bool.and_true _).symm
  · rw [Option.isSome_map]
    rfl
  · next htag hcall =>
    symm
    by_contra hsite
    unfold isSite at hsite
    split at hsite
    · obtain ⟨hname, htemplate⟩ := Bool.and_eq_true_iff.mp (Bool.not_eq_false _ ▸ hsite)
      obtain ⟨_, _, rfl, -⟩ := isConsumed_iff.mp hname
      obtain ⟨_, _, _, rfl⟩ := isTemplate_iff.mp htemplate
      exact htag _ _ _ _ _ _ rfl
    · obtain ⟨_, _, rfl, -⟩ := isConsumed_iff.mp (Bool.not_eq_false _ ▸ hsite)
      exact hcall _ _ _ _ _ rfl
    · exact hsite rfl

theorem content?_eq_none_iff {n : Node} : content? c n = none ↔ isSite c.registry n = false := by
  rw [← isSome_content?, Option.isSome_eq_false_iff, Option.isNone_iff_eq_none]

/-! ## Sites behind the walk -/

variable {registry : Registry}

theorem isTemplate_of_isApplication (n : Node) (h : n.form.isApplication) :
    isTemplate n = false := by
  obtain ⟨_, form, _⟩ := n
  cases form <;> first | rfl | cases h

theorem isTemplate_rewritten {factory : Option Text} {a b : Node} (h : Rewritten c factory a b) :
    isTemplate b = isTemplate a := by
  cases h with
  | @kept head form slots slots' _ hs =>
    have hslots := forall₂_of_slotsRelated (S := fun _ _ => True) (fun _ _ _ => trivial)
      (fun _ => trivial) hs
    cases form <;> first | rfl | skip
    rcases hslots with _ | ⟨_, _ | ⟨_, _ | _⟩⟩ <;> rfl
  | site _ hexpansion _ => exact eq_of_expansion isTemplate_of_isApplication hexpansion

theorem isConsumed_rewritten {factory : Option Text} {a b : Node} (h : Rewritten c factory a b) :
    isConsumed registry b = isConsumed registry a := by
  rw [isConsumed, isConsumed, ident?_rewritten h]

theorem isSite_of_kept {factory : Option Text} (head : Head) {head' : Head} {form : Form}
    {slots slots' : List (List Node)}
    (h : SlotsRelated (Rewritten c factory) form.slots slots slots')
    (hsite : isSite registry (.mk head' form slots')) : isSite registry (.mk head form slots) := by
  have hslots := forall₂_of_slotsRelated
    (S := fun a b => isConsumed registry b = isConsumed registry a ∧ isTemplate b = isTemplate a)
    (fun _ _ h => ⟨isConsumed_rewritten h, isTemplate_rewritten h⟩) (fun _ => ⟨rfl, rfl⟩) h
  unfold isSite at hsite
  split at hsite
  · next heq =>
    cases heq
    rcases hslots with _ | ⟨_ | ⟨htag, _ | _⟩, _ | ⟨_ | ⟨hquasi, _ | _⟩, _ | _⟩⟩
    rw [htag.1, hquasi.2] at hsite
    exact hsite
  · next heq =>
    cases heq
    rcases hslots with _ | ⟨_ | ⟨hfunc, _ | _⟩, _ | ⟨_, _ | _⟩⟩
    rw [hfunc.1] at hsite
    exact hsite
  · cases hsite

/-! ## What is left of the source -/

variable (c) in
mutual

/-- The nodes of a walked tree that are left of the source, by the tree before the walk. -/
def keptNodes (factory : Text) (before : Node) : Node → List Node
  | .mk head form slots =>
    if (expansion c factory before).isSome then []
    else .mk head form slots :: keptNodesOfSlots factory form.slots before.slots slots
termination_by structural n => n

def keptNodesOfSlots (factory : Text) :
    List Slot → List (List Node) → List (List Node) → List Node
  | _ :: specs, before :: befores, slot :: rest =>
    keptNodesOfList factory before slot ++ keptNodesOfSlots factory specs befores rest
  | _, _, _ => []
termination_by structural _ _ slots => slots

def keptNodesOfList (factory : Text) : List Node → List Node → List Node
  | before :: befores, n :: rest =>
    keptNodes factory before n ++ keptNodesOfList factory befores rest
  | _, _ => []
termination_by structural _ ns => ns

end

section Kept

variable {name : Text} {P : Node → Prop}

theorem forall_keptNodesOfList {as bs : List Node}
    (h : List.Forall₂ (fun a b => ∀ n ∈ keptNodes c name a b, P n) as bs) :
    ∀ n ∈ keptNodesOfList c name as bs, P n := by
  induction h with
  | nil => exact fun _ h => absurd h List.not_mem_nil
  | cons h _ ih =>
    rw [keptNodesOfList, List.forall_mem_append]
    exact ⟨h, ih⟩

theorem forall_keptNodesOfSlots {specs : List Slot} {slots slots' : List (List Node)}
    (h : SlotsRelated (fun a b => ∀ n ∈ keptNodes c name a b, P n) specs slots slots') :
    ∀ n ∈ keptNodesOfSlots c name specs slots slots', P n := by
  induction h with
  | cons h _ ih =>
    rw [keptNodesOfSlots, List.forall_mem_append]
    exact ⟨forall_keptNodesOfList h, ih⟩
  | rest slots => cases slots <;> exact fun _ h => absurd h List.not_mem_nil
  | nil specs => cases specs <;> exact fun _ h => absurd h List.not_mem_nil

/-- No node that is left of the source is a site, as its children kept their names. -/
theorem content?_of_mem_keptNodes {a b : Node} (h : Rewritten c (some name) a b) :
    ∀ n ∈ keptNodes c name a b, content? c n = none := by
  induction h using Rewritten.induct with
  | @kept head form slots slots' hcontent hs =>
    rw [keptNodes, expansion_of_content? hcontent]
    refine List.forall_mem_cons.mpr ⟨?_, forall_keptNodesOfSlots (hs.imp fun _ _ h => h.2)⟩
    rw [content?_eq_none_iff, Bool.eq_false_iff]
    intro hsite
    have hbefore := isSite_of_kept head (hs.imp fun _ _ h => h.1) hsite
    rw [content?_eq_none_iff.mp hcontent] at hbefore
    cases hbefore
  | site hname hexpansion =>
    cases hname
    rw [keptNodes, hexpansion]
    exact fun _ h => absurd h List.not_mem_nil

end Kept

end Sites

end InlineTemplates
