import InlineTemplates.Proofs.Hygiene
import InlineTemplates.Proofs.Sequence

/-!
# What stands in the place of the sites

The walk puts what their requests become in the place of the sites and changes nothing else. It
leaves no site behind unless the factory has a consumed name.
-/

namespace InlineTemplates

namespace Sites

section Map

variable (registry : Registry) (f : Node → Node)

mutual

/-- A tree with `f n` in the place of each site `n` that is not part of another. -/
def mapSites : Node → Node
  | .mk head form slots =>
    if isSite registry (.mk head form slots) then f (.mk head form slots)
    else .mk head form (mapSitesOfSlots form.slots slots)

def mapSitesOfSlots : List Slot → List (List Node) → List (List Node)
  | _ :: specs, nodes :: slots => mapSitesOfList nodes :: mapSitesOfSlots specs slots
  | _, slots => slots

def mapSitesOfList : List Node → List Node
  | [] => []
  | n :: rest => mapSites n :: mapSitesOfList rest

end

end Map

variable {c : Context} {registry : Registry} {f : Node → Node}

theorem mapSitesOfList_eq_map (ns : List Node) :
    mapSitesOfList registry f ns = ns.map (mapSites registry f) := by
  induction ns with
  | nil => rfl
  | cons n rest ih => rw [mapSitesOfList, ih, List.map_cons]

mutual

theorem mapSites_plain : ∀ n : Node, sites registry n = [] → mapSites registry f n = n
  | .mk head form slots, h => by
    rw [sites] at h
    split at h
    · cases h
    · next hsite => rw [mapSites, if_neg hsite, mapSitesOfSlots_plain slots form.slots h]

theorem mapSitesOfSlots_plain : ∀ (slots : List (List Node)) (specs : List Slot),
    sitesOfSlots registry specs slots = [] → mapSitesOfSlots registry f specs slots = slots
  | nodes :: slots, spec :: specs, h => by
    obtain ⟨hnodes, hslots⟩ := List.append_eq_nil_iff.mp h
    rw [mapSitesOfSlots, mapSitesOfList_plain nodes hnodes,
      mapSitesOfSlots_plain slots specs hslots]
  | slots, [], _ => by
    rw [mapSitesOfSlots]
    nofun
  | [], spec :: specs, _ => by
    rw [mapSitesOfSlots]
    nofun

theorem mapSitesOfList_plain : ∀ ns : List Node,
    sitesOfList registry ns = [] → mapSitesOfList registry f ns = ns
  | [], _ => rfl
  | n :: rest, h => by
    obtain ⟨hn, hrest⟩ := List.append_eq_nil_iff.mp h
    rw [mapSitesOfList, mapSites_plain n hn, mapSitesOfList_plain rest hrest]

end

/-- What stands in the place of a node, which is the node itself if nothing compiles it. -/
def expanded (c : Context) (factory : Text) (n : Node) : Node :=
  ((expansion c factory n).map (placed n)).getD n

theorem eq_mapSitesOfSlots {specs : List Slot} {slots slots' : List (List Node)}
    (h : SlotsRelated (fun a b => b = mapSites registry f a) specs slots slots') :
    slots' = mapSitesOfSlots registry f specs slots := by
  induction h with
  | @cons _ _ nodes nodes' _ _ hnodes _ ih =>
    have hmap : nodes' = nodes.map (mapSites registry f) := by
      induction hnodes with
      | nil => rfl
      | cons h _ ih => rw [h, ih, List.map_cons]
    rw [mapSitesOfSlots, mapSitesOfList_eq_map, ih, hmap]
  | rest slots => rw [mapSitesOfSlots]; nofun
  | nil specs => rw [mapSitesOfSlots]; nofun

/-- The walk changes nothing but the sites. -/
theorem eq_mapSites_of_rewritten (hinert : IsOpaque c) {factory : Text} {a b : Node}
    (h : Rewritten c (some factory) a b) : b = mapSites c.registry (expanded c factory) a := by
  induction h using Rewritten.induct with
  | @kept head form slots slots' hcontent hs =>
    rw [mapSites, content?_eq_none_iff.mp hcontent]
    simp only [Bool.false_eq_true, if_false]
    rw [eq_mapSitesOfSlots (hs.imp fun _ _ h => h.2)]
  | @site n compiled name slots' hname hexpansion hs =>
    cases hname
    obtain ⟨r, -, hcompiled⟩ := isCompiled_of_expansion hexpansion
    have hplain := sites_of_isCompiled hinert hcompiled
    have hsite : isSite c.registry n := by
      rw [← isSome_content?]
      exact content?_isSome_of_expansion hexpansion
    -- the walk goes on below what the compiler gave, where it meets no site
    have hslots := eq_mapSitesOfSlots (hs.imp fun _ _ h => h.2)
    rw [mapSitesOfSlots_plain _ _ hplain] at hslots
    subst hslots
    obtain ⟨head, form, slots⟩ := n
    rw [mapSites, if_pos hsite, expanded, hexpansion]
    rfl

theorem eq_map_of_rewritten (hinert : IsOpaque c) {factory : Text} {as bs : List Node}
    (h : AllRewritten c (some factory) as bs) :
    bs = as.map (mapSites c.registry (expanded c factory)) := by
  induction h with
  | nil => rfl
  | cons h _ ih => rw [eq_mapSites_of_rewritten hinert h, ih, List.map_cons]

theorem expanded_of_request? {n : Node} {r : Compilation} (hrequest : request? c n = some r)
    (h : offence? c n = none) (factory : Text) :
    ∃ compiled, IsCompiled c factory r compiled ∧ expanded c factory n = placed n compiled := by
  have hcompiled : (expansion c factory n).isSome := by
    obtain ⟨template, options, hcontent, rfl⟩ := content?_of_request? hrequest
    have hoffence : offence? c n = failure? (Compiler.compile c.compiler template
        (.name .fresh factory) options n c.origin) := by
      simp only [offence?, hcontent, hrequest, Option.bind_some, failure?_compile]
    simp only [expansion, hcontent]
    rw [hoffence] at h
    obtain ⟨compiled, hcompile⟩ := failure?_eq_none_iff.mp h
    rw [hcompile]
    rfl
  obtain ⟨compiled, hexpansion⟩ := Option.isSome_iff_exists.mp hcompiled
  obtain ⟨r', hrequest', hcompiled⟩ := isCompiled_of_expansion hexpansion
  rw [hrequest] at hrequest'
  cases hrequest'
  exact ⟨compiled, hcompiled, by rw [expanded, hexpansion]; rfl⟩

/-! ## No site is left -/

theorem sitesOfSlots_of_related {specs : List Slot} {slots slots' : List (List Node)}
    (h : SlotsRelated (fun _ b => sites registry b = []) specs slots slots') :
    sitesOfSlots registry specs slots' = [] := by
  induction h with
  | @cons _ _ nodes nodes' _ _ hnodes _ ih =>
    have hnone : sitesOfList registry nodes' = [] := by
      induction hnodes with
      | nil => rfl
      | cons h _ ih => rw [sitesOfList, h, ih, List.append_nil]
    rw [sitesOfSlots, hnone, ih, List.append_nil]
  | rest slots => rw [sitesOfSlots]; nofun
  | nil specs => rw [sitesOfSlots]; nofun

theorem sites_eq_of_not_isSite {head : Head} {form : Form} {slots : List (List Node)}
    (h : ¬ isSite registry (.mk head form slots)) :
    sites registry (.mk head form slots) = sitesOfSlots registry form.slots slots := by
  rw [sites, if_neg h]

/-- The walk leaves no site behind if the factory is no consumed name. -/
theorem sites_of_rewritten {factory : Option Text}
    (hfactory : ∀ name, factory = some name → c.registry.lookup name = none) {a b : Node}
    (h : Rewritten c factory a b) : sites c.registry b = [] := by
  induction h using Rewritten.induct with
  | @kept head form slots slots' hcontent hs =>
    rw [sites_eq_of_not_isSite]
    · exact sitesOfSlots_of_related (hs.imp fun _ _ h => h.2)
    · intro hsite
      have hbefore := isSite_of_kept head (hs.imp fun _ _ h => h.1) hsite
      rw [content?_eq_none_iff.mp hcontent] at hbefore
      cases hbefore
  | @site n compiled name slots' hname hexpansion hs =>
    rw [sites_eq_of_not_isSite]
    · exact sitesOfSlots_of_related (hs.imp fun _ _ h => h.2)
    · intro hsite
      -- only the call of the factory can be a site here, if its name is a consumed one
      have hbefore := isSite_of_kept .fresh (hs.imp fun _ _ h => h.1) hsite
      obtain ⟨r, -, hcompiled⟩ := isCompiled_of_expansion hexpansion
      cases hcompiled with
      | call =>
        change isConsumed c.registry (.name .fresh name) at hbefore
        obtain ⟨_, ident, hident, hlookup⟩ := isConsumed_iff.mp hbefore
        cases hident
        rw [hfactory name hname] at hlookup
        cases hlookup
      | stub => cases hbefore

theorem sitesOfList_append (xs ys : List Node) :
    sitesOfList registry (xs ++ ys) = sitesOfList registry xs ++ sitesOfList registry ys := by
  induction xs with
  | nil => rfl
  | cons n rest ih => rw [List.cons_append, sitesOfList, sitesOfList, ih, List.append_assoc]

theorem sitesOfList_of_rewritten {factory : Option Text}
    (hfactory : ∀ name, factory = some name → c.registry.lookup name = none) {as bs : List Node}
    (h : AllRewritten c factory as bs) : sitesOfList c.registry bs = [] := by
  induction h with
  | nil => rfl
  | cons h _ ih => rw [sitesOfList, sites_of_rewritten hfactory h, ih, List.append_nil]

theorem sitesOfList_of_rewritten_none {as bs : List Node} (h : AllRewritten c none as bs) :
    sitesOfList c.registry as = [] := by
  have hsame := h.imp (S := Eq) fun a b hab => (eq_of_rewritten hab).symm
  rw [List.forall₂_eq_eq_eq] at hsame
  rw [hsame]
  refine sitesOfList_of_rewritten ?_ h
  nofun

/-! ## Trees without consumed names -/

theorem sitesOfList_eq_nil {ns : List Node} (h : ∀ n ∈ ns, sites registry n = []) :
    sitesOfList registry ns = [] := by
  induction ns with
  | nil => rfl
  | cons n rest ih =>
    obtain ⟨hn, hrest⟩ := List.forall_mem_cons.mp h
    rw [sitesOfList, hn, ih hrest, List.append_nil]

theorem sitesOfSlots_eq_nil {slots : List (List Node)}
    (h : ∀ slot ∈ slots, ∀ n ∈ slot, sites registry n = []) (specs : List Slot) :
    sitesOfSlots registry specs slots = [] := by
  induction slots generalizing specs with
  | nil => rw [sitesOfSlots]; nofun
  | cons nodes slots ih =>
    obtain ⟨hnodes, hslots⟩ := List.forall_mem_cons.mp h
    cases specs with
    | nil => rw [sitesOfSlots]; nofun
    | cons spec specs => rw [sitesOfSlots, sitesOfList_eq_nil hnodes, ih hslots, List.append_nil]

theorem sites_of_not_mentioned {n : Node}
    (h : ∀ x, Mentioned n x → registry.lookup x = none) : sites registry n = [] := by
  induction n using Node.induct with
  | step n ih =>
    have hchild {m : Node} (hm : isConsumed registry m) (hslot : [m] ∈ n.slots) : False := by
      obtain ⟨_, ident, rfl, hlookup⟩ := isConsumed_iff.mp hm
      have hmentioned := mentioned_of_child hslot List.mem_cons_self (mentioned_of_ident? rfl)
      rw [h ident hmentioned] at hlookup
      cases hlookup
    have hsite : ¬ isSite registry n := by
      intro hsite
      unfold isSite at hsite
      split at hsite
      · exact hchild (Bool.and_eq_true_iff.mp hsite).1 List.mem_cons_self
      · exact hchild hsite List.mem_cons_self
      · cases hsite
    obtain ⟨head, form, slots⟩ := n
    rw [sites_eq_of_not_isSite hsite]
    exact sitesOfSlots_eq_nil (fun slot hslot m hm =>
      ih slot hslot m hm fun x hx => h x (mentioned_of_child hslot hm hx)) _

end Sites

end InlineTemplates
