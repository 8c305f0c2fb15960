import InlineTemplates.Proofs.Specifiers

/-!
# What consuming imports leaves

Each import of a configured module loses one specifier of its export. All else stays as it is and in
its order, with the names changed that the registry says. The registry has one entry for each
specifier that was consumed, under new names. Nothing is left to consume if no import has its export
twice.
-/

namespace InlineTemplates

open Scope

namespace Bindings

/-! ## One module -/

theorem bind_leaves {module : Text} {options : ModuleOptions} {s : State} {i : Nat}
    {localName : Text} {head : Head} {trailing : List Text} {front rest : List Node} {n : Node}
    (hprogram : s.program = .program head trailing (front ++ n :: rest))
    (hspec : specifier? module options.exported n = some (i, localName)) :
    ∃ uid trailing' left rest',
      (bind module options s front.length i localName).program =
        .program head trailing' (front.map (rename localName uid) ++ left ++ rest') ∧
      (bind module options s front.length i localName).registry =
        s.registry ++ [(uid, ⟨module, options, localName⟩)] ∧
      AllSame ((without? module options.exported n).toList.map (rename localName uid)) left ∧
      AllSame (rest.map (rename localName uid)) rest' := by
  have hindex : consumed? module options.exported n = some i := by
    rw [consumed?_eq, hspec]
    rfl
  obtain ⟨uid, scope, -, -, hbind⟩ := bind_spec module options s front.length i localName
  obtain ⟨stmtHead, specifiers, source, rfl, hi⟩ := eq_importDecl_of_consumed? hindex
  have hlength : front.length = (front.map (rename localName uid)).length :=
    (List.length_map _).symm
  rw [hbind, hprogram, renameProgram, renameAll_eq_map, List.map_append, List.map_cons,
    rename_importDecl, hlength, without?_importDecl hindex]
  by_cases hone : specifiers.length = 1
  · obtain ⟨specifier, rfl⟩ := List.length_eq_one_iff.mp hone
    obtain ⟨trailing', rest', hrest, htaken⟩ :=
      takeOut_only head stmtHead trailing (front.map (rename localName uid))
        (rest.map (rename localName uid)) (rename localName uid specifier)
        (rename localName uid source) i
    refine ⟨uid, trailing', [], rest', ?_, rfl, ?_, hrest.imp fun _ _ h => .below h⟩
    · rw [List.append_nil]
      exact htaken
    · rw [if_pos hone]
      exact .nil
  · have hmore : (specifiers.map (rename localName uid)).length ≠ 1 := by rwa [List.length_map]
    refine ⟨uid, trailing, [.importDecl stmtHead
      (Node.dropItem (specifiers.map (rename localName uid)) i).1 (rename localName uid source)],
      rest.map (rename localName uid), ?_, rfl, ?_, AllSame.refl _⟩
    · rw [List.append_assoc]
      exact takeOut_more i hmore
    · rw [if_neg hone]
      refine .cons ?_ .nil
      rw [rename_importDecl, ← List.eraseIdx_map]
      exact .importDecl (dropItem_eraseIdx (by rwa [List.length_map]))

/-- `s'` has the statements `remaining` of a program, up to the names that the registry changed on
the way from `s`, with an entry for each of the modules `consumed`. -/
def Leaves (head : Head) (remaining : List Node) (consumed : List (Text × ModuleOptions))
    (s s' : State) : Prop :=
  ∃ trailing body added, s'.program = .program head trailing body ∧
    s'.registry = s.registry ++ added ∧
    added.map (fun e => (e.2.module, e.2.options)) = consumed ∧
    AllSame (remaining.map (renamedBy added)) body

theorem Leaves.refl {head : Head} {trailing : List Text} {body : List Node} {s : State}
    (h : s.program = .program head trailing body) : Leaves head body [] s s := by
  refine ⟨trailing, body, [], h, (List.append_nil _).symm, rfl, ?_⟩
  have hid : renamedBy [] = id := rfl
  rw [hid, List.map_id]
  exact AllSame.refl body

theorem Leaves.bound {head : Head} {remaining remaining' : List Node}
    {consumed : List (Text × ModuleOptions)} {s s' s'' : State} {e : Text × Binding}
    (hregistry : s'.registry = s.registry ++ [e])
    (hsame : AllSame (remaining.map (rename e.2.localName e.1)) remaining')
    (h : Leaves head remaining' consumed s' s'') :
    Leaves head remaining ((e.2.module, e.2.options) :: consumed) s s'' := by
  obtain ⟨trailing, body, added, hprogram, hadded, hconsumed, hbody⟩ := h
  refine ⟨trailing, body, e :: added, hprogram, ?_, ?_, ?_⟩
  · rw [hadded, hregistry, List.append_assoc]
    rfl
  · rw [List.map_cons, hconsumed]
  · have hrenamed := hsame.renamedBy added
    rw [List.map_map] at hrenamed
    exact hrenamed.trans hbody

theorem index_behind {front front' left rest rest' : List Node} {n : Node} {left? : Option Node}
    (hfront : front'.length = front.length) (hleft : left?.toList.length = left.length)
    (hrest : rest.length = rest'.length) :
    (if (front' ++ left ++ rest').length < (front ++ n :: rest).length then front.length
      else front.length + 1) = (front' ++ left).length := by
  have hone : left?.toList.length ≤ 1 := by cases left? <;> simp
  simp only [List.length_append, List.length_cons, hfront, ← hleft, ← hrest]
  split <;> omega

theorem bindFrom_leaves {module : Text} {options : ModuleOptions} {head : Head} :
    ∀ (count : Nat) (s : State) (trailing : List Text) (front rest : List Node),
      rest.length ≤ count → s.program = .program head trailing (front ++ rest) →
      Leaves head (front ++ rest.filterMap (without? module options.exported))
        (List.replicate (rest.countP (holds (module, options))) (module, options))
        s (bindFrom module options count front.length s) := by
  intro count
  induction count with
  | zero =>
    intro s trailing front rest hcount hprogram
    obtain rfl := List.eq_nil_of_length_eq_zero (Nat.le_zero.mp hcount)
    exact .refl hprogram
  | succ count ih =>
    intro s trailing front rest hcount hprogram
    unfold bindFrom
    have hslot : s.program.slot "body" = front ++ rest := by rw [hprogram]; rfl
    simp only [hslot]
    cases rest with
    | nil =>
      rw [List.append_nil, List.getElem?_eq_none (Nat.le_refl _)]
      exact .refl (by rw [hprogram]; rfl)
    | cons n rest =>
      have hcount := Nat.le_of_succ_le_succ hcount
      rw [List.getElem?_append_right (Nat.le_refl _), Nat.sub_self, List.getElem?_cons_zero]
      dsimp only
      cases hspec : specifier? module options.exported n with
      | none =>
        -- the statement has nothing for the module
        have hnone : consumed? module options.exported n = none := by
          rw [consumed?_eq, hspec]
          rfl
        have hrest := ih s trailing (front ++ [n]) rest hcount
          (by rw [hprogram, List.append_assoc]; rfl)
        rw [List.append_assoc, List.length_append] at hrest
        rw [List.filterMap_cons_some (without?_of_none hnone),
          List.countP_cons_of_neg (by simp [holds, hnone])]
        exact hrest
      | some found =>
        obtain ⟨i, localName⟩ := found
        have hindex : consumed? module options.exported n = some i := by
          rw [consumed?_eq, hspec]
          rfl
        obtain ⟨uid, trailing', left, rest', hbound, hregistry, hleft, hrest⟩ :=
          bind_leaves hprogram hspec
        have hlengths := hrest.length_eq
        have hone := hleft.length_eq
        rw [List.length_map] at hlengths hone
        have hnext : (if ((bind module options s front.length i localName).program.slot
            "body").length < (front ++ n :: rest).length then front.length
            else front.length + 1) = (front.map (rename localName uid) ++ left).length := by
          -- the search goes on behind what is left of the statement
          rw [hbound]
          exact index_behind (List.length_map _) hone hlengths
        dsimp only
        rw [hnext, List.countP_cons_of_pos (by simp [holds, hindex]), List.replicate_succ]
        have hcounts := @countP_holds_renamedBy [(uid, ⟨module, options, localName⟩)] rest rest'
          hrest (module, options)
        rw [← hcounts]
        refine Leaves.bound hregistry ?_ (ih _ trailing' (front.map (rename localName uid) ++ left)
          rest' (hlengths ▸ hcount) hbound)
        rw [List.map_append, List.append_assoc]
        refine (AllSame.refl _).append ?_
        have hrest' := hrest.without? module options.exported
        rw [← without?_renameAll] at hrest'
        rw [without?_cons, List.map_append]
        exact hleft.append hrest'

/-! ## All modules -/

theorem Leaves.trans {head : Head} {remaining : List Node} {modules : List (Text × ModuleOptions)}
    {consumed consumed' : List (Text × ModuleOptions)} {s s' s'' : State}
    (h : Leaves head remaining consumed s s')
    (h' : ∀ trailing body, s'.program = .program head trailing body →
      AllSame (remaining.map (renamedBy (s'.registry.drop s.registry.length))) body →
      Leaves head (body.filterMap (withoutAll? modules)) consumed' s' s'') :
    Leaves head (remaining.filterMap (withoutAll? modules)) (consumed ++ consumed') s s'' := by
  obtain ⟨trailing, body, added, hprogram, hadded, hconsumed, hbody⟩ := h
  rw [hadded, List.drop_left] at h'
  obtain ⟨trailing', body', added', hprogram', hadded', hconsumed', hbody'⟩ :=
    h' trailing body hprogram hbody
  refine ⟨trailing', body', added ++ added', hprogram', ?_, ?_, ?_⟩
  · rw [hadded', hadded, List.append_assoc]
  · rw [List.map_append, hconsumed, hconsumed']
  · have hleft := (hbody.withoutAll? modules).renamedBy added'
    rw [withoutAll?_renamedAll, List.map_map] at hleft
    have hboth : renamedBy (added ++ added') = renamedBy added' ∘ renamedBy added := by
      funext n
      exact List.foldl_append
    rw [hboth]
    exact hleft.trans hbody'

theorem resolve_leaves {modules : List (Text × ModuleOptions)}
    (hmodules : (modules.map (·.1)).Nodup) {head : Head} :
    ∀ (s : State) (trailing : List Text) (body : List Node),
      s.program = .program head trailing body →
      Leaves head (body.filterMap (withoutAll? modules))
        (modules.flatMap fun m => List.replicate (body.countP (holds m)) m) s
        (modules.foldl (fun s (module, options) =>
          bindFrom module options (s.program.slot "body").length 0 s) s) := by
  induction modules with
  | nil =>
    intro s trailing body hprogram
    have hall : withoutAll? [] = some := rfl
    rw [hall, List.filterMap_some]
    exact .refl hprogram
  | cons m modules ih =>
    obtain ⟨module, options⟩ := m
    intro s trailing body hprogram
    obtain ⟨hnew, hmodules⟩ := List.nodup_cons.mp hmodules
    have hlength : body.length ≤ (s.program.slot "body").length := by
      rw [hprogram]
      exact Nat.le_refl _
    have hfirst := @bindFrom_leaves module options head _ s trailing [] body hlength hprogram
    have hall : withoutAll? ((module, options) :: modules) =
        fun n => (without? module options.exported n).bind (withoutAll? modules) := rfl
    rw [hall, ← List.filterMap_filterMap]
    refine hfirst.trans fun trailing' body' hprogram' hbody' => ?_
    -- the other modules find what they would have found before
    have hcounts : ∀ m ∈ modules, body'.countP (holds m) = body.countP (holds m) := by
      intro m hm
      have hne : m.1 ≠ module := fun heq => hnew (List.mem_map.mpr ⟨m, hm, heq⟩)
      exact (countP_holds_renamedBy hbody' m).trans (countP_holds_without? hne body)
    have hflat : (modules.flatMap fun m => List.replicate (body'.countP (holds m)) m) =
        modules.flatMap fun m => List.replicate (body.countP (holds m)) m :=
      List.flatMap_congr fun m hm => by rw [hcounts m hm]
    have hrest := ih hmodules _ trailing' body' hprogram'
    rw [hflat] at hrest
    exact hrest

/-! ## The new names -/

/-- The names in the registry are new to a program whose names were `original`. -/
structure IsNew (original : List Text) (s : State) : Prop where
  nodup : (s.registry.map (·.1)).Nodup
  known : KnowsFresh s
  new : ∀ uid ∈ s.registry.map (·.1), uid ∉ original
  grown : original ⊆ s.scope.references

theorem bind_isNew {original : List Text} {module : Text} {options : ModuleOptions} {s : State}
    {index i : Nat} {localName : Text} (h : IsNew original s) :
    IsNew original (bind module options s index i localName) := by
  have hknown : KnowsFresh (bind module options s index i localName) := bind_knowsFresh h.known
  obtain ⟨uid, scope, hfresh, hscope, hbind⟩ := bind_spec module options s index i localName
  rw [hbind] at hknown ⊢
  refine ⟨?_, hknown, ?_, ?_⟩
  · rw [List.map_append]
    refine List.nodup_append.mpr ⟨h.nodup, List.nodup_singleton _, ?_⟩
    intro x hx y hy
    rw [List.map_singleton, List.mem_singleton] at hy
    intro hxy
    rw [hxy, hy] at hx
    exact hfresh (h.known _ hx)
  · rw [List.map_append, List.forall_mem_append]
    refine ⟨h.new, ?_⟩
    rw [List.map_singleton, List.forall_mem_singleton]
    exact fun hold => hfresh (h.grown hold)
  · rw [hscope]
    intro x hx
    exact List.mem_cons_of_mem _ (List.mem_cons_of_mem _ (h.grown hx))

/-- What consuming the imports of the modules does to a program. The registry has one entry for each
of them that has the export of its module, under names that are new. All else is left as it was, in
its order, but for the names of what was consumed. -/
theorem leftovers_of_resolve {modules : List (Text × ModuleOptions)}
    (hmodules : (modules.map (·.1)).Nodup) (head : Head) (trailing : List Text)
    (body : List Node) :
    let program := Node.program head trailing body
    let s := resolve modules program (Scope.ofProgram program)
    s.registry.map (fun e => (e.2.module, e.2.options)) =
        modules.flatMap (fun m => List.replicate (body.countP (holds m)) m) ∧
      (s.registry.map (·.1)).Nodup ∧
      (∀ uid ∈ s.registry.map (·.1), ¬ Mentioned program uid) ∧
      AllSame ((body.filterMap (withoutAll? modules)).map (renamedBy s.registry))
        (s.program.slot "body") := by
  intro program s
  obtain ⟨trailing', body', added, hprogram, hadded, hconsumed, hbody⟩ :=
    resolve_leaves hmodules ⟨program, Scope.ofProgram program, []⟩ trailing body rfl
  have hregistry : s.registry = added := hadded
  have hslot : s.program.slot "body" = body' := congrArg (Node.slot · "body") hprogram
  have hnew : IsNew (Scope.ofProgram program).references s := by
    refine resolve_keeps (fun _ _ _ _ _ _ => bind_isNew) modules ⟨.nil, ?_, ?_, ?_⟩
    · exact fun _ h => absurd h List.not_mem_nil
    · exact fun _ h => absurd h List.not_mem_nil
    · exact List.Subset.refl _
  rw [hslot]
  refine ⟨hregistry ▸ hconsumed, hnew.nodup, ?_, hregistry ▸ hbody⟩
  intro uid huid hmentioned
  exact hnew.new uid huid (List.mem_filterMap.mpr hmentioned)

/-- If no import has two specifiers of the export of its module, nothing is left to consume. -/
theorem not_holds_of_resolve {modules : List (Text × ModuleOptions)}
    (hmodules : (modules.map (·.1)).Nodup) (head : Head) (trailing : List Text) {body : List Node}
    (hone : ∀ n ∈ body, ∀ m ∈ modules, matching m n ≤ 1) :
    let program := Node.program head trailing body
    ∀ n ∈ (resolve modules program (Scope.ofProgram program)).program.slot "body",
      ∀ m ∈ modules, holds m n = false := by
  intro program n hn m hm
  obtain ⟨-, -, -, hsame⟩ := leftovers_of_resolve hmodules head trailing body
  have hnone : (body.filterMap (withoutAll? modules)).countP (holds m) = 0 := by
    rw [List.countP_eq_zero]
    intro a ha
    obtain ⟨b, hb, hleft⟩ := List.mem_filterMap.mp ha
    simp [not_holds_withoutAll? hmodules hm (hone b hb m hm) hleft]
  have hcount := countP_holds_renamedBy hsame m
  rw [hnone, List.countP_eq_zero] at hcount
  simpa using hcount n hn

end Bindings

end InlineTemplates
