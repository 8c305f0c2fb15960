import InlineTemplates.Proofs.Renaming

/-!
# Renamed programs

A program whose binding `old` of the module is renamed has its references in the same order, inside
the same scopes. One of `old` becomes one of the new name unless a scope between the module and its
place binds `old`, or the place is among the parameters of a function whose body declares `old`. The
names that lists of exports hand on stay; those of exported declarations are renamed with them.
-/

namespace InlineTemplates

namespace Scope

variable {old new : Text}

/-! ## Exports -/

/-- A name where a renaming reaches it. -/
def respell (old new ident : Text) : Text := if ident = old then new else ident

def exportedName? : Node → Option Text
  | .exportSpecifier _ localName exported => (exported.head?.getD localName).nameText?
  | _ => none

/-- The names that the lists of an export hand on. -/
def listedExports : Node → List Text
  | .exportNamed _ _ specifiers _ => specifiers.filterMap exportedName?
  | _ => []

def declarationNames : Node → List Text
  | .varDecl _ _ declarations => declaratorNames declarations
  | .functionDecl _ _ name _ _ => name.ident?.toList
  | .classDecl _ name _ _ => idents name
  | _ => []

/-- The names that an export hands on with their declaration. -/
def declaredExports : Node → List Text
  | .exportNamed _ declared _ _ => declared.flatMap declarationNames
  | _ => []

def statementsOf : Node → List Node
  | .program _ _ body => body
  | _ => []

theorem ident?_rename (n : Node) : (rename old new n).ident? = n.ident?.map (respell old new) := by
  cases hn : n.ident? with
  | some ident =>
    obtain ⟨head, rfl⟩ := Node.eq_name_of_ident? hn
    rfl
  | none =>
    have hrenamed : Alike (Renamed old new) n (rename old new n) := rename_alike n
    have halike := ident?_alike hrenamed
    rw [hn] at halike
    generalize (rename old new n).ident? = ident at halike ⊢
    cases halike
    rfl

theorem exportedName?_renameExport (n : Node) :
    exportedName? (renameExport old new n) = exportedName? n := by
  unfold renameExport
  split
  · split
    · next hident =>
      subst hident
      -- the old name is spelt out where the list gave none
      rename_i exported
      cases exported <;> rfl
    · rfl
  · rfl

theorem listedExports_rename (n : Node) : listedExports (rename old new n) = listedExports n := by
  fun_cases rename old new n
  case case16 =>
    dsimp only [listedExports]
    split
    · rw [List.filterMap_map]
      exact List.filterMap_congr fun n _ => exportedName?_renameExport n
    · rfl
  case case18 head form slots _ _ _ _ _ _ _ _ _ hexport _ =>
    cases form <;> first | rfl | skip
    rcases slots with _ | ⟨a, _ | ⟨b, _ | ⟨c, _ | ⟨d, rest⟩⟩⟩⟩ <;> first | rfl | skip
    exact absurd rfl (hexport a b c rfl)
  all_goals rfl

theorem names_of_hides {n : Node} (h : hides old n) :
    declaratorName? n = none ∧ declarationNames n = [] ∧ declaredExports n = [] := by
  revert h
  fun_cases hides old n <;> intro h
  case case6 => cases h
  all_goals exact ⟨rfl, rfl, rfl⟩

theorem declaratorName?_rename (n : Node) :
    declaratorName? (rename old new n) = (declaratorName? n).map (respell old new) := by
  fun_cases rename old new n
  case case17 hides => rw [(names_of_hides hides).1, Option.map_none]
  case case18 head form slots _ _ _ _ _ _ _ _ _ _ _ =>
    cases form <;> first | rfl | skip
    rcases slots with _ | ⟨_ | ⟨name, _ | _⟩, _ | ⟨initial, _ | _⟩⟩ <;> first | rfl | skip
    exact ident?_rename name
  all_goals rfl

theorem declaratorNames_rename (declarations : List Node) :
    declaratorNames (declarations.map (rename old new)) =
      (declaratorNames declarations).map (respell old new) := by
  change (declarations.map _).filterMap declaratorName? =
    (declarations.filterMap declaratorName?).map _
  rw [List.filterMap_map, List.map_filterMap]
  exact List.filterMap_congr fun n _ => declaratorName?_rename n

theorem idents_rename (names : List Node) :
    idents (names.map (rename old new)) = (idents names).map (respell old new) := by
  unfold idents
  rw [List.filterMap_map, List.map_filterMap]
  exact List.filterMap_congr fun n _ => ident?_rename n

theorem declarationNames_rename (n : Node) :
    declarationNames (rename old new n) = (declarationNames n).map (respell old new) := by
  have toList (name : Node) : (rename old new name).ident?.toList =
      name.ident?.toList.map (respell old new) := by
    rw [ident?_rename, Option.toList_map]
  fun_cases rename old new n
  case case2 => exact toList _
  case case3 => exact toList _
  case case17 hides => rw [(names_of_hides hides).2.1, List.map_nil]
  case case18 head form slots _ hfunction _ _ _ _ _ _ _ _ _ =>
    rw [renameSlots_eq_map]
    cases form <;> first | rfl | skip
    case varDecl =>
      rcases slots with _ | ⟨declarations, _ | _⟩ <;> first | rfl | skip
      exact declaratorNames_rename declarations
    case functionDecl =>
      rcases slots with
        _ | ⟨_ | ⟨name, _ | _⟩, _ | ⟨params, _ | ⟨_ | ⟨body, _ | _⟩, _ | _⟩⟩⟩ <;>
        first | rfl | skip
      exact absurd rfl (hfunction _ name params body rfl)
    case classDecl =>
      rcases slots with _ | ⟨name, _ | ⟨superclass, _ | ⟨_ | ⟨body, _ | _⟩, _ | _⟩⟩⟩ <;>
        first | rfl | skip
      exact idents_rename name
  all_goals rfl

theorem declaredExports_rename (n : Node) :
    declaredExports (rename old new n) = (declaredExports n).map (respell old new) := by
  fun_cases rename old new n
  case case16 =>
    dsimp only [declaredExports]
    rw [renameAll_eq_map, List.flatMap_map, List.map_flatMap]
    exact List.flatMap_congr fun n _ => declarationNames_rename n
  case case17 hides => rw [(names_of_hides hides).2.2, List.map_nil]
  case case18 head form slots _ _ _ _ _ _ _ _ _ hexport _ =>
    cases form <;> first | rfl | skip
    rcases slots with _ | ⟨a, _ | ⟨b, _ | ⟨c, _ | ⟨d, rest⟩⟩⟩⟩ <;> first | rfl | skip
    exact absurd rfl (hexport a b c rfl)
  all_goals rfl

/-! ## The whole program -/

/-- What a renaming of a binding of the module makes of a program. -/
structure Renames (old new : Text) (before after : Node) : Prop where
  respelt : Respelt old new before after
  references : programReferences after = (programReferences before).map (retarget old new)
  listed : (statementsOf after).flatMap listedExports = (statementsOf before).flatMap listedExports
  declared : (statementsOf after).flatMap declaredExports =
    ((statementsOf before).flatMap declaredExports).map (respell old new)

theorem outside_hides_not : ¬ Env.outside.Hides old := plain_hides_not

/-- A renaming reaches exactly the references of the old name that no scope around them hides. -/
theorem renames_renameProgram (old new : Text) (program : Node) :
    Renames old new program (renameProgram old new program) := by
  unfold renameProgram
  split
  · next head trailing body =>
    rw [renameAll_eq_map]
    refine ⟨.mk (.cons (allRespelt_map fun n _ => rename_respelt n) .nil), ?_, ?_, ?_⟩
    · exact retargets_map (fun n _ => references_rename n) .outside outside_hides_not
    · dsimp only [statementsOf]
      rw [List.flatMap_map]
      exact List.flatMap_congr fun n _ => listedExports_rename n
    · dsimp only [statementsOf]
      rw [List.flatMap_map, List.map_flatMap]
      exact List.flatMap_congr fun n _ => declaredExports_rename n
  · next hprogram =>
    have hreferences : programReferences program = [] := by
      unfold programReferences
      split
      · exact absurd rfl (hprogram _ _ _)
      · rfl
    have hstatements : statementsOf program = [] := by
      unfold statementsOf
      split
      · exact absurd rfl (hprogram _ _ _)
      · rfl
    refine ⟨respelt_refl program, ?_, rfl, ?_⟩
    · rw [hreferences, List.map_nil]
    · rw [hstatements]
      rfl

/-- A reference becomes one of a name that was not used exactly if it is one of the old name that
leads to the module, and does not stand among the parameters of a function whose body declares the
old name. -/
theorem retarget_name_eq_iff {r : Reference} (hnew : r.name ≠ new) :
    (retarget old new r).name = new ↔
      r.name = old ∧ old ∉ r.env.inner ∧ old ∉ r.env.late := by
  rw [← not_or]
  unfold retarget
  split
  · next h => exact iff_of_true rfl h
  · next h => exact iff_of_false hnew h

end Scope

end InlineTemplates
