import InlineTemplates.Proofs.Hygiene

/-!
# The statements that remain

Consuming the imports of the configured modules takes an import out of a program if the export was
all that it imported. All other statements remain, in their order.
-/

namespace InlineTemplates

open Scope

def Node.isImport (n : Node) : Bool := n.form == .importDecl

namespace Bindings

/-! ## Imports that are taken out -/

/-- Whether a statement imports the export of a module and nothing else. -/
def importsOnly (module exported : Text) : Node → Bool
  | .importDecl _ [specifier] source =>
    source.string? == some module && specifier.importsExport exported &&
      (localName? specifier).isSome
  | _ => false

/-- Whether a statement imports the export of one of the modules and nothing else. -/
def isTaken (modules : List (Text × ModuleOptions)) (n : Node) : Bool :=
  modules.any fun (module, options) => importsOnly module options.exported n

theorem specifier?_importDecl (module exported : Text) (head : Head) (specifiers : List Node)
    (source : Node) : specifier? module exported (.importDecl head specifiers source) =
      if source.string? = some module then
        (specifiers.findIdx? (Node.importsExport exported)).bind fun i =>
          (specifiers[i]?.bind localName?).map fun name => (i, name)
      else none := by
  simp only [specifier?, Node.importParts?]
  cases source.string? with
  | none => rfl
  | some text => simp only [Option.map_some, Option.some.injEq]

theorem importsOnly_eq (module exported : Text) (head : Head) (specifier source : Node) :
    importsOnly module exported (.importDecl head [specifier] source) =
      (specifier? module exported (.importDecl head [specifier] source)).isSome := by
  rw [specifier?_importDecl]
  change (source.string? == some module && specifier.importsExport exported &&
    (localName? specifier).isSome) = _
  by_cases hsource : source.string? = some module
  · rw [if_pos hsource, hsource]
    cases hexport : specifier.importsExport exported with
    | false => simp [hexport]
    | true => simp [hexport]
  · rw [if_neg hsource]
    simp [hsource]

/-! ## Statements that are alike -/

/-- Statements that are alike to modules which satisfy `P`. -/
structure SameFor (P : Text → Prop) (a b : Node) : Prop where
  isImport : b.isImport = a.isImport
  importsOnly : ∀ module, P module → ∀ exported,
    importsOnly module exported b = importsOnly module exported a

variable {P Q : Text → Prop} {a b d : Node}

theorem SameFor.refl (n : Node) : SameFor P n n := ⟨rfl, fun _ _ _ => rfl⟩

theorem SameFor.trans (h : SameFor P a b) (h' : SameFor P b d) : SameFor P a d :=
  ⟨h'.isImport.trans h.isImport, fun m hm e => (h'.importsOnly m hm e).trans (h.importsOnly m hm e)⟩

theorem SameFor.mono (h : SameFor P a b) (hPQ : ∀ m, Q m → P m) : SameFor Q a b :=
  ⟨h.isImport, fun m hm => h.importsOnly m (hPQ m hm)⟩

/-- Nodes that are alike as parts of an import. -/
structure SamePart (a b : Node) : Prop where
  string : b.string? = a.string?
  importsExport : ∀ exported, b.importsExport exported = a.importsExport exported
  localName : (localName? b).isSome = (localName? a).isSome

theorem SamePart.refl (n : Node) : SamePart n n := ⟨rfl, fun _ => rfl, rfl⟩

theorem importsOnly_of_parts {head head' : Head} {form : Form} {slots slots' : List (List Node)}
    (h : List.Forall₂ (List.Forall₂ SamePart) slots slots') (module exported : Text) :
    importsOnly module exported (.mk head' form slots') =
      importsOnly module exported (.mk head form slots) := by
  cases form <;> first | rfl | skip
  rcases h with _ | ⟨_ | ⟨hspecifier, _ | _⟩, _ | ⟨_ | ⟨hsource, _ | _⟩, _ | _⟩⟩ <;>
    first | rfl | skip
  change (_ == _ && _ && _) = (_ == _ && _ && _)
  rw [hsource.string, hspecifier.importsExport, hspecifier.localName]

theorem allRelated_trans {R : Node → Node → Prop} (hR : ∀ a b d, R a b → R b d → R a d)
    {as bs ds : List Node} (h : List.Forall₂ R as bs) (h' : List.Forall₂ R bs ds) :
    List.Forall₂ R as ds := by
  induction h generalizing ds with
  | nil => exact h'
  | cons h _ ih =>
    cases h' with
    | cons h' hs' => exact .cons (hR _ _ _ h h') (ih hs')

theorem allSame_trans {as bs ds : List Node} (h : List.Forall₂ (SameFor P) as bs)
    (h' : List.Forall₂ (SameFor P) bs ds) : List.Forall₂ (SameFor P) as ds :=
  allRelated_trans (fun _ _ _ h h' => h.trans h') h h'

theorem allSame_filter {p : Node → Bool} (hp : ∀ a b, SameFor P a b → p b = p a)
    {as bs : List Node} (h : List.Forall₂ (SameFor P) as bs) :
    List.Forall₂ (SameFor P) (as.filter p) (bs.filter p) := by
  induction h with
  | nil => exact .nil
  | cons h _ ih =>
    rw [List.filter_cons, List.filter_cons, hp _ _ h]
    split
    · exact .cons h ih
    · exact ih

theorem allSame_append {as bs as' bs' : List Node} (h : List.Forall₂ (SameFor P) as bs)
    (h' : List.Forall₂ (SameFor P) as' bs') : List.Forall₂ (SameFor P) (as ++ as') (bs ++ bs') :=
  List.rel_append h h'

theorem sameFor_of_sameBelow (h : SameBelow a b) : SameFor P a b := by
  obtain ⟨head', rfl⟩ := h
  obtain ⟨head, form, slots⟩ := a
  refine ⟨rfl, fun m _ e => importsOnly_of_parts ?_ m e⟩
  exact List.forall₂_same.mpr fun slot _ => List.forall₂_same.mpr fun n _ => .refl n

theorem string?_alike {R : Text → Text → Prop} (h : Alike R a b) : b.string? = a.string? := by
  cases h with
  | name => rfl
  | @mk head head' form slots slots' hs =>
    cases form <;> first | rfl | skip
    case literal value _ => cases value <;> cases hs <;> rfl
  | exportSpecifier => rfl
  | property => rfl
  | application ha hb =>
    rw [Sites.string?_of_isApplication _ ha, Sites.string?_of_isApplication _ hb]

theorem importsExport_rename (old new exported : Text) (n : Node) :
    (rename old new n).importsExport exported = n.importsExport exported := by
  fun_cases rename old new n
  case case18 head form slots _ _ _ _ _ _ _ _ hnamed _ _ =>
    cases form <;> first | rfl | skip
    case importDefault =>
      rcases slots with _ | ⟨_ | ⟨_, _ | _⟩, _ | _⟩ <;> rfl
    case importNamed =>
      rcases slots with _ | ⟨_ | ⟨_, _ | _⟩, _ | ⟨_ | ⟨_, _ | _⟩, _ | _⟩⟩ <;>
        first | rfl | exact absurd rfl (hnamed _ _ rfl)
  all_goals rfl

theorem samePart_rename (old new : Text) (n : Node) : SamePart n (rename old new n) :=
  ⟨string?_alike (rename_alike n), fun e => importsExport_rename old new e n,
    (isSome_of_rel (localName?_alike (rename_alike n))).symm⟩

theorem sameFor_rename (old new : Text) (n : Node) : SameFor P n (rename old new n) := by
  fun_cases rename old new n
  case case18 =>
    refine ⟨rfl, fun m _ e => importsOnly_of_parts ?_ m e⟩
    rw [renameSlots_eq_map, List.forall₂_map_right_iff]
    refine List.forall₂_same.mpr fun slot _ => List.forall₂_map_right_iff.mpr ?_
    exact List.forall₂_same.mpr fun n _ => samePart_rename old new n
  all_goals exact ⟨rfl, fun _ _ _ => rfl⟩

/-! ## One module -/

theorem dropItem_behind (front rest : List Node) (removed : Node) :
    ∃ rest', (Node.dropItem (front ++ removed :: rest) front.length).1 = front ++ rest' ∧
      List.Forall₂ SameBelow rest rest' := by
  unfold Node.dropItem
  rw [List.drop_left, List.take_left]
  cases rest with
  | nil => exact ⟨[], (List.append_nil _).symm, .nil⟩
  | cons next rest =>
    exact ⟨_, rfl, .cons (sameBelow_prependComments _ _)
      (List.forall₂_same.mpr fun n _ => sameBelow_refl n)⟩

theorem specifiers_at_front (head stmtHead : Head) (trailing : List Text)
    (front rest specifiers : List Node) (source : Node) :
    ((Node.program head trailing (front ++ .importDecl stmtHead specifiers source :: rest)).child?
      ⟨"body", some front.length⟩).map (·.slot "specifiers") = some specifiers := by
  change ((front ++ _ :: rest)[front.length]?).map _ = _
  rw [List.getElem?_append_right (Nat.le_refl _), Nat.sub_self]
  rfl

theorem takeOut_only (head stmtHead : Head) (trailing : List Text) (front rest : List Node)
    (specifier source : Node) (i : Nat) :
    ∃ trailing' rest', List.Forall₂ SameBelow rest rest' ∧
      takeOut (.program head trailing (front ++ .importDecl stmtHead [specifier] source :: rest))
        front.length i = .program head trailing' (front ++ rest') := by
  obtain ⟨rest', hdrop, hrest⟩ :=
    dropItem_behind front rest (.importDecl stmtHead [specifier] source)
  have htaken (program : Node) (h : program =
      .program head trailing (front ++ .importDecl stmtHead [specifier] source :: rest)) :
      takeOut program front.length i = program.removeChild ⟨"body", some front.length⟩ := by
    rw [takeOut, h]
    simp only [specifiers_at_front]
  exact ⟨_, rest', hrest, (htaken _ rfl).trans (congrArg (Node.program head _) hdrop)⟩

theorem takeOut_more {head stmtHead : Head} {trailing : List Text}
    {front rest specifiers : List Node} {source : Node} (i : Nat) (h : specifiers.length ≠ 1) :
    takeOut (.program head trailing (front ++ .importDecl stmtHead specifiers source :: rest))
      front.length i = .program head trailing
        (front ++ .importDecl stmtHead (Node.dropItem specifiers i).1 source :: rest) := by
  rw [takeOut]
  simp only [specifiers_at_front]
  split
  · next heq => cases heq; exact absurd rfl h
  · change Node.program head trailing (List.modify _ _ _) = _
    rw [Option.getD_some, Sites.modify_behind]
    rfl

theorem eq_importDecl_of_importsOnly {module exported : Text} {n : Node}
    (h : importsOnly module exported n) :
    ∃ head specifier source, n = .importDecl head [specifier] source := by
  unfold importsOnly at h
  split at h
  · exact ⟨_, _, _, rfl⟩
  · cases h

theorem not_importsOnly_of_length {module exported : Text} {head : Head} {specifiers : List Node}
    {source : Node} (h : specifiers.length ≠ 1) :
    importsOnly module exported (.importDecl head specifiers source) = false := by
  by_contra honly
  obtain ⟨_, _, _, heq⟩ := eq_importDecl_of_importsOnly (Bool.not_eq_false _ ▸ honly)
  cases heq
  exact h rfl

theorem not_importsOnly_of_specifier? {module exported : Text} {n : Node}
    (h : specifier? module exported n = none) : importsOnly module exported n = false := by
  by_contra honly
  obtain ⟨head, specifier, source, rfl⟩ :=
    eq_importDecl_of_importsOnly (Bool.not_eq_false _ ▸ honly)
  rw [importsOnly_eq, h] at honly
  exact honly rfl

theorem not_importsOnly_of_source {module module' exported : Text} {head : Head}
    {specifiers : List Node} {source : Node} (hsource : source.string? = some module)
    (hne : module' ≠ module) :
    importsOnly module' exported (.importDecl head specifiers source) = false := by
  unfold importsOnly
  split
  · next heq =>
    cases heq
    rw [hsource]
    simp [Ne.symm hne]
  · rfl

theorem source_of_specifier? {module exported localName : Text} {head : Head}
    {specifiers : List Node} {source : Node} {i : Nat}
    (h : specifier? module exported (.importDecl head specifiers source) = some (i, localName)) :
    source.string? = some module := by
  rw [specifier?_importDecl] at h
  split at h
  · assumption
  · cases h

/-- What a step that binds a specifier leaves of a program. If it was all that its import had, the
whole import is gone. All other statements remain. -/
theorem bind_remains {module : Text} {options : ModuleOptions} {s : State} {i : Nat}
    {localName : Text} {head : Head} {trailing : List Text} {front rest : List Node} {n : Node}
    (hprogram : s.program = .program head trailing (front ++ n :: rest))
    (hspec : specifier? module options.exported n = some (i, localName)) :
    ∃ trailing' front' rest', (∀ P, List.Forall₂ (SameFor P) front front') ∧
      (∀ P, List.Forall₂ (SameFor P) rest rest') ∧
      ((importsOnly module options.exported n = true ∧
          (bind module options s front.length i localName).program =
            .program head trailing' (front' ++ rest')) ∨
        ∃ n', importsOnly module options.exported n = false ∧ SameFor (· ≠ module) n n' ∧
          (bind module options s front.length i localName).program =
            .program head trailing' (front' ++ n' :: rest')) := by
  obtain ⟨uid, scope, -, -, hbind⟩ := bind_spec module options s front.length i localName
  obtain ⟨stmtHead, specifiers, source, specifier, rfl, -, -⟩ := specifier?_spec hspec
  have hrenamed (P : Text → Prop) (ns : List Node) :
      List.Forall₂ (SameFor P) ns (ns.map (rename localName uid)) :=
    List.forall₂_map_right_iff.mpr
      (List.forall₂_same.mpr fun n _ => sameFor_rename localName uid n)
  have hlength : front.length = (front.map (rename localName uid)).length :=
    (List.length_map _).symm
  rw [hbind, hprogram, renameProgram, renameAll_eq_map, List.map_append, List.map_cons,
    rename_importDecl, hlength]
  by_cases hone : specifiers.length = 1
  · obtain ⟨specifier, rfl⟩ := List.length_eq_one_iff.mp hone
    obtain ⟨trailing', rest', hrest, htaken⟩ :=
      takeOut_only head stmtHead trailing (front.map (rename localName uid))
        (rest.map (rename localName uid)) (rename localName uid specifier)
        (rename localName uid source) i
    refine ⟨trailing', _, rest', fun P => hrenamed P front, fun P => ?_, .inl ⟨?_, htaken⟩⟩
    · exact allSame_trans (hrenamed P rest) (hrest.imp fun _ _ h => sameFor_of_sameBelow h)
    · rw [importsOnly_eq, hspec]
      rfl
  · have hmore : (specifiers.map (rename localName uid)).length ≠ 1 := by rwa [List.length_map]
    refine ⟨trailing, _, _, fun P => hrenamed P front, fun P => hrenamed P rest,
      .inr ⟨_, not_importsOnly_of_length hone, ?_, takeOut_more i hmore⟩⟩
    refine ⟨rfl, fun m hm e => ?_⟩
    have hsource := (samePart_rename localName uid source).string.trans (source_of_specifier? hspec)
    rw [not_importsOnly_of_length hone]
    exact not_importsOnly_of_source hsource hm

theorem bindFrom_remains {module : Text} {options : ModuleOptions} {head : Head} :
    ∀ (count : Nat) (s : State) (trailing : List Text) (front rest : List Node),
      rest.length ≤ count → s.program = .program head trailing (front ++ rest) →
      ∃ trailing' body', (bindFrom module options count front.length s).program =
          .program head trailing' body' ∧
        List.Forall₂ (SameFor (· ≠ module))
          (front ++ rest.filter fun n => !importsOnly module options.exported n) body' := by
  intro count
  induction count with
  | zero =>
    intro s trailing front rest hcount hprogram
    obtain rfl := List.eq_nil_of_length_eq_zero (Nat.le_zero.mp hcount)
    exact ⟨trailing, _, hprogram, List.forall₂_same.mpr fun n _ => .refl n⟩
  | succ count ih =>
    intro s trailing front rest hcount hprogram
    unfold bindFrom
    have hslot : s.program.slot "body" = front ++ rest := by rw [hprogram]; rfl
    simp only [hslot]
    cases rest with
    | nil =>
      rw [List.append_nil, List.getElem?_eq_none (Nat.le_refl _)]
      exact ⟨trailing, _, hprogram, List.forall₂_same.mpr fun n _ => .refl n⟩
    | cons n rest =>
      have hcount := Nat.le_of_succ_le_succ hcount
      rw [List.getElem?_append_right (Nat.le_refl _), Nat.sub_self, List.getElem?_cons_zero]
      dsimp only
      cases hspec : specifier? module options.exported n with
      | none =>
        -- the statement has nothing for the module
        have hnot := not_importsOnly_of_specifier? hspec
        obtain ⟨trailing', body', hbody, hremains⟩ := ih s trailing (front ++ [n]) rest hcount
          (by rw [hprogram, List.append_assoc]; rfl)
        rw [List.length_append] at hbody
        refine ⟨trailing', body', hbody, ?_⟩
        rw [List.filter_cons, hnot]
        simpa using hremains
      | some found =>
        obtain ⟨i, localName⟩ := found
        obtain ⟨trailing', front', rest', hfront, hrest, hbound⟩ := bind_remains hprogram hspec
        have hfrontLength := (hfront fun _ => True).length_eq
        have hrestLength := (hrest fun _ => True).length_eq
        have hfilter := (allSame_filter (p := fun n => !importsOnly module options.exported n)
          (fun a b h => by rw [h.importsOnly module trivial]) (hrest fun _ => True)).imp
            fun _ _ h => h.mono (Q := (· ≠ module)) fun _ _ => trivial
        dsimp only
        rcases hbound with ⟨honly, hbound⟩ | ⟨n', hnot, hsame, hbound⟩
        · -- the import is gone, and the next statement is at its place
          have hgone : ((bind module options s front.length i localName).program.slot
              "body").length < (front ++ n :: rest).length := by
            rw [hbound]
            change (front' ++ rest').length < _
            simp only [List.length_append, List.length_cons, hfrontLength, hrestLength]
            omega
          rw [if_pos hgone, hfrontLength]
          rw [hfrontLength] at hbound
          obtain ⟨trailing'', body', hbody, hremains⟩ :=
            ih _ trailing' front' rest' (hrestLength ▸ hcount) hbound
          refine ⟨trailing'', body', hbody, allSame_trans ?_ hremains⟩
          rw [List.filter_cons, honly]
          exact allSame_append (hfront _) hfilter
        · -- the import has other specifiers, and is behind the search from now on
          have hthere : ¬ ((bind module options s front.length i localName).program.slot
              "body").length < (front ++ n :: rest).length := by
            rw [hbound]
            change ¬ (front' ++ n' :: rest').length < _
            simp only [List.length_append, List.length_cons, hfrontLength, hrestLength]
            omega
          rw [if_neg hthere, hfrontLength]
          rw [hfrontLength] at hbound
          obtain ⟨trailing'', body', hbody, hremains⟩ :=
            ih _ trailing' (front' ++ [n']) rest' (hrestLength ▸ hcount)
              (by rw [hbound, List.append_assoc]; rfl)
          rw [List.length_append] at hbody
          refine ⟨trailing'', body', hbody, allSame_trans ?_ hremains⟩
          rw [List.filter_cons, hnot, List.append_assoc]
          exact allSame_append (hfront _) (.cons hsame hfilter)

/-! ## All modules -/

theorem isTaken_cons (module : Text) (options : ModuleOptions)
    (modules : List (Text × ModuleOptions)) (n : Node) :
    isTaken ((module, options) :: modules) n =
      (importsOnly module options.exported n || isTaken modules n) := rfl

theorem isTaken_of_sameFor {modules : List (Text × ModuleOptions)} (h : SameFor P a b)
    (hP : ∀ m ∈ modules, P m.1) : isTaken modules b = isTaken modules a := by
  induction modules with
  | nil => rfl
  | cons m rest ih =>
    rw [List.forall_mem_cons] at hP
    obtain ⟨module, options⟩ := m
    rw [isTaken_cons, isTaken_cons, h.importsOnly module hP.1, ih hP.2]

theorem resolve_remains {modules : List (Text × ModuleOptions)}
    (hmodules : (modules.map (·.1)).Nodup) {head : Head} :
    ∀ (s : State) (trailing : List Text) (body : List Node),
      s.program = .program head trailing body →
      ∃ trailing' body', (modules.foldl (fun s (module, options) =>
          bindFrom module options (s.program.slot "body").length 0 s) s).program =
          .program head trailing' body' ∧
        List.Forall₂ (SameFor fun _ => False) (body.filter fun n => !isTaken modules n) body' := by
  induction modules with
  | nil =>
    intro s trailing body hprogram
    have hall : (body.filter fun n => !isTaken [] n) = body :=
      List.filter_eq_self.mpr fun _ _ => rfl
    refine ⟨trailing, body, hprogram, ?_⟩
    rw [hall]
    exact List.forall₂_same.mpr fun n _ => .refl n
  | cons m rest ih =>
    obtain ⟨module, options⟩ := m
    intro s trailing body hprogram
    obtain ⟨hnew, hrest⟩ := List.nodup_cons.mp hmodules
    have hlength : body.length ≤ (s.program.slot "body").length := by
      rw [hprogram]
      exact Nat.le_refl _
    obtain ⟨trailing', body', hbody, hremains⟩ :=
      @bindFrom_remains module options head _ s trailing [] body hlength hprogram
    obtain ⟨trailing'', body'', hbody', hremains'⟩ := ih hrest _ trailing' body' hbody
    refine ⟨trailing'', body'', hbody', ?_⟩
    -- what the other modules take out does not depend on what this one did
    have hother : ∀ a b, SameFor (· ≠ module) a b → (!isTaken rest b) = !isTaken rest a :=
      fun a b h => congrArg not (isTaken_of_sameFor h fun m hm heq =>
        hnew (List.mem_map.mpr ⟨m, hm, heq⟩))
    have hstep := (allSame_filter hother hremains).imp
      fun _ _ h => h.mono (Q := fun _ => False) fun _ hfalse => hfalse.elim
    rw [List.nil_append, List.filter_filter] at hstep
    have htaken : (fun n => !isTaken ((module, options) :: rest) n) =
        fun n => !isTaken rest n && !importsOnly module options.exported n := by
      funext n
      rw [isTaken_cons, Bool.not_or, Bool.and_comm]
    rw [htaken]
    exact allSame_trans hstep hremains'

theorem isImport_of_isTaken {modules : List (Text × ModuleOptions)} {n : Node}
    (h : isTaken modules n) : n.isImport := by
  obtain ⟨⟨module, options⟩, -, honly⟩ := List.any_eq_true.mp h
  obtain ⟨head, specifier, source, rfl⟩ := eq_importDecl_of_importsOnly honly
  rfl

theorem countP_of_same {as bs : List Node} (h : List.Forall₂ (SameFor P) as bs) :
    bs.countP Node.isImport = as.countP Node.isImport := by
  induction h with
  | nil => rfl
  | cons h _ ih => rw [List.countP_cons, List.countP_cons, h.isImport, ih]

theorem countP_isImport_resolve {modules : List (Text × ModuleOptions)}
    (hmodules : (modules.map (·.1)).Nodup) (head : Head) (trailing : List Text) (body : List Node) :
    ((resolve modules (.program head trailing body)
        (Scope.ofProgram (.program head trailing body))).program.slot "body").countP Node.isImport +
      body.countP (isTaken modules) = body.countP Node.isImport := by
  obtain ⟨trailing', body', hbody, hremains⟩ := resolve_remains hmodules
    ⟨.program head trailing body, Scope.ofProgram (.program head trailing body), []⟩ trailing body
    rfl
  have hslot : (resolve modules (.program head trailing body)
      (Scope.ofProgram (.program head trailing body))).program.slot "body" = body' :=
    congrArg (Node.slot · "body") hbody
  have htaken : (body.filter (isTaken modules)).countP Node.isImport =
      body.countP (isTaken modules) := by
    rw [List.countP_filter]
    refine List.countP_congr fun n _ => ?_
    simp only [Bool.and_eq_true, and_iff_right_iff_imp]
    exact isImport_of_isTaken
  rw [hslot, countP_of_same hremains,
    List.countP_eq_countP_filter_add body Node.isImport (isTaken modules), htaken, Nat.add_comm]

/-! ## Fresh names -/

/-- The fresh names are names of the program from then on. -/
def KnowsFresh (s : State) : Prop := ∀ uid ∈ s.registry.map (·.1), uid ∈ s.scope.references

theorem bind_knowsFresh {module : Text} {options : ModuleOptions} {s : State} {index i : Nat}
    {localName : Text} (h : KnowsFresh s) :
    KnowsFresh (bind module options s index i localName) := by
  obtain ⟨uid, scope, -, hscope, hbind⟩ := bind_spec module options s index i localName
  rw [hbind]
  intro x hx
  rw [List.map_append, List.mem_append] at hx
  rw [hscope]
  rcases hx with hx | hx
  · exact List.mem_cons_of_mem _ (List.mem_cons_of_mem _ (h x hx))
  · rw [List.mem_singleton.mp hx]
    exact List.mem_cons_self

theorem bindFrom_keeps {I : State → Prop} {module : Text} {options : ModuleOptions}
    (hbind : ∀ s index i localName, I s → I (bind module options s index i localName)) :
    ∀ (count index : Nat) (s : State), I s → I (bindFrom module options count index s) := by
  intro count
  induction count with
  | zero => exact fun _ _ h => h
  | succ count ih =>
    intro index s h
    unfold bindFrom
    extract_lets statements
    split
    · exact h
    · split
      · exact ih _ _ h
      · exact ih _ _ (hbind _ _ _ _ h)

/-- What each step keeps that binds a specifier holds when the imports of all modules are
consumed. -/
theorem resolve_keeps {I : State → Prop}
    (hbind : ∀ module options s index i localName,
      I s → I (bind module options s index i localName))
    (modules : List (Text × ModuleOptions)) {program : Node} {scope : Scope}
    (hstart : I ⟨program, scope, []⟩) : I (resolve modules program scope) := by
  unfold resolve
  revert hstart
  generalize (⟨program, scope, []⟩ : State) = s
  intro hstart
  induction modules generalizing s with
  | nil => exact hstart
  | cons m rest ih => exact ih _ (bindFrom_keeps (hbind _ _) _ _ _ hstart)

theorem resolve_knowsFresh (modules : List (Text × ModuleOptions)) (program : Node)
    (scope : Scope) : KnowsFresh (resolve modules program scope) :=
  resolve_keeps (fun _ _ _ _ _ _ => bind_knowsFresh) modules fun _ h => absurd h List.not_mem_nil

end Bindings

end InlineTemplates
