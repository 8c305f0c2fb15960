import InlineTemplates.Proofs.ClausePlaces
import InlineTemplates.Proofs.OperatorPrinting

/-!
# Items of module clauses survive printing

An item in the braces of an import or an export is a name, or two names with `as` between them. It
is read back from its text, whatever the names are, unless the one in front of `as` is taken for
something else there: for `as` itself, or for a modifier of a member.
-/

namespace InlineTemplates

open Token (Kind Place)
open Token.Place (InClauseOf Lays EndsItem IsItemWord alone takenInFront)
open Lexeme (EndsName Spells)

/-! ## Texts in words -/

def CutInto (t : Text) (ws : List Word) : Prop :=
  ∀ (rest : Text) (wr : List Word), EndsName rest → Spells rest wr → Spells (t ++ rest) (ws ++ wr)

namespace CutInto

variable {t u : Text} {ws vs : List Word}

theorem nil : CutInto [] [] := fun _ _ _ h => h

theorem append (h : CutInto t ws) (h' : CutInto u vs)
    (hu : ∀ rest, EndsName rest → EndsName (u ++ rest)) : CutInto (t ++ u) (ws ++ vs) := by
  intro rest wr hrest hspells
  rw [List.append_assoc, List.append_assoc]
  exact h _ _ (hu rest hrest) (h' rest wr hrest hspells)

theorem word {w : Word} (hne : w.text ≠ []) (hnext : ∀ rest, EndsName rest →
      Lexeme.next? (w.text ++ (t ++ rest)) = some (.token w.kind, w.text.length))
    (h : CutInto t ws) : CutInto (w.text ++ t) (w :: ws) := by
  intro rest wr hrest hspells
  rw [List.append_assoc, List.cons_append]
  exact .word hne (hnext rest hrest) (h rest wr hrest hspells)

theorem name {x : Text} (hx : Identifier.hasForm x) : CutInto x [⟨Lexeme.nameKind x, x⟩] := by
  have h := word (w := ⟨Lexeme.nameKind x, x⟩) (Spelt.ne_nil_of_hasForm hx)
    (fun rest hrest => by simpa using Lexeme.next?_name hx hrest) nil
  rwa [List.append_nil] at h

theorem string (x : Text) : CutInto x.stringLiteral [⟨.string, x.stringLiteral⟩] :=
  fun _ _ => (Spelt.string x).spells

def signs : List (String × Kind) := [
  (",", .comma), ("\x7b", .leftBrace), ("\x7d", .rightBrace), (";", .semicolon)]

theorem next?_sign (rest : Text) : ∀ p ∈ signs,
    Lexeme.next? (Text.ofString p.1 ++ rest) = some (.token p.2, p.1.length) := by
  simp only [signs, List.forall_mem_cons, List.not_mem_nil, false_implies, implies_true, and_true]
  repeat' apply And.intro
  all_goals rfl

theorem sign {p : String × Kind} (hp : p ∈ signs) :
    CutInto (Text.ofString p.1) [⟨p.2, p.1⟩] := by
  have hall : ∀ p ∈ signs, Text.ofString p.1 ≠ [] ∧
      (Text.ofString p.1).length = p.1.length := by decide
  obtain ⟨hne, hlength⟩ := hall p hp
  have h := word (w := ⟨p.2, p.1⟩) hne (fun rest _ => by rw [next?_sign _ p hp, hlength]) nil
  rwa [List.append_nil] at h

theorem blank (h : CutInto t ws) (ht : t.StartsVisibly) :
    CutInto (CodePoint.scalar ' ' :: t) ws := by
  obtain ⟨c, u, rfl, hc⟩ := ht
  intro rest wr hrest hspells
  exact .blank (Lexeme.next?_blank hc (u ++ rest)) (h rest wr hrest hspells)

theorem spaced (h : CutInto t ws) (h' : CutInto u vs) (hu : u.StartsVisibly) :
    CutInto (t ++ CodePoint.scalar ' ' :: u) (ws ++ vs) :=
  h.append (h'.blank hu) fun _ _ => (Lexeme.endsName_cons _ _).2 (by decide)

theorem star (h : CutInto t ws) (ht : t.StartsVisibly) :
    CutInto (Text.ofString "*" ++ CodePoint.scalar ' ' :: t) (⟨.star, "*"⟩ :: ws) :=
  word (w := ⟨.star, "*"⟩) (List.cons_ne_nil _ _) (fun _ _ => rfl) (h.blank ht)

end CutInto

theorem Text.StartsVisibly.append {t : Text} (h : t.StartsVisibly) (u : Text) :
    (t ++ u).StartsVisibly := by
  obtain ⟨c, rest, rfl, hc⟩ := h
  exact ⟨c, rest ++ u, rfl, hc⟩

theorem Text.startsVisibly_of_hasForm {x : Text} (hx : Identifier.hasForm x) : x.StartsVisibly := by
  obtain ⟨c, y, rfl⟩ := List.exists_cons_of_ne_nil (Spelt.ne_nil_of_hasForm hx)
  have := CodePoint.isNameStart_iff.1 (Bool.and_eq_true_iff.1 hx).1
  exact ⟨c, y, rfl, by omega⟩

theorem Text.startsVisibly_stringLiteral (x : Text) : x.stringLiteral.StartsVisibly := by
  rw [Text.stringLiteral_eq]
  exact ⟨_, _, rfl, by decide⟩

/-! ## Texts in places -/

/-- From each place of which `start` holds, the text is cut into the words, and these get the roles
in front of words of which `ahead` holds. `ends` holds of the place behind them. -/
structure LaysOut (start : Place → Prop) (t : Text) (ws roles : List Word) (ends : Place → Prop)
    (ahead : List Word → Prop) : Prop where
  cut : CutInto t ws
  lays {p : Place} (hp : start p) : ∃ q, ends q ∧ Lays p ws roles q ahead

namespace LaysOut

variable {start start' mid ends ends' : Place → Prop} {ahead ahead' : List Word → Prop}
  {t u : Text} {ws vs roles roles' : List Word} {braces : Bool}

theorem nil : LaysOut start [] [] [] start ahead :=
  ⟨.nil, fun {p} hp => ⟨p, hp, Token.Place.lays_nil⟩⟩

theorem append (h : LaysOut start t ws roles mid ahead)
    (h' : LaysOut mid u vs roles' ends ahead') (hu : ∀ rest, EndsName rest → EndsName (u ++ rest))
    (hahead : ∀ rest, ahead' rest → ahead (vs ++ rest)) :
    LaysOut start (t ++ u) (ws ++ vs) (roles ++ roles') ends ahead' := by
  refine ⟨h.cut.append h'.cut hu, fun hp => ?_⟩
  obtain ⟨q, hq, hlays⟩ := h.lays hp
  obtain ⟨q', hq', hlays'⟩ := h'.lays hq
  exact ⟨q', hq', hlays.trans hlays' hahead⟩

theorem blank (h : LaysOut start t ws roles ends ahead) (ht : t.StartsVisibly) :
    LaysOut start (CodePoint.scalar ' ' :: t) ws roles ends ahead :=
  ⟨h.cut.blank ht, h.lays⟩

theorem spaced (h : LaysOut start t ws roles mid ahead) (h' : LaysOut mid u vs roles' ends ahead')
    (hu : u.StartsVisibly) (hahead : ∀ rest, ahead' rest → ahead (vs ++ rest)) :
    LaysOut start (t ++ CodePoint.scalar ' ' :: u) (ws ++ vs) (roles ++ roles') ends ahead' :=
  h.append (h'.blank hu) (fun _ _ => (Lexeme.endsName_cons _ _).2 (by decide)) hahead

theorem weaken (h : LaysOut start t ws roles ends ahead) (hstart : ∀ p, start' p → start p)
    (hends : ∀ p, ends p → ends' p) (hahead : ∀ rest, ahead' rest → ahead rest) :
    LaysOut start' t ws roles ends' ahead' := by
  refine ⟨h.cut, fun hp => ?_⟩
  obtain ⟨q, hq, hlays⟩ := h.lays (hstart _ hp)
  exact ⟨q, hends _ hq, hlays.weaken hahead⟩

end LaysOut

/-! ## Names -/

namespace Node

/-- A name on one side of `as`: an identifier, `default` or a string. -/
inductive IsModuleName : Node → Prop
  | ident {loc : Option Location} {x : Text} (hx : x.IsIdentifier) :
    IsModuleName (.name ⟨loc, []⟩ x)
  | default {loc : Option Location} : IsModuleName (.name ⟨loc, []⟩ "default")
  | string {loc : Option Location} (t : Text) : IsModuleName (.literal ⟨loc, []⟩ (.str t))

def moduleWord (n : Node) : Word :=
  ⟨if n.string?.isSome then .string else Lexeme.nameKind (Print.moduleName n), Print.moduleName n⟩

variable {n : Node}

theorem moduleWord_ident {loc : Option Location} {x : Text} (hx : x.IsIdentifier) :
    moduleWord (.name ⟨loc, []⟩ x) = ⟨.name, x⟩ := by
  simp [moduleWord, Print.moduleName, string?, ident?, hx.free]

theorem isItemWord_moduleWord (h : n.IsModuleName) : IsItemWord n.moduleWord := by
  cases h with
  | ident hx => exact .inl (by rw [moduleWord_ident hx])
  | default => exact .inr (.inl rfl)
  | string t => exact .inr (.inr rfl)

theorem cutInto_moduleName (h : n.IsModuleName) :
    CutInto (Print.moduleName n) [n.moduleWord] ∧ (Print.moduleName n).StartsVisibly := by
  cases h with
  | ident hx =>
    rw [moduleWord_ident hx]
    have hcut := CutInto.name hx.form
    rw [hx.free] at hcut
    exact ⟨hcut, Text.startsVisibly_of_hasForm hx.form⟩
  | default => exact ⟨CutInto.name rfl, Text.startsVisibly_of_hasForm rfl⟩
  | string t => exact ⟨CutInto.string t, Text.startsVisibly_stringLiteral t⟩

end Node

namespace Grammar

open Parse

theorem string_eq (r : Reader) {t : Token} {x : Text} (ht : t.text = x.stringLiteral) :
    r.string t = .ok (.literal (.ofLoc t.start) (.str x)) := by
  rw [Reader.string, Reader.unescape, unescaped_inside ht]
  rfl

/-- A token with the word is read as the name, also where `default` counts as a name. -/
theorem exportName_eq {n : Node} (h : n.IsModuleName) (r : Reader) {t : Token}
    (ht : t.word = n.moduleWord ∨ t.word = alone n.moduleWord) :
    ∃ m : Node, m.unplaced = n.unplaced ∧
      ∀ rest, exportName r (t :: rest) = .ok (.ok m, rest) := by
  cases h with
  | @ident loc x hx =>
    have hword : t.word = ⟨.name, x⟩ := by
      rcases ht with ht | ht <;> rw [ht, Node.moduleWord_ident hx]
      rfl
    obtain ⟨hkind, rfl⟩ := Word.mk.inj hword
    refine ⟨Reader.name t, by simp [Reader.name, Head.ofLoc], fun rest => ?_⟩
    simp only [exportName, run_next, hkind]
    rfl
  | default =>
    have hword : (t.kind = .name ∨ t.kind = .defaultWord) ∧ t.text = "default" := by
      rcases ht with ht | ht <;> obtain ⟨hkind, htext⟩ := Word.mk.inj ht
      · exact ⟨.inr hkind, htext⟩
      · exact ⟨.inl hkind, htext⟩
    refine ⟨Reader.name t, by simp [Reader.name, Head.ofLoc, hword.2], fun rest => ?_⟩
    rcases hword.1 with hkind | hkind <;> simp only [exportName, run_next, hkind] <;> rfl
  | string x =>
    have hword : t.word = ⟨.string, x.stringLiteral⟩ := by
      rcases ht with ht | ht <;> rw [ht] <;> rfl
    obtain ⟨hkind, htext⟩ := Word.mk.inj hword
    refine ⟨.literal (.ofLoc t.start) (.str x), by simp [Head.ofLoc], fun rest => ?_⟩
    simp only [exportName, run_next, hkind, string_eq r htext]
    rfl

/-! ## Items -/

/-- The tokens are read as the item, where no `as` goes on with it. They do not look like the end
of the braces. -/
def ReadsItem (rule : Parse Draft) (n : Node) (ts : List Token) : Prop :=
  ∃ t us, ts = t :: us ∧ t.kind ≠ .rightBrace ∧ ∀ rest : List Token,
    rest.head?.map Token.kind ≠ some .asWord → rule (t :: us ++ rest) = .ok (.ok n, rest)

/-- Where an item starts in the braces of a clause. -/
structure ItemStart (p : Place) : Prop extends InClauseOf true p where
  starts : p.startsItem

/-- In the braces of a clause the text is read as the item. -/
structure ShowsItem (rule : Parse Draft) (n : Node) (t : Text) (ws roles : List Word) : Prop
    extends LaysOut ItemStart t ws roles (InClauseOf true) EndsItem where
  visibly : t.StartsVisibly
  makes : Makes (ReadsItem rule) n roles

theorem isItemWord_ne {w : Word} (h : IsItemWord w) :
    w.kind ≠ .rightBrace ∧ (alone w).kind ≠ .rightBrace := by
  rcases h with h | rfl | h
  · simp [alone, h]
  · decide
  · simp [alone, h]

theorem showsItem_alone {rule : Parse Draft} {n name : Node} (hname : name.IsModuleName)
    (hread : ∀ t : Token, t.word = alone name.moduleWord → ∃ m : Node, m.unplaced = n.unplaced ∧
      ∀ rest : List Token, rest.head?.map Token.kind ≠ some .asWord →
        rule (t :: rest) = .ok (.ok m, rest)) :
    ShowsItem rule n (Print.moduleName name) [name.moduleWord] [alone name.moduleWord] := by
  have hword := Node.isItemWord_moduleWord hname
  obtain ⟨hcut, hvisibly⟩ := Node.cutInto_moduleName hname
  refine ⟨⟨hcut, fun hp => hp.toInClauseOf.lays_alone hp.starts hword⟩, hvisibly,
    fun ts hts => ?_⟩
  obtain ⟨t, rfl, ht⟩ := List.map_eq_singleton_iff.1 hts
  obtain ⟨m, hm, hall⟩ := hread t ht
  refine ⟨m, hm, t, [], rfl, ?_, hall⟩
  rw [kind_of_word ht]
  exact (isItemWord_ne hword).2

theorem showsItem_renamed {rule : Parse Draft} {n outer inner : Node} (houter : outer.IsModuleName)
    (hinner : inner.IsModuleName) (hfree : Print.moduleName outer ∉ takenInFront)
    (hread : ∀ a b c : Token, a.word = outer.moduleWord → b.kind = .asWord →
      c.word = inner.moduleWord → ∃ m : Node, m.unplaced = n.unplaced ∧
        ∀ rest, rule (a :: b :: c :: rest) = .ok (.ok m, rest)) :
    ShowsItem rule n (Print.moduleName outer ++ " as " ++ Print.moduleName inner)
      [outer.moduleWord, ⟨.name, "as"⟩, inner.moduleWord]
      [outer.moduleWord, ⟨.asWord, "as"⟩, inner.moduleWord] := by
  obtain ⟨hcut, hvisibly⟩ := Node.cutInto_moduleName houter
  obtain ⟨hcut', hvisibly'⟩ := Node.cutInto_moduleName hinner
  have hword := Node.isItemWord_moduleWord houter
  have has : CutInto "as" [⟨.name, "as"⟩] := CutInto.name rfl
  have hvisiblyAs : Text.StartsVisibly "as" := ⟨_, _, rfl, by decide⟩
  refine ⟨⟨?_, fun hp => ?_⟩, ?_, fun ts hts => ?_⟩
  · have hboth := hcut.spaced (has.spaced hcut' hvisibly') (hvisiblyAs.append _)
    have htext : Text.ofString " as " = CodePoint.scalar ' ' :: (Text.ofString "as" ++
        [CodePoint.scalar ' ']) := rfl
    simpa [htext] using hboth
  · exact hp.toInClauseOf.lays_renamed hp.starts hword (Node.isItemWord_moduleWord hinner)
      fun _ => hfree
  · rw [List.append_assoc]
    exact hvisibly.append _
  · obtain ⟨a, us, rfl, ha, hus⟩ := List.map_eq_cons_iff.1 hts
    obtain ⟨b, us, rfl, hb, hus⟩ := List.map_eq_cons_iff.1 hus
    obtain ⟨c, rfl, hc⟩ := List.map_eq_singleton_iff.1 hus
    obtain ⟨m, hm, hall⟩ := hread a b c ha (kind_of_word hb) hc
    refine ⟨m, hm, a, [b, c], rfl, ?_, fun rest _ => hall rest⟩
    rw [kind_of_word ha]
    exact (isItemWord_ne hword).1

end Grammar

namespace Node

/-- An import of a list that is read back as it is printed. -/
inductive IsImportItem : Node → Prop
  | mk {loc loc' : Option Location} {imported : Node} {x : Text} (himported : imported.IsModuleName)
    (hx : x.IsIdentifier)
    (hfree : Print.moduleName imported = x ∨ Print.moduleName imported ∉ takenInFront) :
    IsImportItem (.importNamed ⟨loc, []⟩ imported (.name ⟨loc', []⟩ x))

/-- An export of a list that is read back as it is printed, or without a name that it repeats. -/
inductive IsExportItem : Node → Prop
  | plain {loc : Option Location} {n : Node} (hn : n.IsModuleName) :
    IsExportItem (.exportSpecifier ⟨loc, []⟩ n [])
  | renamed {loc : Option Location} {n exported : Node} (hn : n.IsModuleName)
    (hexported : exported.IsModuleName)
    (hfree : Print.moduleName n = Print.moduleName exported ∨
      Print.moduleName n ∉ takenInFront) :
    IsExportItem (.exportSpecifier ⟨loc, []⟩ n [exported])

/-- The export without the name that it gets, where that is the name that it has. -/
def exportOnce : Node → Node
  | .exportSpecifier head n [exported] =>
    if Print.moduleName n = Print.moduleName exported then .exportSpecifier head n []
    else .exportSpecifier head n [exported]
  | n => n

end Node

namespace Grammar

open Parse

variable {r : Reader}

theorem importSpecifier_alone {t : Token} (ht : t.kind = .name) {rest : List Token}
    (hrest : rest.head?.map Token.kind ≠ some .asWord) :
    importSpecifier r (t :: rest) = .ok (.ok (.importNamed (.ofLoc t.start) (Reader.name t)
      (Reader.name t)), rest) := by
  have hname : exportName r (t :: rest) = .ok (.ok (Reader.name t), rest) := by
    simp only [exportName, run_next, ht]
    rfl
  have hnone : renamed? plainName rest = .ok (none, rest) := by
    rw [renamed?, run_accept?_none hrest]
    rfl
  rw [importSpecifier, run_here, run_bind hname, run_bind hnone]
  rfl

theorem importSpecifier_renamed {a b c : Token} {m : Node} {rest : List Token}
    (ha : exportName r (a :: b :: c :: rest) = .ok (.ok m, b :: c :: rest))
    (hb : b.kind = .asWord) (hc : c.kind = .name) :
    importSpecifier r (a :: b :: c :: rest) =
      .ok (.ok (.importNamed (.ofLoc a.start) m (Reader.name c)), rest) := by
  have hname : plainName (c :: rest) = .ok (.ok (Reader.name c), rest) := by
    rw [plainName, run_expect hc]
    rfl
  have hsome : renamed? plainName (b :: c :: rest) = .ok (some (.ok (Reader.name c)), rest) := by
    rw [renamed?, run_accept? hb]
    simp only [run_bind hname]
    rfl
  rw [importSpecifier, run_here, run_bind ha, run_bind hsome]
  rfl

theorem exportSpecifier_alone {t : Token} {m : Node} {rest : List Token}
    (ht : exportName r (t :: rest) = .ok (.ok m, rest))
    (hrest : rest.head?.map Token.kind ≠ some .asWord) :
    exportSpecifier r (t :: rest) = .ok (.ok (.exportSpecifier (.ofLoc t.start) m []), rest) := by
  have hnone : renamed? (exportName r) rest = .ok (none, rest) := by
    rw [renamed?, run_accept?_none hrest]
    rfl
  rw [exportSpecifier, run_here, run_bind ht, run_bind hnone]
  rfl

theorem exportSpecifier_renamed {a b c : Token} {m k : Node} {rest : List Token}
    (ha : exportName r (a :: b :: c :: rest) = .ok (.ok m, b :: c :: rest))
    (hb : b.kind = .asWord) (hc : exportName r (c :: rest) = .ok (.ok k, rest)) :
    exportSpecifier r (a :: b :: c :: rest) =
      .ok (.ok (.exportSpecifier (.ofLoc a.start) m [k]), rest) := by
  have hsome : renamed? (exportName r) (b :: c :: rest) = .ok (some (.ok k), rest) := by
    rw [renamed?, run_accept? hb]
    simp only [run_bind hc]
    rfl
  rw [exportSpecifier, run_here, run_bind ha, run_bind hsome]
  rfl

theorem ne_stringLiteral {x t : Text} (hx : x.IsIdentifier) : x ≠ t.stringLiteral := by
  have hquote : (CodePoint.scalar '"').isNameStart = false := by decide
  rw [Text.stringLiteral_eq]
  rintro rfl
  exact absurd hx.form (by simp [Identifier.hasForm, hquote])

theorem showsItem_import {n : Node} (h : n.IsImportItem) :
    ∃ t, Print.importNamed? n = some t ∧ ∃ ws roles,
      ShowsItem (importSpecifier r) n t ws roles := by
  obtain @⟨loc, loc', imported, x, himported, hx, hfree⟩ := h
  refine ⟨Print.renamed (Print.moduleName imported) x, rfl, ?_⟩
  by_cases heq : Print.moduleName imported = x
  · rw [Print.renamed, if_pos heq]
    refine ⟨_, _, showsItem_alone himported fun t ht => ?_⟩
    cases himported with
    | @ident _ y hy =>
      obtain rfl : y = x := heq
      rw [Node.moduleWord_ident hy] at ht
      obtain ⟨hkind, htext⟩ := Word.mk.inj ht
      exact ⟨_, by simp [Reader.name, Head.ofLoc, htext], fun rest hrest =>
        importSpecifier_alone hkind hrest⟩
    | default =>
      obtain rfl : Text.ofString "default" = x := heq
      exact absurd hx.free (by decide)
    | string t => exact absurd heq.symm (ne_stringLiteral hx)
  · rw [Print.renamed, if_neg heq]
    have hinner : Node.IsModuleName (.name ⟨loc', []⟩ x) := .ident hx
    refine ⟨_, _, showsItem_renamed himported hinner (hfree.resolve_left heq)
      fun a b c ha hb hc => ?_⟩
    obtain ⟨m, hm, hall⟩ := exportName_eq himported r (.inl ha)
    rw [Node.moduleWord_ident hx] at hc
    obtain ⟨hkind, htext⟩ := Word.mk.inj hc
    exact ⟨_, by simp [Reader.name, Head.ofLoc, htext, hm], fun rest =>
      importSpecifier_renamed (hall _) hb hkind⟩

theorem showsItem_export {n : Node} (h : n.IsExportItem) :
    ∃ ws roles, ShowsItem (exportSpecifier r) n.exportOnce (Print.exportSpecifier n) ws roles := by
  cases h with
  | @plain loc n hn =>
    refine ⟨_, _, showsItem_alone hn fun t ht => ?_⟩
    obtain ⟨m, hm, hall⟩ := exportName_eq hn r (.inr ht)
    exact ⟨_, by simp [Node.exportOnce, Head.ofLoc, hm], fun rest hrest =>
      exportSpecifier_alone (hall rest) hrest⟩
  | @renamed loc n exported hn hexported hfree =>
    simp only [Print.exportSpecifier, Print.renamed, Node.exportOnce]
    by_cases heq : Print.moduleName n = Print.moduleName exported
    · rw [if_pos heq, if_pos heq]
      refine ⟨_, _, showsItem_alone hn fun t ht => ?_⟩
      obtain ⟨m, hm, hall⟩ := exportName_eq hn r (.inr ht)
      exact ⟨_, by simp [Head.ofLoc, hm], fun rest hrest =>
        exportSpecifier_alone (hall rest) hrest⟩
    · rw [if_neg heq, if_neg heq]
      refine ⟨_, _, showsItem_renamed hn hexported (hfree.resolve_left heq)
        fun a b c ha hb hc => ?_⟩
      obtain ⟨m, hm, hall⟩ := exportName_eq hn r (.inl ha)
      obtain ⟨k, hk, hall'⟩ := exportName_eq hexported r (.inl hc)
      exact ⟨_, by simp [Head.ofLoc, hm, hk], fun rest =>
        exportSpecifier_renamed (hall _) hb (hall' rest)⟩

end Grammar

end InlineTemplates
