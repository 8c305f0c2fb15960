import InlineTemplates.Proofs.ClauseLists

/-!
# Module clauses survive printing

A module of imports and of exports of lists is read back from its text: the same declarations in the
same order, but that an export under its own name is read without `as`. The names may be any
identifiers. Only a default or a namespace cannot be called `as` in front of `from`, and an item
cannot be renamed from a word that is taken for something else in front of `as`.
-/

namespace InlineTemplates

open Token (Kind Place)
open Token.Place (InClauseOf LineStart Lays EndsItem IsItemWord)
open Lexeme (EndsName Spells)

namespace Print

/-- What an import prints in front of `from`. -/
def importHeads (specifiers : List Node) : List Text :=
  let named := specifiers.filterMap importNamed?
  specifiers.filterMap importHead? ++
    if named.isEmpty then [] else ["\x7b " ++ commas named ++ " \x7d"]

theorem importDecl_eq (specifiers : List Node) (source : Node) :
    importDecl specifiers source = "import " ++
      Text.when (!specifiers.isEmpty) (commas (importHeads specifiers) ++ " from ") ++
        sourceText source ++ ";" := rfl

theorem commas_singleton (t : Text) : commas [t] = t := by
  rw [commas_cons]
  exact List.append_nil t

end Print

namespace Node

/-- What an import can bind behind a default: a namespace or a list. -/
inductive IsImportRest : List Node → Prop
  | whole {loc loc' : Option Location} {x : Text} (hx : x.IsIdentifier) (hne : x ≠ "as") :
    IsImportRest [.importNamespace ⟨loc, []⟩ (.name ⟨loc', []⟩ x)]
  | items {n : Node} {ns : List Node} (h : ∀ m ∈ n :: ns, m.IsImportItem) :
    IsImportRest (n :: ns)

inductive IsImportClause : List Node → Prop
  | rest {ns : List Node} (h : IsImportRest ns) : IsImportClause ns
  | default {loc loc' : Option Location} {x : Text} (hx : x.IsIdentifier) (hne : x ≠ "as") :
    IsImportClause [.importDefault ⟨loc, []⟩ (.name ⟨loc', []⟩ x)]
  | both {loc loc' : Option Location} {x : Text} {ns : List Node} (hx : x.IsIdentifier)
    (h : IsImportRest ns) : IsImportClause (.importDefault ⟨loc, []⟩ (.name ⟨loc', []⟩ x) :: ns)

inductive IsSource : Node → Prop
  | mk {loc : Option Location} (t : Text) : IsSource (.literal ⟨loc, []⟩ (.str t))

/-- An import, or an export of a list, that is read back as it is printed. -/
inductive IsModuleClause : Node → Prop
  | bare {loc : Option Location} {source : Node} (hsource : source.IsSource) :
    IsModuleClause (.importDecl ⟨loc, []⟩ [] source)
  | imports {loc : Option Location} {ns : List Node} {source : Node} (h : IsImportClause ns)
    (hsource : source.IsSource) : IsModuleClause (.importDecl ⟨loc, []⟩ ns source)
  | exports {loc : Option Location} {ns : List Node} (h : ∀ n ∈ ns, n.IsExportItem) :
    IsModuleClause (.exportNamed ⟨loc, []⟩ [] ns [])
  | reexports {loc : Option Location} {ns : List Node} {source : Node}
    (h : ∀ n ∈ ns, n.IsExportItem) (hsource : source.IsSource) :
    IsModuleClause (.exportNamed ⟨loc, []⟩ [] ns [source])

/-- The clause in which no export repeats its name. -/
def clauseOnce : Node → Node
  | .exportNamed head declaration specifiers source =>
    .exportNamed head declaration (specifiers.map exportOnce) source
  | n => n

end Node

namespace Grammar

open Parse

/-! ## Pieces of clauses -/

theorem laysOut_semicolon : LaysOut (InClauseOf false) (Text.ofString ";") [⟨.semicolon, ";"⟩]
    [⟨.terminator, ";"⟩] LineStart fun _ => True :=
  ⟨.sign (p := (";", .semicolon)) (by decide), fun hp =>
    ⟨_, hp.lineStart, Token.Place.lays_semicolon _ _⟩⟩

theorem laysOut_string (x : Text) : LaysOut (InClauseOf false) x.stringLiteral
    [⟨.string, x.stringLiteral⟩] [⟨.string, x.stringLiteral⟩] (InClauseOf false)
      fun _ => True :=
  ⟨.string x, fun hp => ⟨_, hp.lays_sign (w := ⟨.string, x.stringLiteral⟩) (.inl rfl)⟩⟩

theorem laysOut_opening {w : Word}
    (hw : w = ⟨.importWord, "import"⟩ ∨ w = ⟨.exportWord, "export"⟩) :
    LaysOut LineStart w.text [w] [w] BraceStart fun _ => True := by
  have hcut : CutInto w.text [w] := by
    rcases hw with rfl | rfl <;> exact CutInto.name rfl
  refine ⟨hcut, fun hp => ?_⟩
  obtain ⟨hclause, hlays⟩ := hp.lays_opening (w := w) (by rcases hw with rfl | rfl <;> simp)
  exact ⟨_, ⟨hclause, by rcases hw with rfl | rfl <;> rfl⟩, hlays⟩

def BeforeSource (ws : List Word) : Prop :=
  ∃ v vs, ws = ⟨.name, "from"⟩ :: v :: vs ∧ v.kind = .string

theorem laysOut_source (x : Text) :
    LaysOut (InClauseOf false) (Text.ofString "from" ++ CodePoint.scalar ' ' :: x.stringLiteral)
      [⟨.name, "from"⟩, ⟨.string, x.stringLiteral⟩]
      [⟨.fromWord, "from"⟩, ⟨.string, x.stringLiteral⟩] (InClauseOf false) fun _ => True := by
  have hfrom : LaysOut (InClauseOf false) (Text.ofString "from") [⟨.name, "from"⟩]
      [⟨.fromWord, "from"⟩] (InClauseOf false) fun ws => ∃ v ∈ ws.head?, v.kind = .string :=
    ⟨.name rfl, fun hp => ⟨_, hp.lays_from⟩⟩
  exact hfrom.spaced (laysOut_string x) (Text.startsVisibly_stringLiteral x)
    fun _ _ => ⟨_, rfl, rfl⟩

theorem laysOut_local {x : Text} (hx : x.IsIdentifier) (hne : x ≠ "as") :
    LaysOut (InClauseOf false) x [⟨.name, x⟩] [⟨.name, x⟩] (InClauseOf false) BeforeSource := by
  have hcut := CutInto.name hx.form
  rw [hx.free] at hcut
  exact ⟨hcut, fun hp => ⟨_, hp.lays_name (.inl rfl) fun _ _ ht hrest =>
    hp.nameRole_from (ht ▸ hne) hrest⟩⟩

/-! ## What an import binds -/

section Imports

variable {r : Reader} {ns : List Node}

def ReadsRest (r : Reader) (ns : List Node) (ts : List Token) : Prop :=
  ∃ t us, ts = t :: us ∧ (t.kind = .star ∨ t.kind = .leftBrace) ∧ ∀ rest : List Token,
    importRest r (t :: us ++ rest) = .ok (.ok ns, rest)

def ReadsClause (r : Reader) (ns : List Node) (ts : List Token) : Prop :=
  ∃ t us, ts = t :: us ∧ t.kind ≠ .string ∧ ∀ (f : Token) (rest : List Token),
    f.kind = .fromWord → importClause r (t :: us ++ f :: rest) = .ok (.ok ns, f :: rest)

theorem filterMap_importHead? (h : ∀ n ∈ ns, n.IsImportItem) :
    ns.filterMap Print.importHead? = [] := by
  rw [List.filterMap_eq_nil_iff]
  intro n hn
  obtain ⟨-, -, -⟩ := h n hn
  rfl

theorem readsRest_whole {s a x : Token} (hs : s.kind = .star) (ha : a.kind = .asWord)
    (hx : x.kind = .name) :
    ReadsRest r [.importNamespace (.ofLoc s.start) (Reader.name x)] [s, a, x] := by
  refine ⟨s, [a, x], rfl, .inl hs, fun rest => ?_⟩
  have hnamespace : importNamespace (s :: a :: x :: rest) =
      .ok (.ok (.importNamespace (.ofLoc s.start) (Reader.name x)), rest) := by
    rw [importNamespace, run_expect hs, run_expect ha, run_expect hx]
    rfl
  simp only [List.cons_append, List.nil_append, importRest, run_atKind, List.head?_cons,
    Option.map_some, hs, decide_true, if_true, run_bind hnamespace]
  rfl

theorem readsRest_items {ts : List Token} (h : ReadsBraces (importSpecifier r) ns ts) :
    ReadsRest r ns ts := by
  obtain ⟨o, us, rfl, ho, hread⟩ := h
  refine ⟨o, us, rfl, .inr ho, fun rest => ?_⟩
  have hlist : importList r (o :: (us ++ rest)) = .ok (.ok ns, rest) := by
    rw [importList, run_expect ho, run_bind (hread rest), mapM_ok]
    rfl
  simp only [List.cons_append, importRest, run_atKind, List.head?_cons, Option.map_some,
    Option.some.injEq, ho]
  exact hlist

theorem readsClause_rest {ts : List Token} (h : ReadsRest r ns ts) : ReadsClause r ns ts := by
  obtain ⟨t, us, rfl, ht, hread⟩ := h
  have hne : t.kind ≠ .string ∧ t.kind ≠ .name := by
    rcases ht with ht | ht <;> rw [ht] <;> decide
  refine ⟨t, us, rfl, hne.1, fun f rest _ => ?_⟩
  have hnone : (t :: us ++ f :: rest).head?.map Token.kind ≠ some .name := by simp [hne.2]
  rw [importClause, run_accept?_none hnone]
  exact hread (f :: rest)

theorem readsClause_default {t : Token} (ht : t.kind = .name) :
    ReadsClause r [.importDefault (.ofLoc t.start) (Reader.name t)] [t] := by
  refine ⟨t, [], rfl, by simp [ht], fun f rest hf => ?_⟩
  have hnone : (f :: rest).head?.map Token.kind ≠ some .comma := by simp [hf]
  rw [List.singleton_append, importClause, run_accept? ht]
  simp only [run_accept?_none hnone]
  rfl

theorem readsClause_both {t c : Token} {ts : List Token} (ht : t.kind = .name)
    (hc : c.kind = .comma) (h : ReadsRest r ns ts) :
    ReadsClause r (.importDefault (.ofLoc t.start) (Reader.name t) :: ns) (t :: c :: ts) := by
  obtain ⟨u, us, rfl, -, hread⟩ := h
  refine ⟨t, _, rfl, by simp [ht], fun f rest _ => ?_⟩
  simp only [List.cons_append]
  rw [importClause, run_accept? ht]
  simp only [run_accept? hc]
  have hrest := hread (f :: rest)
  simp only [List.cons_append] at hrest
  rw [run_bind hrest]
  rfl

theorem showsRest (h : Node.IsImportRest ns) : ∃ t ws roles, Print.importHeads ns = [t] ∧
    t.StartsVisibly ∧ LaysOut BraceStart t ws roles (InClauseOf false) BeforeSource ∧
      MakesAll (ReadsRest r) ns roles := by
  cases h with
  | @whole loc loc' x hx hne =>
    have hlocal := laysOut_local hx hne
    have has : LaysOut (InClauseOf false) (Text.ofString "as") [⟨.name, "as"⟩] [⟨.asWord, "as"⟩]
        (InClauseOf false) fun ws => ∃ v ∈ ws.head?, IsItemWord v :=
      ⟨.name rfl, fun hp => ⟨_, hp.lays_as⟩⟩
    have hrenamed := has.spaced hlocal (Text.startsVisibly_of_hasForm hx.form)
      fun _ _ => ⟨_, rfl, .inl rfl⟩
    have hcut := CutInto.star hrenamed.cut ⟨_, _, rfl, by decide⟩
    have htext : Print.importHeads [.importNamespace ⟨loc, []⟩ (.name ⟨loc', []⟩ x)] =
        [Text.ofString "*" ++ CodePoint.scalar ' ' ::
          (Text.ofString "as" ++ CodePoint.scalar ' ' :: x)] := rfl
    refine ⟨_, _, ⟨.star, "*"⟩ :: ⟨.asWord, "as"⟩ :: [⟨.name, x⟩], htext, ⟨_, _, rfl, by decide⟩,
      ⟨hcut, fun hp => ?_⟩, fun ts hts => ?_⟩
    · obtain ⟨hstar, hlays⟩ := hp.toInClauseOf.lays_sign (w := ⟨.star, "*"⟩) (.inr (.inr rfl))
      obtain ⟨q, hq, hlays'⟩ := hrenamed.lays hstar
      exact ⟨q, hq, hlays.trans hlays' fun _ _ => trivial⟩
    · obtain ⟨s, ts, rfl, hs, hts⟩ := List.map_eq_cons_iff.1 hts
      obtain ⟨a, ts, rfl, ha, hts⟩ := List.map_eq_cons_iff.1 hts
      obtain ⟨y, rfl, hy⟩ := List.map_eq_singleton_iff.1 hts
      exact ⟨_, by simp [Reader.name, Head.ofLoc, text_of_word hy],
        readsRest_whole (kind_of_word hs) (kind_of_word ha) (kind_of_word hy)⟩
  | @items n ns h =>
    have hitems := showsItems_imports (r := r) h
    obtain ⟨ws, roles, hlays, hmakes⟩ := showsBraces hitems
    obtain ⟨t, texts, -, -, htexts⟩ := List.forall₂_cons_left_iff.1 hitems
    have hblank : Text.ofString "\x7b " = Text.ofString "\x7b" ++ [CodePoint.scalar ' '] := rfl
    have htext : Print.importHeads (n :: ns) =
        [braced ((n :: ns).filterMap Print.importNamed?)] := by
      simp only [Print.importHeads, filterMap_importHead? h, htexts, braced_cons, hblank,
        List.isEmpty_cons, Bool.false_eq_true, if_false, List.nil_append, List.append_assoc]
      rfl
    refine ⟨_, ws, roles, htext, ⟨_, _, rfl, by decide⟩, hlays.weaken (fun _ h => h) (fun _ h => h)
      fun _ _ => trivial, fun ts hts => ?_⟩
    obtain ⟨ms, hms, hread⟩ := hmakes ts hts
    exact ⟨ms, hms, readsRest_items hread⟩

theorem showsClause (h : Node.IsImportClause ns) : ∃ ws roles,
    LaysOut BraceStart (Print.commas (Print.importHeads ns)) ws roles (InClauseOf false)
      BeforeSource ∧ (Print.commas (Print.importHeads ns)).StartsVisibly ∧
        MakesAll (ReadsClause r) ns roles := by
  cases h with
  | rest h =>
    obtain ⟨t, ws, roles, htext, hvisibly, hlays, hmakes⟩ := showsRest (r := r) h
    rw [htext, Print.commas_singleton]
    refine ⟨ws, roles, hlays, hvisibly, fun ts hts => ?_⟩
    obtain ⟨ms, hms, hread⟩ := hmakes ts hts
    exact ⟨ms, hms, readsClause_rest hread⟩
  | @default loc loc' x hx hne =>
    have hlocal : LaysOut BraceStart x _ _ _ _ :=
      (laysOut_local hx hne).weaken (fun _ h => h.toInClauseOf) (fun _ h => h) fun _ h => h
    have hheads : Print.importHeads [.importDefault ⟨loc, []⟩ (.name ⟨loc', []⟩ x)] = [x] := rfl
    rw [hheads, Print.commas_singleton]
    refine ⟨_, [⟨.name, x⟩], hlocal, Text.startsVisibly_of_hasForm hx.form, fun ts hts => ?_⟩
    obtain ⟨t, rfl, ht⟩ := List.map_eq_singleton_iff.1 hts
    exact ⟨_, by simp [Reader.name, Head.ofLoc, text_of_word ht],
      readsClause_default (kind_of_word ht)⟩
  | @both loc loc' x ns hx h =>
    obtain ⟨t, ws, roles, htext, hvisibly, hlays, hmakes⟩ := showsRest (r := r) h
    have hheads : Print.importHeads (.importDefault ⟨loc, []⟩ (.name ⟨loc', []⟩ x) :: ns) =
      x :: Print.importHeads ns := rfl
    have hcommas : Print.commas [x, t] =
        x ++ (Text.ofString "," ++ CodePoint.scalar ' ' :: t) := by
      rw [Print.commas_cons, Print.behind_commas_cons]
      simp [Print.behind]
    have hname : LaysOut BraceStart x [⟨.name, x⟩] [⟨.name, x⟩] (InClauseOf false) EndsItem := by
      have hcut := CutInto.name hx.form
      rw [hx.free] at hcut
      exact ⟨hcut, fun hp => ⟨_, hp.toInClauseOf.lays_name (.inl rfl) fun _ _ _ =>
        hp.toInClauseOf.nameRole_end⟩⟩
    have hcomma : LaysOut (InClauseOf false) (Text.ofString ",") _ _ BraceStart _ :=
      laysOut_comma.weaken (fun _ h => h) (fun _ h => ⟨h.1, by simp [Token.Place.lastIn, h.2]⟩)
        fun _ h => h
    have hboth := hname.append (hcomma.spaced hlays hvisibly fun _ _ => trivial)
      (fun _ _ => (Lexeme.endsName_cons _ _).2 (by decide)) fun _ _ => ⟨_, rfl, .inl rfl⟩
    rw [hheads, htext, hcommas]
    refine ⟨_, ⟨.name, x⟩ :: ⟨.comma, ","⟩ :: roles, hboth,
      (Text.startsVisibly_of_hasForm hx.form).append _, fun ts hts => ?_⟩
    obtain ⟨y, ts, rfl, hy, hts⟩ := List.map_eq_cons_iff.1 hts
    obtain ⟨c, ts, rfl, hc, hts⟩ := List.map_eq_cons_iff.1 hts
    obtain ⟨ms, hms, hread⟩ := hmakes ts hts
    exact ⟨_ :: ms, by simp [Reader.name, Head.ofLoc, text_of_word hy, hms],
      readsClause_both (kind_of_word hy) (kind_of_word hc) hread⟩

end Imports

/-! ## Lines -/

section Lines

variable {r : Reader} {ns : List Node} {x : Text}

/-- The tokens are read as one statement, whatever stands behind them. -/
def ReadsLine (r : Reader) (n : Node) (ts : List Token) : Prop :=
  ts ≠ [] ∧ ∀ (rules : Rules) (rest : List Token),
    statement r rules (ts ++ rest) = .ok (⟨.ok n, false⟩, rest)

theorem readsLine_import {i : Token} {ts : List Token} {n : Node} (hi : i.kind = .importWord)
    (h : ∀ rest, importDeclaration r (i :: (ts ++ rest)) = .ok (.ok n, rest)) :
    ReadsLine r n (i :: ts) := by
  refine ⟨List.cons_ne_nil i ts, fun rules rest => ?_⟩
  simp only [List.cons_append, statement, run_peek, hi, run_bind (h rest)]
  rfl

theorem readsLine_bareImport {i s e : Token} (hi : i.kind = .importWord)
    (hs : s.word = ⟨.string, x.stringLiteral⟩) (he : e.kind = .terminator) :
    ReadsLine r (.importDecl (.ofLoc i.start) [] (.literal (.ofLoc s.start) (.str x)))
      [i, s, e] := by
  obtain ⟨hkind, htext⟩ := Word.mk.inj hs
  refine readsLine_import hi fun rest => ?_
  rw [importDeclaration, run_here, run_expect hi, run_atKind]
  simp only [List.cons_append, List.head?_cons, Option.map_some, hkind, decide_true, if_true]
  rw [run_bind (run_pure _), run_expect hkind, run_expect he]
  simp only [string_eq r htext]
  rfl

theorem readsLine_fromImport {i f s e : Token} {ts : List Token} (hi : i.kind = .importWord)
    (h : ReadsClause r ns ts) (hf : f.kind = .fromWord)
    (hs : s.word = ⟨.string, x.stringLiteral⟩) (he : e.kind = .terminator) :
    ReadsLine r (.importDecl (.ofLoc i.start) ns (.literal (.ofLoc s.start) (.str x)))
      (i :: (ts ++ [f, s, e])) := by
  obtain ⟨hkind, htext⟩ := Word.mk.inj hs
  obtain ⟨t, ts, rfl, hne, hread⟩ := h
  refine readsLine_import hi fun rest => ?_
  have hclause := hread f (s :: e :: rest) hf
  rw [importDeclaration, run_here, run_expect hi, run_atKind]
  simp only [List.cons_append, List.append_assoc, List.nil_append, List.head?_cons,
    Option.map_some, Option.some.injEq, hne, decide_false, Bool.false_eq_true, if_false]
    at hclause ⊢
  rw [run_bind hclause, run_expect hf, run_bind (run_pure _), run_expect hkind, run_expect he]
  simp only [string_eq r htext]
  rfl

def ReadsSource (r : Reader) (source : List Node) (ts : List Token) : Prop :=
  ∀ (e : Token) (rest : List Token), e.kind = .terminator →
    behind? .fromWord (do return r.string (← expect .string)) (ts ++ e :: rest) =
      .ok (.ok source, e :: rest)

theorem readsSource_nil : ReadsSource r [] [] := by
  intro e rest he
  have hnone : (e :: rest).head?.map Token.kind ≠ some .fromWord := by simp [he]
  rw [List.nil_append, behind?, run_accept?_none hnone]
  rfl

theorem readsSource_from {f s : Token} (hf : f.kind = .fromWord)
    (hs : s.word = ⟨.string, x.stringLiteral⟩) :
    ReadsSource r [.literal (.ofLoc s.start) (.str x)] [f, s] := by
  obtain ⟨hkind, htext⟩ := Word.mk.inj hs
  intro e rest _
  have hstring : (do return r.string (← expect .string) : Parse Draft) (s :: e :: rest) =
      .ok (.ok (.literal (.ofLoc s.start) (.str x)), e :: rest) := by
    rw [run_expect hkind, string_eq r htext]
    rfl
  simp only [List.cons_append, List.nil_append]
  rw [behind?, run_accept? hf]
  simp only [run_bind hstring]
  rfl

theorem readsLine_export {o e : Token} {us ts : List Token} {source : List Node}
    (ho : o.kind = .exportWord) (h : ReadsBraces (exportSpecifier r) ns us)
    (hsource : ReadsSource r source ts) (he : e.kind = .terminator) :
    ReadsLine r (.exportNamed (.ofLoc o.start) [] ns source) (o :: (us ++ ts ++ [e])) := by
  obtain ⟨b, us, rfl, hb, hread⟩ := h
  refine ⟨List.cons_ne_nil _ _, fun rules rest => ?_⟩
  have hlist : exportList r o.start (b :: (us ++ (ts ++ e :: rest))) =
      .ok (.ok (.exportNamed (.ofLoc o.start) [] ns source), rest) := by
    rw [exportList, run_expect hb, run_bind (hread _), run_bind (hsource e rest he), run_expect he,
      mapM_ok]
    rfl
  have hexport : exportDeclaration r rules (o :: b :: (us ++ (ts ++ e :: rest))) =
      .ok (.ok (.exportNamed (.ofLoc o.start) [] ns source), rest) := by
    rw [exportDeclaration, run_here, run_expect ho, run_peek]
    simp only [hb]
    exact hlist
  simp only [List.cons_append, List.append_assoc, List.nil_append, statement, run_peek, ho,
    run_bind hexport]
  rfl

end Lines

section Clauses

variable {r : Reader} {ns : List Node}

theorem ofString_from : Text.ofString " from " =
    CodePoint.scalar ' ' :: (Text.ofString "from" ++ [CodePoint.scalar ' ']) := rfl

theorem text_exports (h : ∀ n ∈ ns, n.IsExportItem) (source : List Node) :
    Print.exportList ns source = Text.ofString "export" ++ CodePoint.scalar ' ' ::
      (braced (ns.map Print.exportSpecifier) ++
        Print.behind " from " (source.map Print.sourceText) ++ Text.ofString ";") := by
  have hitems := showsItems_exports (r := ⟨⟨none, none⟩, fun _ => .error .tooDeep⟩) h
  have hopen : Text.ofString "export \x7b" =
      Text.ofString "export" ++ CodePoint.scalar ' ' :: Text.ofString "\x7b" := rfl
  simp only [Print.exportList, isEmpty_commas hitems, braced, hopen, List.append_assoc,
    List.cons_append]

theorem ne_nil_of_isImportClause (h : Node.IsImportClause ns) : ns ≠ [] := by
  rcases h with ⟨_ | _⟩ | _ | _ <;> exact List.cons_ne_nil _ _

theorem text_imports (h : ns ≠ []) (loc loc' : Option Location) (x : Text) :
    Print.text 0 (.importDecl ⟨loc, []⟩ ns (.literal ⟨loc', []⟩ (.str x))) =
      Text.ofString "import" ++ CodePoint.scalar ' ' :: (Print.commas (Print.importHeads ns) ++
        CodePoint.scalar ' ' :: (Text.ofString "from" ++ CodePoint.scalar ' ' :: x.stringLiteral) ++
          Text.ofString ";") := by
  have hopen : Text.ofString "import " = Text.ofString "import" ++ [CodePoint.scalar ' '] := rfl
  have hsource : Print.sourceText (.literal ⟨loc', []⟩ (.str x)) = x.stringLiteral := rfl
  have hne : ns.isEmpty = false := by simpa using h
  change Print.importDecl ns _ = _
  simp [Print.importDecl_eq, hopen, ofString_from, hsource, hne, Text.when]

theorem laysOut_line {w : Word} {t : Text} {ws roles : List Word}
    (hw : w = ⟨.importWord, "import"⟩ ∨ w = ⟨.exportWord, "export"⟩)
    (h : LaysOut BraceStart t ws roles (InClauseOf false) fun _ => True)
    (ht : t.StartsVisibly) :
    LaysOut LineStart (w.text ++ CodePoint.scalar ' ' :: (t ++ Text.ofString ";"))
      (w :: (ws ++ [⟨.semicolon, ";"⟩])) (w :: (roles ++ [⟨.terminator, ";"⟩])) LineStart
        fun _ => True :=
  (laysOut_opening hw).spaced (h.append laysOut_semicolon
    (fun _ _ => (Lexeme.endsName_cons _ _).2 (by decide)) fun _ _ => trivial) (ht.append _)
      fun _ _ => trivial

theorem showsExport {loc : Option Location} {source : List Node} {ws roles : List Word}
    (h : ∀ n ∈ ns, n.IsExportItem)
    (hsource : LaysOut (InClauseOf false) (Print.behind " from " (source.map Print.sourceText)) ws
      roles (InClauseOf false) fun _ => True)
    (hmakes : MakesAll (ReadsSource r) source roles) :
    let d : Node := .exportNamed ⟨loc, []⟩ [] ns source
    ∃ ws roles, LaysOut LineStart (Print.text 0 d) ws roles LineStart (fun _ => True) ∧
      (Print.text 0 d).StartsVisibly ∧ Makes (ReadsLine r) d.clauseOnce roles := by
  intro d
  obtain ⟨wb, rb, hbraces, hitems⟩ := showsBraces (showsItems_exports (r := r) h)
  have hlist := hbraces.append hsource (fun _ => Print.behind_endsName (by decide) _)
    fun _ _ => trivial
  have htext : Print.text 0 d = _ := text_exports h source
  rw [htext]
  refine ⟨_, _, laysOut_line (.inr rfl) hlist ⟨_, _, rfl, by decide⟩, ⟨_, _, rfl, by decide⟩,
    fun ts hts => ?_⟩
  obtain ⟨o, inner, e, rfl, ho, hinner, he⟩ := enclosed_of_words hts
  obtain ⟨us, vs, rfl, hus, hvs⟩ := List.map_eq_append_iff.1 hinner
  obtain ⟨ms, hms, hread⟩ := hitems us hus
  obtain ⟨ss, hss, hread'⟩ := hmakes vs hvs
  refine ⟨_, ?_, readsLine_export ho hread hread' he⟩
  simp [d, Node.clauseOnce, Head.ofLoc, Node.unplacedOfList_eq_map, hms, hss]

/-- A clause is read back from the line that it is printed on. -/
theorem showsLine {d : Node} (h : d.IsModuleClause) : ∃ ws roles,
    LaysOut LineStart (Print.text 0 d) ws roles LineStart (fun _ => True) ∧
      (Print.text 0 d).StartsVisibly ∧ Makes (ReadsLine r) d.clauseOnce roles := by
  cases h with
  | @bare loc source hsource =>
    obtain @⟨loc', x⟩ := hsource
    have hstring : LaysOut BraceStart x.stringLiteral _ _ _ _ :=
      (laysOut_string x).weaken (fun _ h => h.toInClauseOf) (fun _ h => h) fun _ h => h
    refine ⟨_, _, laysOut_line (.inl rfl) hstring (Text.startsVisibly_stringLiteral x),
      ⟨_, _, rfl, by decide⟩, fun ts hts => ?_⟩
    obtain ⟨i, ts, rfl, hi, hts⟩ := List.map_eq_cons_iff.1 hts
    obtain ⟨s, ts, rfl, hs, hts⟩ := List.map_eq_cons_iff.1 hts
    obtain ⟨e, rfl, he⟩ := List.map_eq_singleton_iff.1 hts
    exact ⟨_, by simp [Node.clauseOnce, Head.ofLoc], readsLine_bareImport (kind_of_word hi) hs
      (kind_of_word he)⟩
  | @imports loc ns source h hsource =>
    obtain @⟨loc', x⟩ := hsource
    obtain ⟨ws, roles, hlays, hvisibly, hmakes⟩ := showsClause (r := r) h
    have hclause := hlays.spaced (laysOut_source x) ⟨_, _, rfl, by decide⟩
      fun _ _ => ⟨_, _, rfl, rfl⟩
    rw [text_imports (ne_nil_of_isImportClause h)]
    refine ⟨_, _, laysOut_line (.inl rfl) hclause (hvisibly.append _), ⟨_, _, rfl, by decide⟩,
      fun ts hts => ?_⟩
    obtain ⟨i, inner, es, rfl, hi, hinner, he⟩ := enclosed_of_words hts
    obtain ⟨us, vs, rfl, hus, hvs⟩ := List.map_eq_append_iff.1 hinner
    obtain ⟨f, vs, rfl, hf, hvs⟩ := List.map_eq_cons_iff.1 hvs
    obtain ⟨s, rfl, hs⟩ := List.map_eq_singleton_iff.1 hvs
    obtain ⟨ms, hms, hread⟩ := hmakes us hus
    have hline := readsLine_fromImport hi hread (kind_of_word hf) hs he
    refine ⟨.importDecl (.ofLoc i.start) ms (.literal (.ofLoc s.start) (.str x)), ?_,
      by simpa using hline⟩
    simp [Node.clauseOnce, Head.ofLoc, Node.unplacedOfList_eq_map, hms]
  | exports h =>
    exact showsExport h LaysOut.nil fun ts hts => ⟨[], rfl, by
      rw [List.map_eq_nil_iff.1 hts]
      exact readsSource_nil⟩
  | reexports h hsource =>
    obtain @⟨loc', x⟩ := hsource
    have hlays := (laysOut_source x).blank ⟨_, _, rfl, by decide⟩
    have htext : Print.behind " from " [x.stringLiteral] = CodePoint.scalar ' ' ::
        (Text.ofString "from" ++ CodePoint.scalar ' ' :: x.stringLiteral) := by
      simp [Print.behind, ofString_from]
    refine showsExport h (htext ▸ hlays) fun ts hts => ?_
    obtain ⟨f, ts, rfl, hf, hts⟩ := List.map_eq_cons_iff.1 hts
    obtain ⟨s, rfl, hs⟩ := List.map_eq_singleton_iff.1 hts
    exact ⟨_, by simp [Head.ofLoc], readsSource_from (kind_of_word hf) hs⟩

end Clauses

/-! ## Modules -/

section Modules

variable {r : Reader} {ns : List Node}

def lineStep (rules : Rules) (lines : List Line) : Parse (Option (List Line)) := do
  match ← peekKind? with
  | none => return none
  | some _ => return some ((← rules.statement) :: lines)

theorem statements_eq (rules : Rules) :
    statements rules = (do
      let lines ← loop (lineStep rules) []
      return (lines.reverse.filter (!·.isFiller)).mapM Line.draft) := rfl

/-- The tokens are read as the statements up to the end of the input. -/
def ReadsLines (r : Reader) (ns : List Node) (ts : List Token) : Prop :=
  ∀ (rules : Rules) (acc : List Line), Runs (lineStep (above r rules)) acc ts
    ((ns.map fun n => (⟨.ok n, false⟩ : Line)).reverse ++ acc, [])

theorem readsLines_nil : ReadsLines r [] [] := fun _ _ => .stop rfl

theorem readsLines_cons {n : Node} {ts us : List Token} (hline : ReadsLine r n ts)
    (hlines : ReadsLines r ns us) : ReadsLines r (n :: ns) (ts ++ us) := by
  intro rules acc
  obtain ⟨hne, hread⟩ := hline
  obtain ⟨t, ts, rfl⟩ := List.exists_cons_of_ne_nil hne
  have hstep : lineStep (above r rules) acc (t :: ts ++ us) =
      .ok (some (⟨.ok n, false⟩ :: acc), us) := by
    have hstatement : (above r rules).statement (t :: ts ++ us) = _ := hread rules us
    simp only [List.cons_append] at hstatement ⊢
    simp only [lineStep, run_peekKind?, List.head?_cons, Option.map_some, run_bind hstatement]
    rfl
  refine .step hstep ?_ (by simpa using hlines rules (⟨.ok n, false⟩ :: acc))
  simp only [List.cons_append, List.length_cons, List.length_append]
  omega

theorem drafts_of_lines (ns : List Node) :
    ((ns.map fun n => (⟨.ok n, false⟩ : Line)).filter (!·.isFiller)).mapM Line.draft =
      .ok ns := by
  induction ns with
  | nil => rfl
  | cons n ns ih =>
    rw [List.map_cons, List.filter_cons_of_pos rfl, List.mapM_cons, ih]
    rfl

theorem statements_of_readsLines {ts : List Token} (h : ReadsLines r ns ts) (rules : Rules) :
    statements (above r rules) ts = .ok (.ok ns, []) := by
  rw [statements_eq, run_bind (loop_of_runs (h rules [])), List.append_nil, List.reverse_reverse,
    drafts_of_lines]
  rfl

theorem next?_newline {t : Text} (ht : t = [] ∨ t.StartsVisibly) :
    Lexeme.next? (Text.ofString "\n" ++ t) = some (.token .newline, 1) := by
  rcases ht with rfl | ⟨c, rest, rfl, hc⟩
  · rfl
  · have hne {d : CodePoint} (hd : d.val ≤ 0x20) : c ≠ d := by
      rintro rfl
      omega
    have hlength : Lexeme.newlineLength? (CodePoint.scalar '\n' :: c :: rest) = some 1 := by
      simp [Lexeme.newlineLength?, hne (d := ' ') (by decide), hne (d := '\t') (by decide),
        hne (d := '\n') (by decide), hne (d := '\r') (by decide)]
    let t := CodePoint.scalar '\n' :: c :: rest
    have hfirst : Lexeme.next? t = ((Lexeme.newlineLength? t).map (Lexeme.Class.token .newline, ·)
        <|> (Lexeme.lineCommentLength? t).map (Lexeme.Class.comment, ·)
        <|> (Lexeme.blankLength? t).map (Lexeme.Class.blank, ·)
        <|> (Lexeme.optionalChainLength? t).map (Lexeme.Class.token .optionalChain, ·)
        <|> (Lexeme.sign? t).map (fun s => (Lexeme.Class.token s.1, s.2))) := rfl
    exact hfirst.trans (by rw [hlength]; rfl)

theorem showsLines (h : ∀ d ∈ ns, d.IsModuleClause) : ∃ ws roles,
    let t : Text := (Print.lines 0 ns).flatMap fun t => t ++ Text.ofString "\n"
    Spells t ws ∧ (t = [] ∨ t.StartsVisibly) ∧
      (∀ p, LineStart p → ∃ q, LineStart q ∧ Lays p ws roles q fun _ => True) ∧
        MakesAll (ReadsLines r) (ns.map Node.clauseOnce) roles := by
  induction ns with
  | nil =>
    refine ⟨[], [], .nil, .inl rfl, fun p hp => ⟨p, hp, Token.Place.lays_nil⟩, fun ts hts => ?_⟩
    rw [List.map_eq_nil_iff.1 hts]
    exact ⟨[], rfl, readsLines_nil⟩
  | cons d ns ih =>
    obtain ⟨ws, roles, hspells, hvisibly, hlays, hmakes⟩ :=
      ih fun n hn => h n (List.mem_cons_of_mem d hn)
    obtain ⟨wl, rl, hline, hvisibly', hread⟩ := showsLine (r := r) (h d List.mem_cons_self)
    have htext : Print.line 0 d.comments (Print.text 0 d) = Print.text 0 d := by
      obtain _ | _ | _ | _ := h d List.mem_cons_self <;> rfl
    simp only [Print.lines, List.flatMap_cons, htext, List.append_assoc]
    refine ⟨wl ++ ⟨.newline, "\n"⟩ :: ws, rl ++ roles, ?_, .inr (hvisibly'.append _),
      fun p hp => ?_, fun ts hts => ?_⟩
    · refine hline.cut _ _ ((Lexeme.endsName_cons _ _).2 (by decide)) ?_
      exact .word (w := ⟨.newline, "\n"⟩) (List.cons_ne_nil _ _) (next?_newline hvisibly) hspells
    · obtain ⟨q, hq, hfirst⟩ := hline.lays hp
      obtain ⟨q', hq', hrest⟩ := hlays q hq
      have hmore := hq.lays_newline.trans hrest fun _ _ => trivial
      exact ⟨q', hq', hfirst.trans hmore fun _ _ => trivial⟩
    · obtain ⟨us, vs, rfl, hus, hvs⟩ := List.map_eq_append_iff.1 hts
      obtain ⟨m, hm, hread⟩ := hread us hus
      obtain ⟨ms, hms, hreads⟩ := hmakes vs hvs
      exact ⟨m :: ms, by simp [hm, hms], readsLines_cons hread hreads⟩

end Modules

end Grammar

namespace Node

open Grammar

theorem readAll_eq {α : Type} {rule : Parse α} {tokens : List Token} {a : α} (origin : SourceUnit)
    (h : rule tokens = .ok (a, [])) : readAll origin rule tokens = .ok a := by
  simp only [readAll, h]

def programReader (source : Text) (file : Option Text) : Reader :=
  ⟨⟨some source, file⟩, fun hole => readExpression hole none⟩

theorem readProgram_eq {source : Text} {tokens : List Token} {ns : List Node} {file : Option Text}
    (hscan : Scan.scan source = .ok ⟨tokens, []⟩)
    (hread : statements (rulesTo (programReader source file)
      ((Token.placeModule tokens).length + 1)) (Token.placeModule tokens) = .ok (.ok ns, [])) :
    readProgram source file =
      .ok (.program ⟨(Token.placeModule tokens).head?.map Token.start, []⟩ [] ns) := by
  have hall := readAll_eq ⟨some source, file⟩ hread
  simp only [readProgram, Grammar.scan, hscan]
  change Except.bind (readAll ⟨some source, file⟩ (statements (rulesTo (programReader source file)
    ((Token.placeModule tokens).length + 1))) (Token.placeModule tokens)) _ = _
  rw [hall]
  rfl

/-- A module of clauses is read back from its text. An export under its own name is read without
`as`, and all else as it was. -/
theorem readProgram_clauses {ds : List Node} (h : ∀ d ∈ ds, d.IsModuleClause)
    (loc : Option Location) (file : Option Text) :
    ∃ n, readProgram (programText (.program ⟨loc, []⟩ [] ds)) file = .ok n ∧
      n.unplaced = (Node.program .fresh [] (ds.map clauseOnce)).unplaced := by
  have htext : programText (.program ⟨loc, []⟩ [] ds) =
      (Print.lines 0 ds).flatMap fun t => t ++ Text.ofString "\n" := by
    change ((Print.lines 0 ds ++ []).flatMap _) = _
    rw [List.append_nil]
  rw [htext]
  obtain ⟨ws, roles, hspells, -, hlays, hmakes⟩ := showsLines (r := programReader _ file) h
  obtain ⟨tokens, hscan, htokens⟩ := Scan.scan_spelt hspells
  obtain ⟨q, hq, hlays⟩ := hlays _ Token.Place.lineStart_ofModule
  obtain ⟨us, last, hplaced, hus⟩ := hlays true none tokens [] htokens trivial
  have hend : Token.placeModule tokens = us := by
    have hempty : Token.Place.placeFrom true q false last [] = [] := by
      cases last <;> simp [Token.Place.placeFrom, hq.canEnd]
    rw [List.append_nil, hempty, List.append_nil] at hplaced
    exact hplaced
  obtain ⟨ms, hms, hread⟩ := hmakes us hus
  rw [← hend] at hread
  exact ⟨_, readProgram_eq hscan (statements_of_readsLines hread _),
    by simp [unplacedOfList_eq_map, hms, Head.fresh]⟩

end Node

end InlineTemplates
