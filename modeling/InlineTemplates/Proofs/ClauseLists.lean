import InlineTemplates.Proofs.ClauseItems
import Mathlib.Data.List.Forall2

/-!
# Items in the braces of a clause

The items of an import or an export stand in braces with commas between them. The braces are read
back as the items whatever their number, so the items need to be looked at one by one only.
-/

namespace InlineTemplates

open Token (Kind Place)
open Token.Place (InClauseOf EndsItem)

namespace Grammar

open Parse

/-! ## Signs -/

structure BraceStart (p : Place) : Prop extends InClauseOf false p where
  last : p.lastIn [.importWord, .exportWord, .comma]

theorem laysOut_comma {braces : Bool} : LaysOut (InClauseOf braces) (Text.ofString ",")
    [⟨.comma, ","⟩] [⟨.comma, ","⟩] (fun p => InClauseOf braces p ∧ p.last = some .comma)
      fun _ => True := by
  refine ⟨.sign (p := (",", .comma)) (by decide), fun hp => ?_⟩
  obtain ⟨hafter, hlays⟩ := hp.lays_sign (w := ⟨.comma, ","⟩) (.inr (.inl rfl))
  exact ⟨_, ⟨hafter, rfl⟩, hlays⟩

theorem laysOut_leftBrace : LaysOut BraceStart (Text.ofString "\x7b") [⟨.leftBrace, "\x7b"⟩]
    [⟨.leftBrace, "\x7b"⟩] ItemStart fun _ => True := by
  refine ⟨.sign (p := ("\x7b", .leftBrace)) (by decide), fun hp => ?_⟩
  exact ⟨_, ⟨hp.toInClauseOf.after_leftBrace, rfl⟩, hp.toInClauseOf.lays_leftBrace hp.last⟩

theorem laysOut_rightBrace : LaysOut (InClauseOf true) (Text.ofString "\x7d")
    [⟨.rightBrace, "\x7d"⟩] [⟨.rightBrace, "\x7d"⟩] (InClauseOf false) fun _ => True :=
  ⟨.sign (p := ("\x7d", .rightBrace)) (by decide), fun hp =>
    ⟨_, hp.after_rightBrace, hp.lays_rightBrace⟩⟩

/-! ## Braces -/

section Braces

variable {r : Reader} {rule : Parse Draft} {ns : List Node} {texts : List Text}

def ShowsItems (rule : Parse Draft) : List Node → List Text → Prop :=
  List.Forall₂ fun n t => ∃ ws roles, ShowsItem rule n t ws roles

/-- The tokens are read as items with commas in front of them, up to the closing brace. -/
def ReadsMore (rule : Parse Draft) (ns : List Node) (ts : List Token) : Prop :=
  (∀ t ∈ ts.head?, t.kind = .comma) ∧
    ∀ (c : Token) (rest : List Token) (acc : List Draft), c.kind = .rightBrace →
      Runs (commaStep .rightBrace rule) acc (ts ++ c :: rest)
        ((ns.map .ok).reverse ++ acc, c :: rest)

/-- The tokens are read as the items with braces around them. -/
def ReadsBraces (rule : Parse Draft) (ns : List Node) (ts : List Token) : Prop :=
  ∃ o us, ts = o :: us ∧ o.kind = .leftBrace ∧ ∀ rest : List Token,
    commaList .rightBrace rule (us ++ rest) = .ok (ns.map .ok, rest)

/-- What stands in front of the end of the braces. -/
def BeforeBrace (ws : List Word) : Prop := ∃ w ∈ ws.head?, w.kind = .rightBrace

theorem ReadsMore.head_ne {ts : List Token} (h : ReadsMore rule ns ts) {c : Token}
    (hc : c.kind = .rightBrace) (rest : List Token) :
    (ts ++ c :: rest).head?.map Token.kind ≠ some .asWord := by
  cases ts with
  | nil => simp [hc]
  | cons t ts => simp [h.1 t rfl]

theorem readsMore_nil : ReadsMore rule [] [] := by
  refine ⟨by simp, fun c rest acc hc => .stop (commaStep_none ?_ _ _ _)⟩
  simp [hc]

theorem readsMore_cons {n : Node} {c : Token} {ts us : List Token} (hc : c.kind = .comma)
    (hitem : ReadsItem rule n ts) (hmore : ReadsMore rule ns us) :
    ReadsMore rule (n :: ns) (c :: (ts ++ us)) := by
  obtain ⟨t, ts, rfl, hne, hread⟩ := hitem
  refine ⟨by simp [hc], fun e rest acc he => ?_⟩
  have hitem := hread (us ++ e :: rest) (hmore.head_ne he rest)
  have hruns := hmore.2 e rest (.ok n :: acc) he
  have hstep := commaStep_some hc hne hitem acc
  simp only [List.cons_append, List.append_assoc] at hstep ⊢
  refine .step hstep ?_ (by simpa using hruns)
  simp only [List.length_append, List.length_cons]
  omega

theorem readsBraces_nil {o c : Token} (ho : o.kind = .leftBrace) (hc : c.kind = .rightBrace) :
    ReadsBraces rule [] [o, c] := by
  refine ⟨o, [c], rfl, ho, fun rest => ?_⟩
  rw [← hc]
  exact commaList_none rule c rest

theorem readsBraces_cons {n : Node} {o c : Token} {ts us : List Token} (ho : o.kind = .leftBrace)
    (hitem : ReadsItem rule n ts) (hmore : ReadsMore rule ns us) (hc : c.kind = .rightBrace) :
    ReadsBraces rule (n :: ns) (o :: (ts ++ us ++ [c])) := by
  obtain ⟨t, ts, rfl, hne, hread⟩ := hitem
  refine ⟨o, _, rfl, ho, fun rest => ?_⟩
  have hitem := hread (us ++ c :: rest) (hmore.head_ne hc rest)
  have hruns := hmore.2 c rest [.ok n] hc
  rw [← hc] at hruns hne ⊢
  have hlist := commaList_of_runs hne hitem hruns
  simpa using hlist

theorem showsMore (h : ShowsItems rule ns texts) : ∃ ws roles,
    LaysOut (InClauseOf true) (Print.behind ", " texts) ws roles (InClauseOf true) BeforeBrace ∧
      (∀ rest, BeforeBrace rest → EndsItem (ws ++ rest)) ∧ MakesAll (ReadsMore rule) ns roles := by
  induction h with
  | nil =>
    refine ⟨[], [], .nil, fun rest ⟨w, hw, hk⟩ => ⟨w, hw, .inr hk⟩, fun ts hts => ?_⟩
    obtain rfl := List.map_eq_nil_iff.1 hts
    exact ⟨[], rfl, readsMore_nil⟩
  | @cons n t ns texts hitem _ ih =>
    obtain ⟨wi, ri, hitem⟩ := hitem
    obtain ⟨wm, rm, hmore, hends, hmakes⟩ := ih
    have hcomma : LaysOut (InClauseOf true) (Text.ofString ",") _ _ ItemStart _ :=
      laysOut_comma.weaken (fun _ h => h) (fun _ h => ⟨h.1, by simp [Token.Place.startsItem,
        Token.Place.lastIn, h.2]⟩) fun _ h => h
    have hrest := hitem.toLaysOut.append hmore (fun _ => Print.behind_endsName (by decide) _) hends
    rw [Print.behind_commas_cons]
    refine ⟨_, ⟨.comma, ","⟩ :: (ri ++ rm), hcomma.spaced hrest (hitem.visibly.append _)
      fun _ _ => trivial, fun _ _ => ⟨_, rfl, .inl rfl⟩, fun ts hts => ?_⟩
    obtain ⟨c, us, rfl, hc, hus⟩ := List.map_eq_cons_iff.1 hts
    obtain ⟨us, vs, rfl, hus, hvs⟩ := List.map_eq_append_iff.1 hus
    obtain ⟨m, hm, hread⟩ := hitem.makes us hus
    obtain ⟨ms, hms, hreads⟩ := hmakes vs hvs
    exact ⟨m :: ms, by simp [hm, hms], readsMore_cons (kind_of_word hc) hread hreads⟩

def braced (texts : List Text) : Text :=
  Text.ofString "\x7b" ++ Text.when (!texts.isEmpty) (" " ++ Print.commas texts ++ " ") ++ "\x7d"

theorem braced_cons (t : Text) (texts : List Text) :
    braced (t :: texts) = Text.ofString "\x7b" ++ CodePoint.scalar ' ' ::
      (Print.commas (t :: texts) ++ CodePoint.scalar ' ' :: Text.ofString "\x7d") := by
  have hblank : Text.ofString " " = [CodePoint.scalar ' '] := rfl
  simp [braced, Text.when, hblank]

theorem showsBraces (h : ShowsItems rule ns texts) : ∃ ws roles,
    LaysOut BraceStart (braced texts) ws roles (InClauseOf false) (fun _ => True) ∧
      MakesAll (ReadsBraces rule) ns roles := by
  cases h with
  | nil =>
    have hbraces := laysOut_leftBrace.append (laysOut_rightBrace.weaken (fun _ h => h.toInClauseOf)
      (fun _ h => h) fun _ h => h) (fun _ _ => (Lexeme.endsName_cons _ _).2 (by decide))
      fun _ _ => trivial
    refine ⟨_, _, hbraces, fun ts hts => ?_⟩
    obtain ⟨o, us, rfl, ho, hus⟩ := List.map_eq_cons_iff.1 hts
    obtain ⟨c, rfl, hc⟩ := List.map_eq_singleton_iff.1 hus
    exact ⟨[], rfl, readsBraces_nil (kind_of_word ho) (kind_of_word hc)⟩
  | @cons n t ns texts hitem hitems =>
    obtain ⟨wi, ri, hitem⟩ := hitem
    obtain ⟨wm, rm, hmore, hends, hmakes⟩ := showsMore hitems
    have hlist := hitem.toLaysOut.append hmore (fun _ => Print.behind_endsName (by decide) _) hends
    have hbraces := laysOut_leftBrace.spaced (hlist.spaced laysOut_rightBrace ⟨_, _, rfl, by decide⟩
      fun _ _ => ⟨_, rfl, rfl⟩) ((hitem.visibly.append _).append _) fun _ _ => trivial
    rw [braced_cons, Print.commas_cons]
    refine ⟨_, ⟨.leftBrace, "\x7b"⟩ :: (ri ++ rm ++ [⟨.rightBrace, "\x7d"⟩]), hbraces,
      fun ts hts => ?_⟩
    obtain ⟨o, ts, rfl, ho, hts⟩ := List.map_eq_cons_iff.1 hts
    obtain ⟨items, cs, rfl, hitems, hcs⟩ := List.map_eq_append_iff.1 hts
    obtain ⟨c, rfl, hc⟩ := List.map_eq_singleton_iff.1 hcs
    obtain ⟨us, vs, rfl, hus, hvs⟩ := List.map_eq_append_iff.1 hitems
    obtain ⟨m, hm, hread⟩ := hitem.makes us hus
    obtain ⟨ms, hms, hreads⟩ := hmakes vs hvs
    exact ⟨m :: ms, by simp [hm, hms], readsBraces_cons (kind_of_word ho) hread hreads
      (kind_of_word hc)⟩

theorem isEmpty_commas (h : ShowsItems rule ns texts) :
    (Print.commas texts).isEmpty = texts.isEmpty := by
  cases h with
  | nil => rfl
  | cons hitem _ =>
    obtain ⟨ws, roles, hitem⟩ := hitem
    obtain ⟨c, rest, rfl, -⟩ := hitem.visibly
    rw [Print.commas_cons]
    rfl

/-! ## Imports and exports -/

theorem showsItems_imports (h : ∀ n ∈ ns, n.IsImportItem) :
    ShowsItems (importSpecifier r) ns (ns.filterMap Print.importNamed?) := by
  induction ns with
  | nil => exact .nil
  | cons n ns ih =>
    obtain ⟨t, ht, hitem⟩ := showsItem_import (h n List.mem_cons_self)
    rw [List.filterMap_cons_some ht]
    exact .cons hitem (ih fun m hm => h m (List.mem_cons_of_mem n hm))

theorem showsItems_exports (h : ∀ n ∈ ns, n.IsExportItem) :
    ShowsItems (exportSpecifier r) (ns.map Node.exportOnce) (ns.map Print.exportSpecifier) := by
  unfold ShowsItems
  rw [List.forall₂_map_left_iff, List.forall₂_map_right_iff, List.forall₂_same]
  exact fun n hn => showsItem_export (h n hn)

end Braces

end Grammar

end InlineTemplates
