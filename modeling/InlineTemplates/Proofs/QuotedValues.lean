import InlineTemplates.Proofs.QuotedWords
import InlineTemplates.Proofs.StaticValues

/-!
# Values that are quoted

A static value is quoted by a literal, or by an array or an object of what quotes its parts. The
text of that tree is read as a tree that denotes the value, to any depth. A list and a mapping go
the same way: parts with commas between them, in brackets of their own.
-/

namespace InlineTemplates

open Lexeme (Spells)
open Token (Kind Place)
open Token.Place (Lays)

/-! ## Quoting -/

namespace Value

mutual

/-- The tree that quotes a value. The keys of a mapping are strings. -/
def quoted : Value → Node
  | str t => .literal .fresh (.str t)
  | int n => .literal .fresh (.int n.toNat)
  | float d => .literal .fresh (.float d)
  | bool b => .literal .fresh (.bool b)
  | null => .literal .fresh .null
  | list items => .array .fresh (quotedItems items)
  | mapping entries => .object .fresh (quotedEntries entries)

def quotedItems : List Value → List Node
  | [] => []
  | v :: rest => v.quoted :: quotedItems rest

def quotedEntries : List (Text × Value) → List Node
  | [] => []
  | (key, v) :: rest =>
    .property .fresh false false (.literal .fresh (.str key)) v.quoted :: quotedEntries rest

end

/-- The values of texts, natural numbers, Booleans, lists and mappings without equal keys. -/
inductive IsPlain : Value → Prop where
  | str (t : Text) : IsPlain (.str t)
  | int (n : Nat) : IsPlain (.int n)
  | bool (b : Bool) : IsPlain (.bool b)
  | list {items : List Value} (h : ∀ v ∈ items, v.IsPlain) : IsPlain (.list items)
  | mapping {entries : Entries} (hkeys : entries.keys.Nodup) (h : ∀ e ∈ entries, e.2.IsPlain) :
    IsPlain (.mapping entries)

end Value

theorem Entries.latest_eq {entries : Entries} (h : entries.keys.Nodup) :
    entries.latest = entries := by
  induction entries using List.reverseRecOn with
  | nil => rfl
  | append_singleton entries e ih =>
    obtain ⟨key, value⟩ := e
    rw [keys, List.map_append, List.nodup_append] at h
    obtain ⟨hkeys, -, hdisjoint⟩ := h
    have hnew : key ∉ keys entries := fun hmem => hdisjoint key hmem key (by simp) rfl
    rw [latest_snoc, set, contains_latest, decide_eq_false hnew, ih hkeys]
    rfl

/-! ## Parts in brackets -/

namespace Grammar

open Parse
open Token.Place (Nested InValue StartsValue)

/-- The contexts that the parts of values stand in, with the signs around them. -/
def brackets : List (Token.Context × (String × Kind) × (String × Kind)) :=
  [(.bracket, ("[", .leftBracket), ("]", .rightBracket)),
    (.object, ("\x7b", .leftBrace), ("\x7d", .rightBrace))]

/-- How the parts of a value are read that stand in brackets: a list, or an object. -/
structure Enclosed (β : Type) where
  context : Token.Context
  opening : String × Kind
  closing : String × Kind
  item : Reader → Rules → Parse Draft
  denotes : β → Node → Prop
  mem_brackets : (context, opening, closing) ∈ brackets

namespace Enclosed

variable {β : Type} (e : Enclosed β) {n : Node} {ns : List Node} {b : β} {bs : List β}
  {c : Token} {ts us : List Token}

def close : Kind := e.closing.2

theorem brackets_cases :
    e.context = .bracket ∧ e.opening = ("[", .leftBracket) ∧ e.closing = ("]", .rightBracket) ∨
      e.context = .object ∧ e.opening = ("\x7b", .leftBrace) ∧
        e.closing = ("\x7d", .rightBrace) := by
  simpa [brackets] using e.mem_brackets

theorem nested {stack : List Token.Context} (hs : Nested stack) : Nested (e.context :: stack) :=
  hs.cons (e.brackets_cases.imp And.left And.left)

theorem close_eq : e.close.tightness = 0 ∧ e.close ≠ .comma := by
  rcases e.brackets_cases with ⟨-, -, h⟩ | ⟨-, -, h⟩ <;> rw [close, h] <;> decide

structure ReadsPart (n : Node) (ts : List Token) : Prop where
  starts : ∃ t us, ts = t :: us ∧ t.kind ≠ e.close
  read (r : Reader) (depth : Nat) (hdepth : ts.length ≤ depth) (rest : List Token)
    (hrest : EndsBelow 1 rest) : e.item r (rulesTo r (depth + 1)) (ts ++ rest) = .ok (.ok n, rest)

structure ReadsParts (ns : List Node) (ts : List Token) : Prop where
  starts : ∀ t ∈ ts.head?, t.kind = .comma
  runs (r : Reader) (depth : Nat) (hdepth : ts.length ≤ depth) (c : Token) (rest : List Token)
    (acc : List Draft) (hc : c.kind = e.close) :
    Runs (commaStep e.close (e.item r (rulesTo r (depth + 1)))) acc (ts ++ c :: rest)
      ((ns.map .ok).reverse ++ acc, c :: rest)

def ReadsAll (ns : List Node) (ts : List Token) : Prop :=
  ∀ (r : Reader) (depth : Nat), ts.length ≤ depth → ∀ (c : Token) (rest : List Token),
    c.kind = e.close → commaList e.close (e.item r (rulesTo r (depth + 1))) (ts ++ c :: rest) =
      .ok (ns.map .ok, rest)

variable {e}

theorem ReadsParts.endsBelow (h : e.ReadsParts ns ts) (hc : c.kind = e.close)
    (rest : List Token) : EndsBelow 1 (ts ++ c :: rest) := by
  cases ts with
  | nil => exact endsBelow_cons (by rw [hc, e.close_eq.1]; decide)
  | cons t ts => exact endsBelow_cons (by rw [h.starts t rfl]; decide)

theorem readsParts_nil : e.ReadsParts [] [] := by
  refine ⟨by simp, fun r depth _ c rest acc hc => .stop (commaStep_none ?_ _ _ _)⟩
  simpa [hc] using e.close_eq.2

theorem readsParts_cons (hc : c.kind = .comma) (hpart : e.ReadsPart n ts)
    (hmore : e.ReadsParts ns us) : e.ReadsParts (n :: ns) (c :: (ts ++ us)) := by
  obtain ⟨t, ts, rfl, hne⟩ := hpart.starts
  refine ⟨by simp [hc], fun r depth hdepth d rest acc hd => ?_⟩
  simp only [List.length_cons, List.length_append] at hdepth
  have hread := hpart.read r depth (by simp only [List.length_cons]; omega) (us ++ d :: rest)
    (hmore.endsBelow hd rest)
  have hruns := hmore.runs r depth (by omega) d rest (.ok n :: acc) hd
  have hstep := commaStep_some hc hne hread acc
  simp only [List.cons_append, List.append_assoc] at hstep ⊢
  refine .step hstep ?_ (by simpa using hruns)
  simp only [List.length_append, List.length_cons]
  omega

theorem readsAll_nil : e.ReadsAll [] [] := by
  intro r depth _ c rest hc
  rw [← hc]
  exact commaList_none _ c rest

theorem readsAll_cons (hpart : e.ReadsPart n ts) (hmore : e.ReadsParts ns us) :
    e.ReadsAll (n :: ns) (ts ++ us) := by
  obtain ⟨t, ts, rfl, hne⟩ := hpart.starts
  intro r depth hdepth c rest hc
  simp only [List.length_cons, List.length_append] at hdepth
  have hread := hpart.read r depth (by simp only [List.length_cons]; omega) (us ++ c :: rest)
    (hmore.endsBelow hc rest)
  have hruns := hmore.runs r depth (by omega) c rest [.ok n] hc
  rw [← hc] at hne hruns ⊢
  simpa using commaList_of_runs hne hread hruns

/-! ### Texts -/

/-- In brackets the text is read as what denotes the part. -/
structure ShowsPart (e : Enclosed β) (b : β) (t : Text) (ws : List Word) : Prop where
  prints {stack : List Token.Context} (hs : Nested stack) :
    Prints (InValue (e.context :: stack)) t ws (InValue (e.context :: stack)) EndsValue
  makes (ts : List Token) (hts : ts.map Token.word = Word.unbroken ws) :
    ∃ n, e.denotes b n ∧ e.ReadsPart n ts

def ShowsParts (e : Enclosed β) : List β → List Text → Prop :=
  List.Forall₂ fun b t => ∃ ws, e.ShowsPart b t ws

/-- In brackets the text of many parts is read, by `Reads`, as what denotes them. -/
structure ShowsMany (e : Enclosed β) (Reads : List Node → List Token → Prop) (bs : List β)
    (t : Text) (ws : List Word) : Prop where
  prints {stack : List Token.Context} (hs : Nested stack) :
    Prints (InValue (e.context :: stack)) t ws (InValue (e.context :: stack)) EndsValue
  makes (ts : List Token) (hts : ts.map Token.word = Word.unbroken ws) :
    ∃ ns, List.Forall₂ e.denotes bs ns ∧ Reads ns ts

theorem showsMany_nil {Reads : List Node → List Token → Prop} (h : Reads [] []) :
    e.ShowsMany Reads [] [] [] := by
  refine ⟨fun hs => .nil, fun ts hts => ?_⟩
  obtain rfl := List.map_eq_nil_iff.1 hts
  exact ⟨[], .nil, h⟩

theorem prints_comma {stack : List Token.Context} (hs : Nested stack) :
    Prints (InValue stack) (Text.ofString ",") [⟨.comma, ","⟩] (InValue stack) fun _ => True :=
  (Prints.sign (x := (",", .comma)) hs (by decide) (by decide) fun _ h => h).weaken
    (fun _ h => h) (fun _ h => h.1) fun _ h => h

theorem endsValue_behind {texts : List Text} {rest : Text} (hrest : EndsValue rest) :
    EndsValue (Print.behind "," texts ++ rest) := by
  cases texts with
  | nil => exact hrest
  | cons t texts =>
    rw [Print.behind_cons]
    rintro c ⟨⟩
    exact .inl rfl

theorem ShowsPart.append {t u : Text} {ws vs : List Word} (Reads : List Node → List Token → Prop)
    (h : e.ShowsPart b t ws) (h' : e.ShowsMany e.ReadsParts bs u vs)
    (hu : ∀ rest, EndsValue rest → EndsValue (u ++ rest))
    (hread : ∀ n ns ts us, e.ReadsPart n ts → e.ReadsParts ns us → Reads (n :: ns) (ts ++ us)) :
    e.ShowsMany Reads (b :: bs) (t ++ u) (ws ++ vs) := by
  refine ⟨fun hs => (h.prints hs).append (h'.prints hs) hu, fun ts hts => ?_⟩
  rw [Word.unbroken_append] at hts
  obtain ⟨us, vs, rfl, hus, hvs⟩ := List.map_eq_append_iff.1 hts
  obtain ⟨n, hn, hpart⟩ := h.makes us hus
  obtain ⟨ns, hns, hmore⟩ := h'.makes vs hvs
  exact ⟨n :: ns, .cons hn hns, hread n ns us vs hpart hmore⟩

theorem showsMany_behind {texts : List Text} (h : e.ShowsParts bs texts) :
    ∃ ws, e.ShowsMany e.ReadsParts bs (Print.behind "," texts) ws := by
  induction h with
  | nil => exact ⟨[], showsMany_nil readsParts_nil⟩
  | @cons b t bs texts hpart _ ih =>
    obtain ⟨wp, hpart⟩ := hpart
    obtain ⟨wm, hmore⟩ := ih
    have hparts := hpart.append (fun ns ts => ∀ c : Token, c.kind = .comma →
      e.ReadsParts ns (c :: ts)) hmore (fun _ => endsValue_behind)
        fun _ _ _ _ hread hreads _ hc => readsParts_cons hc hread hreads
    rw [Print.behind_cons]
    refine ⟨⟨.comma, ","⟩ :: (wp ++ wm), fun hs => ?_, fun ts hts => ?_⟩
    · exact (prints_comma (e.nested hs)).append (hparts.prints hs) fun _ _ => trivial
    · have hcomma : (⟨.comma, ","⟩ : Word).kind ≠ .newline := by decide
      rw [Word.unbroken_cons hcomma] at hts
      obtain ⟨c, us, rfl, hc, hus⟩ := List.map_eq_cons_iff.1 hts
      obtain ⟨ns, hns, hreads⟩ := hparts.makes us hus
      exact ⟨ns, hns, hreads c (kind_of_word hc)⟩

theorem showsMany_join {texts : List Text} (h : e.ShowsParts bs texts) :
    ∃ ws, e.ShowsMany e.ReadsAll bs (Text.join "," texts) ws := by
  cases h with
  | nil => exact ⟨[], showsMany_nil readsAll_nil⟩
  | cons hpart hmore =>
    obtain ⟨wp, hpart⟩ := hpart
    obtain ⟨wm, hmore⟩ := showsMany_behind hmore
    rw [Print.join_cons]
    exact ⟨wp ++ wm, hpart.append e.ReadsAll hmore (fun _ => endsValue_behind)
      fun _ _ _ _ => readsAll_cons⟩

end Enclosed

/-! ## Values -/

variable {r : Reader} {rules : Rules} {e key : Node} {t o c : Token} {ts : List Token}

theorem isRead_number (ht : t.kind = .number) :
    (Phrase.primary (Reader.number t)).IsRead r rules [t] := by
  intro rest
  simp only [List.cons_append, List.nil_append, Grammar.primary, run_peek, ht, run_next]
  rfl

theorem objectMember_property (ht : t.kind = .string) (hkey : r.string t = .ok key)
    (hc : c.kind = .colon) (h : (Phrase.assign e).IsRead r rules ts) (rest : List Token)
    (hrest : EndsBelow 1 rest) :
    objectMember r (above r rules) (t :: c :: (ts ++ rest)) =
      .ok (.ok (.property (.ofLoc t.start) false false key e), rest) := by
  -- a string in front is neither a spread nor the word of a method
  have hspread : (t :: c :: (ts ++ rest)).head?.map Token.kind ≠ some .ellipsis := by simp [ht]
  have hword : methodWord? (t :: c :: (ts ++ rest)) = .ok (none, t :: c :: (ts ++ rest)) := by
    rw [methodWord?, run_peekKind?, List.head?_cons, Option.map_some, ht]
    rfl
  have hname : memberKey r (above r rules) (t :: c :: (ts ++ rest)) =
      .ok (.ok (key, false), c :: (ts ++ rest)) := by
    simp only [memberKey, run_next, ht, hkey]
    rfl
  rw [objectMember, run_here, run_accept?_none hspread]
  simp only [run_bind hword, run_peek, run_bind hname, run_peekKind?, List.head?_cons,
    Option.map_some, hc, run_next, above_assign, run_bind (h rest hrest)]
  rfl

theorem primary_array {ns : List Node} (ho : o.kind = .leftBracket) {rest : List Token}
    (h : commaList .rightBracket (element rules) ts = .ok (ns.map .ok, rest)) :
    Grammar.primary r rules (o :: ts) = .ok (.ok (.array (.ofLoc o.start) ns), rest) := by
  simp only [Grammar.primary, run_peek, ho, run_next, run_bind h, mapM_ok]
  rfl

theorem primary_object {ns : List Node} (ho : o.kind = .leftBrace) {rest : List Token}
    (h : commaList .rightBrace (objectMember r rules) ts = .ok (ns.map .ok, rest)) :
    Grammar.primary r rules (o :: ts) = .ok (.ok (.object (.ofLoc o.start) ns), rest) := by
  simp only [Grammar.primary, run_peek, ho, run_next, run_bind h, mapM_ok]
  rfl

/-- Where a value can start, the text is read as what denotes the value. -/
structure ShowsValue (v : Value) (t : Text) (ws : List Word) : Prop where
  visibly : t.StartsVisibly
  prints {stack : List Token.Context} (hs : Nested stack) :
    Prints (StartsValue stack) t ws (InValue stack) EndsValue
  makes (ts : List Token) (hts : ts.map Token.word = Word.unbroken ws) :
    ∃ n, Static.Denotes n v ∧ ReadsValue n ts

variable {v : Value}

theorem showsValue_word {w : Word} (hvisibly : w.text.StartsVisibly)
    (hcut : ∀ {rest wr}, EndsValue rest → Spells rest wr → Spells (w.text ++ rest) (w :: wr))
    (hkind : w.kind.isQuoted ∧ w.kind.startsValue ∧ w.kind ∉ [.leftBracket, .leftBrace])
    (hread : ∀ t : Token, t.word = w → ∃ n, Static.Denotes n v ∧
      ∀ r rules, (Phrase.primary n).IsRead r rules [t]) :
    ShowsValue v w.text [w] := by
  obtain ⟨hquoted, hstarts, hopens⟩ := hkind
  have hkinds : w.kind ≠ .newline ∧ ∀ p : Place, p.stackAfter w.kind = p.stack := by
    revert hstarts hopens hquoted
    cases w.kind <;> simp [Token.Kind.startsValue, Token.Kind.isQuoted, Token.Place.stackAfter]
  refine ⟨hvisibly, fun {stack} hs => ?_, fun ts hts => ?_⟩
  · have hword := Prints.word [] hs (by simp) hquoted
      (fun p (hp : StartsValue stack p) => ⟨hp.toInValue, fun _ => hp.member⟩)
      (fun p hp => (hkinds.2 p).trans hp) hcut
    exact hword.weaken (fun _ h => h) (fun _ h => h.1) fun _ h => h
  · rw [Word.unbroken_cons hkinds.1] at hts
    obtain ⟨t, rfl, ht⟩ := List.map_eq_singleton_iff.1 hts
    obtain ⟨n, hn, hread⟩ := hread t ht
    exact ⟨n, hn, ⟨t, [], rfl, by rw [kind_of_word ht]; exact hstarts⟩, fun r depth _ => hread r _⟩

theorem showsValue_str (x : Text) :
    ShowsValue (.str x) x.stringLiteral [⟨.string, x.stringLiteral⟩] :=
  showsValue_word (w := ⟨.string, x.stringLiteral⟩) (Text.startsVisibly_stringLiteral x)
    (fun _ h => h.string x) ⟨rfl, rfl, by simp⟩ fun t ht =>
      ⟨.literal (.ofLoc t.start) (.str x), .literal .str, fun _ _ =>
        isRead_string (kind_of_word ht) (unescaped_inside (text_of_word ht))⟩

theorem showsValue_int (n : Nat) :
    ShowsValue (.int n) (Text.ofNat n) [⟨.number, Text.ofNat n⟩] := by
  refine showsValue_word (w := ⟨.number, Text.ofNat n⟩) ?_ (fun hrest h => ?_)
    ⟨rfl, rfl, by simp⟩ fun t ht =>
      ⟨Reader.number t, ?_, fun _ _ => isRead_number (kind_of_word ht)⟩
  · obtain ⟨c, t, ht⟩ := List.exists_cons_of_ne_nil (Text.ofNat_ne_nil n)
    have hc := CodePoint.isAsciiDigit_iff.1 (Text.ofNat_isAsciiDigit n c (by simp [ht]))
    exact ⟨c, t, ht, by omega⟩
  · exact .word (w := ⟨.number, Text.ofNat n⟩) (Text.ofNat_ne_nil n)
      (Lexeme.next?_ofNat n hrest.endsInteger) h
  · rw [Reader.number, text_of_word ht, Reader.numberValue_ofNat]
    exact .literal .int

theorem showsValue_bool (b : Bool) : ∃ ws, ShowsValue (.bool b) (Literal.text (.bool b)) ws := by
  have hname {x : Text} {k : Kind} (hx : Identifier.hasForm x) (hk : Lexeme.nameKind x = k)
      (hkind : k = .trueWord ∨ k = .falseWord) (hread : ∀ t : Token, t.kind = k →
        ∃ n, Static.Denotes n (.bool b) ∧ ∀ r rules, (Phrase.primary n).IsRead r rules [t]) :
      ShowsValue (.bool b) x [⟨k, x⟩] := by
    refine showsValue_word (w := ⟨k, x⟩) (Text.startsVisibly_of_hasForm hx)
      (fun hrest h => h.name hx hk hrest.endsName) ?_ fun t ht => hread t (kind_of_word ht)
    rcases hkind with rfl | rfl <;> exact ⟨rfl, rfl, by simp⟩
  cases b with
  | true => exact ⟨_, hname (x := "true") rfl rfl (.inl rfl) fun t ht =>
      ⟨_, .literal .bool, fun _ _ => isRead_true ht⟩⟩
  | false => exact ⟨_, hname (x := "false") rfl rfl (.inr rfl) fun t ht =>
      ⟨_, .literal .bool, fun _ _ => isRead_false ht⟩⟩

/-- What can stand in front of a word: nothing, or the break of an indented line. -/
inductive Breaks : Text → List Word → Prop where
  | none : Breaks [] []
  | line (level : Nat) : Breaks (Text.ofString "\n" ++ Print.indentation level) [.line level]

theorem Breaks.kind {lead : Text} {ls : List Word} (h : Breaks lead ls) :
    ∀ l ∈ ls, l.kind = .newline := by
  cases h <;> simp [Word.line]

theorem Breaks.spells {lead u : Text} {ls ws : List Word} (h : Breaks lead ls)
    (hu : u.StartsVisibly) (hspells : Spells u ws) : Spells (lead ++ u) (ls ++ ws) := by
  cases h with
  | none => exact hspells
  | line level => exact hspells.line level hu

namespace Enclosed

variable {β : Type} {e : Enclosed β} {bs : List β} {texts : List Text}
  {stack : List Token.Context}

theorem prints_opening (hs : Nested stack) : Prints (StartsValue stack)
    (Text.ofString e.opening.1) [⟨e.opening.2, e.opening.1⟩] (InValue (e.context :: stack))
      fun _ => True := by
  have hopens {x : String × Kind} {stack' : List Token.Context}
      (hx : x ∈ Lexeme.freeSigns ∨ x ∈ CutInto.signs) (hk : x.2.isQuoted ∧ x.2.isReserved = false)
      (hstack : ∀ p : Place, p.stack = stack → p.stackAfter x.2 = stack') :
      Prints (StartsValue stack) (Text.ofString x.1) [⟨x.2, x.1⟩] (InValue stack') fun _ => True :=
    (Prints.sign hs hx hk hstack).weaken (fun _ h => h.toInValue) (fun _ h => h.1) fun _ h => h
  rcases e.brackets_cases with ⟨hc, ho, -⟩ | ⟨hc, ho, -⟩ <;> rw [hc, ho]
  · exact hopens (by decide) (by decide) fun p hp => by simp [Token.Place.stackAfter, hp]
  · exact hopens (by decide) (by decide) fun p hp => by simp [Token.Place.stackAfter, hp]

/-- The bracket closes what was opened, in a line of its own or not. -/
theorem prints_closing (hs : Nested stack) {lead : Text} {ls : List Word} (hlead : Breaks lead ls) :
    Prints (InValue (e.context :: stack)) (lead ++ Text.ofString e.closing.1)
      (ls ++ [⟨e.closing.2, e.closing.1⟩]) (InValue stack) fun _ => True := by
  have hstack (k : Kind) (hk : k = .rightBracket ∨ k = .rightBrace) (p : Place)
      (hp : p.stack = e.context :: stack) : p.stackAfter k = stack := by
    rcases hk with rfl | rfl <;> simp [Token.Place.stackAfter, hp, hs.nonempty]
  have hclosing : (e.closing ∈ Lexeme.freeSigns ∨ e.closing ∈ CutInto.signs) ∧
      (Text.ofString e.closing.1).StartsVisibly ∧ e.closing.2.isQuoted ∧
        e.closing.2.isReserved = false ∧
          (e.closing.2 = .rightBracket ∨ e.closing.2 = .rightBrace) := by
    rcases e.brackets_cases with ⟨-, -, h⟩ | ⟨-, -, h⟩ <;> rw [h]
    · exact ⟨by decide, ⟨_, _, rfl, by decide⟩, by decide⟩
    · exact ⟨by decide, ⟨_, _, rfl, by decide⟩, by decide⟩
  obtain ⟨hsign, hvisibly, hquoted, hreserved, hkind⟩ := hclosing
  have hword := Prints.word (t := lead ++ Text.ofString e.closing.1)
    (w := ⟨e.closing.2, e.closing.1⟩) ls (e.nested hs) hlead.kind hquoted
    (fun p (hp : InValue _ p) => ⟨hp, fun h => absurd h (by simp [hreserved])⟩)
    (hstack _ hkind) fun (_ : True) h => by
      rw [List.append_assoc]
      exact hlead.spells (hvisibly.append _) (h.sign hsign)
  exact hword.weaken (fun _ h => h) (fun _ h => h.1) fun _ h => h

theorem endsValue_closing (e : Enclosed β) {lead : Text} {ls : List Word} (hlead : Breaks lead ls)
    (rest : Text) : EndsValue (lead ++ Text.ofString e.closing.1 ++ rest) := by
  cases hlead with
  | none =>
    rcases e.brackets_cases with ⟨-, -, h⟩ | ⟨-, -, h⟩ <;> rw [h] <;> rintro c ⟨⟩
    · exact .inr (.inr (.inl rfl))
    · exact .inr (.inr (.inr rfl))
  | line level =>
    rintro c ⟨⟩
    exact .inr (.inl rfl)

/-- Brackets around what is read as the parts are read as what denotes the value. -/
def Builds (e : Enclosed β) (bs : List β) (v : Value) : Prop :=
  ∀ (a b : Token) (us : List Token) (ns : List Node), a.kind = e.opening.2 → b.kind = e.close →
    List.Forall₂ e.denotes bs ns → e.ReadsAll ns us → ∃ n, Static.Denotes n v ∧
      ∀ r depth, us.length ≤ depth →
        (Phrase.primary n).IsRead r (rulesTo r (depth + 1)) (a :: us ++ [b])

theorem exists_showsValue (h : e.ShowsParts bs texts) {lead : Text} {ls : List Word}
    (hlead : Breaks lead ls) (hread : e.Builds bs v) :
    ∃ ws, ShowsValue v (Text.ofString e.opening.1 ++ (Text.join "," texts ++
      (lead ++ Text.ofString e.closing.1))) ws := by
  obtain ⟨ws, hprints, hmakes⟩ := showsMany_join h
  have hopening : (Text.ofString e.opening.1).StartsVisibly ∧ e.opening.2.startsValue ∧
      e.opening.2 ≠ .newline ∧ e.closing.2 ≠ .newline := by
    rcases e.brackets_cases with ⟨-, ho, hc⟩ | ⟨-, ho, hc⟩ <;> rw [ho, hc]
    · exact ⟨⟨_, _, rfl, by decide⟩, by decide⟩
    · exact ⟨⟨_, _, rfl, by decide⟩, by decide⟩
  obtain ⟨hvisibly, hstarts, hline, hline'⟩ := hopening
  refine ⟨⟨e.opening.2, e.opening.1⟩ :: (ws ++ (ls ++ [⟨e.closing.2, e.closing.1⟩])),
    hvisibly.append _, fun hs => ?_, fun ts hts => ?_⟩
  · have hinner := (hprints hs).append (prints_closing hs hlead) fun rest _ =>
      e.endsValue_closing hlead rest
    exact ((prints_opening hs).append hinner fun _ _ => trivial).weaken (fun _ h => h)
      (fun _ h => h) fun _ _ => trivial
  · have hlast : Word.unbroken [(⟨e.closing.2, e.closing.1⟩ : Word)] =
        [⟨e.closing.2, e.closing.1⟩] := by rw [Word.unbroken_cons hline', Word.unbroken_nil]
    rw [Word.unbroken_cons hline, Word.unbroken_append, Word.unbroken_append,
      Word.unbroken_lines hlead.kind, hlast, List.nil_append, ← List.cons_append] at hts
    obtain ⟨a, us, b, rfl, ha, hus, hb⟩ := enclosed_of_words hts
    obtain ⟨ns, hns, hall⟩ := hmakes us hus
    obtain ⟨n, hn, hprimary⟩ := hread a b us ns ha hb hns hall
    refine ⟨n, hn, ⟨a, _, rfl, by rw [ha]; exact hstarts⟩, fun r depth hdepth => ?_⟩
    simp only [List.length_append, List.length_cons] at hdepth
    obtain ⟨depth, rfl⟩ : ∃ d, depth = d + 1 := ⟨depth - 1, by omega⟩
    exact hprimary r depth (by omega)

end Enclosed

/-! ### Lists -/

def listed : Enclosed Value :=
  ⟨.bracket, ("[", .leftBracket), ("]", .rightBracket), fun _ rules => element rules,
    fun v n => Static.Denotes n v, by decide⟩

theorem showsPart_listed {t : Text} {ws : List Word} (h : ShowsValue v t ws) :
    listed.ShowsPart v t ws := by
  refine ⟨fun hs => (h.prints (listed.nested hs)).weaken (fun _ hp => hp.startsValue_bracket)
    (fun _ h => h) fun _ h => h, fun ts hts => ?_⟩
  obtain ⟨n, hn, hread⟩ := h.makes ts hts
  obtain ⟨t, us, rfl, ht⟩ := hread.starts
  refine ⟨n, hn, ⟨t, us, rfl, fun hk => ?_⟩, fun r depth hdepth => hread.element r depth hdepth⟩
  rw [hk] at ht
  cases ht

theorem allDenote_of_forall₂ {vs : List Value} {ns : List Node}
    (h : List.Forall₂ listed.denotes vs ns) : Static.AllDenote ns vs := by
  induction h with
  | nil => exact .nil
  | cons hn _ ih => exact .cons hn ih

theorem builds_list (items : List Value) : listed.Builds items (.list items) := by
  intro a b us ns ha hb hns hall
  refine ⟨.array (.ofLoc a.start) ns, .array (allDenote_of_forall₂ hns),
    fun r depth hdepth rest => ?_⟩
  have htokens : a :: us ++ [b] ++ rest = a :: (us ++ b :: rest) := by simp
  rw [htokens]
  exact primary_array ha (hall r depth hdepth b rest hb)

theorem exists_showsValue_list {items : List Value} {f : Value → Text}
    (h : ∀ v ∈ items, ∃ ws, ShowsValue v (f v) ws) :
    ∃ ws, ShowsValue (.list items) ("[" ++ Print.commas (items.map f) ++ "]") ws := by
  cases items with
  | nil =>
    have hnone : listed.ShowsParts [] [] := .nil
    exact Enclosed.exists_showsValue hnone .none (builds_list [])
  | cons v items =>
    obtain ⟨⟨ws, hfirst⟩, hmore⟩ := List.forall_mem_cons.1 h
    -- behind the first item each has a blank in front
    have hparts : listed.ShowsParts (v :: items)
        (f v :: (items.map f).map (Text.ofString " " ++ ·)) := by
      rw [List.map_map]
      refine .cons ⟨ws, showsPart_listed hfirst⟩
        (List.forall₂_map_right_iff.2 (List.forall₂_same.2 fun v hv => ?_))
      obtain ⟨ws, h⟩ := hmore v hv
      obtain ⟨hprints, hmakes⟩ := showsPart_listed h
      exact ⟨ws, fun hs => (hprints hs).blank h.visibly, hmakes⟩
    obtain ⟨ws, hshows⟩ := Enclosed.exists_showsValue hparts .none (builds_list (v :: items))
    rw [Print.join_cons, ← Print.behind_append] at hshows
    rw [List.map_cons, Print.commas_cons, List.append_assoc]
    exact ⟨ws, hshows⟩

/-! ### Mappings -/

def DenotesEntry (entry : Text × Value) (n : Node) : Prop :=
  ∃ head shorthand key inner, n = .property head false shorthand key inner ∧
    Static.Spells key entry.1 ∧ Static.Denotes inner entry.2

def mapped : Enclosed (Text × Value) :=
  ⟨.object, ("\x7b", .leftBrace), ("\x7d", .rightBrace), objectMember, DenotesEntry, by decide⟩

def entryText (level : Nat) (key t : Text) : Text :=
  Text.ofString "\n" ++ Print.indentation level ++
    (key.stringLiteral ++ (Text.ofString ":" ++ CodePoint.scalar ' ' :: t))

theorem showsPart_mapped (level : Nat) (key : Text) {t : Text} {ws : List Word}
    (h : ShowsValue v t ws) : mapped.ShowsPart (key, v) (entryText level key t)
      (.line level :: ⟨.string, key.stringLiteral⟩ :: ⟨.colon, ":"⟩ :: ws) := by
  refine ⟨fun {stack} hs => ?_, fun ts hts => ?_⟩
  · have hnested := mapped.nested hs
    have hkey := Prints.word (w := ⟨.string, key.stringLiteral⟩)
      (t := Text.ofString "\n" ++ Print.indentation level ++ key.stringLiteral) [.line level]
      hnested (by simp [Word.line]) rfl (fun p (hp : InValue _ p) => ⟨hp, nofun⟩)
      (fun _ hp => hp) fun (_ : True) h => by
        rw [List.append_assoc]
        exact (h.string key).line level ((Text.startsVisibly_stringLiteral key).append _)
    have hcolon := Prints.sign (x := (":", .colon)) hnested (by decide) (by decide) fun _ hp => hp
    have hvalue := (h.prints hnested).blank h.visibly
    have hbehind := hcolon.append (hvalue.weaken (fun _ hp => hp.1.startsValue_colon hnested hp.2)
      (fun _ h => h) fun _ h => h) fun _ _ => trivial
    have hall := hkey.append (hbehind.weaken (fun _ hp => hp.1) (fun _ h => h) fun _ h => h)
      fun _ _ => trivial
    simpa only [entryText, List.append_assoc, List.cons_append, List.nil_append] using hall
  · have hwords : Word.unbroken (.line level :: ⟨.string, key.stringLiteral⟩ :: ⟨.colon, ":"⟩ :: ws)
        = ⟨.string, key.stringLiteral⟩ :: ⟨.colon, ":"⟩ :: Word.unbroken ws := rfl
    rw [hwords] at hts
    obtain ⟨k, us, rfl, hk, hus⟩ := List.map_eq_cons_iff.1 hts
    obtain ⟨c, us, rfl, hc, hus⟩ := List.map_eq_cons_iff.1 hus
    obtain ⟨n, hn, hread⟩ := h.makes us hus
    refine ⟨.property (.ofLoc k.start) false false (.literal (.ofLoc k.start) (.str key)) n,
      ⟨_, _, _, _, rfl, .string, hn⟩, ⟨k, _, rfl, by rw [kind_of_word hk]; exact nofun⟩,
      fun r depth hdepth => ?_⟩
    simp only [List.length_cons] at hdepth
    exact objectMember_property (kind_of_word hk) (string_eq r (text_of_word hk)) (kind_of_word hc)
      (hread.expression r depth (by omega))

theorem membersDenote_of_forall₂ {entries : Entries} {ns : List Node}
    (h : List.Forall₂ mapped.denotes entries ns) : Static.MembersDenote false ns entries := by
  induction h with
  | nil => exact .nil
  | cons hn _ ih =>
    obtain ⟨head, shorthand, key, inner, rfl, hkey, hinner⟩ := hn
    exact .property hkey nofun hinner ih

theorem builds_mapping {entries : Entries} (hkeys : entries.keys.Nodup) :
    mapped.Builds entries (.mapping entries) := by
  intro a b us ns ha hb hns hall
  refine ⟨.object (.ofLoc a.start) ns, ?_, fun r depth hdepth rest => ?_⟩
  · have hobject : Static.Denotes (.object (.ofLoc a.start) ns) (.mapping entries.latest) :=
      .object (membersDenote_of_forall₂ hns)
    rwa [Entries.latest_eq hkeys] at hobject
  · have htokens : a :: us ++ [b] ++ rest = a :: (us ++ b :: rest) := by simp
    rw [htokens]
    exact primary_object ha (hall r depth hdepth b rest hb)

theorem braced_of_ne_nil (level : Nat) {lines : List Text} (h : lines ≠ []) :
    Print.braced level lines [] "," =
      Text.ofString "\x7b" ++ (Text.join "," (lines.map (Text.ofString "\n" ++ ·)) ++
        (Text.ofString "\n" ++ Print.indentation level ++ Text.ofString "\x7d")) := by
  obtain ⟨line, lines, rfl⟩ := List.exists_cons_of_ne_nil h
  have hopening : Text.ofString "\x7b\n" = Text.ofString "\x7b" ++ Text.ofString "\n" := rfl
  simp only [Print.braced, List.isEmpty_cons, Bool.false_and, Bool.false_eq_true, if_false,
    List.map_nil, List.append_nil, Print.join_cons, List.map_cons, ← Print.behind_append, hopening,
    List.append_assoc]

theorem exists_showsValue_mapping {entries : Entries} {f : Value → Text} (level : Nat)
    (hkeys : entries.keys.Nodup) (h : ∀ e ∈ entries, ∃ ws, ShowsValue e.2 (f e.2) ws) :
    ∃ ws, ShowsValue (.mapping entries) (Print.braced level (entries.map fun e =>
      Print.indentation (level + 1) ++ (e.1.stringLiteral ++ ": " ++ f e.2)) [] ",") ws := by
  have hread := builds_mapping hkeys
  have hparts : mapped.ShowsParts entries
      (entries.map fun e => entryText (level + 1) e.1 (f e.2)) := by
    refine List.forall₂_map_right_iff.2 (List.forall₂_same.2 fun e he => ?_)
    obtain ⟨ws, hvalue⟩ := h e he
    exact ⟨_, showsPart_mapped (level + 1) e.1 hvalue⟩
  cases entries with
  | nil => exact Enclosed.exists_showsValue hparts .none hread
  | cons e entries =>
    obtain ⟨ws, hshows⟩ := Enclosed.exists_showsValue hparts (.line level) hread
    have hlines : (List.map (fun e => Print.indentation (level + 1) ++
        (e.1.stringLiteral ++ ": " ++ f e.2)) (e :: entries)).map (Text.ofString "\n" ++ ·) =
          (e :: entries).map fun e => entryText (level + 1) e.1 (f e.2) := by
      rw [List.map_map]
      refine List.map_congr_left fun e _ => ?_
      have hcolon : Text.ofString ": " = Text.ofString ":" ++ [CodePoint.scalar ' '] := rfl
      simp [entryText, hcolon]
    rw [braced_of_ne_nil level (by simp), hlines]
    exact ⟨ws, hshows⟩

end Grammar

/-! ## Trees -/

namespace Value

open Grammar (ShowsValue)

theorem placed_quoted (v : Value) {least : Nat} (hleast : least ≤ 14) (t : Text) :
    Print.placed least v.quoted t = t := by
  have hbound : ¬Precedence.primary < least := Nat.not_lt.2 hleast
  cases v <;> rw [quoted] <;> exact if_neg hbound

theorem text_quoted_list (level : Nat) (items : List Value) :
    Print.text level (quoted (.list items)) =
      "[" ++ Print.commas (items.map fun v => Print.text level v.quoted) ++ "]" := by
  have hitems : quotedItems items = items.map quoted := by
    induction items with
    | nil => rfl
    | cons v items ih => rw [quotedItems, ih, List.map_cons]
  rw [quoted, Print.text_array, hitems, List.map_map]
  congr 3
  refine List.map_congr_left fun v _ => placed_quoted v (by decide) _

theorem text_quoted_mapping (level : Nat) (entries : Entries) :
    Print.text level (quoted (.mapping entries)) = Print.braced level (entries.map fun e =>
      Print.indentation (level + 1) ++ (e.1.stringLiteral ++ ": " ++
        Print.text (level + 1) e.2.quoted)) [] "," := by
  have hlines : Print.lines (level + 1) (quotedEntries entries) = entries.map fun e =>
      Print.indentation (level + 1) ++ (e.1.stringLiteral ++ ": " ++
        Print.text (level + 1) e.2.quoted) := by
    induction entries with
    | nil => rfl
    | cons e entries ih =>
      obtain ⟨key, v⟩ := e
      have hline : Print.lines (level + 1) (quotedEntries ((key, v) :: entries)) =
          (Print.indentation (level + 1) ++ (key.stringLiteral ++ ": " ++
            Print.placed 1 v.quoted (Print.text (level + 1) v.quoted))) ::
              Print.lines (level + 1) (quotedEntries entries) := rfl
      rw [hline, placed_quoted v (by decide), ih, List.map_cons]
  have hbraced : Print.text level (quoted (.mapping entries)) =
      Print.braced level (Print.lines (level + 1) (quotedEntries entries)) [] "," := rfl
  rw [hbraced, hlines]

/-- The text of the tree that quotes a value is read as what denotes the value, wherever a value
can start. -/
theorem IsPlain.exists_showsValue {v : Value} (h : v.IsPlain) (level : Nat) :
    ∃ ws, ShowsValue v (Print.text level v.quoted) ws := by
  induction h generalizing level with
  | str t => exact ⟨_, Grammar.showsValue_str t⟩
  | int n => exact ⟨_, Grammar.showsValue_int n⟩
  | bool b => exact Grammar.showsValue_bool b
  | list _ ih =>
    rw [text_quoted_list]
    exact Grammar.exists_showsValue_list fun v hv => ih v hv level
  | mapping hkeys _ ih =>
    rw [text_quoted_mapping]
    exact Grammar.exists_showsValue_mapping (f := fun v => Print.text (level + 1) v.quoted) level
      hkeys fun e he => ih e he (level + 1)

/-- Printing the tree that quotes a value, reading the text and evaluating what is read gives the
value back, with the keys of each mapping in their order. -/
theorem quoted_evaluates {v : Value} (h : v.IsPlain) (level : Nat) (file : Option Text)
    (origin : SourceUnit) (invoked : Text) :
    ∃ n, Node.readExpression (v.quoted.expressionText level 0) file = .ok n ∧
      Static.value origin invoked n = .ok v := by
  obtain ⟨ws, -, hprints, hmakes⟩ := h.exists_showsValue level
  have hnested : Token.Place.Nested [.group] := ⟨by simp, by simp⟩
  have hshown := hprints hnested
  obtain ⟨q, -, hlays⟩ := hshown.lays Token.Place.startsValue_ofExpression
  have hspells := hshown.cut (show EndsValue [] by simp [EndsValue]) .nil
  rw [List.append_nil, List.append_nil] at hspells
  rw [Node.expressionText, placed_quoted v (Nat.zero_le _)]
  refine Node.readExpression_of_lays hspells hlays trivial (fun ts hts => ?_) file
  obtain ⟨n, hn, hread⟩ := hmakes ts hts
  exact ⟨n, (Static.value_eq_ok_iff n v).2 hn, hread.expression⟩

/-- A mapping with a key that needs escapes, a surrogate, and values of all kinds below it. -/
def nestedSample : Value :=
  .mapping [("b\"\\", .list [.int 10, .str [.scalar '\u2028', .surrogate 0], .mapping []]),
    ("scope", .mapping [("b", .bool true), ("a", .list [])])]

theorem quoted_evaluates_nested : nestedSample.IsPlain ∧ ∃ n,
    Node.readExpression (nestedSample.quoted.expressionText 0 0) none = .ok n ∧
      Static.value ⟨none, none⟩ "hbs" n = .ok nestedSample := by
  have hlist : IsPlain (.list [.int 10, .str [.scalar '\u2028', .surrogate 0], .mapping []]) := by
    refine .list ?_
    simp only [List.forall_mem_cons, List.not_mem_nil, false_implies, implies_true, and_true]
    exact ⟨.int 10, .str _, .mapping (by decide) nofun⟩
  have hmapping : IsPlain (.mapping [("b", .bool true), ("a", .list [])]) := by
    refine .mapping (by decide) ?_
    simp only [List.forall_mem_cons, List.not_mem_nil, false_implies, implies_true, and_true]
    exact ⟨.bool true, .list nofun⟩
  have hplain : nestedSample.IsPlain := by
    refine .mapping (by decide) ?_
    simp only [List.forall_mem_cons, List.not_mem_nil, false_implies, implies_true, and_true]
    exact ⟨hlist, hmapping⟩
  exact ⟨hplain, quoted_evaluates hplain 0 none ⟨none, none⟩ "hbs"⟩

end Value

end InlineTemplates
