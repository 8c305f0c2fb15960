import InlineTemplates.Grammar.Expression
import InlineTemplates.Proofs.Reading

/-!
# What drafts account for

A draft that fails does so for the literal in one of the tokens that it was read from, or because a
string names an import that gets no local name. A draft that does not fail was read from tokens
whose literals all have values. A rule that fails itself does so at one of the tokens.
-/

namespace InlineTemplates

/-- What holds of the failure, if there is one, and what holds of the result otherwise. -/
structure Settles {ε α : Type} (x : Except ε α) (Q : ε → Prop) (R : α → Prop) : Prop where
  fails : Fails x Q
  yields : Yields x R

namespace Settles

variable {ε α β : Type} {x : Except ε α} {Q : ε → Prop} {R : α → Prop} {S : β → Prop}

theorem ok {a : α} (h : R a) : Settles (.ok a : Except ε α) Q R := ⟨.ok a, .ok h⟩

theorem error {e : ε} (h : Q e) : Settles (.error e : Except ε α) Q R := ⟨.error h, nofun⟩

theorem bind {f : α → Except ε β} (hx : Settles x Q R) (hf : ∀ a, R a → Settles (f a) Q S) :
    Settles (x >>= f) Q S := by
  cases x with
  | error e => exact error (hx.fails e rfl)
  | ok a => exact hf a (hx.yields a rfl)

theorem mapM {f : α → Except ε β} {as : List α} (hf : ∀ a ∈ as, Settles (f a) Q fun _ => R a) :
    Settles (as.mapM f) Q fun _ => ∀ a ∈ as, R a := by
  induction as with
  | nil => exact ok (List.forall_mem_nil _)
  | cons a as ih =>
    obtain ⟨ha, has⟩ := List.forall_mem_cons.1 hf
    rw [List.mapM_cons]
    exact ha.bind fun _ ha => (ih has).bind fun _ has => ok (List.forall_mem_cons.2 ⟨ha, has⟩)

end Settles

/-! ## Literals -/

/-- The kinds of the tokens that hold literals with escapes. -/
def Token.Kind.isLiteral (k : Token.Kind) : Bool := k = .string || k = .template

def Reader.Faulty (r : Reader) (t : Token) (e : Error) : Prop :=
  t.kind = .string ∧ r.string t = .error e ∨ t.kind = .template ∧ r.template t = .error e

theorem Reader.not_faulty {r : Reader} {t : Token} {e : Error} (h : t.kind.isLiteral = false) :
    ¬r.Faulty t e := by
  simp only [Token.Kind.isLiteral, Bool.or_eq_false_iff, decide_eq_false_iff_not] at h
  rintro (⟨hk, -⟩ | ⟨hk, -⟩)
  · exact h.1 hk
  · exact h.2 hk

/-- The tokens of a source and what reads their literals. -/
structure Input where
  reader : Reader
  tokens : List Token

def Input.Offers (i : Input) (e : Error) : Prop :=
  e = .stringImportName ∨ ∃ t ∈ i.tokens, i.reader.Faulty t e

/-- Between `ts` and `rest` no literal fails. -/
def Sound (i : Input) (ts rest : List Token) : Prop :=
  ∀ t ∈ ts, t ∈ rest ∨ ∀ e, ¬i.reader.Faulty t e

namespace Sound

variable {i : Input} {ts mid rest : List Token} {t : Token}

theorem refl (i : Input) (ts : List Token) : Sound i ts ts := fun _ h => .inl h

theorem trans (h : Sound i ts mid) (h' : Sound i mid rest) : Sound i ts rest := by
  intro t ht
  rcases h t ht with hmid | hfine
  · exact h' t hmid
  · exact .inr hfine

theorem first (h : ∀ e, ¬i.reader.Faulty t e) (ts : List Token) : Sound i (t :: ts) ts :=
  List.forall_mem_cons.2 ⟨.inr h, fun _ ht => .inl ht⟩

theorem plain (h : t.kind.isLiteral = false) (ts : List Token) : Sound i (t :: ts) ts :=
  first (fun _ => Reader.not_faulty h) ts

end Sound

/-- The draft accounts for the tokens between `ts` and `rest`. -/
def Accounts (i : Input) {α : Type} (ts : List Token) (d : Except Error α) (rest : List Token) :
    Prop :=
  Settles d i.Offers fun _ => Sound i ts rest

namespace Accounts

variable {i : Input} {α β : Type} {ts ts' mid rest : List Token} {t : Token} {d : Except Error α}

theorem ok {a : α} (h : Sound i ts rest) : Accounts i ts (.ok a) rest := Settles.ok h

theorem bind {f : α → Except Error β} (hd : Accounts i ts d mid)
    (hf : ∀ a, Sound i ts mid → Accounts i ts' (f a) rest) : Accounts i ts' (d >>= f) rest :=
  Settles.bind hd hf

theorem map {f : α → β} (hd : Accounts i ts d mid) (h : Sound i ts mid → Sound i ts' rest) :
    Accounts i ts' (d.map f) rest := by
  cases d with
  | error e => exact .error (hd.fails e rfl)
  | ok a => exact .ok (h (hd.yields a rfl))

theorem widen (hd : Accounts i ts d mid) (h : Sound i ts mid → Sound i ts' rest) :
    Accounts i ts' d rest :=
  ⟨hd.fails, fun a ha => h (hd.yields a ha)⟩

theorem string (ht : t ∈ i.tokens) (hk : t.kind = .string) (ts : List Token) :
    Accounts i (t :: ts) (i.reader.string t) ts := by
  cases hs : i.reader.string t with
  | error e => exact .error (.inr ⟨t, ht, .inl ⟨hk, hs⟩⟩)
  | ok n =>
    refine .ok (.first ?_ ts)
    rintro e (⟨-, he⟩ | ⟨hk', -⟩)
    · cases hs.symm.trans he
    · cases hk.symm.trans hk'

theorem template (ht : t ∈ i.tokens) (hk : t.kind = .template) (ts : List Token) :
    Accounts i (t :: ts) (i.reader.template t) ts := by
  cases hs : i.reader.template t with
  | error e => exact .error (.inr ⟨t, ht, .inr ⟨hk, hs⟩⟩)
  | ok n =>
    refine .ok (.first ?_ ts)
    rintro e (⟨hk', -⟩ | ⟨-, he⟩)
    · cases hk.symm.trans hk'
    · cases hs.symm.trans he

end Accounts

/-! ## Rules -/

namespace Parse

variable {i : Input} {ts ts' mid rest : List Token} {α β : Type} {S : α → List Token → Prop}
  {R : β → List Token → Prop} {x : Parse α} {k : Token.Kind}

/-- In front of `ts`, what the rule reads and leaves has the property `S`. The rule leaves tokens of
the input, and it fails at one of them or at their end. -/
def At (i : Input) (ts : List Token) (x : Parse α) (S : α → List Token → Prop) : Prop :=
  ts ⊆ i.tokens →
    Settles (x ts) (fun o => ∀ t ∈ o, t ∈ i.tokens) fun a => a.2 ⊆ i.tokens ∧ S a.1 a.2

namespace At

theorem pure {a : α} (h : S a ts) : At i ts (Pure.pure a) S := fun hts => .ok ⟨hts, h⟩

theorem bind {f : α → Parse β} (hx : At i ts x S) (hf : ∀ a rest, S a rest → At i rest (f a) R) :
    At i ts (x >>= f) R :=
  fun hts => (hx hts).bind fun a ⟨hrest, ha⟩ => hf a.1 a.2 ha hrest

theorem mono {S' : α → List Token → Prop} (hx : At i ts x S) (h : ∀ a rest, S a rest → S' a rest) :
    At i ts x S' :=
  fun hts => ⟨(hx hts).fails, (hx hts).yields.mono fun _ ha => ⟨ha.1, h _ _ ha.2⟩⟩

theorem fail : At i ts (Parse.fail : Parse α) S :=
  fun hts => .error fun _ ht => hts (List.mem_of_head? ht)

theorem failing {t : Token} (ht : t ∈ i.tokens) :
    At i ts (fun _ => .error (some t) : Parse α) S := by
  refine fun _ => .error ?_
  rintro _ ⟨⟩
  exact ht

theorem next {f : Token → Parse β}
    (h : ∀ t rest, ts = t :: rest → t ∈ i.tokens → At i rest (f t) R) :
    At i ts (Parse.next >>= f) R := by
  intro hts
  cases ts with
  | nil => exact .error nofun
  | cons t rest =>
    obtain ⟨ht, hrest⟩ := List.cons_subset.1 hts
    exact h t rest rfl ht hrest

theorem pass {f : Token → Parse β} (hts : ts.head?.map Token.kind = some k)
    (hk : k.isLiteral = false) (h : ∀ t rest, Sound i ts rest → At i rest (f t) R) :
    At i ts (Parse.next >>= f) R := by
  refine next ?_
  rintro t rest rfl -
  exact h t rest (.plain (Option.some.inj hts ▸ hk) rest)

theorem operator {γ : Type} {op : γ} {ofKind : Token.Kind → Option γ} {f : Token → Parse β}
    (hop : (ts.head?.map Token.kind).bind ofKind = some op) (hstring : ofKind .string = none)
    (htemplate : ofKind .template = none) (h : ∀ t rest, Sound i ts rest → At i rest (f t) R) :
    At i ts (Parse.next >>= f) R := by
  refine next ?_
  rintro t rest rfl -
  refine h t rest (.plain ?_ rest)
  have hne {k : Token.Kind} (hk : ofKind k = none) : t.kind ≠ k := by
    rintro rfl
    cases hop.symm.trans hk
  simp [Token.Kind.isLiteral, hne hstring, hne htemplate]

theorem peek {f : Token → Parse β} (h : ∀ t rest, ts = t :: rest → At i ts (f t) R) :
    At i ts (Parse.peek >>= f) R := by
  intro hts
  cases ts with
  | nil => exact .error nofun
  | cons t rest => exact h t rest rfl hts

theorem here {f : Location → Parse β} (h : ∀ l, At i ts (f l) R) :
    At i ts (Parse.here >>= f) R := by
  intro hts
  cases ts with
  | nil => exact .error nofun
  | cons t rest => exact h t.start hts

theorem peekKind? {f : Option Token.Kind → Parse β} (h : At i ts (f (ts.head?.map Token.kind)) R) :
    At i ts (Parse.peekKind? >>= f) R := h

theorem peekSecond? {f : Option Token.Kind → Parse β} (h : ∀ o, At i ts (f o) R) :
    At i ts (Parse.peekSecond? >>= f) R := h _

theorem atKind {f : Bool → Parse β}
    (h : ∀ b, (b = true → ts.head?.map Token.kind = some k) → At i ts (f b) R) :
    At i ts (Parse.atKind k >>= f) R := h _ of_decide_eq_true

theorem get {f : List Token → Parse β} (h : At i ts (f ts) R) :
    At i ts ((MonadState.get : Parse (List Token)) >>= f) R := h

theorem expect {f : Token → Parse β}
    (h : ∀ t rest, ts = t :: rest → t.kind = k → t ∈ i.tokens → At i rest (f t) R) :
    At i ts (Parse.expect k >>= f) R := by
  have hexpect : At i ts (Parse.expect k) fun t rest =>
      ts = t :: rest ∧ t.kind = k ∧ t ∈ i.tokens := by
    intro hts
    cases ts with
    | nil => exact .error nofun
    | cons t rest =>
      obtain ⟨ht, hrest⟩ := List.cons_subset.1 hts
      simp only [Parse.expect]
      split
      · rename_i hk
        exact .ok ⟨hrest, rfl, hk, ht⟩
      · refine .error ?_
        rintro _ ⟨⟩
        exact ht
  refine hexpect.bind fun t rest ho => ?_
  obtain ⟨heq, hk, ht⟩ := ho
  exact h t rest heq hk ht

theorem skip {f : Token → Parse β} (hk : k.isLiteral = false)
    (h : ∀ t rest, Sound i ts rest → At i rest (f t) R) : At i ts (Parse.expect k >>= f) R := by
  refine expect ?_
  rintro t rest rfl rfl -
  exact h t rest (.plain hk rest)

theorem accept? {f : Option Token → Parse β} (hk : k.isLiteral = false)
    (hnone : At i ts (f none) R)
    (hsome : ∀ t rest, Sound i ts rest → At i rest (f (some t)) R) :
    At i ts (Parse.accept? k >>= f) R := by
  have haccept : At i ts (Parse.accept? k) fun o rest =>
      o = none ∧ rest = ts ∨ ∃ t, o = some t ∧ Sound i ts rest := by
    intro hts
    cases ts with
    | nil => exact .ok ⟨hts, .inl ⟨rfl, rfl⟩⟩
    | cons t rest =>
      simp only [Parse.accept?]
      split
      · rename_i ht
        exact .ok ⟨(List.cons_subset.1 hts).2, .inr ⟨t, rfl, .plain (ht ▸ hk) rest⟩⟩
      · exact .ok ⟨hts, .inl ⟨rfl, rfl⟩⟩
  refine haccept.bind ?_
  rintro _ rest (⟨rfl, rfl⟩ | ⟨t, rfl, hsound⟩)
  · exact hnone
  · exact hsome t rest hsound

theorem skip? {f : Option Token → Parse β} (hk : k.isLiteral = false)
    (h : ∀ o rest, Sound i ts rest → At i rest (f o) R) : At i ts (Parse.accept? k >>= f) R :=
  accept? hk (h none ts (.refl i ts)) fun t => h (some t)

/-- An invariant that each step keeps, the last one included. -/
theorem loop {I : α → List Token → Prop} {step : α → Parse (Option α)}
    (hstep : ∀ a ts, I a ts → At i ts (step a) fun o rest => I (o.getD a) rest) {a : α}
    (h : I a ts) : At i ts (Parse.loop step a) I := by
  -- the clock only bounds the number of steps
  have hiterate (clock : List Token) : ∀ a ts, I a ts → At i ts (iterate step clock a) I := by
    induction clock with
    | nil => exact fun a ts h => .pure h
    | cons _ clock ih =>
      intro a ts h
      refine (hstep a ts h).bind fun o rest ho => ?_
      cases o with
      | none => exact .pure ho
      | some a' => exact ih a' rest ho
  exact hiterate ts a ts h

end At

/-! ## Lists -/

/-- The items have the property `S` one behind the other, with sound tokens between them. -/
inductive Series (i : Input) (S : List Token → α → List Token → Prop) :
    List Token → List α → List Token → Prop
  | nil {ts : List Token} : Series i S ts [] ts
  | cons {ts ts' mid rest : List Token} {a : α} {as : List α} (hsound : Sound i ts ts')
      (ha : S ts' a mid) (has : Series i S mid as rest) : Series i S ts (a :: as) rest

variable {S : List Token → α → List Token → Prop} {item : Parse α} {close : Token.Kind}

theorem Series.snoc {a : α} {as : List α} (has : Series i S ts as mid) (hsound : Sound i mid ts')
    (ha : S ts' a rest) : Series i S ts (as ++ [a]) rest := by
  induction has with
  | nil => exact .cons hsound ha .nil
  | cons hsound' hb _ ih => exact .cons hsound' hb (ih hsound)

theorem listUpTo_series (hitem : ∀ ts, At i ts item (S ts)) (ts : List Token) :
    At i ts (listUpTo close item) (Series i S ts) := by
  refine (At.loop (I := fun as => Series i S ts as.reverse) (fun as mid has => ?_) .nil).bind
    fun as rest has => .pure has
  refine .atKind fun stops _ => ?_
  split
  · exact .pure has
  · refine (hitem mid).bind fun a rest ha => .pure ?_
    simpa using has.snoc (.refl i mid) ha

theorem commaSeparated_series (hitem : ∀ ts, At i ts item (S ts)) (ts : List Token) :
    At i ts (commaSeparated item) (Series i S ts) := by
  refine (hitem ts).bind fun first mid hfirst => ?_
  refine (At.loop (I := fun as => Series i S ts as.reverse) (fun as mid has => ?_)
    (.cons (.refl i ts) hfirst .nil)).bind fun as rest has => .pure has
  refine .accept? (by decide) (.pure has) fun _ mid' hsound => ?_
  refine (hitem mid').bind fun a rest ha => .pure ?_
  simpa using has.snoc hsound ha

theorem commaList_series (hclose : close.isLiteral = false)
    (hitem : ∀ ts, At i ts item (S ts)) (ts : List Token) :
    At i ts (commaList close item) fun as rest =>
      ∃ mid, Series i S ts as mid ∧ Sound i mid rest := by
  refine .atKind fun stops hstops => ?_
  split
  · rename_i hstop
    refine .next ?_
    rintro t rest rfl -
    have hk : t.kind = close := Option.some.inj (hstops hstop)
    exact .pure ⟨t :: rest, .nil, .plain (hk ▸ hclose) rest⟩
  refine (hitem ts).bind fun first mid hfirst => ?_
  -- a comma may stand behind the last item
  refine (At.loop (I := fun as rest => ∃ mid, Series i S ts as.reverse mid ∧ Sound i mid rest) ?_
    ⟨mid, .cons (.refl i ts) hfirst .nil, .refl i mid⟩).bind ?_
  · rintro as rest ⟨mid, has, hrest⟩
    refine .accept? (by decide) (.pure ⟨mid, has, hrest⟩) fun _ rest' hcomma => ?_
    refine .atKind fun stops _ => ?_
    split
    · exact .pure ⟨mid, has, hrest.trans hcomma⟩
    · refine (hitem rest').bind fun a rest ha => .pure ⟨rest, ?_, .refl i rest⟩
      simpa using has.snoc (hrest.trans hcomma) ha
  · rintro as rest ⟨mid, has, hrest⟩
    exact .skip hclose fun _ rest' hbehind => .pure ⟨mid, has, hrest.trans hbehind⟩

end Parse

/-! ## Drafts of lists -/

namespace Accounts

open Parse (Series)

variable {i : Input} {ts rest : List Token}

theorem drafts {ds : List Draft} (h : Series i (Accounts i) ts ds rest) :
    Accounts i ts (ds.mapM id) rest := by
  induction h with
  | nil => exact .ok (.refl i _)
  | cons hsound hd _ ih =>
    rw [List.mapM_cons]
    exact hd.bind fun _ hmid => ih.bind fun _ hrest => .ok ((hsound.trans hmid).trans hrest)

/-- A filler of a list of statements is dropped, and its tokens hold no literal. -/
def line (i : Input) (ts : List Token) (l : Line) (rest : List Token) : Prop :=
  Accounts i ts l.draft rest ∧ (l.isFiller = true → Sound i ts rest)

theorem lines {ls : List Line} (h : Series i (line i) ts ls rest) :
    Accounts i ts ((ls.filter (!·.isFiller)).mapM Line.draft) rest := by
  induction h with
  | nil => exact .ok (.refl i _)
  | @cons ts ts' mid rest l ls hsound hl _ ih =>
    cases hfiller : l.isFiller with
    | true =>
      rw [List.filter_cons_of_neg (by simp [hfiller])]
      exact ih.widen ((hsound.trans (hl.2 hfiller)).trans ·)
    | false =>
      rw [List.filter_cons_of_pos (by simp [hfiller]), List.mapM_cons]
      exact hl.1.bind fun _ hmid => ih.bind fun _ hrest => .ok ((hsound.trans hmid).trans hrest)

/-- A member of a class, or a terminator in its place. -/
def member (i : Input) (ts : List Token) : Option Draft → List Token → Prop
  | none, rest => Sound i ts rest
  | some d, rest => Accounts i ts d rest

theorem members {ms : List (Option Draft)} (h : Series i (member i) ts ms rest) :
    Accounts i ts ((ms.filterMap id).mapM id) rest := by
  induction h with
  | nil => exact .ok (.refl i _)
  | @cons ts ts' mid rest m ms hsound hm _ ih =>
    cases m with
    | none => exact ih.widen ((hsound.trans hm).trans ·)
    | some d =>
      have hcons : (some d :: ms).filterMap id = d :: ms.filterMap id := rfl
      rw [hcons, List.mapM_cons]
      exact Accounts.bind hm fun _ hmid => ih.bind fun _ hrest =>
        .ok ((hsound.trans hmid).trans hrest)

end Accounts

end InlineTemplates
