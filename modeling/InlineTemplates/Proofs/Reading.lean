import InlineTemplates.Grammar.Parse
import InlineTemplates.Proofs.Drafts

/-!
# How rules go through the tokens

A rule that reads something leaves tokens that stand ahead of what it has read. Where no token has
been left out of account, not even a filler, the way is clear. Every rule starts in such a place,
since it starts behind a token that was consumed, and it leaves the tokens ahead of it.
-/

namespace InlineTemplates

namespace Parse

/-! ## What a rule ensures -/

/-- What holds of what a rule reads and of the tokens that it leaves. -/
def Ensures {α : Type} (ts : List Token) (x : Parse α) (Q : α → List Token → Prop) : Prop :=
  Yields (x ts) fun r => Q r.1 r.2

namespace Ensures

variable {α β : Type} {ts : List Token} {x : Parse α} {P Q : α → List Token → Prop}

theorem pure {a : α} (h : Q a ts) : Ensures ts (Pure.pure a) Q := Yields.pure (a := (a, ts)) h

theorem bind {f : α → Parse β} {R : β → List Token → Prop} (hx : Ensures ts x P)
    (hf : ∀ a rest, P a rest → Ensures rest (f a) R) : Ensures ts (x >>= f) R :=
  Yields.bind hx fun r hr => hf r.1 r.2 hr

theorem mono (hx : Ensures ts x P) (h : ∀ a rest, P a rest → Q a rest) : Ensures ts x Q :=
  Yields.mono hx fun r hr => h r.1 r.2 hr

theorem failing {o : Option Token} : Ensures ts (fun _ => .error o : Parse α) Q := by
  intro r hr
  cases hr

theorem fail : Ensures ts (Parse.fail : Parse α) Q := by
  intro r hr
  cases hr

end Ensures

/-! ## Tokens ahead -/

/-- All tokens but fillers stand behind a place of the source. -/
structure Ahead (source : Text) (lo : Location) (ts : List Token) : Prop
    extends Token.Ordered source ts where
  inside : lo.le (Location.start.advance source)
  from_lo : ∀ t ∈ ts, t.isFiller = false → lo.le t.start

/-- All tokens stand behind a place of the source. -/
structure Clear (source : Text) (lo : Location) (ts : List Token) : Prop
    extends Token.Ordered source ts where
  inside : lo.le (Location.start.advance source)
  from_lo : ∀ t ∈ ts, lo.le t.start

variable {α : Type} {source : Text} {lo lo' : Location} {t : Token} {ts : List Token}
  {k : Token.Kind}

theorem Clear.ahead (h : Clear source lo ts) : Ahead source lo ts :=
  ⟨h.toOrdered, h.inside, fun t ht _ => h.from_lo t ht⟩

theorem Clear.weaken (h : Clear source lo ts) (hle : lo'.le lo) : Clear source lo' ts :=
  ⟨h.toOrdered, Location.le_trans hle h.inside,
    fun t ht => Location.le_trans hle (h.from_lo t ht)⟩

theorem Ahead.weaken (h : Ahead source lo ts) (hle : lo'.le lo) : Ahead source lo' ts :=
  ⟨h.toOrdered, Location.le_trans hle h.inside,
    fun t ht hf => Location.le_trans hle (h.from_lo t ht hf)⟩

theorem Ahead.first (h : Ahead source lo (t :: ts)) : t.LiesIn source :=
  h.lies t List.mem_cons_self

theorem ordered_tail (h : Token.Ordered source (t :: ts)) : Token.Ordered source ts :=
  ⟨fun u hu => h.lies u (List.mem_cons_of_mem _ hu), (List.pairwise_cons.1 h.before).2⟩

theorem Ahead.tail (h : Ahead source lo (t :: ts)) : Ahead source lo ts :=
  ⟨ordered_tail h.toOrdered, h.inside, fun u hu => h.from_lo u (List.mem_cons_of_mem _ hu)⟩

theorem Ahead.behind (h : Ahead source lo (t :: ts)) : Clear source t.start ts :=
  ⟨ordered_tail h.toOrdered, Location.le_trans h.first.start_le_stop h.first.stop_le,
    fun u hu => ((List.pairwise_cons.1 h.before).1 u hu).1⟩

theorem Ahead.beyond (h : Ahead source lo (t :: ts)) : Ahead source t.reach ts :=
  ⟨ordered_tail h.toOrdered, Location.le_trans h.first.reach_le_stop h.first.stop_le,
    fun u hu => ((List.pairwise_cons.1 h.before).1 u hu).2⟩

/-- No token stands in a template, whose holes are a part of it. -/
theorem Ahead.beyond_template (h : Ahead source lo (t :: ts)) (hk : t.kind = .template) :
    Ahead source t.stop ts := by
  have hreach : t.reach = t.stop := if_pos hk
  rw [← hreach]
  exact h.beyond

theorem Ahead.clear (h : Ahead source lo (t :: ts)) (ht : t.isFiller = false) :
    Clear source lo (t :: ts) := by
  have hlo := h.from_lo t List.mem_cons_self ht
  refine ⟨h.toOrdered, h.inside, List.forall_mem_cons.2 ⟨hlo, fun u hu => ?_⟩⟩
  exact Location.le_trans hlo (h.behind.from_lo u hu)

theorem not_filler (hk : t.kind = k) (h : k ≠ .terminator) : t.isFiller = false := by
  simp [Token.isFiller, hk, h]

theorem Ahead.clear_of_head? (h : Ahead source lo ts)
    (hts : ts.head?.map Token.kind ≠ some .terminator) : Clear source lo ts := by
  cases ts with
  | nil => exact ⟨h.toOrdered, h.inside, by simp⟩
  | cons t ts =>
    have hk : t.kind ≠ .terminator := by simpa using hts
    exact h.clear (not_filler rfl hk)

theorem Ahead.here (h : Ahead source lo (t :: ts)) : Clear source t.start (t :: ts) :=
  ⟨h.toOrdered, h.behind.inside, List.forall_mem_cons.2 ⟨Location.le_refl _, h.behind.from_lo⟩⟩

theorem Clear.here (h : Clear source lo (t :: ts)) :
    lo.le t.start ∧ Clear source t.start (t :: ts) :=
  ⟨h.from_lo t List.mem_cons_self, h.ahead.here⟩

/-! ## Single tokens -/

/-- What is known of a token behind `lo` that was consumed. -/
structure Consumed (source : Text) (lo : Location) (k : Token.Kind) (t : Token)
    (rest : List Token) : Prop where
  kind_eq : t.kind = k
  from_lo : lo.le t.start
  lies : t.LiesIn source
  clear : Clear source t.start rest

theorem Consumed.here {rest : List Token} (h : Consumed source lo k t rest) :
    Consumed source t.start k t rest :=
  ⟨h.kind_eq, Location.le_refl _, h.lies, h.clear⟩

theorem Ahead.consume (h : Ahead source lo (t :: ts)) (hk : t.kind = k) (hne : k ≠ .terminator) :
    Consumed source lo k t ts :=
  ⟨hk, h.from_lo t List.mem_cons_self (not_filler hk hne), h.first, h.behind⟩

theorem Clear.consume (h : Clear source lo (t :: ts)) : Consumed source lo t.kind t ts :=
  ⟨rfl, h.here.1, h.ahead.first, h.ahead.behind⟩

theorem expect_ensures {Q : Token → List Token → Prop}
    (h : ∀ t rest, ts = t :: rest → t.kind = k → Q t rest) : Ensures ts (expect k) Q := by
  intro r hr
  cases ts with
  | nil => cases hr
  | cons t ts =>
    by_cases hk : t.kind = k
    · simp only [expect, hk, if_true] at hr
      cases hr
      exact h t ts rfl hk
    · simp only [expect, hk, if_false] at hr
      cases hr

theorem accept?_ensures {Q : Option Token → List Token → Prop}
    (hnone : ts.head?.map Token.kind ≠ some k → Q none ts)
    (hsome : ∀ t rest, ts = t :: rest → t.kind = k → Q (some t) rest) :
    Ensures ts (accept? k) Q := by
  intro r hr
  cases ts with
  | nil =>
    cases hr
    exact hnone (by simp)
  | cons t ts =>
    by_cases hk : t.kind = k
    · simp only [accept?, hk, if_true] at hr
      cases hr
      exact hsome t ts rfl hk
    · simp only [accept?, hk, if_false] at hr
      cases hr
      exact hnone (by simpa using hk)

theorem Ahead.expect (h : Ahead source lo ts) (hne : k ≠ .terminator) :
    Ensures ts (Parse.expect k) (Consumed source lo k) := by
  refine expect_ensures ?_
  rintro t rest rfl hk
  exact h.consume hk hne

theorem Ahead.skip (h : Ahead source lo ts) :
    Ensures ts (Parse.expect k) fun _ rest => Ahead source lo rest := by
  refine expect_ensures ?_
  rintro t rest rfl -
  exact h.tail

theorem Ahead.next (h : Ahead source lo ts) :
    Ensures ts Parse.next fun _ rest => Ahead source lo rest := by
  intro r hr
  cases ts with
  | nil => cases hr
  | cons t ts =>
    cases hr
    exact h.tail

theorem Ahead.accept? (h : Ahead source lo ts) (hne : k ≠ .terminator) :
    Ensures ts (Parse.accept? k) fun o rest =>
      (o = none ∧ rest = ts) ∨ ∃ t, o = some t ∧ Consumed source lo k t rest := by
  refine accept?_ensures (fun _ => .inl ⟨rfl, rfl⟩) ?_
  rintro t rest rfl hk
  exact .inr ⟨t, rfl, h.consume hk hne⟩

theorem peek_bind {β : Type} {f : Token → Parse β} {Q : β → List Token → Prop}
    (h : ∀ t tail, ts = t :: tail → Ensures ts (f t) Q) : Ensures ts (peek >>= f) Q := by
  cases ts with
  | nil =>
    intro r hr
    cases hr
  | cons t tail => exact h t tail rfl

theorem next_bind {β : Type} {f : Token → Parse β} {Q : β → List Token → Prop}
    (h : ∀ t tail, ts = t :: tail → Ensures tail (f t) Q) : Ensures ts (next >>= f) Q := by
  cases ts with
  | nil =>
    intro r hr
    cases hr
  | cons t tail => exact h t tail rfl

theorem next_cons {β : Type} {f : Token → Parse β} {Q : β → List Token → Prop}
    (h : Ensures ts (f t) Q) : Ensures (t :: ts) (next >>= f) Q := h

theorem Ahead.next_bind {β : Type} {f : Token → Parse β} {Q : β → List Token → Prop}
    (h : Ahead source lo ts) (hk : ts.head?.map Token.kind = some k) (hne : k ≠ .terminator)
    (hf : ∀ t rest, Consumed source lo k t rest → Ensures rest (f t) Q) :
    Ensures ts (Parse.next >>= f) Q := by
  refine Parse.next_bind ?_
  rintro t rest rfl
  exact hf t rest (h.consume (Option.some.inj hk) hne)

theorem Ahead.next_operator {β γ : Type} {op : γ} {ofKind : Token.Kind → Option γ}
    {f : Token → Parse β} {Q : β → List Token → Prop} (h : Ahead source lo ts)
    (hop : (ts.head?.map Token.kind).bind ofKind = some op) (hne : ofKind .terminator = none)
    (hf : ∀ t rest, Consumed source lo t.kind t rest → Ensures rest (f t) Q) :
    Ensures ts (Parse.next >>= f) Q := by
  refine Parse.next_bind ?_
  rintro t rest rfl
  refine hf t rest (h.consume rfl fun hk => ?_)
  rw [List.head?_cons, Option.map_some, Option.bind_some, hk, hne] at hop
  cases hop

theorem peekKind?_bind {β : Type} {f : Option Token.Kind → Parse β} {Q : β → List Token → Prop}
    (h : Ensures ts (f (ts.head?.map Token.kind)) Q) : Ensures ts (peekKind? >>= f) Q := h

theorem here_cons {β : Type} {f : Location → Parse β} {Q : β → List Token → Prop}
    (h : Ensures (t :: ts) (f t.start) Q) : Ensures (t :: ts) (here >>= f) Q := h

theorem peek_cons {β : Type} {f : Token → Parse β} {Q : β → List Token → Prop}
    (h : Ensures (t :: ts) (f t) Q) : Ensures (t :: ts) (peek >>= f) Q := h

theorem get_bind {β : Type} {f : List Token → Parse β} {Q : β → List Token → Prop}
    (h : Ensures ts (f ts) Q) : Ensures ts (get >>= f) Q := h

theorem peekSecond?_bind {β : Type} {f : Option Token.Kind → Parse β} {Q : β → List Token → Prop}
    (h : Ensures ts (f ((ts.drop 1).head?.map Token.kind)) Q) :
    Ensures ts (peekSecond? >>= f) Q := h

theorem atKind_bind {β : Type} {f : Bool → Parse β} {Q : β → List Token → Prop}
    (h : Ensures ts (f (ts.head?.map Token.kind = some k)) Q) : Ensures ts (atKind k >>= f) Q := h

/-! ## Rules -/

/-- What a rule leaves ahead when what it reads has the property `S` from `lo` on. -/
def Leaves (source : Text) (S : Location → Location → α → Prop) (lo : Location) (a : α)
    (rest : List Token) : Prop :=
  ∃ hi, Ahead source hi rest ∧ S lo hi a

/-- What is read where the way is clear has the property `S`. -/
def Reads (source : Text) (S : Location → Location → α → Prop) (x : Parse α) : Prop :=
  ∀ ⦃lo : Location⦄ ⦃ts : List Token⦄, Clear source lo ts → Ensures ts x (Leaves source S lo)

/-- What is read anywhere, behind a token of its own, has the property `S`. -/
def Follows (source : Text) (S : Location → Location → α → Prop) (x : Parse α) : Prop :=
  ∀ ⦃lo : Location⦄ ⦃ts : List Token⦄, Ahead source lo ts → Ensures ts x (Leaves source S lo)

theorem Follows.reads {S : Location → Location → α → Prop} {x : Parse α}
    (h : Follows source S x) : Reads source S x := fun _ _ hts => h hts.ahead

/-! ## Lists -/

inductive InSequence (S : Location → Location → α → Prop) : Location → Location → List α → Prop
  | nil {l : Location} : InSequence S l l []
  | cons {lo mid mid' hi : Location} {a : α} {as : List α} (hle : lo.le mid) (ha : S mid mid' a)
      (has : InSequence S mid' hi as) : InSequence S lo hi (a :: as)

theorem InSequence.snoc {S : Location → Location → α → Prop} {lo mid mid' hi : Location} {a : α}
    {as : List α} (has : InSequence S lo mid as) (hle : mid.le mid') (ha : S mid' hi a) :
    InSequence S lo hi (as ++ [a]) := by
  induction has with
  | nil => exact .cons hle ha .nil
  | cons hle' hb _ ih => exact .cons hle' hb (ih hle)

/-- An invariant that each step keeps, the last one included. -/
theorem loop_ensures {I : α → List Token → Prop} {step : α → Parse (Option α)}
    (hstep : ∀ a ts, I a ts → Ensures ts (step a) fun o rest => I (o.getD a) rest) {a : α}
    (h : I a ts) : Ensures ts (loop step a) I := by
  -- the clock only bounds the number of steps
  have hiterate (clock : List Token) : ∀ a ts, I a ts → Ensures ts (iterate step clock a) I := by
    induction clock with
    | nil => exact fun a ts h => .pure h
    | cons _ clock ih =>
      intro a ts h
      refine (hstep a ts h).bind fun o rest ho => ?_
      cases o with
      | none => exact .pure ho
      | some a' => exact ih a' rest ho
  exact hiterate ts a ts h

section Items

variable {S : Location → Location → α → Prop} {item : Parse α} {close : Token.Kind}

def Collected (source : Text) (S : Location → Location → α → Prop) (lo : Location)
    (items : List α) (rest : List Token) : Prop :=
  Leaves source (InSequence S) lo items.reverse rest

theorem listUpTo_follows (hitem : Follows source S item) :
    Follows source (InSequence S) (listUpTo close item) := by
  intro lo ts hts
  refine (loop_ensures (I := Collected source S lo) ?_ ⟨lo, hts, .nil⟩).bind
    fun items rest h => .pure h
  rintro items ts ⟨mid, hts, hitems⟩
  refine atKind_bind ?_
  split
  · exact .pure ⟨mid, hts, hitems⟩
  · refine (hitem hts).bind fun a rest ⟨hi, hrest, ha⟩ => .pure ⟨hi, hrest, ?_⟩
    simpa using hitems.snoc (Location.le_refl _) ha

theorem commaSeparated_reads (hitem : Reads source S item) :
    Reads source (InSequence S) (commaSeparated item) := by
  intro lo ts hts
  refine (hitem hts).bind fun first ts ⟨mid, hts, hfirst⟩ => ?_
  have hone : Collected source S lo [first] ts :=
    ⟨mid, hts, .cons (Location.le_refl _) hfirst .nil⟩
  refine (loop_ensures (I := Collected source S lo) ?_ hone).bind fun items rest h => .pure h
  rintro items ts ⟨mid, hts, hitems⟩
  refine (hts.accept? (by decide)).bind fun o ts ho => ?_
  rcases ho with ⟨rfl, rfl⟩ | ⟨comma, rfl, hcomma⟩
  · exact .pure ⟨mid, hts, hitems⟩
  · refine (hitem hcomma.clear).bind fun a rest ⟨hi, hrest, ha⟩ => .pure ⟨hi, hrest, ?_⟩
    simpa using hitems.snoc hcomma.from_lo ha

theorem commaList_reads (hitem : Reads source S item) :
    Reads source (InSequence S) (commaList close item) := by
  intro lo ts hts
  refine atKind_bind ?_
  split
  · exact hts.ahead.next.bind fun _ rest hrest => .pure ⟨lo, hrest, .nil⟩
  refine (hitem hts).bind fun first ts ⟨mid, hts, hfirst⟩ => ?_
  have hone : Collected source S lo [first] ts :=
    ⟨mid, hts, .cons (Location.le_refl _) hfirst .nil⟩
  refine (loop_ensures (I := Collected source S lo) ?_ hone).bind fun items rest h => ?_
  · rintro items ts ⟨mid, hts, hitems⟩
    refine (hts.accept? (by decide)).bind fun o ts ho => ?_
    rcases ho with ⟨rfl, rfl⟩ | ⟨comma, rfl, hcomma⟩
    · exact .pure ⟨mid, hts, hitems⟩
    refine atKind_bind ?_
    split
    · -- a comma may stand in front of the end
      exact .pure ⟨mid, hcomma.clear.ahead.weaken hcomma.from_lo, hitems⟩
    · refine (hitem hcomma.clear).bind fun a rest ⟨hi, hrest, ha⟩ => .pure ⟨hi, hrest, ?_⟩
      simpa using hitems.snoc hcomma.from_lo ha
  · obtain ⟨hi, hrest, hitems⟩ := h
    exact hrest.skip.bind fun _ rest hrest => .pure ⟨hi, hrest, hitems⟩

end Items

/-! ## Drafts -/

theorem drafts_span {hi : Location} {items : List Draft}
    (h : InSequence (Draft.Spans source) lo hi items) :
    Drafts.Spans source lo hi (items.mapM id) := by
  induction h with
  | nil => exact .pure (.empty (Location.le_refl _))
  | cons hle ha _ ih =>
    rw [List.mapM_cons]
    refine ha.bind fun n hn => ih.bind fun ns hns => .pure ?_
    exact .cons (hn.earlier hle) hns

theorem here_ensures (hts : Clear source lo ts) :
    Ensures ts here fun l rest => lo.le l ∧ Clear source l rest := by
  refine peek_bind ?_
  rintro t tail rfl
  exact .pure hts.here

/-- A rule that notes where it starts can take that for the start of all. -/
theorem reads_here {f : Location → Parse Draft}
    (hf : ∀ l ts, Clear source l ts → Ensures ts (f l) (Leaves source (Draft.Spans source) l)) :
    Reads source (Draft.Spans source) (here >>= f) := by
  intro lo ts hts
  refine (here_ensures hts).bind fun l rest ⟨hle, hrest⟩ => ?_
  exact (hf l rest hrest).mono fun d rest ⟨hi, hrest, hd⟩ =>
    ⟨hi, hrest, hd.earlier hle⟩

theorem reads_peek {f : Token → Parse Draft}
    (hf : ∀ t ts, Clear source t.start (t :: ts) →
      Ensures (t :: ts) (f t) (Leaves source (Draft.Spans source) t.start)) :
    Reads source (Draft.Spans source) (peek >>= f) := by
  intro lo ts hts
  refine peek_bind ?_
  rintro t ts rfl
  obtain ⟨hle, hts⟩ := hts.here
  exact (hf t ts hts).mono fun d rest ⟨hi, hrest, hd⟩ =>
    ⟨hi, hrest, hd.earlier hle⟩

theorem Clear.accept? (h : Clear source lo ts) :
    Ensures ts (Parse.accept? k) fun _ rest => Clear source lo rest := by
  refine accept?_ensures (fun _ => h) ?_
  rintro t rest rfl -
  exact h.ahead.behind.weaken h.here.1

theorem Ahead.terminator? (h : Ahead source lo ts) :
    Ensures ts (Parse.accept? .terminator) fun o rest =>
      (o = none ∧ Clear source lo rest) ∨ ∃ t, o = some t ∧ Ahead source lo rest := by
  refine accept?_ensures (fun hnone => .inl ⟨rfl, h.clear_of_head? hnone⟩) ?_
  rintro t rest rfl -
  exact .inr ⟨t, rfl, h.tail⟩

theorem Consumed.word_spans {rest : List Token} (h : Consumed source lo k t rest)
    (hk : k.isWord) : Node.Spans source lo t.start [[Reader.name t]] :=
  (Reader.name_spans h.lies (h.kind_eq ▸ hk)).earlier h.from_lo

theorem Consumed.name_spans {rest : List Token} (h : Consumed source lo .name t rest) :
    Node.Spans source lo t.start [[Reader.name t]] :=
  h.word_spans (by decide)

theorem Consumed.string_spans {rest : List Token} (h : Consumed source lo k t rest)
    (hk : k = .string) (r : Reader) : (r.string t).Spans source lo t.start :=
  (Reader.string_spans h.lies (h.kind_eq.trans hk)).earlier h.from_lo

theorem Ahead.name? (h : Ahead source lo ts) :
    Ensures ts (Parse.accept? .name) (Leaves source
      (fun lo hi o => Node.Spans source lo hi [(o.map Reader.name).toList]) lo) := by
  refine (h.accept? (by decide)).mono fun o rest ho => ?_
  rcases ho with ⟨rfl, rfl⟩ | ⟨t, rfl, ht⟩
  · exact ⟨lo, h, .empty (Location.le_refl _)⟩
  · exact ⟨t.start, ht.clear.ahead, ht.name_spans⟩

end Parse

end InlineTemplates
