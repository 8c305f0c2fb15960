import InlineTemplates.Grammar.Expression
import InlineTemplates.Proofs.Reading

/-!
# What expressions span

One lemma for each rule of the grammar. A rule takes it as given that the rules which it calls back,
with one level less, span what they read; what it reads then spans its own parts in their order.
-/

namespace InlineTemplates

open Node (Spans)

def Operand.Spans (source : Text) (lo hi : Location) (o : Operand) : Prop :=
  o.draft.Spans source lo hi

/-- What a line of a list spans, if it is more than a filler. -/
def Line.Spans (source : Text) (lo hi : Location) (line : Line) : Prop :=
  if line.isFiller then (lo.le hi : Prop) else line.draft.Spans source lo hi

open Parse

/-- The rules below span what they read. A statement does so in a list, where it can be a filler,
and as the body of another one, where that does not matter. No expression starts at a terminator. -/
structure Rules.Sound (source : Text) (rules : Rules) : Prop where
  assign : Reads source (Draft.Spans source) rules.assign
  unary : Reads source (Operand.Spans source) rules.unary
  postfixed : Reads source (Draft.Spans source) rules.postfixed
  body : Reads source (fun lo hi (line : Line) => line.draft.Spans source lo hi) rules.statement
  line : Follows source (Line.Spans source) rules.statement
  terminator : ∀ {t : Token} {ts : List Token}, t.kind = .terminator →
    Ensures (t :: ts) rules.assign fun _ _ => False

namespace Grammar

def PartsSpan (source : Text) (lo hi : Location) (parts : Except Error (List Node × Node)) : Prop :=
  Yields parts fun p => Spans source lo hi [p.1, [p.2]]

def KeySpans (source : Text) (lo hi : Location) (key : Except Error (Node × Bool)) : Prop :=
  Yields key fun k => Spans source lo hi [[k.1]]

variable {source : Text} {r : Reader} {rules : Rules} {lo hi : Location} {ts : List Token}

theorem lines_span {lines : List Line} (h : InSequence (Line.Spans source) lo hi lines) :
    Drafts.Spans source lo hi ((lines.filter (!·.isFiller)).mapM Line.draft) := by
  induction h with
  | nil => exact .pure (.empty (Location.le_refl _))
  | @cons lo mid mid' hi line lines hle hline _ ih =>
    unfold Line.Spans at hline
    split at hline
    · rename_i hf
      rw [List.filter_cons_of_neg (by simp [hf])]
      exact ih.mono fun ns hns =>
        hns.earlier (Location.le_trans hle hline)
    · rename_i hf
      rw [List.filter_cons_of_pos (by simp [hf]), List.mapM_cons]
      refine hline.bind fun n hn => ih.bind fun ns hns => .pure ?_
      exact .cons (hn.earlier hle) hns

theorem members_span {members : List (Option Draft)}
    (h : InSequence (Draft.MaySpan source) lo hi members) :
    Drafts.Spans source lo hi ((members.filterMap id).mapM id) := by
  induction h with
  | nil => exact .pure (.empty (Location.le_refl _))
  | @cons lo mid mid' hi member members hle hmember _ ih =>
    cases member with
    | none =>
      exact ih.mono fun ns hns =>
        hns.earlier (Location.le_trans hle hmember)
    | some d =>
      rw [List.filterMap_cons_some (f := id) rfl, List.mapM_cons]
      refine hmember.bind fun n hn => ih.bind fun ns hns => .pure ?_
      exact .cons (hn.earlier hle) hns

theorem behind?_follows {k : Token.Kind} {item : Parse Draft} (hk : k ≠ .terminator)
    (hitem : Reads source (Draft.Spans source) item) :
    Follows source (Drafts.Spans source) (behind? k item) := by
  intro lo ts hts
  refine (hts.accept? hk).bind fun o ts ho => ?_
  rcases ho with ⟨rfl, rfl⟩ | ⟨t, rfl, ht⟩
  · exact .pure ⟨lo, hts, .ok (.empty (Location.le_refl _))⟩
  · refine (hitem ht.clear).bind fun value rest ⟨hi, hrest, hvalue⟩ => .pure ⟨hi, hrest, ?_⟩
    exact hvalue.map fun n hn => hn.earlier ht.from_lo

section Rules

variable (h : rules.Sound source)

include h

/-! ## Functions -/

theorem param_reads : Reads source (Draft.Spans source) (param rules) := by
  refine reads_here fun l ts hts => ?_
  refine (hts.ahead.accept? (by decide)).bind fun o ts' ho => ?_
  rcases ho with ⟨rfl, rfl⟩ | ⟨dots, rfl, hdots⟩
  · refine (hts.ahead.expect (by decide)).bind fun name ts hname => ?_
    have hvalue := behind?_follows (k := .assign) (by decide) h.assign
    refine (hvalue hname.clear.ahead).bind fun value ts ⟨hi, hts, hvalue⟩ => .pure ⟨hi, hts, ?_⟩
    exact hvalue.bind fun ns hns => .pure (.node (hname.name_spans.append hns) trivial)
  · refine (hdots.clear.ahead.expect (by decide)).bind fun name ts hname => ?_
    have hspans := hname.name_spans.earlier hdots.from_lo
    have hnone : Spans source name.start name.start [[]] := .empty (Location.le_refl _)
    exact .pure ⟨name.start, hname.clear.ahead, .ok (.node (hspans.append hnone) trivial)⟩

theorem params_reads : Reads source (Drafts.Spans source) (params rules) := by
  intro lo ts hts
  refine (commaList_reads (param_reads h) hts).bind fun items ts ⟨hi, hts, hitems⟩ => ?_
  exact .pure ⟨hi, hts, drafts_span hitems⟩

theorem block_follows : Follows source (Draft.Spans source) (block rules) := by
  intro lo ts hts
  refine (hts.expect (by decide)).bind fun opening ts hopening => ?_
  refine (listUpTo_follows h.line hopening.clear.ahead).bind fun lines ts ⟨hi, hts, hlines⟩ => ?_
  refine hts.skip.bind fun closing ts hts => .pure ⟨hi, hts, ?_⟩
  refine (lines_span hlines).bind fun ns hns => .pure ?_
  exact .earlier hopening.from_lo (.node hns trivial)

theorem paramsAndBlock_follows : Follows source (PartsSpan source) (paramsAndBlock rules) := by
  intro lo ts hts
  refine (hts.expect (by decide)).bind fun opening ts hopening => ?_
  refine (params_reads h hopening.clear).bind fun ps ts ⟨mid, hts, hps⟩ => ?_
  refine (block_follows h hts).bind fun body ts ⟨hi, hts, hbody⟩ => .pure ⟨hi, hts, ?_⟩
  refine hps.bind fun ns hns => hbody.bind fun n hn => .pure ?_
  exact (hns.earlier hopening.from_lo).append hn

theorem functionExpression_reads :
    Reads source (Draft.Spans source) (functionExpression rules) := by
  refine reads_here fun l ts hts => ?_
  refine hts.accept?.bind fun word ts hts => ?_
  refine (hts.ahead.expect (by decide)).bind fun function ts hfunction => ?_
  refine hfunction.clear.ahead.name?.bind fun name ts ⟨mid, hts, hname⟩ => ?_
  refine (paramsAndBlock_follows h hts).bind fun parts ts ⟨hi, hts, hparts⟩ => ?_
  refine .pure ⟨hi, hts, hparts.bind fun p hp => .pure (.node ?_ trivial)⟩
  exact (hname.earlier hfunction.from_lo).append hp

theorem arrowParams_reads : Reads source (Drafts.Spans source) (arrowParams rules) := by
  intro lo ts hts
  refine (hts.ahead.accept? (by decide)).bind fun o ts' ho => ?_
  rcases ho with ⟨rfl, rfl⟩ | ⟨paren, rfl, hparen⟩
  · refine (hts.ahead.expect (by decide)).bind fun name ts hname => ?_
    refine .pure ⟨name.start, hname.clear.ahead, .ok ?_⟩
    refine .earlier hname.from_lo (.node ?_ trivial)
    exact hname.here.name_spans.append (.empty (Location.le_refl _))
  · exact params_reads h (hparen.clear.weaken hparen.from_lo)

theorem arrowFunction_reads : Reads source (Draft.Spans source) (arrowFunction rules) := by
  refine reads_here fun l ts hts => ?_
  refine hts.accept?.bind fun word ts hts => ?_
  refine (arrowParams_reads h hts).bind fun ps ts ⟨mid, hts, hps⟩ => ?_
  refine (hts.expect (by decide)).bind fun arrow ts harrow => ?_
  refine atKind_bind ?_
  have hdone {body : Draft} {ts : List Token} (hbody : Leaves source (Draft.Spans source)
      arrow.start body ts) : Ensures ts
      (pure (do return .arrow (.ofLoc l) word.isSome (← ps) (← body)) : Parse Draft)
      (Leaves source (Draft.Spans source) l) := by
    obtain ⟨hi, hts, hbody⟩ := hbody
    refine .pure ⟨hi, hts, hps.bind fun ns hns => hbody.bind fun n hn => .pure (.node ?_ trivial)⟩
    exact hns.append (hn.earlier harrow.from_lo)
  dsimp only
  split
  · exact (block_follows h harrow.clear.ahead).bind fun _ _ => hdone
  · exact (h.assign harrow.clear).bind fun _ _ => hdone

/-! ## Members -/

theorem memberKey_cons {t : Token} (hts : Clear source lo (t :: ts)) :
    Ensures (t :: ts) (memberKey r rules) fun key rest =>
      Leaves source (KeySpans source) lo key rest ∧ (t.kind = .name → rest = ts) := by
  have ht := hts.consume
  refine next_cons ?_
  split
  · next hk =>
    exact .pure ⟨⟨t.start, ht.clear.ahead, .ok (ht.word_spans (hk ▸ by decide))⟩, fun _ => rfl⟩
  · next hk =>
    exact .pure ⟨⟨t.start, ht.clear.ahead, .ok (ht.word_spans (hk ▸ by decide))⟩, fun _ => rfl⟩
  · rename_i hk
    refine .pure ⟨⟨t.start, ht.clear.ahead, ?_⟩, fun _ => rfl⟩
    exact (ht.string_spans hk r).bind fun n hn => .pure hn
  · refine .pure ⟨⟨t.start, ht.clear.ahead, .ok ?_⟩, fun _ => rfl⟩
    exact (Reader.number_spans source t).earlier ht.from_lo
  · rename_i hk
    refine (h.assign ht.clear).bind fun key ts ⟨hi, hts, hkey⟩ => ?_
    refine hts.skip.bind fun _ ts hts => .pure ⟨⟨hi, hts, ?_⟩, fun hname => ?_⟩
    · exact hkey.bind fun n hn => .pure (hn.earlier ht.from_lo)
    · rw [hk] at hname
      cases hname
  · exact .failing

theorem memberKey_reads : Reads source (KeySpans source) (memberKey r rules) := by
  intro lo ts hts
  cases ts with
  | nil =>
    intro r hr
    cases hr
  | cons t ts => exact (memberKey_cons h hts).mono fun _ _ hkey => hkey.1

omit h in
theorem methodWord?_clear (hts : Clear source lo ts) :
    Ensures ts methodWord? fun _ rest => Clear source lo rest := by
  refine peekKind?_bind ?_
  have hnext {word : Option (MethodRole × Bool)} :
      Ensures ts (do let _ ← next; return word) fun _ rest => Clear source lo rest := by
    refine next_bind ?_
    rintro t ts rfl
    exact .pure (hts.ahead.behind.weaken hts.here.1)
  split
  · exact hnext
  · exact hnext
  · exact hnext
  · exact .pure hts

theorem objectMember_reads : Reads source (Draft.Spans source) (objectMember r rules) := by
  refine reads_here fun l ts hts => ?_
  refine (hts.ahead.accept? (by decide)).bind fun o ts' ho => ?_
  rcases ho with ⟨rfl, rfl⟩ | ⟨dots, rfl, hdots⟩
  · refine (methodWord?_clear hts).bind fun word ts hts => ?_
    split
    · refine (memberKey_reads h hts).bind fun key ts ⟨mid, hts, hkey⟩ => ?_
      refine (paramsAndBlock_follows h hts).bind fun parts ts ⟨hi, hts, hparts⟩ => ?_
      refine .pure ⟨hi, hts, hkey.bind fun k hk => hparts.bind fun p hp => ?_⟩
      exact .pure (.node (hk.append hp) trivial)
    · refine peek_bind ?_
      rintro first tail rfl
      refine (memberKey_cons h hts).bind fun key ts ⟨⟨mid, hts', hkey⟩, hname⟩ => ?_
      refine peekKind?_bind ?_
      split
      · rename_i hk
        refine hts'.next_bind hk (by decide) fun colon ts hcolon => ?_
        refine (h.assign hcolon.clear).bind fun value ts ⟨hi, hts, hvalue⟩ => .pure ⟨hi, hts, ?_⟩
        refine hkey.bind fun k hk => hvalue.bind fun n hn => .pure (.node ?_ trivial)
        exact hk.append (hn.earlier hcolon.from_lo)
      · refine (paramsAndBlock_follows h hts').bind fun parts ts ⟨hi, hts, hparts⟩ => ?_
        refine .pure ⟨hi, hts, hkey.bind fun k hk => hparts.bind fun p hp => ?_⟩
        exact .pure (.node (hk.append hp) trivial)
      · split
        · rename_i hk
          -- a shorthand is its key and its value
          have hfirst := hts.consume
          obtain rfl := hname hk
          refine .pure ⟨first.start, hfirst.clear.ahead, .ok (.node ?_ trivial)⟩
          have hword : first.kind.isWord := hk ▸ by decide
          exact (hfirst.word_spans hword).append (hfirst.here.word_spans hword)
        · exact .fail
  · refine (h.assign hdots.clear).bind fun value ts ⟨hi, hts, hvalue⟩ => .pure ⟨hi, hts, ?_⟩
    refine hvalue.bind fun n hn => .pure (.node ?_ trivial)
    exact hn.earlier hdots.from_lo

theorem classMember_reads : Reads source (Draft.Spans source) (classMember r rules) := by
  refine reads_here fun l ts hts => ?_
  refine hts.accept?.bind fun static ts hts => ?_
  refine (methodWord?_clear hts).bind fun word ts hts => ?_
  refine (memberKey_reads h hts).bind fun key ts ⟨mid, hts, hkey⟩ => ?_
  refine atKind_bind ?_
  split
  · refine (paramsAndBlock_follows h hts).bind fun parts ts ⟨hi, hts, hparts⟩ => ?_
    refine .pure ⟨hi, hts, hkey.bind fun k hk => hparts.bind fun p hp => ?_⟩
    exact .pure (.node (hk.append hp) trivial)
  · have hvalue := behind?_follows (k := .assign) (by decide) h.assign hts
    refine hvalue.bind fun value ts ⟨hi, hts, hvalue⟩ => ?_
    refine hts.skip.bind fun _ ts hts => .pure ⟨hi, hts, ?_⟩
    refine hkey.bind fun k hk => hvalue.bind fun ns hns => .pure ?_
    exact .node (hk.append hns) trivial

theorem classBody_follows : Follows source (Draft.Spans source) (classBody r rules) := by
  intro lo ts hts
  refine (hts.expect (by decide)).bind fun opening ts hopening => ?_
  refine (listUpTo_follows (S := Draft.MaySpan source) ?_ hopening.clear.ahead).bind
    fun members ts hleaves => ?_
  · intro lo ts hts
    refine hts.terminator?.bind fun o ts ho => ?_
    rcases ho with ⟨rfl, hts⟩ | ⟨t, rfl, hts⟩
    · exact (classMember_reads h hts).bind fun d ts hd => .pure hd
    · exact .pure ⟨lo, hts, Location.le_refl _⟩
  obtain ⟨hi, hts, hmembers⟩ := hleaves
  refine hts.skip.bind fun closing ts hts => .pure ⟨hi, hts, ?_⟩
  refine (members_span hmembers).bind fun ns hns => .pure ?_
  exact .earlier hopening.from_lo (.node hns trivial)

theorem classTail_follows : Follows source (PartsSpan source) (classTail r rules) := by
  intro lo ts hts
  refine (behind?_follows (by decide) h.postfixed hts).bind
    fun superclass ts ⟨mid, hts, hsuperclass⟩ => ?_
  refine (classBody_follows h hts).bind fun body ts ⟨hi, hts, hbody⟩ => .pure ⟨hi, hts, ?_⟩
  exact hsuperclass.bind fun ns hns => hbody.bind fun n hn => .pure (hns.append hn)

theorem classExpression_reads :
    Reads source (Draft.Spans source) (classExpression r rules) := by
  refine reads_here fun l ts hts => ?_
  refine (hts.ahead.expect (by decide)).bind fun word ts hword => ?_
  refine hword.clear.ahead.name?.bind fun name ts ⟨mid, hts, hname⟩ => ?_
  refine (classTail_follows h hts).bind fun parts ts ⟨hi, hts, hparts⟩ => ?_
  refine .pure ⟨hi, hts, hparts.bind fun p hp => .pure (.node ?_ trivial)⟩
  exact (hname.earlier hword.from_lo).append hp

/-! ## Primaries -/

theorem element_reads : Reads source (Draft.Spans source) (element rules) := by
  refine reads_here fun l ts hts => ?_
  refine (hts.ahead.accept? (by decide)).bind fun o ts' ho => ?_
  rcases ho with ⟨rfl, rfl⟩ | ⟨dots, rfl, hdots⟩
  · exact h.assign hts
  · refine (h.assign hdots.clear).bind fun value ts ⟨hi, hts, hvalue⟩ => .pure ⟨hi, hts, ?_⟩
    refine hvalue.bind fun n hn => .pure (.node ?_ trivial)
    exact hn.earlier hdots.from_lo

theorem arguments_follows : Follows source (Drafts.Spans source) (arguments rules) := by
  intro lo ts hts
  refine (hts.expect (by decide)).bind fun paren ts hparen => ?_
  refine (commaList_reads (element_reads h) hparen.clear).bind fun items ts ⟨hi, hts, hitems⟩ => ?_
  refine .pure ⟨hi, hts, (drafts_span hitems).mono fun ns hns => ?_⟩
  exact hns.earlier hparen.from_lo

omit h in
theorem memberName_follows : Follows source (fun lo hi (_ : Text) => lo.le hi) memberName := by
  intro lo ts hts
  refine (hts.accept? (by decide)).bind fun o ts' ho => ?_
  rcases ho with ⟨rfl, rfl⟩ | ⟨name, rfl, hname⟩
  · refine (hts.expect (by decide)).bind fun name ts hname => ?_
    exact .pure ⟨name.start, hname.clear.ahead, hname.from_lo⟩
  · exact .pure ⟨name.start, hname.clear.ahead, hname.from_lo⟩

variable (hr : r.ReadsHoles)

include hr

theorem primary_reads : Reads source (Draft.Spans source) (primary r rules) := by
  refine reads_peek fun t ts hts => ?_
  have ht := hts.consume
  have hone {d : Draft} (hd : d.Spans source t.start t.start) :
      Ensures (t :: ts) (do let _ ← next; return d) (Leaves source (Draft.Spans source) t.start) :=
    next_cons (.pure ⟨t.start, ht.clear.ahead, hd⟩)
  have hnone : Spans source t.start t.start [] := .nil (Location.le_refl _)
  dsimp only
  split
  · next hk => exact hone (.ok (Reader.name_spans ht.lies (hk ▸ by decide)))
  · rename_i hk
    exact hone (Reader.string_spans ht.lies hk)
  · exact hone (.ok (Reader.number_spans source t))
  · exact hone (.ok (.node hnone trivial))
  · exact hone (.ok (.node hnone trivial))
  · exact hone (.ok (.node hnone trivial))
  · rename_i hk
    -- the holes are read with the template, so what follows stands behind its end
    have hbeyond := hts.ahead.beyond_template hk
    exact next_cons (.pure ⟨t.stop, hbeyond, Reader.template_spans hr ht.lies hk⟩)
  · refine next_cons ((commaList_reads (element_reads h) ht.clear).bind ?_)
    rintro items ts ⟨hi, hts, hitems⟩
    exact .pure ⟨hi, hts, (drafts_span hitems).bind fun ns hns => .pure (.node hns trivial)⟩
  · refine next_cons ((commaList_reads (objectMember_reads h) ht.clear).bind ?_)
    rintro items ts ⟨hi, hts, hitems⟩
    exact .pure ⟨hi, hts, (drafts_span hitems).bind fun ns hns => .pure (.node hns trivial)⟩
  · exact functionExpression_reads h hts
  · exact functionExpression_reads h hts
  · exact classExpression_reads h hts
  · refine next_cons ((h.assign ht.clear).bind fun value ts ⟨hi, hts, hvalue⟩ => ?_)
    exact hts.skip.bind fun _ ts hts => .pure ⟨hi, hts, hvalue⟩
  · exact .fail

/-! ## Accesses and calls -/

section Steps

variable {l : Location} {value : Draft} {optional : Bool}

omit h hr in
theorem property_step (hts : Ahead source lo ts) (hvalue : value.Spans source l lo) :
    Ensures ts (do
      let property ← memberName
      return some (value.map (.attr (.ofLoc l) property optional ·)))
      fun o rest => Leaves source (Draft.Spans source) l (o.getD value) rest := by
  refine (memberName_follows hts).bind fun property ts ⟨hi, hts, hle⟩ => .pure ⟨hi, hts, ?_⟩
  exact hvalue.map fun n hn => .node (hn.later hle) trivial

omit hr in
theorem index_step (hts : Clear source lo ts) (hvalue : value.Spans source l lo) :
    Ensures ts (do
      let index ← rules.assign
      let _ ← expect .rightBracket
      return some do return .index (.ofLoc l) optional (← value) (← index))
      fun o rest => Leaves source (Draft.Spans source) l (o.getD value) rest := by
  refine (h.assign hts).bind fun index ts ⟨hi, hts, hindex⟩ => ?_
  refine hts.skip.bind fun _ ts hts => .pure ⟨hi, hts, ?_⟩
  exact hvalue.bind fun n hn => hindex.bind fun m hm => .pure (.node (hn.append hm) trivial)

omit hr in
theorem call_step (hts : Ahead source lo ts) (hvalue : value.Spans source l lo) :
    Ensures ts (do
      let args ← arguments rules
      return some do return .call (.ofLoc l) optional (← value) (← args))
      fun o rest => Leaves source (Draft.Spans source) l (o.getD value) rest := by
  refine (arguments_follows h hts).bind fun args ts ⟨hi, hts, hargs⟩ => .pure ⟨hi, hts, ?_⟩
  exact hvalue.bind fun n hn => hargs.bind fun ns hns => .pure (.node (hn.append hns) trivial)

theorem postfixStep_ensures (hts : Ahead source lo ts) (hvalue : value.Spans source l lo) :
    Ensures ts (postfixStep r rules l value)
      fun o rest => Leaves source (Draft.Spans source) l (o.getD value) rest := by
  have hlater {t : Token} {k : Token.Kind} {ts : List Token} (ht : Consumed source lo k t ts) :
      value.Spans source l t.start := hvalue.later ht.from_lo
  refine peekKind?_bind ?_
  split
  · rename_i hk
    exact hts.next_bind hk (by decide) fun dot ts hdot =>
      property_step hdot.clear.ahead (hlater hdot)
  · rename_i hk
    exact hts.next_bind hk (by decide) fun bracket ts hbracket =>
      index_step h hbracket.clear (hlater hbracket)
  · exact call_step h hts hvalue
  · rename_i hk
    refine Parse.next_bind ?_
    rintro t ts rfl
    have hkind : t.kind = .template := Option.some.inj hk
    have ht := hts.consume hkind (by decide)
    refine .pure ⟨t.stop, hts.beyond_template hkind, (hlater ht).bind fun n hn => ?_⟩
    refine (Reader.template_spans hr ht.lies hkind).bind fun m hm => ?_
    exact .pure (.node (hn.append hm) trivial)
  · rename_i hk
    refine hts.next_bind hk (by decide) fun chain ts hchain => peekKind?_bind ?_
    have hts := hchain.clear.ahead
    have hvalue := hlater hchain
    split
    · rename_i hk
      refine hts.next_bind hk (by decide) fun bracket ts hbracket => ?_
      exact index_step h hbracket.clear (hvalue.later hbracket.from_lo)
    · exact call_step h hts hvalue
    · exact property_step hts hvalue
  · exact .pure ⟨lo, hts, hvalue⟩

end Steps

theorem newExpression_reads : Reads source (Draft.Spans source) (newExpression r rules) := by
  refine reads_here fun l ts hts => ?_
  refine (hts.ahead.expect (by decide)).bind fun word ts hword => ?_
  refine (here_ensures hword.clear).bind fun start ts ⟨hstart, hts⟩ => ?_
  refine (primary_reads h hr hts).bind fun callee ts hcallee => ?_
  refine (loop_ensures (I := Leaves source (Draft.Spans source) start) ?_ hcallee).bind
    fun callee ts ⟨mid, hts, hcallee⟩ => ?_
  · rintro value ts ⟨mid, hts, hvalue⟩
    refine (hts.accept? (by decide)).bind fun o ts' ho => ?_
    rcases ho with ⟨rfl, rfl⟩ | ⟨dot, rfl, hdot⟩
    · exact .pure ⟨mid, hts, hvalue⟩
    · exact property_step hdot.clear.ahead (hvalue.later hdot.from_lo)
  have hle : l.le start := Location.le_trans hword.from_lo hstart
  have hdone {args : Drafts} {ts : List Token} (hargs : Leaves source (Drafts.Spans source)
      mid args ts) : Ensures ts
      (pure (do let args ← args; return .new (.ofLoc l) (← callee) args) : Parse Draft)
      (Leaves source (Draft.Spans source) l) := by
    obtain ⟨hi, hts, hargs⟩ := hargs
    refine .pure ⟨hi, hts, hargs.bind fun ns hns => hcallee.bind fun n hn => .pure ?_⟩
    exact .node ((hn.earlier hle).append hns) trivial
  refine atKind_bind ?_
  dsimp only
  split
  · exact (arguments_follows h hts).bind fun _ _ => hdone
  · exact hdone ⟨mid, hts, .ok (.empty (Location.le_refl _))⟩

theorem postfixed_reads : Reads source (Draft.Spans source) (postfixed r rules) := by
  refine reads_here fun l ts hts => ?_
  have hdone {base : Draft} {ts : List Token}
      (hbase : Leaves source (Draft.Spans source) l base ts) :
      Ensures ts (loop (postfixStep r rules l) base) (Leaves source (Draft.Spans source) l) :=
    loop_ensures (fun value ts ⟨mid, hts, hvalue⟩ => postfixStep_ensures h hr hts hvalue) hbase
  refine atKind_bind ?_
  dsimp only
  split
  · exact (newExpression_reads h hr hts).bind fun _ _ => hdone
  · exact (primary_reads h hr hts).bind fun _ _ => hdone

/-! ## Operators -/

theorem unary_reads : Reads source (Operand.Spans source) (unary r rules) := by
  intro lo ts hts
  refine peek_bind ?_
  rintro t ts rfl
  have ht := hts.consume
  dsimp only
  split
  · refine next_cons ((h.unary ht.clear).bind fun operand ts ⟨hi, hts, hop⟩ => .pure ⟨hi, hts, ?_⟩)
    exact hop.map fun n hn => .earlier ht.from_lo (.node hn trivial)
  · refine next_cons ((h.unary ht.clear).bind fun operand ts ⟨hi, hts, hop⟩ => .pure ⟨hi, hts, ?_⟩)
    exact hop.map fun n hn => .earlier ht.from_lo (.node hn trivial)
  · refine (postfixed_reads h hr hts.here.2).bind fun operand ts ⟨hi, hts, hop⟩ => ?_
    refine peekKind?_bind ?_
    split
    · refine hts.next.bind fun _ ts hts => .pure ⟨hi, hts, ?_⟩
      exact hop.map fun n hn => .earlier ht.from_lo (.node hn trivial)
    · exact .pure ⟨hi, hts, hop.earlier ht.from_lo⟩

omit h hr in
theorem binaryLevel_reads {operand : Parse Operand} (precedence : Nat)
    (hoperand : Reads source (Operand.Spans source) operand) :
    Reads source (Operand.Spans source) (binaryLevel precedence operand) := by
  intro lo ts hts
  refine (here_ensures hts).bind fun l ts ⟨hle, hts⟩ => ?_
  refine (hoperand hts).bind fun first ts hfirst => ?_
  refine (loop_ensures (I := Leaves source (Operand.Spans source) l) ?_ hfirst).mono
    fun left ts ⟨hi, hts, hleft⟩ => ⟨hi, hts, hleft.earlier hle⟩
  rintro left ts ⟨mid, hts, hleft⟩
  refine peekKind?_bind ?_
  split
  · exact .pure ⟨mid, hts, hleft⟩
  rename_i op hop
  split
  · refine hts.next_operator hop rfl fun sign ts hsign => ?_
    refine (hoperand hsign.clear).bind fun right ts ⟨hi, hts, hright⟩ => .pure ⟨hi, hts, ?_⟩
    refine hleft.bind fun n hn => hright.bind fun m hm => .pure (.node ?_ trivial)
    exact hn.append (hm.earlier hsign.from_lo)
  · exact .pure ⟨mid, hts, hleft⟩

theorem binary_reads : Reads source (Operand.Spans source) (binary r rules) := by
  have hlevels (levels : List Nat) : ∀ operand : Parse Operand,
      Reads source (Operand.Spans source) operand → Reads source (Operand.Spans source)
        (levels.foldl (fun operand level => binaryLevel level operand) operand) := by
    induction levels with
    | nil => exact fun _ hoperand => hoperand
    | cons level levels ih => exact fun _ hoperand => ih _ (binaryLevel_reads level hoperand)
  exact hlevels _ _ (unary_reads h hr)

omit h hr in
theorem startsArrow_ensures : Ensures ts startsArrow fun _ rest => rest = ts := by
  refine peekKind?_bind (peekSecond?_bind ?_)
  split <;> exact .pure rfl

theorem assign_reads : Reads source (Draft.Spans source) (assign r rules) := by
  intro lo ts hts
  refine startsArrow_ensures.bind ?_
  rintro isArrow _ rfl
  split
  · exact arrowFunction_reads h hts
  refine reads_here (fun l ts hts => ?_) hts
  refine (binary_reads h hr hts).bind fun left ts ⟨mid, hts, hleft⟩ => ?_
  refine peekKind?_bind ?_
  split
  · rename_i op _ hop
    refine hts.next_operator hop rfl fun sign ts hsign => ?_
    refine (h.assign hsign.clear).bind fun value ts ⟨hi, hts, hvalue⟩ => .pure ⟨hi, hts, ?_⟩
    refine hleft.bind fun n hn => hvalue.bind fun m hm => .pure (.node ?_ trivial)
    exact hn.append (hm.earlier hsign.from_lo)
  · refine (hts.accept? (by decide)).bind fun o ts' ho => ?_
    rcases ho with ⟨rfl, rfl⟩ | ⟨question, rfl, hquestion⟩
    · exact .pure ⟨mid, hts, hleft⟩
    · refine (h.assign hquestion.clear).bind fun thenValue ts ⟨mid', hts, hthen⟩ => ?_
      refine (hts.expect (by decide)).bind fun colon ts hcolon => ?_
      refine (h.assign hcolon.clear).bind fun elseValue ts ⟨hi, hts, helse⟩ => .pure ⟨hi, hts, ?_⟩
      refine hleft.bind fun n hn => hthen.bind fun a ha => helse.bind fun b hb => .pure ?_
      refine .node ?_ trivial
      exact hn.append ((ha.earlier hquestion.from_lo).append
        (hb.earlier hcolon.from_lo))

end Rules

/-! ## Terminators -/

section Terminators

variable {t : Token} (ht : t.kind = .terminator)

include ht

theorem primary_terminator : Ensures (t :: ts) (primary r rules) fun _ _ => False := by
  refine peek_cons ?_
  simp only [ht]
  exact .fail

theorem postfixed_terminator : Ensures (t :: ts) (postfixed r rules) fun _ _ => False := by
  refine here_cons (atKind_bind ?_)
  simp only [List.head?_cons, Option.map_some, ht]
  exact (primary_terminator ht).bind fun _ _ hfalse => hfalse.elim

theorem unary_terminator : Ensures (t :: ts) (unary r rules) fun _ _ => False := by
  have hunary : UnaryOp.ofKind? t.kind = none := by rw [ht]; rfl
  have hupdate : UpdateOp.ofKind? t.kind = none := by rw [ht]; rfl
  refine peek_cons ?_
  simp only [hunary, hupdate]
  exact (postfixed_terminator ht).bind fun _ _ hfalse => hfalse.elim

theorem binary_terminator : Ensures (t :: ts) (binary r rules) fun _ _ => False := by
  have hlevels (levels : List Nat) : ∀ operand : Parse Operand,
      Ensures (t :: ts) operand (fun _ _ => False) → Ensures (t :: ts)
        (levels.foldl (fun operand level => binaryLevel level operand) operand)
        fun _ _ => False := by
    induction levels with
    | nil => exact fun _ hoperand => hoperand
    | cons level levels ih =>
      exact fun operand hoperand =>
        ih (binaryLevel level operand) (here_cons (hoperand.bind fun _ _ hfalse => hfalse.elim))
  exact hlevels _ _ (unary_terminator ht)

theorem assign_terminator : Ensures (t :: ts) (assign r rules) fun _ _ => False := by
  have hstarts : Ensures (t :: ts) startsArrow fun b rest => b = false ∧ rest = t :: ts := by
    refine peekKind?_bind (peekSecond?_bind ?_)
    simp only [List.head?_cons, Option.map_some, ht]
    exact .pure ⟨rfl, rfl⟩
  refine hstarts.bind ?_
  rintro _ _ ⟨rfl, rfl⟩
  exact here_cons ((binary_terminator ht).bind fun _ _ hfalse => hfalse.elim)

end Terminators

end Grammar

end InlineTemplates
