import InlineTemplates.Grammar.Statement
import InlineTemplates.Proofs.ExpressionSpans

/-!
# What statements span

A statement starts where the way is clear, or at a terminator that borrows the place of another
token: then it is a filler, which no list of statements keeps. With this the rules of all depths
span what they read.
-/

namespace InlineTemplates

open Node (Spans)

open Parse

namespace Grammar

variable {source : Text} {r : Reader} {rules : Rules} {lo hi : Location} {ts : List Token}

/-! ## Names of a module -/

theorem exportName_reads : Reads source (Draft.Spans source) (exportName r) := by
  intro lo ts hts
  refine next_bind ?_
  rintro t ts rfl
  have ht := hts.consume
  split
  · next hk => exact .pure ⟨t.start, ht.clear.ahead, .ok (ht.word_spans (hk ▸ by decide))⟩
  · next hk => exact .pure ⟨t.start, ht.clear.ahead, .ok (ht.word_spans (hk ▸ by decide))⟩
  · rename_i hk
    exact .pure ⟨t.start, ht.clear.ahead, ht.string_spans hk r⟩
  · exact .failing

theorem plainName_reads : Reads source (Draft.Spans source) plainName := by
  intro lo ts hts
  refine (hts.ahead.expect (by decide)).bind fun name ts hname => ?_
  exact .pure ⟨name.start, hname.clear.ahead, .ok hname.name_spans⟩

theorem renamed?_follows {name : Parse Draft} (hname : Reads source (Draft.Spans source) name) :
    Follows source (Draft.MaySpan source) (renamed? name) := by
  intro lo ts hts
  refine (hts.accept? (by decide)).bind fun o ts' ho => ?_
  rcases ho with ⟨rfl, rfl⟩ | ⟨word, rfl, hword⟩
  · exact .pure ⟨lo, hts, Location.le_refl _⟩
  · refine (hname hword.clear).bind fun d ts ⟨hi, hts, hd⟩ => .pure ⟨hi, hts, ?_⟩
    exact hd.earlier hword.from_lo

theorem importSpecifier_reads : Reads source (Draft.Spans source) (importSpecifier r) := by
  refine reads_here fun l ts hts => ?_
  refine (exportName_reads hts).bind fun imported ts ⟨mid, hts, himported⟩ => ?_
  refine (renamed?_follows plainName_reads hts).bind fun localName ts ⟨hi, hts, hlocal⟩ => ?_
  refine .pure ⟨hi, hts, himported.bind fun n hn => ?_⟩
  cases localName with
  | some localName =>
    have hlocal : localName.Spans source mid hi := hlocal
    exact hlocal.bind fun m hm => .pure (.node (hn.append hm) trivial)
  | none =>
    split
    · rename_i heq
      cases heq
    · -- the imported name is the local one too
      exact .pure (.node (hn.twice.later hlocal) trivial)
    · intro m hm
      cases hm

theorem importList_follows : Follows source (Drafts.Spans source) (importList r) := by
  intro lo ts hts
  refine (hts.expect (by decide)).bind fun brace ts hbrace => ?_
  refine (commaList_reads importSpecifier_reads hbrace.clear).bind fun items ts ⟨hi, hts, h⟩ => ?_
  refine .pure ⟨hi, hts, (drafts_span h).mono fun ns hns => ?_⟩
  exact hns.earlier hbrace.from_lo

theorem importNamespace_follows : Follows source (Draft.Spans source) importNamespace := by
  intro lo ts hts
  refine (hts.expect (by decide)).bind fun star ts hstar => ?_
  refine (hstar.clear.ahead.expect (by decide)).bind fun word ts hword => ?_
  refine (hword.clear.ahead.expect (by decide)).bind fun name ts hname => ?_
  refine .pure ⟨name.start, hname.clear.ahead, .ok ?_⟩
  have hspans := hname.name_spans.earlier hword.from_lo
  exact .earlier hstar.from_lo (.node hspans trivial)

theorem importRest_follows : Follows source (Drafts.Spans source) (importRest r) := by
  intro lo ts hts
  refine atKind_bind ?_
  split
  · refine (importNamespace_follows hts).bind fun d ts ⟨hi, hts, hd⟩ => .pure ⟨hi, hts, ?_⟩
    exact hd.map fun n hn => hn
  · exact importList_follows hts

theorem importClause_follows : Follows source (Drafts.Spans source) (importClause r) := by
  intro lo ts hts
  refine (hts.accept? (by decide)).bind fun o ts' ho => ?_
  rcases ho with ⟨rfl, rfl⟩ | ⟨name, rfl, hname⟩
  · exact importRest_follows hts
  have hfirst : Spans source lo name.start
      [[.importDefault (.ofLoc name.start) (Reader.name name)]] :=
    .earlier hname.from_lo (.node hname.here.name_spans trivial)
  refine (hname.clear.ahead.accept? (by decide)).bind fun o ts' ho => ?_
  rcases ho with ⟨rfl, rfl⟩ | ⟨comma, rfl, hcomma⟩
  · exact .pure ⟨name.start, hname.clear.ahead, .ok hfirst⟩
  · refine (importRest_follows hcomma.clear.ahead).bind fun ds ts ⟨hi, hts, hds⟩ => ?_
    refine .pure ⟨hi, hts, hds.map fun ns hns => ?_⟩
    exact hfirst.cons (hns.earlier hcomma.from_lo)

theorem importDeclaration_reads : Reads source (Draft.Spans source) (importDeclaration r) := by
  refine reads_here fun l ts hts => ?_
  refine (hts.ahead.expect (by decide)).bind fun word ts hword => ?_
  have hdone {specifiers : Drafts} {ts : List Token}
      (h : Leaves source (Drafts.Spans source) l specifiers ts) : Ensures ts
      (do
        let source ← expect .string
        let _ ← expect .terminator
        return do return .importDecl (.ofLoc l) (← specifiers) (← r.string source) : Parse Draft)
      (Leaves source (Draft.Spans source) l) := by
    obtain ⟨mid, hts, hspecifiers⟩ := h
    refine (hts.expect (by decide)).bind fun string ts hstring => ?_
    refine hstring.clear.ahead.skip.bind fun _ ts hts => .pure ⟨string.start, hts, ?_⟩
    refine hspecifiers.bind fun ns hns => ?_
    exact (hstring.string_spans rfl r).bind fun n hn => .pure (.node (hns.append hn) trivial)
  refine atKind_bind ?_
  dsimp only
  split
  · exact hdone ⟨word.start, hword.clear.ahead, .ok (.empty hword.from_lo)⟩
  · refine (importClause_follows hword.clear.ahead).bind fun ds ts ⟨mid, hts, hds⟩ => ?_
    refine (hts.expect (by decide)).bind fun fromWord ts hfrom => ?_
    refine hdone ⟨fromWord.start, hfrom.clear.ahead, hds.mono fun ns hns => ?_⟩
    exact hns.widen hword.from_lo hfrom.from_lo

theorem exportSpecifier_reads : Reads source (Draft.Spans source) (exportSpecifier r) := by
  refine reads_here fun l ts hts => ?_
  refine (exportName_reads hts).bind fun localName ts ⟨mid, hts, hlocal⟩ => ?_
  refine (renamed?_follows exportName_reads hts).bind fun exported ts ⟨hi, hts, hexported⟩ => ?_
  refine .pure ⟨hi, hts, hlocal.bind fun n hn => ?_⟩
  cases exported with
  | none => exact .pure (.node (hn.append (.empty hexported)) trivial)
  | some exported =>
    have hexported : exported.Spans source mid hi := hexported
    exact hexported.bind fun m hm => .pure (.node (hn.append hm) trivial)

section Rules

variable (h : rules.Sound source)

include h

/-! ## Declarations -/

theorem declarator_reads : Reads source (Draft.Spans source) (declarator rules) := by
  intro lo ts hts
  refine (hts.ahead.expect (by decide)).bind fun name ts hname => ?_
  have hvalue := behind?_follows (k := .assign) (by decide) h.assign hname.clear.ahead
  refine hvalue.bind fun value ts ⟨hi, hts, hvalue⟩ => .pure ⟨hi, hts, ?_⟩
  refine hvalue.bind fun ns hns => .pure ?_
  have hspans := hname.here.name_spans.append hns
  exact .earlier hname.from_lo (.node hspans trivial)

omit h in
theorem varKind_clear (hts : Clear source lo ts) :
    Ensures ts varKind fun _ rest => Clear source lo rest := by
  refine peek_bind ?_
  rintro t ts rfl
  have ht := hts.consume
  split
  · exact next_cons (.pure (ht.clear.weaken ht.from_lo))
  · exact next_cons (.pure (ht.clear.weaken ht.from_lo))
  · exact next_cons (.pure (ht.clear.weaken ht.from_lo))
  · exact .fail

theorem varDeclaration_reads : Reads source (Draft.Spans source) (varDeclaration rules) := by
  refine reads_here fun l ts hts => ?_
  refine (varKind_clear hts).bind fun kind ts hts => ?_
  refine (commaSeparated_reads (declarator_reads h) hts).bind fun items ts ⟨hi, hts, hitems⟩ => ?_
  exact .pure ⟨hi, hts, (drafts_span hitems).bind fun ns hns => .pure (.node hns trivial)⟩

theorem functionDeclaration_reads :
    Reads source (Draft.Spans source) (functionDeclaration rules) := by
  refine reads_here fun l ts hts => ?_
  refine hts.accept?.bind fun word ts hts => ?_
  refine (hts.ahead.expect (by decide)).bind fun function ts hfunction => ?_
  refine (hfunction.clear.ahead.expect (by decide)).bind fun name ts hname => ?_
  refine (paramsAndBlock_follows h hname.clear.ahead).bind fun parts ts ⟨hi, hts, hparts⟩ => ?_
  refine .pure ⟨hi, hts, hparts.bind fun p hp => .pure (.node ?_ trivial)⟩
  exact (hname.name_spans.earlier hfunction.from_lo).append hp

theorem classDeclaration_reads :
    Reads source (Draft.Spans source) (classDeclaration r rules) := by
  refine reads_here fun l ts hts => ?_
  refine (hts.ahead.expect (by decide)).bind fun word ts hword => ?_
  refine (hword.clear.ahead.expect (by decide)).bind fun name ts hname => ?_
  refine (classTail_follows h hname.clear.ahead).bind fun parts ts ⟨hi, hts, hparts⟩ => ?_
  refine .pure ⟨hi, hts, hparts.bind fun p hp => .pure (.node ?_ trivial)⟩
  exact (hname.name_spans.earlier hword.from_lo).append hp

section Exports

variable {l : Location} (hl : l.le lo)

include hl

omit h in
theorem exportList_ensures (hts : Ahead source lo ts) :
    Ensures ts (exportList r l) (Leaves source (Draft.Spans source) l) := by
  have hsource : Reads source (Draft.Spans source)
      (do return r.string (← expect .string) : Parse Draft) := by
    intro lo ts hts
    refine (hts.ahead.expect (by decide)).bind fun string ts hstring => ?_
    exact .pure ⟨string.start, hstring.clear.ahead, hstring.string_spans rfl r⟩
  refine (hts.expect (by decide)).bind fun brace ts hbrace => ?_
  refine (commaList_reads exportSpecifier_reads hbrace.clear).bind
    fun items ts ⟨mid, hts, hitems⟩ => ?_
  refine (behind?_follows (by decide) hsource hts).bind fun from' ts ⟨hi, hts, hfrom⟩ => ?_
  refine hts.skip.bind fun _ ts hts => .pure ⟨hi, hts, ?_⟩
  refine (drafts_span hitems).bind fun ns hns => hfrom.bind fun ms hms => .pure (.node ?_ trivial)
  have hle := Location.le_trans hl hbrace.from_lo
  exact (Spans.empty hle).append (hns.append hms)

omit h in
theorem exported_ensures {declaration : Parse Draft}
    (hdeclaration : Reads source (Draft.Spans source) declaration) (hts : Clear source lo ts) :
    Ensures ts (exported l declaration) (Leaves source (Draft.Spans source) l) := by
  refine (hdeclaration hts).bind fun d ts ⟨hi, hts, hd⟩ => .pure ⟨hi, hts, ?_⟩
  refine hd.map fun n hn => .node ?_ trivial
  have hnone : Spans source hi hi [[], []] :=
    (Spans.empty (Location.le_refl hi)).append (.empty (Location.le_refl hi))
  exact (hn.earlier hl).append hnone

end Exports

omit h in
theorem terminated_ensures {statement : Parse Draft}
    (hstatement : Ensures ts statement (Leaves source (Draft.Spans source) lo)) :
    Ensures ts (terminated statement) (Leaves source (Draft.Spans source) lo) :=
  hstatement.bind fun _ _ ⟨hi, hts, hd⟩ => hts.skip.bind fun _ _ hts => .pure ⟨hi, hts, hd⟩

theorem exportDeclaration_reads :
    Reads source (Draft.Spans source) (exportDeclaration r rules) := by
  refine reads_here fun l ts hts => ?_
  refine (hts.ahead.expect (by decide)).bind fun word ts hword => ?_
  refine peek_bind ?_
  rintro t ts rfl
  have ht := hword.clear.consume
  have hle := hword.from_lo
  split
  · refine next_cons ((h.assign ht.clear).bind fun value ts ⟨hi, hts, hvalue⟩ => ?_)
    refine hts.skip.bind fun _ ts hts => .pure ⟨hi, hts, ?_⟩
    refine hvalue.map fun n hn => .node ?_ trivial
    exact hn.earlier (Location.le_trans hle ht.from_lo)
  · exact terminated_ensures (exported_ensures hle (varDeclaration_reads h) hword.clear)
  · exact terminated_ensures (exported_ensures hle (varDeclaration_reads h) hword.clear)
  · exact terminated_ensures (exported_ensures hle (varDeclaration_reads h) hword.clear)
  · exact exported_ensures hle (functionDeclaration_reads h) hword.clear
  · exact exported_ensures hle (functionDeclaration_reads h) hword.clear
  · exact exported_ensures hle (classDeclaration_reads h) hword.clear
  · exact exportList_ensures hle hword.clear.ahead

/-! ## Statements with bodies -/

theorem condition_ensures (hts : Ahead source lo ts) :
    Ensures ts (condition rules) fun value rest =>
      ∃ hi, Clear source hi rest ∧ value.Spans source lo hi := by
  refine (hts.expect (by decide)).bind fun paren ts hparen => ?_
  refine (h.assign hparen.clear).bind fun value ts ⟨mid, hts, hvalue⟩ => ?_
  refine (hts.expect (by decide)).bind fun closing ts hclosing => ?_
  exact .pure ⟨closing.start, hclosing.clear, hvalue.widen hparen.from_lo hclosing.from_lo⟩

theorem body_reads : Reads source (Draft.Spans source) (body rules) := by
  intro lo ts hts
  exact (h.body hts).bind fun line ts ⟨hi, hts, hline⟩ => .pure ⟨hi, hts, hline⟩

theorem ifStatement_reads : Reads source (Draft.Spans source) (ifStatement rules) := by
  refine reads_here fun l ts hts => ?_
  refine (hts.ahead.expect (by decide)).bind fun word ts hword => ?_
  refine (condition_ensures h hword.clear.ahead).bind fun test ts ⟨mid, hts, htest⟩ => ?_
  refine (body_reads h hts).bind fun thenBranch ts ⟨mid', hts, hthen⟩ => ?_
  refine (behind?_follows (by decide) (body_reads h) hts).bind
    fun elseBranch ts ⟨hi, hts, helse⟩ => .pure ⟨hi, hts, ?_⟩
  refine helse.bind fun ns hns => htest.bind fun a ha => hthen.bind fun b hb => .pure ?_
  exact .node ((ha.earlier hword.from_lo).append (hb.append hns)) trivial

omit h in
theorem single_ensures {item : Parse Draft}
    (hitem : Ensures ts item (Leaves source (Draft.Spans source) lo)) :
    Ensures ts (single item) (Leaves source (Drafts.Spans source) lo) :=
  hitem.bind fun _ _ ⟨hi, hts, hd⟩ => .pure ⟨hi, hts, hd.map fun _ hn => hn⟩

omit h in
theorem optionalUpTo_reads {close : Token.Kind} {item : Parse Draft}
    (hitem : Reads source (Draft.Spans source) item) :
    Reads source (Drafts.Spans source) (optionalUpTo close item) := by
  intro lo ts hts
  refine atKind_bind ?_
  split
  · exact .pure ⟨lo, hts.ahead, .ok (.empty (Location.le_refl _))⟩
  · exact single_ensures (hitem hts)

/-- Behind a terminator the way need not be clear, but no expression starts at another one. -/
theorem optionalAssign_follows {close : Token.Kind} :
    Follows source (Drafts.Spans source) (optionalUpTo close rules.assign) := by
  intro lo ts hts
  by_cases hhead : ts.head?.map Token.kind = some .terminator
  · obtain ⟨t, hfirst, ht⟩ := Option.map_eq_some_iff.1 hhead
    obtain ⟨rest, rfl⟩ := List.head?_eq_some_iff.1 hfirst
    refine atKind_bind ?_
    split
    · exact .pure ⟨lo, hts, .ok (.empty (Location.le_refl _))⟩
    · exact single_ensures ((h.terminator ht).mono fun _ _ hfalse => hfalse.elim)
  · exact optionalUpTo_reads h.assign (hts.clear_of_head? hhead)

theorem forRest_ensures {l : Location} {initial : Drafts} (hts : Ahead source lo ts)
    (hinitial : initial.Spans source l lo) :
    Ensures ts (forRest rules l initial) (Leaves source (Draft.Spans source) l) := by
  refine hts.skip.bind fun _ ts hts => ?_
  refine (optionalAssign_follows h hts).bind fun test ts ⟨mid, hts, htest⟩ => ?_
  refine hts.skip.bind fun _ ts hts => ?_
  refine (optionalAssign_follows h hts).bind fun update ts ⟨mid', hts, hupdate⟩ => ?_
  refine (hts.expect (by decide)).bind fun paren ts hparen => ?_
  refine (body_reads h hparen.clear).bind fun body ts ⟨hi, hts, hbody⟩ => .pure ⟨hi, hts, ?_⟩
  refine hinitial.bind fun ns hns => htest.bind fun ms hms => hupdate.bind fun us hus => ?_
  refine hbody.bind fun n hn => .pure (.node ?_ trivial)
  have hn := hn.earlier hparen.from_lo
  exact hns.append (hms.append (hus.append hn))

omit h in
theorem iteration_clear (hts : Clear source lo ts) :
    Ensures ts iteration fun _ rest => Clear source lo rest := by
  refine (hts.ahead.accept? (by decide)).bind fun o ts' ho => ?_
  rcases ho with ⟨rfl, rfl⟩ | ⟨word, rfl, hword⟩
  · refine (hts.ahead.expect (by decide)).bind fun word ts hword => ?_
    exact .pure (hword.clear.weaken hword.from_lo)
  · exact .pure (hword.clear.weaken hword.from_lo)

omit h in
theorem startsIteration_ensures : Ensures ts startsIteration fun _ rest => rest = ts := by
  refine get_bind ?_
  split <;> exact .pure rfl

theorem forStatement_reads : Reads source (Draft.Spans source) (forStatement rules) := by
  refine reads_here fun l ts hts => ?_
  refine (hts.ahead.expect (by decide)).bind fun word ts hword => ?_
  refine (hword.clear.ahead.expect (by decide)).bind fun paren ts hparen => ?_
  have hle := Location.le_trans hword.from_lo hparen.from_lo
  refine startsIteration_ensures.bind ?_
  rintro runs _ rfl
  split
  · refine (varKind_clear hparen.clear).bind fun kind ts hts => ?_
    refine (hts.ahead.expect (by decide)).bind fun name ts hname => ?_
    refine (iteration_clear hname.clear).bind fun runs ts hts => ?_
    refine (h.assign hts).bind fun iterable ts ⟨mid, hts, hiterable⟩ => ?_
    refine (hts.expect (by decide)).bind fun closing ts hclosing => ?_
    refine (body_reads h hclosing.clear).bind fun body ts ⟨hi, hts, hbody⟩ => .pure ⟨hi, hts, ?_⟩
    refine hiterable.bind fun n hn => hbody.bind fun m hm => .pure (.node ?_ trivial)
    exact (hname.name_spans.earlier hle).append
      (hn.append (hm.earlier hclosing.from_lo))
  · have hdone {initial : Drafts} {ts : List Token}
        (hinitial : Leaves source (Drafts.Spans source) paren.start initial ts) :
        Ensures ts (forRest rules l initial) (Leaves source (Draft.Spans source) l) := by
      obtain ⟨mid, hts, hinitial⟩ := hinitial
      exact forRest_ensures h hts (hinitial.mono fun ns hns => hns.earlier hle)
    have hvariables := single_ensures (varDeclaration_reads h hparen.clear)
    refine peekKind?_bind ?_
    dsimp only
    split
    · exact hvariables.bind fun _ _ => hdone
    · exact hvariables.bind fun _ _ => hdone
    · exact hvariables.bind fun _ _ => hdone
    · exact (optionalUpTo_reads h.assign hparen.clear).bind fun _ _ => hdone

theorem whileStatement_reads : Reads source (Draft.Spans source) (whileStatement rules) := by
  refine reads_here fun l ts hts => ?_
  refine (hts.ahead.expect (by decide)).bind fun word ts hword => ?_
  refine (condition_ensures h hword.clear.ahead).bind fun test ts ⟨mid, hts, htest⟩ => ?_
  refine (body_reads h hts).bind fun body ts ⟨hi, hts, hbody⟩ => .pure ⟨hi, hts, ?_⟩
  refine htest.bind fun n hn => hbody.bind fun m hm => .pure (.node ?_ trivial)
  exact (hn.earlier hword.from_lo).append hm

theorem doStatement_reads : Reads source (Draft.Spans source) (doStatement rules) := by
  refine reads_here fun l ts hts => ?_
  refine (hts.ahead.expect (by decide)).bind fun word ts hword => ?_
  refine (body_reads h hword.clear).bind fun body ts ⟨mid, hts, hbody⟩ => ?_
  refine hts.skip.bind fun _ ts hts => ?_
  refine (condition_ensures h hts).bind fun test ts ⟨hi, hts, htest⟩ => ?_
  refine hts.ahead.skip.bind fun _ ts hts => .pure ⟨hi, hts, ?_⟩
  refine hbody.bind fun n hn => htest.bind fun m hm => .pure (.node ?_ trivial)
  exact (hn.earlier hword.from_lo).append hm

theorem catchClause_reads : Reads source (Draft.Spans source) (catchClause rules) := by
  have hparam : Reads source (Draft.Spans source) (do
      let name ← expect .name
      let _ ← expect .rightParen
      return .ok (Reader.name name) : Parse Draft) := by
    intro lo ts hts
    refine (hts.ahead.expect (by decide)).bind fun name ts hname => ?_
    refine hname.clear.ahead.skip.bind fun _ ts hts => ?_
    exact .pure ⟨name.start, hts, .ok hname.name_spans⟩
  refine reads_here fun l ts hts => ?_
  refine (hts.ahead.expect (by decide)).bind fun word ts hword => ?_
  refine (behind?_follows (by decide) hparam hword.clear.ahead).bind
    fun param ts ⟨mid, hts, hparam⟩ => ?_
  refine (block_follows h hts).bind fun body ts ⟨hi, hts, hbody⟩ => .pure ⟨hi, hts, ?_⟩
  refine hparam.bind fun ns hns => hbody.bind fun n hn => .pure (.node ?_ trivial)
  exact (hns.earlier hword.from_lo).append hn

theorem tryStatement_reads : Reads source (Draft.Spans source) (tryStatement rules) := by
  refine reads_here fun l ts hts => ?_
  refine (hts.ahead.expect (by decide)).bind fun word ts hword => ?_
  refine (block_follows h hword.clear.ahead).bind fun block ts ⟨mid, hts, hblock⟩ => ?_
  have hdone {handler : Drafts} {ts : List Token}
      (hhandler : Leaves source (Drafts.Spans source) mid handler ts) : Ensures ts
      (do
        let finalizer ← behind? .finallyWord (Grammar.block rules)
        return do
          let handler ← handler
          let finalizer ← finalizer
          return .tryStmt (.ofLoc l) (← block) handler finalizer : Parse Draft)
      (Leaves source (Draft.Spans source) l) := by
    obtain ⟨mid', hts, hhandler⟩ := hhandler
    refine (behind?_follows (by decide) (block_follows h).reads hts).bind
      fun finalizer ts ⟨hi, hts, hfinalizer⟩ => .pure ⟨hi, hts, ?_⟩
    refine hhandler.bind fun ns hns => hfinalizer.bind fun ms hms => hblock.bind fun n hn => ?_
    refine .pure (.node ?_ trivial)
    exact (hn.earlier hword.from_lo).append (hns.append hms)
  refine atKind_bind ?_
  dsimp only
  split
  · rename_i hk
    have hclear := hts.clear_of_head? (by simp [of_decide_eq_true hk])
    exact (single_ensures (catchClause_reads h hclear)).bind fun _ _ => hdone
  · exact hdone ⟨mid, hts, .ok (.empty (Location.le_refl _))⟩

/-! ## Statements -/

variable (hr : r.ReadsHoles)

include hr

theorem expressionStatement_reads :
    Reads source (Draft.Spans source) (expressionStatement r rules) := by
  refine reads_here fun l ts hts => ?_
  refine (assign_reads h hr hts).bind fun value ts ⟨hi, hts, hvalue⟩ => .pure ⟨hi, hts, ?_⟩
  exact hvalue.map fun n hn => .node hn trivial

/-- A statement is a filler when its first token is one, and then that is all of it. -/
theorem statement_cons {t : Token} (hts : Clear source t.start (t :: ts)) :
    Ensures (t :: ts) (statement r rules) fun line rest =>
      Leaves source (fun lo hi (line : Line) => line.draft.Spans source lo hi) t.start line rest ∧
        line.isFiller = t.isFiller ∧ (t.isFiller = true → rest = ts) := by
  have ht := hts.consume
  have hnone : Spans source t.start t.start [] := .nil (Location.le_refl _)
  refine peek_cons ?_
  dsimp only
  by_cases hkind : t.kind = .terminator
  · simp only [hkind]
    have hfiller : (t.text != ";") = t.isFiller := by simp [Token.isFiller, hkind]
    have hempty : Draft.Spans source t.start t.start (.ok (.emptyStmt (.ofLoc t.start))) :=
      .ok (.node hnone trivial)
    exact next_cons (.pure ⟨⟨t.start, ht.clear.ahead, hempty⟩, hfiller, fun _ => rfl⟩)
  have hf : t.isFiller = false := not_filler rfl hkind
  have hplain {rule : Parse Draft}
      (hrule : Ensures (t :: ts) rule (Leaves source (Draft.Spans source) t.start)) :
      Ensures (t :: ts) (do return ⟨← rule, false⟩ : Parse Line) fun line rest =>
        Leaves source (fun lo hi (line : Line) => line.draft.Spans source lo hi) t.start line rest ∧
          line.isFiller = t.isFiller ∧ (t.isFiller = true → rest = ts) :=
    hrule.bind fun d ts hd => .pure ⟨hd, hf.symm, by simp [hf]⟩
  have hexpression := terminated_ensures (expressionStatement_reads h hr hts)
  have hvariables := terminated_ensures (varDeclaration_reads h hts)
  split
  · exact hplain (importDeclaration_reads hts)
  · exact hplain (exportDeclaration_reads h hts)
  · exact hplain (functionDeclaration_reads h hts)
  · refine peekSecond?_bind ?_
    split
    · exact hplain (functionDeclaration_reads h hts)
    · exact hplain hexpression
  · exact hplain (classDeclaration_reads h hts)
  · exact hplain (ifStatement_reads h hts)
  · exact hplain (forStatement_reads h hts)
  · exact hplain (whileStatement_reads h hts)
  · exact hplain (doStatement_reads h hts)
  · exact hplain (tryStatement_reads h hts)
  · exact hplain (block_follows h hts.ahead)
  · exact hplain hvariables
  · exact hplain hvariables
  · exact hplain hvariables
  · refine hplain (terminated_ensures (next_cons ?_))
    refine (optionalUpTo_reads h.assign ht.clear).bind fun value ts hleaves => ?_
    obtain ⟨hi, hts, hvalue⟩ := hleaves
    exact .pure ⟨hi, hts, hvalue.map fun ns hns => .node hns trivial⟩
  · refine hplain (terminated_ensures (next_cons ?_))
    refine (h.assign ht.clear).bind fun value ts hleaves => ?_
    obtain ⟨hi, hts, hvalue⟩ := hleaves
    exact .pure ⟨hi, hts, hvalue.map fun n hn => .node hn trivial⟩
  · refine hplain (terminated_ensures (next_cons ?_))
    exact .pure ⟨t.start, ht.clear.ahead, .ok (.node hnone trivial)⟩
  · refine hplain (terminated_ensures (next_cons ?_))
    exact .pure ⟨t.start, ht.clear.ahead, .ok (.node hnone trivial)⟩
  · contradiction
  · exact hplain hexpression

theorem statement_reads : Reads source (fun lo hi (line : Line) => line.draft.Spans source lo hi)
    (statement r rules) := by
  intro lo ts hts
  cases ts with
  | nil =>
    intro p hp
    cases hp
  | cons t ts =>
    obtain ⟨hle, hts⟩ := hts.here
    exact (statement_cons h hr hts).mono fun line rest ⟨⟨hi, hrest, hline⟩, _⟩ =>
      ⟨hi, hrest, hline.earlier hle⟩

theorem statement_follows : Follows source (Line.Spans source) (statement r rules) := by
  intro lo ts hts
  cases ts with
  | nil =>
    intro p hp
    cases hp
  | cons t ts =>
    have hcons := statement_cons h hr hts.here
    cases hf : t.isFiller with
    | false =>
      have hle := (hts.clear hf).here.1
      refine hcons.mono fun line rest ⟨⟨hi, hrest, hline⟩, hfiller, _⟩ => ⟨hi, hrest, ?_⟩
      rw [Line.Spans, hfiller, hf]
      exact hline.earlier hle
    | true =>
      refine hcons.mono fun line rest ⟨_, hfiller, hrest⟩ => ?_
      obtain rfl := hrest hf
      refine ⟨lo, hts.tail, ?_⟩
      rw [Line.Spans, hfiller, hf]
      exact Location.le_refl _

end Rules

/-! ## All rules -/

theorem rulesTo_sound (source : Text) (hr : r.ReadsHoles) (depth : Nat) :
    (rulesTo r depth).Sound source := by
  induction depth with
  | zero =>
    exact ⟨fun _ _ _ => .fail, fun _ _ _ => .fail, fun _ _ _ => .fail, fun _ _ _ => .fail,
      fun _ _ _ => .fail, fun _ => .fail⟩
  | succ depth ih =>
    exact ⟨assign_reads ih hr, unary_reads ih hr, postfixed_reads ih hr, statement_reads ih hr,
      statement_follows ih hr, assign_terminator⟩

theorem statements_follows (hr : r.ReadsHoles) (depth : Nat) :
    Follows source (Drafts.Spans source) (statements (rulesTo r depth)) := by
  have h := rulesTo_sound source hr depth
  intro lo ts hts
  refine (loop_ensures (I := Collected source (Line.Spans source) lo) ?_ ⟨lo, hts, .nil⟩).bind
    fun lines ts ⟨hi, hts, hlines⟩ => .pure ⟨hi, hts, lines_span hlines⟩
  rintro lines ts ⟨mid, hts, hlines⟩
  refine peekKind?_bind ?_
  split
  · exact .pure ⟨mid, hts, hlines⟩
  · refine (h.line hts).bind fun line rest ⟨hi, hrest, hline⟩ => .pure ⟨hi, hrest, ?_⟩
    simpa using hlines.snoc (Location.le_refl _) hline

end Grammar

end InlineTemplates
