import InlineTemplates.Grammar.Source
import InlineTemplates.Proofs.ExpressionAccounts

/-!
# What the drafts of statements account for

The rules for statements in the order of the grammar, and all rules from that: what is read of all
tokens of a source accounts for them.
-/

namespace InlineTemplates

namespace Grammar

open Parse

variable {i : Input} {rules : Rules}

/-! ## Names of a module -/

theorem exportName_accounts : Parse.Accounting i (exportName i.reader) := by
  refine fun ts => .next ?_
  rintro t rest rfl ht
  split
  · rename_i hk
    exact .pure (.ok (.plain (by rw [hk]; rfl) rest))
  · rename_i hk
    exact .pure (.ok (.plain (by rw [hk]; rfl) rest))
  · rename_i hk
    exact .pure (.string ht hk rest)
  · exact .failing ht

theorem renamed?_accounts {name : Parse Draft} (hname : Parse.Accounting i name) (ts : List Token) :
    At i ts (renamed? name) fun o rest =>
      (o = none ∧ Sound i ts rest) ∨ ∃ d, o = some d ∧ Accounts i ts d rest := by
  refine .accept? rfl (.pure (.inl ⟨rfl, .refl i ts⟩)) fun _ mid has => ?_
  exact (hname mid).bind fun d _ hd => .pure (.inr ⟨d, rfl, hd.widen has.trans⟩)

theorem plainName_accounts : Parse.Accounting i plainName := fun _ =>
  .skip rfl fun _ _ hname => .pure (.ok hname)

theorem importSpecifier_accounts : Parse.Accounting i (importSpecifier i.reader) := by
  refine fun ts => .here fun start => (exportName_accounts ts).bind fun imported mid himported => ?_
  refine (renamed?_accounts plainName_accounts mid).bind ?_
  rintro _ rest (⟨rfl, hnone⟩ | ⟨d, rfl, hd⟩)
  · refine .pure (himported.bind fun imported hmid => ?_)
    split
    · rename_i heq
      cases heq
    · exact .ok (hmid.trans hnone)
    · exact Settles.error (Or.inl rfl)
  · exact .pure (himported.bind fun _ hmid => hd.bind fun _ hrest => .ok (hmid.trans hrest))

theorem importList_accounts : Parse.Accounting i (importList i.reader) := by
  refine fun ts => .skip rfl fun _ mid hopening => ?_
  refine (commaList_series rfl importSpecifier_accounts mid).bind
    fun items rest ⟨_, hitems, hend⟩ => .pure ?_
  exact (Accounts.drafts hitems).widen fun hmid => hopening.trans (hmid.trans hend)

theorem importNamespace_accounts : Parse.Accounting i importNamespace := fun _ =>
  .skip rfl fun _ _ hstar => .skip rfl fun _ _ has => .skip rfl fun _ _ hname =>
    .pure (.ok (hstar.trans (has.trans hname)))

theorem importRest_accounts : Parse.Accounting i (importRest i.reader) := by
  refine fun ts => .atKind fun isNamespace _ => ?_
  split
  · exact (importNamespace_accounts ts).bind fun _ _ hd => .pure (hd.map id)
  · exact importList_accounts ts

theorem importClause_accounts : Parse.Accounting i (importClause i.reader) := by
  refine fun ts => .accept? rfl (importRest_accounts ts) fun t mid hname => ?_
  refine .accept? rfl (.pure (.ok hname)) fun _ mid' hcomma => ?_
  exact (importRest_accounts mid').bind fun _ _ hrest =>
    .pure (hrest.map fun hs => hname.trans (hcomma.trans hs))

theorem importDeclaration_accounts : Parse.Accounting i (importDeclaration i.reader) := by
  refine fun ts => .here fun start => .skip rfl fun _ mid himport => .atKind fun isBare _ => ?_
  have hdone (specifiers : Drafts) (mid' : List Token)
      (hspecifiers : Accounts i mid specifiers mid') : At i mid' (do
        let source ← expect .string
        let _ ← expect .terminator
        return do return .importDecl (.ofLoc start) (← specifiers) (← i.reader.string source) :
          Parse Draft) (Accounts i ts) := by
    refine .expect ?_
    rintro source mid'' rfl hk ht
    refine .skip rfl fun _ rest hend => .pure (hspecifiers.bind fun _ hmid => ?_)
    exact (Accounts.string ht hk mid'').bind fun _ hsource =>
      .ok (himport.trans (hmid.trans (hsource.trans hend)))
  dsimp only
  split
  · exact hdone _ _ (.ok (.refl i mid))
  · refine (importClause_accounts mid).bind fun specifiers _ hspecifiers => ?_
    exact .skip rfl fun _ mid' hfrom => hdone _ mid' (hspecifiers.widen (·.trans hfrom))

theorem exportSpecifier_accounts : Parse.Accounting i (exportSpecifier i.reader) := by
  refine fun ts => .here fun start => (exportName_accounts ts).bind fun localName mid hlocal => ?_
  refine (renamed?_accounts exportName_accounts mid).bind ?_
  rintro _ rest (⟨rfl, hnone⟩ | ⟨d, rfl, hd⟩)
  · exact .pure (hlocal.bind fun _ hmid => .ok (hmid.trans hnone))
  · exact .pure (hlocal.bind fun _ hmid => hd.bind fun _ hrest => .ok (hmid.trans hrest))

section Rules

variable (h : rules.Accounting i)

include h

/-! ## Declarations -/

theorem declarator_accounts : Parse.Accounting i (declarator rules) := by
  refine fun ts => .skip rfl fun name mid hname => ?_
  refine (behind?_accounts rfl h.assign mid).bind fun value rest hvalue => .pure ?_
  exact hvalue.bind fun _ hrest => .ok (hname.trans hrest)

omit h in
theorem varKind_sound (ts : List Token) : At i ts varKind fun _ rest => Sound i ts rest := by
  refine .peek ?_
  rintro t mid rfl
  split
  · rename_i hk
    exact .pass (congrArg some hk) rfl fun _ _ hword => .pure hword
  · rename_i hk
    exact .pass (congrArg some hk) rfl fun _ _ hword => .pure hword
  · rename_i hk
    exact .pass (congrArg some hk) rfl fun _ _ hword => .pure hword
  · exact .fail

theorem varDeclaration_accounts : Parse.Accounting i (varDeclaration rules) := by
  refine fun ts => .here fun start => (varKind_sound ts).bind fun kind mid hkind => ?_
  refine (commaSeparated_series (declarator_accounts h) mid).bind fun items rest hitems => ?_
  exact .pure ((Accounts.drafts hitems).bind fun _ hrest => .ok (hkind.trans hrest))

theorem functionDeclaration_accounts : Parse.Accounting i (functionDeclaration rules) := by
  refine fun ts => .here fun start => .skip? rfl fun word _ hword => ?_
  refine .skip rfl fun _ _ hfunction => .skip rfl fun name mid hname => ?_
  refine (paramsAndBlock_accounts h mid).bind fun parts rest hparts => .pure ?_
  exact hparts.bind fun _ hrest => .ok (hword.trans (hfunction.trans (hname.trans hrest)))

theorem classDeclaration_accounts : Parse.Accounting i (classDeclaration i.reader rules) := by
  refine fun ts => .here fun start => .skip rfl fun _ _ hclass => ?_
  refine .skip rfl fun name mid hname => ?_
  refine (classTail_accounts h mid).bind fun parts rest hparts => .pure ?_
  exact hparts.bind fun _ hrest => .ok (hclass.trans (hname.trans hrest))

omit h in
theorem exportList_accounts {start : Location} :
    Parse.Accounting i (exportList i.reader start) := by
  have hsource : Parse.Accounting i (do return i.reader.string (← expect .string)) := by
    refine fun ts => .expect ?_
    rintro t rest rfl hk ht
    exact .pure (.string ht hk rest)
  refine fun ts => .skip rfl fun _ mid hopening => ?_
  refine (commaList_series rfl exportSpecifier_accounts mid).bind
    fun items mid' ⟨_, hitems, hclosing⟩ => ?_
  refine (behind?_accounts rfl hsource mid').bind fun source _ hsource => ?_
  refine .skip rfl fun _ rest hend => .pure ?_
  exact (Accounts.drafts hitems).bind fun _ hmid => hsource.bind fun _ hrest =>
    .ok (hopening.trans (hmid.trans (hclosing.trans (hrest.trans hend))))

omit h in
theorem exported_accounts {start : Location} {declaration : Parse Draft}
    (hdeclaration : Parse.Accounting i declaration) :
    Parse.Accounting i (exported start declaration) := fun ts =>
  (hdeclaration ts).bind fun _ _ hd => .pure (hd.map id)

theorem exportDeclaration_accounts : Parse.Accounting i (exportDeclaration i.reader rules) := by
  refine fun ts => .here fun start => .skip rfl fun _ mid hexport => ?_
  have hbehind {declaration : Parse Draft} (hd : Parse.Accounting i declaration) :
      At i mid declaration (Accounts i ts) :=
    (hd mid).mono fun _ _ hd => hd.widen hexport.trans
  have hvar : Parse.Accounting i (do
      let declaration ← exported start (varDeclaration rules)
      let _ ← expect .terminator
      return declaration) := fun ts =>
    (exported_accounts (varDeclaration_accounts h) ts).bind fun _ _ hd =>
      .skip rfl fun _ _ hend => .pure (hd.widen (·.trans hend))
  refine .peek ?_
  rintro t rest rfl
  split
  · rename_i hk
    refine .pass (congrArg some hk) rfl fun _ mid' hdefault => ?_
    refine (h.assign mid').bind fun value _ hvalue => .skip rfl fun _ _ hend => .pure ?_
    exact hvalue.map fun hrest => hexport.trans (hdefault.trans (hrest.trans hend))
  · exact hbehind hvar
  · exact hbehind hvar
  · exact hbehind hvar
  · exact hbehind (exported_accounts (functionDeclaration_accounts h))
  · exact hbehind (exported_accounts (functionDeclaration_accounts h))
  · exact hbehind (exported_accounts (classDeclaration_accounts h))
  · exact hbehind exportList_accounts

/-! ## Statements with bodies -/

theorem condition_accounts : Parse.Accounting i (condition rules) := by
  refine fun ts => .skip rfl fun _ mid hopening => (h.assign mid).bind fun value _ hvalue => ?_
  refine .skip rfl fun _ rest hclosing => .pure ?_
  exact hvalue.widen fun hmid => hopening.trans (hmid.trans hclosing)

theorem body_accounts : Parse.Accounting i (body rules) := fun ts =>
  (h.statement ts).bind fun _ _ hline => .pure hline.1

theorem ifStatement_accounts : Parse.Accounting i (ifStatement rules) := by
  refine fun ts => .here fun start => .skip rfl fun _ _ hif => ?_
  refine (condition_accounts h _).bind fun test _ htest => ?_
  refine (body_accounts h _).bind fun yes _ hyes => ?_
  refine (behind?_accounts rfl (body_accounts h) _).bind fun no rest hno => .pure ?_
  exact hno.bind fun _ hs => htest.bind fun _ hs' => hyes.bind fun _ hs'' =>
    .ok (hif.trans (hs'.trans (hs''.trans hs)))

omit h in
theorem single_accounts {item : Parse Draft} (hitem : Parse.Accounting i item) :
    Parse.Accounting i (single item) := fun ts =>
  (hitem ts).bind fun _ _ hd => .pure (hd.map id)

omit h in
theorem optionalUpTo_accounts {close : Token.Kind} {item : Parse Draft}
    (hitem : Parse.Accounting i item) : Parse.Accounting i (optionalUpTo close item) := by
  refine fun ts => .atKind fun isClosed _ => ?_
  split
  · exact .pure (.ok (.refl i ts))
  · exact single_accounts hitem ts

theorem forRest_accounts {start : Location} {initial : Drafts} {ts mid : List Token}
    (hinitial : Accounts i ts initial mid) :
    At i mid (forRest rules start initial) (Accounts i ts) := by
  refine .skip rfl fun _ _ hfirst => ?_
  refine (optionalUpTo_accounts h.assign _).bind fun test _ htest => ?_
  refine .skip rfl fun _ _ hsecond => ?_
  refine (optionalUpTo_accounts h.assign _).bind fun update _ hupdate => ?_
  refine .skip rfl fun _ _ hclosing => (body_accounts h _).bind fun body rest hbody => .pure ?_
  exact hinitial.bind fun _ hs => htest.bind fun _ hs' => hupdate.bind fun _ hs'' =>
    hbody.bind fun _ hrest => .ok (hs.trans (hfirst.trans (hs'.trans (hsecond.trans
      (hs''.trans (hclosing.trans hrest))))))

omit h in
theorem iteration_sound (ts : List Token) : At i ts iteration fun _ rest => Sound i ts rest :=
  .accept? rfl (.skip rfl fun _ _ hword => .pure hword) fun _ _ hword => .pure hword

omit h in
theorem startsIteration_keeps (ts : List Token) :
    At i ts startsIteration fun _ rest => rest = ts := by
  refine .get ?_
  split <;> exact .pure rfl

theorem forStatement_accounts : Parse.Accounting i (forStatement rules) := by
  refine fun ts => .here fun start => .skip rfl fun _ _ hfor => .skip rfl fun _ mid hopening => ?_
  have hmid := hfor.trans hopening
  refine (startsIteration_keeps mid).bind ?_
  rintro isIteration _ rfl
  have hvar : Parse.Accounting i (single (varDeclaration rules)) :=
    single_accounts (varDeclaration_accounts h)
  split
  · refine (varKind_sound _).bind fun kind _ hkind => .skip rfl fun name _ hname => ?_
    refine (iteration_sound _).bind fun runs _ hruns => ?_
    refine (h.assign _).bind fun iterable _ hiterable => .skip rfl fun _ _ hclosing => ?_
    refine (body_accounts h _).bind fun body rest hbody => .pure ?_
    exact hiterable.bind fun _ hs => hbody.bind fun _ hrest =>
      .ok (hmid.trans (hkind.trans (hname.trans (hruns.trans (hs.trans (hclosing.trans hrest))))))
  · have hrest (initial : Drafts) (rest : List Token) (hinitial : Accounts i _ initial rest) :
        At i rest (forRest rules start initial) (Accounts i ts) :=
      forRest_accounts h (hinitial.widen hmid.trans)
    refine .peekKind? ?_
    dsimp only
    split
    · exact (hvar _).bind hrest
    · exact (hvar _).bind hrest
    · exact (hvar _).bind hrest
    · exact (optionalUpTo_accounts h.assign _).bind hrest

theorem whileStatement_accounts : Parse.Accounting i (whileStatement rules) := by
  refine fun ts => .here fun start => .skip rfl fun _ _ hwhile => ?_
  refine (condition_accounts h _).bind fun test _ htest => ?_
  refine (body_accounts h _).bind fun body rest hbody => .pure ?_
  exact htest.bind fun _ hmid => hbody.bind fun _ hrest => .ok (hwhile.trans (hmid.trans hrest))

theorem doStatement_accounts : Parse.Accounting i (doStatement rules) := by
  refine fun ts => .here fun start => .skip rfl fun _ _ hdo => ?_
  refine (body_accounts h _).bind fun body _ hbody => .skip rfl fun _ _ hwhile => ?_
  refine (condition_accounts h _).bind fun test _ htest => .skip rfl fun _ rest hend => .pure ?_
  exact hbody.bind fun _ hs => htest.bind fun _ hs' =>
    .ok (hdo.trans (hs.trans (hwhile.trans (hs'.trans hend))))

theorem catchClause_accounts : Parse.Accounting i (catchClause rules) := by
  have hparam : Parse.Accounting i (do
      let name ← expect .name
      let _ ← expect .rightParen
      return .ok (Reader.name name)) := fun ts =>
    .skip rfl fun _ _ hname => .skip rfl fun _ _ hclosing => .pure (.ok (hname.trans hclosing))
  refine fun ts => .here fun start => .skip rfl fun _ _ hcatch => ?_
  refine (behind?_accounts rfl hparam _).bind fun param _ hparam => ?_
  refine (block_accounts h _).bind fun body rest hbody => .pure ?_
  exact hparam.bind fun _ hmid => hbody.bind fun _ hrest => .ok (hcatch.trans (hmid.trans hrest))

theorem tryStatement_accounts : Parse.Accounting i (tryStatement rules) := by
  refine fun ts => .here fun start => .skip rfl fun _ _ htry => ?_
  refine (block_accounts h _).bind fun block mid hblock => .atKind fun isCaught _ => ?_
  have hdone (handler : Drafts) (mid' : List Token) (hhandler : Accounts i mid handler mid') :
      At i mid' (do
        let finalizer ← behind? .finallyWord (Grammar.block rules)
        return do
          let handler ← handler
          let finalizer ← finalizer
          return .tryStmt (.ofLoc start) (← block) handler finalizer : Parse Draft)
        (Accounts i ts) := by
    refine (behind?_accounts rfl (block_accounts h) _).bind fun finalizer _ hfinalizer => .pure ?_
    exact hhandler.bind fun _ hs => hfinalizer.bind fun _ hs' => hblock.bind fun _ hs'' =>
      .ok (htry.trans (hs''.trans (hs.trans hs')))
  dsimp only
  split
  · exact (single_accounts (catchClause_accounts h) mid).bind hdone
  · exact hdone _ _ (.ok (.refl i mid))

/-! ## Statements -/

omit h in
theorem terminated_accounts {statement : Parse Draft} {ts : List Token}
    (hstatement : At i ts statement (Accounts i ts)) :
    At i ts (terminated statement) (Accounts i ts) :=
  hstatement.bind fun _ _ hd => .skip rfl fun _ _ hend => .pure (hd.widen (·.trans hend))

theorem expressionStatement_accounts :
    Parse.Accounting i (expressionStatement i.reader rules) := fun ts =>
  .here fun _ => (assign_accounts h ts).bind fun _ _ hd => .pure (hd.map id)

theorem statement_accounts (ts : List Token) :
    At i ts (statement i.reader rules) (Accounts.line i ts) := by
  refine .peek ?_
  rintro t rest rfl
  have hplain {rule : Parse Draft} (hrule : At i (t :: rest) rule (Accounts i (t :: rest))) :
      At i (t :: rest) (do return (⟨← rule, false⟩ : Line)) (Accounts.line i (t :: rest)) :=
    hrule.bind fun _ _ hd => .pure ⟨hd, nofun⟩
  have hvar := hplain (terminated_accounts (varDeclaration_accounts h _))
  have hexpression := hplain (terminated_accounts (expressionStatement_accounts h _))
  dsimp only
  split
  · exact hplain (importDeclaration_accounts _)
  · exact hplain (exportDeclaration_accounts h _)
  · exact hplain (functionDeclaration_accounts h _)
  · refine .peekSecond? fun k => ?_
    split
    · exact hplain (functionDeclaration_accounts h _)
    · exact hexpression
  · exact hplain (classDeclaration_accounts h _)
  · exact hplain (ifStatement_accounts h _)
  · exact hplain (forStatement_accounts h _)
  · exact hplain (whileStatement_accounts h _)
  · exact hplain (doStatement_accounts h _)
  · exact hplain (tryStatement_accounts h _)
  · exact hplain (block_accounts h _)
  · exact hvar
  · exact hvar
  · exact hvar
  · rename_i hk
    refine hplain (terminated_accounts (.pass (congrArg some hk) rfl fun _ mid hword => ?_))
    exact (optionalUpTo_accounts h.assign mid).bind fun _ _ hvalue =>
      .pure (hvalue.map hword.trans)
  · rename_i hk
    refine hplain (terminated_accounts (.pass (congrArg some hk) rfl fun _ mid hword => ?_))
    exact (h.assign mid).bind fun _ _ hvalue => .pure (hvalue.map hword.trans)
  · rename_i hk
    exact hplain (terminated_accounts (.pass (congrArg some hk) rfl fun _ _ hword =>
      .pure (.ok hword)))
  · rename_i hk
    exact hplain (terminated_accounts (.pass (congrArg some hk) rfl fun _ _ hword =>
      .pure (.ok hword)))
  · rename_i hk
    exact .pass (congrArg some hk) rfl fun _ _ hend => .pure ⟨.ok hend, fun _ => hend⟩
  · exact hexpression

theorem statements_accounts : Parse.Accounting i (statements rules) := by
  intro ts
  refine (At.loop (I := fun ls => Series i (Accounts.line i) ts ls.reverse)
    (fun ls mid hls => .peekKind? ?_) .nil).bind fun ls rest hls => .pure (Accounts.lines hls)
  split
  · exact .pure hls
  · refine (h.statement mid).bind fun l rest hl => .pure ?_
    simpa using hls.snoc (.refl i mid) hl

end Rules

/-- Whatever the depth, the rules account for the tokens that they consume. -/
theorem rulesTo_accounting (i : Input) (depth : Nat) : (rulesTo i.reader depth).Accounting i := by
  induction depth with
  | zero => exact ⟨fun _ => .fail, fun _ => .fail, fun _ => .fail, fun _ => .fail⟩
  | succ depth ih =>
    exact ⟨assign_accounts ih, unary_accounts ih, postfixed_accounts ih, statement_accounts ih⟩

end Grammar

end InlineTemplates
