import InlineTemplates.Proofs.Accounts

/-!
# What the drafts of expressions account for

The rules in the order of the grammar. Each accounts for its tokens if the rules below it do.
-/

namespace InlineTemplates

open Parse

/-- What the rule reads accounts for the tokens that it consumes. -/
abbrev Parse.Accounting (i : Input) {α : Type} (x : Parse (Except Error α)) : Prop :=
  ∀ ts, At i ts x (Accounts i ts)

structure Rules.Accounting (i : Input) (rules : Rules) : Prop where
  assign : Parse.Accounting i rules.assign
  unary : ∀ ts, At i ts rules.unary fun o => Accounts i ts o.draft
  postfixed : Parse.Accounting i rules.postfixed
  statement : ∀ ts, At i ts rules.statement (Accounts.line i ts)

namespace Grammar

variable {i : Input} {rules : Rules}

theorem behind?_accounts {k : Token.Kind} {item : Parse Draft} (hk : k.isLiteral = false)
    (hitem : Parse.Accounting i item) : Parse.Accounting i (behind? k item) := fun ts =>
  .accept? hk (.pure (.ok (.refl i ts))) fun _ mid hmid =>
    (hitem mid).bind fun _ _ hvalue => .pure (hvalue.map hmid.trans)

section Rules

variable (h : rules.Accounting i)

include h

/-! ## Functions -/

theorem param_accounts : Parse.Accounting i (param rules) := by
  refine fun ts => .here fun start => .accept? rfl ?_ fun _ mid hmid => ?_
  · refine .skip rfl fun name mid hname => (behind?_accounts rfl h.assign mid).bind
      fun value rest hvalue => .pure ?_
    exact hvalue.bind fun _ hrest => .ok (hname.trans hrest)
  · exact .skip rfl fun name rest hname => .pure (.ok (hmid.trans hname))

theorem params_accounts : Parse.Accounting i (params rules) := fun ts =>
  (commaList_series rfl (param_accounts h) ts).bind fun _ _ ⟨_, hitems, hrest⟩ =>
    .pure ((Accounts.drafts hitems).widen (·.trans hrest))

theorem block_accounts : Parse.Accounting i (block rules) := by
  refine fun ts => .skip rfl fun opening mid hopening => ?_
  refine (listUpTo_series h.statement mid).bind fun lines mid' hlines => ?_
  refine .skip rfl fun closing rest hclosing => .pure ?_
  exact (Accounts.lines hlines).bind fun _ hmid => .ok (hopening.trans (hmid.trans hclosing))

theorem paramsAndBlock_accounts : Parse.Accounting i (paramsAndBlock rules) := by
  refine fun ts => .skip rfl fun _ mid hopening => ?_
  refine (params_accounts h mid).bind fun ps mid' hps => ?_
  refine (block_accounts h mid').bind fun body rest hbody => .pure ?_
  exact hps.bind fun _ hmid => hbody.bind fun _ hrest => .ok (hopening.trans (hmid.trans hrest))

theorem functionExpression_accounts : Parse.Accounting i (functionExpression rules) := by
  refine fun ts => .here fun start => .skip? rfl fun word _ hword => ?_
  refine .skip rfl fun _ _ hfunction => .skip? rfl fun name mid hname => ?_
  refine (paramsAndBlock_accounts h mid).bind fun parts rest hparts => .pure ?_
  exact hparts.bind fun _ hrest => .ok (hword.trans (hfunction.trans (hname.trans hrest)))

theorem arrowParams_accounts : Parse.Accounting i (arrowParams rules) := by
  refine fun ts => .accept? rfl ?_ fun _ mid hmid => ?_
  · exact .skip rfl fun name rest hname => .pure (.ok hname)
  · exact (params_accounts h mid).mono fun _ _ hps => hps.widen hmid.trans

theorem arrowFunction_accounts : Parse.Accounting i (arrowFunction rules) := by
  refine fun ts => .here fun start => .skip? rfl fun word mid hword => ?_
  refine (arrowParams_accounts h mid).bind fun ps mid' hps => ?_
  refine .skip rfl fun _ mid'' harrow => .atKind fun isBlock _ => ?_
  have hdone (body : Draft) (rest : List Token) (hbody : Accounts i mid'' body rest) :
      At i rest (pure (do return .arrow (.ofLoc start) word.isSome (← ps) (← body)) : Parse Draft)
        (Accounts i ts) :=
    .pure (hps.bind fun _ hmid => hbody.bind fun _ hrest =>
      .ok (hword.trans (hmid.trans (harrow.trans hrest))))
  dsimp only
  split
  · exact (block_accounts h mid'').bind hdone
  · exact (h.assign mid'').bind hdone

/-! ## Members -/

theorem memberKey_accounts : Parse.Accounting i (memberKey i.reader rules) := by
  refine fun ts => .next ?_
  rintro t mid rfl ht
  split
  · rename_i hk
    exact .pure (.ok (.plain (by rw [hk]; rfl) mid))
  · rename_i hk
    exact .pure (.ok (.plain (by rw [hk]; rfl) mid))
  · rename_i hk
    exact .pure ((Accounts.string ht hk mid).bind fun _ hmid => .ok hmid)
  · rename_i hk
    exact .pure (.ok (.plain (by rw [hk]; rfl) mid))
  · rename_i hk
    refine (h.assign mid).bind fun key mid' hkey => .skip rfl fun _ rest hclosing => .pure ?_
    have hopening : Sound i (t :: mid) mid := .plain (by rw [hk]; rfl) mid
    exact hkey.bind fun _ hmid => .ok (hopening.trans (hmid.trans hclosing))
  · exact .failing ht

theorem memberKey_sound {t : Token} {ts : List Token} :
    At i (t :: ts) (memberKey i.reader rules) fun key rest =>
      Accounts i (t :: ts) key rest ∧ (t.kind = .name → Sound i (t :: ts) rest) := by
  by_cases hname : t.kind = .name
  · refine .next ?_
    rintro _ _ ⟨⟩ -
    simp only [hname]
    have hsound : Sound i (t :: ts) ts := .plain (by rw [hname]; rfl) ts
    exact .pure ⟨.ok hsound, fun _ => hsound⟩
  · exact (memberKey_accounts h _).mono fun _ _ hkey => ⟨hkey, fun hn => absurd hn hname⟩

omit h in
theorem methodWord?_sound (ts : List Token) :
    At i ts methodWord? fun _ rest => Sound i ts rest := by
  refine .peekKind? ?_
  split
  · rename_i hk
    exact .pass hk rfl fun _ _ hword => .pure hword
  · rename_i hk
    exact .pass hk rfl fun _ _ hword => .pure hword
  · rename_i hk
    exact .pass hk rfl fun _ _ hword => .pure hword
  · exact .pure (.refl i ts)

theorem objectMember_accounts : Parse.Accounting i (objectMember i.reader rules) := by
  refine fun ts => .here fun start => .accept? rfl ?_ fun _ mid hdots => ?_
  · refine (methodWord?_sound ts).bind fun word mid hword => ?_
    split
    · refine (memberKey_accounts h mid).bind fun key mid' hkey => ?_
      refine (paramsAndBlock_accounts h mid').bind fun parts rest hparts => .pure ?_
      exact hkey.bind fun _ hmid => hparts.bind fun _ hrest => .ok (hword.trans (hmid.trans hrest))
    · refine .peek ?_
      rintro first mid rfl
      refine (memberKey_sound h).bind fun key mid' ⟨hkey, hname⟩ => .peekKind? ?_
      split
      · rename_i hk
        refine .pass hk rfl fun _ mid'' hcolon => (h.assign mid'').bind fun value rest hvalue => ?_
        exact .pure (hkey.bind fun _ hmid => hvalue.bind fun _ hrest =>
          .ok (hword.trans (hmid.trans (hcolon.trans hrest))))
      · refine (paramsAndBlock_accounts h mid').bind fun parts rest hparts => .pure ?_
        exact hkey.bind fun _ hmid => hparts.bind fun _ hrest =>
          .ok (hword.trans (hmid.trans hrest))
      · split
        · rename_i hfirst
          exact .pure (.ok (hword.trans (hname hfirst)))
        · exact .fail
  · exact (h.assign mid).bind fun value rest hvalue =>
      .pure (hvalue.bind fun _ hrest => .ok (hdots.trans hrest))

theorem classMember_accounts : Parse.Accounting i (classMember i.reader rules) := by
  refine fun ts => .here fun start => .skip? rfl fun static mid hstatic => ?_
  refine (methodWord?_sound mid).bind fun word mid' hword => ?_
  refine (memberKey_accounts h mid').bind fun key mid'' hkey => .atKind fun isMethod _ => ?_
  split
  · refine (paramsAndBlock_accounts h mid'').bind fun parts rest hparts => .pure ?_
    exact hkey.bind fun _ hmid => hparts.bind fun _ hrest =>
      .ok (hstatic.trans (hword.trans (hmid.trans hrest)))
  · refine (behind?_accounts rfl h.assign mid'').bind fun value rest hvalue => ?_
    refine .skip rfl fun _ rest' hend => .pure ?_
    exact hkey.bind fun _ hmid => hvalue.bind fun _ hrest =>
      .ok (hstatic.trans (hword.trans (hmid.trans (hrest.trans hend))))

theorem classBody_accounts : Parse.Accounting i (classBody i.reader rules) := by
  refine fun ts => .skip rfl fun opening mid hopening => ?_
  refine (listUpTo_series (S := Accounts.member i) (fun ts => ?_) mid).bind fun ms mid' hms => ?_
  · exact .accept? rfl ((classMember_accounts h ts).bind fun _ _ hd => .pure hd)
      fun _ _ hend => .pure hend
  refine .skip rfl fun closing rest hclosing => .pure ?_
  exact (Accounts.members hms).bind fun _ hmid => .ok (hopening.trans (hmid.trans hclosing))

theorem classTail_accounts : Parse.Accounting i (classTail i.reader rules) := by
  refine fun ts => (behind?_accounts rfl h.postfixed ts).bind fun superclass mid hsuper => ?_
  refine (classBody_accounts h mid).bind fun body rest hbody => .pure ?_
  exact hsuper.bind fun _ hmid => hbody.bind fun _ hrest => .ok (hmid.trans hrest)

theorem classExpression_accounts : Parse.Accounting i (classExpression i.reader rules) := by
  refine fun ts => .here fun start => .skip rfl fun _ _ hclass => ?_
  refine .skip? rfl fun name mid hname => ?_
  refine (classTail_accounts h mid).bind fun parts rest hparts => .pure ?_
  exact hparts.bind fun _ hrest => .ok (hclass.trans (hname.trans hrest))

/-! ## Primaries -/

theorem element_accounts : Parse.Accounting i (element rules) := by
  refine fun ts => .here fun start => .accept? rfl (h.assign ts) fun _ mid hdots => ?_
  exact (h.assign mid).bind fun value rest hvalue =>
    .pure (hvalue.bind fun _ hrest => .ok (hdots.trans hrest))

theorem arguments_accounts : Parse.Accounting i (arguments rules) := by
  refine fun ts => .skip rfl fun _ mid hopening => ?_
  refine (commaList_series rfl (element_accounts h) mid).bind fun items rest ⟨_, hitems, hend⟩ => ?_
  exact .pure ((Accounts.drafts hitems).widen fun hmid => hopening.trans (hmid.trans hend))

omit h in
theorem memberName_sound (ts : List Token) : At i ts memberName fun _ rest => Sound i ts rest :=
  .accept? rfl (.skip rfl fun _ _ hname => .pure hname) fun _ _ hname => .pure hname

theorem primary_accounts : Parse.Accounting i (primary i.reader rules) := by
  intro ts
  refine .peek ?_
  rintro t mid rfl
  dsimp only
  split
  · rename_i hk
    exact .pass (congrArg some hk) rfl fun _ _ hname => .pure (.ok hname)
  · rename_i hk
    refine .next ?_
    rintro _ _ ⟨⟩ ht
    exact .pure (.string ht hk mid)
  · rename_i hk
    exact .pass (congrArg some hk) rfl fun _ _ hnumber => .pure (.ok hnumber)
  · rename_i hk
    exact .pass (congrArg some hk) rfl fun _ _ hword => .pure (.ok hword)
  · rename_i hk
    exact .pass (congrArg some hk) rfl fun _ _ hword => .pure (.ok hword)
  · rename_i hk
    exact .pass (congrArg some hk) rfl fun _ _ hword => .pure (.ok hword)
  · rename_i hk
    refine .next ?_
    rintro _ _ ⟨⟩ ht
    exact .pure (.template ht hk mid)
  · rename_i hk
    refine .pass (congrArg some hk) rfl fun _ mid hopening => ?_
    refine (commaList_series rfl (element_accounts h) mid).bind
      fun items rest ⟨_, hitems, hend⟩ => .pure ?_
    exact (Accounts.drafts hitems).bind fun _ hmid => .ok (hopening.trans (hmid.trans hend))
  · rename_i hk
    refine .pass (congrArg some hk) rfl fun _ mid hopening => ?_
    refine (commaList_series rfl (objectMember_accounts h) mid).bind
      fun items rest ⟨_, hitems, hend⟩ => .pure ?_
    exact (Accounts.drafts hitems).bind fun _ hmid => .ok (hopening.trans (hmid.trans hend))
  · exact functionExpression_accounts h _
  · exact functionExpression_accounts h _
  · exact classExpression_accounts h _
  · rename_i hk
    refine .pass (congrArg some hk) rfl fun _ mid hopening => ?_
    refine (h.assign mid).bind fun value mid' hvalue => .skip rfl fun _ rest hclosing => .pure ?_
    exact hvalue.widen fun hmid => hopening.trans (hmid.trans hclosing)
  · exact .fail

/-! ## Accesses and calls -/

section Steps

variable {ts mid mid' : List Token} {value : Draft} {head : Head} {optional : Bool}
  (hvalue : Accounts i ts value mid) (hsign : Sound i mid mid')

include hvalue hsign

theorem index_accounts : At i mid' (do
    let index ← rules.assign
    let _ ← expect .rightBracket
    return some do return .index head optional (← value) (← index) : Parse (Option Draft))
      fun o rest => Accounts i ts (o.getD value) rest := by
  refine (h.assign mid').bind fun index _ hindex => .skip rfl fun _ rest hclosing => .pure ?_
  exact hvalue.bind fun _ hmid => hindex.bind fun _ hrest =>
    .ok (hmid.trans (hsign.trans (hrest.trans hclosing)))

theorem call_accounts : At i mid' (do
    let args ← arguments rules
    return some do return .call head optional (← value) (← args) : Parse (Option Draft))
      fun o rest => Accounts i ts (o.getD value) rest := by
  refine (arguments_accounts h mid').bind fun args rest hargs => .pure ?_
  exact hvalue.bind fun _ hmid => hargs.bind fun _ hrest =>
    .ok (hmid.trans (hsign.trans hrest))

omit h in
theorem attr_accounts : At i mid' (do
    let property ← memberName
    return some (value.map (.attr head property optional ·)) : Parse (Option Draft))
      fun o rest => Accounts i ts (o.getD value) rest :=
  (memberName_sound mid').bind fun _ _ hname =>
    .pure (hvalue.map fun hmid => hmid.trans (hsign.trans hname))

end Steps

theorem postfixStep_accounts {ts mid : List Token} {start : Location} {value : Draft}
    (hvalue : Accounts i ts value mid) : At i mid (postfixStep i.reader rules start value)
      fun o rest => Accounts i ts (o.getD value) rest := by
  refine .peekKind? ?_
  split
  · rename_i hk
    exact .pass hk rfl fun _ _ hdot => attr_accounts hvalue hdot
  · rename_i hk
    exact .pass hk rfl fun _ _ hopening => index_accounts h hvalue hopening
  · exact call_accounts h hvalue (.refl i mid)
  · rename_i hk
    refine .next ?_
    rintro t rest rfl ht
    refine .pure (hvalue.bind fun _ hmid => ?_)
    exact (Accounts.template ht (Option.some.inj hk) rest).bind fun _ hrest =>
      .ok (hmid.trans hrest)
  · rename_i hk
    refine .pass hk rfl fun _ mid' hsign => .peekKind? ?_
    split
    · rename_i hk
      exact .pass hk rfl fun _ _ hopening => index_accounts h hvalue (hsign.trans hopening)
    · exact call_accounts h hvalue hsign
    · exact attr_accounts hvalue hsign
  · exact .pure hvalue

theorem newExpression_accounts : Parse.Accounting i (newExpression i.reader rules) := by
  refine fun ts => .here fun start => .skip rfl fun _ mid hnew => .here fun calleeStart => ?_
  refine (primary_accounts h mid).bind fun callee mid' hcallee => ?_
  refine (At.loop (I := fun (value : Draft) rest => Accounts i mid value rest)
    (fun value rest hvalue => ?_) hcallee).bind fun callee mid' hcallee => ?_
  · exact .accept? rfl (.pure hvalue) fun _ _ hdot => attr_accounts hvalue hdot
  have hdone (args : Drafts) (rest : List Token) (hargs : Accounts i mid' args rest) :
      At i rest (pure (do let args ← args; return .new (.ofLoc start) (← callee) args) :
        Parse Draft) (Accounts i ts) :=
    .pure (hargs.bind fun _ hrest => hcallee.bind fun _ hmid =>
      .ok (hnew.trans (hmid.trans hrest)))
  refine .atKind fun isCall _ => ?_
  dsimp only
  split
  · exact (arguments_accounts h mid').bind hdone
  · exact hdone _ _ (.ok (.refl i mid'))

theorem postfixed_accounts : Parse.Accounting i (postfixed i.reader rules) := by
  refine fun ts => .here fun start => .atKind fun isNew _ => ?_
  have hdone (base : Draft) (mid : List Token) (hbase : Accounts i ts base mid) :
      At i mid (loop (postfixStep i.reader rules start) base) (Accounts i ts) :=
    .loop (fun _ _ hvalue => postfixStep_accounts h hvalue) hbase
  dsimp only
  split
  · exact (newExpression_accounts h ts).bind hdone
  · exact (primary_accounts h ts).bind hdone

/-! ## Operators -/

theorem unary_accounts (ts : List Token) :
    At i ts (unary i.reader rules) fun o => Accounts i ts o.draft := by
  refine .peek ?_
  rintro t mid rfl
  dsimp only
  split
  · rename_i hop
    have hop : (some t.kind).bind UnaryOp.ofKind? = some _ := hop
    exact .operator hop rfl rfl fun _ mid hsign => (h.unary mid).bind fun _ _ hoperand =>
      .pure (hoperand.map hsign.trans)
  · rename_i hop
    have hop : (some t.kind).bind UpdateOp.ofKind? = some _ := hop
    exact .operator hop rfl rfl fun _ mid hsign => (h.unary mid).bind fun _ _ hoperand =>
      .pure (hoperand.map hsign.trans)
  · refine (postfixed_accounts h _).bind fun operand mid hoperand => .peekKind? ?_
    split
    · rename_i hop
      exact .operator hop rfl rfl fun _ _ hsign => .pure (hoperand.map (·.trans hsign))
    · exact .pure hoperand

omit h in
theorem binaryLevel_accounts {operand : Parse Operand} (precedence : Nat)
    (hoperand : ∀ ts, At i ts operand fun o => Accounts i ts o.draft) (ts : List Token) :
    At i ts (binaryLevel precedence operand) fun o => Accounts i ts o.draft := by
  refine .here fun start => (hoperand ts).bind fun first mid hfirst => ?_
  refine .loop (I := fun (o : Operand) rest => Accounts i ts o.draft rest)
    (fun left mid hleft => .peekKind? ?_) hfirst
  split
  · exact .pure hleft
  rename_i hop
  split
  · refine .operator hop rfl rfl fun _ mid' hsign => ?_
    refine (hoperand mid').bind fun right rest hright => .pure ?_
    exact Accounts.bind hleft fun _ hmid => hright.bind fun _ hrest =>
      .ok (hmid.trans (hsign.trans hrest))
  · exact .pure hleft

theorem binary_accounts (ts : List Token) :
    At i ts (binary i.reader rules) fun o => Accounts i ts o.draft := by
  have hlevels (levels : List Nat) : ∀ operand : Parse Operand,
      (∀ ts, At i ts operand fun o => Accounts i ts o.draft) →
      ∀ ts, At i ts (levels.foldl (fun operand level => binaryLevel level operand) operand)
        fun o => Accounts i ts o.draft := by
    induction levels with
    | nil => exact fun _ hoperand => hoperand
    | cons level levels ih => exact fun _ hoperand => ih _ (binaryLevel_accounts level hoperand)
  exact hlevels _ _ (unary_accounts h) ts

omit h in
theorem startsArrow_keeps (ts : List Token) : At i ts startsArrow fun _ rest => rest = ts := by
  refine .peekKind? (.peekSecond? fun second => ?_)
  split <;> exact .pure rfl

theorem assign_accounts : Parse.Accounting i (assign i.reader rules) := by
  intro ts
  refine (startsArrow_keeps ts).bind ?_
  rintro isArrow _ rfl
  split
  · exact arrowFunction_accounts h _
  refine .here fun start => (binary_accounts h _).bind fun left mid hleft => .peekKind? ?_
  split
  · rename_i hop
    refine .operator hop rfl rfl fun _ mid' hsign => ?_
    refine (h.assign mid').bind fun value rest hvalue => ?_
    exact .pure (hleft.bind fun _ hmid => hvalue.bind fun _ hrest =>
      .ok (hmid.trans (hsign.trans hrest)))
  · refine .accept? rfl (.pure hleft) fun _ mid' hquestion => ?_
    refine (h.assign mid').bind fun thenValue mid'' hthen => .skip rfl fun _ _ hcolon => ?_
    refine (h.assign _).bind fun elseValue rest helse => .pure ?_
    exact hleft.bind fun _ hmid => hthen.bind fun _ hmid' => helse.bind fun _ hrest =>
      .ok (hmid.trans (hquestion.trans (hmid'.trans (hcolon.trans hrest))))

end Rules

end Grammar

end InlineTemplates
