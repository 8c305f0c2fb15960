import InlineTemplates.Proofs.OperatorPrinting

/-!
# How far a construction reaches

`new` takes the names behind its callee and the first arguments behind them. What stands behind the
arguments applies to the constructed value. So does what stands behind an access that is computed or
optional, since the callee goes on with names only.
-/

namespace InlineTemplates

open Grammar

/-- An access or a call behind a value. -/
inductive Suffix where
  | name (optional : Bool) (property : Text)
  | index (optional : Bool) (i : Node)
  | call (optional : Bool) (args : List Node)

namespace Suffix

def on (head : Head) (value : Node) : Suffix → Node
  | name optional property => .attr head property optional value
  | index optional i => .index head optional value i
  | call optional args => .call head optional value args

def text (level : Nat) : Suffix → Text
  | name optional property => Print.chain optional "." ++ property
  | index optional i => Print.chain optional [] ++ ("[" ++ i.expressionText level 0 ++ "]")
  | call optional args => Print.chain optional [] ++
    Print.parenthesized (Print.commas (args.map (·.expressionText level Precedence.assign)))

/-- Inside there are only trees of operators. -/
def IsOperators : Suffix → Prop
  | name _ property => property.IsProperty
  | index _ i => i.IsOperatorTree
  | call _ args => ∀ a ∈ args, a.elementValue.IsOperatorTree

def unplaced : Suffix → Suffix
  | name optional property => name optional property
  | index optional i => index optional i.unplaced
  | call optional args => call optional (args.map Node.unplaced)

theorem on_unplaced {head head' : Head} {value value' : Node} {s s' : Suffix}
    (hhead : head.comments = head'.comments) (hvalue : value.unplaced = value'.unplaced)
    (hs : s.unplaced = s'.unplaced) :
    (s.on head value).unplaced = (s'.on head' value').unplaced := by
  cases s <;> cases s' <;> simp only [unplaced, reduceCtorEq, name.injEq, index.injEq, call.injEq,
    ← Node.unplacedOfList_eq_map] at hs
  all_goals simp [on, hhead, hvalue, hs]

end Suffix

namespace Node

def suffixed (head : Head) (value : Node) (ss : List Suffix) : Node :=
  ss.foldl (Suffix.on head) value

/-- The construction that starts with the callee and has the accesses and calls behind it. -/
def constructed (head calleeHead : Head) (callee : Node) : List Suffix → Node
  | [] => .new head callee []
  | .name false x :: ss => constructed head calleeHead (.attr calleeHead x false callee) ss
  | .call false args :: ss => suffixed head (.new head callee args) ss
  | s :: ss => suffixed head (.new head callee []) (s :: ss)

theorem constructed_names (head calleeHead : Head) (callee : Node) (properties : List Text)
    (args : List Node) (ss : List Suffix) :
    let names := properties.map (Suffix.name false)
    constructed head calleeHead callee (names ++ .call false args :: ss) =
      suffixed head (.new head (suffixed calleeHead callee names) args) ss := by
  induction properties generalizing callee with
  | nil => rfl
  | cons property properties ih => exact ih _

theorem suffixed_unplaced {head head' : Head} {value value' : Node} {ss ss' : List Suffix}
    (hhead : head.comments = head'.comments) (hvalue : value.unplaced = value'.unplaced)
    (hss : ss.map Suffix.unplaced = ss'.map Suffix.unplaced) :
    (suffixed head value ss).unplaced = (suffixed head' value' ss').unplaced := by
  induction ss generalizing ss' value value' with
  | nil =>
    obtain rfl := List.map_eq_nil_iff.1 hss.symm
    exact hvalue
  | cons s ss ih =>
    obtain ⟨s', ss', rfl, hs, hss⟩ := List.map_eq_cons_iff.1 hss.symm
    rw [suffixed, suffixed, List.foldl_cons, List.foldl_cons]
    exact ih (Suffix.on_unplaced hhead hvalue hs.symm) hss.symm

theorem constructed_unplaced {head head' calleeHead calleeHead' : Head} {callee callee' : Node}
    {ss ss' : List Suffix} (hhead : head.comments = head'.comments)
    (hcalleeHead : calleeHead.comments = calleeHead'.comments)
    (hcallee : callee.unplaced = callee'.unplaced)
    (hss : ss.map Suffix.unplaced = ss'.map Suffix.unplaced) :
    (constructed head calleeHead callee ss).unplaced =
      (constructed head' calleeHead' callee' ss').unplaced := by
  induction ss generalizing ss' callee callee' with
  | nil =>
    obtain rfl := List.map_eq_nil_iff.1 hss.symm
    simp [constructed, hhead, hcallee]
  | cons s ss ih =>
    obtain ⟨s', ss', rfl, hs, hrest⟩ := List.map_eq_cons_iff.1 hss.symm
    have hbare : (Node.new head callee []).unplaced = (Node.new head' callee' []).unplaced := by
      simp [hhead, hcallee]
    cases s with
    | name optional x =>
      cases s' with
      | index | call => simp [Suffix.unplaced] at hs
      | name optional' x' =>
        obtain ⟨rfl, rfl⟩ : optional' = optional ∧ x' = x := by simpa [Suffix.unplaced] using hs
        cases optional' with
        | false =>
          rw [constructed, constructed]
          exact ih (by simp [hcalleeHead, hcallee]) hrest.symm
        | true => exact suffixed_unplaced hhead hbare hss
    | index optional i =>
      cases s' with
      | name | call => simp [Suffix.unplaced] at hs
      | index => exact suffixed_unplaced hhead hbare hss
    | call optional args =>
      cases s' with
      | name | index => simp [Suffix.unplaced] at hs
      | call optional' args' =>
        obtain ⟨rfl, hargs⟩ : optional' = optional ∧ args'.map unplaced = args.map unplaced := by
          simpa [Suffix.unplaced] using hs
        cases optional' with
        | false =>
          refine suffixed_unplaced hhead ?_ hrest.symm
          simp [hhead, hcallee, unplacedOfList_eq_map, hargs]
        | true => exact suffixed_unplaced hhead hbare hss

/-- A computed access ends the callee: it applies to the constructed value, and so do the
arguments. -/
example (head calleeHead : Head) (callee i : Node) (args : List Node) :
    constructed head calleeHead callee [.index false i, .call false args] =
      .call head false (.index head false (.new head callee []) i) args := rfl

end Node

namespace Grammar

open Parse
open Node (suffixed constructed)

/-! ## Accesses and calls -/

/-- The tokens are the accesses and calls; `P` says what makes the parts inside them. -/
inductive Suffixes (P : Phrase → List Token → Prop) : List Suffix → List Token → Prop
  | nil : Suffixes P [] []
  | name {optional : Bool} {d q : Token} {ss : List Suffix} {ts : List Token}
    (hd : d.kind = if optional then .optionalChain else .dot)
    (hq : q.kind = .name ∨ q.kind = .privateName) (h : Suffixes P ss ts) :
    Suffixes P (.name optional q.text :: ss) (d :: q :: ts)
  | index {optional : Bool} {i : Node} {ds us ts : List Token} {o c : Token} {ss : List Suffix}
    (hds : ChainSign optional ds) (ho : o.kind = .leftBracket) (hi : P (.assign i) us)
    (hc : c.kind = .rightBracket) (h : Suffixes P ss ts) :
    Suffixes P (.index optional i :: ss) (ds ++ o :: (us ++ c :: ts))
  | call {optional : Bool} {args : List Node} {ds us ts : List Token} {o c : Token}
    {ss : List Suffix} (hds : ChainSign optional ds) (ho : o.kind = .leftParen)
    (hargs : P (.items args) us) (hc : c.kind = .rightParen) (h : Suffixes P ss ts) :
    Suffixes P (.call optional args :: ss) (ds ++ o :: (us ++ c :: ts))

variable {r : Reader} {rules : Rules} {e : Node} {ss : List Suffix} {n t d q : Token}
  {ts us rest : List Token}

theorem Suffixes.imp {P Q : Phrase → List Token → Prop} (h : Suffixes P ss ts)
    (himp : ∀ phrase us, us.length ≤ ts.length → P phrase us → Q phrase us) :
    Suffixes Q ss ts := by
  induction h with
  | nil => exact .nil
  | name hd hq _ ih =>
    refine .name hd hq (ih fun phrase us hus => himp phrase us ?_)
    simp only [List.length_cons]
    omega
  | index hds ho hi hc _ ih =>
    refine .index hds ho (himp _ _ ?_ hi) hc (ih fun phrase us hus => himp phrase us ?_) <;>
      simp only [List.length_append, List.length_cons] <;> omega
  | call hds ho hargs hc _ ih =>
    refine .call hds ho (himp _ _ ?_ hargs) hc (ih fun phrase us hus => himp phrase us ?_) <;>
      simp only [List.length_append, List.length_cons] <;> omega

/-- The tokens are the accesses and calls, as the rules read them. -/
def SuffixesRead (r : Reader) (rules : Rules) : List Suffix → List Token → Prop :=
  Suffixes fun phrase ts => phrase.IsRead r rules ts

theorem runs_suffixes (h : SuffixesRead r rules ss ts) (hrest : EndsBelow 13 rest)
    (start : Location) (e : Node) :
    Runs (postfixStep r (above r rules) start) (.ok e) (ts ++ rest)
      (.ok (suffixed (.ofLoc start) e ss), rest) := by
  induction h generalizing e with
  | nil => exact .stop (postfixStep_none hrest start _)
  | name hd hq _ ih =>
    rw [List.cons_append, List.cons_append]
    refine .step (postfixStep_attr hd hq start _) ?_ (ih _)
    simp only [List.length_append, List.length_cons]
    omega
  | index hds ho hi hc _ ih =>
    rw [List.append_assoc, List.cons_append, List.append_assoc, List.cons_append]
    refine .step (postfixStep_index hds ho hi hc start _) ?_ (ih _)
    simp only [List.length_append, List.length_cons]
    omega
  | call hds ho hargs hc _ ih =>
    rw [List.append_assoc, List.cons_append, List.append_assoc, List.cons_append]
    refine .step (postfixStep_call hds ho hargs hc start _) ?_ (ih _)
    simp only [List.length_append, List.length_cons]
    omega

/-! ## The callee and its arguments -/

def calleeStep (start : Location) (value : Draft) : Parse (Option Draft) := do
  match ← accept? .dot with
  | none => return none
  | some _ =>
    let property ← memberName
    return some (value.map (.attr (.ofLoc start) property false ·))

def newArguments (rules : Rules) : Parse Drafts := do
  if ← atKind .leftParen then arguments rules else pure (.ok [])

theorem newExpression_eq : newExpression r rules = (do
    let start ← here
    let _ ← expect .newWord
    let calleeStart ← here
    let callee ← primary r rules
    let callee ← loop (calleeStep calleeStart) callee
    let args ← if ← atKind .leftParen then arguments rules else pure (.ok [])
    return do
      let args ← args
      return .new (.ofLoc start) (← callee) args) := rfl

theorem calleeStep_none (h : ts.head?.map Token.kind ≠ some .dot) (start : Location)
    (value : Draft) : calleeStep start value ts = .ok (none, ts) := by
  rw [calleeStep, run_accept?_none h]
  rfl

theorem calleeStep_name (hd : d.kind = .dot) (hq : q.kind = .name ∨ q.kind = .privateName)
    (start : Location) (e : Node) (rest : List Token) :
    calleeStep start (.ok e) (d :: q :: rest) =
      .ok (some (.ok (.attr (.ofLoc start) q.text false e)), rest) := by
  rw [calleeStep, run_accept? hd]
  simp only [run_bind (memberName_eq hq rest)]
  rfl

theorem newArguments_none (h : ts.head?.map Token.kind ≠ some .leftParen) :
    newArguments rules ts = .ok (.ok [], ts) := by
  rw [newArguments, run_atKind, if_neg (by simpa using h)]
  rfl

theorem chainSign_head {optional : Bool} {ds : List Token} {o : Token} (hds : ChainSign optional ds)
    (hne : optional = true ∨ o.kind ≠ .leftParen) (ho : o.kind ≠ .dot) (us : List Token) :
    (ds ++ o :: us).head?.map Token.kind ≠ some .dot ∧
      (ds ++ o :: us).head?.map Token.kind ≠ some .leftParen := by
  cases optional with
  | false =>
    obtain rfl := List.map_eq_nil_iff.1 hds
    simpa using ⟨ho, hne.resolve_left Bool.false_ne_true⟩
  | true =>
    obtain ⟨d, rfl, hd⟩ := List.map_eq_singleton_iff.1 hds
    simp [hd]

/-- How a construction is read: its callee, its arguments, and what stands behind them. -/
structure Divides (r : Reader) (rules : Rules) (head : Head) (start : Location) (callee : Node)
    (ss : List Suffix) (ts : List Token) (rest : List Token) (full : Node) (args : List Node)
    (middle : List Token) (others : List Suffix) (behind : List Token) : Prop where
  callee_runs : Runs (calleeStep start) (.ok callee) (ts ++ rest) (.ok full, middle)
  arguments_read : newArguments (above r rules) middle = .ok (.ok args, behind ++ rest)
  others_read : SuffixesRead r rules others behind
  eq : constructed head (.ofLoc start) callee ss = suffixed head (.new head full args) others

theorem divides_none {head : Head} {start : Location} {callee : Node}
    (h : SuffixesRead r rules ss ts)
    (hhead : (ts ++ rest).head?.map Token.kind ≠ some .dot ∧
      (ts ++ rest).head?.map Token.kind ≠ some .leftParen)
    (heq : constructed head (.ofLoc start) callee ss = suffixed head (.new head callee []) ss) :
    Divides r rules head start callee ss ts rest callee [] (ts ++ rest) ss ts :=
  ⟨.stop (calleeStep_none hhead.1 start _), newArguments_none hhead.2, h, heq⟩

theorem exists_divides (h : SuffixesRead r rules ss ts) (hrest : EndsBelow 13 rest) (head : Head)
    (start : Location) (callee : Node) :
    ∃ full args middle others behind,
      Divides r rules head start callee ss ts rest full args middle others behind := by
  induction h generalizing callee with
  | nil =>
    exact ⟨callee, [], rest, [], [], divides_none .nil
      ⟨hrest.head_ne (by decide), hrest.head_ne (by decide)⟩ rfl⟩
  | @name optional d q ss ts hd hq h ih =>
    cases optional with
    | false =>
      obtain ⟨full, args, middle, others, behind, hruns, hargs, hothers, heq⟩ :=
        ih (.attr (.ofLoc start) q.text false callee)
      refine ⟨full, args, middle, others, behind,
        .step (calleeStep_name hd hq start callee _) ?_ hruns, hargs, hothers, heq⟩
      change (ts ++ rest).length < (ts ++ rest).length + 1 + 1
      omega
    | true =>
      exact ⟨callee, [], _, _, _, divides_none (.name hd hq h) (by simp [hd]) rfl⟩
  | @index optional i ds us ts o c ss hds ho hi hc h ih =>
    refine ⟨callee, [], _, _, _, divides_none (.index hds ho hi hc h) ?_ rfl⟩
    rw [List.append_assoc]
    exact chainSign_head hds (.inr (by rw [ho]; decide)) (by rw [ho]; decide) _
  | @call optional args ds us ts o c ss hds ho hargs hc h ih =>
    cases optional with
    | false =>
      obtain rfl := List.map_eq_nil_iff.1 hds
      refine ⟨callee, args, _, ss, ts, .stop (calleeStep_none (by simp [ho]) start _), ?_, h, rfl⟩
      rw [List.nil_append, List.cons_append, List.append_assoc, List.cons_append, newArguments,
        run_atKind, if_pos (by simp [ho])]
      exact arguments_eq ho hargs hc _
    | true =>
      refine ⟨callee, [], _, _, _, divides_none (.call hds ho hargs hc h) ?_ rfl⟩
      rw [List.append_assoc]
      exact chainSign_head hds (.inl rfl) (by rw [ho]; decide) _

/-- A construction is read with the accesses and calls behind it. -/
theorem postfixed_construction (hn : n.kind = .newWord)
    (he : (Phrase.primary e).IsRead r (above r rules) (t :: ts)) (h : SuffixesRead r rules ss us)
    (rest : List Token) (hrest : EndsBelow 13 rest) :
    Grammar.postfixed r (above r rules) (n :: (t :: ts ++ us) ++ rest) =
      .ok (.ok (constructed (.ofLoc n.start) (.ofLoc t.start) e ss), rest) := by
  obtain ⟨full, args, middle, others, behind, hruns, hargs, hothers, heq⟩ :=
    exists_divides h hrest (.ofLoc n.start) t.start e
  have hnew : newExpression r (above r rules) (n :: (t :: ts ++ us) ++ rest) =
      .ok (.ok (.new (.ofLoc n.start) full args), behind ++ rest) := by
    have hprimary := he (us ++ rest)
    rw [newExpression_eq, List.cons_append, List.append_assoc, List.cons_append, run_here,
      run_expect hn, run_here]
    rw [← List.cons_append, run_bind hprimary, run_bind (loop_of_runs hruns), run_atKind]
    rw [newArguments, run_atKind] at hargs
    split at hargs <;> rename_i hparen
    · rw [if_pos hparen, run_bind hargs]
      rfl
    · rw [if_neg hparen, run_bind hargs]
      rfl
  rw [Grammar.postfixed, List.cons_append, run_here, run_atKind, if_pos (by simp [hn]),
    ← List.cons_append, run_bind hnew, heq]
  exact loop_of_runs (runs_suffixes hothers hrest n.start _)

theorem isRead_loosened {isTarget : Bool} {p q : Nat}
    (h : (Phrase.operand isTarget q e).IsRead r rules (t :: ts)) (hq : q ≤ 10) (hle : p ≤ q) :
    (Phrase.operand isTarget p e).IsRead r rules (t :: ts) := by
  induction q with
  | zero =>
    obtain rfl := Nat.le_zero.1 hle
    exact h
  | succ q ih =>
    rcases Nat.le_succ_iff.1 hle with hle | rfl
    · exact ih (isRead_looser (by omega) h) (by omega) hle
    · exact h

theorem isRead_construction (hn : n.kind = .newWord)
    (he : (Phrase.primary e).IsRead r (above r rules) (t :: ts))
    (h : SuffixesRead r rules ss us) :
    (Phrase.assign (constructed (.ofLoc n.start) (.ofLoc t.start) e ss)).IsRead r (above r rules)
      (n :: (t :: ts ++ us)) := by
  have hop : UnaryOp.ofKind? n.kind = none ∧ UpdateOp.ofKind? n.kind = none := by
    rw [hn]
    exact ⟨rfl, rfl⟩
  have hplain := isRead_plain hop (postfixed_construction hn he h)
  refine isRead_operators (fun rest _ => ?_) (isRead_loosened hplain (Nat.le_refl 10) (by decide))
  rw [startsArrow, run_peekKind?, List.cons_append, List.head?_cons, Option.map_some, hn]
  rfl

/-! ## Texts -/

/-- Tokens with the words make accesses and calls that are `ss` up to their places. -/
def MakesSuffixes (ss : List Suffix) (ws : List Word) : Prop :=
  ∀ ts : List Token, ts.map Token.word = ws →
    ∃ ss', ss'.map Suffix.unplaced = ss.map Suffix.unplaced ∧ Suffixes Derives ss' ts

end Grammar

namespace Suffix

open Lexeme (EndsName)
open Print (Shows ShowsElement)

theorem endsName_text (level : Nat) (s : Suffix) (rest : Text) :
    EndsName (s.text level ++ rest) := by
  cases s with
  | name optional property =>
    cases optional <;> exact (Lexeme.endsName_cons _ _).2 (by decide)
  | index optional i =>
    simp only [text, List.append_assoc]
    exact Shows.chain_endsName (o := ("[", .leftBracket)) optional (.inl rfl) _
  | call optional args =>
    simp only [text, Print.parenthesized, List.append_assoc]
    exact Shows.chain_endsName (o := ("(", .leftParen)) optional (.inr rfl) _

theorem endsName_texts (level : Nat) (ss : List Suffix) {rest : Text} (hrest : EndsName rest) :
    EndsName (ss.flatMap (text level) ++ rest) := by
  cases ss with
  | nil => exact hrest
  | cons s ss =>
    rw [List.flatMap_cons, List.append_assoc]
    exact endsName_text level s _

/-- Tokens with the words make one access or call that is `s` up to its places. -/
def Makes (s : Suffix) (ws : List Word) : Prop :=
  ∀ ts : List Token, ts.map Token.word = ws → ∃ s' : Suffix, s'.unplaced = s.unplaced ∧
    ∀ ss us, Suffixes Derives ss us → Suffixes Derives (s' :: ss) (ts ++ us)

theorem makes_name {optional : Bool} {d : Word} {k : Token.Kind} {x : Text}
    (hd : d.kind = if optional then .optionalChain else .dot) (hk : k = .name ∨ k = .privateName) :
    Makes (.name optional x) [d, ⟨k, x⟩] := by
  intro ts hts
  obtain ⟨a, us, rfl, ha, hus⟩ := List.map_eq_cons_iff.1 hts
  obtain ⟨b, rfl, hb⟩ := List.map_eq_singleton_iff.1 hus
  refine ⟨.name optional b.text, by simp [unplaced, text_of_word hb], fun ss us h => ?_⟩
  exact .name (by rw [kind_of_word ha, hd]) (by rw [kind_of_word hb]; exact hk) h

theorem enclosed_of_chain {optional : Bool} {o c : Word} {ws : List Word} {ts : List Token}
    (hts : ts.map Token.word = chainWords optional ++ (o :: ws ++ [c])) :
    ∃ (ds : List Token) (a : Token) (us : List Token) (b : Token), ts = ds ++ (a :: us ++ [b]) ∧
      ChainSign optional ds ∧ a.kind = o.kind ∧ us.map Token.word = ws ∧ b.kind = c.kind := by
  obtain ⟨ds, vs, rfl, hds, hvs⟩ := List.map_eq_append_iff.1 hts
  obtain ⟨a, us, b, rfl, ha, hus, hb⟩ := enclosed_of_words hvs
  refine ⟨ds, a, us, b, rfl, ?_, ha, hus, hb⟩
  cases optional with
  | false =>
    obtain rfl := List.map_eq_nil_iff.1 hds
    exact chainSign_none
  | true =>
    obtain ⟨d, rfl, hd⟩ := List.map_eq_singleton_iff.1 hds
    exact chainSign_some (kind_of_word hd)

theorem makes_index {optional : Bool} {i : Node} {p : Nat} {ws : List Word}
    (hi : Grammar.Makes (AsLeast p) i ws) :
    Makes (.index optional i)
      (chainWords optional ++ (⟨.leftBracket, "["⟩ :: ws ++ [⟨.rightBracket, "]"⟩])) := by
  intro ts hts
  obtain ⟨ds, a, us, b, rfl, hds, ha, hus, hb⟩ := enclosed_of_chain hts
  obtain ⟨n, hn, hi⟩ := hi us hus
  refine ⟨.index optional n, by simp [unplaced, hn], fun ss vs h => ?_⟩
  simpa using Suffixes.index hds ha hi.assign hb h

theorem makes_call {optional : Bool} {args : List Node} {ws : List Word}
    (hargs : MakesAll (fun es => Derives (.items es)) args ws) :
    Makes (.call optional args)
      (chainWords optional ++ (⟨.leftParen, "("⟩ :: ws ++ [⟨.rightParen, ")"⟩])) := by
  intro ts hts
  obtain ⟨ds, a, us, b, rfl, hds, ha, hus, hb⟩ := enclosed_of_chain hts
  obtain ⟨ns, hns, hargs⟩ := hargs us hus
  refine ⟨.call optional ns, by simp [unplaced, hns], fun ss vs h => ?_⟩
  simpa using Suffixes.call hds ha hargs hb h

theorem exists_spelt {s : Suffix} (h : s.IsOperators) (level : Nat) :
    ∃ ws, Spelt (s.text level) ws ∧ s.Makes ws := by
  cases s with
  | name optional x =>
    obtain ⟨d, hd, htext, hkind⟩ := Shows.chain_word optional
    obtain ⟨k, hk, hspelt⟩ := Spelt.property hd h
    rw [htext] at hspelt
    exact ⟨_, hspelt, makes_name hkind hk⟩
  | index optional i =>
    obtain ⟨ws, hwrites, hmakes⟩ := (Print.shows_text h level).placed (Print.comments_eq_nil h) 0
    have hspelt := Shows.chain_spelt (o := ("[", .leftBracket)) (c := ("]", .rightBracket))
      optional (.inl rfl) (by decide) hwrites.toSpelt
    exact ⟨_, hspelt, makes_index hmakes⟩
  | call optional args =>
    obtain ⟨ws, hspelt, hmakes⟩ := Print.commas_spelt fun a ha =>
      Print.showsElement (h a ha) level (Print.shows_text (h a ha) level)
    have hchain := Shows.chain_spelt (o := ("(", .leftParen)) (c := (")", .rightParen))
      optional (.inr rfl) (by decide) hspelt
    exact ⟨_, hchain, makes_call hmakes⟩

theorem makesSuffixes_nil : MakesSuffixes [] [] := by
  intro ts hts
  obtain rfl := List.map_eq_nil_iff.1 hts
  exact ⟨[], rfl, .nil⟩

theorem makesSuffixes_cons {s : Suffix} {ss : List Suffix} {ws vs : List Word} (h : s.Makes ws)
    (hmore : MakesSuffixes ss vs) : MakesSuffixes (s :: ss) (ws ++ vs) := by
  intro ts hts
  obtain ⟨us, us', rfl, hus, hus'⟩ := List.map_eq_append_iff.1 hts
  obtain ⟨s', hs', hfront⟩ := h us hus
  obtain ⟨ss', hss', hbehind⟩ := hmore us' hus'
  exact ⟨s' :: ss', by simp [hs', hss'], hfront ss' us' hbehind⟩

theorem exists_spelt_all {ss : List Suffix} (h : ∀ s ∈ ss, s.IsOperators) (level : Nat) :
    ∃ ws, Spelt (ss.flatMap (text level)) ws ∧ MakesSuffixes ss ws := by
  induction ss with
  | nil => exact ⟨[], .nil, makesSuffixes_nil⟩
  | cons s ss ih =>
    obtain ⟨hs, hss⟩ := List.forall_mem_cons.1 h
    obtain ⟨ws, hspelt, hmakes⟩ := exists_spelt hs level
    obtain ⟨vs, hspelts, hmore⟩ := ih hss
    rw [List.flatMap_cons]
    exact ⟨ws ++ vs, hspelt.append hspelts fun rest hrest => endsName_texts level ss hrest,
      makesSuffixes_cons hmakes hmore⟩

end Suffix

namespace Grammar

/-- The tokens are read as the expression, if as many rules may be inside one another. -/
def ReadsExpression (e : Node) (ts : List Token) : Prop :=
  ∀ (r : Reader) (depth : Nat), ts.length ≤ depth → (Phrase.assign e).IsRead r (rulesTo r depth) ts

theorem makes_construction {e : Node} {ss : List Suffix} {ws vs : List Word}
    (he : Makes (AsLeast 14) e ws) (hss : MakesSuffixes ss vs) :
    Makes ReadsExpression (Node.constructed .fresh .fresh e ss)
      (⟨.newWord, "new"⟩ :: (ws ++ vs)) := by
  intro tokens htokens
  obtain ⟨n, us, rfl, hn, hus⟩ := List.map_eq_cons_iff.1 htokens
  obtain ⟨ts, us, rfl, hts, hus⟩ := List.map_eq_append_iff.1 hus
  obtain ⟨e', he', hprimary⟩ := he ts hts
  obtain ⟨ss', hss', hsuffixes⟩ := hss us hus
  have hprimary : Derives (.primary e') ts := hprimary
  obtain ⟨t, ts, rfl, -⟩ := hprimary.startsWith
  refine ⟨Node.constructed (.ofLoc n.start) (.ofLoc t.start) e' ss',
    Node.constructed_unplaced rfl rfl he' hss', fun r depth hdepth => ?_⟩
  simp only [List.length_cons, List.length_append] at hdepth
  cases depth with
  | zero => omega
  | succ depth =>
    refine isRead_construction (kind_of_word hn) (hprimary.isRead r (depth + 1) ?_)
      (hsuffixes.imp fun phrase us hus h => h.isRead r depth ?_)
    · simp only [List.length_cons]
      omega
    · omega

end Grammar

namespace Node

def newWord : Word := ⟨.newWord, "new"⟩

theorem newWord_standsApart : newWord.StandsApart :=
  ⟨rfl, rfl, ⟨_, _, rfl, by decide⟩, fun _ => rfl⟩

/-- A construction is read from its text: behind `new` a tree of operators as a primary, then
accesses and calls. -/
theorem readExpression_construction {e : Node} {ss : List Suffix} (he : e.IsOperatorTree)
    (hss : ∀ s ∈ ss, s.IsOperators) (level : Nat) (file : Option Text) :
    ∃ n, readExpression ("new " ++ e.expressionText level 14 ++ ss.flatMap (Suffix.text level)) file
        = .ok n ∧
      n.unplaced = (constructed .fresh .fresh e ss).unplaced := by
  obtain ⟨ws, hwrites, hmakes⟩ := (Print.shows_text he level).placed (Print.comments_eq_nil he) 14
  obtain ⟨vs, hspelt, hmore⟩ := Suffix.exists_spelt_all hss level
  have hvalue := hwrites.toSpelt.append hspelt fun rest hrest =>
    Suffix.endsName_texts level ss hrest
  have hnew := Spelt.apart newWord_standsApart hvalue (hwrites.append hvalue).visibly
  rw [List.append_assoc]
  refine readExpression_of_writes (.of_cons hnew (by decide) (by decide)) (fun tokens htokens => ?_)
    file
  exact makes_construction hmakes hmore tokens htokens

end Node

end InlineTemplates
