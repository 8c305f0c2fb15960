import InlineTemplates.Proofs.Brackets
import InlineTemplates.Proofs.OperatorPrinting
import InlineTemplates.Proofs.ValueReading

/-!
# Expressions in their places

Where an expression stands in a statement the contexts around it stay as they are: its brackets are
closed in it, no line ends in it, and no word of it plays a role that depends on the statement. Only
a property that is called `while` can be taken for the end of a do-loop.
-/

namespace InlineTemplates

open Token (Kind)

namespace Token.Place

variable {p : Place} {j k : Kind} {w : Word} {t : Token} {rest : List Token}
  {S own : List Context} {L : List Nat} {ahead : List Word → Prop}

/-! ## Steps -/

/-- The place that a token of kind `k` leaves: one out of the loop that it closes, if it closes
one. -/
def leftBy (p : Place) (k : Kind) : Place := if p.closesLoop k then p.leaveLoop else p

theorem leftBy_of_ne (hk : k ≠ .whileWord) : p.leftBy k = p := by
  simp [leftBy, closesLoop, hk]

theorem not_ends_of_semicolon
    (h : (rest.map Token.word).head?.any fun w => w.kind = .semicolon) :
    (significant rest).head?.all (fun next => next.kind ≠ .semicolon) = false := by
  cases rest with
  | nil => simp at h
  | cons u rest =>
    have hu : u.kind = .semicolon := of_decide_eq_true h
    rw [significant_cons (by rw [hu]; decide)]
    simp [hu]

/-- One word with its role, where no statement ends in front of it. If it closes the condition of a
do-loop, a semicolon follows. -/
theorem lays_one (hline : w.kind ≠ .newline) (hsemicolon : w.kind ≠ .semicolon)
    (hends : p.endsBefore w.kind false = false)
    (hopen : (p.leftBy w.kind).closedBy k = some .loopTail → ∀ ws, ahead ws →
      ws.head?.any fun w => w.kind = .semicolon)
    (hrole : ∀ (t : Token) (rest : List Token), t.word = w → ahead (rest.map Token.word) →
      p.role t rest = k) :
    Lays p [w] [⟨k, w.text⟩] ((p.leftBy w.kind).after k) ahead := by
  intro module last ts rest hts hrest
  obtain ⟨t, rfl, rfl⟩ := List.map_eq_singleton_iff.1 hts
  have hk := hrole t rest rfl hrest
  rw [word_kind] at hline hsemicolon hends hopen
  refine ⟨[{ t with kind := k }], some { t with kind := k }, ?_, rfl⟩
  have hstay : ¬((p.leftBy t.kind).closedBy k = some .loopTail ∧
      (significant rest).head?.all (fun next => next.kind ≠ .semicolon) = true) := by
    rintro ⟨hclosed, hnext⟩
    rw [not_ends_of_semicolon (hopen hclosed _ hrest)] at hnext
    cases hnext
  have hleft : (if p.closesLoop t.kind then p.leaveLoop else p) = p.leftBy t.kind := rfl
  rw [List.singleton_append, placeFrom, if_neg hline, if_neg hsemicolon]
  simp only [hends, Bool.false_eq_true, if_false, hk, hleft, if_neg hstay]
  rfl

theorem endsBefore_of_canEnd (h : p.canEnd = false) (k : Kind) (newline : Bool) :
    p.endsBefore k newline = false := by
  simp [endsBefore, endsBranch, h]

theorem endsBefore_inside (helse : k ≠ .elseWord) (hwhile : k ≠ .whileWord)
    (hbrace : k ≠ .rightBrace) : p.endsBefore k false = false := by
  simp [endsBefore, closesLoop, helse, hwhile, hbrace]

/-! ## Roles -/

theorem marksAsync_false (harrow : ∀ u ∈ rest, u.kind ≠ .arrow)
    (hfirst : ∀ u ∈ rest.head?, u.kind ≠ .newline ∧ u.kind ≠ .functionWord) :
    marksAsync t rest = false := by
  cases rest with
  | nil => rfl
  | cons u rest =>
    obtain ⟨hline, hfunction⟩ := hfirst u rfl
    obtain ⟨-, harrow⟩ := List.forall_mem_cons.1 harrow
    have hnext : (significant rest).head?.any (fun a => a.kind = .arrow) = false := by
      rw [Option.any_eq_false]
      intro a ha
      have hmem := (List.dropWhile_suffix _).subset (List.mem_of_mem_head? ha)
      simpa using harrow a hmem
    rw [marksAsync, significant_cons hline]
    simp [closesIntoArrow_eq harrow, hnext, hfunction]

theorem nameRole_plain (hclause : p.inClause = false) (hmember : p.startsMember = false)
    (hof : p.context = .head → p.lastIs .name = false) (hasync : marksAsync t rest = false) :
    p.nameRole t rest = .name := by
  have hhead : ¬(t.text = "of" ∧ p.context = .head ∧ p.lastIs .name = true) := by
    rintro ⟨-, hcontext, hlast⟩
    rw [hof hcontext] at hlast
    cases hlast
  simp [nameRole, hclause, hmember, hhead, hasync]

theorem role_plain (hk : t.kind.isPlain ∨ t.kind.isPoint) (hmember : p.startsMember = false)
    (hlast : t.kind.isReserved → p.lastIn [.dot, .optionalChain] = false)
    (harrow : ∀ u ∈ rest, u.kind ≠ .arrow) (hname : t.kind = .name → p.nameRole t rest = .name) :
    p.role t rest = t.kind := by
  have hne : t.kind ≠ .leftBrace ∧ t.kind ≠ .functionWord ∧ t.kind ≠ .classWord := by
    revert hk
    cases t.kind <;> decide
  obtain ⟨hbrace, hfunction, hclass⟩ := hne
  by_cases hk' : t.kind = .name
  · rw [role_of_name hk', hname hk', hk']
  rw [role_eq_fixedRole hk' fun _ => closesIntoArrow_eq harrow 0, fixedRole, if_neg hbrace]
  split
  · rename_i hreserved
    exact reservedRole_eq ⟨hfunction, hclass⟩ (hlast hreserved) (.inl hmember)
  · rfl

/-! ## Places -/

/-- Whether the innermost of the contexts holds code, and not members. -/
def HoldsCode (S : List Context) : Prop := ∃ c below, S = c :: below ∧ c ≠ .object ∧ c ≠ .classBody

/-- A place in the contexts `S`, and in those of the loops `L` that were not taken for closed. -/
structure Among (S : List Context) (L : List Nat) (p : Place) : Prop where
  stack : p.stack = S
  loops : p.loops.Sublist L
  clause : p.inClause = false
  classes : p.classes = []

/-- A place inside an expression that opened the contexts `own`. -/
structure Within (S : List Context) (L : List Nat) (own : List Context) (p : Place) : Prop
    extends Among (own ++ S) L p where
  brackets : ∀ c ∈ own, c = .group ∨ c = .bracket
  paren : p.nextParen = none

theorem startsMember_of_holdsCode (h : HoldsCode p.stack) : p.startsMember = false := by
  obtain ⟨c, below, hstack, hobject, hclass⟩ := h
  cases c <;> simp_all [startsMember, context]

theorem HoldsCode.append (h : HoldsCode S) (hown : ∀ c ∈ own, c = .group ∨ c = .bracket) :
    HoldsCode (own ++ S) := by
  cases own with
  | nil => exact h
  | cons c own =>
    refine ⟨c, own ++ S, rfl, ?_⟩
    rcases hown c List.mem_cons_self with rfl | rfl <;> decide

theorem leftBy_among (h : Among S L p) (j : Kind) : Among S L (p.leftBy j) := by
  unfold leftBy
  split
  · exact ⟨h.stack, (List.tail_sublist _).trans h.loops, h.clause, h.classes⟩
  · exact h

theorem Among.after (h : Among S L p) {S' : List Context} (hS : p.stackAfter k = S')
    (hk : k ∉ ([.importWord, .exportWord, .classWord, .classDeclaration, .classBrace, .doWord] :
      List Kind)) : Among S' L (p.after k) := by
  simp only [List.mem_cons, List.not_mem_nil, or_false, not_or] at hk
  obtain ⟨himport, hexport, hclass, hdeclaration, hbrace, hdo⟩ := hk
  refine ⟨hS, ?_, ?_, ?_⟩
  · simpa [Place.after, hdo] using h.loops
  · simp [Place.after, inClauseAfter, himport, hexport, h.clause]
  · simp [Place.after, hclass, hdeclaration, hbrace, h.classes]

/-- A token of an expression opens and closes brackets of the expression only. -/
theorem Within.after (h : Within S L own p) (hS : HoldsCode S) (hk : k.isPlain ∨ k.isPoint)
    (hj : p.closesLoop j → k = .name) {n : Nat} (hn : Kind.bracketStep own.length k = some n) :
    (p.leftBy j).closedBy k ≠ some .loopTail ∧
      ∃ own', own'.length = n ∧ Within S L own' ((p.leftBy j).after k) := by
  obtain ⟨c, below, rfl, -⟩ := hS
  have hamong := leftBy_among h.toAmong j
  have hkinds : k ∉ ([.importWord, .exportWord, .classWord, .classDeclaration, .classBrace,
      .doWord] : List Kind) ∧ k.opensHead = false := by
    revert hk
    cases k <;> decide
  obtain ⟨hplain, hhead⟩ := hkinds
  have hparen : ((p.leftBy j).after k).nextParen = none := by simp [Place.after, hhead]
  by_cases ho : k.opens
  · have hkind := Kind.opens_iff.1 ho
    have hclosed : (p.leftBy j).closedBy k = none := by
      rcases hkind with rfl | rfl <;> rfl
    have hleft : p.leftBy j = p := if_neg fun hcloses => by
      rw [hj hcloses] at ho
      cases ho
    obtain rfl : own.length + 1 = n := by simpa [Kind.bracketStep, ho] using hn
    have hstack : ∃ d, (d = .group ∨ d = .bracket) ∧
        (p.leftBy j).stackAfter k = d :: own ++ c :: below := by
      rw [hleft]
      rcases hkind with rfl | rfl <;> simp [stackAfter, h.paren, h.stack]
    obtain ⟨d, hd, hstack⟩ := hstack
    refine ⟨by simp [hclosed], d :: own, rfl, ⟨hamong.after hstack hplain, ?_, hparen⟩⟩
    exact List.forall_mem_cons.2 ⟨hd, h.brackets⟩
  by_cases hc : k.closes
  · cases own with
    | nil => simp [Kind.bracketStep, ho, hc] at hn
    | cons d own =>
      obtain rfl : own.length = n := by simpa [Kind.bracketStep, ho, hc] using hn
      obtain ⟨hd, hown⟩ := List.forall_mem_cons.1 h.brackets
      have hlength : 1 < (p.leftBy j).stack.length := by
        rw [hamong.stack, List.length_append, List.length_cons, List.length_cons]
        omega
      have hinner : (p.leftBy j).stack.head? = some d ∧
          (p.leftBy j).stack.tail = own ++ c :: below := by
        rw [hamong.stack]
        exact ⟨rfl, rfl⟩
      have hboth : (p.leftBy j).closedBy k = some d ∧
          (p.leftBy j).stackAfter k = own ++ c :: below := by
        rcases Kind.closes_iff.1 hc with rfl | rfl <;>
          simp [closedBy, stackAfter, hlength, hinner]
      refine ⟨?_, own, rfl, ⟨hamong.after hboth.2 hplain, hown, hparen⟩⟩
      rw [hboth.1]
      rcases hd with rfl | rfl <;> decide
  · obtain rfl : own.length = n := by simpa [Kind.bracketStep, ho, hc] using hn
    have hboth : (p.leftBy j).closedBy k = none ∧
        (p.leftBy j).stackAfter k = own ++ c :: below := by
      rw [← hamong.stack]
      revert hk ho hc
      cases k <;> first
        | exact fun _ _ _ => ⟨rfl, rfl⟩
        | simp [Kind.isPlain, Kind.isPoint, Kind.opens, Kind.closes]
    exact ⟨by simp [hboth.1], own, rfl, ⟨hamong.after hboth.2 hplain, h.brackets, hparen⟩⟩

/-! ## Words -/

/-- What can stand behind an expression: no line break, and no arrow function anywhere. -/
def EndsExpression (ws : List Word) : Prop :=
  NoArrow ws ∧ ∀ w ∈ ws.head?, w.kind ≠ .newline ∧ w.kind ≠ .functionWord

theorem endsExpression_append {ws vs : List Word} (hws : Word.Settled ws)
    (h : EndsExpression vs) : EndsExpression (ws.map Word.raw ++ vs) := by
  refine ⟨List.forall_mem_append.2 ⟨List.forall_mem_map.2 fun w hw => ?_, h.1⟩, ?_⟩
  · exact (hws.raw_kind_ne w hw).2.2
  · cases ws with
    | nil => exact h.2
    | cons w ws =>
      rintro _ hw
      obtain rfl := Option.some.inj hw
      exact ⟨(hws.raw_kind_ne w List.mem_cons_self).1, (hws.head_raw_ne w rfl).1⟩

theorem lays_within {n : Nat} {x : Text} (hp : Within S L own p) (hS : HoldsCode S)
    (hk : k.isPlain ∨ k.isPoint) (hline : j ≠ .newline ∧ j ≠ .semicolon)
    (hends : p.endsBefore j false = false) (hj : p.closesLoop j → k = .name)
    (hn : Kind.bracketStep own.length k = some n)
    (hrole : ∀ (t : Token) (rest : List Token), t.kind = j → ahead (rest.map Token.word) →
      p.role t rest = k) :
    ∃ own', own'.length = n ∧ Within S L own' ((p.leftBy j).after k) ∧
      Lays p [⟨j, x⟩] [⟨k, x⟩] ((p.leftBy j).after k) ahead := by
  obtain ⟨hopen, own', hown, hafter⟩ := hp.after hS hk hj hn
  refine ⟨own', hown, hafter, ?_⟩
  refine lays_one (w := ⟨j, x⟩) hline.1 hline.2 hends (absurd · hopen) fun t rest ht hrest => ?_
  exact hrole t rest (Word.mk.inj ht).1 hrest

theorem EndsExpression.marksAsync_eq (h : EndsExpression (rest.map Token.word)) (t : Token) :
    marksAsync t rest = false := by
  refine marksAsync_false (by simpa [NoArrow] using h.1) fun u hu => ?_
  have hfirst := h.2 u.word (by rw [List.head?_map, Option.mem_def.1 hu]; rfl)
  rwa [word_kind] at hfirst

theorem lays_plain {n : Nat} (hp : Within S L own p) (hS : HoldsCode S) (hk : w.kind.isPlain)
    (hfirst : p.lastIs .name → w.kind ≠ .name)
    (hlast : w.kind.isReserved → p.lastIn [.dot, .optionalChain] = false)
    (hn : Kind.bracketStep own.length w.kind = some n) :
    ∃ own', own'.length = n ∧ Within S L own' ((p.leftBy w.kind).after w.kind) ∧
      Lays p [w] [w] ((p.leftBy w.kind).after w.kind) EndsExpression := by
  have hkinds : w.kind ≠ .newline ∧ w.kind ≠ .semicolon ∧ w.kind ≠ .elseWord ∧
      w.kind ≠ .whileWord ∧ w.kind ≠ .rightBrace := by
    revert hk
    cases w.kind <;> decide
  obtain ⟨hline, hsemicolon, helse, hwhile, hbrace⟩ := hkinds
  have hmember : p.startsMember = false :=
    startsMember_of_holdsCode (hp.stack ▸ hS.append hp.brackets)
  refine lays_within hp hS (.inl hk) ⟨hline, hsemicolon⟩ (endsBefore_inside helse hwhile hbrace)
    (fun h => absurd h (by simp [closesLoop, hwhile])) hn fun t rest ht hrest => ?_
  rw [← ht] at hk hfirst hlast ⊢
  refine role_plain (.inl hk) hmember hlast (by simpa [NoArrow] using hrest.1) fun hname => ?_
  refine nameRole_plain hp.clause hmember (fun _ => ?_) (hrest.marksAsync_eq t)
  rw [Bool.eq_false_iff]
  exact fun h => hfirst h hname

theorem lays_point {n : Nat} (hp : Within S L own p) (hS : HoldsCode S) (hk : w.kind.isPoint)
    (hn : Kind.bracketStep own.length w.kind = some n) :
    ∃ own', own'.length = n ∧ Within S L own' ((p.leftBy w.kind).after w.kind) ∧
      Lays p [w] [w] ((p.leftBy w.kind).after w.kind) NoArrow := by
  have hkinds : w.kind ≠ .newline ∧ w.kind ≠ .semicolon ∧ w.kind ≠ .elseWord ∧
      w.kind ≠ .whileWord ∧ w.kind ≠ .rightBrace ∧ w.kind.isReserved = false ∧
      w.kind ≠ .name := by
    revert hk
    cases w.kind <;> decide
  obtain ⟨hline, hsemicolon, helse, hwhile, hbrace, hreserved, hname⟩ := hkinds
  have hmember : p.startsMember = false :=
    startsMember_of_holdsCode (hp.stack ▸ hS.append hp.brackets)
  refine lays_within hp hS (.inr hk) ⟨hline, hsemicolon⟩ (endsBefore_inside helse hwhile hbrace)
    (fun h => absurd h (by simp [closesLoop, hwhile])) hn fun t rest ht hrest => ?_
  rw [← ht] at hk hreserved hname ⊢
  exact role_plain (.inr hk) hmember (by simp [hreserved]) (by simpa [NoArrow] using hrest)
    (absurd · hname)

theorem lays_behindPoint {n : Nat} {x : Text} (hp : Within S L own p) (hS : HoldsCode S)
    (hpoint : p.last = some .dot ∨ p.last = some .optionalChain) (hend : p.canEnd = false)
    (hj : j.isReserved ∨ j = .name) (hn : Kind.bracketStep own.length .name = some n) :
    ∃ own', own'.length = n ∧ Within S L own' ((p.leftBy j).after .name) ∧
      Lays p [⟨j, x⟩] [⟨.name, x⟩] ((p.leftBy j).after .name) EndsExpression := by
  have hline : j ≠ .newline ∧ j ≠ .semicolon := by
    revert hj
    cases j <;> decide
  have hmember : p.startsMember = false :=
    startsMember_of_holdsCode (hp.stack ▸ hS.append hp.brackets)
  refine lays_within hp hS (.inl rfl) hline (endsBefore_of_canEnd hend j false) (fun _ => rfl) hn
    fun t rest ht hrest => ?_
  rw [← ht] at hj
  rcases hj with hj | hj
  · have hlast : p.startsStatement = false ∧ p.lastIs .exportWord = false ∧
        p.lastIs .asyncWord = false ∧ p.lastIn [.dot, .optionalChain] = true := by
      rcases hpoint with hl | hl <;> simp [startsStatement, lastIs, lastIn, hl]
    rw [role_of_reserved hj]
    simp [reservedRole, hlast]
  · rw [role_of_name hj]
    refine nameRole_plain hp.clause hmember (fun _ => ?_) (hrest.marksAsync_eq t)
    rcases hpoint with hl | hl <;> simp [lastIs, hl]

theorem lays_access {d : Word} {m n : Nat} (hp : Within S L own p) (hS : HoldsCode S)
    (hd : d.kind.isPoint) (hw : w.kind.followsPoint)
    (hn : Kind.bracketStep own.length d.kind = some n) (hm : Kind.bracketStep n w.kind = some m) :
    ∃ (own' : List Context) (q : Place), own'.length = m ∧ Within S L own' (q.after w.kind) ∧
      Lays p [d, w.raw] [d, w] (q.after w.kind) EndsExpression := by
  obtain ⟨own₁, rfl, hafter, hlays⟩ := lays_point hp hS hd hn
  have hlast : ((p.leftBy d.kind).after d.kind).last = some d.kind := rfl
  have hpoint : d.kind = .dot ∨ d.kind = .optionalChain := by simpa [Kind.isPoint] using hd
  have hend : ((p.leftBy d.kind).after d.kind).canEnd = false := by
    rcases hpoint with hk | hk <;> rw [hk] <;> rfl
  have hboth {q : Place} {vs : List Word} (hvs : NoArrow vs)
      (h : Lays ((p.leftBy d.kind).after d.kind) vs [w] q EndsExpression) :
      Lays p (d :: vs) [d, w] q EndsExpression :=
    hlays.trans h fun rest hrest => List.forall_mem_append.2 ⟨hvs, hrest.1⟩
  rcases Word.raw_cases hw with ⟨hname, hj⟩ | ⟨hraw, hplain, hreserved⟩
  · -- the word is a name, whatever it was cut as
    rw [hname] at hm
    obtain ⟨own₂, hown, hafter', hlays'⟩ := lays_behindPoint (x := w.text) hafter hS
      (by rwa [hlast, Option.some.injEq, Option.some.injEq]) hend hj hm
    have hword : w = ⟨.name, w.text⟩ := by rw [← hname]
    have hraw : w.raw = ⟨w.raw.kind, w.text⟩ := by rw [← Word.raw_text w]
    have harrow : NoArrow [w.raw] := by
      rw [NoArrow, List.forall_mem_singleton]
      revert hj
      cases w.raw.kind <;> decide
    rw [← hraw, ← hword] at hlays'
    rw [hname]
    exact ⟨own₂, _, hown, hafter', hboth harrow hlays'⟩
  · have hnot : ((p.leftBy d.kind).after d.kind).lastIs .name = false := by
      rw [lastIs, hlast]
      rcases hpoint with hk | hk <;> rw [hk] <;> rfl
    obtain ⟨own₂, hown, hafter', hlays'⟩ := lays_plain hafter hS hplain (by simp [hnot])
      (by simp [hreserved]) hm
    rw [hraw]
    have harrow : NoArrow [w] := by
      rw [NoArrow, List.forall_mem_singleton]
      revert hplain
      cases w.kind <;> decide
    exact ⟨own₂, _, hown, hafter', hboth harrow hlays'⟩

/-- The words of an expression keep their kinds, and leave the contexts around it as they are. -/
theorem lays_settled {ws : List Word} (hws : Word.Settled ws) (hS : HoldsCode S) :
    ∀ {own : List Context} {p : Place}, Within S L own p →
      (ws.map Word.kind).foldlM Kind.bracketStep own.length = some 0 →
      ((ws.map Word.kind).IsChain fun j k => j = .name → k ≠ .name) →
      (p.lastIs .name → ∀ w ∈ ws.head?, w.kind ≠ .name) →
      p.lastIn [.dot, .optionalChain] = false →
      ∃ q, Within S L [] q ∧ Lays p (ws.map Word.raw) ws q EndsExpression := by
  -- what is known of the first word is known of the next one behind it
  have hnext {k : Kind} {q : Place} {ws : List Word}
      (h : ((k :: ws.map Word.kind).IsChain fun j k => j = .name → k ≠ .name)) :
      (q.after k).lastIs .name → ∀ w ∈ ws.head?, w.kind ≠ .name := by
    intro hname w hw
    rw [List.isChain_cons] at h
    refine h.1 w.kind (by rw [List.head?_map, Option.mem_def.1 hw]; rfl) ?_
    simpa [Place.after, lastIs] using hname
  induction hws with
  | nil =>
    intro own p hp hbalanced _ _ _
    obtain rfl : own = [] := by simpa using hbalanced
    exact ⟨p, hp, lays_nil⟩
  | @plain w ws hk hraw hws ih =>
    intro own p hp hbalanced hapart hfirst hlast
    rw [List.map_cons, List.foldlM_cons, Option.bind_eq_bind, Option.bind_eq_some_iff] at hbalanced
    obtain ⟨n, hn, hbalanced⟩ := hbalanced
    obtain ⟨own', rfl, hafter, hlays⟩ := lays_plain hp hS hk (fun h => hfirst h w rfl)
      (fun _ => hlast) hn
    obtain ⟨q, hq, hrest⟩ := ih hafter hbalanced (List.isChain_cons.1 hapart).2 (hnext hapart)
      (Word.lastIn_after _ (Word.isPoint_of_isPlain hk))
    rw [List.map_cons, hraw]
    exact ⟨q, hq, hlays.trans hrest fun _ => endsExpression_append hws⟩
  | @behindPoint d w ws hd hw hws ih =>
    intro own p hp hbalanced hapart _ _
    simp only [List.map_cons, List.foldlM_cons, Option.bind_eq_bind, Option.bind_eq_some_iff]
      at hbalanced
    obtain ⟨n, hn, m, hm, hbalanced⟩ := hbalanced
    obtain ⟨own', q, rfl, hafter, hlays⟩ := lays_access hp hS hd hw hn hm
    have hapart' := (List.isChain_cons.1 hapart).2
    have hpoint : w.kind.isPoint = false := by
      revert hw
      cases w.kind <;> decide
    obtain ⟨q', hq, hrest⟩ := ih hafter hbalanced (List.isChain_cons.1 hapart').2 (hnext hapart')
      (Word.lastIn_after _ hpoint)
    rw [List.map_cons, Word.raw_point hd, List.map_cons]
    exact ⟨q', hq, hlays.trans hrest fun _ => endsExpression_append hws⟩

end Token.Place

end InlineTemplates
