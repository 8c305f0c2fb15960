import InlineTemplates.Proofs.Visits

/-!
# Line breaks behind closing braces

A token gets its role by looking ahead over line breaks, so a line break changes nothing in front of
it. Behind a closing brace it puts a terminator at most, and what follows is placed as it is on the
same line. Only what opens a function, a class, a block or a clause is known for that on a line of
its own and not behind the brace.
-/

namespace InlineTemplates

namespace Token

namespace Place

variable {p : Place} {t : Token} {ts us vs rest : List Token} {newline : Bool}
  {last : Option Token}

/-! ## Looking ahead over line breaks -/

def withoutLines (ts : List Token) : List Token := ts.filter fun t => t.kind ≠ .newline

theorem withoutLines_newline (h : t.kind = .newline) :
    withoutLines (t :: ts) = withoutLines ts := by
  simp [withoutLines, h]

theorem withoutLines_cons (h : t.kind ≠ .newline) :
    withoutLines (t :: ts) = t :: withoutLines ts := by
  simp [withoutLines, h]

theorem withoutLines_append (ts us : List Token) :
    withoutLines (ts ++ us) = withoutLines ts ++ withoutLines us :=
  List.filter_append ts us

theorem withoutLines_withoutLines (ts : List Token) :
    withoutLines (withoutLines ts) = withoutLines ts := by
  simp [withoutLines]

theorem significant_cases (ts : List Token) :
    significant ts = [] ∧ withoutLines ts = [] ∨
      ∃ u us, significant ts = u :: us ∧ withoutLines ts = u :: withoutLines us := by
  induction ts with
  | nil => exact .inl ⟨rfl, rfl⟩
  | cons t ts ih =>
    by_cases h : t.kind = .newline
    · have hskip : significant (t :: ts) = significant ts := by simp [significant, h]
      rwa [hskip, withoutLines_newline h]
    · exact .inr ⟨t, ts, significant_cons h, withoutLines_cons h⟩

theorem head_significant (ts : List Token) :
    (significant ts).head? = (withoutLines ts).head? := by
  rcases significant_cases ts with ⟨h, h'⟩ | ⟨u, us, h, h'⟩
  · rw [h, h']
  · rw [h, h', List.head?_cons, List.head?_cons]

theorem closesIntoArrow_withoutLines (depth : Nat) (ts : List Token) :
    closesIntoArrow depth (withoutLines ts) = closesIntoArrow depth ts := by
  induction ts generalizing depth with
  | nil => rfl
  | cons t ts ih =>
    by_cases h : t.kind = .newline
    · rw [withoutLines_newline h, ih]
      simp [closesIntoArrow, h]
    · rw [withoutLines_cons h]
      simp only [closesIntoArrow, ih, head_significant, withoutLines_withoutLines]

theorem marksAsync_withoutLines (t : Token) (ts : List Token) :
    marksAsync t (withoutLines ts) = marksAsync t ts := by
  have hkeep : significant (withoutLines ts) = withoutLines ts :=
    significant_eq fun u hu => by simpa using (List.mem_filter.1 hu).2
  rw [marksAsync, marksAsync, hkeep]
  rcases significant_cases ts with ⟨h, h'⟩ | ⟨u, us, h, h'⟩
  · rw [h, h']
  · rw [h, h']
    simp only [head_significant, closesIntoArrow_withoutLines, withoutLines_withoutLines]

theorem role_withoutLines (p : Place) (t : Token) (ts : List Token) :
    p.role t (withoutLines ts) = p.role t ts := by
  simp only [role, nameRole, closesIntoArrow_withoutLines, marksAsync_withoutLines,
    head_significant, withoutLines_withoutLines]

theorem role_congr (h : withoutLines us = withoutLines vs) : p.role t us = p.role t vs := by
  rw [← role_withoutLines, h, role_withoutLines]

end Place

namespace Visit

open Place (withoutLines)

variable {p : Place} {newline : Bool} {t : Token} {us vs : List Token}

theorem congr_rest (h : withoutLines us = withoutLines vs) :
    Visit.output ⟨p, newline, t, us⟩ = Visit.output ⟨p, newline, t, vs⟩ ∧
      Visit.after ⟨p, newline, t, us⟩ = Visit.after ⟨p, newline, t, vs⟩ ∧
        Visit.placed ⟨p, newline, t, us⟩ = Visit.placed ⟨p, newline, t, vs⟩ := by
  have hrole : Visit.role ⟨p, newline, t, us⟩ = Visit.role ⟨p, newline, t, vs⟩ :=
    Place.role_congr h
  have hbehind : Visit.endsBehind ⟨p, newline, t, us⟩ = Visit.endsBehind ⟨p, newline, t, vs⟩ := by
    simp only [Visit.endsBehind, hrole, Place.head_significant, h]
    rfl
  refine ⟨?_, ?_, ?_⟩
  · simp only [Visit.output, Visit.placed, hrole, hbehind]
    rfl
  · simp only [Visit.after, hrole, hbehind]
    rfl
  · simp only [Visit.placed, hrole]

end Visit

namespace Place

variable {p : Place} {t : Token} {ts us vs rest : List Token} {module newline : Bool}
  {last : Option Token}

/-! ## Runs over tokens -/

/-- What comes of some tokens in front of others. -/
structure Run where
  output : List Token
  /-- What is known behind the tokens. -/
  place : Place
  /-- Whether a line break stands there. -/
  newline : Bool
  /-- The last token that is neither line break nor semicolon. -/
  last : Option Token

def runFrom (p : Place) (newline : Bool) (last : Option Token) : List Token → List Token → Run
  | [], _ => ⟨[], p, newline, last⟩
  | t :: ts, rest =>
    if t.kind = .newline then runFrom p true last ts rest
    else
      let v : Visit := ⟨p, newline, t, ts ++ rest⟩
      let r := runFrom v.after false (if t.kind = .semicolon then last else some v.placed) ts rest
      { r with output := v.output ++ r.output }

/-- Placing is a run over the tokens in front, and placing of the rest from there on. -/
theorem placeFrom_append (module : Bool) (p : Place) (newline : Bool) (last : Option Token)
    (ts rest : List Token) :
    let r := runFrom p newline last ts rest
    placeFrom module p newline last (ts ++ rest) =
      r.output ++ placeFrom module r.place r.newline r.last rest := by
  induction ts generalizing p newline last with
  | nil => rfl
  | cons t ts ih =>
    rw [List.cons_append]
    by_cases hline : t.kind = .newline
    · rw [placeFrom_newline hline, ih, runFrom, if_pos hline]
    · rw [runFrom, if_neg hline]
      by_cases hsemicolon : t.kind = .semicolon
      · rw [placeFrom_semicolon hsemicolon, ih]
        simp [Visit.output, Visit.after, hsemicolon]
      · rw [placeFrom_visit hline hsemicolon, ih]
        simp [hsemicolon]

theorem runFrom_congr (h : withoutLines us = withoutLines vs) :
    runFrom p newline last ts us = runFrom p newline last ts vs := by
  induction ts generalizing p newline last with
  | nil => rfl
  | cons t ts ih =>
    have hrest : withoutLines (ts ++ us) = withoutLines (ts ++ vs) := by
      rw [withoutLines_append, withoutLines_append, h]
    obtain ⟨houtput, hafter, hplaced⟩ := @Visit.congr_rest p newline t _ _ hrest
    simp only [runFrom, houtput, hafter, hplaced, ih]

/-! ## Behind a closing brace -/

@[simp]
theorem afterTerminator_last : p.afterTerminator.last = some .terminator := rfl

@[simp]
theorem afterTerminator_inClause : p.afterTerminator.inClause = false := rfl

@[simp]
theorem afterTerminator_stack : p.afterTerminator.stack = p.stack := rfl

@[simp]
theorem afterTerminator_classes : p.afterTerminator.classes = p.classes := rfl

@[simp]
theorem afterTerminator_context : p.afterTerminator.context = p.context := rfl

/-- The last token is a closing brace, of no import or export. -/
structure BehindBrace (p : Place) : Prop where
  last : p.last = some .rightBrace
  clause : p.inClause = false

/-- The roles that a token has only where a statement starts, or that say more there. -/
def openings : List Kind :=
  [.blockBrace, .functionDeclaration, .classDeclaration, .importWord, .exportWord, .asyncWord]

theorem endsBefore_newline (p : Place) (k : Kind) : p.endsBefore k true =
    (p.endsBefore k false || (p.inLines && p.canEnd && !k.continuesLine && !p.closesLoop k)) := by
  simp only [endsBefore, Bool.true_and, Bool.false_and, Bool.or_false]
  rw [Bool.or_right_comm]

/-- The terminator that a line break puts in front of a token. -/
def breakBefore (p : Place) (t : Token) : List Token :=
  if t.kind ≠ .semicolon && p.endsBefore t.kind true && !p.endsBefore t.kind false then
    [terminatorOf t]
  else []

namespace BehindBrace

theorem startsStatement_eq (h : p.BehindBrace) : p.startsStatement = false := by
  simp [startsStatement, lastIn, h.last]

theorem lastIn_eq (h : p.BehindBrace) {ks : List Kind}
    (hks : ks.contains .rightBrace = ks.contains .terminator) :
    p.afterTerminator.lastIn ks = p.lastIn ks := by
  simp only [lastIn, afterTerminator_last, h.last, Option.any_some, hks]

theorem startsMember_eq (h : p.BehindBrace) : p.afterTerminator.startsMember = p.startsMember := by
  unfold startsMember
  rw [afterTerminator_context]
  cases p.context <;> first | rfl | exact h.lastIn_eq rfl

theorem startsStatement_afterTerminator :
    p.afterTerminator.startsStatement = decide (p.context = .block) := by
  have hlast : p.afterTerminator.lastIn [.terminator, .blockBrace] = true := by simp [lastIn]
  rw [startsStatement, hlast, Bool.or_true, Bool.and_true, afterTerminator_context]

theorem braceRole_eq (h : p.BehindBrace)
    (ht : p.context = .block → p.afterTerminator.braceRole ∉ openings) :
    p.afterTerminator.braceRole = p.braceRole := by
  simp only [braceRole, afterTerminator_classes, afterTerminator_stack, afterTerminator_last,
    h.last, h.startsStatement_eq, startsStatement_afterTerminator] at ht ⊢
  by_cases hblock : p.context = .block
  · have hne := ht hblock
    by_cases hclass : p.classes.head? = some p.stack.length
    · simp [hclass]
    · simp [hclass, hblock, Kind.opensBlock, openings] at hne
  · simp [hblock, Kind.opensBlock]

theorem reservedRole_eq (h : p.BehindBrace) {k : Kind} {next : Option Kind}
    (ht : p.context = .block → p.afterTerminator.reservedRole k next ∉ openings) :
    p.afterTerminator.reservedRole k next = p.reservedRole k next := by
  by_cases hblock : p.context = .block
  · have hne := ht hblock
    have hfunction : k ≠ .functionWord := by
      rintro rfl
      simp [reservedRole, startsStatement_afterTerminator, hblock, openings] at hne
    have hclass : k ≠ .classWord := by
      rintro rfl
      simp [reservedRole, startsStatement_afterTerminator, hblock, openings] at hne
    simp [reservedRole, hfunction, hclass, h.startsMember_eq, lastIn, h.last]
  · simp [reservedRole, startsStatement_afterTerminator, h.startsStatement_eq, hblock,
      h.startsMember_eq, lastIs, lastIn, h.last]

theorem nameRole_eq (h : p.BehindBrace) (t : Token) (rest : List Token) :
    p.afterTerminator.nameRole t rest = p.nameRole t rest := by
  simp [nameRole, h.clause, h.startsMember_eq, lastIs, lastIn, h.last]

/-- A token has the role that it has on a line of its own, unless that role opens a statement. -/
theorem role_eq (h : p.BehindBrace)
    (ht : p.context = .block → p.afterTerminator.role t rest ∉ openings) :
    p.afterTerminator.role t rest = p.role t rest := by
  unfold role at ht ⊢
  by_cases hbrace : t.kind = .leftBrace
  · rw [if_pos hbrace] at ht
    rw [if_pos hbrace, if_pos hbrace]
    exact h.braceRole_eq ht
  rw [if_neg hbrace] at ht
  rw [if_neg hbrace, if_neg hbrace]
  by_cases hparen : t.kind = .leftParen ∧ closesIntoArrow 0 rest
  · rw [if_pos hparen, if_pos hparen]
  rw [if_neg hparen] at ht
  rw [if_neg hparen, if_neg hparen]
  by_cases hreserved : t.kind.isReserved
  · rw [if_pos hreserved] at ht
    rw [if_pos hreserved, if_pos hreserved]
    exact h.reservedRole_eq ht
  · rw [if_neg hreserved, if_neg hreserved, h.nameRole_eq]

theorem after_eq (h : p.BehindBrace) {k : Kind} (hk : p.context = .block → k ∉ openings) :
    p.afterTerminator.after k = p.after k := by
  have hstarts : k = .importWord ∨ k = .exportWord ∨ k = .asyncWord →
      p.afterTerminator.startsStatement = false := by
    intro hword
    rw [startsStatement_afterTerminator, decide_eq_false_iff_not]
    intro hblock
    have hne := hk hblock
    rcases hword with rfl | rfl | rfl <;> simp [openings] at hne
  have hclause : p.afterTerminator.inClauseAfter k = p.inClauseAfter k := by
    by_cases hword : k = .importWord ∨ k = .exportWord
    · have hnot := hstarts (hword.imp_right .inl)
      simp [inClauseAfter, hnot, h.startsStatement_eq, lastIs, h.last, h.clause]
    · rw [not_or] at hword
      simp [inClauseAfter, hword, lastIs, h.last, h.clause]
  have hasync : (if k = .asyncWord then
      p.afterTerminator.startsStatement || p.afterTerminator.lastIs .exportWord else
        p.asyncDeclares) =
      if k = .asyncWord then p.startsStatement || p.lastIs .exportWord else p.asyncDeclares := by
    by_cases hword : k = .asyncWord
    · simp [hstarts (.inr (.inr hword)), h.startsStatement_eq, lastIs, h.last]
    · rw [if_neg hword, if_neg hword]
  unfold Place.after
  rw [hclause]
  exact congrArg (Place.mk _ _ _ _ _ _ _ _) hasync

theorem placeFrom_newline (h : p.BehindBrace)
    (ht : p.context = .block → p.afterTerminator.role t rest ∉ openings)
    (hline : t.kind ≠ .newline) :
    placeFrom module p true last (t :: rest) =
      p.breakBefore t ++ placeFrom module p false last (t :: rest) := by
  by_cases hsame : t.kind = .semicolon ∨ p.endsBefore t.kind true = p.endsBefore t.kind false
  · have hnone : p.breakBefore t = [] := by
      rcases hsame with hsame | hsame <;> simp [breakBefore, hsame]
    rw [hnone, List.nil_append]
    rcases hsame with hsame | hsame
    · rw [placeFrom_semicolon hsame, placeFrom_semicolon hsame]
    · rw [placeFrom, placeFrom, hsame]
  obtain ⟨hsemicolon, hdiffers⟩ := not_or.1 hsame
  have hgoes : p.endsBefore t.kind false = false := by
    rw [endsBefore_newline] at hdiffers
    exact Bool.eq_false_iff.2 fun hends => hdiffers (by rw [hends, Bool.true_or])
  have hends : p.endsBefore t.kind true = true := by
    rw [hgoes] at hdiffers
    simpa using hdiffers
  have hloop : p.closesLoop t.kind = false := by
    rw [endsBefore_newline, hgoes] at hends
    simpa using (Bool.and_eq_true_iff.1 hends).2
  let v : Visit := ⟨p, true, t, rest⟩
  let w : Visit := ⟨p, false, t, rest⟩
  have hplace : v.place = p.afterTerminator ∧ w.place = p :=
    ⟨if_pos hends, if_neg (by simp [w, Visit.endsBefore, hgoes])⟩
  have hleft : v.left = p.afterTerminator ∧ w.left = p := by
    rw [Visit.left, Visit.left, hplace.1, hplace.2]
    exact ⟨if_neg (by simp [v, hloop]), if_neg (by simp [w, hloop])⟩
  have hrole : v.role = w.role := by
    rw [Visit.role, Visit.role, hplace.1, hplace.2]
    exact h.role_eq ht
  have hplaced : v.placed = w.placed := by
    rw [Visit.placed, Visit.placed, hrole]
  have hbehind : v.endsBehind = w.endsBehind := by
    rw [Visit.endsBehind, Visit.endsBehind, hleft.1, hleft.2, hrole]
    rfl
  have hafter : v.after = w.after := by
    have hopens : p.context = .block → w.role ∉ openings := by
      rw [← hrole, Visit.role, hplace.1]
      exact ht
    rw [Visit.after, Visit.after, if_neg hsemicolon, if_neg hsemicolon, hbehind, hleft.1, hleft.2,
      hrole, h.after_eq hopens]
  have houtput : v.output = terminatorOf t :: w.output := by
    have hv : v.endsBefore = true := hends
    have hw : w.endsBefore = false := hgoes
    rw [Visit.output, Visit.output, if_neg hsemicolon, if_neg hsemicolon, hv, hw, hplaced, hbehind]
    rfl
  have hbreak : p.breakBefore t = [terminatorOf t] := by
    simp [breakBefore, hsemicolon, hends, hgoes]
  rw [placeFrom_visit hline hsemicolon, placeFrom_visit hline hsemicolon, hbreak]
  change v.output ++ placeFrom module v.after false (some v.placed) rest = _
  rw [houtput, hafter, hplaced]
  rfl

/-- The word or brace that opens a declaration or a block on a line of its own opens none behind the
brace. -/
theorem role_of_opening (h : p.BehindBrace) (hblock : p.context = .block)
    (hclasses : p.classes.head? ≠ some p.stack.length) {k : Kind}
    (hk : (t.kind, k) ∈ [(Kind.functionWord, Kind.functionDeclaration),
      (.classWord, .classDeclaration), (.leftBrace, .blockBrace)]) :
    p.role t rest = t.kind ∧ p.afterTerminator.role t rest = k := by
  have hmember : p.startsMember = false := by simp [startsMember, hblock]
  simp only [List.mem_cons, Prod.mk.injEq, List.not_mem_nil, or_false] at hk
  obtain ⟨hkind, rfl⟩ | ⟨hkind, rfl⟩ | ⟨hkind, rfl⟩ := hk
  · rw [role_of_reserved (by rw [hkind]; rfl), role_of_reserved (by rw [hkind]; rfl), hkind]
    simp [reservedRole, h.startsStatement_eq, startsStatement_afterTerminator, hblock, lastIs,
      lastIn, h.last, hmember]
  · rw [role_of_reserved (by rw [hkind]; rfl), role_of_reserved (by rw [hkind]; rfl), hkind]
    simp [reservedRole, h.startsStatement_eq, startsStatement_afterTerminator, hblock, lastIs,
      lastIn, h.last, hmember]
  · simp [role, hkind, braceRole, hclasses, h.startsStatement_eq,
      startsStatement_afterTerminator, hblock, h.last, Kind.opensBlock]

end BehindBrace

/-- Behind the closing brace of the tokens `ts`, a line break in front of `t` puts at most a
terminator there. All else is placed as it is on one line, unless `t` opens a statement. -/
theorem placeFrom_line_break {nl : Token} {ts : List Token} {newline : Bool}
    (hnl : nl.kind = .newline) (ht : t.kind ≠ .newline) :
    let r := runFrom p newline last ts (t :: rest)
    r.newline = false → r.place.BehindBrace →
      (r.place.context = .block → r.place.afterTerminator.role t rest ∉ openings) →
        placeFrom module p newline last (ts ++ nl :: t :: rest) =
          r.output ++ r.place.breakBefore t ++
            (placeFrom module p newline last (ts ++ t :: rest)).drop r.output.length := by
  intro r hline hbrace hopens
  have hskip : withoutLines (nl :: t :: rest) = withoutLines (t :: rest) :=
    withoutLines_newline hnl
  have hsame : placeFrom module p newline last (ts ++ t :: rest) =
      r.output ++ placeFrom module r.place false r.last (t :: rest) := by
    rw [placeFrom_append, hline]
  rw [hsame, List.drop_left, placeFrom_append, runFrom_congr hskip, List.append_assoc,
    Place.placeFrom_newline hnl, hbrace.placeFrom_newline hopens ht]

end Place

/-- Two pairs of braces are two blocks on two lines, and a block and an object on one line. -/
example :
    let placed (kinds : List Kind) : List Kind :=
      (placeModule (kinds.map fun k => ⟨k, [], .start, .start⟩)).map kind
    placed [.leftBrace, .rightBrace, .newline, .leftBrace, .rightBrace] =
        [.blockBrace, .rightBrace, .terminator, .blockBrace, .rightBrace, .terminator] ∧
      placed [.leftBrace, .rightBrace, .leftBrace, .rightBrace] =
        [.blockBrace, .rightBrace, .leftBrace, .rightBrace, .terminator] := by
  decide

end Token

end InlineTemplates
