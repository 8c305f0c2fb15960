import InlineTemplates.Proofs.StatementReading

/-!
# Trees of statements

The statements that keep their shape when their bodies are printed without braces, and the words
that are read as them. Two things can go wrong with a body: an `else` behind it goes to the last
`if` in it that has none, and a `while` in the body of a do-loop ends that loop, unless it stands
right behind the `do`.
-/

namespace InlineTemplates

/-! ## Where statements stand -/

/-- Where a statement stands in the bodies around it that have no braces. -/
inductive Spot where
  /-- In no do-loop. -/
  | free
  /-- Right behind `do`. -/
  | behindDo
  /-- In a do-loop, but not right behind its `do`. -/
  | inDo
deriving DecidableEq

namespace Spot

/-- Where the body of a statement stands, other than that of a do-loop. -/
def inner : Spot → Spot
  | free => free
  | behindDo | inDo => inDo

theorem inner_ne_behindDo (spot : Spot) : spot.inner ≠ .behindDo := by cases spot <;> decide

end Spot

/-- What nests in the statements of a program. -/
inductive StatementPart where
  /-- A statement; `closed` says that an `else` behind it is not its own. -/
  | statement (spot : Spot) (closed : Bool)
  | block
  | handler

namespace Node

/-! ## Trees -/

/-- An expression of operators that may be missing. -/
inductive IsOptional : List Node → Prop
  | none : IsOptional []
  | some {e : Node} (h : e.IsOperatorTree) : IsOptional [e]

inductive IsVariable : Node → Prop
  | mk {loc loc' : Option Location} {x : Text} {initial : List Node} (hx : x.IsIdentifier)
    (h : IsOptional initial) : IsVariable (.declarator ⟨loc, []⟩ (.name ⟨loc', []⟩ x) initial)

/-- A declaration of variables. -/
inductive IsDeclaration : Node → Prop
  | mk {loc : Option Location} (kind : VarKind) {n : Node} {ns : List Node} (h : n.IsVariable)
    (hmore : ∀ m ∈ ns, IsVariable m) : IsDeclaration (.varDecl ⟨loc, []⟩ kind (n :: ns))

/-- What a counting loop starts with. -/
inductive IsLoopStart : List Node → Prop
  | expression {es : List Node} (h : IsOptional es) : IsLoopStart es
  | declaration {n : Node} (h : n.IsDeclaration) : IsLoopStart [n]

/-- The trees of statements without comments that are read back as they are printed. Their
expressions are trees of operators. -/
inductive IsNested : StatementPart → Node → Prop
  | expression {loc : Option Location} {spot : Spot} {closed : Bool} {e : Node}
    (h : e.IsOperatorTree) : IsNested (.statement spot closed) (.exprStmt ⟨loc, []⟩ e)
  | empty {loc : Option Location} {spot : Spot} {closed : Bool} :
    IsNested (.statement spot closed) (.emptyStmt ⟨loc, []⟩)
  | declaration {spot : Spot} {closed : Bool} {n : Node} (h : n.IsDeclaration) :
    IsNested (.statement spot closed) n
  | returns {loc : Option Location} {spot : Spot} {closed : Bool} {es : List Node}
    (h : IsOptional es) : IsNested (.statement spot closed) (.returnStmt ⟨loc, []⟩ es)
  | throws {loc : Option Location} {spot : Spot} {closed : Bool} {e : Node}
    (h : e.IsOperatorTree) : IsNested (.statement spot closed) (.throwStmt ⟨loc, []⟩ e)
  | breaks {loc : Option Location} {spot : Spot} {closed : Bool} :
    IsNested (.statement spot closed) (.breakStmt ⟨loc, []⟩)
  | continues {loc : Option Location} {spot : Spot} {closed : Bool} :
    IsNested (.statement spot closed) (.continueStmt ⟨loc, []⟩)
  /-- An `if` without `else` cannot stand in front of one. -/
  | ifThen {loc : Option Location} {spot : Spot} {e n : Node} (he : e.IsOperatorTree)
    (h : IsNested (.statement spot.inner false) n) :
    IsNested (.statement spot false) (.ifStmt ⟨loc, []⟩ e n [])
  | ifElse {loc : Option Location} {spot : Spot} {closed : Bool} {e n m : Node}
    (he : e.IsOperatorTree) (h : IsNested (.statement spot.inner true) n)
    (helse : IsNested (.statement spot.inner closed) m) :
    IsNested (.statement spot closed) (.ifStmt ⟨loc, []⟩ e n [m])
  | counting {loc : Option Location} {spot : Spot} {closed : Bool} {initial test update : List Node}
    {n : Node} (hinitial : IsLoopStart initial) (htest : IsOptional test)
    (hupdate : IsOptional update) (h : IsNested (.statement spot.inner closed) n) :
    IsNested (.statement spot closed) (.forStmt ⟨loc, []⟩ initial test update n)
  | iterating {loc loc' : Option Location} {spot : Spot} {closed : Bool} (kind : VarKind)
    (runs : Iteration) {x : Text} {e n : Node} (hx : x.IsIdentifier) (he : e.IsOperatorTree)
    (h : IsNested (.statement spot.inner closed) n) :
    IsNested (.statement spot closed) (.forIn ⟨loc, []⟩ kind runs (.name ⟨loc', []⟩ x) e n)
  /-- Deeper in the body of a do-loop a `while` ends the loop. -/
  | whileLoop {loc : Option Location} {spot : Spot} {closed : Bool} {e n : Node}
    (hspot : spot ≠ .inDo) (he : e.IsOperatorTree)
    (h : IsNested (.statement spot.inner closed) n) :
    IsNested (.statement spot closed) (.whileStmt ⟨loc, []⟩ e n)
  | doLoop {loc : Option Location} {spot : Spot} {closed : Bool} {e n : Node}
    (he : e.IsOperatorTree) (h : IsNested (.statement .behindDo false) n) :
    IsNested (.statement spot closed) (.doWhile ⟨loc, []⟩ n e)
  | tries {loc : Option Location} {spot : Spot} {closed : Bool} {n : Node}
    {handler finalizer : List Node} (h : IsNested .block n)
    (hhandler : ∀ m ∈ handler, IsNested .handler m) (hone : handler.length ≤ 1)
    (hfinalizer : ∀ m ∈ finalizer, IsNested .block m) (hone' : finalizer.length ≤ 1) :
    IsNested (.statement spot closed) (.tryStmt ⟨loc, []⟩ n handler finalizer)
  | inBlock {spot : Spot} {closed : Bool} {n : Node} (h : IsNested .block n) :
    IsNested (.statement spot closed) n
  | block {loc stop : Option Location} {ns : List Node}
    (h : ∀ n ∈ ns, IsNested (.statement .free false) n) :
    IsNested .block (.block ⟨loc, []⟩ stop [] ns)
  | catches {loc : Option Location} {n : Node} (h : IsNested .block n) :
    IsNested .handler (.catchClause ⟨loc, []⟩ [] n)
  | catchesAs {loc loc' : Option Location} {x : Text} {n : Node} (hx : x.IsIdentifier)
    (h : IsNested .block n) :
    IsNested .handler (.catchClause ⟨loc, []⟩ [.name ⟨loc', []⟩ x] n)

end Node

/-! ## Words that make statements -/

namespace Grammar

variable {loc loc' : Option Location} {x y : Text} {closed : Bool} {e n m : Node}
  {es ns : List Node} {we wl wr wb : List Word}

/-! ### Parts -/

theorem makesAll_missing {P : Node → List Token → Prop} : MakesAll (Maybe P) [] [] := by
  intro ts hts
  obtain rfl := List.map_eq_nil_iff.1 hts
  exact ⟨[], rfl, .none⟩

theorem makesAll_given {P : Node → List Token → Prop} (h : Makes P n wl) :
    MakesAll (Maybe P) [n] wl := by
  intro ts hts
  obtain ⟨m, hm, h⟩ := h ts hts
  exact ⟨[m], by rw [List.map_singleton, List.map_singleton, hm], .some h⟩

theorem makes_bareVariable : Makes Declares (.declarator ⟨loc, []⟩ (.name ⟨loc', []⟩ x) [])
    [⟨.name, x⟩] := by
  intro ts hts
  obtain ⟨t, rfl, ht⟩ := List.map_eq_singleton_iff.1 hts
  exact ⟨_, by simp [Head.ofLoc, Reader.name, text_of_word ht], .bare (kind_of_word ht)⟩

theorem makes_variable (he : Makes Expressed e we) :
    Makes Declares (.declarator ⟨loc, []⟩ (.name ⟨loc', []⟩ x) [e])
      (⟨.name, x⟩ :: ⟨.assign, y⟩ :: we) := by
  intro ts hts
  simp only [List.map_eq_cons_iff] at hts
  obtain ⟨t, _, rfl, ht, a, us, rfl, ha, hus⟩ := hts
  obtain ⟨e', he', h⟩ := he us hus
  exact ⟨_, by simp [Head.ofLoc, Reader.name, text_of_word ht, he'],
    .value (kind_of_word ht) (kind_of_word ha) h⟩

theorem makesAll_lastVariable : MakesAll DeclaresMore [] [] := by
  intro ts hts
  obtain rfl := List.map_eq_nil_iff.1 hts
  exact ⟨[], rfl, .last⟩

theorem makesAll_moreVariables (h : Makes Declares n wl) (hmore : MakesAll DeclaresMore ns wr) :
    MakesAll DeclaresMore (n :: ns) (⟨.comma, y⟩ :: (wl ++ wr)) := by
  intro ts hts
  simp only [List.map_eq_cons_iff, List.map_eq_append_iff] at hts
  obtain ⟨c, _, rfl, hc, us, vs, rfl, hus, hvs⟩ := hts
  obtain ⟨n', hn, h⟩ := h us hus
  obtain ⟨ns', hns, hmore⟩ := hmore vs hvs
  exact ⟨n' :: ns', by simp [hn, hns], .more (kind_of_word hc) h hmore⟩

theorem makes_declaration {k : VarKind} (h : Makes Declares n wl)
    (hmore : MakesAll DeclaresMore ns wr) :
    Makes DeclaresAll (.varDecl ⟨loc, []⟩ k (n :: ns)) (k.word :: (wl ++ wr)) := by
  intro ts hts
  simp only [List.map_eq_cons_iff, List.map_eq_append_iff] at hts
  obtain ⟨t, _, rfl, ht, us, vs, rfl, hus, hvs⟩ := hts
  obtain ⟨n', hn, h⟩ := h us hus
  obtain ⟨ns', hns, hmore⟩ := hmore vs hvs
  exact ⟨_, by simp [Head.ofLoc, Node.unplacedOfList_eq_map, hn, hns],
    .mk (kind_of_word ht) h hmore⟩

/-! ### Statements that a terminator ends -/

theorem makes_varDecl (h : Makes DeclaresAll n wl) :
    Makes (ReadsStatement closed) n (wl ++ [⟨.terminator, x⟩]) := by
  intro ts hts
  simp only [List.map_eq_append_iff, List.map_eq_singleton_iff] at hts
  obtain ⟨us, _, rfl, hus, z, rfl, hz⟩ := hts
  obtain ⟨n', hn, h⟩ := h us hus
  exact ⟨n', hn, reads_varDecl h (kind_of_word hz)⟩

theorem makes_exprStmt (he : Makes Expressed e we) :
    Makes (ReadsStatement closed) (.exprStmt ⟨loc, []⟩ e) (we ++ [⟨.terminator, x⟩]) := by
  intro ts hts
  simp only [List.map_eq_append_iff, List.map_eq_singleton_iff] at hts
  obtain ⟨us, _, rfl, hus, z, rfl, hz⟩ := hts
  obtain ⟨e', he', h⟩ := he us hus
  obtain ⟨t, us, rfl, -⟩ := h.starts
  exact ⟨_, by simp [Head.ofLoc, he'], reads_exprStmt h (kind_of_word hz)⟩

theorem makes_emptyStmt :
    Makes (ReadsStatement closed) (.emptyStmt ⟨loc, []⟩) [⟨.terminator, ";"⟩] := by
  intro ts hts
  obtain ⟨z, rfl, hz⟩ := List.map_eq_singleton_iff.1 hts
  exact ⟨_, by simp [Head.ofLoc], reads_emptyStmt (kind_of_word hz) (text_of_word hz)⟩

theorem makes_breakStmt : Makes (ReadsStatement closed) (.breakStmt ⟨loc, []⟩)
    [⟨.breakWord, x⟩, ⟨.terminator, y⟩] := by
  intro ts hts
  simp only [List.map_eq_cons_iff, List.map_eq_nil_iff] at hts
  obtain ⟨t, _, rfl, ht, z, _, rfl, hz, rfl⟩ := hts
  exact ⟨_, by simp [Head.ofLoc], reads_breakStmt (kind_of_word ht) (kind_of_word hz)⟩

theorem makes_continueStmt : Makes (ReadsStatement closed) (.continueStmt ⟨loc, []⟩)
    [⟨.continueWord, x⟩, ⟨.terminator, y⟩] := by
  intro ts hts
  simp only [List.map_eq_cons_iff, List.map_eq_nil_iff] at hts
  obtain ⟨t, _, rfl, ht, z, _, rfl, hz, rfl⟩ := hts
  exact ⟨_, by simp [Head.ofLoc], reads_continueStmt (kind_of_word ht) (kind_of_word hz)⟩

theorem makes_returnStmt (he : MakesAll (Maybe Expressed) es we) :
    Makes (ReadsStatement closed) (.returnStmt ⟨loc, []⟩ es)
      (⟨.returnWord, x⟩ :: (we ++ [⟨.terminator, y⟩])) := by
  intro ts hts
  simp only [List.map_eq_cons_iff, List.map_eq_append_iff, List.map_eq_nil_iff] at hts
  obtain ⟨t, _, rfl, ht, us, _, rfl, hus, z, _, rfl, hz, rfl⟩ := hts
  obtain ⟨es', hes, h⟩ := he us hus
  exact ⟨_, by simp [Head.ofLoc, Node.unplacedOfList_eq_map, hes],
    reads_returnStmt (kind_of_word ht) h (kind_of_word hz)⟩

theorem makes_throwStmt (he : Makes Expressed e we) :
    Makes (ReadsStatement closed) (.throwStmt ⟨loc, []⟩ e)
      (⟨.throwWord, x⟩ :: (we ++ [⟨.terminator, y⟩])) := by
  intro ts hts
  simp only [List.map_eq_cons_iff, List.map_eq_append_iff, List.map_eq_nil_iff] at hts
  obtain ⟨t, _, rfl, ht, us, _, rfl, hus, z, _, rfl, hz, rfl⟩ := hts
  obtain ⟨e', he', h⟩ := he us hus
  exact ⟨_, by simp [Head.ofLoc, he'],
    reads_throwStmt (kind_of_word ht) h (kind_of_word hz)⟩

/-! ### Statements with bodies -/

def headed (w : Word) (ws vs : List Word) : List Word :=
  w :: ⟨.leftParen, "("⟩ :: (ws ++ ⟨.rightParen, ")"⟩ :: vs)

theorem tokens_of_headed {w : Word} {ts : List Token} (hts : ts.map Token.word = headed w wl wr) :
    ∃ (t o : Token) (us : List Token) (c : Token) (vs : List Token),
      ts = t :: o :: (us ++ c :: vs) ∧ t.kind = w.kind ∧ o.kind = .leftParen ∧
        us.map Token.word = wl ∧ c.kind = .rightParen ∧ vs.map Token.word = wr := by
  simp only [headed, List.map_eq_cons_iff, List.map_eq_append_iff] at hts
  obtain ⟨t, _, rfl, ht, o, _, rfl, ho, us, _, rfl, hus, c, vs, rfl, hc, hvs⟩ := hts
  exact ⟨t, o, us, c, vs, rfl, kind_of_word ht, kind_of_word ho, hus, kind_of_word hc, hvs⟩

theorem makes_ifStmt (he : Makes Expressed e we) (h : Makes (ReadsStatement false) n wb) :
    Makes (ReadsStatement false) (.ifStmt ⟨loc, []⟩ e n []) (headed ⟨.ifWord, x⟩ we wb) := by
  intro ts hts
  obtain ⟨t, o, us, c, vs, rfl, ht, ho, hus, hc, hvs⟩ := tokens_of_headed hts
  obtain ⟨e', he', he⟩ := he us hus
  obtain ⟨n', hn, h⟩ := h vs hvs
  exact ⟨_, by simp [Head.ofLoc, he', hn], reads_ifStmt ht ho he hc h⟩

theorem makes_ifElse (he : Makes Expressed e we) (h : Makes (ReadsStatement true) n wl)
    (helse : Makes (ReadsStatement closed) m wr) :
    Makes (ReadsStatement closed) (.ifStmt ⟨loc, []⟩ e n [m])
      (headed ⟨.ifWord, x⟩ we (wl ++ ⟨.elseWord, y⟩ :: wr)) := by
  intro ts hts
  obtain ⟨t, o, us, c, vs, rfl, ht, ho, hus, hc, hvs⟩ := tokens_of_headed hts
  simp only [List.map_eq_cons_iff, List.map_eq_append_iff] at hvs
  obtain ⟨vl, _, rfl, hvl, l, vr, rfl, hl, hvr⟩ := hvs
  obtain ⟨e', he', he⟩ := he us hus
  obtain ⟨n', hn, h⟩ := h vl hvl
  obtain ⟨m', hm, helse⟩ := helse vr hvr
  exact ⟨_, by simp [Head.ofLoc, he', hn, hm],
    reads_ifElse ht ho he hc h (kind_of_word hl) helse⟩

theorem makes_whileStmt (he : Makes Expressed e we) (h : Makes (ReadsStatement closed) n wb) :
    Makes (ReadsStatement closed) (.whileStmt ⟨loc, []⟩ e n) (headed ⟨.whileWord, x⟩ we wb) := by
  intro ts hts
  obtain ⟨t, o, us, c, vs, rfl, ht, ho, hus, hc, hvs⟩ := tokens_of_headed hts
  obtain ⟨e', he', he⟩ := he us hus
  obtain ⟨n', hn, h⟩ := h vs hvs
  exact ⟨_, by simp [Head.ofLoc, he', hn], reads_whileStmt ht ho he hc h⟩

theorem makes_doWhile (h : Makes (ReadsStatement false) n wb) (he : Makes Expressed e we) :
    Makes (ReadsStatement closed) (.doWhile ⟨loc, []⟩ n e)
      (⟨.doWord, x⟩ :: (wb ++ headed ⟨.whileWord, y⟩ we [⟨.terminator, ";"⟩])) := by
  intro ts hts
  simp only [List.map_eq_cons_iff, List.map_eq_append_iff] at hts
  obtain ⟨t, _, rfl, ht, vs, _, rfl, hvs, hws⟩ := hts
  obtain ⟨w, o, us, c, _, rfl, hw, ho, hus, hc, hzs⟩ := tokens_of_headed hws
  obtain ⟨z, rfl, hz⟩ := List.map_eq_singleton_iff.1 hzs
  obtain ⟨n', hn, h⟩ := h vs hvs
  obtain ⟨e', he', he⟩ := he us hus
  exact ⟨_, by simp [Head.ofLoc, he', hn],
    reads_doWhile (kind_of_word ht) h hw ho he hc (kind_of_word hz)⟩

theorem makesAll_loopStart (h : MakesAll (Maybe Expressed) es we) : MakesAll StartsLoop es we := by
  intro ts hts
  obtain ⟨es', hes, h⟩ := h ts hts
  exact ⟨es', hes, .expression h⟩

theorem makesAll_loopDeclaration (h : Makes DeclaresAll n wl) : MakesAll StartsLoop [n] wl := by
  intro ts hts
  obtain ⟨n', hn, h⟩ := h ts hts
  exact ⟨[n'], by rw [List.map_singleton, List.map_singleton, hn], .declaration h⟩

theorem makes_forStmt {test update : List Node} {wt wu : List Word}
    (hinitial : MakesAll StartsLoop ns wl) (htest : MakesAll (Maybe Expressed) test wt)
    (hupdate : MakesAll (Maybe Expressed) update wu) (h : Makes (ReadsStatement closed) n wb) :
    Makes (ReadsStatement closed) (.forStmt ⟨loc, []⟩ ns test update n)
      (headed ⟨.forWord, x⟩ (wl ++ ⟨.terminator, ";"⟩ :: (wt ++ ⟨.terminator, ";"⟩ :: wu)) wb) := by
  intro ts hts
  obtain ⟨t, o, us, c, vs, rfl, ht, ho, hus, hc, hvs⟩ := tokens_of_headed hts
  simp only [List.map_eq_cons_iff, List.map_eq_append_iff] at hus
  obtain ⟨us, _, rfl, hus, z, _, rfl, hz, ut, _, rfl, hut, z', uu, rfl, hz', huu⟩ := hus
  obtain ⟨ns', hns, hinitial⟩ := hinitial us hus
  obtain ⟨test', htest', htest⟩ := htest ut hut
  obtain ⟨update', hupdate', hupdate⟩ := hupdate uu huu
  obtain ⟨n', hn, h⟩ := h vs hvs
  refine ⟨.forStmt (.ofLoc t.start) ns' test' update' n', ?_, ?_⟩
  · simp [Head.ofLoc, Node.unplacedOfList_eq_map, hns, htest', hupdate', hn]
  · simpa using reads_forStmt ht ho hinitial (kind_of_word hz) htest (kind_of_word hz') hupdate hc h

theorem makes_forIn {k : VarKind} {runs : Iteration} (he : Makes Expressed e we)
    (h : Makes (ReadsStatement closed) n wb) :
    Makes (ReadsStatement closed) (.forIn ⟨loc, []⟩ k runs (.name ⟨loc', []⟩ x) e n)
      (headed ⟨.forWord, y⟩ (k.word :: ⟨.name, x⟩ :: runs.word :: we) wb) := by
  intro ts hts
  obtain ⟨t, o, us, c, vs, rfl, ht, ho, hus, hc, hvs⟩ := tokens_of_headed hts
  simp only [List.map_eq_cons_iff] at hus
  obtain ⟨v, _, rfl, hv, a, _, rfl, ha, u, us, rfl, hu, hus⟩ := hus
  obtain ⟨e', he', he⟩ := he us hus
  obtain ⟨n', hn, h⟩ := h vs hvs
  exact ⟨_, by simp [Head.ofLoc, Reader.name, text_of_word ha, he', hn],
    reads_forIn ht ho (kind_of_word hv) (kind_of_word ha) (kind_of_word hu) he hc h⟩

/-! ### Blocks -/

theorem makesAll_lines_nil : MakesAll Lines [] [] := by
  intro ts hts
  obtain rfl := List.map_eq_nil_iff.1 hts
  exact ⟨[], rfl, .nil⟩

theorem makesAll_lines_cons (h : Makes (ReadsStatement false) n wl) (hmore : MakesAll Lines ns wr) :
    MakesAll Lines (n :: ns) (wl ++ wr) := by
  intro ts hts
  obtain ⟨us, vs, rfl, hus, hvs⟩ := List.map_eq_append_iff.1 hts
  obtain ⟨n', hn, h⟩ := h us hus
  obtain ⟨ns', hns, hmore⟩ := hmore vs hvs
  exact ⟨n' :: ns', by simp [hn, hns], .statement h hmore⟩

theorem makesAll_lines_filler (hx : x ≠ ";") (h : MakesAll Lines ns wl) :
    MakesAll Lines ns (⟨.terminator, x⟩ :: wl) := by
  intro ts hts
  obtain ⟨z, us, rfl, hz, hus⟩ := List.map_eq_cons_iff.1 hts
  obtain ⟨ns', hns, h⟩ := h us hus
  exact ⟨ns', hns, .filler (kind_of_word hz) (by rwa [text_of_word hz]) h⟩

theorem makes_block {stop : Option Location} (h : MakesAll Lines ns wl) :
    Makes ReadsBlock (.block ⟨loc, []⟩ stop [] ns)
      (⟨.blockBrace, x⟩ :: (wl ++ [⟨.rightBrace, y⟩])) := by
  intro ts hts
  simp only [List.map_eq_cons_iff, List.map_eq_append_iff, List.map_eq_nil_iff] at hts
  obtain ⟨o, _, rfl, ho, us, _, rfl, hus, c, _, rfl, hc, rfl⟩ := hts
  obtain ⟨ns', hns, h⟩ := h us hus
  exact ⟨_, by simp [Head.ofLoc, Node.unplacedOfList_eq_map, hns],
    reads_block (kind_of_word ho) h (kind_of_word hc)⟩

theorem makes_blockStatement (h : Makes ReadsBlock n wl) : Makes (ReadsStatement closed) n wl := by
  intro ts hts
  obtain ⟨n', hn, h⟩ := h ts hts
  exact ⟨n', hn, h.statement⟩

theorem makes_catch (h : Makes ReadsBlock n wb) :
    Makes ReadsHandler (.catchClause ⟨loc, []⟩ [] n) (⟨.catchWord, x⟩ :: wb) := by
  intro ts hts
  obtain ⟨t, us, rfl, ht, hus⟩ := List.map_eq_cons_iff.1 hts
  obtain ⟨n', hn, h⟩ := h us hus
  exact ⟨_, by simp [Head.ofLoc, hn], reads_handler (kind_of_word ht) .nothing h⟩

theorem makes_catchAs (h : Makes ReadsBlock n wb) :
    Makes ReadsHandler (.catchClause ⟨loc, []⟩ [.name ⟨loc', []⟩ x] n)
      (headed ⟨.catchWord, y⟩ [⟨.name, x⟩] wb) := by
  intro ts hts
  obtain ⟨t, o, us, c, vs, rfl, ht, ho, hus, hc, hvs⟩ := tokens_of_headed hts
  obtain ⟨a, rfl, ha⟩ := List.map_eq_singleton_iff.1 hus
  obtain ⟨n', hn, h⟩ := h vs hvs
  exact ⟨_, by simp [Head.ofLoc, Reader.name, text_of_word ha, hn],
    reads_handler ht (.name ho (kind_of_word ha) hc) h⟩

theorem makesAll_finally (h : Makes ReadsBlock n wb) :
    MakesAll Finally [n] (⟨.finallyWord, x⟩ :: wb) := by
  intro ts hts
  obtain ⟨t, us, rfl, ht, hus⟩ := List.map_eq_cons_iff.1 hts
  obtain ⟨n', hn, h⟩ := h us hus
  exact ⟨[n'], by rw [List.map_singleton, List.map_singleton, hn], .block (kind_of_word ht) h⟩

theorem makesAll_noFinally : MakesAll Finally [] [] := by
  intro ts hts
  obtain rfl := List.map_eq_nil_iff.1 hts
  exact ⟨[], rfl, .nothing⟩

theorem makes_tryStmt (h : Makes ReadsBlock n wb) (hhandler : MakesAll (Maybe ReadsHandler) es wl)
    (hfinally : MakesAll Finally ns wr) :
    Makes (ReadsStatement closed) (.tryStmt ⟨loc, []⟩ n es ns)
      (⟨.tryWord, x⟩ :: (wb ++ (wl ++ wr))) := by
  intro ts hts
  simp only [List.map_eq_cons_iff, List.map_eq_append_iff] at hts
  obtain ⟨t, _, rfl, ht, us, _, rfl, hus, vl, vr, rfl, hvl, hvr⟩ := hts
  obtain ⟨n', hn, h⟩ := h us hus
  obtain ⟨es', hes, hhandler⟩ := hhandler vl hvl
  obtain ⟨ns', hns, hfinally⟩ := hfinally vr hvr
  exact ⟨_, by simp [Head.ofLoc, Node.unplacedOfList_eq_map, hn, hes, hns],
    reads_tryStmt (kind_of_word ht) h hhandler hfinally⟩

end Grammar

end InlineTemplates
