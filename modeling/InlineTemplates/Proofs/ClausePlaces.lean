import InlineTemplates.Proofs.Visits

/-!
# Words in the clauses of a module

In the clause of an import or an export each word gets its role from the words around it: `as`,
`from` and `default` are keywords where they act as such, and `async`, `get` and `set` are taken
for the modifiers of a member in front of a name in braces, which `as` counts as.
-/

namespace InlineTemplates

namespace Token

namespace Place

/-! ## Steps over words -/

/-- From `p` on, tokens with the words `ws` get the roles, in front of tokens with words of which
`ahead` holds, and `q` is what is known behind them. -/
def Lays (p : Place) (ws roles : List Word) (q : Place) (ahead : List Word → Prop) : Prop :=
  ∀ (module : Bool) (last : Option Token) (ts rest : List Token), ts.map Token.word = ws →
    ahead (rest.map Token.word) → ∃ (us : List Token) (last' : Option Token),
      placeFrom module p false last (ts ++ rest) = us ++ placeFrom module q false last' rest ∧
        us.map Token.word = roles

variable {p q q' : Place} {ws vs roles roles' : List Word} {w : Word} {k : Kind}
  {ahead ahead' : List Word → Prop} {braces : Bool}

theorem lays_nil : Lays p [] [] p ahead := by
  intro module last ts rest hts _
  obtain rfl := List.map_eq_nil_iff.1 hts
  exact ⟨[], last, rfl, rfl⟩

theorem Lays.trans (h : Lays p ws roles q ahead) (h' : Lays q vs roles' q' ahead')
    (hahead : ∀ rest, ahead' rest → ahead (vs ++ rest)) :
    Lays p (ws ++ vs) (roles ++ roles') q' ahead' := by
  intro module last ts rest hts hrest
  obtain ⟨ts, ts', rfl, hts, hts'⟩ := List.map_eq_append_iff.1 hts
  have hfront : ahead ((ts' ++ rest).map Token.word) := by
    rw [List.map_append, hts']
    exact hahead _ hrest
  obtain ⟨us, last, heq, hus⟩ := h module last ts (ts' ++ rest) hts hfront
  obtain ⟨us', last', heq', hus'⟩ := h' module last ts' rest hts' hrest
  exact ⟨us ++ us', last', by rw [List.append_assoc, heq, heq', List.append_assoc],
    by rw [List.map_append, hus, hus']⟩

theorem Lays.weaken (h : Lays p ws roles q ahead) (hahead : ∀ rest, ahead' rest → ahead rest) :
    Lays p ws roles q ahead' :=
  fun module last ts rest hts hrest => h module last ts rest hts (hahead _ hrest)

theorem lays_semicolon (p : Place) (ahead : List Word → Prop) :
    Lays p [⟨.semicolon, ";"⟩] [⟨.terminator, ";"⟩] p.afterTerminator ahead := by
  intro module last ts rest hts _
  obtain ⟨t, rfl, ht⟩ := List.map_eq_singleton_iff.1 hts
  obtain ⟨hkind, htext⟩ := Word.mk.inj ht
  refine ⟨[terminatorOf t], last, placeFrom_semicolon hkind, ?_⟩
  simp [Token.word, terminatorOf, htext]

theorem placeFrom_lines {ls : List Token} (hls : ∀ l ∈ ls, l.kind = .newline) (module : Bool)
    (last : Option Token) (ts : List Token) :
    placeFrom module p false last (ls ++ ts) = placeFrom module p (!ls.isEmpty) last ts := by
  have hall (newline : Bool) : placeFrom module p newline last (ls ++ ts) =
      placeFrom module p (newline || !ls.isEmpty) last ts := by
    induction ls generalizing newline with
    | nil => simp
    | cons l ls ih =>
      obtain ⟨hl, hls⟩ := List.forall_mem_cons.1 hls
      rw [List.cons_append, placeFrom_newline hl, ih hls]
      simp
  exact hall false

/-- One word with its role, in a line of its own or not, where no statement ends. -/
theorem lays_step (ls : List Word) (hls : ∀ l ∈ ls, l.kind = .newline)
    (hloops : p.loops = []) (hline : w.kind ≠ .newline) (hsemicolon : w.kind ≠ .semicolon)
    (hends : p.endsBefore w.kind (!ls.isEmpty) = false) (hopen : p.closedBy k ≠ some .loopTail)
    (hrole : ∀ (t : Token) (rest : List Token), t.word = w → ahead (rest.map Token.word) →
      p.role t rest = k) :
    Lays p (ls ++ [w]) [⟨k, w.text⟩] (p.after k) ahead := by
  intro module last ts rest hts hrest
  obtain ⟨ls, ts, rfl, rfl, ht⟩ := List.map_eq_append_iff.1 hts
  obtain ⟨t, rfl, rfl⟩ := List.map_eq_singleton_iff.1 ht
  have hcloses : p.closesLoop t.kind = false := by simp [closesLoop, hloops]
  have hk := hrole t rest rfl hrest
  have hends : p.endsBefore t.kind (!ls.isEmpty) = false := by simpa using hends
  rw [word_kind] at hline hsemicolon
  refine ⟨[{ t with kind := k }], some { t with kind := k }, ?_, rfl⟩
  rw [List.append_assoc, placeFrom_lines (by simpa using hls), List.singleton_append, placeFrom,
    if_neg hline, if_neg hsemicolon]
  simp [hcloses, hends, hk, hopen]

/-! ## Clauses -/

/-- What is open in a clause, in its braces or outside them. -/
def clauseStack (braces : Bool) : List Context := if braces then [.object, .block] else [.block]

/-- A place in the clause of an import or an export, in its braces or outside them. -/
structure InClauseOf (braces : Bool) (p : Place) : Prop where
  stack : p.stack = clauseStack braces
  clause : p.inClause = true
  loops : p.loops = []
  classes : p.classes = []

def isClauseKind : Kind → Bool
  | .name | .string | .defaultWord | .comma | .star | .asWord | .fromWord => true
  | _ => false

namespace InClauseOf

theorem after (h : InClauseOf braces p) (hk : isClauseKind k)
    (hlast : k = .defaultWord → p.lastIs .exportWord = false) : InClauseOf braces (p.after k) := by
  have hkinds : p.stackAfter k = p.stack ∧ k ≠ .classWord ∧ k ≠ .classDeclaration ∧
      k ≠ .classBrace ∧ k ≠ .doWord ∧ k ≠ .importWord ∧ k ≠ .exportWord := by
    revert hk
    cases k <;> first | exact (absurd · Bool.false_ne_true) | simp [stackAfter]
  obtain ⟨hstack, hclass, hdeclaration, hbrace, hdo, himport, hexport⟩ := hkinds
  have hkeep : ([Kind.defaultWord, .constWord, .letWord, .varWord, .functionDeclaration,
      .classDeclaration, .asyncWord].contains k && p.lastIs .exportWord) = false := by
    by_cases hdefault : k = .defaultWord
    · rw [hlast hdefault, Bool.and_false]
    · revert hk hdefault
      cases k <;> first | exact (absurd · Bool.false_ne_true) | simp
  have hclause : p.inClauseAfter k = true := by
    rw [inClauseAfter, if_neg (by simp [himport, hexport]), if_neg (by rw [hkeep]; decide)]
    exact h.clause
  exact ⟨hstack.trans h.stack, hclause, by simp [Place.after, hdo, h.loops],
    by simp [Place.after, hclass, hdeclaration, hbrace, h.classes]⟩

theorem after_leftBrace (h : InClauseOf false p) : InClauseOf true (p.after .leftBrace) :=
  ⟨by simp [Place.after, stackAfter, h.stack, clauseStack],
    by simp [Place.after, inClauseAfter, h.clause], by simp [Place.after, h.loops],
    by simp [Place.after, h.classes]⟩

theorem after_rightBrace (h : InClauseOf true p) : InClauseOf false (p.after .rightBrace) :=
  ⟨by simp [Place.after, stackAfter, h.stack, clauseStack],
    by simp [Place.after, inClauseAfter, h.clause], by simp [Place.after, h.loops],
    by simp [Place.after, h.classes]⟩

end InClauseOf

theorem lays_word (hloops : p.loops = []) (hstack : p.stack = clauseStack braces)
    (hline : w.kind ≠ .newline) (hsemicolon : w.kind ≠ .semicolon) (helse : w.kind ≠ .elseWord)
    (hbrace : w.kind = .rightBrace → braces)
    (hrole : ∀ (t : Token) (rest : List Token), t.word = w → ahead (rest.map Token.word) →
      p.role t rest = k) :
    Lays p [w] [⟨k, w.text⟩] (p.after k) ahead := by
  refine lays_step [] (by simp) hloops hline hsemicolon ?_ ?_ hrole
  · have hinLines : w.kind = .rightBrace → p.inLines = false := fun hk => by
      simp [inLines, context, hstack, clauseStack, hbrace hk]
    by_cases hk : w.kind = .rightBrace
    · simp [endsBefore, closesLoop, hloops, hk, hinLines hk]
    · simp [endsBefore, closesLoop, hloops, helse, hk]
  · intro hclosed
    have hhead := head?_of_closedBy hclosed
    rw [hstack] at hhead
    cases braces <;> simp [clauseStack] at hhead

/-! ## Items -/

/-- What stands on one side of `as`: a name, `default` or a string. -/
def IsItemWord (w : Word) : Prop :=
  w.kind = .name ∨ w = ⟨.defaultWord, "default"⟩ ∨ w.kind = .string

def startsItem (p : Place) : Bool := p.lastIn [.leftBrace, .comma]

def alone (w : Word) : Word := if w.kind = .defaultWord then ⟨.name, w.text⟩ else w

def EndsItem (ws : List Word) : Prop := ∃ w ∈ ws.head?, w.kind = .comma ∨ w.kind = .rightBrace

theorem next_of_words {rest : List Token} (hw : (rest.map Token.word).head? = some w)
    (hline : w.kind ≠ .newline) :
    ∃ u us, rest = u :: us ∧ u.word = w ∧ significant rest = u :: us := by
  cases rest with
  | nil => cases hw
  | cons u us =>
    obtain rfl := Option.some.inj hw
    exact ⟨u, us, rfl, rfl, significant_cons hline⟩

/-- The names that are not read in front of `as`: `as` itself, and the modifiers of members. -/
def takenInFront : List Text := ["as", "async", "get", "set"]

variable {t : Token} {rest : List Token}

theorem lastIs_of_startsItem (h : p.startsItem) :
    p.lastIn [.dot, .optionalChain] = false ∧ p.lastIs .exportWord = false := by
  rw [lastIs_eq_lastIn]
  exact ⟨lastIn_disjoint h (by decide), lastIn_disjoint h (by decide)⟩

theorem role_of_sign (hk : t.kind ≠ .leftBrace ∧ t.kind ≠ .leftParen ∧ t.kind.isReserved = false ∧
    t.kind ≠ .name) : p.role t rest = t.kind := by
  simp [role, hk]

theorem reservedRole_eq {next : Option Kind} (hk : k ≠ .functionWord ∧ k ≠ .classWord)
    (hlast : p.lastIn [.dot, .optionalChain] = false)
    (hmember : p.startsMember = false ∨ next.any Kind.followsKey = false) :
    p.reservedRole k next = k := by
  rcases hmember with hm | hm <;> simp [reservedRole, hk, hlast, hm]

namespace InClauseOf

/-! ## Roles -/

theorem context_ne (h : InClauseOf braces p) : p.context ≠ .head ∧ p.context ≠ .classBody := by
  cases braces <;> simp [context, h.stack, clauseStack]

theorem nameRole_end (h : InClauseOf braces p) (hrest : EndsItem (rest.map Token.word)) :
    p.nameRole t rest = .name := by
  obtain ⟨w, hw, hkind⟩ := hrest
  obtain ⟨u, us, rfl, rfl, hnext⟩ := next_of_words hw (by
    rcases hkind with hk | hk <;> rw [hk] <;> decide)
  obtain ⟨hhead, -⟩ := h.context_ne
  rw [word_kind] at hkind
  have hasync : marksAsync t (u :: us) = false := by
    rcases hkind with hk | hk <;> simp [marksAsync, hnext, hk]
  have hkey : u.kind.startsKey = false := by
    rcases hkind with hk | hk <;> rw [hk] <;> rfl
  rcases hkind with hk | hk <;> rw [hk] at hkey <;>
    simp [nameRole, hnext, hasync, hk, hhead, hkey]

/-- In front of `as` a name is one, unless it is taken for something else. -/
theorem nameRole_renamed (h : InClauseOf braces p) (ht : t.text ∉ takenInFront)
    (hw : (rest.map Token.word).head? = some ⟨.name, "as"⟩) : p.nameRole t rest = .name := by
  obtain ⟨u, us, rfl, hu, hnext⟩ := next_of_words hw (by decide)
  obtain ⟨hkind, -⟩ := Word.mk.inj hu
  obtain ⟨hhead, hclass⟩ := h.context_ne
  simp only [takenInFront, List.mem_cons, List.not_mem_nil, or_false, not_or] at ht
  simp [nameRole, hnext, hkind, hhead, hclass, ht]

theorem startsMember_of_startsItem (h : InClauseOf true p) (hstart : p.startsItem) :
    p.startsMember = true := by
  have hcontext : p.context = .object := by simp [context, h.stack, clauseStack]
  rw [startsMember, hcontext]
  exact lastIn_mono hstart (by decide)

/-- Where an item starts, those names are not read in front of `as`. -/
theorem nameRole_taken (h : InClauseOf true p) (hstart : p.startsItem)
    (ht : t.text ∈ takenInFront) (hw : (rest.map Token.word).head? = some ⟨.name, "as"⟩) :
    p.nameRole t rest ≠ .name := by
  obtain ⟨u, us, rfl, hu, hnext⟩ := next_of_words hw (by decide)
  obtain ⟨hkind, -⟩ := Word.mk.inj hu
  have hmember := h.startsMember_of_startsItem hstart
  have hmodifier : p.lastIn [.asyncWord, .getWord, .setWord] = false :=
    lastIn_disjoint hstart (by decide)
  have hcontext : p.context = .object := by simp [context, h.stack, clauseStack]
  have hfrom : t.text ≠ "from" := by
    rintro heq
    rw [heq] at ht
    revert ht
    decide
  have hrole : p.nameRole t (u :: us) =
      if t.text = "as" then .asWord else if t.text = "async" then .asyncWord
      else if t.text = "get" then .getWord else if t.text = "set" then .setWord else .name := by
    -- `async` is one in two ways, of which the first depends on what else stands behind it
    by_cases hasync : t.text = "async" ∧ marksAsync t (u :: us)
    · simp [nameRole, hnext, hkind, hasync, hcontext, h.clause]
    · simp [nameRole, hnext, hkind, hfrom, hasync, hmember, hmodifier, hcontext, Kind.startsKey,
        h.clause]
  simp only [takenInFront, List.mem_cons, List.not_mem_nil, or_false] at ht
  rw [hrole]
  rcases ht with ht | ht | ht | ht <;> rw [ht] <;> decide

/-- Outside the braces a name in front of `from` is one, unless it is `as`. -/
theorem nameRole_from (h : InClauseOf false p) (ht : t.text ≠ "as")
    (hw : ∃ v vs, rest.map Token.word = ⟨.name, "from"⟩ :: v :: vs ∧ v.kind = .string) :
    p.nameRole t rest = .name := by
  obtain ⟨v, vs, hws, hv⟩ := hw
  obtain ⟨u, us, rfl, hu, hus⟩ := List.map_eq_cons_iff.1 hws
  obtain ⟨a, us, rfl, ha, -⟩ := List.map_eq_cons_iff.1 hus
  obtain ⟨hkind, -⟩ := Word.mk.inj hu
  have hstring : a.kind = .string := by rw [← word_kind, ha, hv]
  have hnext : significant (u :: a :: us) = u :: a :: us := significant_cons (by rw [hkind]; decide)
  have hnext' : significant (a :: us) = a :: us := significant_cons (by rw [hstring]; decide)
  have hasync : marksAsync t (u :: a :: us) = false := by
    simp [marksAsync, hnext, hnext', hkind, hstring]
  have hmember : p.startsMember = false := by
    simp [startsMember, context, h.stack, clauseStack]
  have hcontext := h.context_ne.1
  simp [nameRole, hnext, hkind, hcontext, hasync, hmember, ht]

theorem nameRole_as (h : InClauseOf braces p) (ht : t.text = "as")
    (hw : ∃ v ∈ (rest.map Token.word).head?, [Kind.name, .string, .defaultWord].contains v.kind) :
    p.nameRole t rest = .asWord := by
  obtain ⟨v, hv, hkind⟩ := hw
  obtain ⟨u, us, rfl, rfl, hnext⟩ := next_of_words hv (by
    rintro heq
    rw [heq] at hkind
    revert hkind
    decide)
  rw [word_kind] at hkind
  have hne : (Text.ofString "as") ≠ Text.ofString "from" := by decide
  simp only [nameRole, hnext, ht, h.clause, hne, List.head?_cons, Option.map_some,
    Option.any_some, hkind]
  simp

/-! ## Words -/

theorem lays_sign (h : InClauseOf braces p)
    (hk : w.kind = .string ∨ w.kind = .comma ∨ w.kind = .star) :
    InClauseOf braces (p.after w.kind) ∧ Lays p [w] [w] (p.after w.kind) fun _ => True := by
  have hkinds : isClauseKind w.kind ∧ w.kind ≠ .defaultWord ∧ w.kind ≠ .newline ∧
      w.kind ≠ .semicolon ∧ w.kind ≠ .elseWord ∧ w.kind ≠ .rightBrace ∧ w.kind ≠ .leftBrace ∧
      w.kind ≠ .leftParen ∧ w.kind.isReserved = false ∧ w.kind ≠ .name := by
    rcases hk with hk | hk | hk <;> rw [hk] <;> decide
  obtain ⟨hclause, hdefault, hline, hsemicolon, helse, hright, hleft, hparen, hreserved, hname⟩ :=
    hkinds
  refine ⟨h.after hclause (absurd · hdefault), ?_⟩
  refine lays_word h.loops h.stack hline hsemicolon helse (absurd · hright) ?_
  rintro t rest rfl -
  exact role_of_sign ⟨hleft, hparen, hreserved, hname⟩

theorem lays_name (h : InClauseOf braces p) {x : Text} {k : Kind}
    (hk : k = .name ∨ k = .asWord ∨ k = .fromWord)
    (hrole : ∀ (t : Token) (rest : List Token), t.text = x → ahead (rest.map Token.word) →
      p.nameRole t rest = k) :
    InClauseOf braces (p.after k) ∧ Lays p [⟨.name, x⟩] [⟨k, x⟩] (p.after k) ahead := by
  have hne {k : Kind} (hk : Kind.name ≠ k) : (⟨.name, x⟩ : Word).kind ≠ k := hk
  refine ⟨h.after ?_ ?_, lays_word h.loops h.stack (hne (by decide)) (hne (by decide))
    (hne (by decide)) (absurd · (hne (by decide))) ?_⟩
  · rcases hk with rfl | rfl | rfl <;> rfl
  · rcases hk with rfl | rfl | rfl <;> exact (absurd · (by decide))
  · intro t rest ht hrest
    obtain ⟨hkind, htext⟩ := Word.mk.inj ht
    rw [role_of_name hkind]
    exact hrole t rest htext hrest

theorem lays_default (h : InClauseOf braces p) {x : Text} {k : Kind}
    (hk : k = .name ∨ k = .defaultWord) (hexport : p.lastIs .exportWord = false)
    (hrole : ∀ rest : List Token, ahead (rest.map Token.word) →
      p.reservedRole .defaultWord ((significant rest).head?.map Token.kind) = k) :
    InClauseOf braces (p.after k) ∧ Lays p [⟨.defaultWord, x⟩] [⟨k, x⟩] (p.after k) ahead := by
  have hne {k : Kind} (hk : Kind.defaultWord ≠ k) : (⟨.defaultWord, x⟩ : Word).kind ≠ k := hk
  refine ⟨h.after ?_ fun _ => hexport, lays_word h.loops h.stack (hne (by decide))
    (hne (by decide)) (hne (by decide)) (absurd · (hne (by decide))) ?_⟩
  · rcases hk with rfl | rfl <;> rfl
  · intro t rest ht hrest
    obtain ⟨hkind, -⟩ := Word.mk.inj ht
    rw [role_of_reserved (by rw [hkind]; rfl), hkind]
    exact hrole rest hrest

theorem lays_alone (h : InClauseOf true p) (hstart : p.startsItem) (hw : IsItemWord w) :
    ∃ q, InClauseOf true q ∧ Lays p [w] [alone w] q EndsItem := by
  rcases hw with hw | rfl | hw
  · obtain ⟨k, x⟩ := w
    obtain rfl : k = .name := hw
    exact ⟨_, h.lays_name (.inl rfl) fun t rest _ => h.nameRole_end⟩
  · obtain ⟨hdot, hexport⟩ := lastIs_of_startsItem hstart
    refine ⟨_, h.lays_default (.inl rfl) hexport fun rest hrest => ?_⟩
    obtain ⟨v, hv, hkind⟩ := hrest
    obtain ⟨u, us, rfl, rfl, hnext⟩ := next_of_words hv (by
      rcases hkind with hk | hk <;> rw [hk] <;> decide)
    rw [word_kind] at hkind
    have hmember := h.startsMember_of_startsItem hstart
    rcases hkind with hk | hk <;> simp [reservedRole, hnext, hk, hmember, Kind.followsKey]
  · have halone : alone w = w := if_neg (by rw [hw]; decide)
    rw [halone]
    obtain ⟨hafter, hlays⟩ := h.lays_sign (.inl hw)
    exact ⟨_, hafter, hlays.weaken fun _ _ => trivial⟩

theorem lays_outer (h : InClauseOf true p) (hstart : p.startsItem) (hw : IsItemWord w)
    (hfree : w.kind = .name → w.text ∉ takenInFront) :
    ∃ q, InClauseOf true q ∧ Lays p [w] [w] q fun ws => ws.head? = some ⟨.name, "as"⟩ := by
  rcases hw with hw | rfl | hw
  · obtain ⟨k, x⟩ := w
    obtain rfl : k = .name := hw
    refine ⟨_, h.lays_name (.inl rfl) fun t rest ht hrest => ?_⟩
    exact h.nameRole_renamed (ht ▸ hfree rfl) hrest
  · obtain ⟨hdot, hexport⟩ := lastIs_of_startsItem hstart
    refine ⟨_, h.lays_default (.inr rfl) hexport fun rest hrest => ?_⟩
    obtain ⟨u, us, rfl, hu, hnext⟩ := next_of_words hrest (by decide)
    obtain ⟨hkind, -⟩ := Word.mk.inj hu
    exact reservedRole_eq (by decide) hdot (.inr (by simp [hnext, hkind, Kind.followsKey]))
  · obtain ⟨hafter, hlays⟩ := h.lays_sign (.inl hw)
    exact ⟨_, hafter, hlays.weaken fun _ _ => trivial⟩

theorem lays_inner (h : InClauseOf true p) (hlast : p.last = some .asWord) (hw : IsItemWord w) :
    ∃ q, InClauseOf true q ∧ Lays p [w] [w] q EndsItem := by
  rcases hw with hw | rfl | hw
  · obtain ⟨k, x⟩ := w
    obtain rfl : k = .name := hw
    exact ⟨_, h.lays_name (.inl rfl) fun t rest _ => h.nameRole_end⟩
  · refine ⟨_, h.lays_default (.inr rfl) (by simp [lastIs, hlast]) fun rest _ => ?_⟩
    refine reservedRole_eq (by decide) (by simp [lastIn, hlast]) (.inl ?_)
    simp [startsMember, context, h.stack, clauseStack, lastIn, hlast]
  · obtain ⟨hafter, hlays⟩ := h.lays_sign (.inl hw)
    exact ⟨_, hafter, hlays.weaken fun _ _ => trivial⟩

theorem lays_as (h : InClauseOf braces p) :
    InClauseOf braces (p.after .asWord) ∧ Lays p [⟨.name, "as"⟩] [⟨.asWord, "as"⟩]
      (p.after .asWord) fun ws => ∃ v ∈ ws.head?, IsItemWord v := by
  refine h.lays_name (.inr (.inl rfl)) fun t rest ht ⟨v, hv, hword⟩ => ?_
  refine h.nameRole_as ht ⟨v, hv, ?_⟩
  rcases hword with hk | rfl | hk <;> first | (rw [hk]; decide) | decide

theorem lays_renamed {v : Word} (h : InClauseOf true p) (hstart : p.startsItem)
    (hw : IsItemWord w) (hv : IsItemWord v) (hfree : w.kind = .name → w.text ∉ takenInFront) :
    ∃ q, InClauseOf true q ∧
      Lays p [w, ⟨.name, "as"⟩, v] [w, ⟨.asWord, "as"⟩, v] q EndsItem := by
  obtain ⟨p₁, h₁, houter⟩ := h.lays_outer hstart hw hfree
  obtain ⟨h₂, has⟩ := h₁.lays_as
  obtain ⟨q, hq, hinner⟩ := h₂.lays_inner rfl hv
  exact ⟨q, hq, houter.trans (has.trans hinner fun _ _ => ⟨v, rfl, hv⟩) fun _ _ => rfl⟩

theorem lays_leftBrace (h : InClauseOf false p)
    (hlast : p.lastIn [.importWord, .exportWord, .comma]) :
    Lays p [⟨.leftBrace, "\x7b"⟩] [⟨.leftBrace, "\x7b"⟩] (p.after .leftBrace) fun _ => True := by
  refine lays_word h.loops h.stack (by decide) (by decide) (by decide) (absurd · (by decide)) ?_
  rintro t rest ht -
  obtain ⟨hkind, -⟩ := Word.mk.inj ht
  have hbrace : p.braceRole = .leftBrace := by
    obtain ⟨k, hk, hl⟩ := lastIn_iff.1 hlast
    have hopens : ∀ j ∈ [Kind.importWord, .exportWord, .comma],
        j.opensBlock = false ∧ j ≠ .terminator ∧ j ≠ .blockBrace := by decide
    simp [lastIn, braceRole, startsStatement, h.classes, hl, hopens k hk]
  simp [role, hkind, hbrace]

theorem lays_rightBrace (h : InClauseOf true p) :
    Lays p [⟨.rightBrace, "\x7d"⟩] [⟨.rightBrace, "\x7d"⟩] (p.after .rightBrace)
      fun _ => True := by
  refine lays_word h.loops h.stack (by decide) (by decide) (by decide) (fun _ => rfl) ?_
  rintro t rest ht -
  obtain ⟨hkind, -⟩ := Word.mk.inj ht
  rw [role_of_sign (by rw [hkind]; decide), hkind]

theorem lays_from (h : InClauseOf false p) :
    InClauseOf false (p.after .fromWord) ∧ Lays p [⟨.name, "from"⟩] [⟨.fromWord, "from"⟩]
      (p.after .fromWord) fun ws => ∃ v ∈ ws.head?, v.kind = .string := by
  refine h.lays_name (.inr (.inr rfl)) fun t rest ht ⟨v, hv, hkind⟩ => ?_
  obtain ⟨u, us, rfl, rfl, hnext⟩ := next_of_words hv (by rw [hkind]; decide)
  rw [word_kind] at hkind
  simp [nameRole, h.clause, ht, hnext, hkind]

end InClauseOf

/-! ## Lines -/

/-- A place where a line starts: in a module, where a statement can start and none is open. -/
structure LineStart (p : Place) : Prop where
  stack : p.stack = [.block]
  canEnd : p.canEnd = false
  last : p.last = none ∨ p.last = some .terminator
  loops : p.loops = []
  classes : p.classes = []

theorem lineStart_ofModule : LineStart ofModule := ⟨rfl, rfl, .inl rfl, rfl, rfl⟩

theorem InClauseOf.lineStart (h : InClauseOf false p) : LineStart p.afterTerminator :=
  ⟨h.stack, rfl, .inr rfl, h.loops, h.classes⟩

namespace LineStart

theorem placeFrom_newline (h : LineStart p) (module : Bool) (last : Option Token)
    (ts : List Token) : placeFrom module p true last ts = placeFrom module p false last ts := by
  cases ts with
  | nil => rfl
  | cons t ts =>
    have hends : p.endsBefore t.kind true = p.endsBefore t.kind false := by
      simp [endsBefore, h.canEnd]
    rw [placeFrom, placeFrom, hends]

theorem lays_newline (h : LineStart p) :
    Lays p [⟨.newline, "\n"⟩] [] p fun _ => True := by
  intro module last ts rest hts _
  obtain ⟨t, rfl, ht⟩ := List.map_eq_singleton_iff.1 hts
  obtain ⟨hkind, -⟩ := Word.mk.inj ht
  refine ⟨[], last, ?_, rfl⟩
  rw [List.singleton_append, Place.placeFrom_newline hkind, h.placeFrom_newline]
  rfl

theorem lays_opening {w : Word} (h : LineStart p)
    (hw : w.kind = .importWord ∨ w.kind = .exportWord) :
    InClauseOf false (p.after w.kind) ∧ Lays p [w] [w] (p.after w.kind) fun _ => True := by
  have hstarts : p.startsStatement = true := by
    rcases h.last with hlast | hlast <;> simp [startsStatement, context, lastIn, h.stack, hlast]
  have hkinds : w.kind ≠ .newline ∧ w.kind ≠ .semicolon ∧ w.kind ≠ .elseWord ∧
      w.kind ≠ .rightBrace ∧ w.kind ≠ .functionWord ∧ w.kind ≠ .classWord ∧
      w.kind.isReserved := by
    rcases hw with hw | hw <;> rw [hw] <;> decide
  obtain ⟨hline, hsemicolon, helse, hbrace, hfunction, hclass, hreserved⟩ := hkinds
  refine ⟨?_, lays_word h.loops (show p.stack = clauseStack false from h.stack) hline hsemicolon
    helse (absurd · hbrace) ?_⟩
  · rcases hw with hw | hw <;> rw [hw]
    all_goals
      exact ⟨h.stack, by simp [Place.after, inClauseAfter, hstarts], h.loops, h.classes⟩
  · rintro t rest rfl -
    rw [word_kind] at hreserved ⊢
    rw [role_of_reserved hreserved]
    refine reservedRole_eq ⟨hfunction, hclass⟩ ?_ (.inl ?_)
    · rcases h.last with hlast | hlast <;> simp [lastIn, hlast]
    · simp [startsMember, context, h.stack]

end LineStart

end Place

end Token

end InlineTemplates
