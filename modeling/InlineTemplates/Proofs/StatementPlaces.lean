import InlineTemplates.Proofs.ExpressionPlaces
import InlineTemplates.Proofs.Semicolons

/-!
# Statements in their places

A statement leaves the contexts around it as they are, and nothing is open behind it: its last token
is a semicolon, or the brace that closes a block. So a line break behind it changes nothing but that
it puts a terminator behind such a brace, unless the next line goes on with it. A `while` belongs to
the do-loop that waits for it in the same contexts, unless it stands right behind a `do`.
-/

namespace InlineTemplates

open Token (Kind)
open Lexeme (EndsName Spells)

namespace Token.Kind

/-- The reserved words that statements are made of. -/
def ofStatement : Kind → Bool
  | ifWord | elseWord | forWord | whileWord | doWord | tryWord | catchWord | finallyWord
  | returnWord | throwWord | breakWord | continueWord | constWord | letWord | varWord => true
  | _ => false

end Token.Kind

namespace Token.Place

variable {p q : Place} {k : Kind} {w : Word} {t : Token} {ts : List Token}
  {ws roles : List Word} {S : List Context} {L : List Nat} {c : Context}
  {ahead : List Word → Prop} {module newline brace : Bool} {last : Option Token}

/-! ## Line breaks -/

theorem placeFrom_ends (hline : t.kind ≠ .newline) (hsemicolon : t.kind ≠ .semicolon)
    (hends : p.endsBefore t.kind newline) (hdo : p.lastIs .doWord = false) :
    placeFrom module p newline last (t :: ts) =
      terminatorOf t :: placeFrom module p.afterTerminator false last (t :: ts) := by
  have hcloses : p.afterTerminator.closesLoop t.kind = p.closesLoop t.kind := by
    have hdo' : p.afterTerminator.lastIs .doWord = false := rfl
    simp only [closesLoop, hdo, hdo']
    rfl
  have hstays : p.afterTerminator.endsBefore t.kind false = false :=
    endsBefore_of_canEnd rfl t.kind false
  conv_lhs => rw [placeFrom, if_neg hline, if_neg hsemicolon]
  conv_rhs => rw [placeFrom, if_neg hline, if_neg hsemicolon]
  simp only [hends, hstays, hcloses, if_true, Bool.false_eq_true, if_false]
  split_ifs <;> rfl

/-- Where no statement ends in front of a token, a line break there changes nothing. -/
theorem placeFrom_goesOn (hends : p.endsBefore t.kind true = false) :
    placeFrom module p true last (t :: ts) = placeFrom module p false last (t :: ts) := by
  have hends' : p.endsBefore t.kind false = false := endsBefore_false_of hends
  simp only [placeFrom, hends, hends']

/-- A token that no semicolon stands for. -/
def IsFiller (t : Token) : Prop := t.kind = .terminator ∧ t.text ≠ ";"

/-- The end of a module puts no more than a filler behind the tokens. -/
theorem placeFrom_module (hts : ∀ t ∈ ts, t.text = ";" → t.kind = .semicolon)
    (hlast : ∀ t ∈ last, t.text ≠ ";") (p : Place) (newline : Bool) :
    ∃ zs : List Token, placeFrom true p newline last ts = placeFrom false p newline last ts ++ zs ∧
      (zs = [] ∨ ∃ z, zs = [z] ∧ IsFiller z) := by
  induction ts generalizing p newline last with
  | nil =>
    cases last with
    | none => exact ⟨[], rfl, .inl rfl⟩
    | some t =>
      cases hend : p.canEnd with
      | false => exact ⟨[], by simp [placeFrom, hend], .inl rfl⟩
      | true =>
        exact ⟨[terminatorOf t], by simp [placeFrom, hend], .inr ⟨_, rfl, rfl, hlast t rfl⟩⟩
  | cons t ts ih =>
    obtain ⟨ht, hts⟩ := List.forall_mem_cons.1 hts
    by_cases hline : t.kind = .newline
    · simp only [placeFrom_newline hline]
      exact ih hts hlast p true
    by_cases hsemicolon : t.kind = .semicolon
    · obtain ⟨zs, heq, hzs⟩ := ih hts hlast p.afterTerminator false
      simp only [placeFrom_semicolon hsemicolon, heq]
      exact ⟨zs, rfl, hzs⟩
    · let v : Visit := ⟨p, newline, t, ts⟩
      have hplaced : ∀ u ∈ some v.placed, u.text ≠ ";" := by
        rintro u hu
        obtain rfl := Option.some.inj hu
        exact fun htext => hsemicolon (ht htext)
      obtain ⟨zs, heq, hzs⟩ := ih hts hplaced v.after false
      simp only [placeFrom_visit hline hsemicolon]
      exact ⟨zs, by rw [heq, List.append_assoc], hzs⟩

/-! ## Places -/

/-- A place behind a statement, or in front of the first one. `brace` says that the statement ends
with a block. -/
structure BehindStatement (brace : Bool) (S : List Context) (L : List Nat) (p : Place) : Prop
    extends Within S L [] p where
  ends : if brace then p.canEnd = true ∧ p.last = some .rightBrace ∧ p.closed = some .block
    else p.canEnd = false ∧ (p.last = none ∨ p.lastIn [.terminator, .blockBrace])

structure BeforeParen (c : Context) (S : List Context) (L : List Nat) (p : Place) : Prop
    extends Among S L p where
  opens : p.nextParen = some c

structure BlockStart (S : List Context) (L : List Nat) (p : Place) : Prop extends Among S L p where
  opens : p.last.any Kind.opensBlock ∨ p.startsStatement

theorem behindStatement_ofModule : BehindStatement false [.block] [] ofModule :=
  ⟨⟨⟨rfl, .refl [], rfl, rfl⟩, by simp, rfl⟩, rfl, .inl rfl⟩

theorem Within.afterTerminator (h : Within S L [] p) :
    BehindStatement false S L p.afterTerminator :=
  ⟨⟨⟨h.stack, h.loops, rfl, h.classes⟩, h.brackets, h.paren⟩, rfl, .inr rfl⟩

namespace BehindStatement

theorem endsBranch_eq (h : BehindStatement brace S L p) : p.endsBranch = false := by
  have hends := h.ends
  cases brace with
  | false => simp [endsBranch, hends.1]
  | true => simp [endsBranch, lastIs, hends.2]

theorem lastIs_eq (h : BehindStatement brace S L p) {k : Kind}
    (hk : k ∉ ([.terminator, .blockBrace, .rightBrace] : List Kind)) : p.lastIs k = false := by
  have hends := h.ends
  simp only [List.mem_cons, List.not_mem_nil, or_false, not_or] at hk
  obtain ⟨hterminator, hblock, hbrace⟩ := hk
  rw [lastIs, decide_eq_false_iff_not]
  rintro hlast
  cases brace with
  | true => exact hbrace (Option.some.inj (hlast.symm.trans hends.2.1))
  | false =>
    obtain ⟨-, hnone | hin⟩ := hends
    · rw [hlast] at hnone
      cases hnone
    · simp [lastIn, hlast, hterminator, hblock] at hin

theorem lastIn_eq (h : BehindStatement brace S L p) {ks : List Kind}
    (hks : ∀ k ∈ ks, k ∉ ([.terminator, .blockBrace, .rightBrace] : List Kind)) :
    p.lastIn ks = false := by
  rw [lastIn, Option.any_eq_false]
  intro k hk
  rw [List.contains_eq_mem, decide_eq_false_iff_not]
  exact fun hmem => of_decide_eq_false (h.lastIs_eq (hks k hmem)) hk

/-- Whether a line break ends the statement in front of a word. -/
def breaks (brace : Bool) (k : Kind) : Bool := brace && !k.continuesLine && k != .semicolon

def filler (brace : Bool) (w : Word) : List Word :=
  if breaks brace w.kind then [⟨.terminator, w.text⟩] else []

def behindLine (brace : Bool) (k : Kind) (p : Place) : Place :=
  if breaks brace k then p.afterTerminator else p

/-- A statement ends at a line break if it ends with a block and the next line does not go on with
it. -/
theorem endsBefore_eq (h : BehindStatement brace S L p) (hS : S.head? = some .block)
    (hsemicolon : k ≠ .semicolon) (helse : k ≠ .elseWord) (hcloses : p.closesLoop k = false) :
    p.endsBefore k true = breaks brace k := by
  have hlines : p.inLines = true := by
    have hcontext : p.context = .block := by
      cases S with
      | nil => cases hS
      | cons c below =>
        obtain rfl := Option.some.inj hS
        rw [context, h.stack]
        rfl
    simp [inLines, hcontext]
  have hends := h.ends
  cases brace with
  | false => simp [endsBefore, breaks, endsBranch, hends.1]
  | true =>
    have hbrace : k = .rightBrace → k.continuesLine = false := by
      rintro rfl
      rfl
    have hne : (k != .semicolon) = true := by simpa using hsemicolon
    simp only [endsBefore, breaks, helse, hcloses, hlines, hends.1, hne, decide_false,
      Bool.false_or, Bool.false_and, Bool.true_and, Bool.and_true, Bool.not_false]
    by_cases hk : k = .rightBrace
    · rw [hbrace hk, hk]
      rfl
    · simp [hk]

theorem lays_line (level : Nat) (h : BehindStatement brace S L p) (hS : S.head? = some .block)
    (hw : w.kind ≠ .newline ∧ w.kind ≠ .elseWord) (hcloses : p.closesLoop w.kind = false)
    (hlays : Lays (behindLine brace w.kind p) (w :: ws) roles q ahead) :
    Lays p (.line level :: w :: ws) (filler brace w ++ roles) q ahead := by
  intro module last ts rest hts hrest
  obtain ⟨n, ts, rfl, hn, hts⟩ := List.map_eq_cons_iff.1 hts
  obtain ⟨us, last', heq, hus⟩ := hlays module last ts rest hts hrest
  obtain ⟨t, ts, rfl, rfl, -⟩ := List.map_eq_cons_iff.1 hts
  rw [List.cons_append, placeFrom_newline (Word.mk.inj hn).1]
  rw [List.cons_append] at heq ⊢
  rw [word_kind] at hw hcloses heq
  by_cases hsemicolon : t.kind = .semicolon
  · have hno : breaks brace t.kind = false := by simp [breaks, hsemicolon]
    rw [behindLine, hno, if_neg Bool.false_ne_true] at heq
    refine ⟨us, last', ?_, by rw [filler, word_kind, hno]; exact hus⟩
    rwa [placeFrom_semicolon hsemicolon, ← placeFrom_semicolon hsemicolon]
  have hends := h.endsBefore_eq hS hsemicolon hw.2 hcloses
  cases hbreaks : breaks brace t.kind with
  | false =>
    rw [behindLine, hbreaks, if_neg Bool.false_ne_true] at heq
    refine ⟨us, last', ?_, by rw [filler, word_kind, hbreaks]; exact hus⟩
    rw [placeFrom_goesOn (hends.trans hbreaks), heq]
  | true =>
    rw [behindLine, hbreaks, if_pos rfl] at heq
    refine ⟨terminatorOf t :: us, last', ?_, ?_⟩
    · rw [placeFrom_ends hw.1 hsemicolon (hends.trans hbreaks) (h.lastIs_eq (by decide)), heq]
      rfl
    · rw [filler, word_kind, hbreaks, List.map_cons, hus]
      rfl

end BehindStatement

/-! ## Words -/

theorem lays_ofStatement (h : Within S L [] p) (hS : HoldsCode S) (hw : w.kind.ofStatement)
    (hlast : p.lastIn [.dot, .optionalChain] = false) (hends : p.endsBefore w.kind false = false) :
    Lays p [w] [w] ((p.leftBy w.kind).after w.kind) ahead := by
  have hkinds : w.kind ≠ .newline ∧ w.kind ≠ .semicolon ∧ w.kind.isReserved ∧
      w.kind ≠ .functionWord ∧ w.kind ≠ .classWord := by
    revert hw
    cases w.kind <;> decide
  obtain ⟨hline, hsemicolon, hreserved, hfunction, hclass⟩ := hkinds
  have hclosed : (p.leftBy w.kind).closedBy w.kind = none := by
    revert hw
    cases w.kind <;> simp [Kind.ofStatement, closedBy]
  refine lays_one hline hsemicolon hends (by simp [hclosed]) ?_
  rintro t rest rfl -
  rw [word_kind] at hreserved hfunction hclass ⊢
  rw [role_of_reserved hreserved]
  exact reservedRole_eq ⟨hfunction, hclass⟩ hlast (.inl (startsMember_of_holdsCode (h.stack ▸ hS)))

theorem Among.after_ofStatement (h : Among S L p) (hk : k.ofStatement) (hdo : k ≠ .doWord) :
    Among S L (p.after k) := by
  refine h.after ?_ ?_
  · rw [← h.stack]
    revert hk
    cases k <;> simp [Kind.ofStatement, stackAfter]
  · revert hk hdo
    cases k <;> decide

theorem Within.after_ofStatement (h : Within S L [] p) (hk : k.ofStatement) (hdo : k ≠ .doWord)
    (hhead : k.opensHead = false) : Within S L [] (p.after k) :=
  ⟨h.toAmong.after_ofStatement hk hdo, h.brackets, by simp [Place.after, hhead]⟩

theorem Within.after_opensHead (h : Within S L [] p) (hk : k.ofStatement) (hhead : k.opensHead) :
    BeforeParen .head S L (p.after k) := by
  have hdo : k ≠ .doWord := by
    rintro rfl
    cases hhead
  exact ⟨h.toAmong.after_ofStatement hk hdo, by simp [Place.after, hhead, h.paren]⟩

theorem Within.after_do (h : Within S L [] p) :
    Within S (S.length :: L) [] (p.after .doWord) := by
  refine ⟨⟨h.stack, ?_, ?_, h.classes⟩, h.brackets, rfl⟩
  · have hloops : (p.after .doWord).loops = S.length :: p.loops := by
      simp [Place.after, h.stack]
    rw [hloops]
    exact h.loops.cons_cons _
  · simp [Place.after, inClauseAfter, h.clause]

theorem BeforeParen.lays_leftParen (h : BeforeParen c S L p) (hS : HoldsCode S) :
    Within (c :: S) L [] (p.after .leftParen) ∧
      Lays p [⟨.leftParen, "("⟩] [⟨.leftParen, "("⟩] (p.after .leftParen) NoArrow := by
  have hstack : p.stackAfter .leftParen = c :: S := by simp [stackAfter, h.opens, h.stack]
  refine ⟨⟨h.toAmong.after hstack (by decide), by simp, rfl⟩, ?_⟩
  refine lays_one (w := ⟨.leftParen, "("⟩) (by decide) (by decide)
    (endsBefore_inside (by decide) (by decide) (by decide)) (by simp [closedBy])
    fun t rest ht hrest => ?_
  obtain ⟨hkind, -⟩ := Word.mk.inj ht
  have hmember : p.startsMember = false := startsMember_of_holdsCode (h.stack ▸ hS)
  rw [role_plain (.inl (by rw [hkind]; rfl)) hmember
    (by rw [hkind]; exact (absurd · (by decide))) (by simpa [NoArrow] using hrest)
    (by rw [hkind]; exact (absurd · (by decide))), hkind]

theorem Among.closes (h : Among (c :: S) L p) (hS : S ≠ [])
    (hk : k = .rightParen ∨ k = .rightBrace) : p.stackAfter k = S ∧ p.closedBy k = some c := by
  have hlength : 1 < (c :: S).length := by
    have := List.length_pos_iff.2 hS
    rw [List.length_cons]
    omega
  rcases hk with rfl | rfl <;>
    simp only [stackAfter, closedBy, h.stack, if_pos hlength, List.tail_cons, List.head?_cons,
      and_self]

theorem Within.after_rightParen (h : Within (c :: S) L [] p) (hS : S ≠ []) :
    Within S L [] (p.after .rightParen) :=
  ⟨h.toAmong.after (h.closes hS (.inl rfl)).1 (by decide), by simp, rfl⟩

theorem lays_rightParen (hopen : p.closedBy .rightParen = some .loopTail → ∀ ws, ahead ws →
      ws.head?.any fun w => w.kind = .semicolon) :
    Lays p [⟨.rightParen, ")"⟩] [⟨.rightParen, ")"⟩] (p.after .rightParen) ahead := by
  refine lays_one (w := ⟨.rightParen, ")"⟩) (by decide) (by decide)
    (endsBefore_inside (by decide) (by decide) (by decide)) hopen fun t rest ht _ => ?_
  obtain ⟨hkind, -⟩ := Word.mk.inj ht
  rw [role_of_sign (by rw [hkind]; decide), hkind]

theorem BlockStart.lays_leftBrace (h : BlockStart S L p) :
    BehindStatement false (.block :: S) L (p.after .blockBrace) ∧
      Lays p [⟨.leftBrace, "\x7b"⟩] [⟨.blockBrace, "\x7b"⟩] (p.after .blockBrace) ahead := by
  have hstack : p.stackAfter .blockBrace = .block :: S := by simp [stackAfter, h.stack]
  refine ⟨⟨⟨h.toAmong.after hstack (by decide), by simp, rfl⟩, rfl, .inr rfl⟩, ?_⟩
  refine lays_one (w := ⟨.leftBrace, "\x7b"⟩) (by decide) (by decide)
    (endsBefore_inside (by decide) (by decide) (by decide)) (by simp [closedBy])
    fun t rest ht _ => ?_
  obtain ⟨hkind, -⟩ := Word.mk.inj ht
  have hopens : (p.last.any Kind.opensBlock || p.startsStatement) = true := by
    simpa using h.opens
  rw [role, if_pos hkind, braceRole, if_neg (by simp [h.classes]), if_pos hopens]

theorem Within.lays_rightBrace (h : Within (.block :: S) L [] p) (hS : S ≠ [])
    (hend : p.canEnd = false) :
    BehindStatement true S L (p.after .rightBrace) ∧
      Lays p [⟨.rightBrace, "\x7d"⟩] [⟨.rightBrace, "\x7d"⟩] (p.after .rightBrace) ahead := by
  obtain ⟨hstack, hclosed⟩ := h.closes hS (.inr rfl)
  refine ⟨⟨⟨h.toAmong.after hstack (by decide), by simp, rfl⟩, ?_⟩, ?_⟩
  · exact ⟨by simp [Place.after, Kind.canEnd, hclosed], rfl, by simp [Place.after, hclosed]⟩
  · refine lays_one (w := ⟨.rightBrace, "\x7d"⟩) (by decide) (by decide)
      (endsBefore_of_canEnd hend _ _)
      ?_ fun t rest ht _ => ?_
    · have hleft : p.leftBy .rightBrace = p := leftBy_of_ne (by decide)
      simp [hleft, hclosed]
    · obtain ⟨hkind, -⟩ := Word.mk.inj ht
      rw [role_of_sign (by rw [hkind]; decide), hkind]

end Token.Place

end InlineTemplates
