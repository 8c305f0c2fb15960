import InlineTemplates.Proofs.Positions
import InlineTemplates.Token.Placed
import InlineTemplates.Token.Scan

/-!
# Where tokens stand

Each token of a scan starts where its text stands in the source, a word as all of a name, and the
tokens follow one another. Their roles do not move them. A terminator that no semicolon stands for
borrows the place of a token next to it; only the one at the end of a module can stand in front of
what has been read.
-/

namespace InlineTemplates

/-! ## Tokens in a source -/

namespace Token

/-- Strings stand in quotes and templates in backticks. -/
def Kind.Fits (t : Text) : Kind → Prop
  | .string => ∃ (quote : CodePoint) (body : Text), (quote = '"' ∨ quote = '\'') ∧
      t = quote :: body ++ [quote]
  | .template => ∃ inside : Text,
      t = CodePoint.scalar '\x60' :: inside ++ [CodePoint.scalar '\x60']
  | _ => True

theorem Kind.fits_of_ne {t : Text} {k : Kind} (hs : k ≠ .string) (ht : k ≠ .template) :
    k.Fits t := by
  cases k <;> trivial

/-- Whether a token of this kind is a name, a private name or a reserved word. -/
def Kind.isWord (k : Kind) : Bool := k = .name || k = .privateName || k.isReserved

/-- The token stands in the source where it says. -/
structure LiesIn (source : Text) (t : Token) : Prop where
  holds : source.Holds t.start t.text
  stop_eq : t.stop = t.start.advance t.text
  fits : t.kind.Fits t.text
  whole : t.kind.isWord → source.HoldsName t.start t.text

/-- The tokens of a scan: each stands in the source, and a semicolon is known by its text. -/
structure Scanned (source : Text) (t : Token) : Prop extends LiesIn source t where
  semicolon : t.text = ";" → t.kind = .semicolon

theorem LiesIn.start_le_stop {source : Text} {t : Token} (h : t.LiesIn source) :
    t.start.le t.stop := by
  rw [h.stop_eq]
  exact Location.le_advance _ _

end Token

namespace Lexeme

open Token

variable {t : Text} {n : Nat} {k : Kind}

theorem nameKind_plain (t : Text) : nameKind t ≠ .string ∧ nameKind t ≠ .template := by
  have hwords : ∀ w ∈ Kind.reservedWords, w.2 ≠ .string ∧ w.2 ≠ .template := by decide
  unfold nameKind
  cases hw : Kind.reservedWords.find? fun w => Text.ofString w.1 == t with
  | none => exact ⟨nofun, nofun⟩
  | some w => exact hwords w (List.mem_of_find?_eq_some hw)

theorem sign?_plain {s : Kind × Nat} (h : sign? t = some s) : s.1 ≠ .string ∧ s.1 ≠ .template := by
  have hsigns : ∀ p ∈ Kind.punctuation, p.2 ≠ .string ∧ p.2 ≠ .template := by decide
  obtain ⟨p, hp, rfl⟩ := Option.map_eq_some_iff.1 h
  exact hsigns p (List.mem_of_find?_eq_some hp)

theorem next?_fits (h : next? t = some (.token k, n)) : k.Fits (t.take n) := by
  have hall : ∀ c, next? t = some c → ∀ k, c.1 = .token k → k.Fits (t.take c.2) := by
    unfold next?
    refine all_orElse ?template <| all_orElse ?_ <| all_orElse ?string <| all_orElse ?_ <|
      all_orElse ?name <| all_orElse ?_ <| all_orElse ?_ <| all_orElse ?_ <| all_orElse ?_ <|
      all_orElse ?_ ?sign
    all_goals
      intro c hc k hk
      obtain ⟨m, hm, rfl⟩ := Option.map_eq_some_iff.1 hc
      cases hk
    case template => exact templateLength?_shape hm
    case string => exact stringLength?_shape hm
    case name => exact Kind.fits_of_ne (nameKind_plain _).1 (nameKind_plain _).2
    case sign => exact Kind.fits_of_ne (sign?_plain hm).1 (sign?_plain hm).2
    all_goals trivial
  exact hall _ h k rfl

theorem name_of_next? (h : next? t = some (.token k, n)) (hk : k.isWord) :
    nameLength? t = some n ∨ privateNameLength? t = some n := by
  have hsigns : ∀ p ∈ Kind.punctuation, p.2.isWord = false := by decide
  have hall : ∀ c, next? t = some c → ∀ k, c.1 = .token k → k.isWord →
      nameLength? t = some c.2 ∨ privateNameLength? t = some c.2 := by
    unfold next?
    refine all_orElse ?_ <| all_orElse ?_ <| all_orElse ?_ <| all_orElse ?privateName <|
      all_orElse ?name <| all_orElse ?_ <| all_orElse ?_ <| all_orElse ?_ <| all_orElse ?_ <|
      all_orElse ?_ ?sign
    all_goals
      intro c hc k hk hword
      obtain ⟨m, hm, rfl⟩ := Option.map_eq_some_iff.1 hc
      cases hk
    case privateName => exact .inr hm
    case name => exact .inl hm
    case sign =>
      obtain ⟨p, hp, rfl⟩ := Option.map_eq_some_iff.1 hm
      rw [hsigns p (List.mem_of_find?_eq_some hp)] at hword
      cases hword
    all_goals exact absurd hword (by decide)
  exact hall _ h k rfl hk

theorem next?_semicolon (rest : Text) :
    next? (CodePoint.scalar ';' :: rest) = some (.token .semicolon, 1) := by
  rfl

theorem kind_of_semicolon (h : next? t = some (.token k, n)) (hn : t.take n = ";") :
    k = .semicolon := by
  cases t with
  | nil => cases n <;> cases hn
  | cons c rest =>
    cases n with
    | zero => cases hn
    | succ n =>
      rw [List.take_succ_cons] at hn
      have hc : c = CodePoint.scalar ';' := (List.cons.inj hn).1
      rw [hc, next?_semicolon] at h
      injection h with h
      injection h with h _
      injection h with h
      exact h.symm

end Lexeme

/-! ## Scans -/

namespace Scan

variable {source : Text}

theorem exists_ok_of_map {ε α β : Type} {x : Except ε α} {f : α → β} {b : β}
    (h : x.map f = .ok b) : ∃ a, x = .ok a ∧ f a = b := by
  cases x with
  | error e => cases h
  | ok a => exact ⟨a, rfl, Except.ok.inj h⟩

open Lexeme (EndsName LeavesName next?)

/-- A scan that has come to `l`, where `t` is left of the source. No name goes on there. -/
def Reaches (source : Text) (l : Location) (t : Text) : Prop :=
  ∃ front : Text, source = front ++ t ∧ Location.start.advance front = l ∧
    (LeavesName front ∨ EndsName t)

section Reaches

variable {l : Location} {t : Text} {cls : Lexeme.Class} {k : Token.Kind} {n : Nat}

theorem reaches_start (source : Text) : Reaches source .start source :=
  ⟨[], rfl, rfl, .inl Lexeme.leavesName_nil⟩

theorem Reaches.holds (h : Reaches source l t) (n : Nat) : source.Holds l (t.take n) := by
  obtain ⟨front, hs, hl, -⟩ := h
  refine Text.holds_iff.2 ⟨front, t.drop n, ?_, hl⟩
  rw [List.append_assoc, List.take_append_drop, hs]

theorem Reaches.next (h : Reaches source l t) (hne : t ≠ []) (hnext : next? t = some (cls, n)) :
    Reaches source (l.advance (t.take n)) (t.drop n) := by
  obtain ⟨front, hs, rfl, -⟩ := h
  refine ⟨front ++ t.take n, ?_, ?_, ?_⟩
  · rw [List.append_assoc, List.take_append_drop, hs]
  · rw [Location.advance_append]
  · rcases Lexeme.next?_ends hnext with hends | hleaves
    · exact .inr hends
    · have hsome : t.take n ≠ [] := by
        rw [Ne, List.take_eq_nil_iff, not_or]
        exact ⟨Nat.ne_of_gt (Lexeme.next?_pos hnext), hne⟩
      exact .inl (hleaves.append_left hsome front)

theorem Reaches.holdsName (h : Reaches source l t) (hnext : next? t = some (.token k, n))
    (hk : k.isWord) : source.HoldsName l (t.take n) := by
  obtain ⟨front, hs, hl, hcut⟩ := h
  refine Text.holdsName_iff.2 ⟨front, t.drop n, ?_, hl, ?_⟩
  · rw [List.append_assoc, List.take_append_drop, hs]
  rcases Lexeme.name_of_next? hnext hk with hname | hprivate
  · obtain ⟨hform, hends⟩ := Lexeme.nameLength?_ends hname
    -- a name starts here, so none goes on
    have hfront := hcut.resolve_right (Lexeme.not_endsName_of_nameLength? hname)
    exact .name hform hfront hends
  · obtain ⟨x, hx, hform, hends⟩ := Lexeme.privateNameLength?_ends hprivate
    rw [hx]
    exact .privateName hform hends

end Reaches

theorem scanFrom_tokens {fuel : Nat} {loc : Location} {t : Text} {s : Scan}
    (h : scanFrom fuel loc t = .ok s) (ht : Reaches source loc t) :
    (∀ u ∈ s.tokens, u.Scanned source ∧ loc.le u.start) ∧
      s.tokens.Pairwise fun a b => a.stop.le b.start := by
  induction fuel generalizing loc t s with
  | zero =>
    cases t with
    | nil =>
      obtain rfl := Except.ok.inj h
      exact ⟨by simp, .nil⟩
    | cons c rest => cases h
  | succ fuel ih =>
    cases t with
    | nil =>
      obtain rfl := Except.ok.inj h
      exact ⟨by simp, .nil⟩
    | cons c rest =>
      rw [scanFrom] at h
      split at h
      · cases h
      · rename_i cls n hnext
        obtain ⟨below, hbelow, rfl⟩ := exists_ok_of_map h
        obtain ⟨hall, hsorted⟩ := ih hbelow (ht.next (List.cons_ne_nil c rest) hnext)
        have hle : loc.le (loc.advance ((c :: rest).take n)) := Location.le_advance _ _
        have habove : ∀ u ∈ below.tokens, u.Scanned source ∧ loc.le u.start := by
          intro u hu
          exact ⟨(hall u hu).1, Location.le_trans hle (hall u hu).2⟩
        cases cls with
        | token k =>
          have hfirst : Token.Scanned source
              ⟨k, (c :: rest).take n, loc, loc.advance ((c :: rest).take n)⟩ :=
            ⟨⟨ht.holds n, rfl, Lexeme.next?_fits hnext, ht.holdsName hnext⟩,
              Lexeme.kind_of_semicolon hnext⟩
          refine ⟨?_, List.pairwise_cons.2 ⟨fun u hu => (hall u hu).2, hsorted⟩⟩
          intro u hu
          rcases List.mem_cons.1 hu with rfl | hu
          · exact ⟨hfirst, Location.le_refl _⟩
          · exact habove u hu
        | comment => exact ⟨habove, hsorted⟩
        | blank => exact ⟨habove, hsorted⟩

theorem scan_tokens {s : Scan} (h : scan source = .ok s) :
    (∀ u ∈ s.tokens, u.Scanned source) ∧ s.tokens.Pairwise fun a b => a.stop.le b.start := by
  obtain ⟨hall, hsorted⟩ := scanFrom_tokens h (reaches_start source)
  exact ⟨fun u hu => (hall u hu).1, hsorted⟩

end Scan

/-! ## Placed tokens -/

namespace Token

/-- A terminator that no semicolon stands for. -/
def isFiller (t : Token) : Bool := t.kind = .terminator && t.text != ";"

/-- From where on other tokens can follow: behind a template, and at the start of any other token,
whose place a terminator can borrow. -/
def reach (t : Token) : Location := if t.kind = .template then t.stop else t.start

/-- The order of placed tokens. Only a filler may stand in front of what has been read. -/
def Before (t u : Token) : Prop :=
  t.start.le u.start ∧ (u.isFiller = false → t.reach.le u.start)

/-- Tokens in order that stand in the source. -/
structure Ordered (source : Text) (ts : List Token) : Prop where
  lies : ∀ t ∈ ts, t.LiesIn source
  before : ts.Pairwise Before

variable {source : Text} {t u : Token} {p : Place}

theorem LiesIn.stop_le (h : t.LiesIn source) : t.stop.le (Location.start.advance source) := by
  rw [h.stop_eq]
  exact h.holds.stop_le

theorem LiesIn.reach_le_stop (h : t.LiesIn source) : t.reach.le t.stop := by
  unfold reach
  split
  · exact Location.le_refl _
  · exact h.start_le_stop

namespace Place

/-- No role makes a string or a template of another token, or a word of one that is none. -/
def Keeps (k role : Kind) : Prop :=
  role = k ∨ (role ≠ .string ∧ role ≠ .template) ∧ (role.isWord → k.isWord)

theorem keeps_of_plain {k role : Kind}
    (h : (role ≠ .string ∧ role ≠ .template) ∧ role.isWord = false) : Keeps k role :=
  .inr ⟨h.1, fun hword => by rw [h.2] at hword; cases hword⟩

theorem keeps_of_isWord {k role : Kind} (hk : k.isWord) (h : role ≠ .string ∧ role ≠ .template) :
    Keeps k role := .inr ⟨h, fun _ => hk⟩

theorem isWord_of_isReserved {k : Kind} (h : k.isReserved) : k.isWord := by
  simp [Kind.isWord, h]

theorem braceRole_keeps (p : Place) (k : Kind) : Keeps k p.braceRole := by
  unfold braceRole
  repeat' split
  all_goals exact keeps_of_plain (by decide)

theorem reservedRole_keeps (p : Place) {k : Kind} (hk : k.isReserved) (next : Option Kind) :
    Keeps k (p.reservedRole k next) := by
  have hword := isWord_of_isReserved hk
  unfold reservedRole
  dsimp only
  repeat' split
  all_goals first | exact .inl rfl | exact keeps_of_isWord hword (by decide)

theorem nameRole_keeps (p : Place) (t : Token) (rest : List Token) :
    Keeps .name (p.nameRole t rest) := by
  unfold nameRole
  dsimp only
  repeat' split
  all_goals exact keeps_of_isWord (by decide) (by decide)

theorem role_keeps (p : Place) (t : Token) (rest : List Token) :
    Keeps t.kind (p.role t rest) := by
  unfold role
  split
  · exact braceRole_keeps p _
  split
  · exact keeps_of_plain (by decide)
  split
  · next hk => exact reservedRole_keeps p hk _
  split
  · next hk => exact hk ▸ nameRole_keeps p t rest
  · exact .inl rfl

theorem role_liesIn (h : t.LiesIn source) (rest : List Token) :
    ({ t with kind := p.role t rest } : Token).LiesIn source := by
  rcases role_keeps p t rest with heq | ⟨⟨hs, ht⟩, hword⟩
  · rw [heq]
    exact h
  · exact ⟨h.holds, h.stop_eq, Kind.fits_of_ne hs ht, fun hk => h.whole (hword hk)⟩

theorem terminatorOf_liesIn (h : t.LiesIn source) : (terminatorOf t).LiesIn source :=
  ⟨h.holds, h.stop_eq, trivial, fun hk => absurd (show Kind.isWord .terminator from hk) (by decide)⟩

/-- Placed tokens behind `lo`, of which only fillers may stand in front of `hi`. -/
structure Laid (source : Text) (lo hi : Location) (ts : List Token) : Prop
    extends Ordered source ts where
  from_lo : ∀ u ∈ ts, lo.le u.start
  from_hi : ∀ u ∈ ts, u.isFiller = false → hi.le u.start

variable {lo hi mid : Location} {ts : List Token}

theorem Laid.nil : Laid source lo hi [] := ⟨⟨by simp, .nil⟩, by simp, by simp⟩

theorem Laid.cons (ht : t.LiesIn source) (hlo : lo.le t.start)
    (hhi : t.isFiller = false → hi.le t.start) (hreach : t.reach.le mid) (hmid : hi.le mid)
    (h : Laid source t.start mid ts) : Laid source lo hi (t :: ts) := by
  refine ⟨⟨?_, List.pairwise_cons.2 ⟨?_, h.before⟩⟩, ?_, ?_⟩
  · exact List.forall_mem_cons.2 ⟨ht, h.lies⟩
  · intro u hu
    exact ⟨h.from_lo u hu, fun hf => Location.le_trans hreach (h.from_hi u hu hf)⟩
  · exact List.forall_mem_cons.2 ⟨hlo, fun u hu => Location.le_trans hlo (h.from_lo u hu)⟩
  · exact List.forall_mem_cons.2
      ⟨hhi, fun u hu hf => Location.le_trans hmid (h.from_hi u hu hf)⟩

theorem isFiller_terminatorOf (ht : t.text ≠ ";") : (terminatorOf t).isFiller = true := by
  simp [isFiller, terminatorOf, ht]

theorem Laid.filler (ht : t.LiesIn source) (hf : t.isFiller = true) (hlo : lo.le t.start) :
    Laid source lo hi [t] :=
  ⟨⟨by simpa using ht, List.pairwise_singleton _ _⟩, by simpa using hlo, by simp [hf]⟩

/-- A token in its role, with the end of a statement in front of it or not. -/
theorem Laid.front {k : Kind} {ends : Prop} [Decidable ends] (ht : t.LiesIn source)
    (hk : ({ t with kind := k } : Token).LiesIn source) (hlo : lo.le t.start) (hhi : hi.le t.start)
    (h : Laid source t.start t.stop ts) :
    Laid source lo hi ((if ends then [terminatorOf t, { t with kind := k }]
      else [{ t with kind := k }]) ++ ts) := by
  have hstop : hi.le t.stop := Location.le_trans hhi ht.start_le_stop
  split
  · refine .cons (terminatorOf_liesIn ht) hlo (fun _ => hhi) (Location.le_refl _) hhi ?_
    exact .cons hk (Location.le_refl _) (fun _ => Location.le_refl _) hk.reach_le_stop
      ht.start_le_stop h
  · exact .cons hk hlo (fun _ => hhi) hk.reach_le_stop hstop h

theorem placeFrom_laid (module newline : Bool) (p : Place) (last : Option Token)
    (hts : ∀ t ∈ ts, t.Scanned source) (hsorted : ts.Pairwise fun a b => a.stop.le b.start)
    (hhi : ∀ t ∈ ts, hi.le t.start) (hle : lo.le hi)
    (hlast : p.canEnd → ∀ t, last = some t → t.LiesIn source ∧ t.text ≠ ";" ∧ lo.le t.start) :
    Laid source lo hi (placeFrom module p newline last ts) := by
  induction ts generalizing newline p last lo hi with
  | nil =>
    cases last with
    | none => exact .nil
    | some t =>
      rw [placeFrom]
      split
      · rename_i hend
        obtain ⟨hlies, htext, hlo⟩ := hlast (Bool.and_eq_true_iff.1 hend).2 t rfl
        exact .filler (terminatorOf_liesIn hlies) (isFiller_terminatorOf htext) hlo
      · exact .nil
  | cons t rest ih =>
    obtain ⟨ht, hrest⟩ := List.forall_mem_cons.1 hts
    obtain ⟨htrest, hsorted'⟩ := List.pairwise_cons.1 hsorted
    obtain ⟨hhit, hhirest⟩ := List.forall_mem_cons.1 hhi
    have hlot := Location.le_trans hle hhit
    have hbounds := ht.start_le_stop
    have hterm : (terminatorOf t).LiesIn source := terminatorOf_liesIn ht.toLiesIn
    rw [placeFrom]
    split
    · exact ih _ _ _ hrest hsorted' hhirest hle hlast
    split
    · -- behind a semicolon no statement is open, so the last token ends none
      have hbehind := ih false p.afterTerminator last hrest hsorted' htrest hbounds
        (fun hend => by cases hend)
      exact .cons hterm hlot (fun _ => hhit) hbounds (Location.le_trans hhit hbounds) hbehind
    rename_i hsemicolon
    have htext : t.text ≠ ";" := fun h => hsemicolon (ht.semicolon h)
    have hf := isFiller_terminatorOf htext
    dsimp only
    generalize (if p.endsBefore t.kind newline = true then p.afterTerminator else p) = q
    generalize (if p.closesLoop t.kind = true then q.leaveLoop else q) = q'
    have hrole : ({ t with kind := q.role t rest } : Token).LiesIn source :=
      role_liesIn ht.toLiesIn rest
    have hbehind (p : Place) := ih false p (some { t with kind := q.role t rest }) hrest hsorted'
      htrest hbounds fun _ u hu => by
        obtain rfl := Option.some.inj hu
        exact ⟨hrole, htext, Location.le_refl _⟩
    split
    · refine .front ht.toLiesIn hrole hlot hhit ?_
      exact .cons hterm (Location.le_refl _) (by simp [hf]) hbounds (Location.le_refl _)
        (hbehind _)
    · exact .front ht.toLiesIn hrole hlot hhit (hbehind _)

end Place

section Modes

variable {ts : List Token} (hts : ∀ t ∈ ts, t.Scanned source)
  (hsorted : ts.Pairwise fun a b => a.stop.le b.start)

include hts hsorted

theorem placeModule_ordered : Ordered source (placeModule ts) := by
  have hlaid : Place.Laid source ⟨0, 0⟩ ⟨0, 0⟩ (placeModule ts) := by
    refine Place.placeFrom_laid true false .ofModule none hts hsorted ?_ (Location.le_refl _) ?_
    · intro t _
      rw [Location.le_iff]
      simp only
      omega
    · intro hend
      cases hend
  exact hlaid.toOrdered

theorem placeExpression_ordered : Ordered source (placeExpression ts) := by
  have hlaid : Place.Laid source ⟨0, 0⟩ ⟨0, 0⟩ (placeExpression ts) := by
    refine Place.placeFrom_laid false false .ofExpression none hts hsorted ?_
      (Location.le_refl _) ?_
    · intro t _
      rw [Location.le_iff]
      simp only
      omega
    · intro hend
      cases hend
  exact hlaid.toOrdered

end Modes

end Token

end InlineTemplates
