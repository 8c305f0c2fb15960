import InlineTemplates.Grammar.Draft
import InlineTemplates.Proofs.TemplateParts

/-!
# What a scan stops at

No lexeme is empty, so a scan goes on to the end of the source or up to a code point that starts no
lexeme. Each template that it passes has parts, and placing the tokens makes no other templates.
-/

namespace InlineTemplates

namespace Lexeme

variable {t : Text} {n : Nat}

theorem templateLength?_of_next? (h : next? t = some (.token .template, n)) :
    templateLength? t = some n := by
  have hall : ∀ c, next? t = some c → c.1 = .token .template → templateLength? t = some c.2 := by
    unfold next?
    refine all_orElse ?template <| all_orElse ?_ <| all_orElse ?_ <| all_orElse ?_ <|
      all_orElse ?name <| all_orElse ?_ <| all_orElse ?_ <| all_orElse ?_ <| all_orElse ?_ <|
      all_orElse ?_ ?sign
    all_goals
      intro c hc hk
      obtain ⟨m, hm, rfl⟩ := Option.map_eq_some_iff.1 hc
    case template => exact hm
    case name => exact absurd (Lexeme.Class.token.inj hk) (nameKind_plain _).2
    case sign => exact absurd (Lexeme.Class.token.inj hk) (sign?_plain hm).2
    all_goals cases hk
  exact hall _ h rfl

end Lexeme

namespace Token

def Parts (t : Token) (chunks : List Text) (holes : List Template.Hole) : Prop :=
  t.kind = .template ∧
    Template.parts? (t.start.step '\x60') (Reader.inside t) = some (chunks, holes)

theorem Parts.unique {t : Token} {chunks chunks' : List Text} {holes holes' : List Template.Hole}
    (h : t.Parts chunks holes) (h' : t.Parts chunks' holes') : chunks = chunks' ∧ holes = holes' :=
  Prod.mk.inj (Option.some.inj (h.2.symm.trans h'.2))

/-- What stands in a template has parts. -/
def Splits (t : Token) : Prop :=
  t.kind = .template → ∀ loc, (Template.parts? loc (Reader.inside t)).isSome

theorem splits_of_ne {t : Token} (h : t.kind ≠ .template) : t.Splits := fun hk => absurd hk h

theorem Splits.parts {t : Token} (h : t.Splits) (hk : t.kind = .template) :
    ∃ chunks holes, t.Parts chunks holes := by
  obtain ⟨⟨chunks, holes⟩, hparts⟩ := Option.isSome_iff_exists.1 (h hk (t.start.step '\x60'))
  exact ⟨chunks, holes, hk, hparts⟩

end Token

namespace Scan

theorem scanFrom_splits {fuel : Nat} {loc : Location} {t : Text} {s : Scan}
    (h : scanFrom fuel loc t = .ok s) : ∀ u ∈ s.tokens, u.Splits := by
  induction fuel generalizing loc t s with
  | zero =>
    cases t with
    | nil =>
      obtain rfl := Except.ok.inj h
      simp
    | cons c rest => cases h
  | succ fuel ih =>
    cases t with
    | nil =>
      obtain rfl := Except.ok.inj h
      simp
    | cons c rest =>
      rw [scanFrom] at h
      split at h
      · cases h
      · rename_i cls n hnext
        obtain ⟨below, hbelow, rfl⟩ := exists_ok_of_map h
        have hrest := ih hbelow
        cases cls with
        | token k =>
          refine List.forall_mem_cons.2 ⟨?_, hrest⟩
          rintro (rfl : k = .template) loc
          exact Template.parts?_isSome (Lexeme.templateLength?_of_next? hnext) loc
        | comment => exact hrest
        | blank => exact hrest

/-- A scan fails where a code point starts no lexeme. -/
theorem scanFrom_fails {fuel : Nat} {loc : Location} {t : Text} {f : PlacedFault}
    (h : scanFrom fuel loc t = .error f) (hfuel : t.length ≤ fuel) :
    ∃ (front rest : Text) (c : CodePoint), t = front ++ c :: rest ∧
      Lexeme.next? (c :: rest) = none ∧
        f = ⟨.unexpectedCharacter c, loc.advance front⟩ := by
  induction fuel generalizing loc t with
  | zero =>
    obtain rfl := List.length_eq_zero_iff.1 (Nat.le_zero.1 hfuel)
    cases h
  | succ fuel ih =>
    cases t with
    | nil => cases h
    | cons c rest =>
      rw [scanFrom] at h
      split at h
      · rename_i hnext
        cases h
        exact ⟨[], rest, c, rfl, hnext, rfl⟩
      · rename_i cls n hnext
        dsimp only at h
        have hpos := Lexeme.next?_pos hnext
        have hlength : ((c :: rest).drop n).length ≤ fuel := by
          rw [List.length_drop]
          omega
        cases hbehind : scanFrom fuel (loc.advance ((c :: rest).take n)) ((c :: rest).drop n) with
        | ok s =>
          rw [hbehind] at h
          cases h
        | error f' =>
          rw [hbehind] at h
          cases h
          obtain ⟨front, rest', c', heq, hnone, rfl⟩ := ih hbehind hlength
          refine ⟨(c :: rest).take n ++ front, rest', c', ?_, hnone, ?_⟩
          · rw [List.append_assoc, ← heq, List.take_append_drop]
          · rw [Location.advance_append]

end Scan

namespace Token.Place

theorem role_splits {t : Token} (h : t.Splits) (p : Place) (rest : List Token) :
    ({ t with kind := p.role t rest } : Token).Splits := by
  rcases role_keeps p t rest with heq | ⟨⟨-, hk⟩, -⟩
  · rwa [heq]
  · exact splits_of_ne hk

theorem placeFrom_splits {ts : List Token} (h : ∀ t ∈ ts, t.Splits) (module newline : Bool)
    (p : Place) (last : Option Token) :
    ∀ u ∈ placeFrom module p newline last ts, u.Splits := by
  have hterm (t : Token) : (terminatorOf t).Splits := splits_of_ne nofun
  induction ts generalizing newline p last with
  | nil =>
    cases last with
    | none =>
      rw [placeFrom]
      exact List.forall_mem_nil _
    | some t =>
      rw [placeFrom]
      split
      · exact List.forall_mem_singleton.2 (hterm t)
      · exact List.forall_mem_nil _
  | cons t rest ih =>
    obtain ⟨ht, hrest⟩ := List.forall_mem_cons.1 h
    have hbehind := ih hrest
    rw [placeFrom]
    split
    · exact hbehind _ _ _
    split
    · exact List.forall_mem_cons.2 ⟨hterm t, hbehind _ _ _⟩
    dsimp only
    generalize (if p.endsBefore t.kind newline = true then p.afterTerminator else p) = q
    generalize (if p.closesLoop t.kind = true then q.leaveLoop else q) = q'
    have hrole := role_splits ht q rest
    have hfront : ∀ u ∈ (if p.endsBefore t.kind newline = true then
        [terminatorOf t, { t with kind := q.role t rest }] else
          [{ t with kind := q.role t rest }]), u.Splits := by
      split
      · exact List.forall_mem_cons.2 ⟨hterm t, List.forall_mem_singleton.2 hrole⟩
      · exact List.forall_mem_singleton.2 hrole
    split
    · refine List.forall_mem_append.2 ⟨hfront, ?_⟩
      exact List.forall_mem_cons.2 ⟨hterm t, hbehind _ _ _⟩
    · exact List.forall_mem_append.2 ⟨hfront, hbehind _ _ _⟩

end Token.Place

end InlineTemplates
