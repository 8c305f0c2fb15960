import InlineTemplates.Proofs.Visits

/-!
# Semicolons in the place of line breaks

A statement that ends without a semicolon is placed as one that ends with it: with a semicolon
wherever a terminator was put, and no line breaks, the tokens get the same kinds. The roles look
ahead, so this asks for two things at each token: that a reserved word which can end a statement is
a name where a member starts, and that no arrow follows the condition of a do-loop.
-/

namespace InlineTemplates

namespace Token

open Place (significant terminatorOf placeFrom closesIntoArrow marksAsync)

/-- The semicolon that can stand where a terminator was put at a token. -/
def semicolonAt (t : Token) : Token := { t with kind := .semicolon, text := ";" }

@[simp]
theorem semicolonAt_kind (t : Token) : (semicolonAt t).kind = .semicolon := rfl

def semicolonIf (put : Bool) (t : Token) : List Token := if put then [semicolonAt t] else []

namespace Visit

variable (v : Visit)

/-- The token with semicolons where terminators are put around it. -/
def spelled : List Token :=
  if v.token.kind = .semicolon then [v.token]
  else semicolonIf v.endsBefore v.token ++ v.token :: semicolonIf v.endsBehind v.token

/-- The role of the token does not hang on what ends the statement behind it. -/
structure Settled : Prop where
  /-- A reserved word that can end a statement is a name where a member starts. -/
  member : v.token.kind.isReserved → v.place.startsMember → v.role.canEnd → v.role = .name
  /-- No arrow follows the condition of a do-loop. -/
  arrow : v.endsBehind → ∀ u ∈ (significant v.rest).head?, u.kind ≠ .arrow

end Visit

namespace Place

variable {p : Place} {k : Kind} {t : Token} {rest ts : List Token} {module newline : Bool}
  {last : Option Token}

/-- The tokens without line breaks, with a semicolon wherever a terminator is put without one. -/
def withSemicolonsFrom (module : Bool) (p : Place) (newline : Bool) (last : Option Token) :
    List Token → List Token
  | [] =>
    match last with
    | some t => semicolonIf (module && p.canEnd) t
    | none => []
  | t :: rest =>
    if t.kind = .newline then withSemicolonsFrom module p true last rest
    else
      let v : Visit := ⟨p, newline, t, rest⟩
      v.spelled ++ withSemicolonsFrom module v.after false
        (if t.kind = .semicolon then last else some t) rest

theorem withSemicolonsFrom_newline (h : t.kind = .newline) :
    withSemicolonsFrom module p newline last (t :: rest) =
      withSemicolonsFrom module p true last rest := by
  rw [withSemicolonsFrom, if_pos h]

theorem withSemicolonsFrom_semicolon (h : t.kind = .semicolon) :
    withSemicolonsFrom module p newline last (t :: rest) =
      t :: withSemicolonsFrom module p.afterTerminator false last rest := by
  have hline : t.kind ≠ .newline := by rw [h]; decide
  simp [withSemicolonsFrom, Visit.spelled, Visit.after, h]

theorem withSemicolonsFrom_visit (hline : t.kind ≠ .newline) (hsemicolon : t.kind ≠ .semicolon) :
    let v : Visit := ⟨p, newline, t, rest⟩
    withSemicolonsFrom module p newline last (t :: rest) =
      semicolonIf v.endsBefore t ++ t :: (semicolonIf v.endsBehind t ++
        withSemicolonsFrom module v.after false (some t) rest) := by
  simp [withSemicolonsFrom, Visit.spelled, hline, hsemicolon]

/-! ## What stands in front -/

theorem canEnd_of_endsBefore (h : p.endsBefore k newline) : p.canEnd := by
  revert h
  simp only [endsBefore, endsBranch]
  cases p.canEnd <;> simp

theorem endsBefore_false_of (h : p.endsBefore k newline = false) :
    p.endsBefore k false = false := by
  simp only [endsBefore, Bool.or_eq_false_iff, Bool.false_and] at h ⊢
  exact ⟨⟨h.1.1, trivial⟩, h.2⟩

theorem endsBefore_arrow (p : Place) (newline : Bool) : p.endsBefore .arrow newline = false := by
  simp [endsBefore, closesLoop, Kind.continuesLine]

theorem semicolonIf_lines (put : Bool) (t : Token) :
    ∀ u ∈ semicolonIf put t, u.kind ≠ .newline := by
  cases put <;> simp [semicolonIf]

theorem withSemicolonsFrom_lines (module : Bool) (p : Place) (newline : Bool) (last : Option Token)
    (ts : List Token) :
    ∀ u ∈ withSemicolonsFrom module p newline last ts, u.kind ≠ .newline := by
  induction ts generalizing p newline last with
  | nil =>
    cases last with
    | none => simp [withSemicolonsFrom]
    | some t => exact semicolonIf_lines _ t
  | cons t rest ih =>
    by_cases hline : t.kind = .newline
    · rw [withSemicolonsFrom_newline hline]
      exact ih _ _ _
    by_cases hsemicolon : t.kind = .semicolon
    · rw [withSemicolonsFrom_semicolon hsemicolon]
      exact List.forall_mem_cons.2 ⟨hline, ih _ _ _⟩
    · rw [withSemicolonsFrom_visit hline hsemicolon]
      exact List.forall_mem_append.2 ⟨semicolonIf_lines _ t, List.forall_mem_cons.2 ⟨hline,
        List.forall_mem_append.2 ⟨semicolonIf_lines _ t, ih _ _ _⟩⟩⟩

theorem head_withSemicolonsFrom (module : Bool) (p : Place) (newline : Bool) (last : Option Token)
    (ts : List Token) :
    (withSemicolonsFrom module p newline last ts).head? = (significant ts).head? ∨
      p.canEnd ∧ (∃ t, (withSemicolonsFrom module p newline last ts).head? = some (semicolonAt t)) ∧
        ∀ u ∈ (significant ts).head?, u.kind ≠ .semicolon ∧ u.kind ≠ .arrow := by
  induction ts generalizing newline with
  | nil =>
    cases last with
    | none => exact .inl rfl
    | some t =>
      cases hend : module && p.canEnd with
      | false => exact .inl (by simp [withSemicolonsFrom, semicolonIf, hend, significant])
      | true =>
        refine .inr ⟨(Bool.and_eq_true_iff.1 hend).2, ⟨t, ?_⟩, by simp [significant]⟩
        simp [withSemicolonsFrom, semicolonIf, hend]
  | cons t rest ih =>
    by_cases hline : t.kind = .newline
    · have hskip : significant (t :: rest) = significant rest := by simp [significant, hline]
      rw [withSemicolonsFrom_newline hline, hskip]
      exact ih true
    rw [significant_cons hline]
    by_cases hsemicolon : t.kind = .semicolon
    · rw [withSemicolonsFrom_semicolon hsemicolon]
      exact .inl rfl
    rw [withSemicolonsFrom_visit hline hsemicolon]
    cases hends : Visit.endsBefore ⟨p, newline, t, rest⟩ with
    | false => exact .inl rfl
    | true =>
      refine .inr ⟨canEnd_of_endsBefore hends, ⟨t, rfl⟩, fun u hu => ?_⟩
      obtain rfl := Option.some.inj hu
      refine ⟨hsemicolon, fun harrow => ?_⟩
      have hnot := endsBefore_arrow p newline
      rw [← harrow] at hnot
      exact absurd (hends.symm.trans hnot) (by decide)

/-! ## Parentheses and arrows -/

theorem closesIntoArrow_semicolonIf (put : Bool) (t : Token) (ts : List Token) (depth : Nat) :
    closesIntoArrow depth (semicolonIf put t ++ ts) = closesIntoArrow depth ts := by
  cases put <;> simp [semicolonIf, closesIntoArrow]

theorem arrow_withSemicolonsFrom {put : Bool}
    (h : put → ∀ u ∈ (significant ts).head?, u.kind ≠ .arrow) :
    ((significant (semicolonIf put t ++ withSemicolonsFrom module p newline last ts)).head?.any
      fun a => a.kind = .arrow) = (significant ts).head?.any fun a => a.kind = .arrow := by
  have hnone (hne : ∀ u ∈ (significant ts).head?, u.kind ≠ .arrow) :
      ((significant ts).head?.any fun a => a.kind = .arrow) = false := by
    rw [Option.any_eq_false_iff_get]
    intro hsome
    simpa using hne _ (Option.get_mem hsome)
  have hlines := withSemicolonsFrom_lines module p newline last ts
  cases put with
  | true =>
    rw [hnone (h rfl)]
    simp [semicolonIf, significant]
  | false =>
    rw [semicolonIf, if_neg Bool.false_ne_true, List.nil_append, significant_eq hlines]
    rcases head_withSemicolonsFrom module p newline last ts with hhead | ⟨-, ⟨s, hhead⟩, hne⟩
    · rw [hhead]
    · rw [hhead, hnone fun u hu => (hne u hu).2]
      simp

theorem closesIntoArrow_withSemicolonsFrom
    (h : ∀ v ∈ p.visits newline ts, v.Settled) (depth : Nat) :
    closesIntoArrow depth (withSemicolonsFrom module p newline last ts) =
      closesIntoArrow depth ts := by
  induction ts generalizing p newline last depth with
  | nil =>
    cases last with
    | none => rfl
    | some t => simpa [withSemicolonsFrom] using closesIntoArrow_semicolonIf _ t [] depth
  | cons t rest ih =>
    by_cases hline : t.kind = .newline
    · rw [visits_newline hline] at h
      rw [withSemicolonsFrom_newline hline, ih h]
      simp [closesIntoArrow, hline]
    rw [visits_cons hline] at h
    obtain ⟨hv, hrest⟩ := List.forall_mem_cons.1 h
    by_cases hsemicolon : t.kind = .semicolon
    · rw [Visit.after, if_pos hsemicolon] at hrest
      rw [withSemicolonsFrom_semicolon hsemicolon]
      simp [closesIntoArrow, hsemicolon, ih hrest]
    · rw [withSemicolonsFrom_visit hline hsemicolon, closesIntoArrow_semicolonIf]
      simp only [closesIntoArrow, closesIntoArrow_semicolonIf, ih hrest,
        arrow_withSemicolonsFrom hv.arrow]

/-! ## Looking ahead -/

/-- What the roles see of the tokens behind them stays, or a semicolon stands in front. -/
theorem ahead_withSemicolonsFrom (h : ∀ v ∈ p.visits newline ts, v.Settled) :
    (significant (withSemicolonsFrom module p newline last ts)).head?.map Token.kind =
          (significant ts).head?.map Token.kind ∧
        (∀ t, marksAsync t (withSemicolonsFrom module p newline last ts) = marksAsync t ts) ∨
      p.canEnd ∧ ∃ t us, withSemicolonsFrom module p newline last ts = semicolonAt t :: us := by
  induction ts generalizing newline with
  | nil =>
    cases last with
    | none => exact .inl ⟨rfl, fun t => rfl⟩
    | some t =>
      cases hend : module && p.canEnd with
      | false => exact .inl (by simp [withSemicolonsFrom, semicolonIf, hend])
      | true =>
        refine .inr ⟨(Bool.and_eq_true_iff.1 hend).2, t, [], ?_⟩
        simp [withSemicolonsFrom, semicolonIf, hend]
  | cons u rest ih =>
    by_cases hline : u.kind = .newline
    · rw [visits_newline hline] at h
      have hskip : significant (u :: rest) = significant rest := by simp [significant, hline]
      rw [withSemicolonsFrom_newline hline]
      simpa only [marksAsync, hskip] using ih h
    by_cases hsemicolon : u.kind = .semicolon
    · rw [withSemicolonsFrom_semicolon hsemicolon]
      exact .inl ⟨by simp [significant, hline], fun t => by
        simp [marksAsync, significant, hsemicolon]⟩
    rw [visits_cons hline] at h
    obtain ⟨hv, hrest⟩ := List.forall_mem_cons.1 h
    rw [withSemicolonsFrom_visit hline hsemicolon]
    cases hends : Visit.endsBefore ⟨p, newline, u, rest⟩ with
    | true => exact .inr ⟨canEnd_of_endsBefore hends, u, _, rfl⟩
    | false =>
      refine .inl ⟨by simp [significant, hline, semicolonIf], fun t => ?_⟩
      rw [semicolonIf, if_neg Bool.false_ne_true, List.nil_append]
      simp only [marksAsync, significant_cons hline, arrow_withSemicolonsFrom hv.arrow,
        closesIntoArrow_semicolonIf, closesIntoArrow_withSemicolonsFrom hrest]

theorem canEnd_of_closedBy {c : Context} (h : p.closedBy k = some c) : k.canEnd := by
  cases k <;> first | rfl | cases h

end Place

namespace Visit

open Place

variable {v : Visit} {module : Bool}

def restWithSemicolons (module : Bool) (v : Visit) : List Token :=
  semicolonIf v.endsBehind v.token ++
    withSemicolonsFrom module v.after false (some v.token) v.rest

theorem role_canEnd (hsemicolon : v.token.kind ≠ .semicolon) (h : v.endsBehind ∨ v.after.canEnd) :
    v.role.canEnd := by
  by_cases hb : v.endsBehind = true
  · exact canEnd_of_closedBy (of_decide_eq_true hb).1
  · have hcan := h.resolve_left hb
    rw [after, if_neg hsemicolon, if_neg hb] at hcan
    exact (Bool.and_eq_true_iff.1 hcan).1

theorem ahead_restWithSemicolons (module : Bool) (hsemicolon : v.token.kind ≠ .semicolon)
    (hrest : ∀ w ∈ v.after.visits false v.rest, w.Settled) :
    (significant (v.restWithSemicolons module)).head?.map Token.kind =
          (significant v.rest).head?.map Token.kind ∧
        (∀ t, marksAsync t (v.restWithSemicolons module) = marksAsync t v.rest) ∨
      v.role.canEnd ∧ ∃ t us, v.restWithSemicolons module = semicolonAt t :: us := by
  cases hb : v.endsBehind with
  | true =>
    refine .inr ⟨role_canEnd hsemicolon (.inl hb), v.token,
      withSemicolonsFrom module v.after false (some v.token) v.rest, ?_⟩
    rw [restWithSemicolons, hb]
    rfl
  | false =>
    rw [restWithSemicolons, hb, semicolonIf, if_neg Bool.false_ne_true, List.nil_append]
    exact (ahead_withSemicolonsFrom hrest).imp_right fun ⟨hcan, hput⟩ =>
      ⟨role_canEnd hsemicolon (.inr hcan), hput⟩

theorem reservedRole_semicolon {p : Place} {k : Kind} {next : Option Kind}
    (hmember : p.startsMember → p.reservedRole k next = .name) :
    p.reservedRole k (some .semicolon) = p.reservedRole k next := by
  cases hstarts : p.startsMember with
  | false => simp [reservedRole, hstarts]
  | true =>
    have hname := hmember hstarts
    rw [hname]
    revert hname
    simp only [reservedRole, hstarts, Option.any_some, Kind.followsKey, Bool.and_true,
      Bool.or_true, if_true]
    repeat' split
    all_goals simp

theorem canEnd_ite {c : Prop} [Decidable c] {k l : Kind} (hk : k.canEnd = false) :
    (if c then k else l).canEnd ↔ ¬c ∧ l.canEnd := by
  split <;> simp [*]

theorem nameRole_semicolon {p : Place} {t u : Token} {rest us : List Token}
    (hcan : (p.nameRole t rest).canEnd) :
    p.nameRole t (semicolonAt u :: us) = p.nameRole t rest := by
  have hplain : ¬(t.text = "of" ∧ p.context = .head ∧ p.lastIs .name) ∧
      p.nameRole t rest = .name := by
    simp only [nameRole, canEnd_ite (k := .fromWord) rfl, canEnd_ite (k := .asWord) rfl,
      canEnd_ite (k := .ofWord) rfl, canEnd_ite (k := .asyncWord) rfl,
      canEnd_ite (k := .getWord) rfl, canEnd_ite (k := .setWord) rfl,
      canEnd_ite (k := .staticWord) rfl] at hcan ⊢
    obtain ⟨hfrom, has, hof, hasync, hmodasync, hget, hset, hstatic, -⟩ := hcan
    exact ⟨hof, by rw [if_neg hfrom, if_neg has, if_neg hof, if_neg hasync, if_neg hmodasync,
      if_neg hget, if_neg hset, if_neg hstatic]⟩
  have hasync : marksAsync t (semicolonAt u :: us) = false := by
    simp [marksAsync, significant]
  have hnext : (significant (semicolonAt u :: us)).head?.map Token.kind = some .semicolon := rfl
  have hkey : Kind.startsKey .semicolon = false := rfl
  rw [hplain.2, nameRole, hnext, hasync]
  simp [hplain.1, hkey]

/-- The semicolons leave the token its role. -/
theorem role_withSemicolons (hsemicolon : v.token.kind ≠ .semicolon) (hv : v.Settled)
    (hrest : ∀ w ∈ v.after.visits false v.rest, w.Settled) :
    v.place.role v.token (v.restWithSemicolons module) = v.role := by
  have hahead := ahead_restWithSemicolons module hsemicolon hrest
  change v.place.role v.token (v.restWithSemicolons module) = v.place.role v.token v.rest
  by_cases hreserved : v.token.kind.isReserved
  · rw [role_of_reserved hreserved, role_of_reserved hreserved]
    rcases hahead with ⟨hnext, -⟩ | ⟨hcan, t, us, hput⟩
    · rw [hnext]
    · rw [hput]
      refine reservedRole_semicolon fun hstarts => ?_
      rw [← role_of_reserved hreserved]
      exact hv.member hreserved hstarts hcan
  by_cases hname : v.token.kind = .name
  · rw [role_of_name hname, role_of_name hname]
    rcases hahead with ⟨hnext, hasync⟩ | ⟨hcan, t, us, hput⟩
    · simp only [nameRole, hnext, hasync]
    · rw [hput]
      exact nameRole_semicolon (by rwa [← role_of_name hname])
  · have harrow : closesIntoArrow 0 (v.restWithSemicolons module) = closesIntoArrow 0 v.rest := by
      rw [restWithSemicolons, closesIntoArrow_semicolonIf,
        closesIntoArrow_withSemicolonsFrom hrest]
    simp only [Place.role, harrow, if_neg hreserved, if_neg hname]

/-! ## One step -/

/-- The visit of the same token where semicolons end the statements. -/
def withSemicolons (module : Bool) (v : Visit) : Visit :=
  ⟨v.place, false, v.token, v.restWithSemicolons module⟩

theorem place_of_ends (h : v.endsBefore = true) : v.place = v.before.afterTerminator := if_pos h

theorem place_of_goes_on (h : v.endsBefore = false) : v.place = v.before := by
  rw [place, h, if_neg Bool.false_ne_true]

theorem withSemicolons_endsBefore : (v.withSemicolons module).endsBefore = false := by
  cases hends : v.endsBefore with
  | true =>
    rw [endsBefore, withSemicolons, place_of_ends hends, Bool.eq_false_iff]
    exact fun h => absurd (canEnd_of_endsBefore h) Bool.false_ne_true
  | false =>
    rw [endsBefore, withSemicolons, place_of_goes_on hends]
    exact endsBefore_false_of hends

theorem withSemicolons_place : (v.withSemicolons module).place = v.place :=
  place_of_goes_on withSemicolons_endsBefore

theorem withSemicolons_role (module : Bool) (hsemicolon : v.token.kind ≠ .semicolon)
    (hv : v.Settled) (hrest : ∀ w ∈ v.after.visits false v.rest, w.Settled) :
    (v.withSemicolons module).role = v.role := by
  rw [role, withSemicolons_place]
  exact role_withSemicolons hsemicolon hv hrest

theorem withSemicolons_left (hdo : v.before.canEnd → v.before.lastIs .doWord = false) :
    (v.withSemicolons module).left = v.left := by
  have hloop : v.place.closesLoop v.token.kind = v.before.closesLoop v.token.kind := by
    cases hends : v.endsBefore with
    | true =>
      have hlast := hdo (canEnd_of_endsBefore hends)
      rw [place_of_ends hends, closesLoop, closesLoop, hlast]
      rfl
    | false => rw [place_of_goes_on hends]
  rw [left, withSemicolons_place]
  simp only [withSemicolons, hloop]
  rfl

theorem withSemicolons_endsBehind (hdo : v.before.canEnd → v.before.lastIs .doWord = false)
    (hrole : (v.withSemicolons module).role = v.role) :
    (v.withSemicolons module).endsBehind = false := by
  rw [endsBehind, withSemicolons_left hdo, hrole, decide_eq_false_iff_not]
  rintro ⟨hclosed, hall⟩
  cases hb : v.endsBehind with
  | true =>
    simp [withSemicolons, restWithSemicolons, hb, semicolonIf, significant] at hall
  | false =>
    have hhead : ∃ u, (significant v.rest).head? = some u ∧ u.kind = .semicolon := by
      rw [endsBehind, decide_eq_false_iff_not, not_and] at hb
      cases hnext : (significant v.rest).head? with
      | none => simp [hnext, hclosed] at hb
      | some u => exact ⟨u, rfl, by simpa [hnext, hclosed] using hb⟩
    obtain ⟨u, hu, hukind⟩ := hhead
    have hlines := withSemicolonsFrom_lines module v.after false (some v.token) v.rest
    have hhead := head_withSemicolonsFrom module v.after false (some v.token) v.rest
    rcases hhead with hsame | ⟨-, -, hne⟩
    · simp [withSemicolons, restWithSemicolons, hb, semicolonIf, significant_eq hlines, hsame,
        hu, hukind] at hall
    · exact (hne u hu).1 hukind

theorem withSemicolons_output (hsemicolon : v.token.kind ≠ .semicolon)
    (hbehind : (v.withSemicolons module).endsBehind = false) :
    (v.withSemicolons module).output = [(v.withSemicolons module).placed] := by
  have hkind : (v.withSemicolons module).token.kind ≠ .semicolon := hsemicolon
  rw [output, if_neg hkind, withSemicolons_endsBefore, hbehind]
  rfl

theorem after_withSemicolons (hsemicolon : v.token.kind ≠ .semicolon)
    (hdo : v.before.canEnd → v.before.lastIs .doWord = false)
    (hrole : (v.withSemicolons module).role = v.role) :
    (if v.endsBehind then (v.withSemicolons module).after.afterTerminator
      else (v.withSemicolons module).after) = v.after := by
  have hkind : (v.withSemicolons module).token.kind ≠ .semicolon := hsemicolon
  rw [after, after, if_neg hsemicolon, if_neg hkind, withSemicolons_endsBehind hdo hrole,
    if_neg Bool.false_ne_true, withSemicolons_left hdo, hrole]

theorem output_kinds (hsemicolon : v.token.kind ≠ .semicolon) :
    v.output.map Token.kind = (if v.endsBefore then [.terminator] else []) ++
      v.role :: if v.endsBehind then [.terminator] else [] := by
  rw [output, if_neg hsemicolon]
  cases v.endsBefore <;> cases v.endsBehind <;> rfl

theorem after_canEnd (hsemicolon : v.token.kind ≠ .semicolon) (h : v.after.canEnd) :
    v.after.lastIs .doWord = false := by
  have hrole := role_canEnd hsemicolon (.inr h)
  have hne : v.role ≠ .doWord := by
    intro heq
    rw [heq] at hrole
    cases hrole
  rw [after, if_neg hsemicolon]
  split
  · rfl
  · simpa [lastIs, Place.after] using hne

end Visit

namespace Place

variable {p : Place} {k : Kind} {t : Token} {ts : List Token} {module newline : Bool}
  {last last' lastPlaced : Option Token}

theorem placeFrom_semicolonIf (put : Bool) :
    (placeFrom module p false last (semicolonIf put t ++ ts)).map Token.kind =
      (if put then [.terminator] else []) ++
        (placeFrom module (if put then p.afterTerminator else p) false last ts).map
          Token.kind := by
  cases put with
  | false => rfl
  | true => exact congrArg (List.map Token.kind) (placeFrom_semicolon rfl)

theorem placeFrom_withSemicolons_cons {v : Visit} (hline : v.token.kind ≠ .newline)
    (hsemicolon : v.token.kind ≠ .semicolon) (hv : v.Settled)
    (hrest : ∀ w ∈ v.after.visits false v.rest, w.Settled)
    (hdo : v.before.canEnd → v.before.lastIs .doWord = false) :
    (placeFrom module v.before false last (semicolonIf v.endsBefore v.token ++
        v.token :: v.restWithSemicolons module)).map Token.kind =
      v.output.map Token.kind ++ (placeFrom module v.after false
        (some (v.withSemicolons module).placed)
        (withSemicolonsFrom module v.after false (some v.token) v.rest)).map Token.kind := by
  have hrole := Visit.withSemicolons_role module hsemicolon hv hrest
  have hstep : (placeFrom module v.place false last
        (v.token :: v.restWithSemicolons module)).map Token.kind =
      v.role :: (placeFrom module (v.withSemicolons module).after false
        (some (v.withSemicolons module).placed) (v.restWithSemicolons module)).map Token.kind := by
    rw [placeFrom_visit hline hsemicolon]
    change ((v.withSemicolons module).output ++ _).map Token.kind = _
    rw [Visit.withSemicolons_output hsemicolon (Visit.withSemicolons_endsBehind hdo hrole), ← hrole]
    rfl
  rw [placeFrom_semicolonIf]
  change _ ++ (placeFrom module v.place false last _).map Token.kind = _
  rw [hstep, Visit.restWithSemicolons, placeFrom_semicolonIf,
    Visit.after_withSemicolons hsemicolon hdo hrole, Visit.output_kinds hsemicolon]
  simp

theorem placeFrom_withSemicolons (h : ∀ v ∈ p.visits newline ts, v.Settled)
    (hdo : p.canEnd → p.lastIs .doWord = false) (hlast : last.isSome = lastPlaced.isSome)
    (hlast' : last'.isSome = lastPlaced.isSome) :
    (placeFrom module p false last' (withSemicolonsFrom module p newline last ts)).map Token.kind =
      (placeFrom module p newline lastPlaced ts).map Token.kind := by
  induction ts generalizing p newline last last' lastPlaced with
  | nil =>
    cases lastPlaced with
    | none =>
      obtain rfl : last = none := by simpa using hlast
      obtain rfl : last' = none := by simpa using hlast'
      rfl
    | some u =>
      obtain ⟨t, rfl⟩ := Option.isSome_iff_exists.1 hlast
      obtain ⟨s, rfl⟩ := Option.isSome_iff_exists.1 hlast'
      cases hend : module && p.canEnd with
      | false => simp [withSemicolonsFrom, semicolonIf, placeFrom, hend]
      | true =>
        rw [withSemicolonsFrom, hend, ← List.append_nil (semicolonIf true t),
          placeFrom_semicolonIf]
        simp [placeFrom, afterTerminator, hend, terminatorOf]
  | cons t rest ih =>
    by_cases hline : t.kind = .newline
    · rw [visits_newline hline] at h
      rw [withSemicolonsFrom_newline hline, placeFrom_newline hline]
      exact ih h hdo hlast hlast'
    rw [visits_cons hline] at h
    obtain ⟨hv, hrest⟩ := List.forall_mem_cons.1 h
    by_cases hsemicolon : t.kind = .semicolon
    · rw [Visit.after, if_pos hsemicolon] at hrest
      rw [withSemicolonsFrom_semicolon hsemicolon, placeFrom_semicolon hsemicolon,
        placeFrom_semicolon hsemicolon, List.map_cons, List.map_cons,
        ih hrest (absurd · Bool.false_ne_true) hlast hlast']
    · rw [withSemicolonsFrom_visit hline hsemicolon, placeFrom_visit hline hsemicolon,
        List.map_append]
      refine (placeFrom_withSemicolons_cons hline hsemicolon hv hrest hdo).trans ?_
      exact congrArg (_ ++ ·) (ih hrest (Visit.after_canEnd hsemicolon) rfl rfl)

/-! ## Where the semicolons stand -/

theorem reservedRole_ne_terminator {next : Option Kind} (hk : k ≠ .terminator) :
    p.reservedRole k next ≠ .terminator := by
  unfold reservedRole
  simp only
  repeat' split
  all_goals simp [hk]

theorem nameRole_ne_terminator : p.nameRole t ts ≠ .terminator := by
  unfold nameRole
  simp only
  repeat' split
  all_goals simp

theorem role_ne_terminator (hk : t.kind ≠ .terminator) : p.role t ts ≠ .terminator := by
  have hbrace : p.braceRole ≠ .terminator := by
    unfold braceRole
    repeat' split
    all_goals simp
  unfold role
  repeat' split
  · exact hbrace
  · simp
  · exact reservedRole_ne_terminator hk
  · exact nameRole_ne_terminator
  · exact hk

/-- Each semicolon stands where a terminator is put, and each terminator is put where a semicolon
stands. -/
theorem withSemicolonsFrom_places (hts : ∀ t ∈ ts, t.kind ≠ .terminator)
    (hlast : last.isSome = lastPlaced.isSome) :
    (withSemicolonsFrom module p newline last ts).map (fun t => decide (t.kind = .semicolon)) =
      (placeFrom module p newline lastPlaced ts).map fun t => decide (t.kind = .terminator) := by
  induction ts generalizing p newline last lastPlaced with
  | nil =>
    cases lastPlaced with
    | none =>
      obtain rfl : last = none := by simpa using hlast
      rfl
    | some u =>
      obtain ⟨t, rfl⟩ := Option.isSome_iff_exists.1 hlast
      cases hend : module && p.canEnd <;>
        simp [withSemicolonsFrom, placeFrom, semicolonIf, hend, terminatorOf]
  | cons t rest ih =>
    obtain ⟨ht, hrest⟩ := List.forall_mem_cons.1 hts
    by_cases hline : t.kind = .newline
    · rw [withSemicolonsFrom_newline hline, placeFrom_newline hline]
      exact ih hrest hlast
    by_cases hsemicolon : t.kind = .semicolon
    · rw [withSemicolonsFrom_semicolon hsemicolon, placeFrom_semicolon hsemicolon, List.map_cons,
        List.map_cons, ih hrest hlast]
      simp [hsemicolon, terminatorOf]
    · let v : Visit := ⟨p, newline, t, rest⟩
      have hspelled : (semicolonIf v.endsBefore t ++ t :: semicolonIf v.endsBehind t).map
            (fun t => decide (t.kind = .semicolon)) =
          v.output.map fun t => decide (t.kind = .terminator) := by
        have hrole : v.role ≠ .terminator := role_ne_terminator ht
        rw [Visit.output, if_neg hsemicolon]
        cases v.endsBefore <;> cases v.endsBehind <;>
          simp [semicolonIf, hsemicolon, terminatorOf, Visit.placed, hrole]
      rw [withSemicolonsFrom_visit hline hsemicolon, placeFrom_visit hline hsemicolon,
        ← List.cons_append, ← List.append_assoc]
      refine List.map_append.trans (Eq.trans ?_ List.map_append.symm)
      refine (congrArg (· ++ List.map _ _) hspelled).trans (congrArg (List.map _ v.output ++ ·) ?_)
      exact ih hrest rfl

end Place

/-- The tokens of a module, with a semicolon for each terminator that is put without one. -/
def withSemicolons (ts : List Token) : List Token :=
  Place.withSemicolonsFrom true .ofModule false none ts

theorem withSemicolons_lines (ts : List Token) :
    ∀ t ∈ withSemicolons ts, t.kind ≠ .newline :=
  Place.withSemicolonsFrom_lines _ _ _ _ _

/-- The semicolons stand where the terminators are put. -/
theorem withSemicolons_places {ts : List Token} (h : ∀ t ∈ ts, t.kind ≠ .terminator) :
    (withSemicolons ts).map (fun t => decide (t.kind = .semicolon)) =
      (placeModule ts).map fun t => decide (t.kind = .terminator) :=
  Place.withSemicolonsFrom_places h rfl

/-- Line breaks end statements as semicolons in their place do. -/
theorem placeModule_withSemicolons {ts : List Token}
    (h : ∀ v ∈ Place.ofModule.visits false ts, v.Settled) :
    (placeModule (withSemicolons ts)).map Token.kind = (placeModule ts).map Token.kind :=
  Place.placeFrom_withSemicolons h (fun _ => rfl) rfl rfl

/-- A field of a class that a line break ends, with the name of a reserved word: the semicolon lets
it be a name, which the line break does not. -/
example :
    let ts := [Kind.classWord, .name, .leftBrace, .trueWord, .newline, .name, .rightBrace].map
      fun k => (⟨k, "", default, default⟩ : Token)
    (placeModule ts).map Token.kind = [.classDeclaration, .name, .classBrace, .trueWord,
        .terminator, .name, .terminator, .rightBrace, .terminator] ∧
      (placeModule (withSemicolons ts)).map Token.kind = [.classDeclaration, .name, .classBrace,
        .name, .terminator, .name, .terminator, .rightBrace, .terminator] := by
  decide

end Token

end InlineTemplates
