import InlineTemplates.Proofs.TemplateGrammar
import InlineTemplates.Text.Identifier
import Mathlib.Data.List.TakeWhile

/-!
# How lexemes end

A lexeme goes as far as it can. So no name goes on where one ends: what ends with an identifier
character is a name, with none behind it, or a number. A name right behind a number starts there.
-/

namespace InlineTemplates

namespace Lexeme

variable {t u front rest body x : Text} {c : CodePoint} {n m : Nat} {cls : Class}
  {p : CodePoint → Bool}

/-! ## Whole names -/

/-- The text does not go on with a name in front of it. -/
def EndsName (t : Text) : Prop := ∀ c ∈ t.head?, c.isNamePart = false

@[simp]
theorem endsName_nil : EndsName [] := by simp [EndsName]

@[simp]
theorem endsName_cons (c : CodePoint) (t : Text) : EndsName (c :: t) ↔ c.isNamePart = false := by
  simp [EndsName]

theorem EndsName.append (ht : EndsName t) (hu : EndsName u) : EndsName (t ++ u) := by
  cases t with
  | nil => exact hu
  | cons c t => exact ht

/-- The text does not go on with a name behind it: it ends with no identifier character, or with a
number. -/
def LeavesName (t : Text) : Prop :=
  ∀ c ∈ t.getLast?, c.isNamePart → ∃ n, n <:+ t ∧ numberLength? n = some n.length

/-- The text between two others is all of a name. A private name starts with a sign of its own. -/
inductive IsWhole (front rest : Text) : Text → Prop where
  | name {x : Text} (hx : Identifier.hasForm x) (hfront : LeavesName front)
      (hrest : EndsName rest) : IsWhole front rest x
  | privateName {x : Text} (hx : Identifier.hasForm x) (hrest : EndsName rest) :
      IsWhole front rest (CodePoint.scalar '#' :: x)

theorem leavesName_nil : LeavesName [] := nofun

theorem leavesName_of_forall (h : ∀ c ∈ t, c.isNamePart = false) : LeavesName t := by
  intro c hc hpart
  rw [h c (List.mem_of_getLast? hc)] at hpart
  cases hpart

theorem leavesName_concat (h : t = u ++ [c]) (hc : c.isNamePart = false) : LeavesName t := by
  subst h
  intro d hd hpart
  rw [List.getLast?_concat, Option.mem_some_iff] at hd
  rw [← hd, hc] at hpart
  cases hpart

theorem leavesName_number (h : numberLength? t = some t.length) : LeavesName t :=
  fun _ _ _ => ⟨t, List.suffix_rfl, h⟩

theorem LeavesName.append_left (h : LeavesName t) (hne : t ≠ []) (front : Text) :
    LeavesName (front ++ t) := by
  intro c hc hpart
  rw [List.getLast?_append, List.getLast?_eq_some_getLast hne, Option.some_or,
    ← List.getLast?_eq_some_getLast hne] at hc
  obtain ⟨n, hn, hnumber⟩ := h c hc hpart
  exact ⟨n, hn.trans (List.suffix_append front t), hnumber⟩

theorem LeavesName.append (ht : LeavesName t) (hu : LeavesName u) : LeavesName (t ++ u) := by
  cases u with
  | nil => rwa [List.append_nil]
  | cons c u => exact hu.append_left (List.cons_ne_nil c u) t

theorem IsWhole.append (h : IsWhole front rest x) (ht : LeavesName t) (hu : EndsName u) :
    IsWhole (t ++ front) (rest ++ u) x := by
  cases h with
  | name hx hfront hrest => exact .name hx (ht.append hfront) (hrest.append hu)
  | privateName hx hrest => exact .privateName hx (hrest.append hu)

/-! ## Quotes and delimiters -/

theorem stringRest_shape {quote : CodePoint} {escaped : Bool}
    (h : stringRest quote escaped t = some n) : ∃ body : Text, t.take n = body ++ [quote] := by
  induction t generalizing escaped n with
  | nil => simp [stringRest] at h
  | cons c rest ih =>
    have hcons {e : Bool} (h : (stringRest quote e rest).map (1 + ·) = some n) :
        ∃ body : Text, (c :: rest).take n = body ++ [quote] := by
      obtain ⟨m, hm, rfl⟩ := Option.map_eq_some_iff.1 h
      obtain ⟨body, hbody⟩ := ih hm
      exact ⟨c :: body, by rw [Nat.add_comm, List.take_succ_cons, hbody, List.cons_append]⟩
    rw [stringRest] at h
    split at h
    · exact hcons h
    · split at h
      · rename_i hc
        obtain rfl := Option.some.inj h
        exact ⟨[], by simp [hc]⟩
      · split at h
        · simp at h
        · exact hcons h

theorem stringLength?_shape (h : stringLength? t = some n) :
    ∃ (quote : CodePoint) (body : Text), (quote = '"' ∨ quote = '\'') ∧
      t.take n = quote :: body ++ [quote] := by
  cases t with
  | nil => simp [stringLength?] at h
  | cons c rest =>
    rw [stringLength?] at h
    split at h
    · rename_i hc
      obtain ⟨m, hm, rfl⟩ := Option.map_eq_some_iff.1 h
      obtain ⟨body, hbody⟩ := stringRest_shape hm
      exact ⟨c, body, hc, by rw [Nat.add_comm, List.take_succ_cons, hbody, List.cons_append]⟩
    · cases h

theorem templateLength?_shape (h : templateLength? t = some n) :
    ∃ inside : Text, t.take n = CodePoint.scalar '\x60' :: inside ++ [CodePoint.scalar '\x60'] := by
  obtain ⟨inside, _, _, htake, -⟩ := Template.inside_of_templateLength? h
  exact ⟨inside, htake⟩

theorem blockCommentRest_cons (h : ¬(c = '*' ∧ rest.head? = some '/')) :
    blockCommentRest (c :: rest) = (blockCommentRest rest).map (1 + ·) := by
  rw [blockCommentRest]
  rintro rest' rfl rfl
  exact h ⟨rfl, rfl⟩

theorem exists_body_of_blockCommentRest (h : blockCommentRest t = some n) :
    ∃ body, blockCommentRest body = none ∧ t.take n = body ++ "*/" := by
  induction t generalizing n with
  | nil => cases h
  | cons c rest ih =>
    by_cases hc : c = '*' ∧ rest.head? = some '/'
    · obtain ⟨rfl, hhead⟩ := hc
      obtain ⟨rest', rfl⟩ := List.head?_eq_some_iff.1 hhead
      cases h
      exact ⟨[], rfl, rfl⟩
    · rw [blockCommentRest_cons hc] at h
      obtain ⟨m, hm, rfl⟩ := Option.map_eq_some_iff.1 h
      obtain ⟨body, hbody, htake⟩ := ih hm
      refine ⟨c :: body, ?_, ?_⟩
      · rw [blockCommentRest_cons, hbody]
        · rfl
        rintro ⟨rfl, hhead⟩
        -- what the body starts with, the rest starts with
        obtain ⟨body', rfl⟩ := List.head?_eq_some_iff.1 hhead
        refine hc ⟨rfl, ?_⟩
        cases rest with
        | nil => simp at htake
        | cons d rest =>
          cases m with
          | zero => cases htake
          | succ m => exact congrArg List.head? htake
      · rw [Nat.add_comm, List.take_succ_cons, htake, List.cons_append]

/-! ## Numbers -/

theorem takeWhile_take (h : (t.takeWhile p).length ≤ n) :
    (t.take n).takeWhile p = t.takeWhile p := by
  rw [← List.take_takeWhile, List.take_of_length_le h]

theorem takeWhile_drop_take {i : Nat} (h : i + ((t.drop i).takeWhile p).length ≤ n) :
    ((t.take n).drop i).takeWhile p = (t.drop i).takeWhile p := by
  rw [List.drop_take]
  exact takeWhile_take (by omega)

theorem head?_take (h : 0 < n) : (t.take n).head? = t.head? := by
  rw [List.head?_take, if_neg (Nat.ne_of_gt h)]

theorem head?_drop_take {i : Nat} (h : i < n) : ((t.take n).drop i).head? = (t.drop i).head? := by
  rw [List.drop_take]
  exact head?_take (Nat.sub_pos_of_lt h)

theorem exponentLength_take (t : Text) :
    exponentLength (t.take (exponentLength t)) = exponentLength t := by
  cases t with
  | nil => rfl
  | cons c rest =>
    obtain ⟨sign, hsign⟩ :
        ∃ n, (if rest.head? = some '+' ∨ rest.head? = some '-' then 1 else 0) = n := ⟨_, rfl⟩
    have hlength : exponentLength (c :: rest) =
        if (c = 'e' ∨ c = 'E') ∧ ((rest.drop sign).takeWhile CodePoint.isDigit).length ≠ 0 then
          1 + sign + ((rest.drop sign).takeWhile CodePoint.isDigit).length
        else 0 := by
      simp only [exponentLength, hsign]
    rw [hlength]
    split
    · next h =>
      have hhead : (rest.take (sign + ((rest.drop sign).takeWhile
          CodePoint.isDigit).length)).head? = rest.head? := head?_take (by omega)
      rw [Nat.add_assoc, Nat.add_comm 1, List.take_succ_cons, exponentLength]
      simp only [hhead, hsign, takeWhile_drop_take (Nat.le_refl _), if_pos h]
      omega
    · rfl

theorem hexLength?_take (h : hexLength? t = some n) : hexLength? (t.take n) = some n := by
  unfold hexLength? at h ⊢
  dsimp only at h ⊢
  split at h
  · next hhex =>
    obtain rfl := Option.some.inj h
    rw [takeWhile_drop_take (Nat.le_refl _), head?_drop_take (by omega), head?_take (by omega),
      if_pos hhex]
  · cases h

theorem hexLength?_take_eq_none (h : hexLength? t = none) (n : Nat) :
    hexLength? (t.take n) = none := by
  unfold hexLength? at h ⊢
  dsimp only at h ⊢
  split at h
  · cases h
  · next hhex =>
    refine if_neg fun ⟨hzero, hbase, hdigits⟩ => hhex ?_
    rw [List.drop_take, List.head?_take] at hbase
    rw [List.head?_take] at hzero
    rw [List.drop_take, ← List.take_takeWhile] at hdigits
    split at hzero
    · cases hzero
    split at hbase
    · simp at hbase
    refine ⟨hzero, hbase, fun hnone => hdigits ?_⟩
    rw [List.length_take, hnone, Nat.min_zero]

theorem mantissaLength?_take (h : mantissaLength? t = some m) (hn : m ≤ n) :
    mantissaLength? (t.take n) = some m := by
  unfold mantissaLength? at h ⊢
  dsimp only at h ⊢
  have hwhole : (t.takeWhile CodePoint.isDigit).length ≤ m := by
    split_ifs at h <;> cases h <;> omega
  rw [takeWhile_take (hwhole.trans hn)]
  by_cases hpoint : (t.drop (t.takeWhile CodePoint.isDigit).length).head? = some '.'
  · have hfraction : (t.takeWhile CodePoint.isDigit).length + 1 + ((t.drop ((t.takeWhile
        CodePoint.isDigit).length + 1)).takeWhile CodePoint.isDigit).length ≤ m := by
      simp only [hpoint, decide_true] at h
      split_ifs at h <;> cases h <;> omega
    rw [head?_drop_take (by omega), takeWhile_drop_take (by omega)]
    exact h
  · have hnone : ((t.take n).drop (t.takeWhile CodePoint.isDigit).length).head? ≠ some '.' := by
      rw [List.drop_take, List.head?_take]
      split
      · simp
      · exact hpoint
    simp only [hpoint, decide_false] at h
    simp only [hnone, decide_false]
    exact h

theorem length_takeWhile_drop_le (t : Text) (i : Nat) :
    ((t.drop i).takeWhile p).length ≤ t.length - i := by
  rw [← List.length_drop]
  exact (List.takeWhile_prefix p).length_le

theorem exponentLength_le (t : Text) : exponentLength t ≤ t.length := by
  cases t with
  | nil => exact Nat.le_refl 0
  | cons c rest =>
    rw [exponentLength]
    generalize (if rest.head? = some '+' ∨ rest.head? = some '-' then 1 else 0) = sign
    have := length_takeWhile_drop_le (p := CodePoint.isDigit) rest sign
    rw [List.length_cons]
    split_ifs <;> omega

theorem hexLength?_le (h : hexLength? t = some n) : n ≤ t.length := by
  unfold hexLength? at h
  have := length_takeWhile_drop_le (p := CodePoint.isHexDigit) t 2
  dsimp only at h
  split_ifs at h
  cases h
  omega

theorem mantissaLength?_le (h : mantissaLength? t = some n) : n ≤ t.length := by
  unfold mantissaLength? at h
  dsimp only at h
  have hwhole := length_takeWhile_drop_le (p := CodePoint.isDigit) t 0
  have hfraction := length_takeWhile_drop_le (p := CodePoint.isDigit) t
    ((t.takeWhile CodePoint.isDigit).length + 1)
  have hpoint : (t.drop (t.takeWhile CodePoint.isDigit).length).head? = some '.' →
      (t.takeWhile CodePoint.isDigit).length < t.length := by
    intro h
    by_contra hlt
    rw [List.drop_eq_nil_of_le (Nat.le_of_not_lt hlt)] at h
    simp at h
  rw [List.drop_zero] at hwhole
  simp only [decide_eq_true_eq] at h
  split_ifs at h with hzero hpointed hpointed <;> cases h
  · have := hpoint hpointed.1
    omega
  · have := hpoint hpointed
    omega
  · omega

theorem numberLength?_le (h : numberLength? t = some n) : n ≤ t.length := by
  unfold numberLength? at h
  cases hhex : hexLength? t with
  | some k =>
    rw [hhex] at h
    obtain rfl := Option.some.inj h
    exact hexLength?_le hhex
  | none =>
    rw [hhex] at h
    obtain ⟨m, hm, rfl⟩ := Option.map_eq_some_iff.1 h
    have hexponent := exponentLength_le (t.drop m)
    rw [List.length_drop] at hexponent
    have := mantissaLength?_le hm
    omega

/-- A number is one without what stands behind it. -/
theorem numberLength?_take (h : numberLength? t = some n) : numberLength? (t.take n) = some n := by
  unfold numberLength? at h ⊢
  cases hhex : hexLength? t with
  | some k =>
    rw [hhex] at h
    obtain rfl := Option.some.inj h
    rw [hexLength?_take hhex]
  | none =>
    rw [hhex] at h
    obtain ⟨m, hm, rfl⟩ := Option.map_eq_some_iff.1 h
    rw [hexLength?_take_eq_none hhex, mantissaLength?_take hm (Nat.le_add_right _ _)]
    simp only [Option.map_some, List.drop_take, Nat.add_sub_cancel_left, exponentLength_take]

/-! ## Ends -/

theorem take_length_takeWhile (t : Text) : t.take (t.takeWhile p).length = t.takeWhile p :=
  (List.prefix_iff_eq_take.1 (List.takeWhile_prefix p)).symm

theorem head?_drop_takeWhile : ∀ c ∈ (t.drop (t.takeWhile p).length).head?, p c = false := by
  have hdrop : t.drop (t.takeWhile p).length = t.dropWhile p :=
    List.drop_left' rfl |>.symm.trans (by rw [List.takeWhile_append_dropWhile]) |>.symm
  intro c hc
  have hnot := List.head?_dropWhile_not p t
  rw [← hdrop, hc] at hnot
  exact hnot

theorem nameLength?_ends (h : nameLength? t = some n) :
    Identifier.hasForm (t.take n) ∧ EndsName (t.drop n) := by
  cases t with
  | nil => cases h
  | cons c rest =>
    rw [nameLength?] at h
    split at h
    · next hc =>
      obtain rfl := Option.some.inj h
      rw [Nat.add_comm, List.take_succ_cons, List.drop_succ_cons, take_length_takeWhile]
      exact ⟨Bool.and_eq_true_iff.2 ⟨hc, List.all_takeWhile⟩, head?_drop_takeWhile⟩
    · cases h

theorem not_endsName_of_nameLength? (h : nameLength? t = some n) : ¬EndsName t := by
  cases t with
  | nil => cases h
  | cons c rest =>
    rw [nameLength?] at h
    split at h
    · next hc => simp [CodePoint.isNamePart, hc]
    · cases h

theorem privateNameLength?_ends (h : privateNameLength? t = some n) :
    ∃ x, t.take n = CodePoint.scalar '#' :: x ∧ Identifier.hasForm x ∧ EndsName (t.drop n) := by
  cases t with
  | nil => cases h
  | cons c rest =>
    rw [privateNameLength?] at h
    split at h
    · next hc =>
      obtain ⟨m, hm, rfl⟩ := Option.map_eq_some_iff.1 h
      obtain ⟨hform, hends⟩ := nameLength?_ends hm
      rw [Nat.add_comm, List.take_succ_cons, List.drop_succ_cons, hc]
      exact ⟨_, rfl, hform, hends⟩
    · cases h

theorem numberLength?_leaves (h : numberLength? t = some n) : LeavesName (t.take n) := by
  have hlength : (t.take n).length = n := List.length_take_of_le (numberLength?_le h)
  exact leavesName_number ((numberLength?_take h).trans (by rw [hlength]))

theorem blockCommentLength?_leaves (h : blockCommentLength? t = some n) :
    LeavesName (t.take n) := by
  unfold blockCommentLength? at h
  split at h
  · next rest =>
    obtain ⟨m, hm, rfl⟩ := Option.map_eq_some_iff.1 h
    obtain ⟨body, -, htake⟩ := exists_body_of_blockCommentRest hm
    have hlast : Text.ofString "/*" ++ (body ++ Text.ofString "*/") =
        Text.ofString "/*" ++ (body ++ Text.ofString "*") ++ [CodePoint.scalar '/'] := by
      rw [List.append_assoc, List.append_assoc]
      rfl
    rw [Nat.add_comm, List.take_succ_cons, List.take_succ_cons, htake]
    exact leavesName_concat hlast (by decide)
  · cases h

theorem newlineLength?_leaves (h : newlineLength? t = some n) : LeavesName (t.take n) := by
  have hblank (rest : Text) : ∀ c ∈ rest.takeWhile (fun (c : CodePoint) =>
      c = '\n' || c = '\t' || c = ' ' || c = '\r'), c.isNamePart = false := by
    intro c hc
    have hc := List.mem_takeWhile_imp hc
    simp only [Bool.or_eq_true, decide_eq_true_eq] at hc
    rcases hc with ((rfl | rfl) | rfl) | rfl <;> decide
  unfold newlineLength? at h
  dsimp only at h
  split at h
  · next rest =>
    obtain rfl := Option.some.inj h
    rw [Nat.add_comm, List.take_succ_cons, take_length_takeWhile]
    exact leavesName_of_forall (List.forall_mem_cons.2 ⟨by decide, hblank rest⟩)
  · next rest =>
    obtain rfl := Option.some.inj h
    rw [Nat.add_comm, List.take_succ_cons, List.take_succ_cons, take_length_takeWhile]
    exact leavesName_of_forall
      (List.forall_mem_cons.2 ⟨by decide, List.forall_mem_cons.2 ⟨by decide, hblank rest⟩⟩)
  · cases h

theorem blankLength?_leaves (h : blankLength? t = some n) : LeavesName (t.take n) := by
  unfold blankLength? at h
  dsimp only at h
  split at h
  · cases h
  · obtain rfl := Option.some.inj h
    rw [take_length_takeWhile]
    refine leavesName_of_forall fun c hc => ?_
    have hc := List.mem_takeWhile_imp hc
    simp only [Bool.or_eq_true, decide_eq_true_eq] at hc
    rcases hc with ((rfl | rfl) | rfl) | rfl <;> decide

theorem lineCommentLength?_ends (h : lineCommentLength? t = some n) : EndsName (t.drop n) := by
  unfold lineCommentLength? at h
  split at h
  · next rest =>
    obtain rfl := Option.some.inj h
    rw [Nat.add_comm, List.drop_succ_cons, List.drop_succ_cons]
    intro c hc
    have hline := head?_drop_takeWhile c hc
    obtain rfl : c = '\n' := by simpa using hline
    decide
  · cases h

theorem optionalChainLength?_leaves (h : optionalChainLength? t = some n) :
    LeavesName (t.take n) := by
  unfold optionalChainLength? at h
  split at h
  · split at h
    · cases h
    · obtain rfl := Option.some.inj h
      exact leavesName_of_forall (by simp; decide)
  · cases h

theorem sign?_leaves {s : Token.Kind × Nat} (h : sign? t = some s) :
    LeavesName (t.take s.2) := by
  have hsigns : ∀ p ∈ Token.Kind.punctuation, ∀ c ∈ Text.ofString p.1, c.isNamePart = false := by
    decide
  obtain ⟨p, hp, rfl⟩ := Option.map_eq_some_iff.1 h
  have hstart : Text.ofString p.1 <+: t := List.isPrefixOf_iff_prefix.1 (by
    simpa using List.find?_some hp)
  have htake : t.take p.1.length = Text.ofString p.1 := by
    have hlength : (Text.ofString p.1).length = p.1.length := List.length_map ..
    rw [← hlength]
    exact (List.prefix_iff_eq_take.1 hstart).symm
  rw [htake]
  exact leavesName_of_forall (hsigns p (List.mem_of_find?_eq_some hp))

theorem all_orElse {α : Type} {P : α → Prop} {x y : Option α} (hx : ∀ a, x = some a → P a)
    (hy : ∀ a, y = some a → P a) : ∀ a, (x <|> y) = some a → P a := by
  intro a h
  rw [Option.orElse_eq_orElse, Option.orElse_eq_or, Option.or_eq_some_iff] at h
  exact h.elim (hx a) fun h => hy a h.2

theorem hexLength?_pos (h : hexLength? t = some n) : 0 < n := by
  unfold hexLength? at h
  grind

theorem mantissaLength?_pos (h : mantissaLength? t = some n) : 0 < n := by
  unfold mantissaLength? at h
  grind

theorem numberLength?_pos (h : numberLength? t = some n) : 0 < n := by
  unfold numberLength? at h
  split at h
  · rename_i m hm
    exact Option.some.inj h ▸ hexLength?_pos hm
  · obtain ⟨m, hm, rfl⟩ := Option.map_eq_some_iff.1 h
    exact Nat.add_pos_left (mantissaLength?_pos hm) _

theorem sign?_pos {s : Token.Kind × Nat} (h : sign? t = some s) : 0 < s.2 := by
  have hsigns : ∀ p ∈ Token.Kind.punctuation, 0 < p.1.length := by decide
  obtain ⟨p, hp, rfl⟩ := Option.map_eq_some_iff.1 h
  exact hsigns p (List.mem_of_find?_eq_some hp)

theorem next?_pos {cls : Class} (h : next? t = some (cls, n)) : 0 < n := by
  have hall : ∀ c, next? t = some c → 0 < c.2 := by
    unfold next?
    refine all_orElse ?_ <| all_orElse ?number <| all_orElse ?_ <| all_orElse ?_ <|
      all_orElse ?_ <| all_orElse ?_ <| all_orElse ?_ <| all_orElse ?_ <| all_orElse ?_ <|
      all_orElse ?_ ?sign
    all_goals
      intro c hc
      obtain ⟨m, hm, rfl⟩ := Option.map_eq_some_iff.1 hc
    case number => exact numberLength?_pos hm
    case sign => exact sign?_pos hm
    -- each of the others counts its first code point
    all_goals
      simp only [templateLength?, stringLength?, privateNameLength?, nameLength?,
        blockCommentLength?, newlineLength?, lineCommentLength?, blankLength?,
        optionalChainLength?] at hm
      grind [Option.map_eq_some_iff]
  exact hall _ h

/-- No name goes on where a lexeme ends. -/
theorem next?_ends (h : next? t = some (cls, n)) :
    EndsName (t.drop n) ∨ LeavesName (t.take n) := by
  have hall : ∀ l, next? t = some l → EndsName (t.drop l.2) ∨ LeavesName (t.take l.2) := by
    unfold next?
    refine all_orElse ?template <| all_orElse ?number <| all_orElse ?string <|
      all_orElse ?privateName <| all_orElse ?name <| all_orElse ?block <| all_orElse ?newline <|
      all_orElse ?line <| all_orElse ?blank <| all_orElse ?chain ?sign
    all_goals
      intro l hl
      obtain ⟨m, hm, rfl⟩ := Option.map_eq_some_iff.1 hl
    case template =>
      obtain ⟨inside, htake⟩ := templateLength?_shape hm
      exact .inr (leavesName_concat htake (by decide))
    case number => exact .inr (numberLength?_leaves hm)
    case string =>
      obtain ⟨quote, body, hquote, htake⟩ := stringLength?_shape hm
      exact .inr (leavesName_concat htake (by rcases hquote with rfl | rfl <;> decide))
    case privateName =>
      obtain ⟨-, -, -, hends⟩ := privateNameLength?_ends hm
      exact .inl hends
    case name => exact .inl (nameLength?_ends hm).2
    case block => exact .inr (blockCommentLength?_leaves hm)
    case newline => exact .inr (newlineLength?_leaves hm)
    case line => exact .inl (lineCommentLength?_ends hm)
    case blank => exact .inr (blankLength?_leaves hm)
    case chain => exact .inr (optionalChainLength?_leaves hm)
    case sign => exact .inr (sign?_leaves hm)
  exact hall _ h

end Lexeme

end InlineTemplates
