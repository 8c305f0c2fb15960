import InlineTemplates.Text.Unescaped
import Mathlib.Algebra.GroupWithZero.Nat

/-!
# Escapes

How the body of a string literal is read: from left to right, each escape once. An escape that
spells the number of a code point needs all of its digits, and without them it is read as a
backslash with one letter. A body has no value exactly where such an escape spells a number above
the greatest code point.
-/

namespace InlineTemplates

namespace CodePoint

theorem ofNat?_eq_none_iff {n : Nat} : ofNat? n = none ↔ maximum < n := by
  unfold ofNat?
  split
  · rename_i h
    simp only [reduceCtorEq, maximum, false_iff]
    omega
  · simp

theorem hexValue?_lt {c : CodePoint} {n : Nat} (h : c.hexValue? = some n) : n < 16 := by
  unfold hexValue? isAsciiDigit at h
  grind

end CodePoint

namespace Text

/-! ## Spelled numbers -/

theorem readHex_lt (digits : Text) : readHex digits < 16 ^ digits.length := by
  have hdigit (c : CodePoint) : c.hexValue?.getD 0 < 16 := by
    cases h : c.hexValue? with
    | none => decide
    | some n => exact CodePoint.hexValue?_lt h
  have hfold (t : Text) : ∀ n, t.foldl (fun n c => n * 16 + c.hexValue?.getD 0) n <
      (n + 1) * 16 ^ t.length := by
    induction t with
    | nil => simp
    | cons c t ih =>
      intro n
      have hstep : n * 16 + c.hexValue?.getD 0 + 1 ≤ (n + 1) * 16 := by
        have := hdigit c
        omega
      calc (c :: t).foldl (fun n c => n * 16 + c.hexValue?.getD 0) n
          < (n * 16 + c.hexValue?.getD 0 + 1) * 16 ^ t.length := ih _
        _ ≤ (n + 1) * 16 * 16 ^ t.length := Nat.mul_le_mul_right _ hstep
        _ = (n + 1) * 16 ^ (c :: t).length := by
          rw [List.length_cons, Nat.pow_succ', Nat.mul_assoc]
  simpa [readHex, readDigits] using hfold digits 0

/-- The escapes, without their backslash, that spell the number of a code point. -/
inductive Spells : Text → Nat → Prop where
  | braced {digits : Text} (hne : digits ≠ []) (hhex : digits.all CodePoint.isHexDigit) :
    Spells ('u' :: '\x7b' :: (digits ++ [CodePoint.scalar '\x7d'])) (readHex digits)
  | four {digits : Text} (hlength : digits.length = 4) (hhex : digits.all CodePoint.isHexDigit) :
    Spells ('u' :: digits) (readHex digits)
  | two {digits : Text} (hlength : digits.length = 2) (hhex : digits.all CodePoint.isHexDigit) :
    Spells ('x' :: digits) (readHex digits)

theorem Spells.not_mem_slash {e : Text} {n : Nat} (h : Spells e n) :
    CodePoint.scalar '\\' ∉ e := by
  have hdigits {digits : Text} (hhex : digits.all CodePoint.isHexDigit) :
      CodePoint.scalar '\\' ∉ digits := fun hmem =>
    absurd (List.all_eq_true.1 hhex _ hmem) (by decide)
  cases h with
  | braced hne hhex => simp [hdigits hhex]
  | four hlength hhex => simp [hdigits hhex]
  | two hlength hhex => simp [hdigits hhex]

theorem head?_ne_of_hex {digits rest : Text} {c : CodePoint} (hne : digits ≠ [])
    (hhex : digits.all CodePoint.isHexDigit) (hc : c.isHexDigit = false) :
    (digits ++ rest).head? ≠ some c := by
  cases digits with
  | nil => exact absurd rfl hne
  | cons d digits =>
    intro h
    obtain rfl : d = c := Option.some.inj h
    rw [List.all_cons, hc] at hhex
    cases hhex

theorem escapeAt?_spells {e : Text} {n : Nat} (h : Spells e n) (rest : Text) :
    escapeAt? (e ++ rest) =
      match CodePoint.ofNat? n with
      | some c => .ok ⟨e.length, [c]⟩
      | none => .error e := by
  have hsome (digits : Text) (hlength : digits.length ≤ 4) :
      ∃ c, CodePoint.ofNat? (readHex digits) = some c := by
    have hlt := readHex_lt digits
    have hpow : 16 ^ digits.length ≤ 16 ^ 4 := Nat.pow_le_pow_right (by decide) hlength
    refine Option.ne_none_iff_exists'.1 fun hnone => ?_
    have := CodePoint.ofNat?_eq_none_iff.1 hnone
    simp only [CodePoint.maximum] at this
    omega
  cases h with
  | @braced digits hne hhex =>
    have htake : (digits ++ (CodePoint.scalar '\x7d' :: rest)).takeWhile CodePoint.isHexDigit =
        digits := by
      rw [List.takeWhile_append_of_pos (by simpa using hhex)]
      simp [List.takeWhile_cons_of_neg (show ¬CodePoint.isHexDigit '\x7d' = true by decide)]
    simp only [escapeAt?, List.cons_append, List.append_assoc, List.drop_one, List.tail_cons,
      List.nil_append, htake, List.drop_left, List.head?_cons, hne, ne_eq, not_false_eq_true]
    cases CodePoint.ofNat? (readHex digits) with
    | some c => simp
    | none => rfl
  | @four digits hlength hhex =>
    have hne : digits ≠ [] := List.ne_nil_of_length_eq_add_one hlength
    have hbrace : ¬(digits ++ rest).head? = some '\x7b' :=
      head?_ne_of_hex hne hhex (by decide)
    obtain ⟨c, hc⟩ := hsome digits (by omega)
    have htake : (digits ++ rest).take 4 = digits := by rw [← hlength, List.take_left]
    have hlong : 4 ≤ (digits ++ rest).length := by rw [List.length_append]; omega
    simp only [escapeAt?, List.cons_append, hbrace, htake, hhex, hc, hlong, false_and, and_false,
      and_self, if_false, if_true, Option.toList_some, hlength, List.length_cons]
  | @two digits hlength hhex =>
    have hx : ¬CodePoint.scalar 'x' = 'u' := by decide
    obtain ⟨c, hc⟩ := hsome digits (by omega)
    have htake : (digits ++ rest).take 2 = digits := by rw [← hlength, List.take_left]
    have hlong : 2 ≤ (digits ++ rest).length := by rw [List.length_append]; omega
    simp only [escapeAt?, List.cons_append, hx, htake, hhex, hc, hlong, false_and,
      and_self, if_false, if_true, Option.toList_some, hlength, List.length_cons]

theorem escapeAt?_of_not_spells {c : CodePoint} {t : Text}
    (h : ∀ e n, Spells e n → ¬e <+: c :: t) :
    escapeAt? (c :: t) =
      if c = '\r' ∧ t.head? = some '\n' then .ok ⟨2, []⟩ else .ok ⟨1, simpleEscape c⟩ := by
  simp only [escapeAt?]
  rw [if_neg, if_neg, if_neg]
  · rintro ⟨rfl, hlong, hhex⟩
    refine h _ _ (.two (by rw [List.length_take]; omega) hhex) ?_
    exact (List.cons_prefix_cons).2 ⟨rfl, List.take_prefix 2 t⟩
  · rintro ⟨rfl, hlong, hhex⟩
    refine h _ _ (.four (by rw [List.length_take]; omega) hhex) ?_
    exact (List.cons_prefix_cons).2 ⟨rfl, List.take_prefix 4 t⟩
  · rintro ⟨rfl, hopen, hne, hclose⟩
    cases t with
    | nil => cases hopen
    | cons d t =>
      obtain rfl := Option.some.inj hopen
      refine h _ _ (.braced hne List.all_takeWhile) ?_
      have ht := List.prefix_iff_eq_append.1 (List.takeWhile_prefix (l := t) CodePoint.isHexDigit)
      obtain ⟨behind, hbehind⟩ := List.head?_eq_some_iff.1 hclose
      refine ⟨behind, ?_⟩
      simp only [List.drop_one, List.tail_cons] at hbehind ⊢
      rw [hbehind] at ht
      simp only [List.cons_append, List.append_assoc, List.nil_append, ht]

/-! ## Bodies -/

/-- What a body is read to: from left to right each escape once, and where one spells a number
above the greatest code point, that escape. -/
inductive Reads : Text → Except Text Text → Prop where
  | nil : Reads [] (.ok [])
  | plain {c : CodePoint} {t : Text} {v : Except Text Text} (hc : c ≠ '\\') (h : Reads t v) :
    Reads (c :: t) (v.map (c :: ·))
  | spelled {e t : Text} {n : Nat} {c : CodePoint} {v : Except Text Text} (he : Spells e n)
      (hn : CodePoint.ofNat? n = some c) (h : Reads t v) :
    Reads ('\\' :: (e ++ t)) (v.map (c :: ·))
  | beyond {e : Text} {n : Nat} (t : Text) (he : Spells e n) (hn : CodePoint.maximum < n) :
    Reads ('\\' :: (e ++ t)) (.error e)
  | lineEnd {t : Text} {v : Except Text Text} (h : Reads t v) :
    Reads ('\\' :: '\r' :: '\n' :: t) v
  /-- A backslash with one code point, where no longer escape stands. -/
  | simple {c : CodePoint} {t : Text} {v : Except Text Text}
      (hspells : ∀ e n, Spells e n → ¬e <+: c :: t)
      (hline : ¬(c = '\r' ∧ t.head? = some (CodePoint.scalar '\n'))) (h : Reads t v) :
    Reads ('\\' :: c :: t) (v.map (simpleEscape c ++ ·))
  /-- No literal ends with a backslash. -/
  | last : Reads ['\\'] (.ok ['\\'])

theorem unescapedFrom_append (read rest : Text) :
    unescapedFrom read.length (read ++ rest) = unescapedFrom 0 rest := by
  induction read with
  | nil => rfl
  | cons c read ih => exact ih

theorem unescapedFrom_escape {read rest : Text} {value : Text}
    (h : escapeAt? (read ++ rest) = .ok ⟨read.length, value⟩) :
    unescapedFrom 0 (CodePoint.scalar '\\' :: (read ++ rest)) =
      (unescapedFrom 0 rest).map (value ++ ·) := by
  simp only [unescapedFrom, if_true, h, unescapedFrom_append]

theorem unescaped_of_reads {t : Text} {v : Except Text Text} (h : Reads t v) :
    t.unescaped = v := by
  unfold unescaped
  induction h with
  | nil => rfl
  | plain hc _ ih => simp [unescapedFrom, hc, ih]
  | @spelled e t n c v he hn _ ih =>
    have hread := escapeAt?_spells he t
    rw [hn] at hread
    rw [unescapedFrom_escape hread, ih]
    rfl
  | beyond t he hn =>
    have hread := escapeAt?_spells he t
    rw [CodePoint.ofNat?_eq_none_iff.2 hn] at hread
    simp [unescapedFrom, hread]
  | @lineEnd t v h ih =>
    have hread : escapeAt? ([CodePoint.scalar '\r', CodePoint.scalar '\n'] ++ t) = .ok ⟨2, []⟩ := by
      simp [escapeAt?]
    refine (unescapedFrom_escape hread).trans ?_
    rw [ih]
    cases v <;> rfl
  | @simple c t v hspells hline h ih =>
    have hread : escapeAt? ([c] ++ t) = .ok ⟨1, simpleEscape c⟩ :=
      (escapeAt?_of_not_spells hspells).trans (if_neg hline)
    refine (unescapedFrom_escape hread).trans ?_
    rw [ih]
  | last => rfl

theorem exists_reads (t : Text) : ∃ v, Reads t v := by
  induction h : t.length using Nat.strongRecOn generalizing t with
  | ind n ih =>
    subst h
    have hshorter (front behind : Text) (ht : t = front ++ behind) (hne : front ≠ []) :
        ∃ v, Reads behind v := by
      refine ih _ ?_ behind rfl
      have := List.length_pos_iff.2 hne
      rw [ht, List.length_append]
      omega
    match t with
    | [] => exact ⟨_, .nil⟩
    | c :: t =>
      by_cases hc : c = '\\'
      · subst hc
        by_cases hspells : ∃ e n, Spells e n ∧ e <+: t
        · obtain ⟨e, n, he, behind, rfl⟩ := hspells
          cases hn : CodePoint.ofNat? n with
          | none => exact ⟨_, .beyond behind he (CodePoint.ofNat?_eq_none_iff.1 hn)⟩
          | some c =>
            obtain ⟨v, hv⟩ := hshorter ('\\' :: e) behind rfl (List.cons_ne_nil _ _)
            exact ⟨_, .spelled he hn hv⟩
        have hnone : ∀ e n, Spells e n → ¬e <+: t := fun e n he hpre => hspells ⟨e, n, he, hpre⟩
        match t with
        | [] => exact ⟨_, .last⟩
        | c :: t =>
          by_cases hline : c = '\r' ∧ t.head? = some (CodePoint.scalar '\n')
          · obtain ⟨rfl, hline⟩ := hline
            obtain ⟨behind, rfl⟩ := List.head?_eq_some_iff.1 hline
            obtain ⟨v, hv⟩ := hshorter ['\\', '\r', '\n'] behind rfl (List.cons_ne_nil _ _)
            exact ⟨_, .lineEnd hv⟩
          · obtain ⟨v, hv⟩ := hshorter ['\\', c] t rfl (List.cons_ne_nil _ _)
            exact ⟨_, .simple hnone hline hv⟩
      · obtain ⟨v, hv⟩ := hshorter [c] t rfl (List.cons_ne_nil _ _)
        exact ⟨_, .plain hc hv⟩

theorem reads_iff {t : Text} {v : Except Text Text} : Reads t v ↔ t.unescaped = v := by
  refine ⟨unescaped_of_reads, ?_⟩
  rintro rfl
  obtain ⟨v, hv⟩ := exists_reads t
  rwa [unescaped_of_reads hv]

/-! ## Bodies without a value -/

/-- The code point behind `front` is escaped. -/
def escapes (front : Text) : Bool :=
  front.foldl (fun escaped (c : CodePoint) => !escaped && c = '\\') false

theorem escapes_plain {c : CodePoint} (hc : c ≠ '\\') (front : Text) :
    escapes (c :: front) = escapes front := by
  simp [escapes, hc]

theorem escapes_escape (c : CodePoint) (front : Text) :
    escapes ('\\' :: c :: front) = escapes front := by
  simp [escapes]

theorem escapes_append {t : Text} (ht : CodePoint.scalar '\\' ∉ t) (front : Text) :
    escapes (t ++ front) = escapes front := by
  induction t with
  | nil => rfl
  | cons c t ih =>
    rw [List.mem_cons, not_or] at ht
    exact (escapes_plain (Ne.symm ht.1) _).trans (ih ht.2)

theorem Spells.escapes {e : Text} {n : Nat} (h : Spells e n) (front : Text) :
    escapes ('\\' :: (e ++ front)) = escapes front := by
  have hslash := h.not_mem_slash
  have hcons : ∃ c t, e = c :: t := by
    cases h with
    | braced | four | two => exact ⟨_, _, rfl⟩
  obtain ⟨c, t, rfl⟩ := hcons
  exact (escapes_escape c _).trans (escapes_append (fun hmem => hslash (.tail _ hmem)) front)

section Append

variable {front rest t e : Text} {n : Nat}

theorem Spells.prefix_of_append (h : Spells e n)
    (hpre : e <+: t ++ CodePoint.scalar '\\' :: rest) : e <+: t := by
  rcases List.prefix_or_prefix_of_prefix hpre (List.prefix_append t _) with hshort | ⟨behind, rfl⟩
  · exact hshort
  · rw [List.prefix_append_right_inj] at hpre
    cases behind with
    | nil => simp
    | cons c behind =>
      obtain ⟨rfl, -⟩ := List.cons_prefix_cons.1 hpre
      exact absurd (List.mem_append_right t List.mem_cons_self) h.not_mem_slash

def joined (v w : Except Text Text) : Except Text Text := v.bind fun v => w.map (v ++ ·)

theorem joined_map (t : Text) (v w : Except Text Text) :
    joined (v.map (t ++ ·)) w = (joined v w).map (t ++ ·) := by
  cases v with
  | error e => rfl
  | ok v =>
    cases w with
    | error e => rfl
    | ok w => exact congrArg Except.ok (List.append_assoc t v w)

/-- What is read in front of an escape does not depend on it. -/
theorem reads_append {v w : Except Text Text} (h : Reads front v) (hfront : escapes front = false)
    (hrest : Reads (CodePoint.scalar '\\' :: rest) w) :
    Reads (front ++ CodePoint.scalar '\\' :: rest) (joined v w) := by
  induction h with
  | nil => cases w <;> exact hrest
  | @plain c t v hc _ ih =>
    rw [escapes_plain hc] at hfront
    have hread := (ih hfront).plain hc
    exact (joined_map [c] v w).symm ▸ hread
  | @spelled e t n c v he hn _ ih =>
    rw [he.escapes] at hfront
    have hread := (ih hfront).spelled he hn
    rw [← List.append_assoc] at hread
    exact (joined_map [c] v w).symm ▸ hread
  | beyond t he hn =>
    have hread := Reads.beyond (t ++ CodePoint.scalar '\\' :: rest) he hn
    rwa [← List.append_assoc] at hread
  | lineEnd _ ih =>
    rw [escapes_escape, escapes_plain (by decide)] at hfront
    exact (ih hfront).lineEnd
  | @simple c t v hspells hline _ ih =>
    rw [escapes_escape] at hfront
    rw [joined_map]
    refine (ih hfront).simple (fun e n he hpre => ?_) ?_
    · exact hspells e n he (he.prefix_of_append (t := c :: t) hpre)
    · rintro ⟨rfl, hhead⟩
      cases t with
      | nil => cases hhead
      | cons d t => exact hline ⟨rfl, hhead⟩
  | last => cases hfront

/-- Behind `front` stands the escape `e`, which spells a number above the greatest code point. -/
def BeyondAt (front e t : Text) : Prop :=
  ∃ (behind : Text) (n : Nat), t = front ++ CodePoint.scalar '\\' :: (e ++ behind) ∧
    escapes front = false ∧ Spells e n ∧ CodePoint.maximum < n

theorem exists_of_reads_error {v : Except Text Text} (h : Reads t v) (hv : v = .error e) :
    ∃ front v : Text, BeyondAt front e t ∧ Reads front (.ok v) := by
  have hmap {v : Except Text Text} {f : Text → Text} (h : v.map f = .error e) : v = .error e := by
    cases v with
    | error e => exact h
    | ok v => cases h
  induction h with
  | nil | last => cases hv
  | @plain c t v hc _ ih =>
    obtain ⟨front, v, ⟨behind, n, rfl, hfront, he⟩, hread⟩ := ih (hmap hv)
    exact ⟨c :: front, _, ⟨behind, n, rfl, (escapes_plain hc front).trans hfront, he⟩,
      hread.plain hc⟩
  | @spelled e t n c v he hn _ ih =>
    obtain ⟨front, v, ⟨behind, n, rfl, hfront, hbeyond⟩, hread⟩ := ih (hmap hv)
    refine ⟨'\\' :: (e ++ front), _, ⟨behind, n, ?_, (he.escapes front).trans hfront, hbeyond⟩,
      hread.spelled he hn⟩
    simp
  | @beyond e n t he hn =>
    cases hv
    exact ⟨[], [], ⟨t, n, rfl, rfl, he, hn⟩, .nil⟩
  | lineEnd _ ih =>
    obtain ⟨front, v, ⟨behind, n, rfl, hfront, he⟩, hread⟩ := ih hv
    refine ⟨'\\' :: '\r' :: '\n' :: front, _, ⟨behind, n, rfl, ?_, he⟩, hread.lineEnd⟩
    rwa [escapes_escape, escapes_plain (by decide)]
  | @simple c t v hspells hline _ ih =>
    obtain ⟨front, v, ⟨behind, n, rfl, hfront, he⟩, hread⟩ := ih (hmap hv)
    refine ⟨'\\' :: c :: front, _, ⟨behind, n, rfl, (escapes_escape c front).trans hfront, he⟩,
      hread.simple (fun e n he hpre => ?_) ?_⟩
    · exact hspells e n he (hpre.trans (List.prefix_append (c :: front) _))
    · rintro ⟨rfl, hhead⟩
      refine hline ⟨rfl, ?_⟩
      rw [List.head?_append, hhead]
      rfl

end Append

theorem unescaped_eq_error_iff {t e : Text} :
    t.unescaped = .error e ↔ ∃ front v : Text, BeyondAt front e t ∧ front.unescaped = .ok v := by
  simp only [← reads_iff]
  constructor
  · exact fun h => exists_of_reads_error h rfl
  · rintro ⟨front, v, ⟨behind, n, rfl, hfront, he, hn⟩, hread⟩
    exact reads_append hread hfront (.beyond behind he hn)

/-- A body has no value exactly when an escape beyond the greatest code point stands in it. -/
theorem unescaped_fails_iff {t : Text} :
    (∃ e, t.unescaped = .error e) ↔ ∃ front e : Text, BeyondAt front e t := by
  constructor
  · rintro ⟨e, h⟩
    obtain ⟨front, _, hbeyond, -⟩ := unescaped_eq_error_iff.1 h
    exact ⟨front, e, hbeyond⟩
  · rintro ⟨front, e, behind, n, rfl, hfront, he, hn⟩
    have hread := reads_append (reads_iff.2 rfl) hfront (.beyond behind he hn)
    rw [reads_iff.1 hread]
    cases front.unescaped with
    | error e => exact ⟨e, rfl⟩
    | ok v => exact ⟨e, rfl⟩

/-- Without its digits, the escape of a number is read as its letter. -/
theorem unescaped_letter {c : CodePoint} {t : Text} (hc : c = 'u' ∨ c = 'x')
    (h : ∀ e n, Spells e n → ¬e <+: c :: t) :
    unescaped ('\\' :: c :: t) = t.unescaped.map (c :: ·) := by
  rw [← reads_iff]
  have hline : ¬(c = '\r' ∧ t.head? = some (CodePoint.scalar '\n')) := by
    rcases hc with rfl | rfl <;> exact fun h => absurd h.1 (by decide)
  have hread := (reads_iff.2 (rfl : t.unescaped = _)).simple h hline
  have hvalue : simpleEscape c = [c] := by rcases hc with rfl | rfl <;> rfl
  rwa [hvalue] at hread

end Text

end InlineTemplates
