import InlineTemplates.Diagnostic
import InlineTemplates.Proofs.Freshness
import InlineTemplates.Proofs.Positions

/-!
# What a code frame shows

A place counts its line in line feeds, and a frame counts the lines of the source by every code
point that ends one. The two counts differ by the line ends in front of the line that are no line
feeds. Where there are none, the frame of a place shows the line of the place, with the caret under
the code point that stands there.
-/

namespace InlineTemplates

namespace Text

/-! ## Lines -/

def EndsInFeed (t : Text) : Prop := ∀ c, t.getLast? = some c → c = '\n'

/-- How many line ends are neither a line feed nor the carriage return in front of one. -/
def strayEnds : Text → Nat
  | [] => 0
  | .scalar '\r' :: .scalar '\n' :: rest => strayEnds rest
  | c :: rest => (if c.endsLine ∧ c ≠ '\n' then 1 else 0) + strayEnds rest

/-- Whether `c` ends a line together with the line feed behind it. -/
def IsPair (c : CodePoint) (t : Text) : Prop := c = '\r' ∧ t.head? = some (CodePoint.scalar '\n')

theorem lines_cons {c : CodePoint} {t : Text} (h : ¬IsPair c t) :
    lines (c :: t) = if c.endsLine then [] :: t.lines else consLine c t.lines := by
  rw [lines]
  rintro rest rfl rfl
  exact h ⟨rfl, rfl⟩

theorem strayEnds_cons {c : CodePoint} {t : Text} (h : ¬IsPair c t) :
    strayEnds (c :: t) = (if c.endsLine ∧ c ≠ '\n' then 1 else 0) + t.strayEnds := by
  rw [strayEnds]
  rintro rest rfl rfl
  exact h ⟨rfl, rfl⟩

theorem lines_pair (t : Text) :
    lines (CodePoint.scalar '\r' :: CodePoint.scalar '\n' :: t) = [] :: t.lines := by
  rw [lines]

theorem endsInFeed_tail {c : CodePoint} {t : Text} (h : EndsInFeed (c :: t)) : EndsInFeed t := by
  intro d hd
  cases t with
  | nil => cases hd
  | cons e t => exact h d (by simpa using hd)

theorem not_isPair_append {c : CodePoint} {t : Text} (h : EndsInFeed (c :: t))
    (hpair : ¬IsPair c t) (rest : Text) : ¬IsPair c (t ++ rest) := by
  rintro ⟨rfl, hfeed⟩
  cases t with
  | nil => exact absurd (h _ rfl) (by decide)
  | cons d t => exact hpair ⟨rfl, hfeed⟩

theorem lines_induction {motive : Text → Prop} (nil : motive [])
    (pair : ∀ t, motive t → motive (CodePoint.scalar '\r' :: CodePoint.scalar '\n' :: t))
    (single : ∀ c t, ¬IsPair c t → motive t → motive (c :: t)) (t : Text) : motive t := by
  fun_induction lines t with
  | case1 => exact nil
  | case2 t ih => exact pair t ih
  | case3 c t hpair _ ih | case4 c t hpair _ ih =>
    refine single c t ?_ ih
    rintro ⟨rfl, hfeed⟩
    cases t with
    | nil => cases hfeed
    | cons d t =>
      obtain rfl := Option.some.inj hfeed
      exact hpair t rfl rfl

theorem consLine_append {c : CodePoint} {as bs : List Text} (h : as ≠ []) :
    consLine c (as ++ bs) = consLine c as ++ bs := by
  cases as with
  | nil => exact absurd rfl h
  | cons a as => rfl

theorem length_consLine {c : CodePoint} {as : List Text} (h : as ≠ []) :
    (consLine c as).length = as.length := by
  cases as with
  | nil => exact absurd rfl h
  | cons a as => rfl

theorem lines_ne_nil {t : Text} (h : t ≠ []) : t.lines ≠ [] := by
  cases t using lines_induction with
  | nil => exact absurd rfl h
  | pair t _ => simp [lines_pair]
  | single c t hpair _ =>
    rw [lines_cons hpair]
    split
    · simp
    · cases t.lines <;> simp [consLine]

/-- Whole lines in front stay what they are. -/
theorem lines_append {front : Text} (h : front.EndsInFeed) (rest : Text) :
    (front ++ rest).lines = front.lines ++ rest.lines := by
  induction front using lines_induction with
  | nil => rfl
  | pair front ih =>
    have hrest := ih (endsInFeed_tail (endsInFeed_tail h))
    simp only [List.cons_append, lines_pair, hrest]
  | single c front hpair ih =>
    rw [List.cons_append, lines_cons (not_isPair_append h hpair rest), lines_cons hpair,
      ih (endsInFeed_tail h)]
    split
    · rfl
    · rename_i hc
      refine consLine_append (lines_ne_nil ?_)
      -- the last code point of whole lines ends a line
      rintro rfl
      exact hc (h c rfl ▸ rfl)

theorem length_lines {front : Text} (h : front.EndsInFeed) :
    front.lines.length = front.count (CodePoint.scalar '\n') + front.strayEnds := by
  induction front using lines_induction with
  | nil => rfl
  | pair front ih =>
    have hrest := ih (endsInFeed_tail (endsInFeed_tail h))
    have hcount : (CodePoint.scalar '\r' :: '\n' :: front).count (CodePoint.scalar '\n') =
        front.count (CodePoint.scalar '\n') + 1 := by simp
    rw [lines_pair, strayEnds, List.length_cons, hrest, hcount]
    omega
  | single c front hpair ih =>
    have hrest := ih (endsInFeed_tail h)
    rw [lines_cons hpair, strayEnds_cons hpair, List.count_cons]
    by_cases hfeed : c = '\n'
    · subst hfeed
      have hends : CodePoint.endsLine '\n' = true := rfl
      simp only [hends, if_true, List.length_cons, hrest, beq_self_eq_true, ne_eq,
        not_true_eq_false, and_false, if_false]
      omega
    by_cases hends : c.endsLine = true
    · simp only [hends, if_true, List.length_cons, hrest, beq_iff_eq, hfeed, ne_eq,
        not_false_eq_true, and_self, if_false]
      omega
    · have hne : front ≠ [] := by
        rintro rfl
        exact hfeed (h c rfl)
      simp only [hends, length_consLine (lines_ne_nil hne), hrest, beq_iff_eq, hfeed,
        if_false, false_and, Bool.false_eq_true]
      omega

/-- What can stand behind a line: nothing, or its end. -/
def StartsAtEnd (rest : Text) : Prop :=
  rest = [] ∨ rest.head? = some (CodePoint.scalar '\n') ∨ ∃ behind : Text, rest = "\r\n" ++ behind

theorem lines_line {line rest : Text} (hline : ∀ c ∈ line, c.endsLine = false)
    (hrest : StartsAtEnd rest) (hne : line ++ rest ≠ []) :
    ∃ behind, (line ++ rest).lines = line :: behind := by
  induction line with
  | nil =>
    rcases hrest with rfl | hfeed | ⟨behind, rfl⟩
    · exact absurd rfl hne
    · match rest, hfeed with
      | _ :: rest, rfl => exact ⟨lines rest, rfl⟩
    · exact ⟨behind.lines, rfl⟩
  | cons c line ih =>
    obtain ⟨hc, hline⟩ := List.forall_mem_cons.1 hline
    have hpair : ¬IsPair c (line ++ rest) := by
      rintro ⟨rfl, -⟩
      cases hc
    rw [List.cons_append, lines_cons hpair, if_neg (by simp [hc])]
    by_cases hnil : line ++ rest = []
    · rw [hnil]
      obtain ⟨rfl, -⟩ := List.append_eq_nil_iff.1 hnil
      exact ⟨[], rfl⟩
    · obtain ⟨behind, hbehind⟩ := ih hline hnil
      exact ⟨behind, by rw [hbehind]; rfl⟩

theorem not_mem_lines {t line : Text} (h : line ∈ t.lines) {c : CodePoint} (hc : c ∈ line) :
    c.endsLine = false := by
  induction t using lines_induction generalizing line c with
  | nil => cases h
  | pair t ih =>
    rcases List.mem_cons.1 h with rfl | h
    · cases hc
    · exact ih h hc
  | single d t hpair ih =>
    rw [lines_cons hpair] at h
    split at h
    · rcases List.mem_cons.1 h with rfl | h
      · cases hc
      · exact ih h hc
    · rename_i hd
      cases hlines : t.lines with
      | nil =>
        rw [hlines] at h
        obtain rfl := List.mem_singleton.1 h
        obtain rfl := List.mem_singleton.1 hc
        exact Bool.eq_false_iff.2 hd
      | cons first below =>
        rw [hlines] at h ih
        rcases List.mem_cons.1 h with rfl | h
        · rcases List.mem_cons.1 hc with rfl | hc
          · exact Bool.eq_false_iff.2 hd
          · exact ih List.mem_cons_self hc
        · exact ih (List.mem_cons_of_mem _ h) hc

theorem length_ofNat_le {m n : Nat} (h : m ≤ n) : (ofNat m).length ≤ (ofNat n).length := by
  have hpos : 0 < (Nat.toDigits 10 n).length := List.length_pos_iff.2 Nat.toDigits_ne_nil
  have hlt : n < 10 ^ (Nat.toDigits 10 n).length :=
    (Nat.length_toDigits_le_iff (by decide) hpos).1 (Nat.le_refl _)
  simpa [ofNat] using (Nat.length_toDigits_le_iff (by decide) hpos).2 (Nat.lt_of_le_of_lt h hlt)

end Text

/-! ## Rows -/

namespace CodeFrame

/-- The row of the line meant: a mark, the number behind some blanks, and the line. -/
def markedRow (margin : Text) (number : Nat) (line : Text) : Text :=
  "> " ++ margin ++ Text.ofNat number ++ " |" ++ Text.when (!line.isEmpty) (" " ++ line)

/-- The row below it: the caret as far from the bar as the column is from the start of the line. -/
def caretRow (margin : Text) (number : Nat) (line : Text) (column : Nat) : Text :=
  Text.filled ("> " ++ margin ++ Text.ofNat number : Text).length ' ' ++ " | " ++
    caretPad line column ++ "^"

/-- The rows of other lines: few, and each starts with a blank. -/
def IsContext (rows : List Text) : Prop :=
  rows.length ≤ contextLines ∧
    ∀ r ∈ rows, r.head? = some (CodePoint.scalar ' ') ∧ CodePoint.scalar '\n' ∉ r

/-- The frame marks one line, by its number, and puts the caret under a column of it. -/
structure Marks (frame : Text) (number : Nat) (line : Text) (column : Nat) : Prop where
  rows : ∃ (above below : List Text) (margin : Text), IsContext above ∧ IsContext below ∧
    (∀ c ∈ margin, c = CodePoint.scalar ' ') ∧
    frame = Text.join "\n"
      (above ++ [markedRow margin number line, caretRow margin number line column] ++ below)
  line_unbroken : CodePoint.scalar '\n' ∉ line

theorem row_meant {width number column : Nat} (line : Text)
    (hwidth : (Text.ofNat number).length ≤ width) :
    let margin := Text.filled (width - (Text.ofNat number).length) ' '
    row width number line true (some ↑(column + 1)) =
      [markedRow margin number line, caretRow margin number line (column + 1)] := by
  intro margin
  have hlength : ("> " ++ margin ++ Text.ofNat number : Text).length = 2 + width := by
    simp [margin, Text.filled, Text.ofString]
    omega
  have hblanks : Text.filled ("> " ++ margin ++ Text.ofNat number : Text).length ' ' =
      "  " ++ Text.filled width ' ' := by
    rw [hlength, Text.filled, Text.filled, List.replicate_add]
    rfl
  rw [caretRow, hblanks]
  simp only [row, markedRow, List.append_assoc]
  rfl

theorem row_other (width number : Nat) {line : Text} (column : Option Int)
    (hline : CodePoint.scalar '\n' ∉ line) :
    ∃ r : Text, row width number line false column = [r] ∧
      r.head? = some (CodePoint.scalar ' ') ∧ CodePoint.scalar '\n' ∉ r := by
  have hdigits : CodePoint.scalar '\n' ∉ Text.ofNat number := fun h =>
    absurd (Text.ofNat_isAsciiDigit number _ h) (by decide)
  refine ⟨_, by unfold row; dsimp only; split <;> rfl, rfl, ?_⟩
  simp [Text.when, Text.filled, Text.ofString, hdigits, hline]

/-- The rows of some lines, of which the first has the number `first + k`. -/
def rows (width first meant : Nat) (column : Option Int) (k : Nat) (lines : List Text) :
    List Text :=
  (lines.zipIdx k).flatMap fun (t, i) => row width (first + i) t (first + i == meant) column

theorem rows_other {first meant k : Nat} {lines : List Text} (width : Nat) (column : Option Int)
    (hlines : ∀ t ∈ lines, CodePoint.scalar '\n' ∉ t)
    (hother : ∀ i, k ≤ i → i < k + lines.length → first + i ≠ meant) :
    (rows width first meant column k lines).length = lines.length ∧
      ∀ r ∈ rows width first meant column k lines,
        r.head? = some (CodePoint.scalar ' ') ∧ CodePoint.scalar '\n' ∉ r := by
  induction lines generalizing k with
  | nil => simp [rows]
  | cons t lines ih =>
    obtain ⟨ht, hlines⟩ := List.forall_mem_cons.1 hlines
    have hmeant : (first + k == meant) = false := by
      simpa using hother k (Nat.le_refl k) (by simp)
    obtain ⟨r, hr, hrow⟩ := row_other width (first + k) column ht
    obtain ⟨hlength, hrows⟩ := ih (k := k + 1) hlines fun i hk hi => by
      refine hother i (by omega) ?_
      simp only [List.length_cons]
      omega
    have hcons : rows width first meant column k (t :: lines) =
        r :: rows width first meant column (k + 1) lines := by
      simp only [rows, List.zipIdx_cons, List.flatMap_cons, hmeant, hr, List.singleton_append]
    rw [hcons]
    exact ⟨congrArg (· + 1) hlength, List.forall_mem_cons.2 ⟨hrow, hrows⟩⟩

theorem isContext_rows {width first meant k : Nat} {column : Option Int} {lines : List Text}
    (hlength : lines.length ≤ contextLines) (hlines : ∀ t ∈ lines, CodePoint.scalar '\n' ∉ t)
    (hother : ∀ i, k ≤ i → i < k + lines.length → first + i ≠ meant) :
    IsContext (rows width first meant column k lines) := by
  obtain ⟨hrows, hall⟩ := rows_other width column hlines hother
  exact ⟨hrows ▸ hlength, hall⟩

theorem window_eq (before after : List Text) (line : Text) :
    ((before ++ line :: after).drop (before.length - 2)).take
      (min (before ++ line :: after).length (before.length + 1 + contextLines) + 1 -
        (before.length - 2 + 1)) =
      before.drop (before.length - 2) ++ line :: after.take 2 := by
  have hcount : min (before ++ line :: after).length (before.length + 1 + contextLines) + 1 -
      (before.length - 2 + 1) =
      (before.drop (before.length - 2)).length + (min 2 after.length + 1) := by
    simp only [contextLines, List.length_append, List.length_cons, List.length_drop]
    omega
  rw [hcount, List.drop_append_of_le_length (Nat.sub_le _ _), List.take_length_add_append,
    List.take_succ_cons, ← List.take_take, List.take_length]

theorem render_split {source : Text} {before after : List Text} {line : Text}
    (column : Option Int) (h : source.lines = before ++ line :: after) :
    ∃ width, (Text.ofNat (before.length + 1)).length ≤ width ∧
      render source ↑(before.length + 1) column = Text.join "\n"
        (rows width (before.length - 2 + 1) (before.length + 1) column 0
            (before.drop (before.length - 2)) ++
          (row width (before.length + 1) line true column ++
            rows width (before.length - 2 + 1) (before.length + 1) column
              (before.length - (before.length - 2) + 1) (after.take 2))) := by
  have hin : ¬(before.length + 1 = 0 ∨ source.lines.length < before.length + 1) := by
    rw [h]
    simp
  have hfirst : max 1 (before.length + 1 - contextLines) = before.length - 2 + 1 := by
    simp only [contextLines]
    omega
  have hlast : before.length + 1 ≤
      min source.lines.length (before.length + 1 + contextLines) := by
    simp only [h, List.length_append, List.length_cons]
    omega
  have hmeant : before.length - 2 + 1 + (before.length - (before.length - 2)) =
      before.length + 1 := by omega
  refine ⟨_, Text.length_ofNat_le hlast, ?_⟩
  change (if before.length + 1 = 0 ∨ source.lines.length < before.length + 1 then [] else _) = _
  rw [if_neg hin]
  dsimp only
  rw [hfirst, Nat.add_sub_cancel, h, window_eq, List.zipIdx_append, List.flatMap_append,
    List.zipIdx_cons, List.flatMap_cons, Nat.zero_add, List.length_drop, hmeant]
  simp only [rows, beq_self_eq_true]

theorem marks_split {source : Text} {before after : List Text} {line : Text} (column : Nat)
    (h : source.lines = before ++ line :: after) :
    Marks (render source ↑(before.length + 1) (some ↑(column + 1))) (before.length + 1) line
      (column + 1) := by
  have hfeed : ∀ t ∈ before ++ line :: after, CodePoint.scalar '\n' ∉ t := fun t ht hmem =>
    absurd (Text.not_mem_lines (h ▸ ht) hmem) (by decide)
  obtain ⟨width, hwidth, hrender⟩ := render_split (some ↑(column + 1)) h
  rw [row_meant line hwidth, ← List.append_assoc] at hrender
  refine ⟨⟨_, _, _, ?above, ?below, fun c hc => List.eq_of_mem_replicate hc, hrender⟩,
    hfeed line (by simp)⟩
  case above =>
    refine isContext_rows (by simp only [contextLines, List.length_drop]; omega) ?_ ?_
    · exact fun t ht => hfeed t (List.mem_append_left _ (List.mem_of_mem_drop ht))
    · intro i _ hi
      simp only [List.length_drop] at hi
      omega
  case below =>
    refine isContext_rows (List.length_take_le _ _) ?_ (by omega)
    intro t ht
    exact hfeed t (List.mem_append_right _ (List.mem_cons_of_mem _ (List.mem_of_mem_take ht)))

theorem marks_render {source line : Text} {n : Nat} (column : Nat)
    (h : source.lines[n]? = some line) :
    Marks (render source ↑(n + 1) (some ↑(column + 1))) (n + 1) line (column + 1) := by
  obtain ⟨hn, hline⟩ := List.getElem?_eq_some_iff.1 h
  have hsplit : source.lines = source.lines.take n ++ line :: source.lines.drop (n + 1) := by
    rw [← hline, ← List.drop_eq_getElem_cons hn, List.take_append_drop]
  have hlength : (source.lines.take n).length = n := by
    rw [List.length_take, Nat.min_eq_left (Nat.le_of_lt hn)]
  have hmarks := marks_split column hsplit
  rwa [hlength] at hmarks

end CodeFrame

/-! ## Places -/

namespace Text

theorem exists_line (t : Text) : ∃ front part : Text, t = front ++ part ∧ front.EndsInFeed ∧
    CodePoint.scalar '\n' ∉ part := by
  induction t using List.reverseRecOn with
  | nil => exact ⟨[], [], rfl, nofun, by simp⟩
  | append_singleton t c ih =>
    by_cases hc : c = '\n'
    · refine ⟨t ++ [c], [], by simp, ?_, by simp⟩
      simp [EndsInFeed, hc]
    · obtain ⟨front, part, rfl, hfront, hpart⟩ := ih
      exact ⟨front, part ++ [c], by simp, hfront, by simp [hpart, Ne.symm hc]⟩

end Text

theorem Location.advance_line {front part : Text} (hfront : front.EndsInFeed)
    (hpart : CodePoint.scalar '\n' ∉ part) : Location.start.advance (front ++ part) =
      ⟨1 + front.count (CodePoint.scalar '\n'), 1 + part.length⟩ := by
  have hunbroken : ∀ c ∈ part.reverse, (c != CodePoint.scalar '\n') = true := by
    intro c hc
    rw [bne_iff_ne]
    rintro rfl
    exact hpart (List.mem_reverse.1 hc)
  have hbreak : front.reverse.takeWhile (fun (c : CodePoint) => c != '\n') = [] := by
    cases hlast : front.reverse with
    | nil => rfl
    | cons c before =>
      have hc := hfront c (by rw [← List.head?_reverse, hlast, List.head?_cons])
      simp [hc]
  rw [advance_start, List.count_append, List.count_eq_zero_of_not_mem hpart, List.reverse_append,
    List.takeWhile_append_of_pos hunbroken, hbreak]
  simp

namespace CodeFrame

variable {source front part behind rest t : Text} {l : Location} {c : CodePoint}

/-- The frame of a place marks the line that has the number of the place among all lines of the
source. -/
theorem marks_number (h : source.Holds l (c :: t)) : ∃ marked,
    source.lines[l.line - 1]? = some marked ∧
      Marks (render source l.line (some l.column)) l.line marked l.column := by
  obtain ⟨before, rest, rfl, rfl⟩ := Text.holds_iff.1 h
  obtain ⟨front, part, rfl, hfront, hpart⟩ := Text.exists_line before
  have hlines : ((front ++ part) ++ c :: t ++ rest).lines =
      front.lines ++ (part ++ c :: t ++ rest).lines := by
    simpa using Text.lines_append hfront (part ++ c :: t ++ rest)
  have hcount : front.count (CodePoint.scalar '\n') <
      ((front ++ part) ++ c :: t ++ rest).lines.length := by
    have := List.length_pos_iff.2 (Text.lines_ne_nil (t := part ++ c :: t ++ rest) (by simp))
    rw [hlines, List.length_append, Text.length_lines hfront]
    omega
  rw [Location.advance_line hfront hpart]
  have hmarked := List.getElem?_eq_getElem hcount
  refine ⟨_, by rwa [Nat.add_sub_cancel_left], ?_⟩
  simpa only [Nat.add_comm 1] using marks_render part.length hmarked

/-- The line in which a place lies is the one that the frame for its number marks when the number
also counts the stray ends in front of the line. -/
theorem marks_line (hfront : front.EndsInFeed)
    (hline : ∀ c ∈ part ++ behind, c.endsLine = false) (hrest : rest.StartsAtEnd)
    (hne : part ++ behind ++ rest ≠ []) (hl : Location.start.advance (front ++ part) = l) :
    Marks (render (front ++ (part ++ behind) ++ rest) ↑(l.line + front.strayEnds)
      (some l.column)) (l.line + front.strayEnds) (part ++ behind) l.column := by
  have hpart : CodePoint.scalar '\n' ∉ part := fun h =>
    absurd (hline _ (List.mem_append_left _ h)) (by decide)
  obtain ⟨below, hbelow⟩ := Text.lines_line hline hrest hne
  have hindex : (front ++ (part ++ behind) ++ rest).lines[front.count (CodePoint.scalar '\n') +
      front.strayEnds]? = some (part ++ behind) := by
    rw [List.append_assoc, Text.lines_append hfront, hbelow, ← Text.length_lines hfront]
    simp
  rw [← hl, Location.advance_line hfront hpart]
  simpa only [Nat.add_comm 1, Nat.add_right_comm _ 1] using marks_render part.length hindex

/-- Where no stray end stands in front of a line and the line has none, the frame of a place in the
line shows this line, and the caret stands under the code point at the place. -/
theorem marks_place (hfront : front.EndsInFeed) (hstray : front.strayEnds = 0)
    (hline : ∀ c ∈ part ++ behind, c.endsLine = false) (hrest : rest.StartsAtEnd)
    (hne : part ++ behind ++ rest ≠ []) (hl : Location.start.advance (front ++ part) = l) :
    Marks (render (front ++ (part ++ behind) ++ rest) l.line (some l.column)) l.line
      (part ++ behind) l.column ∧ part.length + 1 = l.column := by
  have hpart : CodePoint.scalar '\n' ∉ part := fun h =>
    absurd (hline _ (List.mem_append_left _ h)) (by decide)
  have hmarks := marks_line hfront hline hrest hne hl
  rw [hstray] at hmarks
  refine ⟨hmarks, ?_⟩
  rw [← hl, Location.advance_line hfront hpart, Nat.add_comm]

/-- The form feed ends a line of the frame only, which then marks the line in front. -/
example : render "a;\x0c\nb c" 2 (some 3) = "  1 | a;\n> 2 |\n    | ^\n  3 | b c" := by
  decide +kernel

end CodeFrame

end InlineTemplates
