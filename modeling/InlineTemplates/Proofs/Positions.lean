import InlineTemplates.Node
import InlineTemplates.Proofs.LexemeEnds
import InlineTemplates.Text.Unescaped
import Mathlib.Data.List.Basic
import Mathlib.Data.List.Induction

/-!
# Where the texts of nodes stand

A place of a source says how many line feeds stand in front of it and how far the last of them is.
The scanner counts both as it goes; the two counts agree. A fragment of a source that is read on its
own has places of its own, and a shift by the start of the fragment turns them into those of the
source, so what stands in the fragment stands in the source.
-/

namespace InlineTemplates

/-! ## Texts in a source -/

namespace Text

/-- The text `t` starts at `l` in a source: the line is counted in line feeds, and the column in
code points behind the last line feed. -/
def Holds (source : Text) (l : Location) (t : Text) : Prop :=
  ∃ front rest : Text, source = front ++ t ++ rest ∧
    l.line = 1 + front.count (CodePoint.scalar '\n') ∧
    l.column = 1 + (front.reverse.takeWhile fun (c : CodePoint) => c != '\n').length

/-- The text `t` starts at `l` in a source, and it is all of a name. -/
def HoldsName (source : Text) (l : Location) (t : Text) : Prop :=
  ∃ front rest : Text, source = front ++ t ++ rest ∧
    l.line = 1 + front.count (CodePoint.scalar '\n') ∧
    l.column = 1 + (front.reverse.takeWhile fun (c : CodePoint) => c != '\n').length ∧
    Lexeme.IsWhole front rest t

/-- Chunks with holes between them, each hole in its braces. -/
def weave : List Text → List Text → Text
  | chunk :: chunks, hole :: holes => chunk ++ "$\x7b" ++ (hole ++ "\x7d" ++ weave chunks holes)
  | chunk :: _, [] => chunk
  | [], _ => []

end Text

namespace Location

theorem advance_start (t : Text) :
    Location.start.advance t = ⟨1 + t.count (CodePoint.scalar '\n'),
      1 + (t.reverse.takeWhile fun (c : CodePoint) => c != '\n').length⟩ := by
  -- the last code point decides the column, so the induction is on the end of the text
  induction t using List.reverseRecOn with
  | nil => rfl
  | append_singleton t c ih =>
    rw [advance_append, ih]
    by_cases hc : c = '\n'
    · subst hc
      simp [step, List.count_append, Nat.add_assoc]
    · simp [step, hc, List.count_append, Nat.add_comm]

theorem within_step {l : Location} (hline : 1 ≤ l.line) (hcolumn : 1 ≤ l.column)
    (origin : Location) (c : CodePoint) : origin.within (l.step c) = (origin.within l).step c := by
  obtain ⟨line, column⟩ := l
  simp only at hline hcolumn
  unfold step within
  by_cases hc : c = '\n'
  · have hnext : ¬ line + 1 = 1 := by omega
    simp only [hc, if_true, hnext, if_false]
    split <;> simp <;> omega
  · by_cases hfirst : line = 1
    · simp only [hc, if_false, hfirst, if_true, mk.injEq, true_and]
      omega
    · simp [hc, hfirst]

/-- A place counted in a fragment becomes the place counted from where the fragment starts. -/
theorem within_advance (origin : Location) (t : Text) :
    origin.within (Location.start.advance t) = origin.advance t := by
  induction t using List.reverseRecOn with
  | nil => simp [within, start]
  | append_singleton t c ih =>
    have hline : 1 ≤ (Location.start.advance t).line := by rw [advance_start]; simp
    have hcolumn : 1 ≤ (Location.start.advance t).column := by rw [advance_start]; simp
    simp only [advance_append, advance_cons, advance_nil]
    rw [within_step hline hcolumn, ih]

theorem within_mono (origin : Location) {a b : Location} (ha : Location.start.le a) (h : a.le b) :
    (origin.within a).le (origin.within b) := by
  obtain ⟨line, column⟩ := a
  obtain ⟨line', column'⟩ := b
  simp only [le_iff, start] at ha h ⊢
  have hline : 1 ≤ line := by omega
  unfold within
  by_cases ha' : line = 1 <;> by_cases hb' : line' = 1 <;>
    simp only [ha', hb', if_true, if_false, true_and] <;> omega

end Location

namespace Text

variable {source t : Text} {l : Location}

theorem holds_iff : source.Holds l t ↔
    ∃ front rest : Text, source = front ++ t ++ rest ∧ Location.start.advance front = l := by
  constructor
  · rintro ⟨front, rest, hs, hline, hcolumn⟩
    refine ⟨front, rest, hs, ?_⟩
    rw [Location.advance_start, ← hline, ← hcolumn]
  · rintro ⟨front, rest, hs, rfl⟩
    refine ⟨front, rest, hs, ?_, ?_⟩ <;> rw [Location.advance_start]

/-- What stands in a fragment stands in the source of the fragment. -/
theorem Holds.within {origin : Location} {fragment : Text} (hf : source.Holds origin fragment)
    (h : fragment.Holds l t) : source.Holds (origin.within l) t := by
  obtain ⟨front, rest, hs, rfl⟩ := holds_iff.1 hf
  obtain ⟨front', rest', rfl, rfl⟩ := holds_iff.1 h
  refine holds_iff.2 ⟨front ++ front', rest' ++ rest, by simp [hs], ?_⟩
  rw [Location.within_advance, Location.advance_append]

theorem Holds.front {u : Text} (h : source.Holds l (t ++ u)) : source.Holds l t := by
  obtain ⟨front, rest, hs, hl⟩ := h
  exact ⟨front, u ++ rest, by simp [hs], hl⟩

theorem Holds.behind {u : Text} (h : source.Holds l (t ++ u)) : source.Holds (l.advance t) u := by
  obtain ⟨front, rest, hs, rfl⟩ := holds_iff.1 h
  refine holds_iff.2 ⟨front ++ t, rest, by simp [hs], ?_⟩
  rw [Location.advance_append]

theorem Holds.start_le (h : source.Holds l t) : Location.start.le l := by
  obtain ⟨front, rest, -, rfl⟩ := holds_iff.1 h
  exact Location.le_advance _ _

theorem Holds.stop_le (h : source.Holds l t) :
    (l.advance t).le (Location.start.advance source) := by
  obtain ⟨front, rest, hs, rfl⟩ := holds_iff.1 h
  rw [hs, Location.advance_append, Location.advance_append]
  exact Location.le_advance _ _

theorem holds_self (source : Text) : source.Holds .start source :=
  holds_iff.2 ⟨[], [], by simp, rfl⟩

/-! ### Whole names -/

open Lexeme (EndsName LeavesName IsWhole)

theorem holdsName_iff : source.HoldsName l t ↔ ∃ front rest : Text, source = front ++ t ++ rest ∧
    Location.start.advance front = l ∧ IsWhole front rest t := by
  constructor
  · rintro ⟨front, rest, hs, hline, hcolumn, hwhole⟩
    refine ⟨front, rest, hs, ?_, hwhole⟩
    rw [Location.advance_start, ← hline, ← hcolumn]
  · rintro ⟨front, rest, hs, rfl, hwhole⟩
    refine ⟨front, rest, hs, ?_, ?_, hwhole⟩ <;> rw [Location.advance_start]

/-- A fragment of a source that no name goes into or out of. -/
def HoldsApart (source : Text) (l : Location) (t : Text) : Prop :=
  ∃ front rest : Text, source = front ++ t ++ rest ∧ Location.start.advance front = l ∧
    LeavesName front ∧ EndsName rest

theorem HoldsApart.holds (h : source.HoldsApart l t) : source.Holds l t := by
  obtain ⟨front, rest, hs, hl, -, -⟩ := h
  exact holds_iff.2 ⟨front, rest, hs, hl⟩

/-- A whole name of a fragment is one of the source. -/
theorem HoldsApart.holdsName {origin : Location} {fragment : Text}
    (hf : source.HoldsApart origin fragment) (h : fragment.HoldsName l t) :
    source.HoldsName (origin.within l) t := by
  obtain ⟨front, rest, hs, rfl, hfront, hrest⟩ := hf
  obtain ⟨front', rest', rfl, rfl, hwhole⟩ := holdsName_iff.1 h
  refine holdsName_iff.2 ⟨front ++ front', rest' ++ rest, by simp [hs], ?_,
    hwhole.append hfront hrest⟩
  rw [Location.within_advance, Location.advance_append]

theorem Holds.apart {u v : Text} {c : CodePoint} (h : source.Holds l (u ++ (t ++ c :: v)))
    (hne : u ≠ []) (hu : LeavesName u) (hc : c.isNamePart = false) :
    source.HoldsApart (l.advance u) t := by
  obtain ⟨front, rest, hs, rfl⟩ := holds_iff.1 h
  refine ⟨front ++ u, c :: v ++ rest, by simp [hs], ?_, hu.append_left hne front, ?_⟩
  · rw [Location.advance_append]
  · exact (Lexeme.endsName_cons c _).2 hc

end Text

end InlineTemplates
