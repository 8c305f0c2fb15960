import InlineTemplates.Text

/-!
# Places in a source

Lines and columns count from one. Only a line feed starts a new line, and a column is one code
point wide.
-/

namespace InlineTemplates

/-- A line and a column of a source. -/
structure Location where
  line : Nat
  column : Nat
deriving DecidableEq, Inhabited

namespace Location

/-- Where a source starts. -/
def start : Location := ⟨1, 1⟩

/-- Where the code point behind `c` stands, when `c` stands at `l`. -/
def step (l : Location) (c : CodePoint) : Location :=
  if c = '\n' then ⟨l.line + 1, 1⟩ else ⟨l.line, l.column + 1⟩

/-- Where the text behind `t` starts, when `t` starts at `l`. -/
def advance (l : Location) (t : Text) : Location := t.foldl step l

@[simp]
theorem advance_nil (l : Location) : l.advance [] = l := rfl

@[simp]
theorem advance_cons (l : Location) (c : CodePoint) (t : Text) :
    l.advance (c :: t) = (l.step c).advance t := rfl

theorem advance_append (l : Location) (t u : Text) :
    l.advance (t ++ u) = (l.advance t).advance u := List.foldl_append

/-- Reading order: by line, then by column. -/
def le (a b : Location) : Bool := a.line < b.line || (a.line == b.line && a.column ≤ b.column)

theorem le_iff {a b : Location} :
    a.le b ↔ a.line < b.line ∨ a.line = b.line ∧ a.column ≤ b.column := by
  simp [le]

@[simp]
theorem le_refl (l : Location) : l.le l := by simp [le]

theorem le_trans {a b c : Location} (h : a.le b) (h' : b.le c) : a.le c := by
  rw [le_iff] at *
  omega

theorem le_step (l : Location) (c : CodePoint) : l.le (l.step c) := by
  rw [le_iff]
  unfold step
  split <;> simp

theorem le_advance (l : Location) (t : Text) : l.le (l.advance t) := by
  induction t generalizing l with
  | nil => simp
  | cons c t ih => exact le_trans (l.le_step c) (ih _)

/-- `l`, counted from the start of a fragment, counted from the start of the source in which the
fragment begins at `origin`. -/
def within (origin l : Location) : Location :=
  if l.line = 1 then ⟨origin.line, origin.column + l.column - 1⟩
  else ⟨origin.line + l.line - 1, l.column⟩

end Location

end InlineTemplates
