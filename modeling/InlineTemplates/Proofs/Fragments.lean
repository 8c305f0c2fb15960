import InlineTemplates.Proofs.ScanStops

/-!
# The fragments of a source

Each hole of a template is read on its own, as if its text were a source. So a source consists of
fragments: the source itself, the holes of its templates, the holes of the templates in these, and
so on. What stands at a place of a fragment stands at the place in the source that is as far behind
the start of the fragment.
-/

namespace InlineTemplates

theorem Location.start_within (l : Location) : Location.start.within l = l := by
  unfold within start
  split
  · rename_i h
    simp [← h]
  · simp

/-- A text that is read on its own, as a program or as an expression. -/
structure Fragment where
  isProgram : Bool
  text : Text
  file : Option Text

namespace Fragment

def program (source : Text) (file : Option Text) : Fragment := ⟨true, source, file⟩

/-- A source that is an expression. -/
def expression (source : Text) (file : Option Text) : Fragment := ⟨false, source, file⟩

/-- The text of a hole. No file has it. -/
def ofHole (hole : Text) : Fragment := expression hole none

/-- What errors in the fragment say about where it comes from. -/
def origin (f : Fragment) : SourceUnit := ⟨some f.text, f.file⟩

def Tokens (f : Fragment) (ts : List Token) : Prop :=
  ∃ s, Scan.scan f.text = .ok s ∧
    ts = if f.isProgram then Token.placeModule s.tokens else Token.placeExpression s.tokens

/-- The hole stands in a template of the fragment. -/
def HasHole (f : Fragment) (hole : Template.Hole) : Prop :=
  ∃ ts t chunks holes, f.Tokens ts ∧ t ∈ ts ∧ t.Parts chunks holes ∧ hole ∈ holes

/-- The second fragment is the first one or, at any depth of templates, a hole in it, and there it
starts at the place. -/
inductive Has : Fragment → Fragment → Location → Prop
  | self (f : Fragment) : Has f f .start
  | hole {f part : Fragment} {hole : Template.Hole} {place : Location} (hhole : f.HasHole hole)
      (h : Has (ofHole hole.source) part place) : Has f part (hole.start.within place)

variable {f part : Fragment} {ts : List Token} {t : Token} {place l : Location}
  {hole : Template.Hole}

theorem Tokens.ordered (h : f.Tokens ts) : Token.Ordered f.text ts := by
  obtain ⟨s, hs, rfl⟩ := h
  obtain ⟨hts, hsorted⟩ := Scan.scan_tokens hs
  split
  · exact Token.placeModule_ordered hts hsorted
  · exact Token.placeExpression_ordered hts hsorted

theorem Tokens.splits (h : f.Tokens ts) : ∀ t ∈ ts, t.Splits := by
  obtain ⟨s, hs, rfl⟩ := h
  have hsplits := Scan.scanFrom_splits hs
  split
  · exact Token.Place.placeFrom_splits hsplits true false .ofModule none
  · exact Token.Place.placeFrom_splits hsplits false false .ofExpression none

theorem Tokens.unique {ts' : List Token} (h : f.Tokens ts) (h' : f.Tokens ts') : ts' = ts := by
  obtain ⟨s, hs, rfl⟩ := h
  obtain ⟨s', hs', rfl⟩ := h'
  cases hs.symm.trans hs'
  rfl

theorem HasHole.holds (h : f.HasHole hole) : f.text.Holds hole.start hole.source := by
  obtain ⟨ts, t, chunks, holes, hts, ht, ⟨hk, hparts⟩, hmem⟩ := h
  exact (Template.parts?_woven hparts).holds ((hts.ordered.lies t ht).inside_holds hk) hole hmem

theorem HasHole.length_lt (h : f.HasHole hole) : hole.source.length < f.text.length := by
  obtain ⟨ts, t, chunks, holes, hts, ht, ⟨hk, hparts⟩, hmem⟩ := h
  have hshort := (Template.parts?_woven hparts).hole_lt hole hmem
  obtain ⟨front, rest, heq, -⟩ := (hts.ordered.lies t ht).inside_holds hk
  rw [heq]
  simp only [List.length_append]
  omega

theorem Has.holds (h : f.Has part place) : f.text.Holds place part.text := by
  induction h with
  | self f => exact Text.holds_self f.text
  | hole hhole _ ih => exact hhole.holds.within ih

/-- Of all fragments, only the source itself is known to be in its file. -/
theorem Has.eq_or_file (h : f.Has part place) : part = f ∧ place = .start ∨ part.file = none := by
  induction h with
  | self f => exact .inl ⟨rfl, rfl⟩
  | hole _ _ ih =>
    rcases ih with ⟨rfl, -⟩ | hfile
    · exact .inr rfl
    · exact .inr hfile

end Fragment

/-! ## What can be wrong in a fragment -/

/-- The body of a string, or a chunk of a template. -/
def Token.HasBody (t : Token) (body : Text) : Prop :=
  t.kind = .string ∧ body = Reader.inside t ∨ ∃ chunks holes, t.Parts chunks holes ∧ body ∈ chunks

/-- The text that the fault is found in, as far as the fault names it. -/
def ParseFault.subject : ParseFault → Text
  | unexpectedCharacter c => [c]
  | unexpectedToken t => t
  | unexpectedEnd | codePointOutOfBounds _ => []

namespace Fragment

/-- The fault shows at the place: where a code point starts no lexeme, where a token starts, where
the last token in front of the end starts, or where a literal starts. -/
inductive Complains (f : Fragment) : ParseFault → Location → Prop
  | character {front rest : Text} {c : CodePoint} (htext : f.text = front ++ c :: rest)
      (hc : Lexeme.next? (c :: rest) = none) :
      Complains f (.unexpectedCharacter c) (Location.start.advance front)
  | token {ts : List Token} {t : Token} (hts : f.Tokens ts) (ht : t ∈ ts) :
      Complains f (.unexpectedToken t.text) t.start
  | ends {ts : List Token} (hts : f.Tokens ts) :
      Complains f .unexpectedEnd ((ts.getLast?.map Token.start).getD .start)
  | literal {ts : List Token} {t : Token} {front body e : Text} (hts : f.Tokens ts) (ht : t ∈ ts)
      (hbody : t.HasBody body) (he : Text.BeyondAt front e body) :
      Complains f (.codePointOutOfBounds e) t.start

theorem Complains.holds {f : Fragment} {fault : ParseFault} {l : Location}
    (h : f.Complains fault l) : f.text.Holds l fault.subject := by
  have hempty {l : Location} {t : Text} (h : f.text.Holds l t) : f.text.Holds l [] :=
    Text.Holds.front (u := t) h
  cases h with
  | @character front rest c htext =>
    exact Text.holds_iff.2 ⟨front, rest, by simp [ParseFault.subject, htext], rfl⟩
  | token hts ht => exact (hts.ordered.lies _ ht).holds
  | @ends ts hts =>
    cases hlast : ts.getLast? with
    | none => exact hempty (Text.holds_self f.text)
    | some t => exact hempty (hts.ordered.lies t (List.mem_of_getLast? hlast)).holds
  | literal hts ht => exact hempty (hts.ordered.lies _ ht).holds

/-- Why the fragment is not read: a fault of it or of a hole in it, at any depth of templates,
reported as the hole shows it, or a name of an import that is a string. -/
inductive Explains (f : Fragment) : Error → Prop
  | fault {part : Fragment} {place l : Location} {fault : ParseFault} (hpart : f.Has part place)
      (hfault : part.Complains fault l) :
      Explains f (.report ⟨.parse fault, some l, part.origin⟩)
  | stringImportName : Explains f .stringImportName

theorem Explains.here {f : Fragment} {fault : ParseFault} {l : Location}
    (h : f.Complains fault l) : f.Explains (.report ⟨.parse fault, some l, f.origin⟩) :=
  .fault (.self f) h

theorem Explains.ofHole {f : Fragment} {hole : Template.Hole} {e : Error} (hhole : f.HasHole hole)
    (h : (ofHole hole.source).Explains e) : f.Explains e := by
  cases h with
  | fault hpart hfault => exact .fault (.hole hhole hpart) hfault
  | stringImportName => exact .stringImportName

/-- The literals of the fragment, at any depth of templates, all have values. -/
def Valued (f : Fragment) : Prop :=
  ∀ part place, f.Has part place → ∀ ts, part.Tokens ts → ∀ t ∈ ts, ∀ body, t.HasBody body →
    ∃ v, body.unescaped = .ok v

end Fragment

end InlineTemplates
