import InlineTemplates.Grammar.Source
import InlineTemplates.Proofs.Fragments
import InlineTemplates.Proofs.StatementAccounts

/-!
# Why sources are refused

A source is read if its literals have values and so have those of its holes, and otherwise it is
refused for a fault of itself or of a hole, or for the name of an import. The holes of a template
are read with enough depth, since each is shorter than the text around it.
-/

namespace InlineTemplates

open Parse (At)

/-- The failures that come from a source. -/
inductive Error.OfSource : Error → Prop
  | parse (f : ParseFault) (l : Location) (origin : SourceUnit) :
    OfSource (.report ⟨.parse f, some l, origin⟩)
  | stringImportName : OfSource .stringImportName

/-! ## Literals -/

/-- The literals in the token have values, and so have those in its holes. -/
def Token.Valued (t : Token) : Prop :=
  (∀ body, t.HasBody body → ∃ v, body.unescaped = .ok v) ∧
    ∀ chunks holes, t.Parts chunks holes →
      ∀ hole ∈ holes, (Fragment.ofHole hole.source).Valued

theorem Fragment.valued_of_tokens {f : Fragment} {ts : List Token} (hts : f.Tokens ts)
    (h : ∀ t ∈ ts, t.Valued) : f.Valued := by
  intro part place hpart
  cases hpart with
  | self =>
    intro ts' hts' t ht
    obtain rfl := hts.unique hts'
    exact (h t ht).1
  | hole hhole hpart =>
    obtain ⟨ts', t, chunks, holes, hts', ht, hparts, hmem⟩ := hhole
    obtain rfl := hts.unique hts'
    exact (h t ht).2 chunks holes hparts _ hmem part _ hpart

namespace Reader

/-- Errors come from the fragment, and what its holes are read to says so, too. -/
structure Reads (r : Reader) (f : Fragment) : Prop where
  origin : r.origin = f.origin
  hole : ∀ hole, f.HasHole hole → Settles (r.hole hole.source)
    (Fragment.ofHole hole.source).Explains fun _ => (Fragment.ofHole hole.source).Valued

variable {r : Reader} {f : Fragment} {ts : List Token} {t : Token} (hr : r.Reads f)
  (hts : f.Tokens ts) (ht : t ∈ ts)

include hr hts ht

theorem unescape_settles {body : Text} (hbody : t.HasBody body) :
    Settles (r.unescape t body) f.Explains fun _ => ∃ v, body.unescaped = .ok v := by
  unfold unescape
  cases hv : body.unescaped with
  | ok v => exact .ok ⟨v, rfl⟩
  | error e =>
    obtain ⟨front, _, he, -⟩ := Text.unescaped_eq_error_iff.1 hv
    have hfault := Fragment.Explains.here (.literal hts ht hbody he)
    rw [← hr.origin] at hfault
    exact .error hfault

theorem string_settles (hk : t.kind = .string) :
    Settles (r.string t) f.Explains fun _ => t.Valued := by
  have hparts {chunks holes} : ¬t.Parts chunks holes := fun h => by cases hk.symm.trans h.1
  refine (unescape_settles hr hts ht (.inl ⟨hk, rfl⟩)).bind fun _ hv => .ok ⟨?_, ?_⟩
  · rintro body (⟨-, rfl⟩ | ⟨_, _, h, -⟩)
    · exact hv
    · exact absurd h hparts
  · exact fun _ _ h => absurd h hparts

theorem template_settles (hk : t.kind = .template) :
    Settles (r.template t) f.Explains fun _ => t.Valued := by
  obtain ⟨chunks, holes, hparts⟩ := (hts.splits t ht).parts hk
  unfold template
  simp only [hparts.2]
  refine (Settles.mapM fun chunk hmem => (unescape_settles hr hts ht
    (.inr ⟨chunks, holes, hparts, hmem⟩)).bind fun _ hv => .ok hv).bind fun _ hchunks => ?_
  have hhole : ∀ hole ∈ holes, Settles (r.hole hole.source) f.Explains
      fun _ => (Fragment.ofHole hole.source).Valued := by
    intro hole hmem
    have hhas : f.HasHole hole := ⟨ts, t, chunks, holes, hts, ht, hparts, hmem⟩
    exact ⟨fun e he => .ofHole hhas ((hr.hole hole hhas).fails e he), (hr.hole hole hhas).yields⟩
  refine (Settles.mapM fun hole hmem => (hhole hole hmem).bind fun _ hv => .ok hv).bind
    fun _ hholes => .ok ⟨?_, ?_⟩
  · rintro body (⟨hstring, -⟩ | ⟨_, _, h, hmem⟩)
    · cases hk.symm.trans hstring
    · obtain ⟨rfl, rfl⟩ := hparts.unique h
      exact hchunks body hmem
  · intro _ _ h
    obtain ⟨rfl, rfl⟩ := hparts.unique h
    exact hholes

theorem explains_of_faulty {e : Error} (h : r.Faulty t e) : f.Explains e := by
  rcases h with ⟨hk, he⟩ | ⟨hk, he⟩
  · exact (string_settles hr hts ht hk).fails e he
  · exact (template_settles hr hts ht hk).fails e he

theorem valued_of_not_faulty (h : ∀ e, ¬r.Faulty t e) : t.Valued := by
  by_cases hs : t.kind = .string
  · cases hstring : r.string t with
    | error e => exact absurd (.inl ⟨hs, hstring⟩) (h e)
    | ok n => exact (string_settles hr hts ht hs).yields n hstring
  by_cases hk : t.kind = .template
  · cases htemplate : r.template t with
    | error e => exact absurd (.inr ⟨hk, htemplate⟩) (h e)
    | ok n => exact (template_settles hr hts ht hk).yields n htemplate
  refine ⟨?_, fun _ _ hparts => absurd hparts.1 hk⟩
  rintro body (⟨hstring, -⟩ | ⟨_, _, hparts, -⟩)
  · exact absurd hstring hs
  · exact absurd hparts.1 hk

end Reader

/-! ## Fragments -/

namespace Grammar

variable {r : Reader} {f : Fragment} {ts : List Token}

theorem scan_settles (f : Fragment) :
    Settles (scan f.origin f.text) f.Explains fun s => Scan.scan f.text = .ok s := by
  unfold scan
  split
  · rename_i s hs
    exact .ok hs
  · rename_i fault hfault
    obtain ⟨front, rest, c, htext, hc, rfl⟩ := Scan.scanFrom_fails hfault (Nat.le_refl _)
    exact .error (.here (.character htext hc))

theorem readAll_settles {α : Type} {rule : Parse (Except Error α)} (hr : r.Reads f)
    (hts : f.Tokens ts) (hrule : At ⟨r, ts⟩ ts rule (Accounts ⟨r, ts⟩ ts)) :
    Settles (readAll f.origin rule ts) f.Explains
      fun draft => Settles draft f.Explains fun _ => f.Valued := by
  obtain ⟨hfails, hyields⟩ := hrule (List.Subset.refl ts)
  unfold readAll
  dsimp only
  split
  · rename_i draft hdraft
    obtain ⟨-, hdraft⟩ := hyields _ hdraft
    refine .ok ⟨fun e he => ?_, fun a ha => ?_⟩
    · rcases hdraft.fails e he with rfl | ⟨t, ht, hfaulty⟩
      · exact .stringImportName
      · exact Reader.explains_of_faulty hr hts ht hfaulty
    · refine Fragment.valued_of_tokens hts fun t ht => ?_
      rcases hdraft.yields a ha t ht with hrest | hfine
      · cases hrest
      · exact Reader.valued_of_not_faulty hr hts ht hfine
  · rename_i t rest hrest
    exact .error (.here (.token hts ((hyields _ hrest).1 List.mem_cons_self)))
  · rename_i t hfail
    exact .error (.here (.token hts (hfails _ hfail t rfl)))
  · exact .error (.here (.ends hts))

theorem expressionTo_settles (depth : Nat) : ∀ (source : Text) (file : Option Text),
    source.length < depth →
      Settles (expressionTo depth ⟨some source, file⟩ source)
        (Fragment.expression source file).Explains
        fun _ => (Fragment.expression source file).Valued := by
  induction depth with
  | zero => exact fun _ _ h => absurd h (Nat.not_lt_zero _)
  | succ depth ih =>
    intro source file hlength
    refine (scan_settles (.expression source file)).bind fun s hs => ?_
    have hts : (Fragment.expression source file).Tokens (Token.placeExpression s.tokens) :=
      ⟨s, hs, rfl⟩
    have hr : Reader.Reads ⟨⟨some source, file⟩, fun hole =>
        expressionTo depth ⟨some hole, none⟩ hole⟩ (.expression source file) :=
      ⟨rfl, fun hole hhole => ih hole.source none
        (Nat.lt_of_lt_of_le hhole.length_lt (Nat.le_of_lt_succ hlength))⟩
    refine (readAll_settles hr hts ((rulesTo_accounting _ _).assign _)).bind fun draft hdraft => ?_
    exact hdraft.bind fun _ hvalued => .ok hvalued

end Grammar

namespace Node

theorem readExpression_settles (source : Text) (file : Option Text) :
    Settles (readExpression source file) (Fragment.expression source file).Explains
      fun _ => (Fragment.expression source file).Valued :=
  Grammar.expressionTo_settles _ source file (Nat.lt_succ_self _)

theorem readProgram_settles (source : Text) (file : Option Text) :
    Settles (readProgram source file) (Fragment.program source file).Explains
      fun _ => (Fragment.program source file).Valued := by
  refine (Grammar.scan_settles (.program source file)).bind fun s hs => ?_
  have hts : (Fragment.program source file).Tokens (Token.placeModule s.tokens) := ⟨s, hs, rfl⟩
  have hr : Reader.Reads ⟨⟨some source, file⟩, fun hole => readExpression hole none⟩
      (.program source file) :=
    ⟨rfl, fun hole _ => readExpression_settles hole.source none⟩
  refine (Grammar.readAll_settles hr hts (Grammar.statements_accounts
    (Grammar.rulesTo_accounting _ _) _)).bind fun draft hdraft => ?_
  exact hdraft.bind fun _ hvalued => .ok hvalued

/-! ## Programs -/

variable {source : Text} {file : Option Text} {program : Node}

/-- A source that is no program is reported with a place in it, or a string names an import that
gets no local name. No other failure comes from reading a source. -/
theorem readProgram_refuses (source : Text) (file : Option Text) :
    Fails (readProgram source file) Error.OfSource := by
  intro e he
  cases (readProgram_settles source file).fails e he with
  | fault => exact .parse _ _ _
  | stringImportName => exact .stringImportName

/-- What is reported is a fault of the source itself or of a hole, at any depth of templates. The
place of the report is counted from the start of that fragment, and what is at fault stands that far
behind the place of the fragment in the source. A fault of a hole is reported for no file. -/
theorem fault_of_readProgram {r : Report} (h : readProgram source file = .error (.report r)) :
    ∃ (part : Fragment) (place l : Location) (fault : ParseFault),
      (Fragment.program source file).Has part place ∧ part.Complains fault l ∧
      r = ⟨.parse fault, some l, part.origin⟩ ∧ source.Holds (place.within l) fault.subject ∧
      (part = .program source file ∧ place.within l = l ∨ r.origin.file = none) := by
  cases (readProgram_settles source file).fails _ h with
  | @fault part place l fault hpart hfault =>
    refine ⟨part, place, l, fault, hpart, hfault, rfl, hpart.holds.within hfault.holds, ?_⟩
    rcases hpart.eq_or_file with ⟨rfl, rfl⟩ | hfile
    · exact .inl ⟨rfl, l.start_within⟩
    · exact .inr hfile

/-- The end of a hole in the second line is reported for the first line of no file. -/
example : (match readProgram "a;\n\x60$\x7b1 +\x7d\x60;" (some "f.js") with
    | .error (.report r) => r.loc == some ⟨1, 3⟩ && r.origin.file.isNone
    | _ => false) = true := by
  decide +kernel

/-- A program is read only if no escape for a code point that does not exist stands in a string of
it or in a chunk of a template, at any depth of templates. -/
theorem not_beyond_of_readProgram (h : readProgram source file = .ok program) {part : Fragment}
    {place : Location} (hpart : (Fragment.program source file).Has part place) {ts : List Token}
    (hts : part.Tokens ts) {t : Token} (ht : t ∈ ts) {body : Text} (hbody : t.HasBody body)
    (front e : Text) : ¬Text.BeyondAt front e body := by
  intro he
  obtain ⟨v, hv⟩ := (readProgram_settles source file).yields _ h part place hpart ts hts t ht body
    hbody
  obtain ⟨e', hfails⟩ := Text.unescaped_fails_iff.2 ⟨front, e, he⟩
  cases hv.symm.trans hfails

end Node

end InlineTemplates
