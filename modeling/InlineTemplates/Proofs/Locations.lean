import InlineTemplates.Grammar.Source
import InlineTemplates.Proofs.StatementSpans

/-!
# The places in a program are right

What is read from a source spans it, from the first token to the last. A hole is a source of its own
with fewer templates around it, so what the holes are read to is known when the text around them is
read, and moving it keeps each place right however deep the hole is.
-/

namespace InlineTemplates

open Node (Spans)

namespace Grammar

variable {source : Text} {origin : SourceUnit}

theorem scan_ordered (origin : SourceUnit) (source : Text) :
    Yields (scan origin source) fun s => Token.Ordered source (Token.placeModule s.tokens) ∧
      Token.Ordered source (Token.placeExpression s.tokens) := by
  intro s hs
  unfold scan at hs
  split at hs
  · rename_i s' hscan
    cases hs
    obtain ⟨hts, hsorted⟩ := Scan.scan_tokens hscan
    exact ⟨Token.placeModule_ordered hts hsorted, Token.placeExpression_ordered hts hsorted⟩
  · cases hs

theorem clear_start {ts : List Token} (h : Token.Ordered source ts) :
    Parse.Clear source .start ts :=
  ⟨h, Location.le_advance _ _, fun t ht => (h.lies t ht).holds.start_le⟩

theorem readAll_yields {α : Type} {rule : Parse α} {ts : List Token} {Q : α → List Token → Prop}
    (h : Parse.Ensures ts rule Q) : Yields (readAll origin rule ts) fun a => Q a [] := by
  intro a ha
  unfold readAll at ha
  dsimp only at ha
  split at ha
  · rename_i b hb
    cases ha
    exact h _ hb
  all_goals cases ha

theorem expressionTo_spans (depth : Nat) : ∀ (origin : SourceUnit) (source : Text),
    Draft.Spans source .start (Location.start.advance source)
      (expressionTo depth origin source) := by
  -- the holes of a template are read with one level less
  induction depth with
  | zero =>
    intro origin source n hn
    cases hn
  | succ depth ih =>
    intro origin source
    refine (scan_ordered origin source).bind fun s hs => ?_
    have hr : Reader.ReadsHoles ⟨origin, fun hole => expressionTo depth ⟨some hole, none⟩ hole⟩ :=
      fun hole => ih _ hole
    have hread := (rulesTo_sound source hr ((Token.placeExpression s.tokens).length + 1)).assign
      (clear_start hs.2)
    refine (readAll_yields hread).bind ?_
    rintro d ⟨hi, hrest, hd⟩
    refine hd.bind fun n hn => .pure ?_
    exact Comment.spans_attach.2 (hn.later hrest.inside)

theorem readsHoles (origin : SourceUnit) :
    Reader.ReadsHoles ⟨origin, fun hole => Node.readExpression hole none⟩ :=
  fun hole => expressionTo_spans _ _ hole

end Grammar

namespace Node

variable {source : Text}

theorem readProgram_spans (source : Text) (file : Option Text) :
    Draft.Spans source .start (Location.start.advance source) (readProgram source file) := by
  refine (Grammar.scan_ordered _ source).bind fun s hs => ?_
  have hbody : Parse.Follows source (Drafts.Spans source) _ :=
    Grammar.statements_follows (Grammar.readsHoles ⟨some source, file⟩)
      ((Token.placeModule s.tokens).length + 1)
  have hstart := Grammar.clear_start hs.1
  -- the program starts at its first token
  cases htokens : Token.placeModule s.tokens with
  | nil =>
    rw [htokens] at hbody hstart
    refine (Grammar.readAll_yields (hbody hstart.ahead)).bind ?_
    rintro ds ⟨hi, hrest, hds⟩
    refine hds.bind fun body hb => .pure (Comment.spans_attach.2 ?_)
    exact Spans.node_of_loc_none rfl (hb.later hrest.inside) trivial
  | cons t tokens =>
    rw [htokens] at hbody hstart
    refine (Grammar.readAll_yields (hbody hstart.ahead.here.ahead)).bind ?_
    rintro ds ⟨hi, hrest, hds⟩
    refine hds.bind fun body hb => .pure (Comment.spans_attach.2 ?_)
    have hroot : Spans source t.start hi [[.program (Head.ofLoc t.start) [] body]] :=
      .node hb trivial
    exact hroot.widen hstart.here.1 hrest.inside

/-- Every name, string and template of a program, at any depth of templates, starts in the source
where it says, and the places of the nodes go forward. -/
theorem locations_of_readProgram {source : Text} {file : Option Text} {program : Node}
    (h : readProgram source file = .ok program) :
    (∀ n ∈ program.nodes, n.StandsIn source) ∧
      (program.nodes.filterMap Node.loc).Pairwise fun a b => a.le b := by
  have hspans := readProgram_spans source file program h
  have hnodes : nodesOfSlots [[program]] = program.nodes := by
    simp [nodesOfSlots, nodesOfList]
  rw [← hnodes]
  exact ⟨hspans.standing, hspans.inOrder.sorted⟩

/-- A string in a template in a template, and a name behind it. -/
def nested : Text := "x;\n`a$\x7b`b$\x7b\n  'c'\x7d`\x7d\n$\x7bd\x7d`;"

theorem locations_of_nested : ∃ program, readProgram nested none = .ok program ∧
    (∀ n ∈ program.nodes, n.StandsIn nested) ∧
      (program.nodes.filterMap Node.loc).Pairwise (fun a b => a.le b) ∧
      program.nodes.filterMap Node.loc =
        [⟨1, 1⟩, ⟨1, 1⟩, ⟨1, 1⟩, ⟨2, 1⟩, ⟨2, 1⟩, ⟨2, 5⟩, ⟨3, 3⟩, ⟨4, 3⟩] := by
  have hlocs : (readProgram nested none).toOption.map (fun p => p.nodes.filterMap Node.loc) =
      some [⟨1, 1⟩, ⟨1, 1⟩, ⟨1, 1⟩, ⟨2, 1⟩, ⟨2, 1⟩, ⟨2, 5⟩, ⟨3, 3⟩, ⟨4, 3⟩] := by
    decide +kernel
  cases h : readProgram nested none with
  | error e =>
    rw [h] at hlocs
    cases hlocs
  | ok program =>
    rw [h] at hlocs
    obtain ⟨hstand, hsorted⟩ := locations_of_readProgram h
    exact ⟨program, rfl, hstand, hsorted, Option.some.inj hlocs⟩

/-- A name can start right behind a number. -/
example : (readProgram "class A \x7b x = 1else = 2 \x7d" none).toOption.isSome := by decide +kernel

end Node

end InlineTemplates
