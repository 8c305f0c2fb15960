import InlineTemplates.Grammar.Draft
import InlineTemplates.Proofs.Scanning
import InlineTemplates.Proofs.Spans

/-!
# The drafts of tokens

A draft that is a node spans the token that it was made from. For a template this rests on its
holes: each is a fragment that starts where the split of the template says, and what a hole is read
to moves there.
-/

namespace InlineTemplates

/-! ## Results that hold something -/

/-- What holds of the result, if there is one. -/
def Yields {ε α : Type} (x : Except ε α) (P : α → Prop) : Prop := ∀ a, x = .ok a → P a

namespace Yields

variable {ε α β : Type} {x : Except ε α} {P Q : α → Prop}

theorem pure {a : α} (h : P a) : Yields (Pure.pure a : Except ε α) P := by
  intro b hb
  cases hb
  exact h

theorem ok {a : α} (h : P a) : Yields (.ok a : Except ε α) P := pure h

theorem bind {f : α → Except ε β} {R : β → Prop} (hx : Yields x P)
    (hf : ∀ a, P a → Yields (f a) R) : Yields (x >>= f) R := by
  cases x with
  | error e => intro b hb; cases hb
  | ok a => exact hf a (hx a rfl)

theorem map {f : α → β} {R : β → Prop} (hx : Yields x P) (hf : ∀ a, P a → R (f a)) :
    Yields (x.map f) R := by
  cases x with
  | error e => intro b hb; cases hb
  | ok a => exact pure (hf a (hx a rfl))

theorem mono (hx : Yields x P) (h : ∀ a, P a → Q a) : Yields x Q := fun a ha => h a (hx a ha)

end Yields

def Fails {ε α : Type} (x : Except ε α) (Q : ε → Prop) : Prop := ∀ e, x = .error e → Q e

namespace Fails

variable {ε α β : Type} {x : Except ε α} {Q : ε → Prop}

theorem ok (a : α) : Fails (.ok a) Q := nofun

theorem error {e : ε} (h : Q e) : Fails (.error e : Except ε α) Q := by
  rintro _ ⟨⟩
  exact h

theorem bind {f : α → Except ε β} (hx : Fails x Q) (hf : ∀ a, x = .ok a → Fails (f a) Q) :
    Fails (x >>= f) Q := by
  cases x with
  | error e => exact error (hx e rfl)
  | ok a => exact hf a rfl

theorem map (f : α → β) (hx : Fails x Q) : Fails (x.map f) Q := by
  cases x with
  | error e => exact error (hx e rfl)
  | ok a => exact ok (f a)

theorem mapM {f : α → Except ε β} {as : List α} (hf : ∀ a ∈ as, Fails (f a) Q) :
    Fails (as.mapM f) Q := by
  induction as with
  | nil => exact ok []
  | cons a as ih =>
    rw [List.mapM_cons]
    refine (hf a List.mem_cons_self).bind fun b _ => ?_
    exact (ih fun a ha => hf a (List.mem_cons_of_mem _ ha)).bind fun bs _ => ok _

end Fails

/-! ## The parts of a template -/

namespace Template

/-- The text at `loc` is the chunks with the holes between them, each in its place. -/
inductive Woven : Location → Text → List Text → List Hole → Prop where
  | last {loc : Location} {chunk : Text} : Woven loc chunk [chunk] []
  | hole {loc : Location} {chunk hole text : Text} {chunks : List Text} {holes : List Hole}
      (h : Woven ((loc.advance (chunk ++ "$\x7b")).advance (hole ++ "\x7d")) text chunks holes) :
      Woven loc (chunk ++ "$\x7b" ++ (hole ++ "\x7d" ++ text)) (chunk :: chunks)
        (⟨hole, loc.advance (chunk ++ "$\x7b")⟩ :: holes)

theorem Woven.cons {loc : Location} {c : CodePoint} {text chunk : Text} {chunks : List Text}
    {holes : List Hole} (h : Woven (loc.step c) text (chunk :: chunks) holes) :
    Woven loc (c :: text) ((c :: chunk) :: chunks) holes := by
  cases h with
  | last => exact .last
  | hole h => exact @Woven.hole loc (c :: chunk) _ _ _ _ h

theorem Woven.eq_weave {loc : Location} {text : Text} {chunks : List Text} {holes : List Hole}
    (h : Woven loc text chunks holes) :
    text = Text.weave chunks (holes.map Hole.source) ∧ chunks.length = holes.length + 1 := by
  induction h with
  | last => exact ⟨rfl, rfl⟩
  | hole h ih =>
    obtain ⟨htext, hlength⟩ := ih
    refine ⟨?_, by simp [hlength]⟩
    rw [htext]
    rfl

theorem Woven.holds {source text : Text} {loc : Location} {chunks : List Text}
    {holes : List Hole} (h : Woven loc text chunks holes) (ht : source.Holds loc text) :
    ∀ hole ∈ holes, source.Holds hole.start hole.source := by
  induction h with
  | last => exact List.forall_mem_nil _
  | hole _ ih => exact List.forall_mem_cons.2 ⟨ht.behind.front.front, ih ht.behind.behind⟩

/-- What the parts behind a place say about the text there: in a chunk they weave it, and in a hole
they do so behind the brace that closes the hole. -/
def Rest.Fits (loc : Location) (text : Text) (r : Rest) : Option (List Nest) → Prop
  | none => Woven loc text (r.current :: r.chunks) r.holes
  | some _ => ∃ behind : Text, text = r.current ++ "\x7d" ++ behind ∧
      Woven (loc.advance (r.current ++ "\x7d")) behind r.chunks r.holes

theorem Rest.Fits.cons {loc : Location} {c : CodePoint} {text : Text} {r : Rest}
    {nest nest' : Option (List Nest)} (hn : nest.isSome = nest'.isSome)
    (h : r.Fits (loc.step c) text nest') : (r.cons c).Fits loc (c :: text) nest := by
  cases nest with
  | none =>
    cases nest' with
    | none => exact Woven.cons h
    | some _ => cases hn
  | some _ =>
    cases nest' with
    | none => cases hn
    | some _ =>
      obtain ⟨behind, rfl, hw⟩ := h
      exact ⟨behind, rfl, hw⟩

theorem closes_of_nestAfter {c : CodePoint} {nest : List Nest} (h : nestAfter c nest = none) :
    c = '\x7d' := by
  unfold nestAfter at h
  repeat' split at h
  all_goals first | assumption | cases h

theorem restFrom_fits {nest : Option (List Nest)} {escaped : Bool} {loc : Location} {text : Text}
    {r : Rest} (h : restFrom nest escaped loc text = some r) : r.Fits loc text nest := by
  fun_induction restFrom nest escaped loc text generalizing r with
  | case1 nest escaped loc hnest =>
    obtain rfl := Option.some.inj h
    obtain rfl := Option.isNone_iff_eq_none.1 hnest
    exact .last
  | case3 escaped loc c =>
    obtain rfl := Option.some.inj h
    exact .last
  | case4 escaped loc c hc =>
    obtain rfl := Option.some.inj h
    obtain ⟨rfl, -⟩ := hc
    exact ⟨[], rfl, .last⟩
  | case7 nest loc c d rest loc' =>
    rename_i ih
    obtain ⟨below, hbelow, rfl⟩ := Option.map_eq_some_iff.1 h
    exact Rest.Fits.cons rfl (ih hbelow)
  | case8 escaped loc c d rest loc' _ hopen =>
    -- a hole opens, and the chunk in front of it ends
    rename_i ih
    obtain ⟨below, hbelow, rfl⟩ := Option.map_eq_some_iff.1 h
    obtain ⟨rfl, rfl⟩ := hopen
    obtain ⟨behind, rfl, hw⟩ := ih hbelow
    exact @Woven.hole loc [] _ _ _ _ hw
  | case9 escaped loc c d rest loc' _ _ =>
    rename_i ih
    obtain ⟨below, hbelow, rfl⟩ := Option.map_eq_some_iff.1 h
    exact Rest.Fits.cons rfl (ih hbelow)
  | case10 escaped loc c d rest loc' _ below _ =>
    -- a template in the hole has a hole of its own: two code points at once
    rename_i ih
    obtain ⟨inner, hinner, rfl⟩ := Option.map_eq_some_iff.1 h
    have hd : (inner.cons d).Fits loc' (d :: rest) (some below) := Rest.Fits.cons rfl (ih hinner)
    exact Rest.Fits.cons rfl hd
  | case11 escaped loc c d rest loc' _ below _ nest' escaped' _
  | case13 escaped loc c d rest loc' _ nest _ nest' escaped' _ =>
    rename_i ih
    obtain ⟨inner, hinner, rfl⟩ := Option.map_eq_some_iff.1 h
    exact Rest.Fits.cons rfl (ih hinner)
  | case14 escaped loc c d rest loc' _ nest _ hnest =>
    -- the brace closes the hole, and a chunk follows
    rename_i ih
    obtain ⟨below, hbelow, rfl⟩ := Option.map_eq_some_iff.1 h
    obtain rfl := closes_of_nestAfter hnest
    exact ⟨d :: rest, rfl, ih hbelow⟩
  | case2 | case5 | case6 | case12 => cases h

theorem parts?_woven {loc : Location} {inside : Text} {chunks : List Text} {holes : List Hole}
    (h : parts? loc inside = some (chunks, holes)) : Woven loc inside chunks holes := by
  obtain ⟨r, hr, hparts⟩ := Option.map_eq_some_iff.1 h
  cases hparts
  exact restFrom_fits hr

end Template

/-! ## Drafts of tokens -/

theorem Token.LiesIn.inside_holds {source : Text} {t : Token} (ht : t.LiesIn source)
    (hk : t.kind = .template) : source.Holds (t.start.step '\x60') (Reader.inside t) := by
  obtain ⟨body, htext⟩ : Token.Kind.Fits t.text .template := hk ▸ ht.fits
  have hinside : Reader.inside t = body := by simp [Reader.inside, htext]
  have hholds : source.Holds t.start
      ([CodePoint.scalar '\x60'] ++ (body ++ [CodePoint.scalar '\x60'])) := htext ▸ ht.holds
  exact hinside ▸ hholds.behind.front

/-- The node, if there is one, spans a part of the source. -/
def Draft.Spans (source : Text) (lo hi : Location) (d : Draft) : Prop :=
  Yields d fun n => Node.Spans source lo hi [[n]]

def Drafts.Spans (source : Text) (lo hi : Location) (ds : Drafts) : Prop :=
  Yields ds fun ns => Node.Spans source lo hi [ns]

/-- Where there is no draft, no more is known than the order of the places. -/
def Draft.MaySpan (source : Text) (lo hi : Location) : Option Draft → Prop
  | none => lo.le hi
  | some d => d.Spans source lo hi

namespace Draft.Spans

variable {source : Text} {lo lo' hi hi' : Location} {d : Draft}

theorem widen (hlo : lo'.le lo) (hhi : hi.le hi') (h : d.Spans source lo hi) :
    d.Spans source lo' hi' :=
  h.mono fun _ hn => hn.widen hlo hhi

theorem earlier (hlo : lo'.le lo) (h : d.Spans source lo hi) : d.Spans source lo' hi :=
  h.widen hlo (Location.le_refl hi)

theorem later (hhi : hi.le hi') (h : d.Spans source lo hi) : d.Spans source lo hi' :=
  h.widen (Location.le_refl lo) hhi

end Draft.Spans

namespace Reader

open Node (Spans)

/-- What the holes of templates are read to spans them. -/
def ReadsHoles (r : Reader) : Prop :=
  ∀ hole : Text, (r.hole hole).Spans hole .start (Location.start.advance hole)

variable {source : Text} {r : Reader} {t : Token}

theorem name_spans (ht : t.LiesIn source) (hk : t.kind.isWord) :
    Spans source t.start t.start [[name t]] :=
  .node (.nil (Location.le_refl _)) ⟨t.start, rfl, ht.whole hk⟩

theorem number_spans (source : Text) (t : Token) : Spans source t.start t.start [[number t]] := by
  refine .node (.nil (Location.le_refl _)) ?_
  unfold numberValue
  dsimp only
  split_ifs <;> trivial

theorem unescape_yields (r : Reader) (t : Token) (body : Text) :
    Yields (r.unescape t body) fun v => body.unescaped = .ok v := by
  intro v hv
  unfold unescape at hv
  split at hv
  · rename_i v' hv'
    cases hv
    exact hv'
  · cases hv

theorem string_spans (ht : t.LiesIn source) (hk : t.kind = .string) :
    (r.string t).Spans source t.start t.start := by
  obtain ⟨quote, body, hq, htext⟩ : Token.Kind.Fits t.text .string := hk ▸ ht.fits
  have hinside : inside t = body := by simp [inside, htext]
  refine (unescape_yields r t (inside t)).bind fun v hv => .pure ?_
  refine .node (.nil (Location.le_refl _)) ⟨t.start, quote, body, rfl, hq, ?_, htext ▸ ht.holds⟩
  rw [← hinside, hv]

section Template

variable {loc : Location} {text : Text} {chunks : List Text} {holes : List Template.Hole}

theorem quasis_spans (source : Text) (l : Location) (t : Token) (chunks : List Text) :
    Yields (chunks.mapM fun chunk => do return Node.quasi .fresh chunk (← r.unescape t chunk))
      fun quasis => Spans source l l [quasis] ∧ quasis.map Node.raw? = chunks.map some := by
  induction chunks with
  | nil => exact .pure ⟨.empty (Location.le_refl _), rfl⟩
  | cons chunk chunks ih =>
    rw [List.mapM_cons]
    refine .bind (P := fun q => Spans source l l [[q]] ∧ q.raw? = some chunk) ?_ ?_
    · refine (unescape_yields r t chunk).bind fun v _ => .pure ⟨⟨?_, ?_⟩, rfl⟩
      · simp [Node.nodesOfSlots, Node.nodesOfList, Node.nodes, Node.StandsIn]
      · exact .nil (Location.le_refl _)
    · rintro q ⟨hq, hraw⟩
      refine ih.bind fun qs hqs => .pure ⟨hq.cons hqs.1, ?_⟩
      rw [List.map_cons, List.map_cons, hraw, hqs.2]

theorem holes_span (hr : r.ReadsHoles) (h : Template.Woven loc text chunks holes)
    (ht : source.Holds loc text) :
    Yields (holes.mapM fun h => do return (← r.hole h.source).mapLocations h.start.within)
      fun expressions => Spans source loc (loc.advance text) [expressions] ∧
        expressions.length = holes.length := by
  induction h with
  | last => exact .pure ⟨.empty (Location.le_advance _ _), rfl⟩
  | @hole loc chunk hole text chunks holes h ih =>
    have hbehind := ht.behind
    have hopen : Lexeme.LeavesName (chunk ++ "$\x7b") :=
      Lexeme.leavesName_concat (u := chunk ++ "$") (c := '\x7b')
        (by rw [List.append_assoc]; rfl) (by decide)
    have hhole : source.HoldsApart (loc.advance (chunk ++ "$\x7b")) hole := by
      rw [List.append_assoc hole] at ht
      exact ht.apart (c := '\x7d') (by simp [Text.ofString]) hopen (by decide)
    rw [List.mapM_cons]
    refine .bind (P := fun n => Spans source (loc.advance (chunk ++ "$\x7b"))
      ((loc.advance (chunk ++ "$\x7b")).advance hole) [[n]]) ?_ ?_
    · exact (hr hole).bind fun n hn => .pure (hn.within hhole)
    · intro n hn
      refine (ih hbehind.behind).bind fun ns hns => .pure ⟨?_, by rw [List.length_cons, hns.2]; rfl⟩
      have hclosed : ((loc.advance (chunk ++ "$\x7b")).advance hole).le
          ((loc.advance (chunk ++ "$\x7b")).advance (hole ++ "\x7d")) := by
        rw [Location.advance_append _ hole]
        exact Location.le_advance _ _
      rw [Location.advance_append _ (chunk ++ "$\x7b"), Location.advance_append _ (hole ++ "\x7d")]
      exact .cons (hn.widen (Location.le_advance _ _) hclosed) hns.1

theorem template_spans (hr : r.ReadsHoles) (ht : t.LiesIn source) (hk : t.kind = .template) :
    (r.template t).Spans source t.start t.stop := by
  obtain ⟨body, htext⟩ : Token.Kind.Fits t.text .template := hk ▸ ht.fits
  have hinside : inside t = body := by simp [inside, htext]
  have hbody : source.Holds (t.start.step '\x60') body := hinside ▸ ht.inside_holds hk
  have hstop : ((t.start.step '\x60').advance body).le t.stop := by
    rw [ht.stop_eq, htext, List.cons_append, Location.advance_cons, Location.advance_append]
    exact Location.le_advance _ _
  unfold template
  rw [hinside]
  split
  · intro n hn
    cases hn
  · rename_i chunks holes hparts
    have hwoven := Template.parts?_woven hparts
    obtain ⟨hweave, hlength⟩ := hwoven.eq_weave
    refine (quasis_spans source t.start t chunks).bind fun quasis hquasis => ?_
    refine (holes_span hr hwoven hbody).bind fun expressions hholes => .pure ?_
    have hexpressions := hholes.1.widen (Location.le_step _ _) hstop
    refine .node (hquasis.1.append hexpressions) ?_
    refine ⟨t.start, quasis, expressions, chunks, holes.map Template.Hole.source, rfl, rfl,
      hquasis.2, by simpa using hlength, by simpa using hholes.2.symm, ?_⟩
    rw [← hweave, ← htext]
    exact ht.holds

end Template

end Reader

end InlineTemplates
