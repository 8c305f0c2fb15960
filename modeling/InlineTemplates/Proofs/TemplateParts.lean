import InlineTemplates.Proofs.Drafts
import InlineTemplates.Proofs.Escapes
import InlineTemplates.Proofs.TemplateGrammar

/-!
# The parts of a scanned template

A template that was scanned is one of the grammar, and the split cuts it into the chunks and holes
that it has there.
-/

namespace InlineTemplates

namespace Template

variable {loc : Location} {c : CodePoint} {t u : Text} {nest nest' nest'' : List Nest}

/-! ## One code point of the split -/

section Split

variable {escaped : Bool}

theorem restFrom_escaped (nest : Option (List Nest)) (loc : Location) (c : CodePoint) (t : Text) :
    restFrom nest true loc (c :: t) =
      (restFrom nest false (loc.step c) t).map (Rest.cons c) := by
  cases t with
  | nil =>
    match nest with
    | none | some (_ :: _) => rfl
    | some [] => simp [restFrom]
  | cons d t => simp [restFrom]

theorem restFrom_chunk (hopen : ¬(c = '$' ∧ t.head? = some (CodePoint.scalar '\x7b'))) :
    restFrom none false loc (c :: t) =
      (restFrom none (c = '\\') (loc.step c) t).map (Rest.cons c) := by
  cases t with
  | nil => rfl
  | cons d t =>
    have hopen' : ¬(c = '$' ∧ d = '\x7b') := by simpa using hopen
    simp [restFrom, hopen']

theorem restFrom_open (loc : Location) (t : Text) :
    restFrom none false loc (CodePoint.scalar '$' :: CodePoint.scalar '\x7b' :: t) =
      (restFrom (some []) false ((loc.step '$').step '\x7b') t).map
        (Rest.intoHole ((loc.step '$').step '\x7b')) := by
  simp [restFrom]

theorem restFrom_close (loc : Location) (t : Text) :
    restFrom (some []) false loc (CodePoint.scalar '\x7d' :: t) =
      (restFrom none false (loc.step '\x7d') t).map Rest.intoChunk := by
  cases t with
  | nil => rfl
  | cons d t => simp [restFrom, nestAfter]

theorem restFrom_inner (hafter : nestAfter c nest = some (nest', escaped))
    (hopen : nest.head? = some .template →
      ¬(c = '$' ∧ t.head? = some (CodePoint.scalar '\x7b'))) :
    restFrom (some nest) false loc (c :: t) =
      (restFrom (some nest') escaped (loc.step c) t).map (Rest.cons c) := by
  cases t with
  | nil =>
    cases nest with
    | nil =>
      have hc : c ≠ '\x7d' := by
        rintro rfl
        cases hafter
      simp [restFrom, hc]
    | cons => rfl
  | cons d t =>
    cases nest with
    | nil => simp [restFrom, hafter]
    | cons inner below =>
      cases inner with
      | template =>
        have hopen' : ¬(c = '$' ∧ d = '\x7b') := by simpa using hopen rfl
        simp [restFrom, hafter, hopen']
      | string | code => simp [restFrom, hafter]

theorem restFrom_openInner (loc : Location) (t : Text) :
    restFrom (some (.template :: nest)) false loc
        (CodePoint.scalar '$' :: CodePoint.scalar '\x7b' :: t) =
      (restFrom (some (.code :: .template :: nest)) false ((loc.step '$').step '\x7b') t).map
        fun r => (r.cons '\x7b').cons '$' := by
  simp [restFrom]

end Split

/-! ## The split follows the grammar -/

def Rest.prepend (t : Text) (r : Rest) : Rest := { r with current := t ++ r.current }

theorem Rest.prepend_nil : Rest.prepend [] = id := rfl

/-- In a hole, the split goes over `t` in front of `u`. -/
def CutsOver (nest : List Nest) (t u : Text) (nest' : List Nest) : Prop :=
  ∀ loc, restFrom (some nest) false loc (t ++ u) =
    (restFrom (some nest') false (loc.advance t) u).map (Rest.prepend t)

namespace CutsOver

theorem append (h : CutsOver nest t (t' ++ u) nest') (h' : CutsOver nest' t' u nest'') :
    CutsOver nest (t ++ t') u nest'' := by
  intro loc
  rw [List.append_assoc, h, h', Option.map_map, Location.advance_append]
  congr 1
  funext r
  simp [Rest.prepend]

theorem single (hafter : nestAfter c nest = some (nest', false))
    (hopen : nest.head? = some .template → ¬(c = '$' ∧ u.head? = some (CodePoint.scalar '\x7b'))) :
    CutsOver nest [c] u nest' := fun _ => restFrom_inner hafter hopen

theorem escape (hafter : nestAfter '\\' nest = some (nest, true)) (c : CodePoint) (u : Text) :
    CutsOver nest ['\\', c] u nest := by
  intro loc
  have hslash : restFrom (some nest) false loc (CodePoint.scalar '\\' :: c :: u) =
      (restFrom (some nest) true (loc.step '\\') (c :: u)).map (Rest.cons '\\') :=
    restFrom_inner hafter fun _ h => by cases h.1
  rw [List.cons_append, List.singleton_append, hslash, restFrom_escaped, Option.map_map]
  rfl

end CutsOver

theorem nestAfter_code (hnest : nest = [] ∨ nest.head? = some .code) (hc : c ≠ '\x7d') :
    nestAfter c nest =
      if c = '"' ∨ c = '\'' then some (.string c :: nest, false)
      else if c = '\x60' then some (.template :: nest, false)
      else if c = '\x7b' then some (.code :: nest, false)
      else some (nest, false) := by
  match nest, hnest with
  | [], _ | .code :: _, _ => simp only [nestAfter, hc, if_false]

theorem CutsOver.code (hnest : nest = [] ∨ nest.head? = some .code) (hc : c ≠ '\x7d')
    (hafter : (if c = '"' ∨ c = '\'' then some (.string c :: nest, false)
      else if c = '\x60' then some (.template :: nest, false)
      else if c = '\x7b' then some (.code :: nest, false)
      else some (nest, false)) = some (nest', false)) (u : Text) : CutsOver nest [c] u nest' := by
  refine .single ((nestAfter_code hnest hc).trans hafter) fun h => ?_
  rcases hnest with rfl | hnest
  · cases h
  · rw [hnest] at h
    cases h

/-- In a hole the split keeps a stack like that of the scan, without the levels. -/
def splitting : Follower (List Nest) where
  Over := CutsOver
  IsCode _ nest := nest = [] ∨ nest.head? = some .code
  string quote nest := .string quote :: nest
  code _ nest := .code :: nest
  template _ nest := .template :: nest
  isCode_code _ _ := .inr rfl
  nil _ _ := fun _ => by simp [Rest.prepend_nil, Location.advance]
  append := CutsOver.append
  string_plain _ _ hquote hslash _ := .single (by simp [nestAfter, hquote, hslash]) nofun
  string_escape _ c _ u := .escape (by simp [nestAfter]) c u
  string_close _ _ hslash := .single (by simp [nestAfter, hslash]) nofun
  code_plain _ hnest hclose hopen := .code hnest hclose (by simp_all) _
  code_string := by
    rintro _ _ _ u hnest - (rfl | rfl)
    · exact .code hnest (by decide) rfl u
    · exact .code hnest (by decide) rfl u
  code_braces _ hnest _ := .code hnest (by decide) rfl _
  code_template _ hnest _ := .code hnest (by decide) rfl _
  code_close _ _ _ := .single rfl nofun
  template_plain _ _ hslash hclose hopen :=
    .single (by simp [nestAfter, hslash, hclose]) fun _ => hopen
  template_escape _ _ c u := .escape rfl c u
  template_hole _ u _ := fun loc => restFrom_openInner loc u
  template_close _ _ _ := .single rfl fun _ h => by cases h.1

/-- The split cuts the inside of a template into the chunks and holes it has by the grammar. -/
theorem Inside.split {level : Nat} {t : Text} {chunks holes : List Text}
    (h : Inside level t chunks holes) (loc : Location) :
    ∃ r : Rest, restFrom none false loc t = some r ∧
      r.current :: r.chunks = chunks ∧ r.holes.map Hole.source = holes := by
  induction hlength : t.length using Nat.strongRecOn generalizing t chunks holes loc with
  | ind length ih =>
    subst hlength
    cases h with
    | nil => exact ⟨⟨[], [], []⟩, rfl, rfl, rfl⟩
    | @plain _ c _ _ _ _ hslash hclose hopen h =>
      obtain ⟨r, hr, hchunks, hholes⟩ := ih _ (Nat.lt_succ_self _) h (loc.step c) rfl
      obtain ⟨rfl, rfl⟩ := List.cons.inj hchunks
      exact ⟨r.cons c, by simp [restFrom_chunk hopen, hslash, hr], rfl, hholes⟩
    | @escape _ c _ _ _ _ h =>
      obtain ⟨r, hr, hchunks, hholes⟩ :=
        ih _ (Nat.lt_succ_of_lt (Nat.lt_succ_self _)) h ((loc.step '\\').step c) rfl
      obtain ⟨rfl, rfl⟩ := List.cons.inj hchunks
      refine ⟨(r.cons c).cons '\\', ?_, rfl, hholes⟩
      simp [restFrom_chunk, restFrom_escaped, hr]
    | @hole _ code _ _ _ _ hhole h =>
      have hover (u : Text) : CutsOver [] code u [] := hhole.over splitting (.inl rfl) u
      let start := (loc.step '$').step '\x7b'
      obtain ⟨r, hr, rfl, hholes⟩ :=
        ih _ (by simp; omega) h ((start.advance code).step '\x7d') rfl
      refine ⟨(r.intoChunk.prepend code).intoHole start, ?_, rfl, ?_⟩
      · rw [List.cons_append, List.cons_append, restFrom_open, hover, restFrom_close, hr]
        rfl
      · simp [Rest.intoHole, Rest.prepend, Rest.intoChunk, hholes]

theorem Inside.parts {level : Nat} {chunks holes : List Text} (h : Inside level t chunks holes)
    (loc : Location) : ∃ cut : List Hole, parts? loc t = some (chunks, cut) ∧
      cut.map Hole.source = holes := by
  obtain ⟨r, hr, hchunks, hholes⟩ := h.split loc
  exact ⟨r.holes, by rw [parts?, hr, ← hchunks]; rfl, hholes⟩

/-- A text has chunks and holes by the grammar in one way only. -/
theorem Inside.unique {level level' : Nat} {chunks chunks' holes holes' : List Text}
    (h : Inside level t chunks holes) (h' : Inside level' t chunks' holes') :
    chunks' = chunks ∧ holes' = holes := by
  obtain ⟨cut, hparts, rfl⟩ := h.parts .start
  obtain ⟨cut', hparts', rfl⟩ := h'.parts .start
  obtain ⟨rfl, rfl⟩ := Prod.mk.inj (Option.some.inj (hparts.symm.trans hparts'))
  exact ⟨rfl, rfl⟩

/-! ## Chunks -/

/-- No backtick and no opening of a hole stands in the text but escaped. -/
def IsChunk (chunk : Text) : Prop :=
  ∀ front behind : Text, chunk = front ++ behind → front.escapes = false →
    behind.head? ≠ some (CodePoint.scalar '\x60') ∧ ¬ Text.ofString "$\x7b" <+: behind

theorem IsChunk.nil : IsChunk [] := by
  intro front behind heq _
  obtain ⟨rfl, rfl⟩ := List.append_eq_nil_iff.1 heq.symm
  exact ⟨nofun, by decide⟩

theorem IsChunk.plain (h : IsChunk t) (hslash : c ≠ '\\') (hclose : c ≠ '\x60')
    (hopen : ¬(c = '$' ∧ t.head? = some (CodePoint.scalar '\x7b'))) : IsChunk (c :: t) := by
  intro front behind heq hfront
  cases front with
  | nil =>
    obtain rfl : c :: t = behind := heq
    refine ⟨fun hc => hclose (Option.some.inj hc), ?_⟩
    rintro ⟨rest, hrest⟩
    obtain ⟨rfl, rfl⟩ := List.cons.inj hrest
    exact hopen ⟨rfl, rfl⟩
  | cons d front =>
    obtain ⟨rfl, ht⟩ := List.cons.inj heq
    exact h front behind ht ((Text.escapes_plain hslash front).symm.trans hfront)

theorem IsChunk.escape (h : IsChunk t) (c : CodePoint) : IsChunk ('\\' :: c :: t) := by
  intro front behind heq hfront
  match front, heq with
  | [], heq =>
    obtain rfl : CodePoint.scalar '\\' :: c :: t = behind := heq
    refine ⟨nofun, ?_⟩
    rintro ⟨rest, hrest⟩
    cases hrest
  | [_], heq =>
    rw [← (List.cons.inj heq).1] at hfront
    cases hfront
  | _ :: _ :: front, heq =>
    rw [← (List.cons.inj heq).1] at hfront
    obtain ⟨rfl, ht⟩ := List.cons.inj (List.cons.inj heq).2
    exact h front behind ht ((Text.escapes_escape c front).symm.trans hfront)

theorem Inside.isChunk {level : Nat} {t : Text} {chunks holes : List Text}
    (h : Inside level t chunks holes) : ∀ chunk ∈ chunks, IsChunk chunk := by
  induction hlength : t.length using Nat.strongRecOn generalizing t chunks holes with
  | ind length ih =>
    subst hlength
    cases h with
    | nil => simpa using IsChunk.nil
    | plain hslash hclose hopen h =>
      obtain ⟨hchunk, hchunks⟩ := List.forall_mem_cons.1 (ih _ (Nat.lt_succ_self _) h rfl)
      refine List.forall_mem_cons.2 ⟨hchunk.plain hslash hclose ?_, hchunks⟩
      obtain ⟨_, _, heq, hhead⟩ := h.exists_chunk
      obtain ⟨rfl, -⟩ := List.cons.inj heq
      rcases hhead with rfl | hhead
      · simp
      · rwa [hhead]
    | escape h =>
      obtain ⟨hchunk, hchunks⟩ :=
        List.forall_mem_cons.1 (ih _ (Nat.lt_succ_of_lt (Nat.lt_succ_self _)) h rfl)
      exact List.forall_mem_cons.2 ⟨hchunk.escape _, hchunks⟩
    | hole _ _ h => exact List.forall_mem_cons.2 ⟨.nil, ih _ (by simp; omega) h rfl⟩

/-! ## Scanned templates -/

/-- The split of a scanned template has parts. They weave what stands between the backticks, and
they are the chunks and holes that the template has by the grammar. No chunk holds an unescaped
backtick or the opening of a hole. -/
theorem parts?_of_templateLength? {n : Nat} (h : Lexeme.templateLength? t = some n)
    (loc : Location) : ∃ (inside : Text) (chunks : List Text) (holes : List Hole),
      t.take n = CodePoint.scalar '\x60' :: inside ++ [CodePoint.scalar '\x60'] ∧
      parts? loc inside = some (chunks, holes) ∧
      inside = Text.weave chunks (holes.map Hole.source) ∧ chunks.length = holes.length + 1 ∧
      (∀ chunks' holes', Inside 0 inside chunks' holes' ↔
        chunks' = chunks ∧ holes' = holes.map Hole.source) ∧
      ∀ chunk ∈ chunks, IsChunk chunk := by
  obtain ⟨inside, chunks, sources, htake, hinside⟩ := inside_of_templateLength? h
  obtain ⟨holes, hparts, rfl⟩ := hinside.parts loc
  obtain ⟨hweave, hlength⟩ := (parts?_woven hparts).eq_weave
  refine ⟨inside, chunks, holes, htake, hparts, hweave, hlength, fun chunks' holes' => ?_,
    hinside.isChunk⟩
  constructor
  · exact hinside.unique
  · rintro ⟨rfl, rfl⟩
    exact hinside

/-- A hole that holds an object with a brace in its key and a template with a hole of its own. -/
theorem parts?_of_nested_template :
    Lexeme.templateLength?
      "\x60a\\\x60$\x7b\x7b'\x7d': \x60$\x7bb\x7d\x60\x7d\x7dc\x60;" = some 22 ∧
    ∃ (inside : Text) (chunks : List Text) (holes : List Hole),
      Text.ofString "\x60a\\\x60$\x7b\x7b'\x7d': \x60$\x7bb\x7d\x60\x7d\x7dc\x60" =
        CodePoint.scalar '\x60' :: inside ++ [CodePoint.scalar '\x60'] ∧
      parts? .start inside = some (chunks, holes) ∧
      inside = Text.weave chunks (holes.map Hole.source) ∧ chunks.length = holes.length + 1 ∧
      (∀ chunks' holes', Inside 0 inside chunks' holes' ↔
        chunks' = chunks ∧ holes' = holes.map Hole.source) ∧
      ∀ chunk ∈ chunks, IsChunk chunk :=
  have h : Lexeme.templateLength?
      "\x60a\\\x60$\x7b\x7b'\x7d': \x60$\x7bb\x7d\x60\x7d\x7dc\x60;" = some 22 := by decide
  ⟨h, parts?_of_templateLength? h .start⟩

theorem parts?_isSome {n : Nat} (h : Lexeme.templateLength? t = some n)
    (loc : Location) : (parts? loc (t.take n).tail.dropLast).isSome := by
  obtain ⟨inside, chunks, holes, htake, hinside⟩ := inside_of_templateLength? h
  obtain ⟨cut, hparts, -⟩ := hinside.parts loc
  rw [htake, List.cons_append, List.tail_cons, List.dropLast_concat, hparts]
  rfl

theorem Woven.hole_lt {chunks : List Text} {holes : List Hole} (h : Woven loc t chunks holes) :
    ∀ hole ∈ holes, hole.source.length < t.length := by
  induction h with
  | last => simp
  | hole _ ih =>
    refine List.forall_mem_cons.2 ⟨?_, fun hole hmem => ?_⟩
    · have hbrace : (Text.ofString "\x7d").length = 1 := rfl
      simp only [List.length_append, hbrace]
      omega
    · have := ih hole hmem
      simp only [List.length_append]
      omega

end Template

end InlineTemplates
