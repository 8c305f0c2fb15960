import InlineTemplates.Token.Lexeme

/-!
# The grammar of templates

The inside of a template is made of chunks and holes, and a hole of code with strings, braces and
templates in it. The scan takes exactly the texts of this grammar. What goes over a text code point
by code point and keeps what stands open goes over every text of the grammar.
-/

namespace InlineTemplates

namespace Template

open Lexeme (deepestLevel templateRest)

/-- What stands between the quotes of a string. -/
inductive StringBody (quote : CodePoint) : Text → Prop where
  | nil : StringBody quote []
  | plain {c : CodePoint} {t : Text} (hquote : c ≠ quote) (hslash : c ≠ '\\') (hline : c ≠ '\n')
      (h : StringBody quote t) : StringBody quote (c :: t)
  | escape {c : CodePoint} {t : Text} (h : StringBody quote t) :
      StringBody quote ('\\' :: c :: t)

mutual

/-- What stands in a hole, or in a brace of a hole, of the given level. -/
inductive Code : Nat → Text → Prop where
  | nil {level : Nat} : Code level []
  | plain {level : Nat} {c : CodePoint} {t : Text} (hclose : c ≠ '\x7d')
      (hopen : ¬(c = '"' ∨ c = '\'' ∨ c = '\x60' ∨ c = '\x7b')) (h : Code level t) :
      Code level (c :: t)
  | string {level : Nat} {quote : CodePoint} {body t : Text} (hlevel : level ≤ deepestLevel)
      (hquote : quote = '"' ∨ quote = '\'') (hbody : StringBody quote body) (h : Code level t) :
      Code level (quote :: body ++ quote :: t)
  | braces {level : Nat} {inner t : Text} (hlevel : level ≤ deepestLevel)
      (hinner : Code (level + 1) inner) (h : Code level t) :
      Code level (CodePoint.scalar '\x7b' :: inner ++ CodePoint.scalar '\x7d' :: t)
  | template {level : Nat} {inner t : Text} {chunks holes : List Text}
      (hlevel : level ≤ deepestLevel) (hinner : Inside (level + 1) inner chunks holes)
      (h : Code level t) :
      Code level (CodePoint.scalar '\x60' :: inner ++ CodePoint.scalar '\x60' :: t)

/-- What stands between the backticks of a template of the given level: chunks with holes between
them. -/
inductive Inside : Nat → Text → List Text → List Text → Prop where
  | nil {level : Nat} : Inside level [] [[]] []
  | plain {level : Nat} {c : CodePoint} {t chunk : Text} {chunks holes : List Text}
      (hslash : c ≠ '\\') (hclose : c ≠ '\x60')
      (hopen : ¬(c = '$' ∧ t.head? = some (CodePoint.scalar '\x7b')))
      (h : Inside level t (chunk :: chunks) holes) :
      Inside level (c :: t) ((c :: chunk) :: chunks) holes
  | escape {level : Nat} {c : CodePoint} {t chunk : Text} {chunks holes : List Text}
      (h : Inside level t (chunk :: chunks) holes) :
      Inside level ('\\' :: c :: t) (('\\' :: c :: chunk) :: chunks) holes
  | hole {level : Nat} {hole t : Text} {chunks holes : List Text} (hlevel : level ≤ deepestLevel)
      (hhole : Code level hole) (h : Inside level t chunks holes) :
      Inside level (CodePoint.scalar '$' :: CodePoint.scalar '\x7b' :: hole ++
        CodePoint.scalar '\x7d' :: t) ([] :: chunks) (hole :: holes)

end

/-- What closes the parts that stand open, innermost first, up to the end of the template. -/
inductive Closes : List Lexeme.Nest → Text → Prop where
  | nil : Closes [] []
  | template {level : Nat} {below : List Lexeme.Nest} {inside rest : Text}
      {chunks holes : List Text} (h : Inside level inside chunks holes)
      (hrest : Closes below rest) :
      Closes (.template level :: below) (inside ++ CodePoint.scalar '\x60' :: rest)
  | code {level : Nat} {below : List Lexeme.Nest} {code rest : Text} (h : Code level code)
      (hrest : Closes below rest) :
      Closes (.code level :: below) (code ++ CodePoint.scalar '\x7d' :: rest)
  | string {quote : CodePoint} {below : List Lexeme.Nest} {body rest : Text}
      (h : StringBody quote body) (hrest : Closes below rest) :
      Closes (.string quote :: below) (body ++ quote :: rest)

theorem Inside.exists_chunk {level : Nat} {t : Text} {chunks holes : List Text}
    (h : Inside level t chunks holes) : ∃ (chunk : Text) (behind : List Text),
      chunks = chunk :: behind ∧ (chunk = [] ∨ chunk.head? = t.head?) := by
  cases h with
  | nil => exact ⟨_, _, rfl, .inl rfl⟩
  | plain => exact ⟨_, _, rfl, .inr rfl⟩
  | escape => exact ⟨_, _, rfl, .inr rfl⟩
  | hole => exact ⟨_, _, rfl, .inl rfl⟩

namespace Closes

variable {below : List Lexeme.Nest} {level : Nat} {quote c : CodePoint} {rest : Text}

theorem string_plain (h : Closes (.string quote :: below) rest) (hquote : c ≠ quote)
    (hslash : c ≠ '\\') (hline : c ≠ '\n') : Closes (.string quote :: below) (c :: rest) := by
  cases h with
  | string h hrest => exact .string (.plain hquote hslash hline h) hrest

theorem string_escape (h : Closes (.string quote :: below) rest) :
    Closes (.string quote :: below) ('\\' :: c :: rest) := by
  cases h with
  | string h hrest => exact .string (.escape h) hrest

theorem template_plain (h : Closes (.template level :: below) rest) (hslash : c ≠ '\\')
    (hclose : c ≠ '\x60') (hopen : ¬(c = '$' ∧ rest.head? = some (CodePoint.scalar '\x7b'))) :
    Closes (.template level :: below) (c :: rest) := by
  cases h with
  | @template _ _ inside _ _ _ h hrest =>
    obtain ⟨chunk, chunks, rfl, -⟩ := h.exists_chunk
    refine .template (.plain hslash hclose ?_ h) hrest
    rintro ⟨rfl, hinside⟩
    exact hopen ⟨rfl, by rw [List.head?_append, hinside]; rfl⟩

theorem template_escape (h : Closes (.template level :: below) rest) :
    Closes (.template level :: below) ('\\' :: c :: rest) := by
  cases h with
  | template h hrest =>
    obtain ⟨chunk, chunks, rfl, -⟩ := h.exists_chunk
    exact .template (.escape h) hrest

theorem template_open (h : Closes (.code level :: .template level :: below) rest)
    (hlevel : level ≤ deepestLevel) :
    Closes (.template level :: below) ('$' :: '\x7b' :: rest) := by
  cases h with
  | code hcode hrest =>
    cases hrest with
    | template h hrest => simpa using Closes.template (.hole hlevel hcode h) hrest

theorem code_plain (h : Closes (.code level :: below) rest) (hclose : c ≠ '\x7d')
    (hopen : ¬(c = '"' ∨ c = '\'' ∨ c = '\x60' ∨ c = '\x7b')) :
    Closes (.code level :: below) (c :: rest) := by
  cases h with
  | code h hrest => exact .code (.plain hclose hopen h) hrest

theorem code_string (h : Closes (.string quote :: .code level :: below) rest)
    (hlevel : level ≤ deepestLevel) (hquote : quote = '"' ∨ quote = '\'') :
    Closes (.code level :: below) (quote :: rest) := by
  cases h with
  | string hbody hrest =>
    cases hrest with
    | code h hrest => simpa using Closes.code (.string hlevel hquote hbody h) hrest

theorem code_braces (h : Closes (.code (level + 1) :: .code level :: below) rest)
    (hlevel : level ≤ deepestLevel) : Closes (.code level :: below) ('\x7b' :: rest) := by
  cases h with
  | code hinner hrest =>
    cases hrest with
    | code h hrest => simpa using Closes.code (.braces hlevel hinner h) hrest

theorem code_template (h : Closes (.template (level + 1) :: .code level :: below) rest)
    (hlevel : level ≤ deepestLevel) : Closes (.code level :: below) ('\x60' :: rest) := by
  cases h with
  | template hinner hrest =>
    cases hrest with
    | code h hrest => simpa using Closes.code (.template hlevel hinner h) hrest

end Closes

/-- What the scan takes; an escaped code point comes first. -/
def Takes (nest : List Lexeme.Nest) : Bool → Text → Prop
  | false, t => Closes nest t
  | true, t => ∃ c rest, t = c :: rest ∧ Closes nest rest

/-- Wherever the scan goes on behind `c`, it takes what closes the parts that stand open there. -/
def TakesBehind (c : CodePoint) (t : Text) (n : Nat) : Prop :=
  ∀ {nest : List Lexeme.Nest} {escaped : Bool}, (templateRest nest escaped t).map (1 + ·) = some n →
    ∃ rest : Text, (c :: t).take n = c :: rest ∧ Takes nest escaped rest ∧
      (rest = [] ∨ rest.head? = t.head?)

section Step

variable {c quote : CodePoint} {t : Text} {n level : Nat} {below : List Lexeme.Nest}
  (hcons : TakesBehind c t n)

include hcons

theorem takes_string (h : templateRest (.string quote :: below) false (c :: t) = some n) :
    Closes (.string quote :: below) ((c :: t).take n) := by
  simp only [templateRest, Bool.false_eq_true, if_false] at h
  split at h
  · rename_i hc
    obtain ⟨rest, heq, ⟨d, rest, rfl, hrest⟩, -⟩ := hcons h
    rw [heq, hc]
    exact hrest.string_escape
  rename_i hslash
  split at h
  · rename_i hc
    obtain ⟨rest, heq, hrest, -⟩ := hcons h
    rw [heq, hc]
    exact .string .nil hrest
  rename_i hquote
  split at h
  · cases h
  · rename_i hline
    obtain ⟨rest, heq, hrest, -⟩ := hcons h
    rw [heq]
    exact hrest.string_plain hquote hslash hline

theorem takes_template (h : templateRest (.template level :: below) false (c :: t) = some n) :
    Closes (.template level :: below) ((c :: t).take n) := by
  simp only [templateRest, Bool.false_eq_true, if_false] at h
  split at h
  · rename_i hc
    obtain ⟨rest, heq, ⟨d, rest, rfl, hrest⟩, -⟩ := hcons h
    rw [heq, hc]
    exact hrest.template_escape
  rename_i hslash
  split at h
  · rename_i hc
    split at h
    · rename_i hbelow
      obtain rfl := List.isEmpty_iff.1 hbelow
      obtain rfl := Option.some.inj h
      rw [hc]
      exact .template .nil .nil
    · obtain ⟨rest, heq, hrest, -⟩ := hcons h
      rw [heq, hc]
      exact .template .nil hrest
  rename_i htick
  split at h
  · rename_i hopen
    split at h
    · rename_i hlevel
      obtain ⟨rest, heq, ⟨d, rest, rfl, hrest⟩, hhead⟩ := hcons h
      have hd : some d = some (CodePoint.scalar '\x7b') :=
        (hhead.resolve_left (List.cons_ne_nil d rest)).trans hopen.2
      rw [heq, hopen.1, Option.some.inj hd]
      exact hrest.template_open hlevel
    · cases h
  · rename_i hopen
    obtain ⟨rest, heq, hrest, hhead⟩ := hcons h
    rw [heq]
    refine hrest.template_plain hslash htick ?_
    rintro ⟨rfl, hrest⟩
    rcases hhead with rfl | hhead
    · cases hrest
    · exact hopen ⟨rfl, hhead ▸ hrest⟩

theorem takes_code (h : templateRest (.code level :: below) false (c :: t) = some n) :
    Closes (.code level :: below) ((c :: t).take n) := by
  simp only [templateRest, Bool.false_eq_true, if_false] at h
  split at h
  · rename_i hc
    obtain ⟨rest, heq, hrest, -⟩ := hcons h
    rw [heq, hc]
    exact .code .nil hrest
  rename_i hclose
  split at h
  · rename_i hopen
    split at h
    · rename_i hlevel
      obtain ⟨rest, heq, hrest, -⟩ := hcons h
      rw [heq]
      rcases hopen with rfl | rfl | rfl | rfl
      · exact Closes.code_string hrest hlevel (.inl rfl)
      · exact Closes.code_string hrest hlevel (.inr rfl)
      · exact Closes.code_template hrest hlevel
      · exact Closes.code_braces hrest hlevel
    · cases h
  · rename_i hopen
    obtain ⟨rest, heq, hrest, -⟩ := hcons h
    rw [heq]
    exact hrest.code_plain hclose hopen

end Step

theorem takes_of_templateRest {nest : List Lexeme.Nest} {escaped : Bool} {t : Text} {n : Nat}
    (h : templateRest nest escaped t = some n) : Takes nest escaped (t.take n) := by
  induction t generalizing nest escaped n with
  | nil => cases h
  | cons c t ih =>
    have hcons : TakesBehind c t n := by
      intro nest escaped h
      obtain ⟨m, hm, rfl⟩ := Option.map_eq_some_iff.1 h
      refine ⟨t.take m, by rw [Nat.add_comm, List.take_succ_cons], ih hm, ?_⟩
      cases m with
      | zero => exact .inl rfl
      | succ m => exact .inr (by cases t <;> rfl)
    cases escaped with
    | true =>
      obtain ⟨rest, heq, hrest, -⟩ := hcons h
      exact ⟨c, rest, heq, hrest⟩
    | false =>
      match nest, h with
      | [], h => cases h
      | .string quote :: below, h => exact takes_string hcons h
      | .template level :: below, h => exact takes_template hcons h
      | .code level :: below, h => exact takes_code hcons h

/-- The text of a scanned template is a template of the grammar. -/
theorem inside_of_templateLength? {t : Text} {n : Nat} (h : Lexeme.templateLength? t = some n) :
    ∃ (inside : Text) (chunks holes : List Text),
      t.take n = CodePoint.scalar '\x60' :: inside ++ [CodePoint.scalar '\x60'] ∧
        Inside 0 inside chunks holes := by
  cases t with
  | nil => cases h
  | cons c t =>
    rw [Lexeme.templateLength?] at h
    split at h
    · rename_i hc
      obtain ⟨m, hm, rfl⟩ := Option.map_eq_some_iff.1 h
      have htakes : Closes [.template 0] (t.take m) := takes_of_templateRest hm
      rw [Nat.add_comm, List.take_succ_cons, hc]
      generalize t.take m = rest at htakes
      cases htakes with
      | template h hrest =>
        cases hrest
        exact ⟨_, _, _, rfl, h⟩
    · cases h

/-! ## Going over the grammar -/

/-- A way to go over the text of a template that keeps in `σ` what stands open. `Over s t u s'` says
that it goes over `t` in front of `u` and comes from `s` to `s'`. -/
structure Follower (σ : Type) where
  Over : σ → Text → Text → σ → Prop
  /-- In `s` stands code of the level. -/
  IsCode : Nat → σ → Prop
  string : CodePoint → σ → σ
  code : Nat → σ → σ
  template : Nat → σ → σ
  isCode_code (level : Nat) (s : σ) : IsCode level (code level s)
  nil (s : σ) (u : Text) : Over s [] u s
  append {s s' s'' : σ} {t t' u : Text} : Over s t (t' ++ u) s' → Over s' t' u s'' →
    Over s (t ++ t') u s''
  string_plain {quote c : CodePoint} (s : σ) (u : Text) : c ≠ quote → c ≠ '\\' → c ≠ '\n' →
    Over (string quote s) [c] u (string quote s)
  string_escape (quote c : CodePoint) (s : σ) (u : Text) :
    Over (string quote s) ['\\', c] u (string quote s)
  string_close {quote : CodePoint} (s : σ) (u : Text) : quote ≠ '\\' →
    Over (string quote s) [quote] u s
  code_plain {level : Nat} {s : σ} {c : CodePoint} (u : Text) : IsCode level s → c ≠ '\x7d' →
    ¬(c = '"' ∨ c = '\'' ∨ c = '\x60' ∨ c = '\x7b') → Over s [c] u s
  code_string {level : Nat} {s : σ} {quote : CodePoint} (u : Text) : IsCode level s →
    level ≤ deepestLevel → quote = '"' ∨ quote = '\'' → Over s [quote] u (string quote s)
  code_braces {level : Nat} {s : σ} (u : Text) : IsCode level s → level ≤ deepestLevel →
    Over s [CodePoint.scalar '\x7b'] u (code (level + 1) s)
  code_template {level : Nat} {s : σ} (u : Text) : IsCode level s → level ≤ deepestLevel →
    Over s [CodePoint.scalar '\x60'] u (template (level + 1) s)
  code_close (level : Nat) (s : σ) (u : Text) : Over (code level s) [CodePoint.scalar '\x7d'] u s
  template_plain {c : CodePoint} {u : Text} (level : Nat) (s : σ) : c ≠ '\\' → c ≠ '\x60' →
    ¬(c = '$' ∧ u.head? = some (CodePoint.scalar '\x7b')) →
    Over (template level s) [c] u (template level s)
  template_escape (level : Nat) (s : σ) (c : CodePoint) (u : Text) :
    Over (template level s) ['\\', c] u (template level s)
  template_hole {level : Nat} (s : σ) (u : Text) : level ≤ deepestLevel →
    Over (template level s) [CodePoint.scalar '$', CodePoint.scalar '\x7b'] u
      (code level (template level s))
  template_close {level : Nat} {s : σ} (level' : Nat) (u : Text) : IsCode level s →
    Over (template level' s) [CodePoint.scalar '\x60'] u s

section Follower

variable {σ : Type} (f : Follower σ)

theorem StringBody.over {quote : CodePoint} {body : Text} (h : StringBody quote body) (s : σ)
    (u : Text) : f.Over (f.string quote s) body u (f.string quote s) := by
  induction h with
  | nil => exact f.nil _ u
  | plain hquote hslash hline _ ih => exact f.append (f.string_plain s _ hquote hslash hline) ih
  | escape _ ih => exact f.append (f.string_escape quote _ s _) ih

mutual

theorem Code.over {level : Nat} {t : Text} (h : Code level t) {s : σ} (hs : f.IsCode level s)
    (u : Text) : f.Over s t u s := by
  match h with
  | .nil => exact f.nil s u
  | .plain hclose hopen h => exact f.append (f.code_plain _ hs hclose hopen) (h.over hs u)
  | @Code.string _ quote _ _ hlevel hquote hbody h =>
    have hslash : quote ≠ '\\' := by rcases hquote with rfl | rfl <;> decide
    exact f.append (f.append (f.code_string _ hs hlevel hquote) (hbody.over f s _))
      (f.append (f.string_close s _ hslash) (h.over hs u))
  | .braces hlevel hinner h =>
    exact f.append (f.append (f.code_braces _ hs hlevel) (hinner.over (f.isCode_code _ s) _))
      (f.append (f.code_close _ s _) (h.over hs u))
  | .template hlevel hinner h =>
    exact f.append (f.append (f.code_template _ hs hlevel) (hinner.over s _))
      (f.append (f.template_close _ _ hs) (h.over hs u))

theorem Inside.over {level : Nat} {t : Text} {chunks holes : List Text}
    (h : Inside level t chunks holes) (s : σ) (u : Text) :
    f.Over (f.template level s) t (CodePoint.scalar '\x60' :: u) (f.template level s) := by
  match h with
  | .nil => exact f.nil _ _
  | .plain (t := t) hslash hclose hopen h =>
    refine f.append (t := [_]) (f.template_plain level s hslash hclose ?_) (h.over s u)
    rintro ⟨rfl, hhead⟩
    cases t with
    | nil => cases hhead
    | cons d t => exact hopen ⟨rfl, hhead⟩
  | .escape h => exact f.append (f.template_escape level s _ _) (h.over s u)
  | .hole hlevel hhole h =>
    exact f.append (f.append (f.template_hole s _ hlevel) (hhole.over (f.isCode_code _ _) _))
      (f.append (f.code_close _ _ _) (h.over s u))

end

end Follower

/-! ## The scan takes every template of the grammar -/

/-- The scan goes over `t` in front of `u`. -/
def RunsOver (nest : List Lexeme.Nest) (t u : Text) (nest' : List Lexeme.Nest) : Prop :=
  templateRest nest false (t ++ u) = (templateRest nest' false u).map (t.length + ·)

theorem RunsOver.append {nest nest' nest'' : List Lexeme.Nest} {t t' u : Text}
    (h : RunsOver nest t (t' ++ u) nest') (h' : RunsOver nest' t' u nest'') :
    RunsOver nest (t ++ t') u nest'' := by
  unfold RunsOver at h h' ⊢
  rw [List.append_assoc, h, h', Option.map_map, List.length_append]
  congr 1
  funext n
  exact (Nat.add_assoc _ _ _).symm

/-- The scan keeps what stands open as a stack. -/
def scanning : Follower (List Lexeme.Nest) where
  Over := RunsOver
  IsCode level nest := ∃ below, nest = .code level :: below
  string quote below := .string quote :: below
  code level below := .code level :: below
  template level below := .template level :: below
  isCode_code _ below := ⟨below, rfl⟩
  nil _ _ := by simp [RunsOver]
  append := RunsOver.append
  string_plain _ _ hquote hslash hline := by simp [RunsOver, templateRest, hquote, hslash, hline]
  string_escape _ _ _ _ := by simp [RunsOver, templateRest, Function.comp_def, ← Nat.add_assoc]
  string_close _ _ hslash := by simp [RunsOver, templateRest, hslash]
  code_plain := by
    rintro _ _ _ _ ⟨below, rfl⟩ hclose hopen
    simp [RunsOver, templateRest, hclose, hopen]
  code_string := by
    rintro _ _ _ _ ⟨below, rfl⟩ hlevel (rfl | rfl) <;> simp [RunsOver, templateRest, hlevel]
  code_braces := by
    rintro _ _ _ ⟨below, rfl⟩ hlevel
    simp [RunsOver, templateRest, hlevel]
  code_template := by
    rintro _ _ _ ⟨below, rfl⟩ hlevel
    simp [RunsOver, templateRest, hlevel]
  code_close _ _ _ := by simp [RunsOver, templateRest]
  template_plain {c u} _ _ hslash hclose hopen := by
    have hopen' : ¬(c = '$' ∧ u.head? = some '\x7b') := hopen
    simp only [RunsOver, templateRest, List.singleton_append, hslash, hclose, hopen', if_false,
      Bool.false_eq_true, List.length_singleton]
  template_escape _ _ _ _ := by simp [RunsOver, templateRest, Function.comp_def, ← Nat.add_assoc]
  template_hole _ _ hlevel := by
    simp [RunsOver, templateRest, hlevel, Function.comp_def, ← Nat.add_assoc]
  template_close := by
    rintro _ _ _ _ ⟨below, rfl⟩
    simp [RunsOver, templateRest]

theorem templateRest_bounds {nest : List Lexeme.Nest} {escaped : Bool} {t : Text} {n : Nat}
    (h : templateRest nest escaped t = some n) : 0 < n ∧ n ≤ t.length := by
  induction t generalizing nest escaped n with
  | nil => cases h
  | cons c t ih =>
    have hcons {below : List Lexeme.Nest} {e : Bool}
        (h : (templateRest below e t).map (1 + ·) = some n) : 0 < n ∧ n ≤ (c :: t).length := by
      obtain ⟨m, hm, rfl⟩ := Option.map_eq_some_iff.1 h
      have := ih hm
      simp only [List.length_cons]
      omega
    unfold templateRest at h
    repeat' split at h
    all_goals first | exact hcons h | cases h
    exact ⟨Nat.one_pos, by simp⟩

theorem templateLength?_le {t : Text} {n : Nat} (h : Lexeme.templateLength? t = some n) :
    n ≤ t.length := by
  cases t with
  | nil => cases h
  | cons c t =>
    rw [Lexeme.templateLength?] at h
    split at h
    · obtain ⟨m, hm, rfl⟩ := Option.map_eq_some_iff.1 h
      have := (templateRest_bounds hm).2
      simp only [List.length_cons]
      omega
    · cases h

/-- The scan takes the templates of the grammar, each up to its closing backtick. -/
theorem templateLength?_eq_some_iff {t : Text} {n : Nat} :
    Lexeme.templateLength? t = some n ↔ ∃ (inside : Text) (chunks holes : List Text),
      t.take n = CodePoint.scalar '\x60' :: inside ++ [CodePoint.scalar '\x60'] ∧ n ≤ t.length ∧
        Inside 0 inside chunks holes := by
  constructor
  · intro h
    obtain ⟨inside, chunks, holes, htake, hinside⟩ := inside_of_templateLength? h
    exact ⟨inside, chunks, holes, htake, templateLength?_le h, hinside⟩
  · rintro ⟨inside, chunks, holes, htake, hle, h⟩
    have hn : n = inside.length + 2 := by
      have hlength := congrArg List.length htake
      simp only [List.length_take, List.length_append, List.length_cons, List.length_nil] at hlength
      omega
    have ht : t = CodePoint.scalar '\x60' :: (inside ++ CodePoint.scalar '\x60' :: t.drop n) := by
      rw [← List.take_append_drop n t, htake, List.drop_append_of_le_length (by simp [hn])]
      simp [hn]
    have hruns : RunsOver [.template 0] inside (CodePoint.scalar '\x60' :: t.drop n)
        [.template 0] := h.over scanning [] (t.drop n)
    have hclose : templateRest [.template 0] false (CodePoint.scalar '\x60' :: t.drop n) = some 1 :=
      rfl
    rw [ht, Lexeme.templateLength?, if_pos rfl, hruns, hclose, hn]
    exact congrArg some (Nat.add_comm 1 _)

end Template

end InlineTemplates
