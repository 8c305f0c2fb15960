import InlineTemplates.Grammar.Source
import InlineTemplates.Node.Print
import InlineTemplates.Proofs.Scanning
import InlineTemplates.Template.Compiler
import Mathlib.Data.List.TakeWhile

/-!
# The texts of comments

A block comment goes up to the first `*/`, and a comment of a line up to the line break. So a text
in which no block comment ends is one comment between its delimiters, whatever stands behind it, and
escaping leaves no end of a comment in a text.
-/

namespace InlineTemplates

namespace Lexeme

open Text (escapeCommentEnd)

variable {t u body rest : Text} {c : CodePoint} {n : Nat}

/-! ## Ends of block comments -/

theorem blockCommentRest_cons_eq_none (h : blockCommentRest (c :: rest) = none) :
    ¬(c = '*' ∧ rest.head? = some '/') ∧ blockCommentRest rest = none := by
  have hc : ¬(c = '*' ∧ rest.head? = some '/') := by
    rintro ⟨rfl, hhead⟩
    obtain ⟨rest', rfl⟩ := List.head?_eq_some_iff.1 hhead
    cases h
  rw [blockCommentRest_cons hc, Option.map_eq_none_iff] at h
  exact ⟨hc, h⟩

/-- A comment whose body holds no end goes up to the end behind its body. -/
theorem blockCommentRest_body (h : blockCommentRest body = none) (rest : Text) :
    blockCommentRest (body ++ ("*/" ++ rest)) = some (body.length + 2) := by
  induction body with
  | nil => rfl
  | cons c body ih =>
    obtain ⟨hc, hbody⟩ := blockCommentRest_cons_eq_none h
    have hne : ¬(c = '*' ∧ (body ++ ("*/" ++ rest)).head? = some '/') := by
      rintro ⟨rfl, hhead⟩
      -- behind a star the body goes on as it did, or the end starts with another star
      cases body with
      | nil => cases hhead
      | cons d body => exact hc ⟨rfl, hhead⟩
    rw [List.cons_append, blockCommentRest_cons hne, ih hbody, Option.map_some, List.length_cons]
    congr 1
    omega

/-- Two texts that hold no end do not make one where they meet, unless the second starts with a
slash. -/
theorem blockCommentRest_append (ht : blockCommentRest t = none) (hu : blockCommentRest u = none)
    (hhead : u.head? ≠ some '/') : blockCommentRest (t ++ u) = none := by
  induction t with
  | nil => exact hu
  | cons c t ih =>
    obtain ⟨hc, ht⟩ := blockCommentRest_cons_eq_none ht
    rw [List.cons_append, blockCommentRest_cons, ih ht]
    · rfl
    rintro ⟨rfl, h⟩
    cases t with
    | nil => exact hhead h
    | cons d t => exact hc ⟨rfl, h⟩

theorem head?_escapeCommentEnd (t : Text) : (escapeCommentEnd t).head? = t.head? := by
  fun_cases escapeCommentEnd t <;> rfl

/-- An escaped text holds no end of a comment. -/
theorem blockCommentRest_escapeCommentEnd (t : Text) :
    blockCommentRest (escapeCommentEnd t) = none := by
  fun_induction escapeCommentEnd t with
  | case1 rest ih =>
    rw [blockCommentRest_cons (by rintro ⟨-, ⟨⟩⟩), blockCommentRest_cons (by rintro ⟨⟨⟩, -⟩),
      blockCommentRest_cons (by rintro ⟨⟨⟩, -⟩), ih]
    rfl
  | case2 c rest hrest ih =>
    rw [blockCommentRest_cons, ih]
    · rfl
    rintro ⟨rfl, hhead⟩
    rw [head?_escapeCommentEnd] at hhead
    obtain ⟨rest', rfl⟩ := List.head?_eq_some_iff.1 hhead
    exact hrest rest' rfl rfl
  | case3 => rfl

end Lexeme

/-! ## Comments -/

namespace Text

/-- A comment between its delimiters. -/
def IsBlockComment (t : Text) : Prop :=
  ∃ body, Lexeme.blockCommentRest body = none ∧ t = "/*" ++ (body ++ "*/")

/-- A comment up to the end of the line, the line break not included. -/
def IsLineComment (t : Text) : Prop :=
  ∃ body : Text, CodePoint.scalar '\n' ∉ body ∧ t = "//" ++ body

def IsComment (t : Text) : Prop := t.IsBlockComment ∨ t.IsLineComment

theorem IsComment.inlineComment {t : Text} (h : t.IsComment) :
    (Print.inlineComment t).IsBlockComment := by
  rcases h with ⟨body, hbody, rfl⟩ | ⟨body, -, rfl⟩
  · exact ⟨body, hbody, rfl⟩
  · exact ⟨body.escapeCommentEnd, Lexeme.blockCommentRest_escapeCommentEnd body, rfl⟩

end Text

theorem Compiler.isBlockComment_templateComment (template : Text) :
    (templateComment template).IsBlockComment := by
  refine ⟨"\n  " ++ (template.escapeCommentEnd ++ "\n"), ?_, ?_⟩
  rotate_left
  · rw [templateComment, List.append_assoc]
    exact congrArg (Text.ofString "/*\n  " ++ ·) (List.append_assoc _ (Text.ofString "\n") _).symm
  have hbehind : Lexeme.blockCommentRest (template.escapeCommentEnd ++ "\n") = none :=
    Lexeme.blockCommentRest_append (Lexeme.blockCommentRest_escapeCommentEnd template) rfl nofun
  change Lexeme.blockCommentRest
    (.scalar '\n' :: .scalar ' ' :: .scalar ' ' :: (template.escapeCommentEnd ++ "\n")) = none
  rw [Lexeme.blockCommentRest_cons (by rintro ⟨⟨⟩, -⟩),
    Lexeme.blockCommentRest_cons (by rintro ⟨⟨⟩, -⟩),
    Lexeme.blockCommentRest_cons (by rintro ⟨⟨⟩, -⟩), hbehind]
  rfl

/-! ## Lexemes -/

namespace Lexeme

variable {t rest : Text} {n : Nat}

theorem next?_blockComment (h : t.IsBlockComment) (rest : Text) :
    next? (t ++ rest) = some (.comment, t.length) := by
  obtain ⟨body, hbody, rfl⟩ := h
  have hlength : blockCommentLength? ("/*" ++ (body ++ "*/") ++ rest) =
      some ("/*" ++ (body ++ "*/") : Text).length := by
    change (blockCommentRest (body ++ "*/" ++ rest)).map (2 + ·) = _
    rw [List.append_assoc, blockCommentRest_body hbody]
    simp [Text.ofString]
    omega
  have hfirst : next? ("/*" ++ (body ++ "*/") ++ rest) =
      ((blockCommentLength? ("/*" ++ (body ++ "*/") ++ rest)).map (Class.comment, ·)
        <|> _) := rfl
  rw [hfirst, hlength]
  rfl

theorem next?_lineComment (h : t.IsLineComment) (hrest : rest.head? = some '\n') :
    next? (t ++ rest) = some (.comment, t.length) := by
  obtain ⟨body, hbody, rfl⟩ := h
  obtain ⟨rest, rfl⟩ := List.head?_eq_some_iff.1 hrest
  have hall : ∀ c ∈ body, (c != CodePoint.scalar '\n') = true := by
    intro c hc
    rw [bne_iff_ne]
    rintro rfl
    exact hbody hc
  have hlength : lineCommentLength? ("//" ++ body ++ CodePoint.scalar '\n' :: rest) =
      some ("//" ++ body : Text).length := by
    change some (2 + ((body ++ CodePoint.scalar '\n' :: rest).takeWhile _).length) = _
    rw [List.takeWhile_append_of_pos hall, List.takeWhile_cons_of_neg (by decide),
      List.append_nil]
    simp [Text.ofString]
    omega
  let t : Text := "//" ++ body ++ CodePoint.scalar '\n' :: rest
  have hfirst : next? t = ((lineCommentLength? t).map (Class.comment, ·)
      <|> (blankLength? t).map (Class.blank, ·)
      <|> (optionalChainLength? t).map (Class.token .optionalChain, ·)
      <|> (sign? t).map (fun s => (Class.token s.1, s.2))) := rfl
  exact hfirst.trans (by rw [hlength]; rfl)

theorem isBlockComment_of_length? (h : blockCommentLength? t = some n) :
    Text.IsBlockComment (t.take n) := by
  unfold blockCommentLength? at h
  split at h
  · rename_i rest
    obtain ⟨m, hm, rfl⟩ := Option.map_eq_some_iff.1 h
    obtain ⟨body, hbody, htake⟩ := exists_body_of_blockCommentRest hm
    refine ⟨body, hbody, ?_⟩
    rw [Nat.add_comm, List.take_succ_cons, List.take_succ_cons, htake]
    rfl
  · cases h

theorem isLineComment_of_length? (h : lineCommentLength? t = some n) :
    Text.IsLineComment (t.take n) := by
  unfold lineCommentLength? at h
  split at h
  · rename_i rest
    cases h
    refine ⟨rest.takeWhile fun c => c != .scalar '\n', fun hmem => ?_, ?_⟩
    · simpa using List.mem_takeWhile_imp hmem
    · have hprefix := List.prefix_iff_eq_take.1
        (List.takeWhile_prefix (l := rest) fun c => c != .scalar '\n')
      rw [Nat.add_comm, List.take_succ_cons, List.take_succ_cons, ← hprefix]
      rfl
  · cases h

theorem isComment_of_next? (h : next? t = some (.comment, n)) : Text.IsComment (t.take n) := by
  have hall : ∀ c, next? t = some c → c.1 = .comment → Text.IsComment (t.take c.2) := by
    unfold next?
    refine all_orElse ?_ <| all_orElse ?_ <| all_orElse ?_ <| all_orElse ?_ <| all_orElse ?_ <|
      all_orElse ?block <| all_orElse ?_ <| all_orElse ?line <| all_orElse ?_ <|
      all_orElse ?_ ?_
    all_goals
      intro c hc hcomment
      obtain ⟨m, hm, rfl⟩ := Option.map_eq_some_iff.1 hc
    case block => exact .inl (isBlockComment_of_length? hm)
    case line => exact .inr (isLineComment_of_length? hm)
    all_goals cases hcomment
  exact hall _ h rfl

end Lexeme

/-! ## Comments of a source -/

namespace Scan

theorem scanFrom_isComment {fuel : Nat} {loc : Location} {t : Text} {s : Scan}
    (h : scanFrom fuel loc t = .ok s) : ∀ c ∈ s.comments, c.text.IsComment := by
  induction fuel generalizing loc t s with
  | zero =>
    cases t with
    | nil =>
      obtain rfl := Except.ok.inj h
      simp
    | cons c rest => cases h
  | succ fuel ih =>
    cases t with
    | nil =>
      obtain rfl := Except.ok.inj h
      simp
    | cons c rest =>
      rw [scanFrom] at h
      split at h
      · cases h
      · next cls n hnext =>
        obtain ⟨below, hbelow, rfl⟩ := exists_ok_of_map h
        have hrest := ih hbelow
        cases cls with
        | token => exact hrest
        | comment => exact List.forall_mem_cons.2 ⟨Lexeme.isComment_of_next? hnext, hrest⟩
        | blank => exact hrest

theorem scan_isComment {source : Text} {s : Scan} (h : scan source = .ok s) :
    ∀ c ∈ s.comments, c.text.IsComment :=
  scanFrom_isComment h

end Scan

end InlineTemplates
