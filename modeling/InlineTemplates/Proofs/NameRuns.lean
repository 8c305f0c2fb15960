import InlineTemplates.Proofs.Freshness
import InlineTemplates.Proofs.Renaming

/-!
# Names over a run

The names of a program are asked for fresh names, get names of the module added, and bindings are
renamed, in any order and any number of times. A name that is handed out on the way is an
identifier that neither the program nor any request in front of it has.
-/

namespace InlineTemplates

/-! ## Identifiers -/

namespace CodePoint

theorem isAsciiLower_iff {c : CodePoint} : c.isAsciiLower ↔ 97 ≤ c.val ∧ c.val ≤ 122 := by
  simp [isAsciiLower]

theorem isAsciiUpper_iff {c : CodePoint} : c.isAsciiUpper ↔ 65 ≤ c.val ∧ c.val ≤ 90 := by
  simp [isAsciiUpper]

theorem isNamePart_of_isAsciiUpper {c : CodePoint} (h : c.isAsciiUpper) : c.isNamePart := by
  simp [isNamePart, isNameStart, isAsciiLetter, h]

theorem isNamePart_of_isAsciiDigit {c : CodePoint} (h : c.isAsciiDigit) : c.isNamePart := by
  simp [isNamePart, h]

theorem isNamePart_toAsciiUpper {c : CodePoint} (h : c.isNamePart) : c.toAsciiUpper.isNamePart := by
  cases c with
  | surrogate u => exact h
  | scalar ch =>
    unfold toAsciiUpper
    dsimp only
    split
    · next hlower =>
      rw [isAsciiLower_iff, val] at hlower
      have hval : (scalar (Char.ofNat (ch.toNat - 32))).val = ch.toNat - 32 := by
        rw [val, Char.ofNat, dif_pos (.inl (by omega))]
        rfl
      -- the upper case of `a` to `z` is `A` to `Z`
      apply isNamePart_of_isAsciiUpper
      rw [isAsciiUpper_iff, hval]
      omega
    · exact h

end CodePoint

theorem Text.ofNat_isNamePart (n : Nat) : ∀ c ∈ Text.ofNat n, c.isNamePart :=
  fun c hc => CodePoint.isNamePart_of_isAsciiDigit (Text.ofNat_isAsciiDigit n c hc)

namespace Identifier

theorem camelCased_isNamePart {atBreak : Bool} {t : Text} :
    ∀ c ∈ camelCased atBreak t, c.isNamePart := by
  fun_induction camelCased atBreak t with
  | case1 => simp
  | case2 atBreak c rest hc ih =>
    rw [List.forall_mem_cons]
    refine ⟨?_, ih⟩
    split
    · exact CodePoint.isNamePart_toAsciiUpper hc
    · exact hc
  | case3 atBreak c rest hc ih => exact ih

theorem ofText_isNamePart (t : Text) : ∀ c ∈ ofText t, c.isNamePart := by
  unfold ofText
  extract_lets words name
  split
  · exact camelCased_isNamePart
  · rw [List.forall_mem_cons]
    exact ⟨by decide, camelCased_isNamePart⟩

theorem mem_of_mem_withoutNumber {t : Text} {c : CodePoint} (h : c ∈ withoutNumber t) : c ∈ t := by
  rw [withoutNumber, List.mem_reverse] at h
  exact List.mem_reverse.mp ((List.dropWhile_sublist _).mem h)

end Identifier

namespace Scope

/-! ## Fresh names as identifiers -/

/-- What the candidates for a name that is built from `text` start with, behind the underscore. -/
def baseOf (text : Text) : Text :=
  Identifier.withoutNumber ((Identifier.ofText text).dropWhile fun (c : CodePoint) => c == '_')

theorem baseOf_isNamePart (text : Text) : ∀ c ∈ baseOf text, c.isNamePart := fun c hc =>
  Identifier.ofText_isNamePart text c
    ((List.dropWhile_sublist _).mem (Identifier.mem_of_mem_withoutNumber hc))

theorem hasForm_candidate {base : Text} (h : ∀ c ∈ base, c.isNamePart) (i : Nat) :
    Identifier.hasForm (candidate base i) := by
  have hparts : ∀ c ∈ base ++ Text.when (i != 0) (Text.ofNat (i + 1)), c.isNamePart := by
    rw [List.forall_mem_append]
    refine ⟨h, ?_⟩
    unfold Text.when
    split
    · exact Text.ofNat_isNamePart _
    · exact fun c hc => absurd hc List.not_mem_nil
  change (CodePoint.isNameStart '_' && (base ++ _).all CodePoint.isNamePart) = true
  rw [Bool.and_eq_true, List.all_eq_true]
  exact ⟨by decide, hparts⟩

theorem head?_candidate (base : Text) (i : Nat) : (candidate base i).head? = some '_' := rfl

/-- The first free candidate is found by counting up: all in front of it are taken. -/
theorem firstFree_eq_candidate (base : Text) (taken : List Text) :
    ∃ i, firstFree base taken = candidate base i ∧ ∀ j < i, candidate base j ∈ taken := by
  unfold firstFree
  rw [List.find?_map]
  cases hfound : (List.range (taken.length + 1)).find?
      ((fun name => !taken.contains name) ∘ candidate base) with
  | none =>
    obtain ⟨name, hname, hfree⟩ := exists_free base taken
    obtain ⟨i, hi, rfl⟩ := List.mem_map.mp hname
    have hused := List.find?_eq_none.mp hfound i hi
    simp [hfree] at hused
  | some i =>
    refine ⟨i, rfl, fun j hj => ?_⟩
    simpa using (List.find?_range_eq_some.mp hfound).2.2 j hj

/-! ## Requests -/

/-- What the names of a program are asked for. -/
inductive Request where
  /-- A binding of the module is added. -/
  | register (name : Text)
  /-- A fresh name that is built from a text. -/
  | generate (text : Text)
  /-- A fresh name that says what a node refers to. -/
  | generateFor (n : Option Node) (otherwise : Text)
  /-- A binding of the module is renamed. -/
  | rename (old new : Text)

structure Session where
  program : Node
  scope : Scope

namespace Session

def ofProgram (program : Node) : Session := ⟨program, Scope.ofProgram program⟩

/-- The name that a request brings in, and what is there behind it. -/
def serve (s : Session) : Request → Text × Session
  | .register name => (name, { s with scope := s.scope.register name })
  | .generate text => ((s.scope.generate text).1, { s with scope := (s.scope.generate text).2 })
  | .generateFor n otherwise =>
    ((s.scope.generateFor n otherwise).1, { s with scope := (s.scope.generateFor n otherwise).2 })
  | .rename old new => (new, ⟨renameProgram old new s.program, s.scope.renamed old new⟩)

/-- The names that requests bring in, one each and in their order, and what is there behind them. -/
def serveAll (s : Session) : List Request → List Text × Session
  | [] => ([], s)
  | q :: rest =>
    ((s.serve q).1 :: ((s.serve q).2.serveAll rest).1, ((s.serve q).2.serveAll rest).2)

/-- What stays true whatever is asked for: the references are all names of the program that is
there now and of the original one, and all that were brought in. -/
structure IsKnown (original : Node) (names : List Text) (s : Session) : Prop where
  bindings : s.scope.bindings ⊆ s.scope.references
  uids : s.scope.uids ⊆ s.scope.references
  original : ∀ x, Mentioned original x → x ∈ s.scope.references
  program : ∀ x, Mentioned s.program x → x ∈ s.scope.references
  names : names ⊆ s.scope.references

theorem mem_references_ofProgram {n : Node} {x : Text} :
    x ∈ (Scope.ofProgram n).references ↔ Mentioned n x := List.mem_filterMap

theorem isKnown_ofProgram (program : Node) : IsKnown program [] (ofProgram program) where
  bindings := by
    intro x hx
    apply mem_references_ofProgram.mpr
    simp only [ofProgram, Scope.ofProgram] at hx
    split at hx
    · exact mentioned_of_declared List.mem_cons_self hx
    · exact absurd hx List.not_mem_nil
  uids := List.nil_subset _
  original _ hx := mem_references_ofProgram.mpr hx
  program _ hx := mem_references_ofProgram.mpr hx
  names := List.nil_subset _

theorem mentioned_renameProgram {old new x : Text} {n : Node}
    (h : Mentioned (renameProgram old new n) x) : Mentioned n x ∨ x = new := by
  unfold renameProgram at h
  split at h
  · next head trailing body =>
    rw [mentioned_iff] at h ⊢
    simp only [Node.ident?, Node.slots, List.mem_singleton, exists_eq_left, renameAll_eq_map,
      List.mem_map, exists_exists_and_eq_and, reduceCtorEq, false_or] at h ⊢
    obtain ⟨m, hm, hx⟩ := h
    exact (mentioned_rename m hx).imp_left fun hx => ⟨m, hm, hx⟩
  · exact .inl h

theorem IsKnown.step {original : Node} {names : List Text} {s s' : Session} {name : Text}
    (h : IsKnown original names s) (hreferences : s'.scope.references = name :: s.scope.references)
    (hbindings : s'.scope.bindings ⊆ name :: s.scope.bindings)
    (huids : s'.scope.uids ⊆ name :: s.scope.uids)
    (hprogram : ∀ x, Mentioned s'.program x → Mentioned s.program x ∨ x = name) :
    IsKnown original (names ++ [name]) s' where
  bindings := hreferences ▸ List.Subset.trans hbindings (List.cons_subset_cons _ h.bindings)
  uids := hreferences ▸ List.Subset.trans huids (List.cons_subset_cons _ h.uids)
  original x hx := hreferences ▸ List.mem_cons_of_mem _ (h.original x hx)
  program x hx := by
    rw [hreferences, List.mem_cons]
    exact (hprogram x hx).symm.imp_right (h.program x)
  names x hx := by
    rw [hreferences, List.mem_cons]
    rw [List.mem_append, List.mem_singleton] at hx
    exact hx.symm.imp_right (h.names ·)

theorem isKnown_serve {original : Node} {names : List Text} {s : Session}
    (h : IsKnown original names s) (q : Request) :
    IsKnown original (names ++ [(s.serve q).1]) (s.serve q).2 := by
  have hmore (x : Text) (xs : List Text) : xs ⊆ x :: xs := List.subset_cons_self _ _
  cases q with
  | register name => exact h.step rfl (List.Subset.refl _) (hmore _ _) fun _ => .inl
  | generate text => exact h.step rfl (hmore _ _) (List.Subset.refl _) fun _ => .inl
  | generateFor n otherwise => exact h.step rfl (hmore _ _) (List.Subset.refl _) fun _ => .inl
  | rename old new =>
    -- the old name is no binding any more, but stays a reference
    refine h.step rfl ?_ (hmore _ _) fun x => mentioned_renameProgram
    change (if _ then _ else _) ⊆ new :: s.scope.bindings
    split
    · exact List.cons_subset_cons _ fun x hx => (List.mem_filter.mp hx).1
    · exact hmore _ _

theorem isKnown_serveAll {original : Node} {names : List Text} {s : Session}
    (h : IsKnown original names s) (requests : List Request) :
    IsKnown original (names ++ (s.serveAll requests).1) (s.serveAll requests).2 := by
  induction requests generalizing names s with
  | nil => rwa [serveAll, List.append_nil]
  | cons q rest ih =>
    have hrest := ih (isKnown_serve h q)
    rwa [List.append_assoc] at hrest

/-! ## Names that are handed out -/

/-- What is promised of a name that is handed out from a text to the program `original`, which is
`s` now, behind requests that brought in `earlier`. -/
structure IsFresh (original : Node) (earlier : List Text) (s : Session) (text uid : Text) :
    Prop where
  /-- Counting up the candidates ends with the name. -/
  search : ∃ i, uid = candidate (baseOf text) i ∧
    ∀ j < i, candidate (baseOf text) j ∈ s.scope.taken
  hasForm : Identifier.hasForm uid
  startsWith : uid.head? = some '_'
  notReserved : uid ∉ Identifier.reserved
  notOriginal : ¬ Mentioned original uid
  notProgram : ¬ Mentioned s.program uid
  notEarlier : uid ∉ earlier

theorem isFresh_generate {original : Node} {names : List Text} {s : Session}
    (h : IsKnown original names s) (text : Text) :
    IsFresh original names s text (s.scope.generate text).1 := by
  obtain ⟨i, hi, htaken⟩ := firstFree_eq_candidate (baseOf text) s.scope.taken
  have huid : (s.scope.generate text).1 = candidate (baseOf text) i := hi
  have hfree := generate_not_mem_taken s.scope text
  have hnew := generate_not_mem_references s.scope text
  exact {
    search := ⟨i, huid, htaken⟩
    hasForm := huid ▸ hasForm_candidate (baseOf_isNamePart text) i
    startsWith := huid ▸ head?_candidate _ i
    notReserved := fun hreserved => hfree (List.mem_append_right _ hreserved)
    notOriginal := fun hmentioned => hnew (h.original _ hmentioned)
    notProgram := fun hmentioned => hnew (h.program _ hmentioned)
    notEarlier := fun hearlier => hnew (h.names hearlier) }

/-- Whatever the names of a program were asked for, its bindings and the names handed out are among
its references, and the next name that is handed out is fresh. -/
theorem fresh_behind_requests (program : Node) (requests : List Request) :
    let names := ((ofProgram program).serveAll requests).1
    let s := ((ofProgram program).serveAll requests).2
    s.scope.bindings ⊆ s.scope.references ∧ s.scope.uids ⊆ s.scope.references ∧
      (∀ text, IsFresh program names s text (s.serve (.generate text)).1) ∧
      ∀ n otherwise, IsFresh program names s (nodeText ((n.map nameParts).getD []) otherwise)
        (s.serve (.generateFor n otherwise)).1 := by
  have h := isKnown_serveAll (isKnown_ofProgram program) requests
  rw [List.nil_append] at h
  exact ⟨h.bindings, h.uids, isFresh_generate h, fun n otherwise => isFresh_generate h _⟩

end Session

end Scope

end InlineTemplates
