import InlineTemplates.Template.Sites

/-!
# What a site asks of the compiler

A site hands its text to the compiler, with its own options laid over the text and the flag of the
configuration. It fails without that if it is no template, and behind it if the compiler refuses the
template or gives no expression.
-/

namespace InlineTemplates

/-! ## Results -/

section Results

variable {ε α β : Type}

theorem bind_eq_ok {r : Except ε α} {f : α → Except ε β} {y : β} :
    r >>= f = .ok y ↔ ∃ x, r = .ok x ∧ f x = .ok y := by
  cases r with
  | error e => exact ⟨nofun, nofun⟩
  | ok x => exact ⟨fun h => ⟨x, rfl, h⟩, fun ⟨_, hx, h⟩ => by cases hx; exact h⟩

theorem bind_eq_error {r : Except ε α} {f : α → Except ε β} {e : ε} :
    r >>= f = .error e ↔ r = .error e ∨ ∃ x, r = .ok x ∧ f x = .error e := by
  cases r with
  | error e' =>
    refine ⟨fun h => .inl ?_, ?_⟩
    · cases h
      rfl
    · rintro (h | ⟨_, h, -⟩) <;> cases h
      rfl
  | ok x =>
    refine ⟨fun h => .inr ⟨x, rfl, h⟩, ?_⟩
    rintro (h | ⟨_, h, hf⟩) <;> cases h
    exact hf

def failure? : Except ε α → Option ε
  | .error e => some e
  | .ok _ => none

theorem failure?_eq_none_iff {r : Except ε α} : failure? r = none ↔ ∃ x, r = .ok x := by
  cases r with
  | error e => exact ⟨nofun, nofun⟩
  | ok x => exact ⟨fun _ => ⟨x, rfl⟩, fun _ => rfl⟩

/-- Whether a result is no failure of a walk that would have to go too deep. -/
def IsBounded (r : Except Error α) : Prop := r ≠ .error .tooDeep

theorem bounded_bind {r : Except Error α} {f : α → Except Error β} (h : IsBounded r)
    (hf : ∀ x, IsBounded (f x)) : IsBounded (r >>= f) := by
  intro hdeep
  rcases bind_eq_error.mp hdeep with hdeep | ⟨x, -, hdeep⟩
  · exact h hdeep
  · exact hf x hdeep

theorem bounded_mapM {f : α → Except Error β} (hf : ∀ x, IsBounded (f x)) (xs : List α) :
    IsBounded (xs.mapM f) := by
  induction xs with
  | nil => exact nofun
  | cons x rest ih =>
    rw [List.mapM_cons]
    exact bounded_bind (hf x) fun y => bounded_bind ih fun ys => nofun

end Results

/-! ## Mappings -/

namespace Entries

theorem nodup_keys_set {entries : Entries} (h : entries.keys.Nodup) (key : Text) (value : Value) :
    (entries.set key value).keys.Nodup := by
  rw [keys_set]
  split
  · exact h
  · next hkey =>
    rw [List.nodup_append]
    refine ⟨h, List.pairwise_singleton _ key, fun k hk k' hk' hkk => ?_⟩
    obtain ⟨e, he, rfl⟩ := List.mem_map.mp hk
    rw [List.mem_singleton.mp hk'] at hkk
    exact hkey (List.any_eq_true.mpr ⟨e, he, beq_iff_eq.mpr hkk⟩)

theorem nodup_keys_overlay {entries : Entries} (h : entries.keys.Nodup) (others : Entries) :
    (entries.overlay others).keys.Nodup := by
  induction others generalizing entries with
  | nil => exact h
  | cons e rest ih => exact ih (nodup_keys_set h e.1 e.2)

theorem get?_eq_none {entries : Entries} {key : Text} (h : key ∉ entries.keys) :
    entries.get? key = none := by
  induction entries with
  | nil => rfl
  | cons e rest ih =>
    rw [keys, List.map_cons, List.mem_cons, not_or] at h
    rw [get?_cons, if_neg (Ne.symm h.1), ih h.2]

/-- The entries of a mapping win over those that it is laid over. -/
theorem get?_overlay (entries : Entries) {others : Entries} (h : others.keys.Nodup) (key : Text) :
    (entries.overlay others).get? key = (others.get? key).or (entries.get? key) := by
  induction others generalizing entries with
  | nil => rfl
  | cons e rest ih =>
    obtain ⟨hnew, hrest⟩ := List.nodup_cons.mp h
    change ((entries.set e.1 e.2).overlay rest).get? key = _
    rw [ih _ hrest, get?_set, get?_cons]
    split
    · next he =>
      subst he
      rw [get?_eq_none hnew]
      rfl
    · rfl

end Entries

/-! ## Static options -/

namespace Static

variable {origin : SourceUnit} {invoked : Text}

theorem nodup_keys_entries {readsScope : Bool} {members : List Node} :
    ∀ {before es : Entries}, entries origin invoked readsScope before members = .ok es →
      before.keys.Nodup → es.keys.Nodup := by
  induction members with
  | nil =>
    intro before es h hbefore
    rw [entries] at h
    cases h
    exact hbefore
  | cons m rest ih =>
    intro before es h hbefore
    unfold entries at h
    split at h
    · cases ‹_ :: _ = []›
    · next heq =>
      cases heq
      obtain ⟨name, -, h⟩ := bind_eq_ok.mp h
      split at h
      · obtain ⟨names, -, h⟩ := bind_eq_ok.mp h
        exact ih h (Entries.nodup_keys_set hbefore _ _)
      · obtain ⟨v, -, h⟩ := bind_eq_ok.mp h
        exact ih h (Entries.nodup_keys_set hbefore _ _)
    · next heq =>
      cases heq
      obtain ⟨name, -, h⟩ := bind_eq_ok.mp h
      split at h
      · obtain ⟨names, -, h⟩ := bind_eq_ok.mp h
        exact ih h (Entries.nodup_keys_set hbefore _ _)
      · cases h
    · cases h
    · cases h

/-! ### Failures -/

theorem scopeObject?_bounded (member : Node) : IsBounded (scopeObject? origin member) := by
  unfold scopeObject?
  dsimp only
  split
  · split <;> exact nofun
  · exact nofun
  · split <;> exact nofun
  · split <;> exact nofun
  · exact nofun

theorem scopeName_bounded (member n : Node) : IsBounded (scopeName origin invoked member n) := by
  unfold scopeName
  split
  · exact nofun
  · exact nofun
  · split
    · exact nofun
    · split <;> exact nofun
  · exact nofun

theorem scopeNames_bounded (member : Node) : IsBounded (scopeNames origin invoked member) := by
  refine bounded_bind (scopeObject?_bounded member) fun object => ?_
  split
  · exact bounded_mapM (scopeName_bounded member) _
  · exact nofun

theorem memberName_bounded (member : Node) (computed : Bool) (key : Node) :
    IsBounded (memberName origin invoked member computed key) := by
  unfold memberName
  split <;> exact nofun

mutual

theorem value_bounded : ∀ n : Node, IsBounded (value origin invoked n)
  | .mk head form slots => by
    unfold value
    split
    · next members h =>
      cases h
      exact bounded_bind (entries_bounded members false []) fun _ => nofun
    · next elements h =>
      cases h
      exact bounded_bind (values_bounded elements) fun _ => nofun
    · split <;> exact nofun
    · exact nofun

theorem values_bounded : ∀ ns : List Node, IsBounded (values origin invoked ns)
  | [] => nofun
  | n :: rest => by
    unfold values
    split
    · exact nofun
    · exact nofun
    · next h =>
      cases h
      refine bounded_bind (value_bounded n) fun v => ?_
      exact bounded_bind (values_bounded rest) fun vs => nofun

theorem entries_bounded : ∀ (members : List Node) (readsScope : Bool) (before : Entries),
    IsBounded (entries origin invoked readsScope before members)
  | [], _, _ => nofun
  | .mk head form slots :: rest, readsScope, before => by
    unfold entries
    split
    · exact nofun
    · next h =>
      cases h
      refine bounded_bind (memberName_bounded _ _ _) fun name => ?_
      split
      · exact bounded_bind (scopeNames_bounded _) fun names => entries_bounded rest _ _
      · exact bounded_bind (value_bounded _) fun v => entries_bounded rest _ _
    · next h =>
      cases h
      refine bounded_bind (memberName_bounded _ _ _) fun name => ?_
      split
      · exact bounded_bind (scopeNames_bounded _) fun names => entries_bounded rest _ _
      · exact nofun
    · exact nofun
    · exact nofun

end

end Static

namespace Sites

variable (c : Context)

/-! ## Requests -/

def template? : Node → Option Text
  | .tagged _ _ (.template _ quasis _) => some (chunkText quasis)
  | .call _ _ _ (.literal _ (.str t) :: _) => some t
  | .call _ _ _ (.template _ quasis _ :: _) => some (chunkText quasis)
  | _ => none

/-- The options that a site gives itself. A tag has the same each time, and a call has those of its
second argument. -/
inductive IsOwn (origin : SourceUnit) : Node → Entries → Prop where
  | tag {head : Head} {tag quasi : Node} :
    IsOwn origin (.tagged head tag quasi) [("locals", .null), ("strictMode", .bool false)]
  | none {head : Head} {isOptional : Bool} {func argument : Node} :
    IsOwn origin (.call head isOptional func [argument]) []
  | given {head : Head} {isOptional : Bool} {func argument object : Node} {invoked : Text}
      {own : Entries} : Static.options origin invoked true object = .ok own →
    IsOwn origin (.call head isOptional func [argument, object]) own

def production : Entries := [("isProduction", c.options.isProduction)]

/-- What is compiled with a template unless its own options say otherwise. -/
def defaults (template : Text) : Entries :=
  production c ++ ([("contents", .str template)] : Entries)

/-- What a site hands to the compiler: its text, and a mapping with its own options in front of what
is compiled with each template. -/
structure IsRequest (n : Node) (r : Compilation) : Prop where
  template : template? n = some r.template
  options : ∃ own, IsOwn c.origin n own ∧
    ∀ key, r.options.get? key = Entries.get? (own ++ defaults c r.template) key
  keys : r.options.keys.Nodup

/-- What a node hands to the compiler, if it is a template. -/
def request? (n : Node) : Option Compilation :=
  match content? c n with
  | some (.ok (template, options)) => some ⟨template, Compiler.optionsFor template options⟩
  | _ => none

variable {c}

theorem content?_of_request? {n : Node} {r : Compilation} (h : request? c n = some r) :
    ∃ template options, content? c n = some (.ok (template, options)) ∧
      r = ⟨template, Compiler.optionsFor template options⟩ := by
  unfold request? at h
  split at h
  · next template options hcontent =>
    cases h
    exact ⟨template, options, hcontent, rfl⟩
  · cases h

theorem get?_setDefault (entries : Entries) (key key' : Text) (value : Value) :
    (if entries.contains key then entries else entries.set key value).get? key' =
      Entries.get? (entries ++ [(key, value)]) key' := by
  rw [Entries.get?_append]
  split
  · next h =>
    rw [Entries.contains_eq_isSome_get?] at h
    obtain ⟨v, hv⟩ := Option.isSome_iff_exists.mp h
    by_cases hkey : key = key'
    · subst hkey
      rw [hv]
      rfl
    · rw [Entries.get?_cons, if_neg hkey, Entries.get?_nil, Option.or_none]
  · next h =>
    rw [Entries.contains_eq_isSome_get?, Bool.not_eq_true, Option.isSome_eq_false_iff,
      Option.isNone_iff_eq_none] at h
    rw [Entries.get?_set, Entries.get?_cons]
    by_cases hkey : key = key'
    · subst hkey
      rw [if_pos rfl, if_pos rfl, h]
      rfl
    · rw [if_neg hkey, if_neg hkey, Entries.get?_nil, Option.or_none]

theorem isRequest_of_own {n : Node} {template : Text} {own options : Entries}
    (htemplate : template? n = some template) (hown : IsOwn c.origin n own)
    (hkeys : options.keys.Nodup)
    (hget : ∀ key, options.get? key = Entries.get? (own ++ production c) key) :
    IsRequest c n ⟨template, Compiler.optionsFor template options⟩ := by
  have hcontents : (Entries.keys [("contents", .str template)]).Nodup := List.pairwise_singleton _ _
  refine ⟨htemplate, ⟨own, hown, fun key => ?_⟩, Entries.nodup_keys_overlay hcontents options⟩
  dsimp only
  rw [Compiler.optionsFor, Entries.get?_overlay _ hkeys, hget, defaults, ← List.append_assoc,
    Entries.get?_append _ [_]]

theorem taggedContent_spec {head quasiHead : Head} {tag : Node} {b : Binding}
    {quasis expressions : List Node} {site : Node} {template : Text} {options : Entries}
    (h : taggedContent c site b quasis expressions = .ok (template, options)) :
    IsRequest c (.tagged head tag (.template quasiHead quasis expressions))
      ⟨template, Compiler.optionsFor template options⟩ := by
  unfold taggedContent at h
  split at h
  · cases h
  · split at h
    · cases h
    · cases h
      refine isRequest_of_own rfl .tag
        (by decide : (["isProduction", "locals", "strictMode"] : List Text).Nodup) fun key => ?_
      simp only [production, List.cons_append, List.nil_append, Entries.get?_cons]
      by_cases hkey : Text.ofString "isProduction" = key
      · subst hkey
        rfl
      · simp only [hkey, if_false]

theorem template?_of_argumentText {site : Node} {b : Binding} {args : List Node} {template : Text}
    (h : argumentText c site b args[0]? = .ok template) (head : Head) (isOptional : Bool)
    (func : Node) :
    template? (.call head isOptional func args) = some template := by
  cases args with
  | nil => cases h
  | cons argument rest =>
    change argumentText c site b (some argument) = _ at h
    unfold argumentText at h
    split at h
    · next heq =>
      cases heq
      cases h
      rfl
    · next heq =>
      cases heq
      split at h
      · cases h
        rfl
      · cases h
    · cases h
    · cases h

theorem isOwn_of_argumentOptions {site : Node} {b : Binding} {rest : List Node} {own : Entries}
    (hlength : rest.length ≤ 1) (h : argumentOptions c site b rest[0]? = .ok own) (head : Head)
    (isOptional : Bool) (func argument : Node) :
    IsOwn c.origin (.call head isOptional func (argument :: rest)) own ∧ own.keys.Nodup := by
  cases rest with
  | nil =>
    cases h
    exact ⟨.none, List.nodup_nil⟩
  | cons object rest =>
    cases rest with
    | cons => simp at hlength
    | nil =>
      change argumentOptions c site b (some object) = _ at h
      unfold argumentOptions at h
      split at h
      · cases ‹some object = none›
      · next heq =>
        cases heq
        exact ⟨.given h, Static.nodup_keys_entries h List.nodup_nil⟩
      · cases h

theorem callContent_spec {site : Node} {b : Binding} {head : Head} {isOptional : Bool} {func : Node}
    {args : List Node} {template : Text} {options : Entries}
    (h : callContent c site b args = .ok (template, options)) :
    IsRequest c (.call head isOptional func args)
      ⟨template, Compiler.optionsFor template options⟩ := by
  unfold callContent at h
  split at h
  · cases h
  · obtain ⟨text, htext, h⟩ := bind_eq_ok.mp h
    obtain ⟨own, hown, h⟩ := bind_eq_ok.mp h
    split at h
    · cases h
    · next hlength =>
      have hcontent : (template, options) = (text, if own.contains "isProduction" then own else
          own.set "isProduction" c.options.isProduction) := by
        split at h
        · next hset => rw [if_pos hset]; cases h; rfl
        · next hset => rw [if_neg hset]; cases h; rfl
      cases hcontent
      have htemplate := template?_of_argumentText htext head isOptional func
      cases args with
      | nil => cases htext
      | cons argument rest =>
        have hrest : rest.length ≤ 1 := by simpa using hlength
        obtain ⟨hown, hkeys⟩ := isOwn_of_argumentOptions hrest hown head isOptional func argument
        refine isRequest_of_own htemplate hown ?_ fun key => get?_setDefault own _ key _
        split
        · exact hkeys
        · exact Entries.nodup_keys_set hkeys _ _

theorem isRequest_of_request? {n : Node} {r : Compilation} (h : request? c n = some r) :
    IsRequest c n r := by
  obtain ⟨template, options, hcontent, rfl⟩ := content?_of_request? h
  unfold content? at hcontent
  split at hcontent
  · obtain ⟨b, -, hcontent⟩ := Option.map_eq_some_iff.mp hcontent
    exact taggedContent_spec hcontent
  · obtain ⟨b, -, hcontent⟩ := Option.map_eq_some_iff.mp hcontent
    exact callContent_spec hcontent
  · cases hcontent

/-! ## Failures -/

variable (c) in
/-- Why a request of the node `n` fails, if it does: the compiler refuses it and the options ask for
no code instead, or what the compiler gives is no expression. -/
def refusal? (n : Node) (r : Compilation) : Option Error :=
  match c.compiler r.template r.options with
  | .ok payload => failure? (Node.readExpression payload (some Compiler.outputName))
  | .error rejection =>
    if (r.options.get? Compiler.runtimeErrors).any Value.isOn then none
    else some (.report ⟨.rejected rejection.reason, n.loc, c.origin⟩)

variable (c) in
/-- Why a node stops the pass, if it does. -/
def offence? (n : Node) : Option Error :=
  match content? c n with
  | some (.error e) => some e
  | _ => (request? c n).bind (refusal? c n)

theorem failure?_embedded (template payload : Text) :
    failure? (Compiler.embedded template payload) =
      failure? (Node.readExpression payload (some Compiler.outputName)) := by
  unfold Compiler.embedded
  cases Node.readExpression payload (some Compiler.outputName) <;> rfl

/-- The name of the factory does not matter for whether a compilation fails. -/
theorem failure?_compile (n : Node) (template : Text) (factory : Node) (options : Entries) :
    failure? (Compiler.compile c.compiler template factory options n c.origin) =
      refusal? c n ⟨template, Compiler.optionsFor template options⟩ := by
  unfold Compiler.compile refusal?
  dsimp only
  cases c.compiler template (Compiler.optionsFor template options) with
  | ok payload =>
    dsimp only
    rw [← failure?_embedded template payload]
    cases Compiler.embedded template payload <;> rfl
  | error rejection =>
    dsimp only
    split <;> rfl

variable (c) in
/-- What a request becomes: the expression that the compiler gives, behind the comment that shows
the template, in the hands of `factory`; or the code that fails when it runs. -/
inductive IsCompiled (factory : Text) (r : Compilation) : Node → Prop where
  | call {payload : Text} {e : Node} : c.compiler r.template r.options = .ok payload →
    Node.readExpression payload (some Compiler.outputName) = .ok e →
    IsCompiled factory r (.call .fresh false (.name .fresh factory)
      [e.appendComments [Compiler.templateComment r.template]])
  | stub {rejection : Rejection} : c.compiler r.template r.options = .error rejection →
    (r.options.get? Compiler.runtimeErrors).any Value.isOn →
    IsCompiled factory r (Compiler.throwing rejection.reason)

theorem isCompiled_of_compile {n compiled : Node} {template factory : Text} {options : Entries}
    (h : Compiler.compile c.compiler template (.name .fresh factory) options n c.origin =
      .ok compiled) :
    IsCompiled c factory ⟨template, Compiler.optionsFor template options⟩ compiled := by
  unfold Compiler.compile at h
  dsimp only at h
  split at h
  · next payload hpayload =>
    obtain ⟨embedded, hembedded, h⟩ := bind_eq_ok.mp h
    obtain ⟨e, hread, hembedded⟩ := bind_eq_ok.mp hembedded
    cases hembedded
    cases h
    exact .call hpayload hread
  · next rejection hrejection =>
    split at h
    · next herrors =>
      cases h
      exact .stub hrejection herrors
    · cases h

theorem taggedContent_bounded (site : Node) (b : Binding) (quasis expressions : List Node) :
    IsBounded (taggedContent c site b quasis expressions) := by
  unfold taggedContent
  split
  · exact nofun
  · split <;> exact nofun

theorem argumentText_bounded (site : Node) (b : Binding) (argument : Option Node) :
    IsBounded (argumentText c site b argument) := by
  unfold argumentText
  split
  · exact nofun
  · split <;> exact nofun
  · exact nofun
  · exact nofun

theorem argumentOptions_bounded (site : Node) (b : Binding) (argument : Option Node) :
    IsBounded (argumentOptions c site b argument) := by
  unfold argumentOptions
  split
  · exact nofun
  · exact Static.entries_bounded _ _ _
  · exact nofun

theorem callContent_bounded (site : Node) (b : Binding) (args : List Node) :
    IsBounded (callContent c site b args) := by
  unfold callContent
  split
  · exact nofun
  · refine bounded_bind (argumentText_bounded site b _) fun template => ?_
    refine bounded_bind (argumentOptions_bounded site b _) fun options => ?_
    split
    · exact nofun
    · split <;> exact nofun

theorem content?_bounded {n : Node} {content : Except Error Content}
    (h : content? c n = some content) : IsBounded content := by
  unfold content? at h
  split at h
  · obtain ⟨b, -, rfl⟩ := Option.map_eq_some_iff.mp h
    exact taggedContent_bounded _ b _ _
  · obtain ⟨b, -, rfl⟩ := Option.map_eq_some_iff.mp h
    exact callContent_bounded _ b _
  · cases h

/-- A site does not stop the pass for its depth if all that the compiler gives are expressions. -/
theorem offence?_bounded
    (hpayloads : ∀ template options payload, c.compiler template options = .ok payload →
      ∃ e, Node.readExpression payload (some Compiler.outputName) = .ok e) (n : Node) :
    offence? c n ≠ some .tooDeep := by
  unfold offence?
  split
  · next e hcontent =>
    intro hdeep
    cases hdeep
    exact content?_bounded hcontent rfl
  · intro hdeep
    obtain ⟨r, -, hrefusal⟩ := Option.bind_eq_some_iff.mp hdeep
    unfold refusal? at hrefusal
    split at hrefusal
    · next payload hpayload =>
      obtain ⟨e, he⟩ := hpayloads _ _ _ hpayload
      rw [he] at hrefusal
      cases hrefusal
    · split at hrefusal <;> cases hrefusal

end Sites

end InlineTemplates
