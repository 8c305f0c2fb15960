import InlineTemplates.Node.Printable
import InlineTemplates.Proofs.Drafts
import InlineTemplates.Proofs.Requests
import Mathlib.Data.List.Forall2
import Mathlib.Data.List.Induction

/-!
# What options denote

Some expressions denote a value without code being run. The evaluator gives just these values, and
refuses every other tree with a fault of the options.
-/

namespace InlineTemplates

/-! ## Mappings -/

namespace Entries

/-- The mapping that is written down pair by pair: each key stands where it is given first and has
the value that it is given last. -/
def latest (pairs : Entries) : Entries :=
  pairs.keys.eraseDups.map fun key => (key, (get? pairs.reverse key).getD .null)

theorem contains_latest (pairs : Entries) (key : Text) :
    pairs.latest.contains key = decide (key ∈ pairs.keys) := by
  rw [contains, latest, List.any_map, Bool.eq_iff_iff, List.any_eq_true, decide_eq_true_iff]
  simp only [List.mem_eraseDups, Function.comp_apply, beq_iff_eq, exists_eq_right]

theorem get?_reverse_snoc (pairs : Entries) (key key' : Text) (value : Value) :
    get? (List.reverse (pairs ++ [(key, value)])) key' =
      if key = key' then some value else get? pairs.reverse key' := by
  rw [List.reverse_append, List.reverse_singleton, List.singleton_append, get?_cons]

theorem latest_snoc (pairs : Entries) (key : Text) (value : Value) :
    latest (pairs ++ [(key, value)]) = pairs.latest.set key value := by
  have hkeys : keys (pairs ++ [(key, value)]) = pairs.keys ++ [key] := List.map_append
  unfold set
  rw [contains_latest, latest, hkeys, List.eraseDups_append, List.map_append]
  by_cases hkey : key ∈ pairs.keys
  · -- the key keeps its place, and its value changes
    rw [if_pos (decide_eq_true hkey), latest, List.map_map]
    have hnone : [key].removeAll pairs.keys = [] := by simp [List.removeAll, hkey]
    rw [hnone, List.eraseDups_nil, List.map_nil, List.append_nil]
    refine List.map_congr_left fun k _ => ?_
    rw [get?_reverse_snoc, Function.comp_apply]
    by_cases hk : key = k
    · rw [if_pos hk, if_pos hk.symm, hk, Option.getD_some]
    · rw [if_neg hk, if_neg (Ne.symm hk)]
  · rw [if_neg (by simpa using hkey), latest]
    have hone : [key].removeAll pairs.keys = [key] := by simp [List.removeAll, hkey]
    rw [hone]
    congr 1
    · refine List.map_congr_left fun k hk => ?_
      rw [List.mem_eraseDups] at hk
      rw [get?_reverse_snoc, if_neg fun (h : key = k) => hkey (h ▸ hk)]
    · change [(key, _)] = _
      rw [get?_reverse_snoc, if_pos rfl, Option.getD_some]

theorem overlay_nil (pairs : Entries) : overlay [] pairs = pairs.latest := by
  induction pairs using List.reverseRecOn with
  | nil => rfl
  | append_singleton pairs e ih =>
    obtain ⟨key, value⟩ := e
    rw [latest_snoc, ← ih, overlay, List.foldl_append]
    rfl

end Entries

namespace Static

/-! ## Scopes -/

/-- The name that a key spells. -/
inductive Spells : Node → Text → Prop where
  | name {head : Head} {name : Text} : Spells (.name head name) name
  | string {head : Head} {name : Text} : Spells (.literal head (.str name)) name

/-- The members of the object that a function with this body returns: a single statement returns it,
or the body of an arrow is the object. -/
inductive Returns : Node → List Node → Prop where
  | statement {head returnHead objectHead : Head} {stop : Option Location} {trailing : List Text}
      {value members : List Node} : value.head? = some (.object objectHead members) →
    Returns (.block head stop trailing [.returnStmt returnHead value]) members
  | concise {head : Head} {members : List Node} : Returns (.object head members) members

/-- The members of the object that a member of options returns, which is a method, or a function or
an arrow under a key. -/
inductive MemberReturns : Node → List Node → Prop where
  | method {head : Head} {computed : Bool} {role : MethodRole} {isAsync : Bool} {key : Node}
      {params : List Node} {body : Node} {members : List Node} : Returns body members →
    MemberReturns (.objectMethod head computed role isAsync key params body) members
  | function {head innerHead : Head} {computed shorthand isAsync : Bool} {key : Node}
      {name params : List Node} {body : Node} {members : List Node} : Returns body members →
    MemberReturns (.property head computed shorthand key
      (.function innerHead isAsync name params body)) members
  | arrow {head innerHead : Head} {computed shorthand isAsync : Bool} {key : Node}
      {params : List Node} {body : Node} {members : List Node} : Returns body members →
    MemberReturns (.property head computed shorthand key (.arrow innerHead isAsync params body))
      members

/-- The name of a member that is not computed. -/
inductive IsNamed : Node → Text → Prop where
  | property {head : Head} {shorthand : Bool} {key value : Node} {name : Text} :
    Spells key name → IsNamed (.property head false shorthand key value) name
  | method {head : Head} {role : MethodRole} {isAsync : Bool} {key : Node} {params : List Node}
      {body : Node} {name : Text} : Spells key name →
    IsNamed (.objectMethod head false role isAsync key params body) name

/-- A member of a scope lists a name: its key spells the name, and its value is the name. -/
inductive Lists : Node → Text → Prop where
  | property {head valueHead : Head} {shorthand : Bool} {key : Node} {name : Text} :
    Spells key name → Lists (.property head false shorthand key (.name valueHead name)) name

/-- The names that the member `scope` lists, in order. -/
def ListsScope (member : Node) (names : List Text) : Prop :=
  ∃ members, MemberReturns member members ∧ List.Forall₂ Lists members names

/-! ## Values -/

/-- What a literal denotes; null denotes nothing. -/
inductive LiteralDenotes : Literal → Value → Prop where
  | str {t : Text} : LiteralDenotes (.str t) (.str t)
  | int {n : Nat} : LiteralDenotes (.int n) (.int n)
  | float {d : Double} : LiteralDenotes (.float d) (.float d)
  | bool {b : Bool} : LiteralDenotes (.bool b) (.bool b)

mutual

/-- What an expression denotes. -/
inductive Denotes : Node → Value → Prop where
  | literal {head : Head} {l : Literal} {v : Value} : LiteralDenotes l v →
    Denotes (.literal head l) v
  | array {head : Head} {elements : List Node} {vs : List Value} : AllDenote elements vs →
    Denotes (.array head elements) (.list vs)
  | object {head : Head} {members : List Node} {pairs : Entries} :
    MembersDenote false members pairs → Denotes (.object head members) (.mapping pairs.latest)

/-- What the elements of an array denote. -/
inductive AllDenote : List Node → List Value → Prop where
  | nil : AllDenote [] []
  | cons {n : Node} {v : Value} {ns : List Node} {vs : List Value} : Denotes n v →
    AllDenote ns vs → AllDenote (n :: ns) (v :: vs)

/-- The pairs that the members of an object denote. With `readsScope` the member `scope` is no
option, and its names stand under `locals`. -/
inductive MembersDenote : Bool → List Node → Entries → Prop where
  | nil {readsScope : Bool} : MembersDenote readsScope [] []
  | property {readsScope : Bool} {head : Head} {shorthand : Bool} {key inner : Node} {name : Text}
      {v : Value} {members : List Node} {pairs : Entries} : Spells key name →
    (readsScope = true → name ≠ "scope") → Denotes inner v →
    MembersDenote readsScope members pairs →
    MembersDenote readsScope (.property head false shorthand key inner :: members)
      ((name, v) :: pairs)
  | scope {member : Node} {names : List Text} {members : List Node} {pairs : Entries} :
    IsNamed member "scope" → ListsScope member names → MembersDenote true members pairs →
    MembersDenote true (member :: members) (("locals", .list (names.map .str)) :: pairs)

end

/-! ## What is given is what is denoted -/

variable {origin : SourceUnit} {invoked : Text}

theorem nameText?_eq_some_iff {n : Node} {name : Text} :
    n.nameText? = some name ↔ Spells n name := by
  constructor
  · intro h
    unfold Node.nameText? Node.ident? Node.string? at h
    split at h
    · cases h
      exact .name
    · split at h
      · cases h
        exact .string
      · cases h
  · rintro (_ | _) <;> rfl

theorem memberName_eq_ok_iff {member key : Node} {computed : Bool} {name : Text} :
    memberName origin invoked member computed key = .ok name ↔
      computed = false ∧ Spells key name := by
  rw [← nameText?_eq_some_iff]
  unfold memberName Node.staticName?
  cases computed with
  | true => exact ⟨nofun, nofun⟩
  | false =>
    simp only [Bool.false_eq_true, if_false, true_and]
    cases key.nameText? with
    | none => exact ⟨nofun, nofun⟩
    | some name' => simp [Except.ok.injEq]

theorem scopeName_eq_ok_iff {member n : Node} {name : Text} :
    scopeName origin invoked member n = .ok name ↔ Lists n name := by
  constructor
  · intro h
    unfold scopeName at h
    split at h
    · cases h
    · cases h
    · next computed shorthand key value =>
      split at h
      · cases h
      · next name' hname =>
        split at h
        · next hvalue =>
          cases h
          unfold Node.staticName? at hname
          cases computed with
          | true => cases hname
          | false =>
            unfold Node.ident? at hvalue
            split at hvalue
            · cases hvalue
              exact .property (nameText?_eq_some_iff.mp hname)
            · cases hvalue
        · cases h
    · cases h
  · rintro ⟨hkey⟩
    rw [← nameText?_eq_some_iff] at hkey
    simp [scopeName, Node.staticName?, hkey, Node.ident?]

theorem mapM_eq_ok_iff {ε α β : Type} {f : α → Except ε β} {R : α → β → Prop}
    (hf : ∀ x y, f x = .ok y ↔ R x y) {xs : List α} {ys : List β} :
    xs.mapM f = .ok ys ↔ List.Forall₂ R xs ys := by
  induction xs generalizing ys with
  | nil =>
    rw [List.mapM_nil]
    constructor
    · intro h
      cases h
      exact .nil
    · rintro ⟨⟩
      rfl
  | cons x xs ih =>
    rw [List.mapM_cons]
    simp only [bind_eq_ok, hf, ih]
    constructor
    · rintro ⟨y, hy, ys', hys, h⟩
      cases h
      exact .cons hy hys
    · rintro (_ | ⟨hy, hys⟩)
      exact ⟨_, hy, _, hys, rfl⟩

theorem body_object_eq_ok_iff {member body : Node} {members : List Node} :
    (∃ head : Head, (match body with
      | .block _ _ _ [.returnStmt _ value] => Except.ok value.head?
      | .block .. => fault origin member .scopeStatements
      | body => .ok (some body)) = .ok (some (.object head members))) ↔
      Returns body members := by
  constructor
  · rintro ⟨head, h⟩
    split at h
    · exact .statement (Except.ok.inj h)
    · cases h
    · cases h
      exact .concise
  · rintro (h | _)
    · exact ⟨_, congrArg Except.ok h⟩
    · exact ⟨_, rfl⟩

theorem scopeObject?_eq_ok_iff {member : Node} {members : List Node} :
    (∃ head, scopeObject? origin member = .ok (some (.object head members))) ↔
      MemberReturns member members := by
  constructor
  · rintro ⟨head, h⟩
    unfold scopeObject? at h
    dsimp only at h
    split at h
    · exact .method (body_object_eq_ok_iff.mp ⟨head, h⟩)
    · cases h
    · exact .function (body_object_eq_ok_iff.mp ⟨head, h⟩)
    · exact .arrow (body_object_eq_ok_iff.mp ⟨head, h⟩)
    · cases h
  · rintro (h | h | h) <;> exact body_object_eq_ok_iff.mpr h

theorem scopeNames_eq_ok_iff {member : Node} {names : List Text} :
    scopeNames origin invoked member = .ok names ↔ ListsScope member names := by
  unfold scopeNames ListsScope
  rw [bind_eq_ok]
  constructor
  · rintro ⟨object, hobject, h⟩
    split at h
    · exact ⟨_, scopeObject?_eq_ok_iff.mp ⟨_, hobject⟩,
        (mapM_eq_ok_iff fun _ _ => scopeName_eq_ok_iff).mp h⟩
    · cases h
  · rintro ⟨members, hmembers, h⟩
    obtain ⟨head, hobject⟩ := scopeObject?_eq_ok_iff.mpr hmembers
    exact ⟨_, hobject, (mapM_eq_ok_iff fun _ _ => scopeName_eq_ok_iff).mpr h⟩

theorem literal_value?_eq_some_iff {l : Literal} {v : Value} :
    l.value? = some v ↔ LiteralDenotes l v := by
  constructor
  · intro h
    cases l <;> cases h <;> constructor
  · rintro (_ | _ | _ | _) <;> rfl

theorem isScope_eq_true_iff {readsScope : Bool} {name : Text} :
    isScope readsScope name = true ↔ readsScope = true ∧ name = "scope" := by
  rw [isScope, Bool.and_eq_true, beq_iff_eq]

theorem scopeEntries_eq_ok_iff {member : Node} {rest : List Node} {before es : Entries}
    (hrest : ∀ before es : Entries, entries origin invoked true before rest = .ok es ↔
      ∃ pairs, MembersDenote true rest pairs ∧ es = before.overlay pairs) :
    (scopeNames origin invoked member >>= fun names =>
        entries origin invoked true (before.set "locals" (.list (names.map .str))) rest) = .ok es ↔
      ∃ names pairs, ListsScope member names ∧ MembersDenote true rest pairs ∧
        es = before.overlay (("locals", .list (names.map .str)) :: pairs) := by
  rw [bind_eq_ok]
  constructor
  · rintro ⟨names, hnames, h⟩
    obtain ⟨pairs, hpairs, rfl⟩ := (hrest _ es).mp h
    exact ⟨names, pairs, scopeNames_eq_ok_iff.mp hnames, hpairs, rfl⟩
  · rintro ⟨names, pairs, hnames, hpairs, rfl⟩
    exact ⟨names, scopeNames_eq_ok_iff.mpr hnames, (hrest _ _).mpr ⟨pairs, hpairs, rfl⟩⟩

section Parts

variable {head : Head} {members elements rest : List Node} {inner : Node} {readsScope : Bool}
  {before es : Entries} {v : Value}

theorem object_eq_ok_iff (hmembers : ∀ es, entries origin invoked false [] members = .ok es ↔
      ∃ pairs, MembersDenote false members pairs ∧ es = Entries.overlay [] pairs) :
    (entries origin invoked false [] members >>= fun es => pure (.mapping es)) = .ok v ↔
      Denotes (.object head members) v := by
  rw [bind_eq_ok]
  constructor
  · rintro ⟨es, hes, hv⟩
    obtain ⟨pairs, hpairs, rfl⟩ := (hmembers es).mp hes
    cases hv
    rw [Entries.overlay_nil]
    exact .object hpairs
  · rintro (_ | _ | hpairs)
    refine ⟨_, (hmembers _).mpr ⟨_, hpairs, rfl⟩, ?_⟩
    rw [Entries.overlay_nil]
    rfl

theorem array_eq_ok_iff
    (helements : ∀ vs, values origin invoked elements = .ok vs ↔ AllDenote elements vs) :
    (values origin invoked elements >>= fun vs => pure (.list vs)) = .ok v ↔
      Denotes (.array head elements) v := by
  rw [bind_eq_ok]
  constructor
  · rintro ⟨vs, hvs, hv⟩
    cases hv
    exact .array ((helements vs).mp hvs)
  · rintro (_ | hvs | _)
    exact ⟨_, (helements _).mpr hvs, rfl⟩

theorem property_eq_ok_iff {computed shorthand : Bool} {key : Node}
    (hinner : ∀ v, value origin invoked inner = .ok v ↔ Denotes inner v)
    (hrest : ∀ before es : Entries, entries origin invoked readsScope before rest = .ok es ↔
      ∃ pairs, MembersDenote readsScope rest pairs ∧ es = before.overlay pairs) :
    (memberName origin invoked (.property head computed shorthand key inner) computed key >>=
      fun name =>
        if isScope readsScope name then
          scopeNames origin invoked (.property head computed shorthand key inner) >>= fun names =>
            entries origin invoked readsScope (before.set "locals" (.list (names.map .str))) rest
        else value origin invoked inner >>= fun v =>
          entries origin invoked readsScope (before.set name v) rest) = .ok es ↔
      ∃ pairs,
        MembersDenote readsScope (.property head computed shorthand key inner :: rest) pairs ∧
          es = before.overlay pairs := by
  rw [bind_eq_ok]
  constructor
  · rintro ⟨name, hname, h⟩
    obtain ⟨rfl, hkey⟩ := memberName_eq_ok_iff.mp hname
    split at h
    · next hscope =>
      obtain ⟨rfl, rfl⟩ := isScope_eq_true_iff.mp hscope
      obtain ⟨names, pairs, hnames, hpairs, hes⟩ := (scopeEntries_eq_ok_iff hrest).mp h
      exact ⟨_, .scope (.property hkey) hnames hpairs, hes⟩
    · next hscope =>
      obtain ⟨v, hv, h⟩ := bind_eq_ok.mp h
      obtain ⟨pairs, hpairs, rfl⟩ := (hrest _ es).mp h
      refine ⟨_, .property hkey (fun hreads hname => ?_) ((hinner v).mp hv) hpairs, rfl⟩
      exact hscope (isScope_eq_true_iff.mpr ⟨hreads, hname⟩)
  · rintro ⟨pairs, (_ | ⟨hkey, hname, hv, hpairs⟩ | ⟨⟨hkey⟩, hnames, hpairs⟩), hes⟩
    · refine ⟨_, memberName_eq_ok_iff.mpr ⟨rfl, hkey⟩, ?_⟩
      rw [if_neg fun h => hname (isScope_eq_true_iff.mp h).1 (isScope_eq_true_iff.mp h).2]
      exact bind_eq_ok.mpr ⟨_, (hinner _).mpr hv, (hrest _ _).mpr ⟨_, hpairs, hes⟩⟩
    · refine ⟨_, memberName_eq_ok_iff.mpr ⟨rfl, hkey⟩, ?_⟩
      rw [if_pos (isScope_eq_true_iff.mpr ⟨rfl, rfl⟩)]
      exact (scopeEntries_eq_ok_iff hrest).mpr ⟨_, _, hnames, hpairs, hes⟩

/-- A method with the members behind it. Only the scope can be one. -/
theorem method_eq_ok_iff {computed isAsync : Bool} {role : MethodRole} {key body : Node}
    {params : List Node} {f : Text → StaticFault}
    (hrest : ∀ before es : Entries, entries origin invoked readsScope before rest = .ok es ↔
      ∃ pairs, MembersDenote readsScope rest pairs ∧ es = before.overlay pairs) :
    (memberName origin invoked (.objectMethod head computed role isAsync key params body) computed
        key >>= fun name =>
      if isScope readsScope name then
        scopeNames origin invoked (.objectMethod head computed role isAsync key params body) >>=
          fun names =>
            entries origin invoked readsScope (before.set "locals" (.list (names.map .str))) rest
      else fault origin (.objectMethod head computed role isAsync key params body) (f name)) =
        .ok es ↔
      ∃ pairs, MembersDenote readsScope
        (.objectMethod head computed role isAsync key params body :: rest) pairs ∧
          es = before.overlay pairs := by
  rw [bind_eq_ok]
  constructor
  · rintro ⟨name, hname, h⟩
    obtain ⟨rfl, hkey⟩ := memberName_eq_ok_iff.mp hname
    split at h
    · next hscope =>
      obtain ⟨rfl, rfl⟩ := isScope_eq_true_iff.mp hscope
      obtain ⟨names, pairs, hnames, hpairs, hes⟩ := (scopeEntries_eq_ok_iff hrest).mp h
      exact ⟨_, .scope (.method hkey) hnames hpairs, hes⟩
    · cases h
  · rintro ⟨pairs, (_ | _ | ⟨_ | hkey, hnames, hpairs⟩), hes⟩
    refine ⟨_, memberName_eq_ok_iff.mpr ⟨rfl, hkey⟩, ?_⟩
    rw [if_pos (isScope_eq_true_iff.mpr ⟨rfl, rfl⟩)]
    exact (scopeEntries_eq_ok_iff hrest).mpr ⟨_, _, hnames, hpairs, hes⟩

end Parts

mutual

theorem value_eq_ok_iff : ∀ (n : Node) (v : Value),
    value origin invoked n = .ok v ↔ Denotes n v
  | .mk head form slots, v => by
    unfold value
    split
    · next members h =>
      cases h
      exact object_eq_ok_iff fun es => entries_eq_ok_iff members false [] es
    · next elements h =>
      cases h
      exact array_eq_ok_iff fun vs => values_eq_ok_iff elements vs
    · next l h =>
      cases h
      constructor
      · intro h
        split at h
        · next v' hv' =>
          cases h
          exact .literal (literal_value?_eq_some_iff.mp hv')
        · cases h
      · rintro (hl | _ | _)
        rw [literal_value?_eq_some_iff.mpr hl]
    · next hobject harray hliteral =>
      refine ⟨nofun, ?_⟩
      rintro (_ | _ | _)
      · exact absurd rfl (hliteral _ _)
      · exact absurd rfl (harray _ _)
      · exact absurd rfl (hobject _ _)

theorem values_eq_ok_iff : ∀ (ns : List Node) (vs : List Value),
    values origin invoked ns = .ok vs ↔ AllDenote ns vs
  | [], vs => by
    unfold values
    constructor
    · intro h
      cases h
      exact .nil
    · rintro ⟨⟩
      rfl
  | n :: rest, vs => by
    unfold values
    split
    · next h => cases h
    · next head inner tail h =>
      cases h
      refine ⟨nofun, ?_⟩
      rintro (_ | ⟨hn, -⟩)
      cases hn
    · next h =>
      cases h
      simp only [bind_eq_ok]
      constructor
      · rintro ⟨v, hv, vs', hvs, h⟩
        cases h
        exact .cons ((value_eq_ok_iff n v).mp hv) ((values_eq_ok_iff rest vs').mp hvs)
      · rintro (_ | ⟨hn, hrest⟩)
        exact ⟨_, (value_eq_ok_iff n _).mpr hn, _, (values_eq_ok_iff rest _).mpr hrest, rfl⟩

theorem entries_eq_ok_iff : ∀ (members : List Node) (readsScope : Bool) (before es : Entries),
    entries origin invoked readsScope before members = .ok es ↔
      ∃ pairs, MembersDenote readsScope members pairs ∧ es = before.overlay pairs
  | [], readsScope, before, es => by
    unfold entries
    constructor
    · intro h
      cases h
      exact ⟨[], .nil, rfl⟩
    · rintro ⟨pairs, ⟨⟩, rfl⟩
      rfl
  | .mk head form slots :: rest, readsScope, before, es => by
    have hrest := entries_eq_ok_iff rest readsScope
    unfold entries
    split
    · next h => cases h
    · next head computed shorthand key inner tail h =>
      cases h
      exact property_eq_ok_iff (value_eq_ok_iff inner) hrest
    · next head computed role isAsync key params body tail h =>
      cases h
      exact method_eq_ok_iff hrest
    · next head inner tail h =>
      cases h
      refine ⟨nofun, ?_⟩
      rintro ⟨pairs, (_ | _ | ⟨⟨⟩⟩), -⟩
    · next hproperty hmethod _ heq =>
      cases heq
      refine ⟨nofun, ?_⟩
      rintro ⟨pairs, (_ | _ | ⟨_ | _⟩), -⟩
      · exact absurd rfl (hproperty _ _ _ _ _)
      · exact absurd rfl (hproperty _ _ _ _ _)
      · exact absurd rfl (hmethod _ _ _ _ _ _ _)

end

/-! ## What is not denoted is a fault -/

/-- Whether a result fails only with a fault of the options. -/
abbrev FailsStatically {α : Type} (origin : SourceUnit) (r : Except Error α) : Prop :=
  Fails r fun e => ∃ f l, e = .report ⟨.static f, l, origin⟩

section Faults

variable {α : Type}

theorem failsStatically_fault (n : Node) (f : StaticFault) :
    FailsStatically origin (fault origin n f : Except Error α) := .error ⟨f, n.loc, rfl⟩

end Faults

/-! ### Trees with the parts that their forms ask for -/

open Node (isPrintable arePrintableNodes)

theorem printable_of_mem {content : Content} (hcontent : content ≠ .source) {n : Node}
    {ns : List Node} (h : arePrintableNodes content ns = true) (hn : n ∈ ns) :
    content.allows n.form = true ∧ n.isPrintable = true := by
  induction ns with
  | nil => cases hn
  | cons m rest ih =>
    rw [arePrintableNodes, if_neg hcontent, Bool.and_eq_true, Bool.and_eq_true] at h
    rcases List.mem_cons.mp hn with rfl | hn
    · exact h.1
    · exact ih h.2 hn

section Slots

variable {s : Slot} {specs : List Slot} {slots : List (List Node)} {slot : List Node} {n : Node}

theorem printable_of_slots (h : Node.arePrintableSlots specs slots = true)
    (hspecs : ∀ s ∈ specs, s.content ≠ .source) (hslot : slot ∈ slots) (hn : n ∈ slot) :
    n.isPrintable = true := by
  induction specs generalizing slots with
  | nil =>
    cases slots with
    | nil => cases hslot
    | cons _ _ => cases h
  | cons s specs ih =>
    cases slots with
    | nil => cases h
    | cons first rest =>
      obtain ⟨hs, hspecs⟩ := List.forall_mem_cons.mp hspecs
      rw [Node.arePrintableSlots, Bool.and_eq_true, Bool.and_eq_true] at h
      rcases List.mem_cons.mp hslot with rfl | hslot
      · exact (printable_of_mem hs h.1.2 hn).2
      · exact ih h.2 hspecs hslot

theorem printable_of_slot (h : Node.arePrintableSlots specs slots = true)
    (hspecs : ∀ s ∈ specs, s.content ≠ .source) (hslot : [n] ∈ slots) : n.isPrintable = true :=
  printable_of_slots h hspecs hslot List.mem_cons_self

theorem slot_nodes (h : Node.arePrintableSlots (s :: specs) slots = true) :
    ∃ ns rest, slots = ns :: rest ∧ arePrintableNodes s.content ns = true ∧
      Node.arePrintableSlots specs rest = true := by
  cases slots with
  | nil => cases h
  | cons slot rest =>
    rw [Node.arePrintableSlots, Bool.and_eq_true, Bool.and_eq_true] at h
    exact ⟨slot, rest, rfl, h.1.2, h.2⟩

theorem slot_one (h : Node.arePrintableSlots (s :: specs) slots = true) (hs : s.arity = .one) :
    ∃ n rest, slots = [n] :: rest ∧ Node.arePrintableSlots specs rest = true := by
  cases slots with
  | nil => cases h
  | cons slot rest =>
    rw [Node.arePrintableSlots, hs, Bool.and_eq_true, Bool.and_eq_true] at h
    obtain ⟨n, rfl⟩ := List.length_eq_one_iff.mp (beq_iff_eq.mp h.1.1)
    exact ⟨n, rest, rfl, h.2⟩

theorem slots_nil (h : Node.arePrintableSlots [] slots = true) : slots = [] := by
  cases slots with
  | nil => rfl
  | cons _ _ => cases h

end Slots

/-- The members of an object are properties, methods and the members of other objects. -/
theorem member_cases {m : Node} (hform : Content.member.allows m.form = true)
    (h : m.isPrintable = true) :
    (∃ head computed shorthand key value, m = .property head computed shorthand key value) ∨
    (∃ head computed role isAsync key params body,
      m = .objectMethod head computed role isAsync key params body) ∨
    ∃ head value, m = .spread head value := by
  obtain ⟨head, form, slots⟩ := m
  cases form
  case property =>
    obtain ⟨key, _, rfl, hkey⟩ := slot_one h rfl
    obtain ⟨value, _, rfl, hvalue⟩ := slot_one hkey rfl
    obtain rfl := slots_nil hvalue
    exact .inl ⟨_, _, _, _, _, rfl⟩
  case objectMethod =>
    obtain ⟨key, _, rfl, hkey⟩ := slot_one h rfl
    obtain ⟨params, _, rfl, -, hparams⟩ := slot_nodes hkey
    obtain ⟨body, _, rfl, hbody⟩ := slot_one hparams rfl
    obtain rfl := slots_nil hbody
    exact .inr (.inl ⟨_, _, _, _, _, _, _, rfl⟩)
  case spread =>
    obtain ⟨value, _, rfl, hvalue⟩ := slot_one h rfl
    obtain rfl := slots_nil hvalue
    exact .inr (.inr ⟨_, _, rfl⟩)
  all_goals cases hform

theorem members_of_object {head : Head} {members : List Node}
    (h : (Node.object head members).isPrintable = true) :
    arePrintableNodes .member members = true := by
  obtain ⟨_, _, hslots, hmembers, -⟩ := slot_nodes h
  cases hslots
  exact hmembers

theorem elements_of_array {head : Head} {elements : List Node}
    (h : (Node.array head elements).isPrintable = true) :
    arePrintableNodes .expression elements = true := by
  obtain ⟨_, _, hslots, helements, -⟩ := slot_nodes h
  cases hslots
  exact helements

theorem value_of_property {head : Head} {computed shorthand : Bool} {key value : Node}
    (h : (Node.property head computed shorthand key value).isPrintable = true) :
    value.isPrintable = true :=
  printable_of_slot h (by simp [Form.slots, Slot.one]) (by simp)

theorem members_of_returns {body : Node} {members : List Node} (h : Returns body members)
    (hbody : body.isPrintable = true) : arePrintableNodes .member members = true := by
  obtain @⟨_, _, _, _, _, value, _, hvalue⟩ | _ := h
  · have hreturn := printable_of_slots hbody (by simp [Form.slots, Slot.many, Slot.anchored])
      List.mem_cons_self List.mem_cons_self
    have hobject := printable_of_slots hreturn (by simp [Form.slots, Slot.maybe])
      List.mem_cons_self (List.mem_of_head? hvalue)
    exact members_of_object hobject
  · exact members_of_object hbody

theorem members_of_memberReturns {member : Node} {members : List Node}
    (h : MemberReturns member members) (hmember : member.isPrintable = true) :
    arePrintableNodes .member members = true := by
  obtain h | h | h := h
  · exact members_of_returns h (printable_of_slot hmember
      (by simp [Form.slots, Slot.one, Slot.many]) (by simp))
  · exact members_of_returns h (printable_of_slot (value_of_property hmember)
      (by simp [Form.slots, Slot.one, Slot.maybe, Slot.many, Slot.silent]) (by simp))
  · exact members_of_returns h (printable_of_slot (value_of_property hmember)
      (by simp [Form.slots, Slot.one, Slot.many]) (by simp))

/-! ### Faults -/

theorem scopeName_failsStatically {member m : Node} (hform : Content.member.allows m.form = true)
    (h : m.isPrintable = true) : FailsStatically origin (scopeName origin invoked member m) := by
  obtain ⟨_, _, _, _, _, rfl⟩ | ⟨_, _, _, _, _, _, _, rfl⟩ | ⟨_, _, rfl⟩ :=
    member_cases hform h
  · unfold scopeName
    dsimp only
    split
    · exact failsStatically_fault _ _
    · split
      · exact .ok _
      · exact failsStatically_fault _ _
  · exact failsStatically_fault _ _
  · exact failsStatically_fault _ _

theorem scopeObject?_failsStatically (member : Node) :
    FailsStatically origin (scopeObject? origin member) := by
  unfold scopeObject?
  dsimp only
  repeat' split
  all_goals first
    | exact .ok _
    | exact failsStatically_fault _ _

theorem scopeNames_failsStatically {member : Node} (h : member.isPrintable = true) :
    FailsStatically origin (scopeNames origin invoked member) := by
  unfold scopeNames
  refine (scopeObject?_failsStatically member).bind fun object hobject => ?_
  split
  · have hreturns := scopeObject?_eq_ok_iff.mp ⟨_, hobject⟩
    have hmembers := members_of_memberReturns hreturns h
    refine Fails.mapM fun m hm => ?_
    obtain ⟨hform, hm⟩ := printable_of_mem (by decide) hmembers hm
    exact scopeName_failsStatically hform hm
  · exact failsStatically_fault _ _

theorem memberName_failsStatically (member : Node) (computed : Bool) (key : Node) :
    FailsStatically origin (memberName origin invoked member computed key) := by
  unfold memberName
  split
  · exact .ok _
  · exact failsStatically_fault _ _

mutual

theorem value_failsStatically : ∀ n : Node, n.isPrintable = true →
    FailsStatically origin (value origin invoked n)
  | .mk head form slots, hn => by
    unfold value
    split
    · next members h =>
      cases h
      exact (entries_failsStatically members (members_of_object hn) false []).bind fun _ _ =>
        .ok _
    · next elements h =>
      cases h
      exact (values_failsStatically elements (elements_of_array hn)).bind fun _ _ =>
        .ok _
    · split
      · exact .ok _
      · exact failsStatically_fault _ _
    · exact failsStatically_fault _ _

theorem values_failsStatically : ∀ ns : List Node, arePrintableNodes .expression ns = true →
    FailsStatically origin (values origin invoked ns)
  | [], _ => .ok []
  | n :: rest, hns => by
    have hn := (printable_of_mem (by decide) hns List.mem_cons_self).2
    unfold values
    split
    · exact .ok _
    · exact failsStatically_fault _ _
    · next h =>
      cases h
      refine (value_failsStatically n hn).bind fun v _ => ?_
      rw [arePrintableNodes, Bool.and_eq_true] at hns
      exact (values_failsStatically rest hns.2).bind fun _ _ => .ok _

theorem entries_failsStatically : ∀ members : List Node,
    arePrintableNodes .member members = true → ∀ (readsScope : Bool) (before : Entries),
    FailsStatically origin (entries origin invoked readsScope before members)
  | [], _, _, _ => .ok _
  | .mk head form slots :: rest, hmembers, readsScope, before => by
    obtain ⟨hform, hm⟩ := printable_of_mem (by decide) hmembers List.mem_cons_self
    rw [arePrintableNodes, Bool.and_eq_true] at hmembers
    have hrest := entries_failsStatically rest hmembers.2
    unfold entries
    split
    · exact .ok _
    · next h =>
      cases h
      refine (memberName_failsStatically _ _ _).bind fun name _ => ?_
      split
      · exact (scopeNames_failsStatically hm).bind fun names _ => hrest _ _
      · exact (value_failsStatically _ (value_of_property hm)).bind fun v _ => hrest _ _
    · next h =>
      cases h
      refine (memberName_failsStatically _ _ _).bind fun name _ => ?_
      split
      · exact (scopeNames_failsStatically hm).bind fun names _ => hrest _ _
      · exact failsStatically_fault _ _
    · exact failsStatically_fault _ _
    · next hproperty hmethod hspread heq =>
      cases heq
      obtain ⟨_, _, _, _, _, heq⟩ | ⟨_, _, _, _, _, _, _, heq⟩ | ⟨_, _, heq⟩ :=
        member_cases hform hm
      · exact absurd heq (hproperty _ _ _ _ _)
      · exact absurd heq (hmethod _ _ _ _ _ _ _)
      · exact absurd heq (hspread _ _)

end

/-! ## Main result -/

/-- A result is what is denoted, or a fault of the options where nothing is. -/
structure Evaluates {α : Type} (origin : SourceUnit) (denotes : α → Prop) (r : Except Error α) :
    Prop where
  gives : ∀ a, r = .ok a ↔ denotes a
  refuses : (∀ a, ¬ denotes a) → ∃ f l, r = .error (.report ⟨.static f, l, origin⟩)

theorem evaluates_of_gives {α : Type} {denotes : α → Prop} {r : Except Error α}
    (hgives : ∀ a, r = .ok a ↔ denotes a) (hfails : FailsStatically origin r) :
    Evaluates origin denotes r := by
  refine ⟨hgives, fun hnone => ?_⟩
  cases hr : r with
  | ok a => exact absurd ((hgives a).mp hr) (hnone a)
  | error e =>
    obtain ⟨f, l, rfl⟩ := hfails e hr
    exact ⟨f, l, rfl⟩

/-- The evaluator gives what an expression denotes. The options of an object are the mapping of the
pairs that its members denote, with a scope or without. -/
theorem evaluates_denoted (origin : SourceUnit) (invoked : Text) (n : Node)
    (hn : n.isPrintable = true) :
    Evaluates origin (Denotes n) (value origin invoked n) ∧
      ∀ (readsScope : Bool) (head : Head) (members : List Node), n = .object head members →
        Evaluates origin (fun es => ∃ pairs, MembersDenote readsScope members pairs ∧
          es = pairs.latest) (options origin invoked readsScope n) := by
  refine ⟨evaluates_of_gives (value_eq_ok_iff n) (value_failsStatically n hn), ?_⟩
  rintro readsScope head members rfl
  refine evaluates_of_gives (fun es => ?_)
    (entries_failsStatically members (members_of_object hn) readsScope [])
  rw [options, entries_eq_ok_iff]
  simp only [Entries.overlay_nil]

/-- An arrow function that lists `b`, `a` and `b`. -/
def listingArrow : Node :=
  let listed (name : Text) : Node :=
    .property .fresh false true (.name .fresh name) (.name .fresh name)
  .arrow .fresh false [] (.object .fresh [listed "b", listed "a", listed "b"])

/-- Options with a scope, a key that is given twice, and a list. -/
def listingOptions : List Node :=
  let option (name : Text) (value : Node) : Node :=
    .property .fresh false false (.literal .fresh (.str name)) value
  [option "x" (.literal .fresh (.int 1)), option "scope" listingArrow,
    option "x" (.array .fresh [.literal .fresh (.bool true)])]

theorem evaluates_denoted_listing :
    (Node.object .fresh listingOptions).isPrintable = true ∧
      options ⟨none, none⟩ "hbs" true (.object .fresh listingOptions) =
        .ok [("x", .list [.bool true]), ("locals", .list [.str "b", .str "a", .str "b"])] := by
  have hprintable : (Node.object .fresh listingOptions).isPrintable = true := by decide
  have hnames : ListsScope
      (.property .fresh false false (.literal .fresh (.str "scope")) listingArrow)
      ["b", "a", "b"] :=
    ⟨_, .arrow .concise,
      .cons (.property .name) (.cons (.property .name) (.cons (.property .name) .nil))⟩
  have hpairs : MembersDenote true listingOptions
      [("x", .int 1), ("locals", .list [.str "b", .str "a", .str "b"]),
        ("x", .list [.bool true])] :=
    .property .string (by decide) (.literal .int) <| .scope (.property .string) hnames <|
      .property .string (by decide) (.array (.cons (.literal .bool) .nil)) .nil
  obtain ⟨-, hoptions⟩ := evaluates_denoted ⟨none, none⟩ "hbs" _ hprintable
  exact ⟨hprintable, ((hoptions true _ _ rfl).gives _).mpr ⟨_, hpairs, rfl⟩⟩

end Static

end InlineTemplates
