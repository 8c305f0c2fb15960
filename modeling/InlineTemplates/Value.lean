import InlineTemplates.Number.Double
import InlineTemplates.Text

/-!
# Static values

The values of template options and of configurations: what a literal of the source or a JSON
document can say.
-/

namespace InlineTemplates

/-- A static value. A mapping keeps its keys in the order in which they were first given. -/
inductive Value where
  | str (t : Text)
  | int (n : Int)
  | float (d : Double)
  | bool (b : Bool)
  | null
  | list (items : List Value)
  | mapping (entries : List (Text × Value))
deriving Inhabited

/-- The entries of a mapping. -/
abbrev Entries := List (Text × Value)

namespace Value

/-- Whether a flag with this value is on: not for null, false, zero and what is empty. -/
def isOn : Value → Bool
  | str t => !t.isEmpty
  | int n => n != 0
  | float d => !d.isZero
  | bool b => b
  | null => false
  | list items => !items.isEmpty
  | mapping entries => !entries.isEmpty

/-- The text of a string value. -/
def text? : Value → Option Text
  | str t => some t
  | _ => none

/-- What a value holds one after another: its items, its characters or its keys. -/
def items? : Value → Option (List Value)
  | list items => some items
  | str t => some (t.map fun c => str [c])
  | mapping entries => some (entries.map fun e => str e.1)
  | _ => none

end Value

namespace Entries

/-- The value of a key. -/
def get? (entries : Entries) (key : Text) : Option Value := entries.lookup key

def contains (entries : Entries) (key : Text) : Bool := entries.any (·.1 == key)

/-- The entries with `key` set: in its place if it is there, behind all others if not. -/
def set (entries : Entries) (key : Text) (value : Value) : Entries :=
  if entries.contains key then entries.map fun e => if e.1 = key then (key, value) else e
  else entries ++ [(key, value)]

/-- The first entries, overridden and extended by the second. -/
def overlay (entries others : Entries) : Entries :=
  others.foldl (fun es e => es.set e.1 e.2) entries

def keys (entries : Entries) : List Text := entries.map (·.1)

@[simp]
theorem get?_nil (key : Text) : get? [] key = none := rfl

theorem get?_cons (e : Text × Value) (rest : Entries) (key : Text) :
    get? (e :: rest) key = if e.1 = key then some e.2 else get? rest key := by
  obtain ⟨k, v⟩ := e
  by_cases h : key = k
  · simp [get?, h]
  · have h' : (key == k) = false := by simpa using h
    simp [get?, List.lookup_cons, h', Ne.symm h]

theorem get?_append (entries others : Entries) (key : Text) :
    get? (entries ++ others) key = (entries.get? key).or (others.get? key) := by
  induction entries with
  | nil => simp
  | cons e rest ih =>
    by_cases h : e.1 = key <;> simp [get?_cons, ih, h]

theorem contains_eq_isSome_get? (entries : Entries) (key : Text) :
    entries.contains key = (entries.get? key).isSome := by
  induction entries with
  | nil => rfl
  | cons e rest ih =>
    have h : contains (e :: rest) key = (e.1 == key || contains rest key) := rfl
    by_cases he : e.1 = key <;> simp [h, get?_cons, ih, he]

theorem get?_map (entries : Entries) (key key' : Text) (value : Value) :
    get? (entries.map fun e => if e.1 = key then (key, value) else e) key' =
      if key = key' then (entries.get? key).map fun _ => value else entries.get? key' := by
  induction entries with
  | nil => simp
  | cons e rest ih =>
    by_cases he : e.1 = key
    · by_cases hk : key = key' <;> simp [get?_cons, ih, he, hk]
    · by_cases hk : key = key'
      · subst hk
        simp [get?_cons, ih, he]
      · simp [get?_cons, ih, he, hk]

theorem get?_set (entries : Entries) (key key' : Text) (value : Value) :
    (entries.set key value).get? key' =
      if key = key' then some value else entries.get? key' := by
  have h := contains_eq_isSome_get? entries key
  cases hg : entries.get? key with
  | none => by_cases hk : key = key' <;> simp_all [set, get?_append, get?_cons]
  | some v => simp [set, h, hg, get?_map]

theorem keys_set (entries : Entries) (key : Text) (value : Value) :
    (entries.set key value).keys =
      if entries.contains key then entries.keys else entries.keys ++ [key] := by
  unfold set
  split
  · simp only [keys, List.map_map]
    apply List.map_congr_left
    intro e _
    by_cases he : e.1 = key <;> simp [he]
  · simp [keys]

end Entries

end InlineTemplates
