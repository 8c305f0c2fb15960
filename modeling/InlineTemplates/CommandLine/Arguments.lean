import InlineTemplates.CommandLine.FileName
import InlineTemplates.Text.DecimalDigit

/-!
# Arguments of the command

Options may come in any order, before the source or behind it. A long option may be shortened as
long as it stays unique, and takes its value behind `=` or as the next argument. Short options may
be run together, and the last one may have its value attached. Behind `--` there are no options; in
the place of an attached value it leaves the option without one.
-/

namespace InlineTemplates

namespace CommandLine

/-- What an option sets. -/
inductive Switch where
  | help | compiler | config | production | module | modulePath | output | json | verbose
deriving DecidableEq, Inhabited

namespace Switch

/-- Whether the option has a value. -/
def takesValue : Switch → Bool
  | compiler | config | module | modulePath | output => true
  | help | production | json | verbose => false

/-- The options by name. -/
def names : List (Text × Switch) := [
  ("-h", help), ("--help", help), ("-c", compiler), ("--template-compiler", compiler),
  ("--config", config), ("--production", production), ("-m", module), ("--module", module),
  ("--module-path", modulePath), ("-o", output), ("--output", output), ("--json", json),
  ("-v", verbose), ("--verbose", verbose)]

end Switch

/-- Why there is nothing to do: help was asked for, or the arguments are wrong. -/
inductive Stop where
  | help
  | usage
deriving DecidableEq, Inhabited

/-! ## Kinds of arguments -/

/-- An argument by its form. -/
inductive Argument where
  | value (t : Text)
  /-- The sign `--`, behind which there are only values. -/
  | marker
  /-- A short option, perhaps with a value or more options attached. -/
  | short (s : Switch) (attached : Option Text)
  /-- A long option, perhaps with a value behind `=`. -/
  | long (s : Switch) (attached : Option Text)
  | unknown
deriving DecidableEq, Inhabited

namespace Argument

/-- Whether a text is a negative number, perhaps with a line break behind it. No option looks like
one. -/
def isNegativeNumber (t : Text) : Bool :=
  let t := if t.getLast? = some (CodePoint.scalar '\n') then t.dropLast else t
  let whole := (t.drop 1).takeWhile CodePoint.isDigit
  let rest := (t.drop 1).drop whole.length
  let decimals := rest.drop 1
  (!whole.isEmpty && rest.isEmpty) ||
    (rest.head? == some '.' && !decimals.isEmpty && decimals.all CodePoint.isDigit)

/-- Whether an argument starts as a long option does. -/
def isLong (t : Text) : Bool := (Text.ofString "--").isPrefixOf t

/-- The form of an argument that does not name an option in full. -/
def ofOther (t : Text) : Argument :=
  if isNegativeNumber t || t.contains ' ' then value t else unknown

/-- The form of an argument that starts with two dashes. The name may be cut off as long as only one
option starts like that. -/
def ofLong (t : Text) : Except Stop Argument :=
  let (name, attached) := t.splitAt? '='
  match Switch.names.lookup name, Switch.names.filter fun e => name.isPrefixOf e.1 with
  | some s, _ => .ok (.long s attached)
  | none, [(_, s)] => .ok (.long s attached)
  | none, _ :: _ => .error .usage
  | none, [] => .ok (ofOther t)

/-- The form of an argument that starts with one dash. -/
def ofShort (t : Text) : Argument :=
  let (name, attached) := t.splitAt? '='
  match Switch.names.lookup name, Switch.names.lookup (t.take 2) with
  | some s, _ => .short s attached
  | none, some s => .short s (some (t.drop 2))
  | none, none => if t.length = 1 then .value t else ofOther t

/-- The form of an argument in front of a marker. -/
def ofText (t : Text) : Except Stop Argument :=
  if isLong t then ofLong t
  else if t.head? = some '-' then .ok (ofShort t)
  else .ok (.value t)

/-- The forms of all arguments. -/
def ofTexts : List Text → Except Stop (List Argument)
  | [] => .ok []
  | t :: rest =>
    if t = "--" then .ok (.marker :: rest.map .value)
    else do
      let a ← ofText t
      return a :: (← ofTexts rest)

end Argument

/-! ## What the arguments ask for -/

/-- What a run of the command is asked to do. An option that is given without its value sets
nothing, or an empty place in a list. -/
structure Invocation where
  source : Option Text
  compiler : Option Text
  /-- The file of options, if it is asked for. -/
  config : Option (Option Text)
  production : Bool
  /-- Modules with the exports that make templates. -/
  modules : List (Option (Text × Text))
  modulePaths : List (Option Text)
  /-- The file for the code, if it is asked for. -/
  output : Option (Option Text)
  json : Bool
  verbose : Bool
  /-- Whether there are arguments that nothing takes. -/
  hasRest : Bool
deriving Inhabited

namespace Invocation

/-- A run about which nothing is known yet. -/
def empty : Invocation := ⟨none, none, none, false, [], [], none, false, false, false⟩

/-- A module, with an export behind `=` or its default export. -/
def module? (t : Text) : Except Stop (Text × Text) :=
  match t.splitAt? '=' with
  | ([], _) => .error .usage
  | (_, some []) => .error .usage
  | (specifier, exported) => .ok (specifier, exported.getD "default")

/-- The run with an option set. -/
def set (i : Invocation) (s : Switch) (value : Option Text) : Except Stop Invocation :=
  match s with
  | .help => .error .help
  | .compiler => .ok { i with compiler := value }
  | .config => .ok { i with config := some (value.map FileName.normalized) }
  | .production => .ok { i with production := true }
  | .module => do return { i with modules := i.modules ++ [← value.mapM module?] }
  | .modulePath => .ok { i with modulePaths := i.modulePaths ++ [value] }
  | .output => .ok { i with output := some (value.map FileName.normalized) }
  | .json => .ok { i with json := true }
  | .verbose => .ok { i with verbose := true }

/-- Options with what is attached to each of them. -/
abbrev Settings := List (Switch × Option Text)

/-- A single option. Only one that takes a value can have something attached. -/
def alone (s : Switch) (attached : Option Text) : Except Stop Settings :=
  if attached.isSome && !s.takesValue then .error .usage else .ok [(s, attached)]

/-- Short options that are run together: `s` and those behind it. What stands behind an option that
takes a value is its value. -/
def together (s : Switch) : Text → Except Stop Settings
  | [] => alone s none
  | c :: rest =>
    if s.takesValue then alone s (some (c :: rest))
    else
      match Switch.names.lookup [CodePoint.scalar '-', c] with
      | none => .error .usage
      | some s' => do return (s, none) :: (← together s' rest)

/-- The options of an argument that starts with the short option `s`. -/
def short (s : Switch) (attached : Option Text) : Except Stop Settings :=
  match attached with
  | some (c :: rest) => together s (c :: rest)
  | attached => alone s attached

/-- Options with their values. One that is not attached is the argument behind them. -/
def values : Settings → List Argument → Except Stop (Settings × List Argument)
  | [], args => .ok ([], args)
  | (s, attached) :: rest, args =>
    match s.takesValue, attached, args with
    | false, _, args => do
      let (more, args) ← values rest args
      return ((s, none) :: more, args)
    | true, some v, args => do
      let (more, args) ← values rest args
      return ((s, if v = "--" then none else some v) :: more, args)
    | true, none, .value v :: args => do
      let (more, args) ← values rest args
      return ((s, some v) :: more, args)
    | true, none, _ => .error .usage

/-- Takes a value that belongs to no option. The first one is the source. -/
def takeValue (i : Invocation) (t : Text) : Invocation :=
  if i.source.isNone then { i with source := some (FileName.normalized t) }
  else { i with hasRest := true }

/-- The run with options set, and the arguments that their values leave. -/
def setAll (i : Invocation) (settings : Settings) (args : List Argument) :
    Except Stop (Invocation × List Argument) := do
  let (options, args) ← values settings args
  return (← options.foldlM (fun i e => i.set e.1 e.2) i, args)

/-- Takes arguments. A marker belongs to the source next to it, and to nothing without one. -/
def takeAll : Nat → Invocation → List Argument → Except Stop Invocation
  | 0, i, _ => .ok i
  | _, i, [] => .ok i
  | n + 1, i, .value t :: .marker :: rest =>
    takeAll n (if i.source.isNone then i.takeValue t else { i with hasRest := true }) rest
  | n + 1, i, .value t :: rest => takeAll n (i.takeValue t) rest
  | n + 1, i, .marker :: .value t :: rest =>
    takeAll n (if i.source.isNone then i.takeValue t else { i with hasRest := true }) rest
  | n + 1, i, .marker :: rest => takeAll n { i with hasRest := true } rest
  | n + 1, i, .unknown :: rest => takeAll n { i with hasRest := true } rest
  | n + 1, i, .long s attached :: rest => do
    let (i, rest) ← i.setAll (← alone s attached) rest
    takeAll n i rest
  | n + 1, i, .short s attached :: rest => do
    let (i, rest) ← i.setAll (← short s attached) rest
    takeAll n i rest

/-- What the arguments ask for. There has to be a source, and nothing may be left over. -/
def ofTexts (args : List Text) : Except Stop Invocation := do
  let args ← Argument.ofTexts args
  let i ← takeAll args.length empty args
  if i.hasRest || i.source.isNone then throw .usage else return i

end Invocation

end CommandLine

end InlineTemplates
