import InlineTemplates.Program.Traversal
import InlineTemplates.Template.Bindings
import InlineTemplates.Template.Static

/-!
# Sites of templates

A template stands where a bound name tags a template literal or is called with a string. The site
becomes a call of the factory with the compiled template. A site that the options of its binding
forbid, or that holds more than a text and static options, stops the pass.
-/

namespace InlineTemplates

/-- A template that was handed to the compiler, with its options. -/
structure Compilation where
  template : Text
  options : Entries
deriving Inhabited

namespace Sites

/-- What the pass knows about the program that it works on. -/
structure Context where
  compiler : Compiler
  options : Options
  registry : Registry
  origin : SourceUnit

/-- What changes from site to site. The compilations are the latest first. -/
structure Memory where
  scope : Scope
  imports : Imports
  compilations : List Compilation

/-- The text of a template and the options that it is compiled with. -/
abbrev Content := Text × Entries

variable (c : Context)

/-- A fault at a site. -/
def fault {α : Type} (site : Node) (f : UsageFault) : Except Error α :=
  .error (.report ⟨.usage f, site.loc, c.origin⟩)

/-- The text of the chunks of a template literal. -/
def chunkText (quasis : List Node) : Text :=
  quasis.flatMap fun
    | .quasi _ _ cooked => cooked
    | _ => []

/-- The content of a tagged template. -/
def taggedContent (site : Node) (b : Binding) (quasis expressions : List Node) :
    Except Error Content :=
  if b.options.tagDisabled.isOn then fault c site (.tagDisabled b.localName)
  else if !expressions.isEmpty then fault c site .tagPlaceholders
  else
    .ok (chunkText quasis,
      [("isProduction", c.options.isProduction), ("locals", .null), ("strictMode", .bool false)])

/-- The text that the first argument of a call holds. -/
def argumentText (site : Node) (b : Binding) : Option Node → Except Error Text
  | some (.literal _ (.str t)) => .ok t
  | some (.template _ quasis expressions) =>
    if expressions.isEmpty then .ok (chunkText quasis) else fault c site .callPlaceholders
  | some (.tagged ..) => fault c site (.nestedTag b.localName)
  | _ => fault c site .noTemplate

/-- The options that the second argument of a call holds. -/
def argumentOptions (site : Node) (b : Binding) : Option Node → Except Error Entries
  | none => .ok []
  | some (.object head members) =>
    Static.options c.origin b.localName true (.object head members)
  | some _ => fault c site .tooManyArguments

/-- The content of a call. The options are read before the arguments are counted. -/
def callContent (site : Node) (b : Binding) (args : List Node) : Except Error Content := do
  if b.options.callDisabled.isOn then fault c site (.callDisabled b.localName)
  else
    let template ← argumentText c site b args[0]?
    let options ← argumentOptions c site b args[1]?
    if 2 < args.length then fault c site .tooManyArguments
    else if options.contains "isProduction" then return (template, options)
    else return (template, options.set "isProduction" c.options.isProduction)

/-- The content of a node, if it is a site. -/
def content? (n : Node) : Option (Except Error Content) :=
  match n with
  | .tagged _ (.name _ ident) (.template _ quasis expressions) =>
    (c.registry.lookup ident).map fun b => taggedContent c n b quasis expressions
  | .call _ _ (.name _ ident) args =>
    (c.registry.lookup ident).map fun b => callContent c n b args
  | _ => none

/-- A name for the factory, and the import to put in front of the program. -/
def factory (m : Memory) (statements : List Node) : Imports.Grant :=
  let real := c.options.resolveTarget Compiler.factoryExport Compiler.factoryModule
  m.imports.request ⟨Compiler.factoryExport, Compiler.factoryModule⟩ real statements m.scope

/-- Puts what their compilation gives in the place of sites. -/
def visitor : Traversal.Visitor Memory := fun v => do
  match content? c v.node with
  | none => return []
  | some content =>
    let (template, options) ← content
    let grant := factory c (← get) v.body.statements
    let compilation : Compilation := ⟨template, Compiler.optionsFor template options⟩
    modify fun m => ⟨grant.scope, grant.imports, compilation :: m.compilations⟩
    let compiled ← Compiler.compile c.compiler template (.name .fresh grant.imported.name) options
      v.node c.origin
    return grant.declaration.toList.map .insertFront ++ [.replace (compiled.withLoc v.node.loc)]

end Sites

end InlineTemplates
