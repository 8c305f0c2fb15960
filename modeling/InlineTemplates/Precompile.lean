import InlineTemplates.Node.Print
import InlineTemplates.Template.Sites

/-!
# Compiling the templates of a program

The bindings of templates are resolved, and then their sites are compiled. A program without such
bindings stays as it is, apart from its layout.
-/

namespace InlineTemplates

/-- The compiler with the options of the pass. It can be used for any number of programs. -/
structure Precompiler where
  options : Options
  compiler : Compiler
  /-- The modules whose exports are bound. -/
  modules : List (Text × ModuleOptions)

namespace Precompiler

/-- The pass that the options describe. `known` are the compilers that can be named, and `given` is
one that comes with the options. -/
def ofOptions (known : List (Text × CompilerModule)) (given : Option Compiler) (o : Options) :
    Except Error Precompiler := do
  return ⟨o, ← o.compiler known given, ← o.configuredModules⟩

/-- What the pass gives, and what it handed to the compiler on the way. -/
structure Outcome (α : Type) where
  result : Except Error α
  compilations : List Compilation

/-- The outcome of a failure in front of the first compilation. -/
def Outcome.failed {α : Type} (e : Error) : Outcome α := ⟨.error e, []⟩

/-- The outcome with its result as a text. -/
def Outcome.printed (o : Outcome Node) : Outcome Text :=
  ⟨o.result.map Node.programText, o.compilations⟩

/-- Compiles the sites of a program that comes from `origin`. -/
def transform (p : Precompiler) (program : Node) (origin : SourceUnit) : Outcome Node :=
  let s := Bindings.resolve p.modules program (Scope.ofProgram program)
  if s.registry.isEmpty then ⟨.ok s.program, []⟩
  else
    let (result, memory) :=
      Traversal.run (Sites.visitor ⟨p.compiler, p.options, s.registry, origin⟩)
        ⟨s.scope, [], []⟩ s.program
    ⟨result, memory.compilations.reverse⟩

/-- Compiles the sites of a source. Without `showsSource` the faults of the pass have no code
frames. -/
def transformSource (p : Precompiler) (source : Text) (file : Option Text) (showsSource : Bool) :
    Outcome Text :=
  match Node.readProgram source file with
  | .error e => .failed e
  | .ok program =>
    (p.transform program ⟨if showsSource then some source else none, file⟩).printed

end Precompiler

/-- Compiles the sites of one source with options given as a mapping. The options are read first,
then the source, and then the compiler is looked for. -/
def precompile (known : List (Text × CompilerModule)) (given : Option Compiler) (entries : Entries)
    (source : Text) (file : Option Text) : Precompiler.Outcome Text :=
  let prepared : Except Error (Precompiler × Node) := do
    let o ← Options.ofEntries entries
    let program ← Node.readProgram source file
    return (← Precompiler.ofOptions known given o, program)
  match prepared with
  | .error e => .failed e
  | .ok (p, program) => (p.transform program ⟨some source, file⟩).printed

end InlineTemplates
