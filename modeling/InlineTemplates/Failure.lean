import InlineTemplates.Diagnostic
import InlineTemplates.Location
import InlineTemplates.Text.Quoted

/-!
# What can go wrong

Every failure has a cause, and each cause has one message. A report adds the place: where in which
source of which file.
-/

namespace InlineTemplates

/-- The part of the work that a failure comes from. -/
inductive Phase where
  | parser
  | config
  | staticEval
  | usage
  | compile
  | precompile
deriving DecidableEq, Inhabited

/-- The phase as diagnostics name it. -/
def Phase.label : Phase → Text
  | .parser => "parser"
  | .config => "config"
  | .staticEval => "static-eval"
  | .usage => "usage"
  | .compile => "compile"
  | .precompile => "precompile"

/-- A source that is not a module of the supported language. -/
inductive ParseFault where
  | unexpectedCharacter (c : CodePoint)
  | unexpectedToken (text : Text)
  | unexpectedEnd
  /-- An escape, without its backslash, for a code point that does not exist. -/
  | codePointOutOfBounds (escape : Text)
deriving DecidableEq, Inhabited

/-- A configuration that contradicts itself, is incomplete or cannot be read. -/
inductive ConfigFault where
  | unknownOptions (names : List Text)
  | modulesNotMapping
  | unknownModuleOptions (specifier : Text) (names : List Text)
  | moduleWithoutExport (specifier : Text)
  | moduleNotOptions (specifier : Text)
  | overridesNotMapping (module : Text)
  | overrideNotPair (module exported : Text)
  | modulePathsNotList
  | twoCompilers
  | compilerNotFunction
  | noCompiler
  | compilerFileNotFound (path : Text)
  /-- No module has the name of the compiler; `missing` is the first part of it that is not
  there. -/
  | compilerNotImportable (path missing : Text)
  /-- The name of the compiler goes on behind a module that holds no modules; `missing` is the name
  of the first one below `parent`. -/
  | compilerBelowModule (path missing parent : Text)
  | compilerWithoutFunction (path : Text)
  | unreadable (file reason : Text)
  | notAnObject
deriving DecidableEq, Inhabited

/-- Template options that are not static. -/
inductive StaticFault where
  | notStatic (invoked described : Text)
  | spreadElement
  | spreadProperty (invoked : Text)
  | dynamicName (invoked : Text)
  | method (invoked property : Text)
  | scopeObject
  | scopeStatements
  | scopeNotObject (invoked : Text)
  | scopeSpread (invoked : Text)
  | scopeMethod (invoked : Text)
  | scopeDynamicName (invoked : Text)
  | scopeNotReference (invoked property : Text)
deriving DecidableEq, Inhabited

/-- A template binding used where its policy or the pass forbids it. -/
inductive UsageFault where
  | tagDisabled (name : Text)
  | callDisabled (name : Text)
  | tagPlaceholders
  | callPlaceholders
  | nestedTag (name : Text)
  | noTemplate
  | tooManyArguments
deriving DecidableEq, Inhabited

/-- Why the work on a unit stopped. -/
inductive Cause where
  | parse (fault : ParseFault)
  | config (fault : ConfigFault)
  | static (fault : StaticFault)
  | usage (fault : UsageFault)
  /-- The template compiler refused a template. -/
  | rejected (message : Text)
  /-- A message that a caller puts at a node. -/
  | noted (phase : Phase) (message : Text)
deriving DecidableEq, Inhabited

/-! ## Messages -/

/-- A name in the quotes that messages put around code. -/
def inCode (t : Text) : Text := "`" ++ t ++ "`"

def ParseFault.message : ParseFault → Text
  | unexpectedCharacter c => "unexpected character " ++ Text.quoted [c]
  | unexpectedToken t => "unexpected token " ++ t.quoted
  | unexpectedEnd => "unexpected end of input"
  | codePointOutOfBounds e => "code point out of bounds in escape \\" ++ e

def ConfigFault.message : ConfigFault → Text
  | unknownOptions names => "unknown option(s): " ++ Text.join ", " names
  | modulesNotMapping => "`modules` must be a mapping of module specifier to options"
  | unknownModuleOptions s names =>
    "unknown option(s) for module " ++ inCode s ++ ": " ++ Text.join ", " names
  | moduleWithoutExport s => "module " ++ inCode s ++ " needs an `export` name"
  | moduleNotOptions s =>
    "module " ++ inCode s ++ " must map to an export name or an options object"
  | overridesNotMapping m => "`moduleOverrides` entry for " ++ inCode m ++ " must be a mapping"
  | overrideNotPair m e =>
    "`moduleOverrides` entry " ++ inCode m ++ "." ++ inCode e ++ " must be [exportName, moduleName]"
  | modulePathsNotList => "`modulePaths` must be a list of module specifiers"
  | twoCompilers =>
    "`templateCompilerPath` and `precompile` are mutually exclusive; pass only one"
  | compilerNotFunction => "`precompile` must be callable"
  | noCompiler => "either `templateCompilerPath` or `precompile` is required"
  | compilerFileNotFound p => "template compiler not found: " ++ p
  | compilerNotImportable p missing =>
    "cannot import template compiler " ++ inCode p ++ ": No module named " ++ missing.quoted
  | compilerBelowModule p missing parent =>
    "cannot import template compiler " ++ inCode p ++ ": No module named " ++ missing.quoted ++
      "; " ++ parent.quoted ++ " is not a package"
  | compilerWithoutFunction p =>
    "template compiler " ++ inCode p ++ " does not expose a `precompile` function"
  | unreadable file reason => "cannot read config " ++ file ++ ": " ++ reason
  | notAnObject => "config file must contain a JSON object"

def StaticFault.message : StaticFault → Text
  | notStatic invoked described =>
    invoked ++ " can only accept static options but you passed " ++ described
  | spreadElement => "spread element is not allowed here"
  | spreadProperty invoked => invoked ++ " does not allow spread element"
  | dynamicName invoked => invoked ++ " can only accept static property names"
  | method invoked property => invoked ++ " does not accept a method for " ++ property
  | scopeObject =>
    "Passing an object as the `scope` property to inline templates is no longer supported. " ++
      "Please pass a function that returns an object expression instead."
  | scopeStatements =>
    "Scope functions can only consist of a single return statement which returns an object " ++
      "expression containing references to in-scope values"
  | scopeNotObject invoked =>
    "Scope objects for " ++ inCode invoked ++
      " must be an object expression containing only references to " ++
      "in-scope values, or a function that returns an object expression containing only " ++
      "references to in-scope values"
  | scopeSpread invoked =>
    "Scope objects for " ++ inCode invoked ++ " may not contain spread elements"
  | scopeMethod invoked => "Scope objects for " ++ inCode invoked ++ " may not contain methods"
  | scopeDynamicName invoked =>
    "Scope objects for " ++ inCode invoked ++ " may only contain static property names"
  | scopeNotReference invoked property =>
    "Scope objects for " ++ inCode invoked ++
      " may only contain direct references to in-scope values, e.g. \x7b " ++ property ++
      " \x7d or \x7b " ++ property ++ ": " ++ property ++ " \x7d"

def UsageFault.message : UsageFault → Text
  | tagDisabled name =>
    "Attempted to use " ++ inCode name ++
      " as a template tag, but it can only be called as a function with a string passed to it: " ++
      name ++ "('content here')"
  | callDisabled name =>
    "Attempted to use " ++ inCode name ++
      " as a function call, but it can only be used as a template tag: " ++ name ++
      "`content here`"
  | tagPlaceholders => "placeholders inside a tagged template string are not supported"
  | callPlaceholders => "placeholders inside a template string are not supported"
  | nestedTag name => "tagged template strings inside " ++ name ++ " are not supported"
  | noTemplate => "hbs should be invoked with at least a single argument: the template string"
  | tooManyArguments =>
    "hbs can only be invoked with 2 arguments: the template string, and any static options"

namespace Cause

def message : Cause → Text
  | parse f => f.message
  | config f => f.message
  | static f => f.message
  | usage f => f.message
  | rejected m => m
  | noted _ m => m

def phase : Cause → Phase
  | parse _ => .parser
  | config _ => .config
  | static _ => .staticEval
  | usage _ => .usage
  | rejected _ => .compile
  | noted p _ => p

end Cause

/-! ## Reports -/

/-- A source text with the name of its file, as far as they are known. Code frames show it. -/
structure SourceUnit where
  source : Option Text
  file : Option Text
deriving Inhabited

/-- A cause with its place. -/
structure Report where
  cause : Cause
  loc : Option Location
  origin : SourceUnit
deriving Inhabited

namespace Report

/-- A report that points nowhere. -/
def bare (cause : Cause) : Report := ⟨cause, none, ⟨none, none⟩⟩

/-- The span of a report. A place in a file without a name is in no file. -/
def span (r : Report) : Span :=
  match r.loc with
  | none => ⟨r.origin.file, none, none⟩
  | some l => ⟨r.origin.file.filter (!·.isEmpty), some l.line, some l.column⟩

def diagnostic (r : Report) : Diagnostic := ⟨r.cause.message, some r.cause.phase.label, r.span, []⟩

/-- The diagnostic with its code frame. -/
def text (r : Report) : Text := r.diagnostic.render r.origin.source

end Report

/-- How an operation fails. -/
inductive Error where
  | report (r : Report)
  /-- An import specifier that names an export by a string gives no local name. -/
  | stringImportName
  /-- An edit puts another node in the place of the root. -/
  | rootReplaced
  /-- An edit takes the root away. -/
  | rootRemoved
  /-- The work goes down further than its limit, as a traversal does when each replacement holds a
  node that is replaced again. -/
  | tooDeep
  /-- A list that should hold pairs holds something else, with another number of parts. -/
  | notPair (index length : Nat)
  /-- A null character stands in the name of a file. -/
  | nullInName
  /-- There can be no file under the name of the output. -/
  | unwritable
  /-- A text with surrogates behind `position` code points has no UTF-8 form. -/
  | unencodable (position : Nat) (surrogates : Text)
  /-- A tree or a configuration has a shape that no rule speaks of. -/
  | malformed
deriving Inhabited

namespace Error

/-- The message of a failure that has one. -/
def message : Error → Text
  | report r => r.cause.message
  | stringImportName => "string import names require an `as` clause"
  | rootReplaced => "cannot replace the root node"
  | rootRemoved => "cannot remove the root node"
  | tooDeep => "the tree is nested too deeply"
  | notPair index length =>
    "dictionary update sequence element #" ++ Text.ofNat index ++ " has length " ++
      Text.ofNat length ++ "; 2 is required"
  | nullInName => "embedded null byte"
  | unwritable => "the output cannot be written"
  | unencodable position surrogates =>
    let what : Text :=
      match surrogates with
      | [c] => "character '\\u" ++ Text.hexFilled 4 c.val ++ "' in position " ++ Text.ofNat position
      | cs =>
        "characters in position " ++ Text.ofNat position ++ "-" ++
          Text.ofNat (position + cs.length - 1)
    "'utf-8' codec can't encode " ++ what ++ ": surrogates not allowed"
  | malformed => "the shape is not supported"

end Error

end InlineTemplates
