import InlineTemplates.Grammar.Source
import InlineTemplates.Value

/-!
# Compiling a template

A template compiler turns a template and its options into the source of an expression, or refuses
the template. The expression is handed to the factory; a refusal stops the work, unless the options
ask for code that fails when it runs.
-/

namespace InlineTemplates

/-- Why a compiler refuses a template: what the refusal says, and the message that it carries
besides, which wins if it is a text. -/
structure Rejection where
  text : Text
  message : Option Value
deriving Inhabited

/-- The message of a refusal. -/
def Rejection.reason (r : Rejection) : Text := (r.message.bind Value.text?).getD r.text

/-- A template compiler. -/
abbrev Compiler := Text → Entries → Except Rejection Text

namespace Compiler

/-- The export that makes a template of a compiled one. -/
def factoryExport : Text := "createTemplateFactory"

/-- The module of the factory. -/
def factoryModule : Text := "@ember/template-factory"

/-- The name under which faults in compiled templates are reported. -/
def outputName : Text := "<template compiler output>"

/-- The option that asks for code that fails when it runs. -/
def runtimeErrors : Text := "insertRuntimeErrors"

/-- The options that a compiler gets for a template: its text, overridden and extended by those
given. -/
def optionsFor (template : Text) (options : Entries) : Entries :=
  Entries.overlay [("contents", .str template)] options

/-- A call of a function that throws an error with a message. -/
def throwing (message : Text) : Node :=
  let error : Node := .new .fresh (.name .fresh "Error") [.literal .fresh (.str message)]
  let body : Node := .block .fresh none [] [.throwStmt .fresh error]
  .call .fresh false (.function .fresh false [] [] body) []

/-- The comment in front of a compiled template: the template, which cannot end the comment. -/
def templateComment (template : Text) : Text :=
  "/*\n  " ++ template.escapeCommentEnd ++ "\n*/"

/-- The expression of a compiled template behind the comment that shows the template. -/
def embedded (template payload : Text) : Except Error Node := do
  let n ← Node.readExpression payload (some outputName)
  return n.appendComments [templateComment template]

/-- What stands in the place of a template: the compiled template in the hands of the factory.
`site` and `origin` are where a refusal is reported. -/
def compile (c : Compiler) (template : Text) (factory : Node) (options : Entries) (site : Node)
    (origin : SourceUnit) : Except Error Node :=
  let options := optionsFor template options
  match c template options with
  | .ok payload => do return .call .fresh false factory [← embedded template payload]
  | .error rejection =>
    if (options.get? runtimeErrors).any Value.isOn then .ok (throwing rejection.reason)
    else .error (.report ⟨.rejected rejection.reason, site.loc, origin⟩)

end Compiler

/-- What a module that is named as a compiler holds. -/
inductive CompilerModule where
  | function (c : Compiler)
  | withoutFunction

end InlineTemplates
