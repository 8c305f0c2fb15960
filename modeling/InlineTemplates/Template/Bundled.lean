import InlineTemplates.Template.Compiler
import InlineTemplates.Text.Escaped

/-!
# Bundled compiler modules

Compilers that need no other program. They show what the pass hands to a compiler, how a refusal is
reported, and what is said about a module that is no compiler.
-/

namespace InlineTemplates

namespace Compiler

/-- Shows the template and whether it is compiled for production. -/
def echo : Compiler := fun template options =>
  let production : Text := if (options.get? "isProduction").any Value.isOn then "true" else "false"
  .ok ("precompiled(" ++ template.escapedControls ++ ", " ++ production ++ ")")

/-- Refuses every template. -/
def refusal : Compiler := fun template _ => .error ⟨"rejected: " ++ template, none⟩

/-- The modules by name. -/
def bundled : List (Text × CompilerModule) := [
  ("mock_echo", .function echo), ("mock_fail", .function refusal),
  ("mock_none", .withoutFunction), ("mock_value", .withoutFunction)]

end Compiler

end InlineTemplates
