import InlineTemplates.Main
import InlineTemplates.Node.Printable
import InlineTemplates.Proofs.Compilation
import InlineTemplates.Proofs.NameRuns
import InlineTemplates.Proofs.ImportRuns
import InlineTemplates.Proofs.Positions
import InlineTemplates.Proofs.Spans
import InlineTemplates.Proofs.Scanning
import InlineTemplates.Proofs.Drafts
import InlineTemplates.Proofs.Reading
import InlineTemplates.Proofs.ExpressionSpans
import InlineTemplates.Proofs.StatementSpans
import InlineTemplates.Proofs.Locations
import InlineTemplates.Proofs.Leftovers
import InlineTemplates.Proofs.StaticValues
import InlineTemplates.Proofs.OperatorPrinting
import InlineTemplates.Proofs.TemplateParts
import InlineTemplates.Proofs.SourceRefusals
import InlineTemplates.Proofs.Preparation
import InlineTemplates.Proofs.Semicolons
import InlineTemplates.Proofs.Constructions
import InlineTemplates.Proofs.ModuleClauses
import InlineTemplates.Proofs.LineBreaks
import InlineTemplates.Proofs.Conservation
import InlineTemplates.Proofs.Chains
import InlineTemplates.Proofs.Throwing
import InlineTemplates.Proofs.QuotedValues
import InlineTemplates.Proofs.CodeFrames
import InlineTemplates.Proofs.PrintedCode
import InlineTemplates.Proofs.EditedPrograms
import InlineTemplates.Proofs.RenamedPrograms
import InlineTemplates.Proofs.NestedStatements
