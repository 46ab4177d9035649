import Stencil.Act
import Stencil.Code.Basic
import Stencil.Code.Scope
import Stencil.Compile.Basic
import Stencil.Compile.Error
import Stencil.Expr.Basic
import Stencil.Expr.Error
import Stencil.Expr.Reader
import Stencil.Fields
import Stencil.Glob.Basic
import Stencil.Glob.Reader
import Stencil.Header.Each
import Stencil.Header.If
import Stencil.Header.Tmpl
import Stencil.Json.Basic
import Stencil.Json.Numeral
import Stencil.Json.Reader
import Stencil.Json.Writer
import Stencil.Main
import Stencil.Nesting
import Stencil.Number.Decimal
import Stencil.Number.Remainder
import Stencil.Number.Shortest
import Stencil.Number.Text
import Stencil.Path
import Stencil.Project.Arguments
import Stencil.Project.Build
import Stencil.Project.Error
import Stencil.Project.FileTree
import Stencil.Project.Files
import Stencil.Project.Report
import Stencil.Project.Settings
import Stencil.Proofs.Act
import Stencil.Proofs.Compiling.Basic
import Stencil.Proofs.Compiling.Chain
import Stencil.Proofs.Compiling.Concatenation
import Stencil.Proofs.Compiling.Draft
import Stencil.Proofs.Compiling.Faults
import Stencil.Proofs.Compiling.FirstFault
import Stencil.Proofs.Compiling.Occurrence
import Stencil.Proofs.Compiling.Outcome
import Stencil.Proofs.Compiling.Scoping
import Stencil.Proofs.Descent.Agreement
import Stencil.Proofs.Descent.Basic
import Stencil.Proofs.Descent.Index
import Stencil.Proofs.Descent.Yields
import Stencil.Proofs.Document
import Stencil.Proofs.Fields
import Stencil.Proofs.Frames.Course
import Stencil.Proofs.Frames.Restoration
import Stencil.Proofs.Grammar.Basic
import Stencil.Proofs.Grammar.Complete
import Stencil.Proofs.Grammar.Completion
import Stencil.Proofs.Grammar.FirstError
import Stencil.Proofs.Grammar.Steps
import Stencil.Proofs.Grammar.Viable
import Stencil.Proofs.Lexing.Extent
import Stencil.Proofs.Lexing.Read
import Stencil.Proofs.Lexing.Scan
import Stencil.Proofs.Lexing.Spacing
import Stencil.Proofs.Likeness.Names
import Stencil.Proofs.Meaning.Basic
import Stencil.Proofs.Meaning.Directive
import Stencil.Proofs.Meaning.Preservation
import Stencil.Proofs.Meaning.Simulation
import Stencil.Proofs.Number.Key
import Stencil.Proofs.Number.Model
import Stencil.Proofs.Number.Shortest
import Stencil.Proofs.Number.Text
import Stencil.Proofs.Offsets.Reader
import Stencil.Proofs.Printing.Basic
import Stencil.Proofs.Printing.Declarations
import Stencil.Proofs.Printing.Faithful
import Stencil.Proofs.Printing.Hygiene
import Stencil.Proofs.Printing.Layout
import Stencil.Proofs.Printing.Lexing
import Stencil.Proofs.Printing.Literal
import Stencil.Proofs.Printing.Naming
import Stencil.Proofs.Printing.Numeral
import Stencil.Proofs.Printing.Places
import Stencil.Proofs.Printing.Readback
import Stencil.Proofs.Printing.Reread
import Stencil.Proofs.Project.Build
import Stencil.Proofs.Project.Naming
import Stencil.Proofs.Project.Records
import Stencil.Proofs.Propagation
import Stencil.Proofs.Registry.History
import Stencil.Proofs.Registry.Inserts
import Stencil.Proofs.Registry.Order
import Stencil.Proofs.Scope
import Stencil.Proofs.Splitting.Enclosed
import Stencil.Proofs.Splitting.Header
import Stencil.Proofs.Splitting.Matching
import Stencil.Proofs.Splitting.Source
import Stencil.Proofs.Splitting.Spaced
import Stencil.Proofs.Splitting.Substitution
import Stencil.Proofs.Splitting.Token
import Stencil.Proofs.Value.Equality
import Stencil.Proofs.Value.Index
import Stencil.Proofs.Value.Iteration
import Stencil.Render.Eval
import Stencil.Render.Frame
import Stencil.Render.Host
import Stencil.Render.Native
import Stencil.Render.Registry
import Stencil.Render.Template
import Stencil.Source.Code
import Stencil.Source.Literal
import Stencil.Source.Writer
import Stencil.Text.Blank
import Stencil.Text.Hex
import Stencil.Text.Name
import Stencil.Text.Quoted
import Stencil.Text.Visible
import Stencil.Text.Width
import Stencil.Token.Basic
import Stencil.Token.Scan
import Stencil.Tree.Basic
import Stencil.Tree.Json
import Stencil.Value.Basic
import Stencil.Value.Coercion
import Stencil.Value.Error
import Stencil.Value.Json
import Stencil.Value.Operator
import Stencil.Value.Property
