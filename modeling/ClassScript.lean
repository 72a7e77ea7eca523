import ClassScript.Outline
import ClassScript.Report
import ClassScript.Rule.Catalogue
import ClassScript.Syntax.Program
import ClassScript.Syntax.Items
import ClassScript.Emission.Script
import ClassScript.Toml.Reader
import ClassScript.Loading
import ClassScript.Build.Pipeline
import ClassScript.FileSystem.Memory
import ClassScript.Glob.Search
import ClassScript.Glob.Ignore
import ClassScript.Project.Discovery
import ClassScript.Project.Location
import ClassScript.Project.Scaffold
import ClassScript.Command.Run
import ClassScript.Main
import ClassScript.Proofs.Declaration
import ClassScript.Proofs.Naming.Pattern
import ClassScript.Proofs.Validator
import ClassScript.Proofs.Rule.Silence
import ClassScript.Proofs.Rule.Mature
import ClassScript.Proofs.Rule.Attribution
import ClassScript.Proofs.Validator.Registration
import ClassScript.Proofs.Validator.InputOrder
import ClassScript.Proofs.FileSystem.Contents
import ClassScript.Proofs.Build.Survey
import ClassScript.Proofs.Build.Writing
import ClassScript.Proofs.Build.Accounting
import ClassScript.Proofs.Build.Recheck
import ClassScript.Proofs.Text.Split
import ClassScript.Proofs.Text.FilePath
import ClassScript.Proofs.Text.Ancestors
import ClassScript.Proofs.Text.PathOrder
import ClassScript.Proofs.Text.Spellings
import ClassScript.Proofs.Syntax.Source
import ClassScript.Proofs.Syntax.Tree
import ClassScript.Proofs.Syntax.Token
import ClassScript.Proofs.Syntax.Reading
import ClassScript.Proofs.Syntax.Shape
import ClassScript.Proofs.Syntax.Grammar.Types
import ClassScript.Proofs.Syntax.Grammar.Expressions
import ClassScript.Proofs.Syntax.Grammar.Classes
import ClassScript.Proofs.Syntax.Grammar.Statements
import ClassScript.Proofs.Syntax.Program
import ClassScript.Proofs.Emission.Layout
import ClassScript.Proofs.Emission.Edit
import ClassScript.Proofs.Emission.Visit
import ClassScript.Proofs.Emission.Spread
import ClassScript.Proofs.Emission.Apart
import ClassScript.Proofs.Emission.Types
import ClassScript.Proofs.Emission.Completeness
import ClassScript.Proofs.Emission.Soundness
import ClassScript.Proofs.Emission.Bounds
import ClassScript.Proofs.Emission.ClassHead
import ClassScript.Proofs.Build.EntryPoint
import ClassScript.Proofs.Build.EntryClass
import ClassScript.Proofs.Build.Imports
import ClassScript.Proofs.Validator.Grouping
import ClassScript.Proofs.Text.Strip
import ClassScript.Proofs.Emission.Enum.Counting
import ClassScript.Proofs.Script.TextLiteral
import ClassScript.Proofs.Emission.Enum.Members
import ClassScript.Proofs.Script.IntegerLiteral
import ClassScript.Proofs.Emission.Integer
import ClassScript.Proofs.Emission.Enum.Execution
import ClassScript.Proofs.Syntax.Order
import ClassScript.Proofs.Emission.Range
import ClassScript.Proofs.Emission.Enum.References
import ClassScript.Proofs.Emission.Enum.Copying
import ClassScript.Proofs.Emission.Initialization
import ClassScript.Proofs.Emission.Bindings
import ClassScript.Proofs.Rule.Conformance
import ClassScript.Proofs.Rule.Locality
import ClassScript.Proofs.Emission.Refusal
import ClassScript.Proofs.Emission.Imports
import ClassScript.Proofs.Diagnostic
import ClassScript.Proofs.Build.Compilation
import ClassScript.Proofs.Build.Violation
import ClassScript.Proofs.Syntax.Items
import ClassScript.Proofs.Outline
import ClassScript.Proofs.Json
import ClassScript.Proofs.Report.Groups
import ClassScript.Proofs.Report.RoundTrip
import ClassScript.Proofs.FileSystem.Access
import ClassScript.Proofs.FileSystem.Disk
import ClassScript.Proofs.Project.Scaffold
import ClassScript.Proofs.Project.Discovery
import ClassScript.Proofs.Project.Location
import ClassScript.Proofs.Naming.Conversion
import ClassScript.Proofs.Naming.LetterCase
import ClassScript.Proofs.Rule.Renaming
import ClassScript.Proofs.Emission.Selection
import ClassScript.Proofs.Emission.Inserted
