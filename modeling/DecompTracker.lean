import DecompTracker.ClassStatus
import DecompTracker.Classification
import DecompTracker.CommandLine.Arguments
import DecompTracker.CommandLine.Commands
import DecompTracker.FileStore
import DecompTracker.FileTree
import DecompTracker.Forms.Classes
import DecompTracker.Forms.Project
import DecompTracker.Forms.Report
import DecompTracker.Function
import DecompTracker.Hierarchy.Basic
import DecompTracker.Hierarchy.Conflict
import DecompTracker.Hierarchy.Draft
import DecompTracker.Json.Basic
import DecompTracker.Json.Form
import DecompTracker.Json.Literal
import DecompTracker.Json.Printer
import DecompTracker.Json.Reader
import DecompTracker.Json.Token
import DecompTracker.Main
import DecompTracker.Override
import DecompTracker.Path
import DecompTracker.Project.Config
import DecompTracker.Project.Failure
import DecompTracker.Project.Inputs
import DecompTracker.Project.Layout
import DecompTracker.Project.Reports
import DecompTracker.QualifiedName
import DecompTracker.Report.Basic
import DecompTracker.Report.Summary
import DecompTracker.Sha256
import DecompTracker.SortedMap
import DecompTracker.Symbol
import DecompTracker.Tables.Classes
import DecompTracker.Tables.Csv
import DecompTracker.Tables.Functions
import DecompTracker.Tables.Overrides
import DecompTracker.Text.Blank
import DecompTracker.Text.Bytes
import DecompTracker.Text.Invisible
import DecompTracker.Text.Numeral
import DecompTracker.Text.Quoted
import DecompTracker.Text.Split
import DecompTracker.Yaml.BlockScalar
import DecompTracker.Yaml.Node
import DecompTracker.Yaml.Property
import DecompTracker.Yaml.Scalar
import DecompTracker.Yaml.Token
import DecompTracker.Proofs.GrowingLists
import DecompTracker.Proofs.Results
import DecompTracker.Proofs.Hierarchy.Outline
import DecompTracker.Proofs.Hierarchy.Compatible
import DecompTracker.Proofs.Hierarchy.Contents
import DecompTracker.Proofs.Hierarchy.Numbering
import DecompTracker.Proofs.Hierarchy.Linked
import DecompTracker.Proofs.Hierarchy.Growth
import DecompTracker.Proofs.Hierarchy.Addition
import DecompTracker.Proofs.Hierarchy.Frame
import DecompTracker.Proofs.Hierarchy.Consistency
import DecompTracker.Proofs.QualifiedName.Canonical
import DecompTracker.Proofs.Report.Success
import DecompTracker.Proofs.Hierarchy.Subtree
import DecompTracker.Proofs.Hierarchy.Reference
import DecompTracker.Proofs.Hierarchy.TwoForms
import DecompTracker.Proofs.Hierarchy.Outcome
import DecompTracker.Proofs.Hierarchy.Reporting
import DecompTracker.Proofs.Hierarchy.Dependencies
import DecompTracker.Proofs.Hierarchy.Repeats
import DecompTracker.Proofs.Hierarchy.Runs
import DecompTracker.Proofs.Hierarchy.Coherence
import DecompTracker.Proofs.Hierarchy.Genuine
import DecompTracker.Proofs.Hierarchy.Effect
import DecompTracker.Proofs.Classification.Partition
import DecompTracker.Proofs.Text.Numeral
import DecompTracker.Proofs.Symbol.Grammar
import DecompTracker.Proofs.Symbol.Scanning
import DecompTracker.Proofs.Symbol.Encoding
import DecompTracker.Proofs.Symbol.Parameters
import DecompTracker.Proofs.Hierarchy.References
import DecompTracker.Proofs.Report.Parts
import DecompTracker.Proofs.Report.Recognised
import DecompTracker.Proofs.Report.Dependencies
import DecompTracker.Proofs.Hierarchy.ClassNodes
import DecompTracker.Proofs.Report.Totals
import DecompTracker.Proofs.Text.ByteOrder
import DecompTracker.Proofs.Report.Agreement
import DecompTracker.Proofs.Report.InputOrder
import DecompTracker.Proofs.Report.Formats
import DecompTracker.Proofs.Project.Reading
import DecompTracker.Proofs.Report.SingleClass
import DecompTracker.Proofs.Tables.Csv
import DecompTracker.Proofs.Tables.Functions
import DecompTracker.Proofs.Tables.Outcome
import DecompTracker.Proofs.Json.Literal
import DecompTracker.Proofs.Json.Texts
import DecompTracker.Proofs.Json.Form
import DecompTracker.Proofs.Forms.ReadBack
import DecompTracker.Proofs.Path
import DecompTracker.Proofs.FileTree
import DecompTracker.Proofs.FileStore
import DecompTracker.Proofs.Project.Written
import DecompTracker.Proofs.Project.Inputs
import DecompTracker.Proofs.Tables.Overrides
import DecompTracker.Proofs.Hierarchy.Simulation
import DecompTracker.Proofs.Hierarchy.ByName
import DecompTracker.Proofs.Hierarchy.Reordering
import DecompTracker.Proofs.Report.DoubleCount
import DecompTracker.Proofs.Classification.Progress
import DecompTracker.Proofs.Hierarchy.Progress
import DecompTracker.Proofs.Report.Progress
import DecompTracker.Proofs.QualifiedName.Algebra
import DecompTracker.Proofs.Classification.Derivation
import DecompTracker.Proofs.Symbol.Truncation
import DecompTracker.Proofs.Project.Hashes
import DecompTracker.Proofs.Hierarchy.Unfolding
import DecompTracker.Proofs.Hierarchy.Search
import DecompTracker.Proofs.Tables.Address
import DecompTracker.Proofs.Project.Layout
