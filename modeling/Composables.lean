import Composables.Collection.Basic
import Composables.Collection.Gather
import Composables.Collection.Validation
import Composables.CommandLine.Arguments
import Composables.CommandLine.Display
import Composables.CommandLine.Footprint
import Composables.CommandLine.Run
import Composables.Decimal.Binary64
import Composables.Decimal.Notation
import Composables.Decimal.Shortest
import Composables.Distinct
import Composables.Document
import Composables.Error
import Composables.FileSystem.Basic
import Composables.FileSystem.Disk
import Composables.FileSystem.Fault
import Composables.FileSystem.Resolve
import Composables.Fragment.Basic
import Composables.Fragment.Order
import Composables.Graphql.BlockString
import Composables.Graphql.Grammar
import Composables.Graphql.Numeral
import Composables.Graphql.Parser
import Composables.Graphql.Printer
import Composables.Graphql.SchemaGrammar
import Composables.Graphql.StringLiteral
import Composables.Graphql.Syntax
import Composables.Graphql.Token
import Composables.Graphql.Tree
import Composables.Graphql.Walk
import Composables.Json.Basic
import Composables.Json.Draft
import Composables.Json.Numeral
import Composables.Json.Printer
import Composables.Layout
import Composables.Location
import Composables.Main
import Composables.Module.Apollo
import Composables.Module.Basic
import Composables.Module.Binding
import Composables.Module.Constant
import Composables.Module.Generate
import Composables.Module.Import
import Composables.Module.Part
import Composables.Module.Specifier
import Composables.Module.Urql
import Composables.Naming.Basic
import Composables.Naming.Words
import Composables.Operation
import Composables.Options
import Composables.Path.Basic
import Composables.Path.Relative
import Composables.Project.Basic
import Composables.Project.Compile
import Composables.Project.Decode
import Composables.Project.Fault
import Composables.Project.Load
import Composables.Schema
import Composables.Text.Basic
import Composables.Text.Blank
import Composables.Text.Digits
import Composables.Text.Printable
import Composables.Text.Quoted
import Composables.Proofs.Text.Split
import Composables.Proofs.Collection.Declared
import Composables.Proofs.Collection.Gather
import Composables.Proofs.Collection.Invariants
import Composables.Proofs.Collection.Reachable
import Composables.Proofs.Collection.Validation
import Composables.Proofs.FileSystem.Resolve
import Composables.Proofs.FileSystem.Write
import Composables.Proofs.Fragment.Order
import Composables.Proofs.Graphql.Bare
import Composables.Proofs.Graphql.Printed
import Composables.Proofs.Layout.Blocks
import Composables.Proofs.Layout.Linked
import Composables.Proofs.Layout.LoadOrder
import Composables.Proofs.Module.Agreement
import Composables.Proofs.Module.Complete
import Composables.Proofs.Module.Rearranged
import Composables.Proofs.Module.Repetition
import Composables.Proofs.Project.Action
import Composables.Proofs.Project.Check
import Composables.Proofs.Project.Written
import Composables.Proofs.Project.Interrupted
import Composables.Proofs.Layout.Reached
import Composables.Proofs.Module.Again
import Composables.Proofs.Collection.Merged
import Composables.Proofs.Module.Carried
import Composables.Proofs.Fragment.Run
import Composables.Proofs.Fragment.Topological
import Composables.Proofs.Graphql.Unplaced
import Composables.Proofs.Collection.Unplaced
import Composables.Proofs.Module.Unplaced
import Composables.Proofs.Project.Repeated
import Composables.Proofs.Module.Names
import Composables.Proofs.Fragment.Stable
import Composables.Proofs.Collection.Ordered
import Composables.Proofs.Collection.FirstError
import Composables.Proofs.Decimal.Rendered
import Composables.Proofs.Graphql.Encoding
import Composables.Proofs.Module.Template
import Composables.Proofs.Module.Lines
import Composables.Proofs.Module.Meaning
import Composables.Proofs.Collection.FirstFault
import Composables.Proofs.Module.Specifier
import Composables.Proofs.Naming.Identifier
import Composables.Proofs.Naming.Suffix
import Composables.Proofs.Project.Reloaded
import Composables.Proofs.Graphql.Visits
import Composables.Proofs.Module.Quotation
