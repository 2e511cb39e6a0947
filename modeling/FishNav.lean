import FishNav.Builtin
import FishNav.Command.Arguments
import FishNav.Command.Location
import FishNav.Command.Report
import FishNav.Command.Run
import FishNav.Definition
import FishNav.File.Disk
import FishNav.File.Path
import FishNav.File.SearchPath
import FishNav.File.Uri
import FishNav.Json.Printer
import FishNav.Json.Reader
import FishNav.Json.Value
import FishNav.Kind
import FishNav.Main
import FishNav.Navigator
import FishNav.Proofs.Cursor.Agreement
import FishNav.Proofs.Cursor.Bytes
import FishNav.Proofs.Cursor.Reader
import FishNav.Proofs.Cursor.Statements
import FishNav.Proofs.Cursor.Tokens
import FishNav.Proofs.Role
import FishNav.Proofs.Script.Definitions
import FishNav.Proofs.Script.Grammar
import FishNav.Proofs.Script.Layout
import FishNav.Proofs.Script.Outline
import FishNav.Proofs.Script.Readers
import FishNav.Proofs.Script.Resolution
import FishNav.Proofs.Script.Rules
import FishNav.Proofs.Script.Scopes
import FishNav.Proofs.Script.Spacing
import FishNav.Proofs.Script.Tree
import FishNav.Proofs.Symbol.Outline
import FishNav.Proofs.Text
import FishNav.Proofs.Tree.Load
import FishNav.Proofs.Tree.Nodes
import FishNav.Proofs.Tree.Walks
import FishNav.Role
import FishNav.Scope
import FishNav.Script.Cst
import FishNav.Script.Parser
import FishNav.Settings.Basic
import FishNav.Settings.Service
import FishNav.Symbol.Basic
import FishNav.Symbol.Json
import FishNav.Symbol.Outline
import FishNav.Text.Blank
import FishNav.Text.Bytes
import FishNav.Text.Lines
import FishNav.Text.Mark
import FishNav.Text.Order
import FishNav.Text.Position
import FishNav.Text.Reading
import FishNav.Text.Split
import FishNav.Toml.Blank
import FishNav.Toml.Date
import FishNav.Toml.Key
import FishNav.Toml.Number
import FishNav.Toml.Quoted
import FishNav.Toml.Reader
import FishNav.Toml.Table
import FishNav.Tree.Arena
import FishNav.Tree.Builder
import FishNav.Tree.Comments
import FishNav.Tree.Dump
import FishNav.Tree.Load
import FishNav.Tree.Lookup
import FishNav.Tree.Node
import FishNav.Proofs.Symbol.Listing
import FishNav.Proofs.Script.Calls
import FishNav.Proofs.Tree.Lookup
import FishNav.Proofs.Navigator
import FishNav.Proofs.Script.References
import FishNav.Proofs.Symbol.Shallow
import FishNav.Proofs.Lines
import FishNav.Proofs.Documents
import FishNav.Proofs.Uri
import FishNav.Proofs.Tree.Arena
import FishNav.Proofs.Tree.Enumeration
import FishNav.Proofs.Script.Lookup
import FishNav.Proofs.Tree.ReadBack
import FishNav.Proofs.Report
import FishNav.Proofs.Script.Leaves
import FishNav.Proofs.Script.Occurrences
import FishNav.Proofs.Script.Arguments
import FishNav.Proofs.Scope
import FishNav.Proofs.Script.Endings
import FishNav.Proofs.Script.Enclosing
import FishNav.Proofs.Command.Symbols
import FishNav.Proofs.Command.Location
import FishNav.Proofs.Command.Run
import FishNav.Proofs.Assignment
import FishNav.Proofs.Tree.Faults
import FishNav.Proofs.Script.Expansions
import FishNav.Proofs.Symbol.Json
import FishNav.Proofs.Tree.Siblings
import FishNav.Proofs.Disk
import FishNav.Proofs.Settings
import FishNav.Proofs.Builtin
