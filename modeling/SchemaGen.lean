import SchemaGen.Json.Parser
import SchemaGen.Json.Printer
import SchemaGen.Main
import SchemaGen.Proofs.Idl.Reads
import SchemaGen.Schema.Decode
import SchemaGen.Schema.Encode
import SchemaGen.Proofs.Idl.TypeCompleteness
import SchemaGen.Proofs.Idl.ConstantCompleteness
import SchemaGen.Proofs.Idl.DocumentCompleteness
import SchemaGen.Proofs.Idl.Canonical
import SchemaGen.Proofs.Idl.CanonicalDocument
import SchemaGen.Proofs.Idl.RoundTrip
import SchemaGen.Proofs.Derive.Concatenation
import SchemaGen.Peg.Derivation
import SchemaGen.Proofs.Peg.Derivation
import SchemaGen.Idl.Walk
import SchemaGen.Proofs.Idl.LexemeMatch
import SchemaGen.Proofs.Idl.GapMatch
import SchemaGen.Proofs.Idl.LexemeMirror
import SchemaGen.Proofs.Idl.TypeMirror
import SchemaGen.Proofs.Idl.ConstantMirror
import SchemaGen.Proofs.Idl.FieldMirror
import SchemaGen.Proofs.Idl.DefinitionMirror
import SchemaGen.Proofs.Idl.Recognition
import SchemaGen.Proofs.Peg.Nodes
import SchemaGen.Proofs.Idl.Keywords
import SchemaGen.Emit.CallTree
import SchemaGen.Proofs.Emit.Closed
import SchemaGen.Proofs.Emit.CallText
import SchemaGen.Proofs.Emit.Elements
import SchemaGen.Proofs.Emit.Rendering
import SchemaGen.Proofs.Emit.Qualified
import SchemaGen.Proofs.Schema.Equality
import SchemaGen.Proofs.Schema.FilledMap
import SchemaGen.Proofs.Schema.TypeEquality
import SchemaGen.Proofs.Schema.Distinct
import SchemaGen.Proofs.Emit.Deduplication
import SchemaGen.Proofs.Emit.Members
import SchemaGen.Proofs.Emit.Declarable
import SchemaGen.Proofs.Json.QuotedText
import SchemaGen.Proofs.Numeric.Numeral
import SchemaGen.Schema.Contents
import SchemaGen.Idl.Contents
import SchemaGen.Emit.Exports
import SchemaGen.Proofs.Json.NumberText
import SchemaGen.Proofs.Json.PrintedText
import SchemaGen.Proofs.Schema.Table
import SchemaGen.Proofs.Schema.Numbers
import SchemaGen.Proofs.Schema.Reload
import SchemaGen.Proofs.Schema.RoundTrip
import SchemaGen.Proofs.Schema.Invariants
import SchemaGen.Proofs.Schema.Alignment
import SchemaGen.Proofs.Derive.Structs
import SchemaGen.Proofs.Derive.Warnings
import SchemaGen.Proofs.Derive.Optional
import SchemaGen.Proofs.Derive.Evaluated
import SchemaGen.Proofs.Derive.Height
import SchemaGen.Proofs.Derive.Named
import SchemaGen.Proofs.Derive.Reloaded
import SchemaGen.Proofs.Emit.OneLine
import SchemaGen.Proofs.Emit.Lines
import SchemaGen.Proofs.Emit.Exports
import SchemaGen.Proofs.Emit.Expression
import SchemaGen.Emit.Comments
import SchemaGen.Proofs.Emit.ModuleLines
import SchemaGen.Proofs.Emit.Comments
import SchemaGen.Proofs.Emit.ReadBack
import SchemaGen.Proofs.Emit.ObjectLayout
import SchemaGen.Proofs.Files.Path
import SchemaGen.Proofs.Files.Tree
import SchemaGen.Proofs.Files.Write
import SchemaGen.Proofs.Files.Discovery
import SchemaGen.Proofs.Project.Generate
import SchemaGen.Proofs.Project.Accounted
import SchemaGen.Proofs.Cli.Run
import SchemaGen.Proofs.Cli.Arguments
import SchemaGen.Proofs.Cli.Failure
import SchemaGen.Proofs.Cli.Generation
import SchemaGen.Proofs.Cli.Validate
import SchemaGen.Proofs.Cli.Repeat
import SchemaGen.Proofs.Derive.FieldOrder
import SchemaGen.Proofs.Emit.Quotation
import SchemaGen.Proofs.Idl.WholeNumber
import SchemaGen.Proofs.Numeric.DecimalText
import SchemaGen.Proofs.Numeric.Reading
import SchemaGen.Proofs.Numeric.Integer
import SchemaGen.Proofs.Derive.IntegerText
import SchemaGen.Proofs.Numeric.Nearest
import SchemaGen.Proofs.Numeric.DecimalValue
import SchemaGen.Proofs.Numeric.Shortest
import SchemaGen.Proofs.Numeric.Positional
import SchemaGen.Proofs.Numeric.ReadBack
import SchemaGen.Proofs.Schema.NumberKeys
import SchemaGen.Proofs.Numeric.Accumulated
import SchemaGen.Proofs.Numeric.LowTie
import SchemaGen.Proofs.Numeric.RadixLiteral
import SchemaGen.Proofs.Numeric.NumericText
import SchemaGen.Proofs.Emit.Suffix
import SchemaGen.Proofs.Project.Report
import SchemaGen.Proofs.Files.WriteRun
import SchemaGen.Proofs.Text.LowerCase
import SchemaGen.Proofs.Project.Sources
