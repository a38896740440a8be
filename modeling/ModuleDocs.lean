import ModuleDocs.Chunk.Decode
import ModuleDocs.Chunk.Load
import ModuleDocs.Chunk.Query
import ModuleDocs.Collector
import ModuleDocs.Collector.Session
import ModuleDocs.CommandLine.Arguments
import ModuleDocs.CommandLine.Compile
import ModuleDocs.CommandLine.Query
import ModuleDocs.Compile
import ModuleDocs.Config
import ModuleDocs.Container.Decode
import ModuleDocs.Container.Sha256
import ModuleDocs.Diagnostic
import ModuleDocs.Entity.Argument
import ModuleDocs.Entry.View
import ModuleDocs.File.System
import ModuleDocs.Json.Reader
import ModuleDocs.Json.Writer
import ModuleDocs.Main
import ModuleDocs.Number.LittleEndian
import ModuleDocs.Number.Shortest
import ModuleDocs.Proofs.Chunk.Decoded
import ModuleDocs.Proofs.Chunk.Errors
import ModuleDocs.Proofs.Chunk.Format
import ModuleDocs.Proofs.Chunk.Load
import ModuleDocs.Proofs.Chunk.Metadata
import ModuleDocs.Proofs.Chunk.RoundTrip
import ModuleDocs.Proofs.Collector.Errors
import ModuleDocs.Proofs.Collector.Metadata
import ModuleDocs.Proofs.Collector.Observe
import ModuleDocs.Proofs.Collector.Private
import ModuleDocs.Proofs.Collector.Table
import ModuleDocs.Proofs.Compile.Batch
import ModuleDocs.Proofs.Compile.Check
import ModuleDocs.Proofs.Compile.ContainerPath
import ModuleDocs.Proofs.Compile.Emit
import ModuleDocs.Proofs.Compile.Load
import ModuleDocs.Proofs.Compile.Report
import ModuleDocs.Proofs.Compile.Stops
import ModuleDocs.Proofs.Container.Canonical
import ModuleDocs.Proofs.Container.Files
import ModuleDocs.Proofs.Container.Put
import ModuleDocs.Proofs.Container.Replace
import ModuleDocs.Proofs.Container.RoundTrip
import ModuleDocs.Proofs.Container.Store
import ModuleDocs.Proofs.Entry.Canonical
import ModuleDocs.Proofs.Entry.Encodable
import ModuleDocs.Proofs.Entry.Members
import ModuleDocs.Proofs.Entry.Order
import ModuleDocs.Proofs.Entry.Storable
import ModuleDocs.Proofs.Entry.View
import ModuleDocs.Proofs.File.Contents
import ModuleDocs.Proofs.File.Files
import ModuleDocs.Proofs.File.Locate
import ModuleDocs.Proofs.File.Nameable
import ModuleDocs.Proofs.File.Path
import ModuleDocs.Proofs.Lists
import ModuleDocs.Proofs.Number.LittleEndian
import ModuleDocs.Proofs.Order.Sort
import ModuleDocs.Proofs.Result
import ModuleDocs.Proofs.Source.Contents
import ModuleDocs.Proofs.Source.Exports
import ModuleDocs.Proofs.Source.Include
import ModuleDocs.Proofs.Source.Interface
import ModuleDocs.Proofs.Source.Limits
import ModuleDocs.Proofs.Source.Lookup
import ModuleDocs.Proofs.Source.Payload
import ModuleDocs.Proofs.Source.Waiting
import ModuleDocs.Proofs.Source.Attachment
import ModuleDocs.Proofs.Source.Syntax
import ModuleDocs.Proofs.Source.Unit
import ModuleDocs.Proofs.Source.Value
import ModuleDocs.Proofs.Term.Calls
import ModuleDocs.Proofs.Term.Cursor
import ModuleDocs.Proofs.Term.Decoded
import ModuleDocs.Proofs.Term.Errors
import ModuleDocs.Proofs.Term.Fits
import ModuleDocs.Proofs.Term.Part
import ModuleDocs.Proofs.Term.Reader
import ModuleDocs.Proofs.Term.Reordered
import ModuleDocs.Proofs.Term.RoundTrip
import ModuleDocs.Proofs.Term.Written
import ModuleDocs.Proofs.Text.Decoding
import ModuleDocs.Proofs.Text.Utf8
import ModuleDocs.Source.Form
import ModuleDocs.Source.Interface
import ModuleDocs.Source.Unit
import ModuleDocs.Term.Decode
import ModuleDocs.Term.Display
import ModuleDocs.Term.Order
import ModuleDocs.Text.Digit
import ModuleDocs.Text.Quoted
import ModuleDocs.Text.Utf8
import ModuleDocs.Proofs.Collector.History
import ModuleDocs.Proofs.Collector.Interleaving
import ModuleDocs.Proofs.Collector.Session
import ModuleDocs.Proofs.Collector.Documents
import ModuleDocs.Proofs.Container.Regions
import ModuleDocs.Proofs.Container.Integrity
import ModuleDocs.Proofs.Container.Append
import ModuleDocs.Proofs.File.Dots
import ModuleDocs.Proofs.File.Regular
import ModuleDocs.Proofs.File.Ways
import ModuleDocs.Proofs.File.Directories
import ModuleDocs.Proofs.Container.Writes
import ModuleDocs.Proofs.Source.Footprint
import ModuleDocs.Proofs.Compile.Independence
import ModuleDocs.Proofs.Source.Inclusion
import ModuleDocs.Proofs.Source.Loading
import ModuleDocs.Proofs.Source.Cycles
import ModuleDocs.Proofs.Source.Unfolding
import ModuleDocs.Proofs.Source.Expansion
import ModuleDocs.Proofs.Chunk.PrefixFree
import ModuleDocs.Proofs.Chunk.Reencode
import ModuleDocs.Proofs.Chunk.Canonical
import ModuleDocs.Proofs.Term.Canonical
import ModuleDocs.Proofs.Source.Grammar
import ModuleDocs.Proofs.Source.Terminal
import ModuleDocs.Proofs.Source.Derivation
import ModuleDocs.Proofs.Source.Run
import ModuleDocs.Proofs.Source.Progress
import ModuleDocs.Proofs.Source.Inversion
import ModuleDocs.Proofs.Source.Unambiguous
import ModuleDocs.Proofs.Source.Parse
import ModuleDocs.Proofs.Number.Numeral
import ModuleDocs.Proofs.Source.Escape
import ModuleDocs.Proofs.Source.Layout
import ModuleDocs.Proofs.Source.Written
import ModuleDocs.Proofs.Source.ReadBack
import ModuleDocs.Proofs.Text.Sequences
import ModuleDocs.Proofs.Chunk.Query
import ModuleDocs.Proofs.Entry.Spelling
import ModuleDocs.Proofs.Config.Failures
import ModuleDocs.Proofs.Container.Appends
import ModuleDocs.Proofs.CommandLine.Failures
import ModuleDocs.Proofs.Number.Binary64
import ModuleDocs.Proofs.Schema
import ModuleDocs.Proofs.Config.Accepted
import ModuleDocs.Proofs.Term.Update
import ModuleDocs.Proofs.Collector.Merging
import ModuleDocs.Proofs.Collector.Lines
import ModuleDocs.Proofs.Source.Places
import ModuleDocs.Proofs.Source.Spans
import ModuleDocs.Proofs.Compile.Places
import ModuleDocs.Proofs.Text.Digit
import ModuleDocs.Proofs.Entity.Argument
