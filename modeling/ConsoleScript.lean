import ConsoleScript.Bytecode.Block
import ConsoleScript.Bytecode.CacheFile
import ConsoleScript.Bytecode.Cbor
import ConsoleScript.Bytecode.Instr
import ConsoleScript.Bytecode.Listing
import ConsoleScript.Bytecode.Op
import ConsoleScript.Bytecode.Word
import ConsoleScript.CommandLine.Basic
import ConsoleScript.CommandLine.Files
import ConsoleScript.CommandLine.Options
import ConsoleScript.CommandLine.Program
import ConsoleScript.CommandLine.Repl
import ConsoleScript.Compile.Argument
import ConsoleScript.Compile.Basic
import ConsoleScript.Compile.Cursor
import ConsoleScript.Compile.Piece
import ConsoleScript.Compile.Statement
import ConsoleScript.Disk
import ConsoleScript.Disk.Path
import ConsoleScript.Engine.Activation
import ConsoleScript.Engine.Basic
import ConsoleScript.Engine.Bindings
import ConsoleScript.Engine.Calls
import ConsoleScript.Engine.Interface
import ConsoleScript.Engine.Registry
import ConsoleScript.Engine.Run
import ConsoleScript.Engine.Shaping
import ConsoleScript.Engine.Step
import ConsoleScript.Engine.Variables
import ConsoleScript.Fault
import ConsoleScript.Ident
import ConsoleScript.Interp
import ConsoleScript.Library.Arithmetic
import ConsoleScript.Library.Catalog
import ConsoleScript.Library.Commands
import ConsoleScript.Library.Loops
import ConsoleScript.Library.Texts
import ConsoleScript.Main
import ConsoleScript.Number.Decimal
import ConsoleScript.Number.Ieee
import ConsoleScript.Number.Numeral
import ConsoleScript.Number.Power
import ConsoleScript.Number.Printing
import ConsoleScript.Number.Reading
import ConsoleScript.Number.Single
import ConsoleScript.Persist.Archive
import ConsoleScript.Persist.ArchiveFile
import ConsoleScript.Persist.Config
import ConsoleScript.Persist.Entry
import ConsoleScript.Persist.Location
import ConsoleScript.Persist.Timestamp
import ConsoleScript.Settings.Basic
import ConsoleScript.Settings.Toml
import ConsoleScript.Settings.TomlDraft
import ConsoleScript.Settings.TomlReader
import ConsoleScript.Settings.TomlText
import ConsoleScript.Signature
import ConsoleScript.Syntax.Escape
import ConsoleScript.Syntax.Words
import ConsoleScript.Table
import ConsoleScript.Text.Bytes
import ConsoleScript.Text.LetterCase
import ConsoleScript.Text.Printable
import ConsoleScript.Text.Quoted
import ConsoleScript.Text.Utf8
import ConsoleScript.Value
import ConsoleScript.Proofs.Bytecode.Words
import ConsoleScript.Proofs.Code.Forms
import ConsoleScript.Proofs.Code.Layout
import ConsoleScript.Proofs.Compile.Arguments
import ConsoleScript.Proofs.Engine.Basics
import ConsoleScript.Proofs.Engine.AliasRestoration
import ConsoleScript.Proofs.Engine.Beginning
import ConsoleScript.Proofs.Engine.Bindings
import ConsoleScript.Proofs.Engine.Calls
import ConsoleScript.Proofs.Engine.Executions
import ConsoleScript.Proofs.Engine.Inlining
import ConsoleScript.Proofs.Engine.OuterArguments
import ConsoleScript.Proofs.Engine.Restoration
import ConsoleScript.Proofs.Engine.CommandCalls
import ConsoleScript.Proofs.Engine.SubExpressions
import ConsoleScript.Proofs.Compile.Making
import ConsoleScript.Proofs.Engine.Compiling
import ConsoleScript.Proofs.Engine.GuaranteedWrites
import ConsoleScript.Proofs.Engine.Indifference
import ConsoleScript.Proofs.Engine.Lasting
import ConsoleScript.Proofs.Engine.LastingRuns
import ConsoleScript.Proofs.Engine.Termination
import ConsoleScript.Proofs.Compile.InPlace
import ConsoleScript.Proofs.Engine.CommandArguments
import ConsoleScript.Proofs.Engine.CompiledJumps
import ConsoleScript.Proofs.Bytecode.Streams
import ConsoleScript.Proofs.Bytecode.Items
import ConsoleScript.Proofs.Bytecode.CacheFiles
import ConsoleScript.Proofs.Engine.Identifiers
import ConsoleScript.Proofs.Compile.Levels
import ConsoleScript.Proofs.Engine.SameArguments
import ConsoleScript.Proofs.Engine.CorruptBlocks
import ConsoleScript.Proofs.Compile.Faces
import ConsoleScript.Proofs.Writes.Stamping
import ConsoleScript.Proofs.Writes.Overrides
import ConsoleScript.Proofs.Interp.Naming
import ConsoleScript.Proofs.Engine.Bodies
import ConsoleScript.Proofs.Writes.Leftovers
import ConsoleScript.Proofs.Persist.Restoring
import ConsoleScript.Proofs.Persist.Reproducing
import ConsoleScript.Proofs.Engine.BoundBlocks
import ConsoleScript.Proofs.Engine.MirroredParts
import ConsoleScript.Proofs.Engine.MirroredRuns
import ConsoleScript.Proofs.Engine.StoredScripts
import ConsoleScript.Proofs.Text.Utf8
import ConsoleScript.Proofs.Bytecode.EmittedLiterals
import ConsoleScript.Proofs.Persist.AliasConfigs
import ConsoleScript.Proofs.Writes.HostWrites
import ConsoleScript.Proofs.Compile.TextNames
import ConsoleScript.Proofs.Engine.CachedScripts
import ConsoleScript.Proofs.Syntax.Elements
import ConsoleScript.Proofs.Library.Lists
import ConsoleScript.Proofs.Writes.EscapedTexts
import ConsoleScript.Proofs.Writes.FloatRanges
import ConsoleScript.Proofs.Library.IntegerCommands
import ConsoleScript.Proofs.Engine.Splices
import ConsoleScript.Proofs.Number.FloatRoundTrips
import ConsoleScript.Proofs.CommandLine.Unfinished
