import ChunkMachine.Opcode
import ChunkMachine.Numeric.Literal
import ChunkMachine.Checksum
import ChunkMachine.Text.Split
import ChunkMachine.Text.Column
import ChunkMachine.Chunk.Basic
import ChunkMachine.Chunk.LineRun
import ChunkMachine.Chunk.Defect
import ChunkMachine.LittleEndian
import ChunkMachine.Image
import ChunkMachine.Assembly
import ChunkMachine.Listing
import ChunkMachine.Text.Printable
import ChunkMachine.Text.Quoted
import ChunkMachine.Token.Kind
import ChunkMachine.Token.Scanner
import ChunkMachine.Token.Dump
import ChunkMachine.Log.Record
import ChunkMachine.Machine.Sink
import ChunkMachine.Machine.Fault
import ChunkMachine.Machine.Stack
import ChunkMachine.Machine.Basic
import ChunkMachine.Machine.Call
import ChunkMachine.Samples
import ChunkMachine.Text.Utf8
import ChunkMachine.Storage.Path
import ChunkMachine.Storage.FileSystem
import ChunkMachine.Storage.Tree
import ChunkMachine.Storage.AtomicWrite
import ChunkMachine.Log.Filter
import ChunkMachine.Shell.Basic
import ChunkMachine.Shell.Repl
import ChunkMachine.Shell.Arguments
import ChunkMachine.Shell.Program
import ChunkMachine.Main
import ChunkMachine.Proofs.Image.Reading
import ChunkMachine.Proofs.Chunk.Reachable
import ChunkMachine.Proofs.Image.Canonical
import ChunkMachine.Proofs.Checksum.Register
import ChunkMachine.Proofs.Image.Burst
import ChunkMachine.Proofs.Machine.Instruction
import ChunkMachine.Proofs.Chunk.Offsets
import ChunkMachine.Proofs.Machine.Steps
import ChunkMachine.Proofs.Machine.Walk
import ChunkMachine.Proofs.Machine.LoadGate
import ChunkMachine.Proofs.Chunk.Growth
import ChunkMachine.Proofs.Machine.Interpretation
import ChunkMachine.Proofs.Machine.Spelled
import ChunkMachine.Proofs.Machine.Assembled
import ChunkMachine.Proofs.Machine.Expression
import ChunkMachine.Proofs.Machine.Height
import ChunkMachine.Proofs.Machine.Control
import ChunkMachine.Proofs.Machine.Frame
import ChunkMachine.Proofs.Machine.History
import ChunkMachine.Proofs.Text.Run
import ChunkMachine.Proofs.Token.Gap
import ChunkMachine.Proofs.Token.Grammar
import ChunkMachine.Proofs.Token.Munch
import ChunkMachine.Proofs.Text.Encoding
import ChunkMachine.Proofs.Text.Decoding
import ChunkMachine.Proofs.Storage.Tree
import ChunkMachine.Proofs.Storage.Disk
import ChunkMachine.Proofs.Image.Loading
import ChunkMachine.Proofs.Shell.Steps
import ChunkMachine.Proofs.Shell.Images
import ChunkMachine.Proofs.Token.Bytes
import ChunkMachine.Proofs.Token.Calls
import ChunkMachine.Proofs.Token.Following
import ChunkMachine.Proofs.Token.Tiling
import ChunkMachine.Proofs.Token.Tokenization
import ChunkMachine.Proofs.Chunk.Store
import ChunkMachine.Proofs.Token.Interleaving
import ChunkMachine.Proofs.Text.Lines
import ChunkMachine.Proofs.Machine.Comparison
import ChunkMachine.Proofs.Machine.Returning
import ChunkMachine.Proofs.Shell.Showing
import ChunkMachine.Proofs.Shell.Session
import ChunkMachine.Proofs.Shell.Prompt
import ChunkMachine.Proofs.Token.Feeds
import ChunkMachine.Proofs.Shell.Source
import ChunkMachine.Proofs.Chunk.Grammar
import ChunkMachine.Proofs.Chunk.Discipline
import ChunkMachine.Proofs.Assembly.Grammar
import ChunkMachine.Proofs.Chunk.Emission
import ChunkMachine.Proofs.Assembly.Acceptance
import ChunkMachine.Proofs.Shell.Turns
import ChunkMachine.Proofs.Token.Lines
import ChunkMachine.Proofs.Token.Spacing
import ChunkMachine.Proofs.Listing.Rows
import ChunkMachine.Proofs.Listing.Faithful
import ChunkMachine.Proofs.Image.PrefixFree
import ChunkMachine.Proofs.Machine.Delivery
import ChunkMachine.Proofs.Machine.Extension
import ChunkMachine.Proofs.Machine.Transcript
import ChunkMachine.Proofs.Checksum.Remainder
import ChunkMachine.Proofs.Numeric.Rounding
import ChunkMachine.Proofs.Numeric.Reading
import ChunkMachine.Proofs.Assembly.Constants
import ChunkMachine.Proofs.Text.Pieces
import ChunkMachine.Proofs.Storage.Directory
import ChunkMachine.Proofs.Storage.Temporary
import ChunkMachine.Proofs.Storage.Replacement
import ChunkMachine.Proofs.Storage.Effects
import ChunkMachine.Proofs.Chunk.Continuation
import ChunkMachine.Proofs.Chunk.LineRuns
import ChunkMachine.Proofs.Machine.Trail
import ChunkMachine.Proofs.Samples.Chunks
import ChunkMachine.Proofs.Samples.Source
