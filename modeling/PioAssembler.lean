import PioAssembler.Trap
import PioAssembler.Error
import PioAssembler.Failure
import PioAssembler.Isa.Operand
import PioAssembler.Isa.Word
import PioAssembler.Isa.SideSet
import PioAssembler.Isa.Instruction
import PioAssembler.Text.Numeral
import PioAssembler.Text.Json
import PioAssembler.Event
import PioAssembler.Labels.SymbolTable
import PioAssembler.Labels.Basic
import PioAssembler.Labels.Resolve
import PioAssembler.Program.Basic
import PioAssembler.Program.Listing
import PioAssembler.Program.Image
import PioAssembler.Assembly.Statement
import PioAssembler.Assembly.Draft
import PioAssembler.Assembly.Session
import PioAssembler.Assembly.Run
import PioAssembler.Assembly.Build
import PioAssembler.Catalog
import PioAssembler.CommandLine.Command
import PioAssembler.CommandLine.Run
import PioAssembler.Main
import PioAssembler.Proofs.Format
import PioAssembler.Proofs.Source
import PioAssembler.Proofs.Invariant
import PioAssembler.Proofs.Correspondence
import PioAssembler.Proofs.Image
import PioAssembler.Proofs.Admission
import PioAssembler.Proofs.Disassembly
import PioAssembler.Proofs.Decodability
import PioAssembler.Proofs.Legality
import PioAssembler.Proofs.Reassembly
import PioAssembler.Proofs.Outcome
import PioAssembler.Proofs.Refusal
import PioAssembler.Proofs.Replay
import PioAssembler.Proofs.Extension
import PioAssembler.Proofs.SymbolOrder
import PioAssembler.Proofs.Commutation
import PioAssembler.Proofs.Resolution
import PioAssembler.Proofs.EventLog
import PioAssembler.Proofs.Renaming
import PioAssembler.Proofs.FirstDefinition
import PioAssembler.Proofs.ListingText
import PioAssembler.Proofs.Packing
import PioAssembler.Proofs.ListingLossless
import PioAssembler.Proofs.JsonToken
import PioAssembler.Proofs.JsonReader
import PioAssembler.Proofs.JsonRoundTrip
import PioAssembler.Proofs.WordFormats
import PioAssembler.Proofs.Traps
