import HackAssembly.Assembler
import HackAssembly.Assembler.Encode
import HackAssembly.Assembler.Gather
import HackAssembly.Assembler.Resolve
import HackAssembly.Assembler.State
import HackAssembly.Command
import HackAssembly.Computation
import HackAssembly.Constant
import HackAssembly.Diagnostic
import HackAssembly.Disassembly
import HackAssembly.Instruction
import HackAssembly.Instruction.Comp
import HackAssembly.Instruction.Dest
import HackAssembly.Instruction.Jump
import HackAssembly.Main
import HackAssembly.Proofs.CanonicalProgram
import HackAssembly.Proofs.CanonicalText
import HackAssembly.Proofs.ConstantValue
import HackAssembly.Proofs.Encoding
import HackAssembly.Proofs.Gathering
import HackAssembly.Proofs.Lines
import HackAssembly.Proofs.Lockstep
import HackAssembly.Proofs.Program
import HackAssembly.Proofs.Resolution
import HackAssembly.Proofs.RoundTrip
import HackAssembly.Proofs.Run
import HackAssembly.Proofs.Translation
import HackAssembly.Proofs.WordFile
import HackAssembly.Source
import HackAssembly.Statement
import HackAssembly.Symbol
import HackAssembly.SymbolTable
import HackAssembly.Text.Binary
import HackAssembly.Text.Blank
import HackAssembly.Text.Byte
import HackAssembly.Text.Character
import HackAssembly.Text.Decimal
import HackAssembly.Text.Line
import HackAssembly.Text.Printable
import HackAssembly.Text.Quoted
import HackAssembly.Tool
import HackAssembly.Tool.FileSystem
import HackAssembly.Tool.Invocation
import HackAssembly.Tool.Listing
import HackAssembly.Tool.Log
import HackAssembly.Tool.Path
import HackAssembly.Tool.Request
import HackAssembly.Tool.Setting
import HackAssembly.Tool.Standard
import HackAssembly.Proofs.LineForm
import HackAssembly.Proofs.StrictLanguage
import HackAssembly.Proofs.Reports
import HackAssembly.Proofs.Outcomes
import HackAssembly.Proofs.Soundness
import HackAssembly.Proofs.Renaming
import HackAssembly.Proofs.Renumbering
import HackAssembly.Proofs.Layout
import HackAssembly.Proofs.Appending
import HackAssembly.Proofs.Endings
import HackAssembly.Proofs.StrictComputation
import HackAssembly.Proofs.Variables
import HackAssembly.Proofs.Interruption
import HackAssembly.Proofs.DiskLaws
import HackAssembly.Proofs.ToolEffects
import HackAssembly.Proofs.ComputationWord
import HackAssembly.Proofs.FileOutcome
import HackAssembly.Proofs.FurtherPasses
import HackAssembly.Proofs.Reading
import HackAssembly.Proofs.Cutting
import HackAssembly.Proofs.SymbolListing
import HackAssembly.Proofs.CommandLine
