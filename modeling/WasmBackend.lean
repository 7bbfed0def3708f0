import WasmBackend.ArrayProfile
import WasmBackend.Binary.Encoding
import WasmBackend.Binary.Error
import WasmBackend.Binary.Leb128
import WasmBackend.Binary.Reader
import WasmBackend.Binary.Token
import WasmBackend.Code
import WasmBackend.CodePosition
import WasmBackend.Conversion
import WasmBackend.DataSection
import WasmBackend.Emission
import WasmBackend.Error
import WasmBackend.Float.Decimal
import WasmBackend.Float.Format
import WasmBackend.FunctionRegistry
import WasmBackend.Instruction
import WasmBackend.Literal
import WasmBackend.Lowering
import WasmBackend.Module.Binary
import WasmBackend.Module.BinaryWriter
import WasmBackend.Module.Buffer
import WasmBackend.Module.Draft
import WasmBackend.Module.Text
import WasmBackend.Module.Writer
import WasmBackend.ModuleCompiler
import WasmBackend.Opcode
import WasmBackend.OperandType
import WasmBackend.Operator
import WasmBackend.Options
import WasmBackend.Options.Document
import WasmBackend.Proofs.Execution
import WasmBackend.Proofs.Outcome
import WasmBackend.Proofs.RelatedLists
import WasmBackend.Proofs.VerifierSteps
import WasmBackend.SlotTable
import WasmBackend.StringPool
import WasmBackend.Text.Quoted
import WasmBackend.Text.Shown
import WasmBackend.TypeRegistry
import WasmBackend.ValueType
import WasmBackend.Verifier
import WasmBackend.Proofs.VerifierSoundness
import WasmBackend.Proofs.TypeRegistry
import WasmBackend.Proofs.SlotTable
import WasmBackend.Proofs.Typing
import WasmBackend.Proofs.EmissionTyping
import WasmBackend.Proofs.GroupScan
import WasmBackend.Proofs.Leb128
import WasmBackend.Proofs.Reader
import WasmBackend.Proofs.Decoding
import WasmBackend.Proofs.BinaryModule
import WasmBackend.Proofs.BinaryWriter
import WasmBackend.Proofs.BufferedCode
import WasmBackend.Proofs.BodyDecoding
import WasmBackend.Proofs.WrittenCode
import WasmBackend.Proofs.EmissionCalls
import WasmBackend.Proofs.Compilation
import WasmBackend.Proofs.CodeSection
import WasmBackend.Proofs.KnownFunctions
import WasmBackend.Proofs.CompiledFunction
import WasmBackend.Proofs.Recompilation
import WasmBackend.Proofs.PoolRuns
import WasmBackend.Proofs.Session
import WasmBackend.Proofs.CallIndices
import WasmBackend.Proofs.StringTable
import WasmBackend.Proofs.TableLayout
import WasmBackend.Proofs.StringLiterals
import WasmBackend.Proofs.FloatRounding
import WasmBackend.Proofs.HostScript
import WasmBackend.Proofs.ArrayMachine
import WasmBackend.Proofs.ArrayElements
import WasmBackend.Proofs.ArrayProgram
import WasmBackend.Proofs.ArrayRuns
import WasmBackend.Proofs.ArrayProfiles
import WasmBackend.Proofs.OpenBlocks
import WasmBackend.Proofs.OperandStack
import WasmBackend.Proofs.CompileVerdict
import WasmBackend.Proofs.Subtyping
import WasmBackend.Proofs.ClassNames
import WasmBackend.Proofs.HelperSelection
import WasmBackend.Proofs.HelperContracts
import WasmBackend.Proofs.UnfinishedModule
import WasmBackend.Proofs.TextListing
import WasmBackend.Proofs.FunctionNeeds
import WasmBackend.Proofs.CodeFunctions
import WasmBackend.Proofs.CompleteModule
import WasmBackend.Proofs.FunctionViews
import WasmBackend.Proofs.SharedNeeds
import WasmBackend.Proofs.CompilationOrder
import WasmBackend.Proofs.TokenStreams
import WasmBackend.Proofs.SourcePositions
import WasmBackend.Proofs.EmittedLocals
import WasmBackend.Proofs.ParallelModules
import WasmBackend.Proofs.WriterAgreement
import WasmBackend.Proofs.ClassNumbers
import WasmBackend.Proofs.FunctionRuns
import WasmBackend.Proofs.ImportsFirst
import WasmBackend.Proofs.SlotRuns
import WasmBackend.Proofs.ParameterSlots
import WasmBackend.Proofs.WordWriting
import WasmBackend.Proofs.NumbersAtOffset
import WasmBackend.Proofs.ReaderRuns
import WasmBackend.Proofs.ContractQueries
import WasmBackend.Proofs.InsertedBlocks
import WasmBackend.Proofs.IntegerConversions
import WasmBackend.Proofs.FloatTruncation
import WasmBackend.Proofs.ShortestNumbers
import WasmBackend.Proofs.PrintedModule
import WasmBackend.Proofs.ReadableNames
