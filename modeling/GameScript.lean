import GameScript.Bytes
import GameScript.Check.Body
import GameScript.Check.Checked
import GameScript.Check.Declare
import GameScript.Check.Expr
import GameScript.Check.Script
import GameScript.Cipher.Aes
import GameScript.Cipher.Payload
import GameScript.Code.Assemble
import GameScript.Code.Assembly
import GameScript.Code.Buffer
import GameScript.Code.Disassembly
import GameScript.Code.Encode
import GameScript.Code.Listing
import GameScript.Code.NativeNames
import GameScript.Code.Opcode
import GameScript.Compile
import GameScript.Container.Basic
import GameScript.Container.Compression
import GameScript.Container.Format
import GameScript.Data.Init
import GameScript.Data.Segment
import GameScript.Deflate.Bits
import GameScript.Deflate.CodeTree
import GameScript.Deflate.Inflate
import GameScript.Deflate.Zlib
import GameScript.Diagnostic
import GameScript.Error
import GameScript.Identity
import GameScript.Key.Digest
import GameScript.Key.Store
import GameScript.Literal
import GameScript.Lowering.Body
import GameScript.Lowering.Value
import GameScript.Number.Binary32
import GameScript.Number.Shortest
import GameScript.Proofs.AccessPaths
import GameScript.Proofs.AddressNames
import GameScript.Proofs.ArgumentSlots
import GameScript.Proofs.AssembleGenerated
import GameScript.Proofs.AssemblyLines
import GameScript.Proofs.AssemblySucceeds
import GameScript.Proofs.BlockScopes
import GameScript.Proofs.BodyTyping
import GameScript.Proofs.ByteStrings
import GameScript.Proofs.CallSlots
import GameScript.Proofs.CaseInsensitivity
import GameScript.Proofs.CheckEvaluation
import GameScript.Proofs.CheckerSoundness
import GameScript.Proofs.CipherBlocks
import GameScript.Proofs.CipherInverse
import GameScript.Proofs.CodeRegions
import GameScript.Proofs.CodeTiling
import GameScript.Proofs.CompileOutcome
import GameScript.Proofs.ContainerCodec
import GameScript.Proofs.ContainerReencode
import GameScript.Proofs.ControlFlow
import GameScript.Proofs.CutImages
import GameScript.Proofs.DataAccess
import GameScript.Proofs.DataContents
import GameScript.Proofs.DataPlacement
import GameScript.Proofs.DataRegions
import GameScript.Proofs.DeclareInvariant
import GameScript.Proofs.DefaultInit
import GameScript.Proofs.DefaultWords
import GameScript.Proofs.DependencyEdges
import GameScript.Proofs.DisassembleAssembled
import GameScript.Proofs.EncodingErrors
import GameScript.Proofs.ExprTyping
import GameScript.Proofs.FixupResolution
import GameScript.Proofs.FoldedData
import GameScript.Proofs.FrameSlots
import GameScript.Proofs.GeneratedLabels
import GameScript.Proofs.GeneratedProgram
import GameScript.Proofs.GeneratedReturns
import GameScript.Proofs.GraphReachability
import GameScript.Proofs.ImageParts
import GameScript.Proofs.InitialBytes
import GameScript.Proofs.InstructionBytes
import GameScript.Proofs.InstructionCodec
import GameScript.Proofs.InstructionReencode
import GameScript.Proofs.KeptDeclarations
import GameScript.Proofs.KeyClashes
import GameScript.Proofs.LabelKeys
import GameScript.Proofs.LabelOperands
import GameScript.Proofs.LabelResolution
import GameScript.Proofs.LabelTable
import GameScript.Proofs.LabelledAddresses
import GameScript.Proofs.ListedFunctions
import GameScript.Proofs.LiteralStorage
import GameScript.Proofs.LoweredCode
import GameScript.Proofs.LoweringTotal
import GameScript.Proofs.NameLookups
import GameScript.Proofs.NameResolution
import GameScript.Proofs.NameUses
import GameScript.Proofs.NothingDropped
import GameScript.Proofs.Occurrences
import GameScript.Proofs.Outcomes
import GameScript.Proofs.PieceLayout
import GameScript.Proofs.QuotedText
import GameScript.Proofs.ReachableReturns
import GameScript.Proofs.Reassembly
import GameScript.Proofs.RegistryHistory
import GameScript.Proofs.RegistryRemoval
import GameScript.Proofs.ReturnAnalysis
import GameScript.Proofs.ScriptTyping
import GameScript.Proofs.SlotArithmetic
import GameScript.Proofs.SourcePlaces
import GameScript.Proofs.StackBalance
import GameScript.Proofs.StackEffects
import GameScript.Proofs.StackMachine
import GameScript.Proofs.StackPaths
import GameScript.Proofs.StatementLabels
import GameScript.Proofs.StoredBlocks
import GameScript.Proofs.StructFixpoint
import GameScript.Proofs.StructMeaning
import GameScript.Proofs.StructWorklist
import GameScript.Proofs.TextEncoding
import GameScript.Proofs.Translation
import GameScript.Proofs.TypeEquivalence
import GameScript.Proofs.TypeFacts
import GameScript.Proofs.WellTyped
import GameScript.Script.Program
import GameScript.Script.Source
import GameScript.Symbol.Basic
import GameScript.Symbol.Label
import GameScript.Symbol.Scope
import GameScript.Text.Blank
import GameScript.Text.Hex
import GameScript.Text.Integer
import GameScript.Text.Name
import GameScript.Text.Quoted
import GameScript.Text.Utf8
import GameScript.Type.Basic
import GameScript.Type.Compatible
import GameScript.Type.Registry
