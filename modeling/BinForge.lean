import BinForge.Alignment
import BinForge.MachineInteger
import BinForge.StatefulExcept
import BinForge.OrderedMap
import BinForge.ListSplice
import BinForge.ShiftRegister
import BinForge.Base
import BinForge.Image
import BinForge.Memory
import BinForge.MemoryInvariant
import BinForge.CellMemory
import BinForge.MemoryContents
import BinForge.StoredInteger
import BinForge.Patch
import BinForge.PatchApplication
import BinForge.StreamCodec
import BinForge.Reader
import BinForge.Snapshot
import BinForge.SnapshotPipeline
import BinForge.SnapshotCanonical
import BinForge.PatchCodec
import BinForge.PatchContainer
import BinForge.Validator
import BinForge.Manifest
import BinForge.ManifestRoundTrip
import BinForge.ContainerIntegrity
import BinForge.Loader
import BinForge.LoadedContents
import BinForge.LoadFailure
import BinForge.ResolverTables
import BinForge.ImportedSymbols
import BinForge.ImportBinding
import BinForge.ImportSlots
import BinForge.LoadedSegment
import BinForge.RelocationDecoder
import BinForge.RelocationRecords
import BinForge.PeBaseGrammar
import BinForge.BaseRelocation
import BinForge.AddressTranslator
import BinForge.TranslatedRange
import BinForge.SectionTranslation
import BinForge.Scanners
import BinForge.ElfParser
import BinForge.ElfFile
import BinForge.ElfRelocationSymbols
import BinForge.MachOParser
import BinForge.MachOFile
import BinForge.PeParser
import BinForge.BinaryParser
import BinForge.PeFile
import BinForge.PeSectionTable
import BinForge.PeLoading
import BinForge.MonotoneDrift
import BinForge.Builder
import BinForge.SectionLayout
import BinForge.BuiltImage
import BinForge.ParserValidation
import BinForge.FileAttribution
import BinForge.SnapshotRestore
import BinForge.MemoryBudget
import BinForge.ManifestSelection
import BinForge.ManifestNormalForm
import BinForge.FileExtents
import BinForge.Layout
import BinForge.LayoutMeaning
import BinForge.LayoutLoading
import BinForge.MemoryHistory
import BinForge.StronglyConnected
import BinForge.LowLinkSearch
import BinForge.LowLinkComponents
import BinForge.SectionGraph
import BinForge.SectionComponents
import BinForge.SectionFacts
import BinForge.TotalCalls
import BinForge.ElfRelocations
import BinForge.ElfAcceptance
import BinForge.RecordLayout
import BinForge.ElfEncoding
import BinForge.ElfContent
import BinForge.ElfDecoding
import BinForge.MachOContainment
import BinForge.MemoryLaws
import BinForge.Rebasing
import BinForge.PcRelative
import BinForge.PermutedRuns
import BinForge.RelocationOrder
import BinForge.KeyedIndex
import BinForge.ImageDiff
import BinForge.ImageDiffMeaning
import BinForge.Leb128
import BinForge.UnsignedLeb
import BinForge.SignedLeb
import BinForge.IntegerAccess
import BinForge.DebugInfo
import BinForge.DebugForest
import BinForge.Json
import BinForge.JsonReader
import BinForge.ImageAnalyzer
import BinForge.Hardening
import BinForge.ReportWriter
import BinForge.JsonReport
import BinForge.ReportTruncation
import BinForge.OverlapReports
import BinForge.NoteParser
import BinForge.NoteRoundTrip
import BinForge.BitFields
import BinForge.Disassembler
import BinForge.DisassemblyAnalyzer
import BinForge.Arm64Branches
import BinForge.RiscVEncoding
import BinForge.Tiling
import BinForge.LinearSweep
import BinForge.Leaders
import BinForge.BasicBlocks
import BinForge.ControlFlow
import BinForge.ControlFlowEdges
import BinForge.ElfSymbolBudget
import BinForge.ElfSymbolRecords
import BinForge.InstructionStream
import BinForge.PortableReads
import BinForge.LineProgram
import BinForge.LineInstructions
import BinForge.LineRuns
import BinForge.LineInputs
import BinForge.LineUnits
import BinForge.LineArithmetic
import BinForge.LineOpcodes
import BinForge.Checklist
import BinForge.Measured
import BinForge.RangeOrder
import BinForge.RelatedLists
import BinForge.LayoutExact
import BinForge.BuilderPlacement
import BinForge.FailureReports
import BinForge.MachOChecks
import BinForge.PeChecks
import BinForge.ManifestChecks
import BinForge.Rejections
import BinForge.SymbolLookup
import BinForge.SignatureScan
import BinForge.StringScan
import BinForge.AsciiPieces
import BinForge.Utf8Codec
import BinForge.Utf8Text
import BinForge.StringsApart
import BinForge.Utf16Resume
import BinForge.QueryAnswers
import BinForge.LastWrite
import BinForge.ElfDynamic
import BinForge.DynamicRelocations
import BinForge.PeImports
import BinForge.ExportReuse
import BinForge.ImportTables
import BinForge.CallBudget
import BinForge.PeResources
import BinForge.ResourceVisits
import BinForge.RoundLoop
import BinForge.Unwind
import BinForge.UnwindProgress
import BinForge.Confined
import BinForge.ToolRuns
import BinForge.ToolInvariants
import BinForge.RegionSets
import BinForge.StoreSequences
import BinForge.LoadSpecification
import BinForge.LoadOrder
import BinForge.Accumulators
import BinForge.Dependencies
import BinForge.MachONotes
import BinForge.PatchComposition
import BinForge.Unloading
import BinForge.LoadedTranslation
import BinForge.PositionIndependence
import BinForge.Contraction
import BinForge.ExecutionFlow
import BinForge.DifferenceReplay
import BinForge.PatchOrder
import BinForge.EhFrameEncoding
import BinForge.MachOEncoding
import BinForge.ResourceTrees
import BinForge.ResourceWalks
