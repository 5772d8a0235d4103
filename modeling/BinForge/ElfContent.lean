import BinForge.ElfEncoding

/-!
# The content of an ELF file

The logical content of an ELF file is its headers and the entries of its
tables.  A file lays a content out when every record stands at its place, in
the class and the byte order of the file.  An image shows a content when its
numeric fields are those of the content, in the same order.
-/

namespace BinForge

open RecordLayout
open ElfParser
open RelocationTableDecoder

namespace ElfEncoding

/-! ## Logical contents -/

def StoresSymbols (table : RawSection) : Prop :=
  table.type = 2 ∨ table.type = 11

def StoresRelocations (table : RawSection) : Prop :=
  table.type = 4 ∨ table.type = 9

/-- A section header with the entries of the section, when it is a table. -/
structure SectionContent where
  header : RawSection
  symbols : List SymbolEntry := []
  relocations : List RelocationEntry := []
  storesSymbols : symbols ≠ [] → StoresSymbols header
  storesRelocations : relocations ≠ [] → StoresRelocations header

structure Content where
  type : UInt16
  machine : UInt16
  header : ElfHeader
  sections : List SectionContent
  programs : List ProgramEntry

namespace Content

variable (content : Content)

def symbols : List SymbolEntry :=
  content.sections.flatMap SectionContent.symbols

/-- Each relocation with the header of its table. -/
def relocations : List (RawSection × RelocationEntry) :=
  content.sections.flatMap fun item =>
    item.relocations.map fun entry => (item.header, entry)

/-- The load segments with their positions in the program table. -/
def loads : List (ProgramEntry × ℕ) :=
  content.programs.zipIdx.filter fun load => load.1.kind = 1

/-- The address of the section a table applies to, in a relocatable file. -/
def baseAddress (table : RawSection) : UInt64 :=
  if content.type = 1 then
    (content.sections[table.info.toNat]?.map fun target =>
      target.header.address).getD 0
  else 0

structure Fits (wide : Bool) : Prop where
  header : HeaderFits wide content.header
  sections : ∀ item ∈ content.sections, SectionFits wide item.header
  programs : ∀ item ∈ content.programs, ProgramFits wide item
  symbols : ∀ entry ∈ content.symbols, SymbolFits wide entry
  relocations : ∀ entry ∈ content.relocations, RelocationFits wide entry.2

/-- The ranges lie in the file, whose length is a machine word. -/
structure Inside (data : Bytes) : Prop where
  length : data.length < 2 ^ 64
  sectionTable : content.header.sectionOffset.toNat +
    content.header.sectionEntrySize.toNat * content.sections.length ≤ data.length
  programTable : content.header.programOffset.toNat +
    content.header.programEntrySize.toNat * content.programs.length ≤ data.length
  sections : ∀ item ∈ content.sections, StoredInside data item.header
  loads : ∀ item ∈ content.programs, item.kind = 1 →
    item.fileOffset.toNat + item.fileSize.toNat ≤ data.length

structure Within (limits : Limits) : Prop where
  sections : content.sections.length ≤ limits.maxSections.toNat
  programs : content.programs.length ≤ limits.maxSegments.toNat
  symbols : ∀ item ∈ content.sections,
    item.symbols.length ≤ limits.maxSymbols.toNat
  relocations : content.relocations.length ≤ limits.maxRelocations.toNat

/-- Records that fill a section, at the distance its header gives. -/
structure Fills (data : Bytes) (table : RawSection) (records : List Bytes) :
    Prop where
  size : table.size.toNat = records.length * table.entrySize.toNat
  records : Tabulated data table.offset.toNat table.entrySize.toNat records

structure LaidOut (wide : Bool) (order : ByteOrder) (data : Bytes) : Prop where
  identification : Holds data 0 (identification wide order)
  header : Holds data 16
    (headerRecord wide order content.type content.machine content.header)
  sectionCount : content.header.sectionCount.toNat = content.sections.length
  programCount : content.header.programCount.toNat = content.programs.length
  sections : Tabulated data content.header.sectionOffset.toNat
    content.header.sectionEntrySize.toNat
    (content.sections.map fun item => sectionRecord wide order item.header)
  programs : Tabulated data content.header.programOffset.toNat
    content.header.programEntrySize.toNat
    (content.programs.map (programRecord wide order))
  symbols : ∀ item ∈ content.sections, StoresSymbols item.header →
    item.header.link.toNat < content.sections.length ∧
      Fills data item.header (item.symbols.map (symbolRecord wide order))
  relocations : ∀ item ∈ content.sections, StoresRelocations item.header →
    Fills data item.header (item.relocations.map
      (relocationRecord wide order (item.header.type == 4)))

/-- The file is an encoding of the content that the parser is to read. -/
structure Encoded (limits : Limits) (wide : Bool) (order : ByteOrder)
    (data : Bytes) : Prop where
  fits : content.Fits wide
  inside : content.Inside data
  within : content.Within limits
  laidOut : content.LaidOut wide order data
  targets : ∀ entry ∈ content.relocations,
    (content.baseAddress entry.1).toNat + entry.2.offset.toNat < 2 ^ 64

/-- No load segment is larger in the file than in memory. -/
def LoadsFit : Prop :=
  ∀ item ∈ content.programs, item.kind = 1 → item.fileSize ≤ item.memorySize

end Content

/-! ## What the image shows -/

/-- A section without what is read from the string table. -/
def unnamedSection (item : Section) : Section :=
  { item with name := [], kind := .unknown }

def unnamedSymbol (item : Symbol) : Symbol := { item with name := [] }

def shownSection (item : RawSection) (index : ℕ) : Section :=
  { index := UInt32.ofNat index, fileOffset := item.offset
    fileSize := item.size, virtualAddress := item.address
    memorySize := item.size
    alignment := if item.alignment = 0 then 1 else item.alignment
    entrySize := item.entrySize, link := item.link, info := item.info
    permissions := elfPermissions item.flags }

theorem unnamedSection_toSection (limits : Limits) (data : Bytes)
    (raw : List RawSection) (namesIndex : UInt16) (item : RawSection)
    (index : ℕ) :
    unnamedSection (item.toSection limits data raw namesIndex index) =
      shownSection item index := by
  simp only [unnamedSection, RawSection.toSection, shownSection, ne_eq, ite_not]

def shownSegment (item : ProgramEntry) (index : ℕ) : Segment :=
  { index := UInt32.ofNat index, fileOffset := item.fileOffset
    fileSize := item.fileSize, virtualAddress := item.virtualAddress
    memorySize := item.memorySize, alignment := item.alignment
    permissions := segmentPermissions item.flags }

def shownSymbol (item : SymbolEntry) (index : ℕ) : Symbol :=
  { index := UInt32.ofNat index, value := item.value, size := item.size
    sectionIndex := item.sectionIndex.toUInt32
    visibility := item.other &&& 3, kind := elfSymbolKind item.info
    binding := elfBinding item.info item.sectionIndex }

/-- Only a table with explicit addends stores them. -/
def Content.shownRelocation (content : Content)
    (entry : RawSection × RelocationEntry) (index : ℕ) : Relocation :=
  let kind := elfKind (elfArch content.machine) entry.2.type
  { index := UInt32.ofNat index, kind, targetSection := entry.1.info
    symbolIndex := entry.2.symbol
    offset := content.baseAddress entry.1 + entry.2.offset
    addend := if entry.1.type = 4 then entry.2.addend else 0
    width := if kind = .absolute64 ∨ kind = .relative64 then 8 else 4 }

def Content.shownHeader (content : Content) (wide : Bool) (order : ByteOrder) :
    FileHeader :=
  { format := .elfLike, wordSize := if wide then .bits64 else .bits32
    byteOrder := order, kind := ElfParser.elfKind content.type
    architecture := elfArch content.machine
    entryPoint := content.header.entry
    sectionTableOffset := content.header.sectionOffset
    segmentTableOffset := content.header.programOffset
    sectionCount := content.header.sectionCount.toUInt32
    segmentCount := content.header.programCount.toUInt32
    flags := content.header.flags }

structure Content.ShownBy (content : Content) (wide : Bool) (order : ByteOrder)
    (image : BinaryImage) : Prop where
  header : image.header = content.shownHeader wide order
  sections : image.sections.map unnamedSection =
    content.sections.mapIdx fun index item => shownSection item.header index
  segments : image.segments =
    content.loads.map fun load => shownSegment load.1 load.2
  symbols : image.symbols.map unnamedSymbol =
    content.symbols.mapIdx fun index entry => shownSymbol entry index
  relocations : image.relocations =
    content.relocations.mapIdx fun index entry =>
      content.shownRelocation entry index

end ElfEncoding
end BinForge
