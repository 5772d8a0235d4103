import Mathlib.Data.List.Lex
import BinForge.KeyedIndex
import BinForge.Loader

/-!
# Comparing two images

`ImageDiffer` indexes each table of both images by a key, reports the keys
that only one of them has and the values that are described differently, and
compares the relocations position by position.
-/

namespace BinForge

inductive DifferenceKind
  | headerChanged
  | sectionAdded
  | sectionRemoved
  | sectionChanged
  | segmentAdded
  | segmentRemoved
  | segmentChanged
  | symbolAdded
  | symbolRemoved
  | symbolChanged
  | importAdded
  | importRemoved
  | exportAdded
  | exportRemoved
  | relocationChanged
  deriving DecidableEq, Repr

structure ImageDifference where
  kind : DifferenceKind := .headerChanged
  identity : Bytes := []
  before : Bytes := []
  after : Bytes := []
  address : UInt64 := 0
  deriving DecidableEq, Repr

structure ImageDiffReport where
  equivalent : Bool := false
  additions : UInt32 := 0
  removals : UInt32 := 0
  modifications : UInt32 := 0
  differences : List ImageDifference := []
  deriving DecidableEq, Repr

namespace ImageDiffer

open OrderedMap
open BinaryLoader

/-! ## Descriptions and keys -/

def describeRanges (fileOffset fileSize virtualAddress memorySize : UInt64)
    (permissions : UInt8) : Bytes :=
  ascii "file=" ++ decimal fileOffset.toNat ++ ascii "+" ++
    decimal fileSize.toNat ++ ascii " virtual=" ++
    decimal virtualAddress.toNat ++ ascii "+" ++ decimal memorySize.toNat ++
    ascii " permissions=" ++ decimal permissions.toNat

def sectionDescription (item : Section) : Bytes :=
  describeRanges item.fileOffset item.fileSize item.virtualAddress
      item.memorySize item.permissions ++
    ascii " kind=" ++ decimal (ByteCoded.toByte item.kind).toNat

def segmentDescription (segment : Segment) : Bytes :=
  describeRanges segment.fileOffset segment.fileSize segment.virtualAddress
    segment.memorySize segment.permissions

def symbolDescription (symbol : Symbol) : Bytes :=
  ascii "value=" ++ decimal symbol.value.toNat ++ ascii " size=" ++
    decimal symbol.size.toNat ++ ascii " section=" ++
    decimal symbol.sectionIndex.toNat ++ ascii " binding=" ++
    decimal (ByteCoded.toByte symbol.binding).toNat ++ ascii " kind=" ++
    decimal (ByteCoded.toByte symbol.kind).toNat

/-- A name, or the number that stands for an empty one. -/
def nameOr (name : Bytes) (number : ℕ) : Bytes :=
  if name = [] then ascii "#" ++ decimal number else name

def sectionKey (item : Section) : Bytes := nameOr item.name item.index.toNat

def segmentKey (segment : Segment) : UInt64 := segment.virtualAddress

def symbolKey (symbol : Symbol) : Bytes :=
  symbol.library ++ ascii "!" ++ symbol.name ++ ascii "@" ++
    decimal symbol.value.toNat

def importKey (imported : Import) : Bytes :=
  imported.library ++ ascii "!" ++ nameOr imported.name imported.ordinal.toNat

def exportKey (exported : Export) : Bytes :=
  nameOr exported.name exported.ordinal.toNat

/-! ## The report -/

def addDifference (report : ImageDiffReport) (difference : ImageDifference)
    (addition removal : Bool) : ImageDiffReport :=
  { report with
    additions :=
      if addition then report.additions + 1 else report.additions
    removals :=
      if !addition && removal then report.removals + 1 else report.removals
    modifications :=
      if !addition && !removal then report.modifications + 1
      else report.modifications
    differences := report.differences ++ [difference] }

/-- The arguments of one call of `addDifference`. -/
structure Change where
  difference : ImageDifference
  addition : Bool
  removal : Bool
  deriving DecidableEq, Repr

/-! ## The passes

Each pass lists its calls of `addDifference` in the order of its loops. -/

def headerChanges (before after : FileHeader) : List Change :=
  if before.format ≠ after.format ∨ before.wordSize ≠ after.wordSize ∨
      before.byteOrder ≠ after.byteOrder ∨ before.kind ≠ after.kind ∨
      before.architecture ≠ after.architecture ∨
      before.entryPoint ≠ after.entryPoint ∨
      before.imageBase ≠ after.imageBase ∨ before.flags ≠ after.flags then
    [{ difference := { kind := .headerChanged, identity := "header"
                       before := "before", after := "after"
                       address := after.entryPoint }
       addition := false, removal := false }]
  else []

variable {κ α : Type} [LinearOrder κ]

/-- The kinds a pass over a keyed table reports and how it prints an item. -/
structure Pass (κ α : Type) where
  removed : DifferenceKind
  added : DifferenceKind
  identity : κ → Bytes
  description : α → Bytes
  address : κ → α → UInt64

def Pass.removal (pass : Pass κ α) (item : κ × α) : Change :=
  { difference := { kind := pass.removed, identity := pass.identity item.1
                    before := pass.description item.2
                    address := pass.address item.1 item.2 }
    addition := false, removal := true }

def Pass.addition (pass : Pass κ α) (item : κ × α) : Change :=
  { difference := { kind := pass.added, identity := pass.identity item.1
                    after := pass.description item.2
                    address := pass.address item.1 item.2 }
    addition := true, removal := false }

/-- The body of the loop over the items after. -/
def Pass.compareAfter (pass : Pass κ α) (before : OrderedMap κ α)
    (item : κ × α) : List Change :=
  if before.contains item.1 then [] else [pass.addition item]

/-- The body of the loop over the items before; nothing is said about an item
that is found. -/
def Pass.compareBefore (pass : Pass κ α) (after : OrderedMap κ α)
    (item : κ × α) : List Change :=
  if after.contains item.1 then [] else [pass.removal item]

/-- The two loops over a table whose items are present or absent. -/
def Pass.changes (pass : Pass κ α) (key : α → κ) (before after : List α) :
    List Change :=
  let before := index key before
  let after := index key after
  before.entries.flatMap (pass.compareBefore after) ++
    after.entries.flatMap (pass.compareAfter before)

/-- A pass that also compares the descriptions of an item that is found. -/
structure DescribedPass (κ α : Type) extends Pass κ α where
  changed : DifferenceKind

def DescribedPass.modification (pass : DescribedPass κ α) (item : κ × α)
    (found : α) : Change :=
  { difference := { kind := pass.changed, identity := pass.identity item.1
                    before := pass.description item.2
                    after := pass.description found
                    address := pass.address item.1 found }
    addition := false, removal := false }

def DescribedPass.compareFound (pass : DescribedPass κ α)
    (after : OrderedMap κ α) (item : κ × α) : List Change :=
  match after.find? item.1 with
  | none => [pass.removal item]
  | some found =>
      if pass.description item.2 ≠ pass.description found then
        [pass.modification item found]
      else []

/-- The two loops over a table whose items are described. -/
def DescribedPass.describedChanges (pass : DescribedPass κ α) (key : α → κ)
    (before after : List α) : List Change :=
  let before := index key before
  let after := index key after
  before.entries.flatMap (pass.compareFound after) ++
    after.entries.flatMap (pass.compareAfter before)

def sectionPass : DescribedPass Bytes Section :=
  { removed := .sectionRemoved, added := .sectionAdded
    changed := .sectionChanged, identity := id
    description := sectionDescription
    address := fun _ item => item.virtualAddress }

def segmentPass : DescribedPass UInt64 Segment :=
  { removed := .segmentRemoved, added := .segmentAdded
    changed := .segmentChanged
    identity := fun address => decimal address.toNat
    description := segmentDescription, address := fun address _ => address }

def symbolPass : DescribedPass Bytes Symbol :=
  { removed := .symbolRemoved, added := .symbolAdded, changed := .symbolChanged
    identity := id, description := symbolDescription
    address := fun _ symbol => symbol.value }

def importPass : Pass Bytes Import :=
  { removed := .importRemoved, added := .importAdded, identity := id
    description := fun _ => "present"
    address := fun _ imported => imported.slotAddress }

def exportPass : Pass Bytes Export :=
  { removed := .exportRemoved, added := .exportAdded, identity := id
    description := fun _ => "present"
    address := fun _ exported => exported.address }

def presence (relocation : Option Relocation) : Bytes :=
  if relocation.isSome then "present" else []

/-- The relocations at one position, when there is one on either side. -/
def relocationChange (index : ℕ) (before after : Option Relocation) :
    Change :=
  { difference :=
      { kind := .relocationChanged, identity := decimal index
        before := presence before, after := presence after
        address :=
          match after with
          | some after => after.offset
          | none => (before.map Relocation.offset).getD 0 }
    addition := before.isNone, removal := after.isNone }

def compareRelocation (before after : List Relocation) (index : ℕ) :
    List Change :=
  let change := relocationChange index before[index]? after[index]?
  match before[index]?, after[index]? with
  | some left, some right =>
      if left.kind ≠ right.kind ∨ left.offset ≠ right.offset ∨
          left.symbolIndex ≠ right.symbolIndex ∨
          left.addend ≠ right.addend then [change]
      else []
  | _, _ => [change]

def relocationChanges (before after : List Relocation) : List Change :=
  (List.range (max before.length after.length)).flatMap
    (compareRelocation before after)

/-! ## The comparison -/

def totalItems (before after : BinaryImage) : ℕ :=
  before.sections.length + after.sections.length + before.segments.length +
    after.segments.length + before.symbols.length + after.symbols.length +
    before.imports.length + after.imports.length + before.exports.length +
    after.exports.length + before.relocations.length +
    after.relocations.length

def itemLimit (limits : Limits) : ℕ :=
  limits.maxSections.toNat * 4 + limits.maxSymbols.toNat * 4 +
    limits.maxRelocations.toNat * 2

def changes (before after : BinaryImage) : List Change :=
  headerChanges before.header after.header ++
    sectionPass.describedChanges sectionKey before.sections after.sections ++
    segmentPass.describedChanges segmentKey before.segments after.segments ++
    symbolPass.describedChanges symbolKey before.symbols after.symbols ++
    importPass.changes importKey before.imports after.imports ++
    exportPass.changes exportKey before.exports after.exports ++
    relocationChanges before.relocations after.relocations

/-- The report, and the error object the caller passed in. -/
def compare (limits : Limits) (before after : BinaryImage) :
    ImageDiffReport × Error :=
  if totalItems before after > itemLimit limits then
    ({}, { code := .resourceLimit
           message := "image comparison exceeds item limit" })
  else
    let report := (changes before after).foldl
      (fun report change =>
        addDifference report change.difference change.addition change.removal)
      {}
    ({ report with equivalent := report.differences.isEmpty }, {})

end ImageDiffer
end BinForge
