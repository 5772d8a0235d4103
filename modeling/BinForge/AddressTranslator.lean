import BinForge.Image

/-!
# File offsets and virtual addresses

`AddressTranslator` looks an address, or a place of the file, up in the
sections and then in the segments of an image.
-/

namespace BinForge

structure FileAddress where
  fileOffset : UInt64 := 0
  available : UInt64 := 0
  sectionIndex : UInt32 := 0
  deriving DecidableEq, Repr

namespace AddressTranslator

/-- The `displacement` bytes into a stored range. -/
def fileAddress (offset size displacement : UInt64) (index : UInt32) :
    Option FileAddress :=
  (checkedAdd offset displacement).map fun place =>
    { fileOffset := place, available := size - displacement,
      sectionIndex := index }

/-- What a section says about an address: nothing, or the loop's result. -/
def lookSection (address length : UInt64) (item : Section) :
    Option (Option FileAddress) :=
  let displacement := address - item.virtualAddress
  if address < item.virtualAddress then none
  else if rangeInside displacement.toNat length.toNat item.memorySize.toNat =
      false then none
  else if rangeInside displacement.toNat length.toNat item.fileSize.toNat =
      false then some none
  else some (fileAddress item.fileOffset item.fileSize displacement item.index)

def lookSegment (address length : UInt64) (segment : Segment) :
    Option (Option FileAddress) :=
  let displacement := address - segment.virtualAddress
  if address < segment.virtualAddress then none
  else if rangeInside displacement.toNat length.toNat segment.fileSize.toNat =
      false then none
  else some
    (fileAddress segment.fileOffset segment.fileSize displacement 0xffffffff)

def virtualToFile (image : BinaryImage) (address length : UInt64) :
    Option FileAddress :=
  (image.sections.findSome? (lookSection address length) <|>
    image.segments.findSome? (lookSegment address length)).join

/-- The loops of `file_to_virtual`, over sections and over segments. -/
def lookStored (fileOffset fileSize virtualAddress offset length : UInt64) :
    Option (Option UInt64) :=
  let displacement := offset - fileOffset
  if offset < fileOffset then none
  else if rangeInside displacement.toNat length.toNat fileSize.toNat =
      false then none
  else some (checkedAdd virtualAddress displacement)

def fileToVirtual (image : BinaryImage) (offset length : UInt64) :
    Option UInt64 :=
  (image.sections.findSome? (fun item => lookStored item.fileOffset
      item.fileSize item.virtualAddress offset length) <|>
    image.segments.findSome? fun segment => lookStored segment.fileOffset
      segment.fileSize segment.virtualAddress offset length).join

/-- The loop of `rva_to_file`, which reads the sections' addresses as RVAs. -/
def lookRva (rva length : UInt64) (item : Section) :
    Option (Option FileAddress) :=
  let displacement := rva - item.virtualAddress
  if rva < item.virtualAddress then none
  else if rangeInside displacement.toNat length.toNat item.fileSize.toNat =
      false then none
  else some (fileAddress item.fileOffset item.fileSize displacement item.index)

def rvaToFile (image : BinaryImage) (rva length : UInt64) :
    Option FileAddress :=
  let bySections := (image.sections.findSome? (lookRva rva length)).join
  if image.header.imageBase ≠ 0 then
    match checkedAdd image.header.imageBase rva with
    | none => none
    | some address => virtualToFile image address length <|> bySections
  else bySections

end AddressTranslator
end BinForge
