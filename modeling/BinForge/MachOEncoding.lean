import BinForge.EncodedNumbers
import BinForge.MachOParser
import BinForge.RelocationRecords

/-!
# Mach-O files written and read back

A Mach-O file as the format defines it, in either byte order and word size:
header, load commands with their segments and sections, and relocation tables
anywhere in the file.  Parsing such a file gives the image of its content.
-/

namespace BinForge

open StatefulExcept
open StreamCodec
open RecordLayout
open ListSplice (slice)
open ByteReader
open ElfEncoding (half word address FitsField word_length address_length)

/-! ## Relocation records -/

/-- A plain relocation record; the scattered form sets the highest bit of its
address. -/
structure RelocationRecord where
  address : UInt32
  symbol : UInt32
  pcRelative : Bool := false
  lengthCode : Fin 4 := 2
  isExternal : Bool := false
  type : Fin 16 := 0
  deriving DecidableEq, Repr

namespace RelocationRecord

/-- The fields behind the address, from the low bits to the high ones. -/
def information (record : RelocationRecord) : UInt32 :=
  UInt32.ofNat (record.symbol.toNat + record.pcRelative.toNat * 2 ^ 24 +
    record.lengthCode * 2 ^ 25 + record.isExternal.toNat * 2 ^ 27 +
    record.type * 2 ^ 28)

def bytes (order : ByteOrder) (record : RelocationRecord) : Bytes :=
  word order record.address ++ word order record.information

@[simp] theorem bytes_length (order : ByteOrder) (record : RelocationRecord) :
    (record.bytes order).length = 8 := by
  rw [bytes, List.length_append, word_length, word_length]

def width (record : RelocationRecord) : UInt8 :=
  UInt8.ofNat (2 ^ record.lengthCode.val)

def toRelocation (options : RelocationDecodeOptions) (index : ℕ)
    (record : RelocationRecord) : Relocation :=
  { index := UInt32.ofNat index
    kind := RelocationTableDecoder.machoKind (UInt8.ofNat record.type)
      record.isExternal record.pcRelative record.width
    targetSection := options.targetSection
    symbolIndex := if record.isExternal then record.symbol else 0
    offset := options.baseAddress + record.address.toUInt64
    width := record.width }

structure Fits (base : UInt64) (record : RelocationRecord) : Prop where
  plain : record.address.toNat < 2 ^ 31
  symbol : record.symbol.toNat < 2 ^ 24
  target : base.toNat + record.address.toNat < 2 ^ 64

variable {record : RelocationRecord}

theorem information_toNat (hsymbol : record.symbol.toNat < 2 ^ 24) :
    record.information.toNat =
      record.symbol.toNat + record.pcRelative.toNat * 2 ^ 24 +
        record.lengthCode * 2 ^ 25 + record.isExternal.toNat * 2 ^ 27 +
        record.type * 2 ^ 28 := by
  have hpc := record.pcRelative.toNat_le
  have hexternal := record.isExternal.toNat_le
  have hlength := record.lengthCode.isLt
  have htype := record.type.isLt
  exact UInt32.toNat_ofNat_of_lt' (by show _ < 2 ^ 32; omega)

theorem shifted_field {value shift mask : UInt32} (width : ℕ)
    (hshift : shift.toNat < 32) (hmask : mask.toNat = 2 ^ width - 1) :
    ((value >>> shift) &&& mask).toNat =
      value.toNat / 2 ^ shift.toNat % 2 ^ width := by
  rw [UInt32.toNat_and, UInt32.toNat_shiftRight, Nat.mod_eq_of_lt hshift,
    Nat.shiftRight_eq_div_pow, hmask, Nat.and_two_pow_sub_one_eq_mod]

theorem flag_of_toNat {value : UInt32} {flag : Bool}
    (hvalue : value.toNat = flag.toNat) : (value != 0) = flag := by
  cases flag with
  | false => rw [(UInt32.toNat_inj (b := 0)).mp hvalue]; rfl
  | true => rw [(UInt32.toNat_inj (b := 1)).mp hvalue]; rfl

/-- The decoder takes the fields apart again. -/
theorem information_fields (hsymbol : record.symbol.toNat < 2 ^ 24) :
    record.information &&& 0x00ffffff = record.symbol ∧
    ((record.information >>> 24) &&& 1 != 0) = record.pcRelative ∧
    (record.information >>> 25) &&& 3 = UInt32.ofNat record.lengthCode ∧
    ((record.information >>> 27) &&& 1 != 0) = record.isExternal ∧
    (record.information >>> 28).toUInt8 = UInt8.ofNat record.type := by
  have hvalue := information_toNat hsymbol
  have hpc := record.pcRelative.toNat_le
  have hexternal := record.isExternal.toNat_le
  have hlength := record.lengthCode.isLt
  have htype := record.type.isLt
  have hmask : (0x00ffffff : UInt32).toNat = 2 ^ 24 - 1 := by decide
  refine ⟨?_, flag_of_toNat ?_, ?_, flag_of_toNat ?_, ?_⟩
  · rw [← UInt32.toNat_inj, UInt32.toNat_and, hmask,
      Nat.and_two_pow_sub_one_eq_mod, hvalue]
    omega
  · rw [shifted_field 1 (by decide) (by decide), hvalue]
    simp only [UInt32.reduceToNat]
    omega
  · rw [← UInt32.toNat_inj, shifted_field 2 (by decide) (by decide), hvalue,
      UInt32.toNat_ofNat_of_lt' (by show _ < 2 ^ 32; omega)]
    simp only [UInt32.reduceToNat]
    omega
  · rw [shifted_field 1 (by decide) (by decide), hvalue]
    simp only [UInt32.reduceToNat]
    omega
  · rw [← UInt8.toNat_inj, UInt32.toNat_toUInt8, UInt32.toNat_shiftRight,
      Nat.shiftRight_eq_div_pow, hvalue,
      UInt8.toNat_ofNat_of_lt' (by show _ < 2 ^ 8; omega)]
    simp only [UInt32.reduceToNat, Nat.reduceMod]
    omega

theorem width_of_lengthCode (record : RelocationRecord) :
    ((1 : UInt32) <<< UInt32.ofNat record.lengthCode).toUInt8 =
      record.width := by
  unfold width
  generalize record.lengthCode = code
  revert code
  decide

end RelocationRecord

namespace RelocationTableDecoder

variable {limits : Limits} {options : RelocationDecodeOptions}
  {order : ByteOrder} {data tail : Bytes}

theorem readI32_consumes_of (value : UInt32) :
    Consumes (AheadOf order data) 0 readI32 (word order value)
      value.toInt32 := by
  unfold readI32
  exact (readWord32_consumes_of value).bind_last (Consumes.pure _)

theorem readMachoEntry_consumes (address information : UInt32) :
    Consumes (AheadOf order data) 0 readMachoEntry
      (word order address ++ word order information)
      (address.toInt32, information) := by
  unfold readMachoEntry
  exact (readI32_consumes_of address).bind
    ((readWord32_consumes_of information).bind_last (Consumes.pure _))

theorem machoRecord_consumes {record : RelocationRecord}
    {output : List Relocation} (place : ℕ)
    (hfits : record.Fits options.baseAddress)
    (hroom : output.length < limits.maxRelocations.toNat) :
    Consumes (AheadOf order data) 0 (machoRecord limits options output place)
      (record.bytes order)
      (output ++ [record.toRelocation options output.length]) := by
  have hplain : ¬record.address.toInt32 < 0 := by
    have hsmall := hfits.plain
    have hsigned : record.address.toInt32.toInt = record.address.toNat := by
      refine (BitVec.toInt_eq_toNat_cond _).trans (if_pos ?_)
      show 2 * record.address.toNat < 2 ^ 32
      omega
    rw [Int32.lt_iff_toInt_lt, hsigned]
    exact not_lt.mpr (Int.natCast_nonneg _)
  obtain ⟨hsymbol, hpc, hlength, hexternal, htype⟩ :=
    RelocationRecord.information_fields hfits.symbol
  have htarget : checkedAdd options.baseAddress
      record.address.toInt32.toUInt32.toUInt64 =
        some (options.baseAddress + record.address.toUInt64) :=
    checkedAdd_eq_some.mpr ⟨by
      rw [UInt32.toNat_toUInt64]
      exact hfits.target, rfl⟩
  unfold machoRecord reporting
  refine (Consumes.adaptError _
    (readMachoEntry_consumes record.address record.information)).bind_last ?_
  dsimp only
  refine Consumes.rejectIf hplain ?_
  rw [htarget, hsymbol, hpc, hlength, hexternal, htype,
    RelocationRecord.width_of_lengthCode]
  intro reader tail _ hahead
  refine ⟨reader, ?_, hahead⟩
  rw [demand_bind_of_some rfl, liftExcept_eq_ok]
  exact ⟨rejectIf_except_bind_eq_ok.mpr ⟨by omega, rfl⟩, rfl⟩

/-- The relocations of a table, numbered from this index on. -/
def tableRelocations (options : RelocationDecodeOptions) (first : ℕ)
    (records : List RelocationRecord) : List Relocation :=
  records.mapIdx fun index record =>
    record.toRelocation options (first + index)

@[simp] theorem tableRelocations_length (first : ℕ)
    (records : List RelocationRecord) :
    (tableRelocations options first records).length = records.length :=
  List.length_mapIdx

theorem tableRelocations_concat (first : ℕ) (record : RelocationRecord)
    (records : List RelocationRecord) :
    tableRelocations options first (records ++ [record]) =
      tableRelocations options first records ++
        [record.toRelocation options (first + records.length)] :=
  List.mapIdx_concat

theorem machoRecords_consumes {records : List RelocationRecord}
    {output : List Relocation} {rounds : List ℕ}
    (hrounds : rounds.length = records.length)
    (hfits : ∀ record ∈ records, record.Fits options.baseAddress)
    (hroom : output.length + records.length ≤ limits.maxRelocations.toNat) :
    Consumes (AheadOf order data) 0
      (rounds.foldlM (machoRecord limits options) output)
      (records.flatMap (RelocationRecord.bytes order))
      (output ++ tableRelocations options output.length records) := by
  have hloop : Consumes (AheadOf order data) 0
      (rounds.foldlM (machoRecord limits options)
        (output ++ tableRelocations options output.length []))
      (records.flatMap (RelocationRecord.bytes order))
      (output ++ tableRelocations options output.length records) := by
    refine Consumes.foldlM
      (fun done => output ++ tableRelocations options output.length done)
      hrounds ?_
    intro done record rest place hsplit
    rw [hsplit, List.length_append, List.length_cons] at hroom
    have hplace : (output ++ tableRelocations options output.length
        done).length = output.length + done.length := by
      rw [List.length_append, tableRelocations_length]
    rw [tableRelocations_concat, ← List.append_assoc, ← hplace]
    exact machoRecord_consumes place (hfits record (by simp [hsplit]))
      (by omega)
  simpa only [tableRelocations, List.mapIdx_nil, List.append_nil] using hloop

/-- A table of records is decoded behind what has been decoded before. -/
theorem decodeMacho_records {records : List RelocationRecord}
    {output : List Relocation}
    (hfits : ∀ record ∈ records, record.Fits options.baseAddress)
    (hroom : output.length + records.length ≤ limits.maxRelocations.toNat) :
    decodeMacho limits
        (records.flatMap (RelocationRecord.bytes options.byteOrder)) options
        output =
      .ok (output ++ tableRelocations options output.length records) := by
  have hlimit := limits.maxRelocations.toNat_lt
  have hlength : (records.flatMap
      (RelocationRecord.bytes options.byteOrder)).length =
        8 * records.length := by
    rw [List.length_flatMap]
    simp [Nat.mul_comm]
  have hcount : (UInt64.ofNat records.length).toNat = records.length :=
    UInt64.toNat_ofNat_of_lt' (by show _ < 2 ^ 64; omega)
  obtain ⟨next, hrecords, -⟩ := @machoRecords_consumes limits options
    options.byteOrder _ records output _ List.length_range hfits hroom
      { data := records.flatMap (RelocationRecord.bytes options.byteOrder)
        order := options.byteOrder } [] (Nat.zero_le _)
      ⟨by
        rw [List.append_nil]
        exact aheadIn_start _ (by rw [hlength]; omega), rfl⟩
  unfold decodeMacho
  rw [rejectIf_except_bind_eq_ok, rejectIf_except_bind_eq_ok, hlength,
    Nat.mul_div_cancel_left _ (by decide : 0 < 8)]
  refine ⟨by omega, ?_, evaluate_of_ok hrecords⟩
  rw [gt_iff_lt, UInt64.lt_iff_toNat_lt, hcount,
    relocationRoom_toNat (by omega)]
  omega

end RelocationTableDecoder

namespace MachOEncoding

open MachOParser
open RelocationTableDecoder (tableRelocations decodeMacho_records)

variable {limits : Limits} {order : ByteOrder} {data tail : Bytes}

/-! ## Names -/

/-- A name in its field of sixteen bytes. -/
def nameField (name : Bytes) : Bytes :=
  name ++ List.replicate (16 - name.length) 0

structure NameFits (name : Bytes) : Prop where
  length : name.length ≤ 16
  nonzero : (0 : UInt8) ∉ name

theorem nameField_length {name : Bytes} (hfits : NameFits name) :
    (nameField name).length = 16 := by
  have hlength := hfits.length
  rw [nameField, List.length_append, List.length_replicate]
  omega

theorem takeWhile_nameField {name : Bytes} (hfits : NameFits name) :
    (nameField name).takeWhile (fun byte => byte ≠ 0) = name := by
  rw [nameField, List.takeWhile_append_of_pos, List.takeWhile_replicate,
    if_neg (by decide), List.append_nil]
  intro byte hbyte
  exact decide_eq_true fun hzero => hfits.nonzero (hzero ▸ hbyte)

theorem readFixedString_consumes {name : Bytes} (hfits : NameFits name) :
    Consumes (AheadOf order data) 0 (readFixedString 16) (nameField name)
      name := by
  have hread : Consumes (AheadOf order data) 0
      (readBytes (nameField name).length) (nameField name) (nameField name) :=
    readBytes_consumes_of _
  rw [nameField_length hfits] at hread
  unfold readFixedString
  refine hread.bind_last ?_
  rw [takeWhile_nameField hfits]
  exact Consumes.pure _

/-! ## Sections -/

/-- A section header with the relocations of its table. -/
structure MachSection where
  name : Bytes
  parent : Bytes := []
  address : UInt64
  size : UInt64
  offset : UInt32 := 0
  align : UInt32 := 0
  relocationOffset : UInt32 := 0
  flags : UInt32 := 0
  reserved1 : UInt32 := 0
  reserved2 : UInt32 := 0
  reserved3 : UInt32 := 0
  relocations : List RelocationRecord := []
  deriving DecidableEq, Repr

namespace MachSection

def raw (item : MachSection) : RawSection :=
  { name := item.name, address := item.address, size := item.size
    offset := item.offset, align := item.align
    relocationOffset := item.relocationOffset
    relocationCount := UInt32.ofNat item.relocations.length
    flags := item.flags }

/-- The header; the third reserved word is only in the wide one. -/
def bytes (wide : Bool) (order : ByteOrder) (item : MachSection) : Bytes :=
  nameField item.name ++ (nameField item.parent ++
    (ElfEncoding.address wide order item.address ++
    (ElfEncoding.address wide order item.size ++
    (word order item.offset ++ (word order item.align ++
    (word order item.relocationOffset ++
    (word order (UInt32.ofNat item.relocations.length) ++
    (word order item.flags ++ (word order item.reserved1 ++
    (word order item.reserved2 ++
      if wide then word order item.reserved3 else []))))))))))

def table (order : ByteOrder) (item : MachSection) : Bytes :=
  item.relocations.flatMap (RelocationRecord.bytes order)

/-- The section has its place in a file of these bytes. -/
structure Fits (data : Bytes) (wide : Bool) (order : ByteOrder)
    (item : MachSection) : Prop where
  name : NameFits item.name
  parent : NameFits item.parent
  address : FitsField wide item.address
  size : FitsField wide item.size
  stored : item.raw.zeroFilled = false →
    item.offset.toNat + item.size.toNat ≤ data.length
  tableInside : item.relocationOffset.toNat + 8 * item.relocations.length ≤
    data.length
  table : Holds data item.relocationOffset.toNat (item.table order)
  records : ∀ record ∈ item.relocations, record.Fits item.address

end MachSection

theorem readRawSection_consumes {wide : Bool} {item : MachSection}
    (hfits : item.Fits data wide order) :
    Consumes (AheadOf order data) 0 (readRawSection wide)
      (item.bytes wide order) item.raw := by
  unfold readRawSection MachSection.bytes
  refine (readFixedString_consumes hfits.name).bind ?_
  refine (readFixedString_consumes hfits.parent).bind ?_
  refine (readWord_consumes_of hfits.address).bind ?_
  refine (readWord_consumes_of hfits.size).bind ?_
  refine (readWord32_consumes_of _).bind ?_
  refine (readWord32_consumes_of _).bind ?_
  refine (readWord32_consumes_of _).bind ?_
  refine (readWord32_consumes_of _).bind ?_
  refine (readWord32_consumes_of _).bind ?_
  refine (readWord32_consumes_of _).bind ?_
  refine (readWord32_consumes_of _).bind ?_
  cases wide with
  | false => exact Consumes.pure _
  | true => exact (readWord32_consumes_of _).bind_last (Consumes.pure _)

/-! ## What is collected -/

section Collecting

/-- A section with the permissions of its segment. -/
abbrev PlacedSection := UInt8 × MachSection

def sectionAt (index : ℕ) (entry : PlacedSection) : Section :=
  entry.2.raw.toSection entry.1 index

/-- The records of a section, with the options they are decoded with. -/
def recordsAt (header : FileHeader) (index : ℕ) (entry : PlacedSection) :
    List (RelocationDecodeOptions × RelocationRecord) :=
  entry.2.relocations.map fun record =>
    (relocationOptions header (sectionAt index entry), record)

/-- Sections and relocations are numbered through the whole file. -/
def collectedOf (header : FileHeader) (placed : List PlacedSection)
    (segments : List Segment) : Collected :=
  { sections := placed.mapIdx sectionAt
    segments
    relocations := (placed.mapIdx (recordsAt header)).flatten.mapIdx
      fun index entry => entry.2.toRelocation entry.1 index }

variable {header : FileHeader} {placed : List PlacedSection}
  {segments : List Segment} {wide : Bool}

def recordCount (placed : List PlacedSection) : ℕ :=
  (placed.map fun entry => entry.2.relocations.length).sum

theorem collectedOf_sections_length :
    (collectedOf header placed segments).sections.length = placed.length :=
  List.length_mapIdx

theorem recordsAt_length (index : ℕ) (entry : PlacedSection) :
    (recordsAt header index entry).length = entry.2.relocations.length :=
  List.length_map _

theorem collectedOf_relocations_length :
    (collectedOf header placed segments).relocations.length =
      recordCount placed := by
  unfold collectedOf recordCount
  rw [List.length_mapIdx]
  induction placed using List.reverseRecOn with
  | nil => rfl
  | append_singleton placed entry ih =>
      rw [List.mapIdx_concat, List.flatten_concat, List.length_append, ih,
        recordsAt_length, List.map_append, List.sum_append, List.map_singleton,
        List.sum_singleton]

theorem collectedOf_concat (entry : PlacedSection) :
    collectedOf header (placed ++ [entry]) segments =
      { collectedOf header placed segments with
        sections := (collectedOf header placed segments).sections ++
          [sectionAt placed.length entry]
        relocations := (collectedOf header placed segments).relocations ++
          tableRelocations
            (relocationOptions header (sectionAt placed.length entry))
            (recordCount placed) entry.2.relocations } := by
  have hcount := @collectedOf_relocations_length header placed segments
  rw [collectedOf, List.length_mapIdx] at hcount
  unfold collectedOf
  rw [List.mapIdx_concat, List.mapIdx_concat, List.flatten_concat,
    List.mapIdx_append, hcount]
  refine congrArg (Collected.mk _ segments <| _ ++ ·) ?_
  refine List.ext_getElem? fun i => ?_
  simp only [recordsAt, tableRelocations, List.getElem?_mapIdx,
    List.getElem?_map, Option.map_map, Nat.add_comm]
  rfl

/-! ## Reading a section -/

theorem decodeRelocations_table {item : MachSection} {relocated : Section}
    {output : List Relocation} (horder : header.byteOrder = order)
    (hfits : item.Fits data wide order)
    (hbase : relocated.virtualAddress = item.address)
    (hroom : output.length + item.relocations.length ≤
      limits.maxRelocations.toNat) :
    decodeRelocations limits data header item.raw relocated output =
      .ok (output ++ tableRelocations (relocationOptions header relocated)
        output.length item.relocations) := by
  have hlimit := limits.maxRelocations.toNat_lt
  have hcount : item.raw.relocationCount.toUInt64.toNat =
      item.relocations.length := by
    rw [UInt32.toNat_toUInt64]
    exact UInt32.toNat_ofNat_of_lt' (by show _ < 2 ^ 32; omega)
  have height : (8 : UInt64).toNat = 8 := rfl
  obtain ⟨bytes, hproduct⟩ : ∃ bytes,
      checkedMultiply item.raw.relocationCount.toUInt64 8 = some bytes :=
    ⟨_, checkedMultiply_of_fit (by rw [hcount, height]; omega)⟩
  have hbytes : bytes.toNat = item.relocations.length * 8 := by
    rw [checkedMultiply_toNat hproduct, hcount, height]
  have hinside := hfits.tableInside
  unfold decodeRelocations
  dsimp only
  rw [demand_except_bind_eq_ok]
  refine ⟨bytes, hproduct, rejectIf_except_bind_eq_ok.mpr ⟨?_, ?_⟩⟩
  · rw [not_or, rangeInside_eq_false, not_not, gt_iff_lt,
      UInt64.lt_iff_toNat_lt, hcount, hbytes,
      RelocationTableDecoder.relocationRoom_toNat (by omega)]
    show item.relocationOffset.toNat + _ ≤ _ ∧ _
    omega
  · have htable : (item.table order).length = bytes.toNat := by
      rw [hbytes, MachSection.table, List.length_flatMap]
      simp
    have hslice : slice data item.raw.relocationOffset.toNat bytes.toNat =
        item.table order := htable ▸ hfits.table
    by_cases hempty : bytes = 0
    · rw [hempty, UInt64.toNat_zero] at hbytes
      have hnone : item.relocations = [] :=
        List.length_eq_zero_iff.mp (by omega)
      rw [if_neg (not_not.mpr hempty), hnone]
      exact congrArg Except.ok (List.append_nil output).symm
    · rw [if_pos hempty, hslice, MachSection.table, ← horder]
      have hrecords : ∀ record ∈ item.relocations,
          record.Fits (relocationOptions header relocated).baseAddress := by
        intro record hrecord
        show record.Fits relocated.virtualAddress
        rw [hbase]
        exact hfits.records record hrecord
      exact decodeMacho_records hrecords hroom

theorem readSection_consumes {permissions : UInt8} {item : MachSection}
    (index : ℕ) (horder : header.byteOrder = order)
    (hfits : item.Fits data wide order)
    (hroom : recordCount placed + item.relocations.length ≤
      limits.maxRelocations.toNat) :
    Consumes (AheadOf order data) 0
      (readSection limits data header wide permissions
        (collectedOf header placed segments) index)
      (item.bytes wide order)
      (collectedOf header (placed ++ [(permissions, item)]) segments) := by
  rw [collectedOf_concat]
  unfold readSection silently
  refine (Consumes.adaptError _ (readRawSection_consumes hfits)).bind_last ?_
  refine Consumes.rejectIf ?_ ?_
  · rw [rangeInside_eq_false, not_and, not_not]
    exact hfits.stored
  · intro reader tail _ hahead
    refine ⟨reader, ?_, hahead⟩
    have hdecode := @decodeRelocations_table limits order data header wide item
      (sectionAt placed.length (permissions, item))
      (collectedOf header placed segments).relocations horder hfits rfl
      (by rwa [collectedOf_relocations_length])
    rw [collectedOf_sections_length]
    refine (liftExcept_bind_of_ok hdecode reader).trans ?_
    rw [collectedOf_relocations_length]
    rfl

/-! ## Segments -/

/-- A segment with its sections, in either word size. -/
structure MachSegment where
  wide : Bool
  name : Bytes
  range : SegmentRange
  maxProtection : UInt32 := 7
  initialProtection : UInt32
  flags : UInt32 := 0
  sections : List MachSection := []
  deriving DecidableEq, Repr

namespace MachSegment

def bytes (order : ByteOrder) (segment : MachSegment) : Bytes :=
  nameField segment.name ++
    (address segment.wide order segment.range.vmaddr ++
    (address segment.wide order segment.range.vmsize ++
    (address segment.wide order segment.range.fileoff ++
    (address segment.wide order segment.range.filesize ++
    (word order segment.maxProtection ++
    (word order segment.initialProtection ++
    (word order (UInt32.ofNat segment.sections.length) ++
    (word order segment.flags ++
    segment.sections.flatMap (MachSection.bytes segment.wide order)))))))))

def permissions (segment : MachSegment) : UInt8 :=
  machoProtection segment.initialProtection

def placedSections (segment : MachSegment) : List PlacedSection :=
  segment.sections.map (segment.permissions, ·)

def toSegment (limits : Limits) (index firstSection : ℕ)
    (segment : MachSegment) : Segment :=
  { index := UInt32.ofNat index
    fileOffset := segment.range.fileoff, fileSize := segment.range.filesize
    virtualAddress := segment.range.vmaddr, memorySize := segment.range.vmsize
    alignment := limits.pageSize.toUInt64, permissions := segment.permissions
    sections := (List.range' firstSection segment.sections.length).map
      UInt32.ofNat }

structure Fits (data : Bytes) (order : ByteOrder) (segment : MachSegment) :
    Prop where
  name : NameFits segment.name
  vmaddr : FitsField segment.wide segment.range.vmaddr
  vmsize : FitsField segment.wide segment.range.vmsize
  fileoff : FitsField segment.wide segment.range.fileoff
  filesize : FitsField segment.wide segment.range.filesize
  sized : segment.range.filesize ≤ segment.range.vmsize
  inside : segment.range.fileoff.toNat + segment.range.filesize.toNat ≤
    data.length
  sections : ∀ item ∈ segment.sections, item.Fits data segment.wide order

end MachSegment

variable {segment : MachSegment}

theorem readSegmentRange_consumes (hfits : segment.Fits data order) :
    Consumes (AheadOf order data) 0 (readSegmentRange segment.wide)
      (nameField segment.name ++
        (address segment.wide order segment.range.vmaddr ++
        (address segment.wide order segment.range.vmsize ++
        (address segment.wide order segment.range.fileoff ++
        address segment.wide order segment.range.filesize))))
      segment.range := by
  unfold readSegmentRange
  refine (readFixedString_consumes hfits.name).bind ?_
  refine (readWord_consumes_of hfits.vmaddr).bind ?_
  refine (readWord_consumes_of hfits.vmsize).bind ?_
  refine (readWord_consumes_of hfits.fileoff).bind ?_
  exact (readWord_consumes_of hfits.filesize).bind_last (Consumes.pure _)

theorem readSegmentTail_consumes (first second third fourth : UInt32) :
    Consumes (AheadOf order data) 0 readSegmentTail
      (word order first ++ (word order second ++ (word order third ++
        word order fourth))) (second, third) := by
  unfold readSegmentTail
  refine (readWord32_consumes_of _).bind ?_
  refine (readWord32_consumes_of _).bind ?_
  refine (readWord32_consumes_of _).bind ?_
  exact (readWord32_consumes_of _).bind_last (Consumes.pure _)

theorem readSections_consumes (horder : header.byteOrder = order)
    {items : List MachSection} {permissions : UInt8} {rounds : List ℕ}
    (hrounds : rounds.length = items.length)
    (hfits : ∀ item ∈ items, item.Fits data wide order)
    (hroom : recordCount (placed ++ items.map (permissions, ·)) ≤
      limits.maxRelocations.toNat) :
    Consumes (AheadOf order data) 0
      (rounds.foldlM (readSection limits data header wide permissions)
        (collectedOf header placed segments))
      (items.flatMap (MachSection.bytes wide order))
      (collectedOf header (placed ++ items.map (permissions, ·)) segments) := by
  have hloop : Consumes (AheadOf order data) 0
      (rounds.foldlM (readSection limits data header wide permissions)
        (collectedOf header (placed ++ [].map (permissions, ·)) segments))
      (items.flatMap (MachSection.bytes wide order))
      (collectedOf header (placed ++ items.map (permissions, ·)) segments) := by
    refine Consumes.foldlM (fun done =>
      collectedOf header (placed ++ done.map (permissions, ·)) segments)
      hrounds ?_
    intro done item rest round hsplit
    rw [List.map_append, List.map_singleton, ← List.append_assoc]
    refine readSection_consumes round horder
      (hfits item (by simp [hsplit])) ?_
    simp only [recordCount, hsplit, List.map_append, List.map_cons,
      List.sum_append, List.sum_cons] at hroom ⊢
    omega
  rwa [List.map_nil, List.append_nil] at hloop

theorem sections_indices (items : List PlacedSection) :
    ((collectedOf header (placed ++ items) segments).sections.drop
        placed.length).map Section.index =
      (List.range' placed.length items.length).map UInt32.ofNat := by
  refine List.ext_getElem? fun i => ?_
  unfold collectedOf
  rw [List.mapIdx_append, List.drop_left' List.length_mapIdx, List.getElem?_map,
    List.getElem?_mapIdx, List.getElem?_map]
  by_cases hi : i < items.length
  · simp [hi, sectionAt, RawSection.toSection, Nat.add_comm]
  · simp [hi]

theorem readSegment_consumes (cursor : UInt64)
    (horder : header.byteOrder = order)
    (hfits : segment.Fits data order)
    (hsections : placed.length + segment.sections.length ≤
      limits.maxSections.toNat)
    (hrecords : recordCount (placed ++ segment.placedSections) ≤
      limits.maxRelocations.toNat) :
    Consumes (AheadOf order data) 0
      (readSegment limits data header cursor segment.wide
        (collectedOf header placed segments))
      (segment.bytes order)
      (collectedOf header (placed ++ segment.placedSections) (segments ++
        [segment.toSegment limits segments.length placed.length])) := by
  have hlimit := limits.maxSections.toNat_lt
  have hcount : (UInt32.ofNat segment.sections.length).toNat =
      segment.sections.length :=
    UInt32.toNat_ofNat_of_lt' (by show _ < 2 ^ 32; omega)
  have hsplit : segment.bytes order =
      (nameField segment.name ++
        (address segment.wide order segment.range.vmaddr ++
        (address segment.wide order segment.range.vmsize ++
        (address segment.wide order segment.range.fileoff ++
        address segment.wide order segment.range.filesize)))) ++
      ((word order segment.maxProtection ++
        (word order segment.initialProtection ++
        (word order (UInt32.ofNat segment.sections.length) ++
        word order segment.flags))) ++
      segment.sections.flatMap (MachSection.bytes segment.wide order)) := by
    simp only [MachSegment.bytes, List.append_assoc]
  rw [hsplit]
  unfold readSegment silently
  refine (Consumes.adaptError _ (readSegmentRange_consumes hfits)).bind ?_
  refine (Consumes.adaptError _ (readSegmentTail_consumes _ _ _ _)).bind ?_
  dsimp only
  refine Consumes.rejectIf ?_ ?_
  · rw [not_or, not_or, gt_iff_lt, UInt64.not_lt, gt_iff_lt, UInt64.not_lt,
      rangeInside_eq_false, not_not, collectedOf_sections_length,
      UInt64.le_iff_toNat_le, MachineInteger.room_toNat (by omega),
      UInt32.toNat_toUInt64, hcount]
    exact ⟨by omega, hfits.sized, hfits.inside⟩
  · refine (readSections_consumes horder (by rw [List.length_range, hcount])
      hfits.sections hrecords).bind_last ?_
    rw [collectedOf_sections_length, ← MachSegment.permissions,
      ← MachSegment.placedSections, sections_indices]
    have hlength : segment.placedSections.length = segment.sections.length :=
      List.length_map _
    rw [hlength]
    exact Consumes.pure _

/-! ## Load commands -/

/-- A segment command may be longer than its contents; of other commands only
the length counts. -/
inductive LoadCommand
  | segment (contents : MachSegment) (slack : Bytes)
  | other (command : UInt32) (rest : Bytes)
  deriving DecidableEq, Repr

namespace LoadCommand

def code : LoadCommand → UInt32
  | .segment contents _ => if contents.wide then 0x19 else 1
  | .other command _ => command

def body (order : ByteOrder) : LoadCommand → Bytes
  | .segment contents slack => contents.bytes order ++ slack
  | .other _ rest => rest

/-- The size counts the command word and itself. -/
def size (order : ByteOrder) (command : LoadCommand) : UInt32 :=
  UInt32.ofNat (8 + (command.body order).length)

def bytes (order : ByteOrder) (command : LoadCommand) : Bytes :=
  word order command.code ++
    (word order (command.size order) ++ command.body order)

def contents : LoadCommand → Option MachSegment
  | .segment contents _ => some contents
  | .other _ _ => none

def Fits (data : Bytes) (order : ByteOrder) : LoadCommand → Prop
  | .segment contents _ => contents.Fits data order
  | .other command _ => command ≠ 1 ∧ command ≠ 0x19

theorem bytes_length (order : ByteOrder) (command : LoadCommand) :
    (command.bytes order).length = 8 + (command.body order).length := by
  rw [bytes, List.length_append, List.length_append, word_length, word_length]
  omega

theorem size_toNat {command : LoadCommand}
    (hsmall : (command.bytes order).length < 2 ^ 32) :
    (command.size order).toNat = (command.bytes order).length := by
  rw [bytes_length] at hsmall ⊢
  exact UInt32.toNat_ofNat_of_lt' hsmall

/-- The size passes the checks, and leads to the end of the command. -/
theorem size_accepted {command : LoadCommand} {place : ℕ}
    (hsmall : (command.bytes order).length < 2 ^ 32)
    (hinside : place + (command.bytes order).length ≤ data.length) :
    ¬(command.size order < 8 ∨
      rangeInside place (command.size order).toNat data.length = false) ∧
    UInt64.ofNat place + (command.size order).toUInt64 =
      UInt64.ofNat (place + (command.bytes order).length) := by
  have hsize := size_toNat hsmall
  constructor
  · have hbytes := command.bytes_length order
    rw [not_or, UInt32.not_lt, UInt32.le_iff_toNat_le, rangeInside_eq_false,
      not_not, hsize]
    simp only [UInt32.reduceToNat]
    omega
  · rw [UInt64.ofNat_add]
    refine congrArg (UInt64.ofNat place + ·) ?_
    rw [← UInt64.toNat_inj, UInt32.toNat_toUInt64, hsize,
      UInt64.toNat_ofNat_of_lt' (by show _ < 2 ^ 64; omega)]

end LoadCommand

/-- The segments of these commands, numbered from an index on; the first one's
sections stand at `firstSection`. -/
def segmentsFrom (limits : Limits) :
    (index firstSection : ℕ) → List MachSegment → List Segment
  | _, _, [] => []
  | index, firstSection, segment :: rest =>
      segment.toSegment limits index firstSection ::
        segmentsFrom limits (index + 1)
          (firstSection + segment.sections.length) rest

theorem readCommand_consumes (command size : UInt32) :
    Consumes (AheadOf order data) 0 readCommand
      (word order command ++ word order size) (command, size) := by
  unfold readCommand
  exact (readWord32_consumes_of _).bind
    ((readWord32_consumes_of _).bind_last (Consumes.pure _))

/-- The command and its size, read at the place where the last one ends. -/
theorem readLoadCommand_reads {command : LoadCommand} {reader : ByteReader}
    {place round : ℕ} {collected : Collected}
    (hreader : reader.data = data ∧ reader.order = order)
    (haddressable : data.length < 2 ^ 64) (hplace : place ≤ data.length)
    (hahead : data.drop place = command.bytes order ++ tail)
    (hsize : (command.bytes order).length < 2 ^ 32) :
    ∃ behind, AheadOf order data behind (command.body order ++ tail) ∧
      readLoadCommand limits data header (UInt64.ofNat place, collected) round
          reader =
        (if command.code = 1 ∨ command.code = 0x19 then do
          let collected ← readSegment limits data header (UInt64.ofNat place)
            (command.code == 0x19) collected
          return (UInt64.ofNat (place + (command.bytes order).length),
            collected)
        else return (UInt64.ofNat (place + (command.bytes order).length),
          collected)) behind := by
  obtain ⟨rfl, rfl⟩ := hreader
  have hcursor : (UInt64.ofNat place).toNat = place :=
    UInt64.toNat_ofNat_of_lt' (by show _ < 2 ^ 64; omega)
  have hlength := congrArg List.length hahead
  rw [List.length_drop, List.length_append] at hlength
  have hstart : AheadOf reader.order reader.data (reader.movedTo place)
      ((word reader.order command.code ++
        word reader.order (command.size reader.order)) ++
          (command.body reader.order ++ tail)) := by
    refine ⟨⟨rfl, hplace, ?_, haddressable⟩, rfl⟩
    show reader.data.drop place = _
    rw [hahead, LoadCommand.bytes]
    simp only [List.append_assoc]
  obtain ⟨behind, hread, hbehind⟩ := Consumes.adaptError (fun _ _ =>
    failure .invalidSegment (UInt64.ofNat place) "Mach-O command invalid")
    (readCommand_consumes _ _) (reader.movedTo place) _ (Nat.zero_le _) hstart
  have hseek : (attempt (seek (UInt64.ofNat place)) :
      DecodeCall (Option Unit)) reader =
        .ok (some ()) (reader.movedTo place) := by
    have hmoved := @seek_of_le reader (UInt64.ofNat place)
      (by rw [hcursor]; exact hplace)
    rw [hcursor] at hmoved
    exact attempt_of_ok hmoved
  obtain ⟨hchecks, hnext⟩ := @LoadCommand.size_accepted reader.order
    reader.data command place hsize (by omega)
  refine ⟨behind, hbehind, ?_⟩
  unfold readLoadCommand reporting
  dsimp only
  rw [bind_of_ok hseek, bind_of_ok hread]
  dsimp only
  rw [hcursor, rejectIf_bind_of_not hchecks, hnext]

theorem readLoadCommand_segment {segment : MachSegment} {slack : Bytes}
    {reader : ByteReader} {place round : ℕ}
    (horder : header.byteOrder = order)
    (hreader : reader.data = data ∧ reader.order = order)
    (haddressable : data.length < 2 ^ 64) (hplace : place ≤ data.length)
    (hahead : data.drop place =
      (LoadCommand.segment segment slack).bytes order ++ tail)
    (hsize : ((LoadCommand.segment segment slack).bytes order).length < 2 ^ 32)
    (hfits : segment.Fits data order)
    (hsections : placed.length + segment.sections.length ≤
      limits.maxSections.toNat)
    (hrecords : recordCount (placed ++ segment.placedSections) ≤
      limits.maxRelocations.toNat) :
    ∃ next, (next.data = data ∧ next.order = order) ∧
      readLoadCommand limits data header
          (UInt64.ofNat place, collectedOf header placed segments) round
          reader =
        .ok (UInt64.ofNat (place +
            ((LoadCommand.segment segment slack).bytes order).length),
          collectedOf header (placed ++ segment.placedSections) (segments ++
            [segment.toSegment limits segments.length placed.length]))
          next := by
  obtain ⟨behind, hbehind, hread⟩ := readLoadCommand_reads hreader haddressable
    hplace hahead hsize
  have hcode : (if segment.wide then (0x19 : UInt32) else 1) = 1 ∨
      (if segment.wide then (0x19 : UInt32) else 1) = 0x19 := by
    cases segment.wide <;> simp
  have hwide : ((if segment.wide then (0x19 : UInt32) else 1) == 0x19) =
      segment.wide := by
    cases segment.wide <;> rfl
  rw [LoadCommand.body, List.append_assoc] at hbehind
  obtain ⟨next, hsegment, hnext⟩ := readSegment_consumes (UInt64.ofNat place)
    horder hfits hsections hrecords behind _ (Nat.zero_le _) hbehind
  refine ⟨next, ⟨hnext.2, hnext.1.order⟩, hread.trans ?_⟩
  rw [LoadCommand.code, if_pos hcode, hwide, bind_of_ok hsegment, pure_apply]

/-- The loop over the commands that stand from this place on. -/
theorem readLoadCommands_commands {commands : List LoadCommand}
    {reader : ByteReader} {place : ℕ} {rounds : List ℕ}
    (horder : header.byteOrder = order)
    (hrounds : rounds.length = commands.length)
    (hreader : reader.data = data ∧ reader.order = order)
    (haddressable : data.length < 2 ^ 64) (hplace : place ≤ data.length)
    (hahead : data.drop place =
      commands.flatMap (LoadCommand.bytes order) ++ tail)
    (hsize : (commands.flatMap (LoadCommand.bytes order)).length < 2 ^ 32)
    (hfits : ∀ command ∈ commands, command.Fits data order)
    (hsections : (placed ++ (commands.filterMap LoadCommand.contents).flatMap
      MachSegment.placedSections).length ≤ limits.maxSections.toNat)
    (hrecords : recordCount (placed ++
      (commands.filterMap LoadCommand.contents).flatMap
        MachSegment.placedSections) ≤ limits.maxRelocations.toNat) :
    ∃ cursor next, rounds.foldlM (readLoadCommand limits data header)
        (UInt64.ofNat place, collectedOf header placed segments) reader =
      .ok (cursor, collectedOf header
          (placed ++ (commands.filterMap LoadCommand.contents).flatMap
            MachSegment.placedSections)
          (segments ++ segmentsFrom limits segments.length placed.length
            (commands.filterMap LoadCommand.contents))) next := by
  induction rounds generalizing commands reader place placed segments with
  | nil =>
      obtain rfl := List.length_eq_zero_iff.mp hrounds.symm
      refine ⟨UInt64.ofNat place, reader, ?_⟩
      simp only [List.filterMap_nil, List.flatMap_nil, segmentsFrom,
        List.append_nil]
      rfl
  | cons round rounds ih =>
      obtain ⟨command, commands, rfl⟩ := List.exists_cons_of_length_eq_add_one
        hrounds.symm
      obtain ⟨hcommand, hcommands⟩ := List.forall_mem_cons.mp hfits
      rw [List.flatMap_cons, List.append_assoc] at hahead
      rw [List.flatMap_cons, List.length_append] at hsize
      have hfit := congrArg List.length hahead
      rw [List.length_drop, List.length_append] at hfit
      have hrest : data.drop (place + (command.bytes order).length) =
          commands.flatMap (LoadCommand.bytes order) ++ tail := by
        rw [← List.drop_drop, hahead, List.drop_left]
      rw [List.foldlM_cons]
      cases command with
      | segment segment slack =>
          have hcontents : (LoadCommand.segment segment slack ::
              commands).filterMap LoadCommand.contents =
                segment :: commands.filterMap LoadCommand.contents := rfl
          rw [hcontents, List.flatMap_cons, ← List.append_assoc]
            at hsections hrecords ⊢
          have hcount : segment.placedSections.length =
              segment.sections.length := List.length_map _
          obtain ⟨next, hnext, hread⟩ := @readLoadCommand_segment limits order
            data _ header placed segments segment slack reader place round
            horder hreader haddressable hplace hahead (by omega) hcommand (by
              rw [List.length_append, List.length_append] at hsections
              omega) (by
              rw [recordCount, List.map_append, List.sum_append] at hrecords
              unfold recordCount
              omega)
          obtain ⟨cursor, last, hloop⟩ := ih (Nat.succ.inj hrounds) hnext
            (by omega) hrest (by omega) hcommands hsections hrecords
          refine ⟨cursor, last, ?_⟩
          rw [bind_of_ok hread, hloop, segmentsFrom]
          simp only [List.length_append, List.length_singleton, hcount,
            List.append_assoc, List.singleton_append]
      | other code rest =>
          obtain ⟨behind, hbehind, hread⟩ := @readLoadCommand_reads limits
            order data _ header _ reader place round
            (collectedOf header placed segments) hreader haddressable hplace
            hahead (by omega)
          have hcode : ¬(code = 1 ∨ code = 0x19) := not_or.mpr hcommand
          have hpassed := hread.trans (congrFun (if_neg hcode) behind)
          obtain ⟨cursor, last, hloop⟩ := @ih placed segments commands behind
            _ (Nat.succ.inj hrounds) ⟨hbehind.2, hbehind.1.order⟩
            (by omega) hrest (by omega) hcommands hsections hrecords
          exact ⟨cursor, last, by rw [bind_of_ok hpassed, hloop]; rfl⟩

end Collecting

/-! ## The whole file -/

structure MachFile where
  order : ByteOrder
  wide : Bool
  cpu : UInt32
  subtype : UInt32 := 0
  fileType : UInt32
  flags : UInt32 := 0
  reserved : UInt32 := 0
  commands : List LoadCommand
  deriving DecidableEq, Repr

namespace MachFile

def magicWord (file : MachFile) : UInt32 :=
  if file.wide then 0xfeedfacf else 0xfeedface

def commandArea (file : MachFile) : Bytes :=
  file.commands.flatMap (LoadCommand.bytes file.order)

/-- The header; only the wide one has a reserved word. -/
def headerBytes (file : MachFile) : Bytes :=
  word file.order file.magicWord ++ (word file.order file.cpu ++
    (word file.order file.subtype ++ (word file.order file.fileType ++
    (word file.order (UInt32.ofNat file.commands.length) ++
    (word file.order (UInt32.ofNat file.commandArea.length) ++
    (word file.order file.flags ++
      if file.wide then word file.order file.reserved else []))))))

def segments (file : MachFile) : List MachSegment :=
  file.commands.filterMap LoadCommand.contents

def placedSections (file : MachFile) : List PlacedSection :=
  file.segments.flatMap MachSegment.placedSections

/-- The fields of the header that the parser keeps. -/
def fields (file : MachFile) : MachHeader :=
  { cpu := file.cpu, fileType := file.fileType
    commandCount := UInt32.ofNat file.commands.length
    commandBytes := UInt32.ofNat file.commandArea.length
    flags := file.flags }

def header (file : MachFile) : FileHeader :=
  { format := .machoLike
    wordSize := if file.wide then .bits64 else .bits32
    byteOrder := file.order, kind := machoKind file.fileType
    architecture := machoArch file.cpu
    segmentTableOffset := if file.wide then 32 else 28
    segmentCount := UInt32.ofNat file.commands.length, flags := file.flags }

/-- What the file means, its relocations decoded. -/
def image (limits : Limits) (data : Bytes) (file : MachFile) : BinaryImage :=
  let collected := collectedOf file.header file.placedSections
    (segmentsFrom limits 0 0 file.segments)
  { fileData := some data
    header := { file.header with
      sectionCount := UInt32.ofNat file.placedSections.length }
    sections := collected.sections, segments := collected.segments
    relocations := collected.relocations }

/-- The file stands at the front of the data, and its tables in it. -/
structure Fits (limits : Limits) (data : Bytes) (file : MachFile) : Prop where
  starts : file.headerBytes ++ file.commandArea <+: data
  addressable : data.length < 2 ^ 64
  area : file.commandArea.length < 2 ^ 32
  commandCount : file.commands.length ≤ limits.maxSections.toNat
  sectionCount : file.placedSections.length ≤ limits.maxSections.toNat
  relocationCount : recordCount file.placedSections ≤
    limits.maxRelocations.toNat
  commands : ∀ command ∈ file.commands, command.Fits data file.order

variable {file : MachFile}

theorem headerBytes_length (file : MachFile) :
    file.headerBytes.length = if file.wide then 32 else 28 := by
  unfold headerBytes
  cases file.wide <;> simp

def rawMagic (file : MachFile) : UInt32 :=
  joinU32 .little (word file.order file.magicWord)

theorem rawMagic_cases (file : MachFile) :
    ¬(file.rawMagic ≠ 0xfeedface ∧ file.rawMagic ≠ 0xfeedfacf ∧
      file.rawMagic ≠ 0xcefaedfe ∧ file.rawMagic ≠ 0xcffaedfe) ∧
    MachOParser.wide file.rawMagic = file.wide ∧
    MachOParser.order file.rawMagic = file.order := by
  unfold rawMagic magicWord
  cases file.wide <;> cases file.order <;> decide

theorem Fits.magic (hfits : file.Fits limits data) :
    MachOParser.magic data = file.rawMagic := by
  obtain ⟨rest, rfl⟩ := hfits.starts
  unfold MachOParser.magic rawMagic headerBytes
  have hfour : (word file.order file.magicWord).length = 4 :=
    word_length _ _
  rw [slice, List.drop_zero, List.append_assoc, List.append_assoc,
    List.take_append_of_le_length (by omega), List.take_of_length_le (by omega)]

theorem readMachHeader_consumes (file : MachFile) :
    Consumes (AheadOf file.order data) 0 (readMachHeader file.wide)
      file.headerBytes file.fields := by
  unfold readMachHeader headerBytes
  refine (readWord32_consumes_of _).bind ?_
  refine (readWord32_consumes_of _).bind ?_
  refine (readWord32_consumes_of _).bind ?_
  refine (readWord32_consumes_of _).bind ?_
  refine (readWord32_consumes_of _).bind ?_
  refine (readWord32_consumes_of _).bind ?_
  refine (readWord32_consumes_of _).bind ?_
  cases file.wide with
  | false => exact Consumes.pure _
  | true => exact (readWord32_consumes_of _).bind_last (Consumes.pure _)

theorem commandsOffset_rawMagic (file : MachFile) :
    MachOParser.commandsOffset file.rawMagic =
      UInt64.ofNat file.headerBytes.length := by
  rw [MachOParser.commandsOffset, file.rawMagic_cases.2.1,
    file.headerBytes_length]
  cases file.wide <;> rfl

theorem imageHeader_rawMagic (file : MachFile) :
    imageHeader file.rawMagic file.fields = file.header := by
  obtain ⟨-, hwide, horder⟩ := file.rawMagic_cases
  unfold imageHeader MachOParser.commandsOffset header
  rw [hwide, horder]
  rfl

theorem Fits.commandCount_toNat (hfits : file.Fits limits data) :
    file.fields.commandCount.toNat = file.commands.length := by
  have hcount := hfits.commandCount
  have hlimit := limits.maxSections.toNat_lt
  exact UInt32.toNat_ofNat_of_lt' (by show _ < 2 ^ 32; omega)

theorem Fits.accepted (hfits : file.Fits limits data) :
    ¬(file.fields.commandCount > limits.maxSections ∨
      rangeInside file.headerBytes.length file.fields.commandBytes.toNat
        data.length = false) := by
  have hlength := hfits.starts.length_le
  have hbytes : file.fields.commandBytes.toNat = file.commandArea.length :=
    UInt32.toNat_ofNat_of_lt' hfits.area
  rw [List.length_append] at hlength
  rw [not_or, gt_iff_lt, UInt32.not_lt, UInt32.le_iff_toNat_le,
    hfits.commandCount_toNat, rangeInside_eq_false, not_not, hbytes]
  exact ⟨hfits.commandCount, hlength⟩

theorem parseImage_file (hfits : file.Fits limits data) :
    ∃ last, parseImage limits data file.rawMagic { data, order := file.order } =
      .ok (file.image limits data) last := by
  obtain ⟨rest, hrest⟩ := hfits.starts
  have hlength := congrArg List.length hrest
  rw [List.length_append, List.length_append] at hlength
  have hplace : (UInt64.ofNat file.headerBytes.length).toNat =
      file.headerBytes.length :=
    UInt64.toNat_ofNat_of_lt' (by
      have haddressable := hfits.addressable
      show _ < 2 ^ 64
      omega)
  have hstart : AheadOf file.order data { data, order := file.order }
      (file.headerBytes ++ (file.commandArea ++ rest)) := by
    refine ⟨⟨rfl, Nat.zero_le _, ?_, hfits.addressable⟩, rfl⟩
    rw [← List.append_assoc, hrest]
    exact List.drop_zero
  obtain ⟨behind, hread, hbehind⟩ := Consumes.adaptError (fun _ _ =>
    failure .truncated 0 "Mach-O header truncated")
    (readMachHeader_consumes file) _ _ (Nat.zero_le _) hstart
  have hahead : data.drop file.headerBytes.length =
      file.commandArea ++ rest := by
    rw [← hrest, List.append_assoc, List.drop_left]
  obtain ⟨cursor, last, hloop⟩ := @readLoadCommands_commands limits file.order
    data rest file.header [] [] file.commands behind file.headerBytes.length
    (List.range file.commands.length) rfl List.length_range
    ⟨hbehind.2, hbehind.1.order⟩ hfits.addressable (by omega) hahead hfits.area
    hfits.commands hfits.sectionCount hfits.relocationCount
  refine ⟨last, ?_⟩
  unfold parseImage reporting
  rw [file.rawMagic_cases.2.1, bind_of_ok hread, file.commandsOffset_rawMagic,
    hplace, rejectIf_bind_of_not hfits.accepted, file.imageHeader_rawMagic,
    hfits.commandCount_toNat]
  refine (bind_of_ok hloop).trans ?_
  dsimp only
  rw [pure_apply, List.nil_append, List.nil_append, collectedOf_sections_length]
  rfl

/-- The parser builds the image of any file written within the limits, in
either byte order and word size. -/
theorem parse_file (hfits : file.Fits limits data) :
    parse limits data = .ok (file.image limits data) := by
  obtain ⟨hmagic, -, horder⟩ := file.rawMagic_cases
  obtain ⟨last, himage⟩ := parseImage_file hfits
  have hheader := file.headerBytes_length
  have hlength := hfits.starts.length_le
  rw [List.length_append] at hlength
  unfold parse
  rw [rejectIf_except_bind_eq_ok]
  refine ⟨by split at hheader <;> omega, ?_⟩
  dsimp only
  rw [hfits.magic, rejectIf_except_bind_eq_ok, horder]
  exact ⟨hmagic, evaluate_of_ok himage⟩

/-- A 32-bit file in high-first order, with a relocation table behind its
commands. -/
def relocatedFile : MachFile :=
  { order := .big, wide := false, cpu := 7, fileType := 1
    commands :=
      [.other 2 [0, 0, 0, 0],
       .segment
        { wide := false, name := ascii "__TEXT"
          range := { vmaddr := 0x1000, vmsize := 16, fileoff := 164
                     filesize := 8 }
          initialProtection := 5
          sections :=
            [{ name := ascii "__text", parent := ascii "__TEXT"
               address := 0x1000, size := 8, offset := 164, align := 2
               relocationOffset := 164
               relocations :=
                [{ address := 4, symbol := 9, isExternal := true }] }] } []] }

def relocatedData : Bytes :=
  relocatedFile.headerBytes ++ relocatedFile.commandArea ++
    [0, 0, 0, 4, 12, 0, 0, 9]

theorem parse_file_relocated :
    parse {} relocatedData =
      .ok { fileData := some relocatedData
            header :=
              { format := .machoLike, wordSize := .bits32, byteOrder := .big
                kind := .relocatable, architecture := .x86
                segmentTableOffset := 28, segmentCount := 2
                sectionCount := 1 }
            sections :=
              [{ name := ascii "__text", kind := .programBits
                 fileOffset := 164, fileSize := 8, virtualAddress := 0x1000
                 memorySize := 8, alignment := 4, permissions := 5 }]
            segments :=
              [{ fileOffset := 164, fileSize := 8, virtualAddress := 0x1000
                 memorySize := 16, alignment := 4096, permissions := 5
                 sections := [0] }]
            relocations :=
              [{ kind := .absolute32, symbolIndex := 9, offset := 0x1004
                 width := 4 }] } := by
  have hfits : relocatedFile.Fits {} relocatedData := by
    refine ⟨List.prefix_append _ _, by decide +kernel, by decide +kernel,
      by decide, by decide, by decide, ?_⟩
    intro command hcommand
    fin_cases hcommand
    · exact ⟨by decide, by decide⟩
    · refine ⟨⟨by decide, by decide⟩, by decide, by decide, by decide,
        by decide, by decide, by decide +kernel, ?_⟩
      intro item hitem
      obtain rfl := List.mem_singleton.mp hitem
      refine ⟨⟨by decide, by decide⟩, ⟨by decide, by decide⟩, by decide,
        by decide, fun _ => by decide +kernel, by decide +kernel,
        by decide +kernel, ?_⟩
      intro record hrecord
      obtain rfl := List.mem_singleton.mp hrecord
      exact ⟨by decide, by decide, by decide⟩
  exact (parse_file hfits).trans rfl

end MachFile

end MachOEncoding
end BinForge
