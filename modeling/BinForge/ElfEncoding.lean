import BinForge.ElfAcceptance
import BinForge.RecordLayout
import BinForge.StoredInteger

/-!
# The standard ELF encoding

The records of an ELF file as the format defines them: numbers in either byte
order, and the fields of every record in the order of its class.  Each record
laid out at a place of the file is what the file's fields there say.
-/

namespace BinForge

open MachineInteger
open ListSplice
open RecordLayout
open ByteReader
open ElfParser
open AddressSpace
open RelocationTableDecoder

namespace ElfEncoding

/-! ## Numbers -/

/-- The low `count` bytes of a number. -/
def numberBytes (order : ByteOrder) (count value : ℕ) : Bytes :=
  lowFirst order (littleBytes count value)

@[simp] theorem numberBytes_length (order : ByteOrder) (count value : ℕ) :
    (numberBytes order count value).length = count := by
  rw [numberBytes, lowFirst_length, littleBytes_length]

def half (order : ByteOrder) (value : UInt16) : Bytes :=
  numberBytes order 2 value.toNat

def word (order : ByteOrder) (value : UInt32) : Bytes :=
  numberBytes order 4 value.toNat

/-- An address, an offset or a size: as wide as the class. -/
def address (wide : Bool) (order : ByteOrder) (value : UInt64) : Bytes :=
  numberBytes order (fieldSize wide) value.toNat

@[simp] theorem half_length (order : ByteOrder) (value : UInt16) :
    (half order value).length = 2 := numberBytes_length order 2 _

@[simp] theorem word_length (order : ByteOrder) (value : UInt32) :
    (word order value).length = 4 := numberBytes_length order 4 _

@[simp] theorem address_length (wide : Bool) (order : ByteOrder)
    (value : UInt64) : (address wide order value).length = fieldSize wide :=
  numberBytes_length order _ _

theorem joinU32_toNat (order : ByteOrder) {bytes : Bytes}
    (hlength : bytes.length ≤ 4) :
    (joinU32 order bytes).toNat = littleValue (lowFirst order bytes) := by
  cases order with
  | little => exact foldr_shiftIn32_toNat hlength
  | big =>
      rw [joinU32, ← List.foldr_reverse]
      exact foldr_shiftIn32_toNat (by rw [List.length_reverse]; exact hlength)

theorem joinU64_toNat (order : ByteOrder) {bytes : Bytes}
    (hlength : bytes.length ≤ 8) :
    (joinU64 order bytes).toNat = littleValue (lowFirst order bytes) :=
  integerValue_toNat hlength

theorem joinU16_toNat (order : ByteOrder) {bytes : Bytes}
    (hlength : bytes.length = 2) :
    (joinU16 order bytes).toNat = littleValue (lowFirst order bytes) := by
  obtain ⟨first, second, rfl⟩ := List.length_eq_two.mp hlength
  cases order with
  | little =>
      apply (joinBytes_toNat first second).trans
      simp [lowFirst, Nat.add_comm]
  | big =>
      rw [joinU16, UInt16.or_comm]
      apply (joinBytes_toNat second first).trans
      simp [lowFirst, Nat.add_comm]

section Numbers

variable {data : Bytes} {place : ℕ} {order : ByteOrder}

theorem u8At_of_holds {value : UInt8} (hholds : Holds data place [value]) :
    u8At data place = value := by
  rw [u8At, List.getD_eq_getElem?_getD, holds_singleton.mp hholds,
    Option.getD_some]

theorem slice_of_holds {count value : ℕ}
    (hholds : Holds data place (numberBytes order count value)) :
    slice data place count = numberBytes order count value := by
  unfold Holds at hholds
  rwa [numberBytes_length] at hholds

theorem u16At_of_holds {value : UInt16}
    (hholds : Holds data place (half order value)) :
    u16At order data place = value := by
  apply UInt16.toNat_inj.mp
  rw [u16At, slice_of_holds hholds,
    joinU16_toNat order (numberBytes_length order 2 _), numberBytes,
    lowFirst_lowFirst, littleValue_littleBytes_of_lt value.toNat_lt]

theorem u32At_toNat_of_holds {value : ℕ}
    (hholds : Holds data place (numberBytes order 4 value)) :
    (u32At order data place).toNat = value % 2 ^ 32 := by
  rw [u32At, slice_of_holds hholds,
    joinU32_toNat order (numberBytes_length order 4 _).le, numberBytes,
    lowFirst_lowFirst, littleValue_littleBytes]
  rfl

theorem u64At_toNat_of_holds {value : ℕ}
    (hholds : Holds data place (numberBytes order 8 value)) :
    (u64At order data place).toNat = value % 2 ^ 64 := by
  rw [u64At, slice_of_holds hholds,
    joinU64_toNat order (numberBytes_length order 8 _).le, numberBytes,
    lowFirst_lowFirst, littleValue_littleBytes]
  rfl

theorem u32At_of_holds {value : UInt32}
    (hholds : Holds data place (word order value)) :
    u32At order data place = value := by
  apply UInt32.toNat_inj.mp
  rw [u32At_toNat_of_holds hholds, Nat.mod_eq_of_lt value.toNat_lt]

/-- The value has a place in an address-sized field. -/
def FitsField (wide : Bool) (value : UInt64) : Prop :=
  value.toNat < 256 ^ fieldSize wide

instance (wide : Bool) (value : UInt64) : Decidable (FitsField wide value) :=
  inferInstanceAs (Decidable (_ < _))

theorem fieldAt_toNat_of_holds {wide : Bool} {value : ℕ}
    (hfits : value < 256 ^ fieldSize wide) (hholds :
      Holds data place (numberBytes order (fieldSize wide) value)) :
    (fieldAt wide order data place).toNat = value := by
  cases wide with
  | true =>
      rw [fieldAt, if_pos rfl, u64At_toNat_of_holds hholds]
      exact Nat.mod_eq_of_lt hfits
  | false =>
      rw [fieldAt, if_neg Bool.false_ne_true, UInt32.toNat_toUInt64,
        u32At_toNat_of_holds hholds]
      exact Nat.mod_eq_of_lt hfits

theorem fieldAt_of_holds {wide : Bool} {value : UInt64}
    (hfits : FitsField wide value)
    (hholds : Holds data place (address wide order value)) :
    fieldAt wide order data place = value :=
  UInt64.toNat_inj.mp (fieldAt_toNat_of_holds hfits hholds)

end Numbers

/-! ## Records -/

def classByte (wide : Bool) : UInt8 := if wide then 2 else 1

def orderByte : ByteOrder → UInt8
  | .little => 1
  | .big => 2

/-- The magic number, the class and the byte order. -/
def identification (wide : Bool) (order : ByteOrder) : Bytes :=
  [0x7f, 0x45, 0x4c, 0x46, classByte wide, orderByte order]

/-- What follows the identification; the version is the current one. -/
def headerRecord (wide : Bool) (order : ByteOrder) (type machine : UInt16)
    (header : ElfHeader) : Bytes :=
  [half order type, half order machine, word order 1,
    address wide order header.entry, address wide order header.programOffset,
    address wide order header.sectionOffset, word order header.flags,
    half order header.headerSize, half order header.programEntrySize,
    half order header.programCount, half order header.sectionEntrySize,
    half order header.sectionCount, half order header.namesIndex].flatten

def sectionRecord (wide : Bool) (order : ByteOrder) (item : RawSection) :
    Bytes :=
  [word order item.name, word order item.type, address wide order item.flags,
    address wide order item.address, address wide order item.offset,
    address wide order item.size, word order item.link, word order item.info,
    address wide order item.alignment,
    address wide order item.entrySize].flatten

/-- A program header with the physical address, which the parser skips. -/
structure ProgramEntry extends ProgramHeader where
  physicalAddress : UInt64 := 0

/-- The flags stand behind the type in the wide class, and before the alignment
in the narrow one. -/
def programRecord (wide : Bool) (order : ByteOrder) (item : ProgramEntry) :
    Bytes :=
  if wide then
    [word order item.kind, word order item.flags,
      address wide order item.fileOffset,
      address wide order item.virtualAddress,
      address wide order item.physicalAddress,
      address wide order item.fileSize, address wide order item.memorySize,
      address wide order item.alignment].flatten
  else
    [word order item.kind, address wide order item.fileOffset,
      address wide order item.virtualAddress,
      address wide order item.physicalAddress,
      address wide order item.fileSize, address wide order item.memorySize,
      word order item.flags, address wide order item.alignment].flatten

def symbolRecord (wide : Bool) (order : ByteOrder) (item : SymbolEntry) :
    Bytes :=
  if wide then
    [word order item.name, [item.info], [item.other],
      half order item.sectionIndex, address wide order item.value,
      address wide order item.size].flatten
  else
    [word order item.name, address wide order item.value,
      address wide order item.size, [item.info], [item.other],
      half order item.sectionIndex].flatten

structure RelocationEntry where
  offset : UInt64
  symbol : UInt32
  type : UInt32
  addend : Int64 := 0
  deriving DecidableEq, Repr

/-- The symbol and the type in one field: 32 bits each, or 24 and 8. -/
def relocationInformation (wide : Bool) (item : RelocationEntry) : ℕ :=
  item.symbol.toNat * (if wide then 2 ^ 32 else 2 ^ 8) + item.type.toNat

/-- With the addend, in two's complement, or without it. -/
def relocationRecord (wide : Bool) (order : ByteOrder) (explicitAddend : Bool)
    (item : RelocationEntry) : Bytes :=
  [address wide order item.offset,
    numberBytes order (fieldSize wide) (relocationInformation wide item),
    if explicitAddend then address wide order item.addend.toUInt64
    else []].flatten

theorem headerRecord_length (wide : Bool) (order : ByteOrder)
    (type machine : UInt16) (header : ElfHeader) :
    (headerRecord wide order type machine header).length =
      24 + 3 * fieldSize wide := by
  cases wide <;> simp [headerRecord, fieldSize]

theorem sectionRecord_length (wide : Bool) (order : ByteOrder)
    (item : RawSection) :
    (sectionRecord wide order item).length = ElfFile.sectionBytes wide := by
  cases wide <;> simp [sectionRecord, ElfFile.sectionBytes, fieldSize]

theorem programRecord_length (wide : Bool) (order : ByteOrder)
    (item : ProgramEntry) :
    (programRecord wide order item).length = ElfFile.programBytes wide := by
  cases wide <;> simp [programRecord, ElfFile.programBytes, fieldSize]

theorem symbolRecord_length (wide : Bool) (order : ByteOrder)
    (item : SymbolEntry) :
    (symbolRecord wide order item).length = ElfFile.symbolBytes wide := by
  cases wide <;> simp [symbolRecord, ElfFile.symbolBytes, fieldSize]

theorem relocationRecord_length (wide : Bool) (order : ByteOrder)
    (explicitAddend : Bool) (item : RelocationEntry)
    {options : RelocationDecodeOptions}
    (hsize : options.wordSize = if wide then .bits64 else .bits32)
    (hexplicit : options.explicitAddends = explicitAddend) :
    (relocationRecord wide order explicitAddend item).length =
      (elfMinimum options).toNat := by
  rw [elfMinimum, hsize, hexplicit]
  cases wide <;> cases explicitAddend <;> simp [relocationRecord, fieldSize]

/-! ## Values that fit the class -/

structure HeaderFits (wide : Bool) (header : ElfHeader) : Prop where
  entry : FitsField wide header.entry
  programOffset : FitsField wide header.programOffset
  sectionOffset : FitsField wide header.sectionOffset

structure SectionFits (wide : Bool) (item : RawSection) : Prop where
  flags : FitsField wide item.flags
  address : FitsField wide item.address
  offset : FitsField wide item.offset
  size : FitsField wide item.size
  alignment : FitsField wide item.alignment
  entrySize : FitsField wide item.entrySize

structure ProgramFits (wide : Bool) (item : ProgramEntry) : Prop where
  fileOffset : FitsField wide item.fileOffset
  virtualAddress : FitsField wide item.virtualAddress
  physicalAddress : FitsField wide item.physicalAddress
  fileSize : FitsField wide item.fileSize
  memorySize : FitsField wide item.memorySize
  alignment : FitsField wide item.alignment

structure SymbolFits (wide : Bool) (item : SymbolEntry) : Prop where
  value : FitsField wide item.value
  size : FitsField wide item.size

/-- A narrow record has 24 bits for the symbol, 8 for the type and 32 for the
addend. -/
structure RelocationFits (wide : Bool) (item : RelocationEntry) : Prop where
  offset : FitsField wide item.offset
  symbol : wide = false → item.symbol.toNat < 2 ^ 24
  type : wide = false → item.type.toNat < 2 ^ 8
  addend : wide = false →
    -2 ^ 31 ≤ item.addend.toInt ∧ item.addend.toInt < 2 ^ 31

/-! ## Reading a record back -/

section Records

variable {data : Bytes} {place : ℕ}

theorem encodedClass_of_holds {wide : Bool} {order : ByteOrder}
    (hholds : Holds data 0 (identification wide order)) :
    data.getD 4 0 = classByte wide := by
  have hclass := hholds.getElem? (i := 4) (by simp [identification])
  rw [Nat.zero_add] at hclass
  rw [List.getD_eq_getElem?_getD, hclass]
  rfl

theorem encodedOrder_of_holds {wide : Bool} {order : ByteOrder}
    (hholds : Holds data 0 (identification wide order)) :
    data.getD 5 0 = orderByte order := by
  have horder := hholds.getElem? (i := 5) (by simp [identification])
  rw [Nat.zero_add] at horder
  rw [List.getD_eq_getElem?_getD, horder]
  rfl

theorem wide_of_holds {wide : Bool} {order : ByteOrder}
    (hholds : Holds data 0 (identification wide order)) :
    ElfFile.wide data = wide := by
  rw [ElfFile.wide, encodedClass_of_holds hholds]
  cases wide <;> rfl

theorem order_of_holds {wide : Bool} {order : ByteOrder}
    (hholds : Holds data 0 (identification wide order)) :
    ElfFile.order data = order := by
  rw [ElfFile.order, encodedOrder_of_holds hholds]
  cases order <;> rfl

theorem sectionAt_of_holds {item : RawSection}
    (hfits : SectionFits (ElfFile.wide data) item)
    (hholds : Holds data place
      (sectionRecord (ElfFile.wide data) (ElfFile.order data) item)) :
    ElfFile.sectionAt data place = item := by
  have hsize : ElfFile.wordBytes data = fieldSize (ElfFile.wide data) := rfl
  simp only [sectionRecord, List.flatten_cons, List.flatten_nil,
    List.append_nil, holds_append, word_length, address_length] at hholds
  obtain ⟨hname, htype, hflags, haddress, hoffset, hbytes, hlink, hinfo,
    halignment, hentry⟩ := hholds
  rw [ElfFile.sectionAt, RawSection.mk.injEq]
  exact ⟨u32At_of_holds hname, u32At_of_holds htype,
    fieldAt_of_holds hfits.flags hflags,
    fieldAt_of_holds hfits.address (haddress.moved (by omega)),
    fieldAt_of_holds hfits.offset (hoffset.moved (by omega)),
    fieldAt_of_holds hfits.size (hbytes.moved (by omega)),
    u32At_of_holds (hlink.moved (by omega)),
    u32At_of_holds (hinfo.moved (by omega)),
    fieldAt_of_holds hfits.alignment (halignment.moved (by omega)),
    fieldAt_of_holds hfits.entrySize (hentry.moved (by omega))⟩

theorem header_of_holds {type machine : UInt16} {header : ElfHeader}
    (hfits : HeaderFits (ElfFile.wide data) header)
    (hholds : Holds data 16 (headerRecord (ElfFile.wide data)
      (ElfFile.order data) type machine header)) :
    ElfFile.type data = type ∧ ElfFile.machine data = machine ∧
      ElfFile.word data 20 = 1 ∧ ElfFile.header data = header := by
  have hsize : ElfFile.wordBytes data = fieldSize (ElfFile.wide data) := rfl
  have hflagsAt : ElfFile.flagsOffset data =
      24 + 3 * fieldSize (ElfFile.wide data) := rfl
  simp only [headerRecord, List.flatten_cons, List.flatten_nil,
    List.append_nil, holds_append, word_length, half_length, address_length]
    at hholds
  obtain ⟨htype, hmachine, hversion, hentry, hprogram, hsection, hflags,
    hbytes, hprogramSize, hprograms, hsectionSize, hsections, hnames⟩ := hholds
  refine ⟨u16At_of_holds htype, u16At_of_holds hmachine,
    u32At_of_holds hversion, ?_⟩
  rw [ElfFile.header, ElfHeader.mk.injEq]
  exact ⟨fieldAt_of_holds hfits.entry hentry,
    fieldAt_of_holds hfits.programOffset (hprogram.moved (by omega)),
    fieldAt_of_holds hfits.sectionOffset (hsection.moved (by omega)),
    u32At_of_holds (hflags.moved (by omega)),
    u16At_of_holds (hbytes.moved (by omega)),
    u16At_of_holds (hprogramSize.moved (by omega)),
    u16At_of_holds (hprograms.moved (by omega)),
    u16At_of_holds (hsectionSize.moved (by omega)),
    u16At_of_holds (hsections.moved (by omega)),
    u16At_of_holds (hnames.moved (by omega))⟩

theorem wordAt_of_holds {wide : Bool} {value : UInt64}
    (hwide : ElfFile.wide data = wide) (hfits : FitsField wide value)
    (hholds : Holds data place (address wide (ElfFile.order data) value)) :
    ElfFile.wordAt data place = value := by
  subst hwide
  exact fieldAt_of_holds hfits hholds

theorem programHeaderAt_of_holds {item : ProgramEntry}
    (hfits : ProgramFits (ElfFile.wide data) item)
    (hholds : Holds data place
      (programRecord (ElfFile.wide data) (ElfFile.order data) item)) :
    ElfFile.programHeaderAt data place = item.toProgramHeader := by
  obtain ⟨⟨kind, flags, offset, start, file, memory, alignment⟩, physical⟩ := item
  unfold programRecord at hholds
  unfold ElfFile.programHeaderAt
  cases hwide : ElfFile.wide data <;> rw [hwide] at hfits <;>
    simp only [hwide, Bool.false_eq_true, if_false, if_true,
      List.flatten_cons, List.flatten_nil, List.append_nil, holds_append,
      word_length, address_length, fieldSize, Nat.add_assoc, Nat.reduceAdd,
      ProgramHeader.mk.injEq] at hholds ⊢
  case false =>
    obtain ⟨hkind, hoffset, hstart, -, hfile, hmemory, hflags, halignment⟩ :=
      hholds
    exact ⟨u32At_of_holds hkind, u32At_of_holds hflags,
      wordAt_of_holds hwide hfits.fileOffset hoffset,
      wordAt_of_holds hwide hfits.virtualAddress hstart,
      wordAt_of_holds hwide hfits.fileSize hfile,
      wordAt_of_holds hwide hfits.memorySize hmemory,
      wordAt_of_holds hwide hfits.alignment halignment⟩
  case true =>
    obtain ⟨hkind, hflags, hoffset, hstart, -, hfile, hmemory, halignment⟩ :=
      hholds
    exact ⟨u32At_of_holds hkind, u32At_of_holds hflags,
      wordAt_of_holds hwide hfits.fileOffset hoffset,
      wordAt_of_holds hwide hfits.virtualAddress hstart,
      wordAt_of_holds hwide hfits.fileSize hfile,
      wordAt_of_holds hwide hfits.memorySize hmemory,
      wordAt_of_holds hwide hfits.alignment halignment⟩

theorem symbolEntryAt_of_holds {item : SymbolEntry}
    (hfits : SymbolFits (ElfFile.wide data) item)
    (hholds : Holds data place
      (symbolRecord (ElfFile.wide data) (ElfFile.order data) item)) :
    ElfFile.symbolEntryAt data place = item := by
  obtain ⟨name, info, other, sectionIndex, value, size⟩ := item
  unfold symbolRecord at hholds
  unfold ElfFile.symbolEntryAt
  cases hwide : ElfFile.wide data <;> rw [hwide] at hfits <;>
    simp only [hwide, Bool.false_eq_true, if_false, if_true,
      List.flatten_cons, List.flatten_nil, List.append_nil, holds_append,
      word_length, half_length, address_length, List.length_singleton,
      fieldSize, Nat.add_assoc, Nat.reduceAdd, SymbolEntry.mk.injEq] at hholds ⊢
  case false =>
    obtain ⟨hname, hvalue, hsize, hinfo, hother, hindex⟩ := hholds
    exact ⟨u32At_of_holds hname, u8At_of_holds hinfo, u8At_of_holds hother,
      u16At_of_holds hindex, wordAt_of_holds hwide hfits.value hvalue,
      wordAt_of_holds hwide hfits.size hsize⟩
  case true =>
    obtain ⟨hname, hinfo, hother, hindex, hvalue, hsize⟩ := hholds
    exact ⟨u32At_of_holds hname, u8At_of_holds hinfo, u8At_of_holds hother,
      u16At_of_holds hindex, wordAt_of_holds hwide hfits.value hvalue,
      wordAt_of_holds hwide hfits.size hsize⟩

/-- The information field is large enough for both parts. -/
theorem relocationInformation_lt {wide : Bool} {item : RelocationEntry}
    (hfits : RelocationFits wide item) :
    relocationInformation wide item < 256 ^ fieldSize wide := by
  have hsymbol := item.symbol.toNat_lt
  have htype := item.type.toNat_lt
  unfold relocationInformation
  cases wide with
  | false =>
      have hnarrow := hfits.symbol rfl
      have hshort := hfits.type rfl
      show _ * 2 ^ 8 + _ < 2 ^ 32
      omega
  | true =>
      show _ * 2 ^ 32 + _ < 2 ^ 64
      omega

section Relocations

variable {options : RelocationDecodeOptions} {wide : Bool}
  {item : RelocationEntry}

theorem elfEntryAt_fields
    (hsize : options.wordSize = if wide then .bits64 else .bits32) :
    elfEntryAt options data place =
      { offset := fieldAt wide options.byteOrder data place
        information :=
          fieldAt wide options.byteOrder data (place + fieldSize wide)
        addend := if options.explicitAddends then
            if wide then
              (u64At options.byteOrder data (place + 16)).toInt64
            else (u32At options.byteOrder data (place + 8)).toInt32.toInt64
          else 0 } := by
  unfold elfEntryAt
  cases wide <;> rw [hsize] <;> rfl

theorem elfSymbol_of_information {information : UInt64}
    (hfits : RelocationFits wide item)
    (hinformation : information.toNat = relocationInformation wide item) :
    (elfSymbol wide information).toUInt32 = item.symbol := by
  apply UInt32.toNat_inj.mp
  have htype := item.type.toNat_lt
  have hsymbol := item.symbol.toNat_lt
  rw [relocationInformation] at hinformation
  cases wide with
  | false =>
      have hshort := hfits.type rfl
      simp only [elfSymbol, Bool.false_eq_true, if_false, UInt64.toNat_toUInt32,
        UInt64.toNat_shiftRight, UInt64.reduceToNat, Nat.reduceMod,
        Nat.shiftRight_eq_div_pow, hinformation]
      omega
  | true =>
      simp only [elfSymbol, if_true, UInt64.toNat_toUInt32,
        UInt64.toNat_shiftRight, UInt64.reduceToNat, Nat.reduceMod,
        Nat.shiftRight_eq_div_pow, hinformation]
      omega

theorem elfType_of_information {information : UInt64}
    (hfits : RelocationFits wide item)
    (hinformation : information.toNat = relocationInformation wide item) :
    elfType wide information = item.type := by
  apply UInt32.toNat_inj.mp
  have htype := item.type.toNat_lt
  rw [relocationInformation] at hinformation
  cases wide with
  | false =>
      have hshort := hfits.type rfl
      simp only [elfType, Bool.false_eq_true, if_false, UInt8.toNat_toUInt32,
        UInt64.toNat_toUInt8, hinformation]
      omega
  | true =>
      simp only [elfType, if_true, UInt64.toNat_toUInt32, hinformation]
      omega

/-- A signed value of 32 bits survives a narrow field. -/
theorem toInt64_toInt32_of_fits {value : UInt32} {addend : Int64}
    (hfits : -2 ^ 31 ≤ addend.toInt ∧ addend.toInt < 2 ^ 31)
    (hvalue : value.toNat = addend.toUInt64.toNat % 2 ^ 32) :
    value.toInt32.toInt64 = addend := by
  have hnarrow : value.toInt32.toInt = if 2 * value.toNat < 2 ^ 32 then
      (value.toNat : ℤ) else (value.toNat : ℤ) - (2 ^ 32 : ℕ) :=
    BitVec.toInt_eq_toNat_cond _
  have hwide : addend.toInt = if 2 * addend.toUInt64.toNat < 2 ^ 64 then
      (addend.toUInt64.toNat : ℤ)
        else (addend.toUInt64.toNat : ℤ) - (2 ^ 64 : ℕ) :=
    BitVec.toInt_eq_toNat_cond _
  have hbound := addend.toUInt64.toNat_lt
  apply Int64.toInt_inj.mp
  rw [Int32.toInt_toInt64, hnarrow]
  split at hwide <;> split <;> omega

theorem elfAddend_of_holds {order : ByteOrder} {other : ℕ}
    (hfits : RelocationFits wide item)
    (hplace : other = place + 2 * fieldSize wide)
    (hholds : Holds data other (address wide order item.addend.toUInt64)) :
    (if wide then (u64At order data (place + 16)).toInt64
      else (u32At order data (place + 8)).toInt32.toInt64) = item.addend := by
  subst hplace
  cases wide with
  | false =>
      rw [if_neg Bool.false_ne_true]
      exact toInt64_toInt32_of_fits (hfits.addend rfl)
        (u32At_toNat_of_holds hholds)
  | true =>
      have hvalue : u64At order data (place + 16) = item.addend.toUInt64 :=
        UInt64.toNat_inj.mp ((u64At_toNat_of_holds hholds).trans
          (Nat.mod_eq_of_lt item.addend.toUInt64.toNat_lt))
      rw [if_pos rfl, hvalue]
      rfl

theorem elfEntryAt_offset_of_holds {explicitAddend : Bool}
    (hfits : FitsField wide item.offset)
    (hsize : options.wordSize = if wide then .bits64 else .bits32)
    (hholds : Holds data place
      (relocationRecord wide options.byteOrder explicitAddend item)) :
    (elfEntryAt options data place).offset = item.offset := by
  rw [relocationRecord, List.flatten_cons, holds_append] at hholds
  rw [elfEntryAt_fields hsize]
  exact fieldAt_of_holds hfits hholds.1

/-- The relocation a record becomes. -/
theorem elfRelocation_of_holds {index : ℕ} (hfits : RelocationFits wide item)
    (hsize : options.wordSize = if wide then .bits64 else .bits32)
    (hholds : Holds data place (relocationRecord wide options.byteOrder
      options.explicitAddends item)) :
    elfRelocation options (elfEntryAt options data place) index =
      { index := UInt32.ofNat index
        kind := elfKind options.architecture item.type
        targetSection := options.targetSection, symbolIndex := item.symbol
        offset := options.baseAddress + item.offset
        addend := if options.explicitAddends then item.addend else 0
        width :=
          if elfKind options.architecture item.type = .absolute64 ∨
            elfKind options.architecture item.type = .relative64 then 8
          else 4 } := by
  simp only [relocationRecord, List.flatten_cons, List.flatten_nil,
    List.append_nil, holds_append, address_length, numberBytes_length] at hholds
  obtain ⟨hoffset, hinformation, haddend⟩ := hholds
  have hwide : (options.wordSize == .bits64) = wide := by
    rw [hsize]
    cases wide <;> rfl
  have hvalue := fieldAt_toNat_of_holds (relocationInformation_lt hfits)
    hinformation
  have hsigned : (if options.explicitAddends then
      if wide then (u64At options.byteOrder data (place + 16)).toInt64
      else (u32At options.byteOrder data (place + 8)).toInt32.toInt64
        else 0) = if options.explicitAddends then item.addend else 0 := by
    by_cases hexplicit : options.explicitAddends = true
    · rw [if_pos hexplicit] at haddend
      rw [if_pos hexplicit, if_pos hexplicit]
      exact elfAddend_of_holds hfits (by omega) haddend
    · rw [if_neg hexplicit, if_neg hexplicit]
  unfold elfRelocation
  rw [elfEntryAt_fields hsize]
  simp only [hwide, elfSymbol_of_information hfits hvalue,
    elfType_of_information hfits hvalue, fieldAt_of_holds hfits.offset hoffset,
    hsigned]

end Relocations

end Records

end ElfEncoding
end BinForge
