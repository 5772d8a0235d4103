import BinForge.RecordLayout
import BinForge.RelocationRecords

/-!
# The grammar of a PE base-relocation table

A table is blocks one after the other: a page, the size of the block and 16-bit
records up to that size.  A record of nonzero type is a fixup of its page.  The
decoder accepts exactly the tables whose fixups fit the address space and the
record limit, and turns each fixup into one relocation.
-/

namespace BinForge

open StatefulExcept
open MachineInteger
open ListSplice
open RecordLayout
open ByteReader

namespace RelocationTableDecoder

/-! ## Fields of a block -/

def u16Bytes (value : UInt16) : Bytes := littleBytes 2 value.toNat

@[simp] theorem u16Bytes_length (value : UInt16) :
    (u16Bytes value).length = 2 := littleBytes_length 2 _

theorem joinU16_little_toNat {bytes : Bytes} (hlength : bytes.length = 2) :
    (joinU16 .little bytes).toNat = littleValue bytes := by
  obtain ⟨low, high, rfl⟩ := List.length_eq_two.mp hlength
  apply (joinBytes_toNat low high).trans
  simp only [littleValue_cons, littleValue_nil]
  omega

section Fields

variable {data : Bytes} {place : ℕ}

/-- The bytes of a field that reads back as they stand. -/
theorem holds_iff_of_join {α : Type} {count : ℕ} (join : Bytes → α)
    {write : α → Bytes} {value : α}
    (hread : ∀ value, (write value).length = count ∧ join (write value) = value)
    (hwrite : ∀ bytes : Bytes, bytes.length = count →
      write (join bytes) = bytes)
    (hfit : place + count ≤ data.length) :
    Holds data place (write value) ↔ join (slice data place count) = value := by
  unfold Holds
  rw [(hread value).1]
  constructor
  · intro hslice
    rw [hslice, (hread value).2]
  · rintro rfl
    exact (hwrite _ (slice_length hfit)).symm

theorem holds_u16Bytes {value : UInt16} (hfit : place + 2 ≤ data.length) :
    Holds data place (u16Bytes value) ↔ u16At .little data place = value := by
  apply holds_iff_of_join (joinU16 .little)
  · intro value
    refine ⟨u16Bytes_length value, UInt16.toNat_inj.mp ?_⟩
    rw [joinU16_little_toNat (u16Bytes_length value), u16Bytes,
      littleValue_littleBytes_of_lt value.toNat_lt]
  · intro bytes hlength
    rw [u16Bytes, joinU16_little_toNat hlength, ← hlength,
      littleBytes_littleValue]
  · exact hfit

theorem holds_u32Bytes {value : UInt32} (hfit : place + 4 ≤ data.length) :
    Holds data place (u32Bytes value) ↔ u32At .little data place = value :=
  holds_iff_of_join (joinU32 .little)
    (fun value => ⟨u32Bytes_length value, joinU32_u32Bytes value⟩)
    (fun _ hlength => u32Bytes_joinU32 hlength) hfit

end Fields

/-! ## Blocks and tables -/

/-- A page and the records behind the header of its block. -/
structure PeBlock where
  pageRva : UInt32
  records : List UInt16
  deriving DecidableEq, Repr

namespace PeBlock

def size (block : PeBlock) : ℕ := 8 + 2 * block.records.length

def bytes (block : PeBlock) : Bytes :=
  u32Bytes block.pageRva ++ u32Bytes (UInt32.ofNat block.size) ++
    block.records.flatMap u16Bytes

end PeBlock

theorem records_length (records : List UInt16) :
    (records.flatMap u16Bytes).length = 2 * records.length := by
  induction records with
  | nil => rfl
  | cons record records ih =>
      rw [List.flatMap_cons, List.length_append, ih, u16Bytes_length,
        List.length_cons]
      omega

theorem PeBlock.bytes_length (block : PeBlock) :
    block.bytes.length = block.size := by
  rw [bytes, List.length_append, List.length_append, u32Bytes_length,
    u32Bytes_length, records_length, size]

/-- The bytes are these blocks, none larger than its size field can say. -/
structure PeTable (blocks : List PeBlock) (data : Bytes) : Prop where
  sizes : ∀ block ∈ blocks, block.size < 2 ^ 32
  bytes : data = blocks.flatMap PeBlock.bytes

theorem peTable_nil {data : Bytes} : PeTable [] data ↔ data = [] :=
  ⟨fun htable => htable.bytes, fun hdata => ⟨by simp, hdata⟩⟩

theorem peTable_cons {block : PeBlock} {blocks : List PeBlock} {data : Bytes} :
    PeTable (block :: blocks) data ↔
      block.size < 2 ^ 32 ∧
        ∃ rest, data = block.bytes ++ rest ∧ PeTable blocks rest := by
  constructor
  · rintro ⟨hsizes, rfl⟩
    obtain ⟨hsize, hsizes⟩ := List.forall_mem_cons.mp hsizes
    exact ⟨hsize, _, List.flatMap_cons, hsizes, rfl⟩
  · rintro ⟨hsize, _, rfl, hsizes, rfl⟩
    exact ⟨List.forall_mem_cons.mpr ⟨hsize, hsizes⟩, List.flatMap_cons.symm⟩

theorem PeTable.eq_nil {blocks : List PeBlock} (htable : PeTable blocks []) :
    blocks = [] := by
  cases blocks with
  | nil => rfl
  | cons block blocks =>
      have hlength := congrArg List.length htable.bytes
      rw [List.flatMap_cons, List.length_append, block.bytes_length,
        PeBlock.size, List.length_nil] at hlength
      omega

/-- What stands at a place is the front of the rest. -/
theorem holds_iff_drop {data record : Bytes} {place : ℕ} :
    Holds data place record ↔
      data.drop place = record ++ data.drop (place + record.length) := by
  rw [← List.drop_drop]
  constructor
  · intro hholds
    conv_lhs => rw [← List.take_append_drop record.length (data.drop place)]
    exact congrArg (· ++ _) hholds
  · intro hdrop
    rw [Holds, slice, hdrop, List.take_left]

/-! ## Fixups -/

def recordType (record : UInt16) : UInt8 := (record >>> 12).toUInt8

/-- The records of nonzero type, each with its page. -/
def PeBlock.fixups (block : PeBlock) : List (UInt32 × UInt16) :=
  (block.records.filter fun record => recordType record ≠ 0).map
    (Prod.mk block.pageRva)

/-- The place a fixup changes, were the address space unbounded. -/
def fixupTarget (imageBase : UInt64) (fixup : UInt32 × UInt16) : ℕ :=
  imageBase.toNat + fixup.1.toNat + (fixup.2 &&& 0xfff).toNat

/-- The relocation a fixup becomes at its place in the output. -/
structure FixupRelocation (imageBase : UInt64)
    (fixup : (UInt32 × UInt16) × ℕ) (relocation : Relocation) : Prop where
  index : relocation.index.toNat = fixup.2
  offset : relocation.offset.toNat = fixupTarget imageBase fixup.1
  coded : (relocation.kind, relocation.width) = peKind (recordType fixup.1.2)
  targetSection : relocation.targetSection = 0
  symbolIndex : relocation.symbolIndex = 0
  addend : relocation.addend = 0

/-- The fixups fit the address space and the record limit, and the output is
theirs in order. -/
structure PeDecoded (limits : Limits) (imageBase : UInt64)
    (fixups : List (UInt32 × UInt16)) (output : List Relocation) : Prop where
  targets : ∀ fixup ∈ fixups, fixupTarget imageBase fixup < 2 ^ 64
  count : fixups.length ≤ limits.maxRelocations.toNat
  output : List.Forall₂ (FixupRelocation imageBase) fixups.zipIdx output

/-! ## One record -/

variable {limits : Limits} {imageBase blockOffset : UInt64}
  {output result : List Relocation} {reader next : ByteReader}

def fixupRelocation (imageBase : UInt64) (fixup : (UInt32 × UInt16) × ℕ) :
    Relocation :=
  { index := UInt32.ofNat fixup.2
    offset := imageBase + fixup.1.1.toUInt64 + (fixup.1.2 &&& 0xfff).toUInt64
    kind := (peKind (recordType fixup.1.2)).1
    width := (peKind (recordType fixup.1.2)).2 }

theorem fixupTarget_toNat {fixup : UInt32 × UInt16}
    (htarget : fixupTarget imageBase fixup < 2 ^ 64) :
    (imageBase + fixup.1.toUInt64 + (fixup.2 &&& 0xfff).toUInt64).toNat =
      fixupTarget imageBase fixup := by
  have hpage : fixup.1.toUInt64.toNat = fixup.1.toNat :=
    UInt32.toNat_toUInt64 _
  have hoffset : (fixup.2 &&& 0xfff).toUInt64.toNat =
      (fixup.2 &&& 0xfff).toNat := UInt16.toNat_toUInt64 _
  unfold fixupTarget at htarget ⊢
  have hfirst : (imageBase + fixup.1.toUInt64).toNat =
      imageBase.toNat + fixup.1.toNat := by
    rw [toNat_add_of_fit (by omega), hpage]
  rw [toNat_add_of_fit (by omega), hfirst, hoffset]

theorem fixupRelocation_iff {fixup : (UInt32 × UInt16) × ℕ}
    {relocation : Relocation}
    (htarget : fixupTarget imageBase fixup.1 < 2 ^ 64)
    (hindex : fixup.2 < 2 ^ 32) :
    FixupRelocation imageBase fixup relocation ↔
      relocation = fixupRelocation imageBase fixup := by
  have hoffset := fixupTarget_toNat htarget
  have hnumber : (UInt32.ofNat fixup.2).toNat = fixup.2 :=
    UInt32.toNat_ofNat_of_lt' hindex
  constructor
  · intro hfixup
    obtain ⟨index, kind, target, symbol, offset, addend, width⟩ := relocation
    obtain ⟨rfl, rfl⟩ := Prod.mk.inj hfixup.coded
    obtain rfl : target = 0 := hfixup.targetSection
    obtain rfl : symbol = 0 := hfixup.symbolIndex
    obtain rfl : addend = 0 := hfixup.addend
    obtain rfl : index = UInt32.ofNat fixup.2 :=
      UInt32.toNat_inj.mp (hfixup.index.trans hnumber.symm)
    obtain rfl : offset = _ :=
      UInt64.toNat_inj.mp (hfixup.offset.trans hoffset.symm)
    rfl
  · rintro rfl
    exact ⟨hnumber, hoffset, rfl, rfl, rfl, rfl⟩

/-- The output after one fixup, if it is accepted. -/
def keepFixup (limits : Limits) (imageBase : UInt64)
    (output : List Relocation) (fixup : UInt32 × UInt16) :
    Option (List Relocation) :=
  if fixupTarget imageBase fixup < 2 ^ 64 ∧
      output.length < limits.maxRelocations.toNat then
    some (output ++ [fixupRelocation imageBase (fixup, output.length)])
  else none

/-- The output after one record: one of type zero is padding. -/
def keepRecord (limits : Limits) (imageBase : UInt64) (pageRva : UInt32)
    (output : List Relocation) (record : UInt16) : Option (List Relocation) :=
  if recordType record ≠ 0 then
    keepFixup limits imageBase output (pageRva, record)
  else some output

theorem keepFixup_eq_some {fixup : UInt32 × UInt16} :
    keepFixup limits imageBase output fixup = some result ↔
      ∃ page target, checkedAdd imageBase fixup.1.toUInt64 = some page ∧
        checkedAdd page (fixup.2 &&& 0xfff).toUInt64 = some target ∧
        appendRelocation limits
          { index := UInt32.ofNat output.length, offset := target,
            kind := (peKind (recordType fixup.2)).1,
            width := (peKind (recordType fixup.2)).2 } output =
          .ok result := by
  have hpage : fixup.1.toUInt64.toNat = fixup.1.toNat :=
    UInt32.toNat_toUInt64 _
  have hoffset : (fixup.2 &&& 0xfff).toUInt64.toNat =
      (fixup.2 &&& 0xfff).toNat := UInt16.toNat_toUInt64 _
  simp only [keepFixup, Option.ite_none_right_eq_some, Option.some.injEq,
    appendRelocation_eq_ok]
  constructor
  · rintro ⟨⟨htarget, hroom⟩, rfl⟩
    unfold fixupTarget at htarget
    refine ⟨_, _, checkedAdd_of_fit (by omega), checkedAdd_of_fit ?_, hroom,
      rfl⟩
    rw [toNat_add_of_fit (by omega)]
    omega
  · rintro ⟨page, target, hfirst, hsecond, hroom, rfl⟩
    obtain ⟨hpageFit, rfl⟩ := checkedAdd_eq_some.mp hfirst
    obtain ⟨htargetFit, rfl⟩ := checkedAdd_eq_some.mp hsecond
    rw [toNat_add_of_fit hpageFit] at htargetFit
    refine ⟨⟨?_, hroom⟩, rfl⟩
    unfold fixupTarget
    omega

theorem readU16_holds {value : UInt16} (horder : reader.order = .little) :
    readU16 reader = .ok value next ↔
      Holds reader.data reader.position (u16Bytes value) ∧
        next = reader.movedTo (reader.position + 2) := by
  rw [readU16_at, horder, ← and_assoc]
  apply and_congr_left
  intro _
  constructor
  · rintro ⟨hfit, hvalue⟩
    exact (holds_u16Bytes hfit).mpr hvalue.symm
  · intro hholds
    have hfit := hholds.fits (by simp [u16Bytes, littleBytes])
    rw [u16Bytes_length] at hfit
    exact ⟨hfit, ((holds_u16Bytes hfit).mp hholds).symm⟩

theorem readU32_holds {value : UInt32} (horder : reader.order = .little) :
    readU32 reader = .ok value next ↔
      Holds reader.data reader.position (u32Bytes value) ∧
        next = reader.movedTo (reader.position + 4) := by
  rw [readU32_at, horder, ← and_assoc]
  apply and_congr_left
  intro _
  constructor
  · rintro ⟨hfit, hvalue⟩
    exact (holds_u32Bytes hfit).mpr hvalue.symm
  · intro hholds
    have hfit := hholds.fits (by simp [u32Bytes])
    rw [u32Bytes_length] at hfit
    exact ⟨hfit, ((holds_u32Bytes hfit).mp hholds).symm⟩

theorem peRecord_eq_ok {pageRva : UInt32} {index : ℕ}
    (horder : reader.order = .little) :
    peRecord limits imageBase blockOffset pageRva output index reader =
        .ok result next ↔
      ∃ record, Holds reader.data reader.position (u16Bytes record) ∧
        keepRecord limits imageBase pageRva output record = some result ∧
        next = reader.movedTo (reader.position + 2) := by
  unfold peRecord
  simp only [bind_eq_ok, adaptError_eq_ok, readU16_holds horder, and_assoc,
    exists_and_left, exists_eq_left]
  apply exists_congr
  intro record
  apply and_congr_right
  intro _
  unfold keepRecord
  change (if recordType record = 0 then _ else _ : DecodeCall _) _ = _ ↔ _
  by_cases htype : recordType record = 0
  · rw [if_pos htype, if_neg (not_not.mpr htype), pure_eq_ok, Option.some.injEq]
    exact and_congr_right fun _ => eq_comm
  · rw [if_neg htype, if_pos htype, keepFixup_eq_some]
    simp only [demand_bind_eq_ok, liftExcept_eq_ok]
    constructor
    · rintro ⟨page, hpage, target, htarget, happend, rfl⟩
      exact ⟨⟨page, target, hpage, htarget, happend⟩, rfl⟩
    · rintro ⟨⟨page, target, hpage, htarget, happend⟩, rfl⟩
      exact ⟨page, hpage, target, htarget, happend, rfl⟩

/-- The records of a block, read one after the other. -/
theorem peRecords_eq_ok {pageRva : UInt32} {rounds : List ℕ}
    (horder : reader.order = .little) :
    rounds.foldlM (peRecord limits imageBase blockOffset pageRva) output
        reader = .ok result next ↔
      ∃ records : List UInt16, records.length = rounds.length ∧
        Holds reader.data reader.position (records.flatMap u16Bytes) ∧
        records.foldlM (keepRecord limits imageBase pageRva) output =
          some result ∧
        next = reader.movedTo (reader.position + 2 * rounds.length) := by
  induction rounds generalizing output reader with
  | nil =>
      simp only [List.foldlM_nil, pure_eq_ok, List.length_nil,
        List.length_eq_zero_iff, exists_eq_left, List.flatMap_nil, Nat.mul_zero,
        Nat.add_zero]
      constructor
      · rintro ⟨rfl, rfl⟩
        exact ⟨rfl, rfl, rfl⟩
      · rintro ⟨_, hresult, rfl⟩
        exact ⟨Option.some.inj hresult, rfl⟩
  | cons round rounds ih =>
      have hmoved :
          (reader.movedTo (reader.position + 2)).order = .little := horder
      rw [List.foldlM_cons, bind_eq_ok]
      constructor
      · rintro ⟨middle, moved, hrecord, hrest⟩
        obtain ⟨record, hholds, hkeep, rfl⟩ :=
          (peRecord_eq_ok horder).mp hrecord
        obtain ⟨records, hcount, hrecords, hfold, rfl⟩ := (ih hmoved).mp hrest
        refine ⟨record :: records, ?_, ?_, ?_, ?_⟩
        · rw [List.length_cons, List.length_cons, hcount]
        · rw [List.flatMap_cons, holds_append, u16Bytes_length]
          exact ⟨hholds, hrecords⟩
        · rw [List.foldlM_cons, hkeep]
          exact hfold
        · rw [movedTo_movedTo, movedTo_position, List.length_cons]
          congr 1
          omega
      · rintro ⟨records, hcount, hholds, hfold, rfl⟩
        cases records with
        | nil => simp at hcount
        | cons record records =>
            rw [List.flatMap_cons, holds_append, u16Bytes_length] at hholds
            rw [List.foldlM_cons, Option.bind_eq_bind,
              Option.bind_eq_some_iff] at hfold
            obtain ⟨middle, hkeep, hfold⟩ := hfold
            refine ⟨middle, _, (peRecord_eq_ok horder).mpr
              ⟨record, hholds.1, hkeep, rfl⟩, (ih hmoved).mpr
              ⟨records, by simpa using hcount, hholds.2, hfold, ?_⟩⟩
            rw [movedTo_movedTo, movedTo_position, List.length_cons]
            congr 1
            omega

theorem foldlM_keepRecord (block : PeBlock) :
    block.records.foldlM (keepRecord limits imageBase block.pageRva) output =
      block.fixups.foldlM (keepFixup limits imageBase) output := by
  rw [PeBlock.fixups, List.foldlM_map, List.foldlM_filter]
  apply congrArg (fun step => block.records.foldlM step output)
  funext output record
  simp only [keepRecord, decide_eq_true_eq]
  rfl

/-! ## Blocks and the whole table -/

theorem recordCount_toNat {blockSize : UInt32} (hlow : 8 ≤ blockSize) :
    ((blockSize - 8) / 2).toNat = (blockSize.toNat - 8) / 2 := by
  rw [UInt32.toNat_div, UInt32.toNat_sub_of_le _ _ hlow]
  rfl

/-- The sizes a block is not rejected for. -/
theorem blockSize_fits {blockSize : UInt32} {ahead : ℕ} :
    ¬(blockSize < 8 ∨ blockSize.toNat > ahead ∨ (blockSize - 8) % 2 ≠ 0) ↔
      8 ≤ blockSize ∧ blockSize.toNat ≤ ahead ∧
        (blockSize.toNat - 8) % 2 = 0 := by
  rw [not_or, not_or, UInt32.not_lt, not_lt, not_not]
  apply and_congr_right
  intro hlow
  rw [← UInt32.toNat_inj, UInt32.toNat_mod, UInt32.toNat_sub_of_le _ _ hlow]
  rfl

theorem PeBlock.holds_bytes {block : PeBlock} {data : Bytes} {place : ℕ} :
    Holds data place block.bytes ↔
      Holds data place (u32Bytes block.pageRva) ∧
        Holds data (place + 4) (u32Bytes (UInt32.ofNat block.size)) ∧
        Holds data (place + 8) (block.records.flatMap u16Bytes) := by
  rw [PeBlock.bytes, holds_append, holds_append, List.length_append,
    u32Bytes_length, u32Bytes_length, and_assoc]

theorem readPeBlockHeader_eq_ok {header : UInt32 × UInt32}
    (horder : reader.order = .little) :
    readPeBlockHeader reader = .ok header next ↔
      Holds reader.data reader.position (u32Bytes header.1) ∧
        Holds reader.data (reader.position + 4) (u32Bytes header.2) ∧
        next = reader.movedTo (reader.position + 8) := by
  have hmoved :
      (reader.movedTo (reader.position + 4)).order = .little := horder
  obtain ⟨pageRva, blockSize⟩ := header
  unfold readPeBlockHeader
  rw [bind_eq_ok]
  constructor
  · rintro ⟨page, first, hfirst, hrest⟩
    obtain ⟨hpage, rfl⟩ := (readU32_holds horder).mp hfirst
    obtain ⟨size, second, hsecond, hrest⟩ := bind_eq_ok.mp hrest
    obtain ⟨hsize, rfl⟩ := (readU32_holds hmoved).mp hsecond
    rw [pure_eq_ok] at hrest
    obtain ⟨hpair, rfl⟩ := hrest
    obtain ⟨rfl, rfl⟩ := Prod.mk.inj hpair
    exact ⟨hpage, hsize, rfl⟩
  · rintro ⟨hpage, hsize, rfl⟩
    refine ⟨pageRva, _, (readU32_holds horder).mpr ⟨hpage, rfl⟩, ?_⟩
    rw [bind_of_ok ((readU32_holds hmoved).mpr ⟨hsize, rfl⟩)]
    rfl

/-- The size that a block's header stores for its records. -/
theorem PeBlock.size_of_count {pageRva blockSize : UInt32}
    {records : List UInt16} (hlow : 8 ≤ blockSize)
    (heven : (blockSize.toNat - 8) % 2 = 0)
    (hcount : records.length = ((blockSize - 8) / 2).toNat) :
    PeBlock.size ⟨pageRva, records⟩ = blockSize.toNat := by
  rw [recordCount_toNat hlow] at hcount
  rw [UInt32.le_iff_toNat_le] at hlow
  have height : (8 : UInt32).toNat = 8 := rfl
  rw [PeBlock.size, hcount]
  omega

theorem PeBlock.sizeField_fits {block : PeBlock} {ahead : ℕ}
    (hsize : block.size < 2 ^ 32) (hahead : block.size ≤ ahead) :
    let blockSize := UInt32.ofNat block.size
    (8 ≤ blockSize ∧ blockSize.toNat ≤ ahead ∧
        (blockSize.toNat - 8) % 2 = 0) ∧
      block.records.length = ((blockSize - 8) / 2).toNat := by
  intro blockSize
  have hvalue : blockSize.toNat = block.size := UInt32.toNat_ofNat_of_lt' hsize
  have hlow : 8 ≤ blockSize := by
    rw [UInt32.le_iff_toNat_le, hvalue]
    exact Nat.le_add_right 8 _
  rw [recordCount_toNat hlow, hvalue]
  refine ⟨⟨hlow, hahead, ?_⟩, ?_⟩ <;>
  · rw [PeBlock.size]
    omega

/-- A block is accepted where one stands whose fixups are. -/
theorem peBlock_eq_ok (horder : reader.order = .little)
    (hlength : reader.data.length < 2 ^ 64) :
    peBlock limits imageBase output reader = .ok result next ↔
      ∃ block : PeBlock, block.size < 2 ^ 32 ∧
        Holds reader.data reader.position block.bytes ∧
        block.fixups.foldlM (keepFixup limits imageBase) output = some result ∧
        next = reader.movedTo (reader.position + block.size) := by
  have hmoved :
      (reader.movedTo (reader.position + 8)).order = .little := horder
  rw [peBlock_steps]
  constructor
  · rintro ⟨pageRva, blockSize, headed, walked, hheader, hfits, hloop, hseek⟩
    obtain ⟨hpage, hsize, rfl⟩ := (readPeBlockHeader_eq_ok horder).mp hheader
    obtain ⟨hlow, hinside, heven⟩ := blockSize_fits.mp hfits
    obtain ⟨records, hcount, hrecords, hfold, rfl⟩ :=
      (peRecords_eq_ok hmoved).mp hloop
    obtain ⟨_, rfl⟩ := seek_eq_ok.mp hseek
    rw [List.length_range] at hcount
    have hblock : PeBlock.size ⟨pageRva, records⟩ = blockSize.toNat :=
      PeBlock.size_of_count hlow heven hcount
    have hheaderFit := hsize.fits (by simp [u32Bytes])
    refine ⟨⟨pageRva, records⟩, ?_, PeBlock.holds_bytes.mpr
      ⟨hpage, ?_, hrecords⟩, ?_, ?_⟩
    · rw [hblock]
      exact blockSize.toNat_lt
    · rw [hblock, UInt32.ofNat_toNat]
      exact hsize
    · rw [← foldlM_keepRecord]
      exact hfold
    · rw [movedTo_movedTo, movedTo_movedTo, hblock, blockEnd_toNat (by omega)]
  · rintro ⟨block, hsize, hholds, hfold, rfl⟩
    have hfit := hholds.fits (List.ne_nil_of_length_pos (by
      rw [block.bytes_length, PeBlock.size]
      omega))
    rw [block.bytes_length] at hfit
    obtain ⟨hpage, hword, hrecords⟩ := PeBlock.holds_bytes.mp hholds
    obtain ⟨hfits, hcount⟩ := PeBlock.sizeField_fits hsize
      (by omega : block.size ≤ reader.data.length - reader.position)
    have hend : (UInt64.ofNat reader.position +
        (UInt32.ofNat block.size).toUInt64).toNat =
          reader.position + block.size := by
      have hvalue : (UInt32.ofNat block.size).toNat = block.size :=
        UInt32.toNat_ofNat_of_lt' hsize
      rw [blockEnd_toNat (by rw [hvalue]; omega), hvalue]
    refine ⟨block.pageRva, UInt32.ofNat block.size, _, _,
      (readPeBlockHeader_eq_ok horder).mpr ⟨hpage, hword, rfl⟩,
      blockSize_fits.mpr hfits, (peRecords_eq_ok hmoved).mpr
        ⟨block.records, ?_, hrecords, ?_, rfl⟩, seek_eq_ok.mpr ⟨?_, ?_⟩⟩
    · rw [List.length_range]
      exact hcount
    · rw [foldlM_keepRecord]
      exact hfold
    · rw [hend]
      exact hfit
    · rw [hend]
      rfl

theorem drop_eq_nil_of_remaining (hdone : reader.remaining = 0) :
    reader.data.drop reader.position = [] := by
  rw [remaining_eq] at hdone
  exact List.drop_eq_nil_of_le (by omega)

/-- The bytes are a table whose fixups take the one output to the other. -/
def Accepted (limits : Limits) (imageBase : UInt64) (data : Bytes)
    (output result : List Relocation) : Prop :=
  ∃ blocks, PeTable blocks data ∧
    (blocks.flatMap PeBlock.fixups).foldlM (keepFixup limits imageBase)
      output = some result

/-- Nothing ahead is the empty table only. -/
theorem accepted_nil :
    Accepted limits imageBase [] output result ↔ output = result := by
  constructor
  · rintro ⟨blocks, htable, hfold⟩
    obtain rfl := htable.eq_nil
    exact Option.some.inj hfold
  · rintro rfl
    exact ⟨[], peTable_nil.mpr rfl, rfl⟩

/-- Where bytes are ahead, the table begins with a block. -/
theorem accepted_iff_block {data : Bytes} {place : ℕ}
    (hmore : data.drop place ≠ []) :
    Accepted limits imageBase (data.drop place) output result ↔
      ∃ (block : PeBlock) (middle : List Relocation), block.size < 2 ^ 32 ∧
        Holds data place block.bytes ∧
        block.fixups.foldlM (keepFixup limits imageBase) output = some middle ∧
        Accepted limits imageBase (data.drop (place + block.size)) middle
          result := by
  constructor
  · rintro ⟨_ | ⟨block, blocks⟩, htable, hfold⟩
    · exact absurd (peTable_nil.mp htable) hmore
    obtain ⟨hsize, rest, hdrop, htable⟩ := peTable_cons.mp htable
    rw [List.flatMap_cons, List.foldlM_append, Option.bind_eq_bind,
      Option.bind_eq_some_iff] at hfold
    obtain ⟨middle, hfold, hrest⟩ := hfold
    refine ⟨block, middle, hsize, ?_, hfold, blocks, ?_, hrest⟩
    · rw [Holds, slice, hdrop, List.take_left]
    · rw [← List.drop_drop, hdrop, ← block.bytes_length, List.drop_left]
      exact htable
  · rintro ⟨block, middle, hsize, hholds, hfold, blocks, htable, hrest⟩
    refine ⟨block :: blocks, peTable_cons.mpr ⟨hsize, _, ?_, htable⟩, ?_⟩
    · rw [← block.bytes_length]
      exact holds_iff_drop.mp hholds
    · rw [List.flatMap_cons, List.foldlM_append, hfold]
      exact hrest

/-- The passes take the whole of a table off, block by block. -/
theorem peBlocks_eq_ok {passes : ℕ} (horder : reader.order = .little)
    (hlength : reader.data.length < 2 ^ 64)
    (hpasses : reader.remaining ≤ passes) :
    (∃ next, peBlocks limits imageBase passes output reader =
        .ok result next) ↔
      Accepted limits imageBase (reader.data.drop reader.position) output
        result := by
  induction passes generalizing output reader with
  | zero =>
      rw [drop_eq_nil_of_remaining (Nat.le_zero.mp hpasses), accepted_nil]
      simp [peBlocks, pure_apply]
  | succ passes ih =>
      rw [peBlocks_pass]
      by_cases hdone : reader.remaining = 0
      · rw [if_pos hdone, drop_eq_nil_of_remaining hdone, accepted_nil]
        simp
      · have hmore : reader.data.drop reader.position ≠ [] := by
          rwa [ne_eq, ← List.length_eq_zero_iff, List.length_drop,
            ← remaining_eq]
        rw [if_neg hdone, accepted_iff_block hmore]
        -- A block is not empty, so a pass less is enough behind it.
        have hbehind (middle : List Relocation) (block : PeBlock) := by
          refine @ih middle
            (reader.movedTo (reader.position + block.size)) horder hlength ?_
          rw [remaining_eq] at hpasses hdone ⊢
          rw [movedTo_data, movedTo_position, PeBlock.size]
          omega
        constructor
        · rintro ⟨next, hrun⟩
          obtain ⟨middle, moved, hblock, hrest⟩ := bind_eq_ok.mp hrun
          obtain ⟨block, hsize, hholds, hfold, rfl⟩ :=
            (peBlock_eq_ok horder hlength).mp hblock
          exact ⟨block, middle, hsize, hholds, hfold,
            (hbehind middle block).mp ⟨next, hrest⟩⟩
        · rintro ⟨block, middle, hsize, hholds, hfold, hrest⟩
          obtain ⟨next, hrun⟩ := (hbehind middle block).mpr hrest
          exact ⟨next, bind_eq_ok.mpr ⟨middle, _,
            (peBlock_eq_ok horder hlength).mpr
              ⟨block, hsize, hholds, hfold, rfl⟩, hrun⟩⟩

/-! ## The fixups of the whole table -/

/-- The fold over the fixups appends a relocation for each, or stops. -/
theorem foldlM_keepFixup {fixups : List (UInt32 × UInt16)} :
    fixups.foldlM (keepFixup limits imageBase) output = some result ↔
      (∀ fixup ∈ fixups, fixupTarget imageBase fixup < 2 ^ 64) ∧
        (fixups = [] ∨
          output.length + fixups.length ≤ limits.maxRelocations.toNat) ∧
        result = output ++
          (fixups.zipIdx output.length).map (fixupRelocation imageBase) := by
  induction fixups generalizing output with
  | nil => simp [eq_comm]
  | cons fixup fixups ih =>
      rw [List.foldlM_cons, Option.bind_eq_bind, Option.bind_eq_some_iff]
      simp only [keepFixup, Option.ite_none_right_eq_some, Option.some.injEq,
        ih, List.zipIdx_cons, List.map_cons, List.forall_mem_cons,
        List.length_cons, reduceCtorEq, false_or]
      constructor
      · rintro ⟨_, ⟨⟨htarget, hroom⟩, rfl⟩, htargets, hcount, rfl⟩
        rw [List.length_append, List.length_singleton] at hcount ⊢
        refine ⟨⟨htarget, htargets⟩, ?_, List.append_assoc ..⟩
        rcases hcount with rfl | hcount
        · simpa using hroom
        · omega
      · rintro ⟨⟨htarget, htargets⟩, hcount, rfl⟩
        refine ⟨_, ⟨⟨htarget, by omega⟩, rfl⟩, htargets, .inr ?_, ?_⟩
        · rw [List.length_append, List.length_singleton]
          omega
        · rw [List.length_append, List.length_singleton, List.append_assoc]
          rfl

theorem forall₂_fixupRelocation {items : List ((UInt32 × UInt16) × ℕ)}
    (hfits : ∀ item ∈ items,
      fixupTarget imageBase item.1 < 2 ^ 64 ∧ item.2 < 2 ^ 32) :
    List.Forall₂ (FixupRelocation imageBase) items output ↔
      output = items.map (fixupRelocation imageBase) := by
  induction items generalizing output with
  | nil => simp
  | cons item items ih =>
      obtain ⟨⟨htarget, hindex⟩, hfits⟩ := List.forall_mem_cons.mp hfits
      rw [List.forall₂_cons_left_iff, List.map_cons]
      simp only [fixupRelocation_iff htarget hindex, ih hfits, exists_and_left,
        exists_eq_left]

theorem peDecoded_iff {fixups : List (UInt32 × UInt16)} :
    PeDecoded limits imageBase fixups output ↔
      fixups.foldlM (keepFixup limits imageBase) [] = some output := by
  have hmax := limits.maxRelocations.toNat_lt
  have hcount : (fixups = [] ∨ ([] : List Relocation).length + fixups.length ≤
        limits.maxRelocations.toNat) ↔
      fixups.length ≤ limits.maxRelocations.toNat := by
    rw [List.length_nil, Nat.zero_add, or_iff_right_iff_imp]
    rintro rfl
    exact Nat.zero_le _
  have houtput
      (htargets : ∀ fixup ∈ fixups, fixupTarget imageBase fixup < 2 ^ 64)
      (hroom : fixups.length ≤ limits.maxRelocations.toNat) :
      List.Forall₂ (FixupRelocation imageBase) fixups.zipIdx output ↔
        output = fixups.zipIdx.map (fixupRelocation imageBase) := by
    apply forall₂_fixupRelocation
    rintro ⟨fixup, index⟩ hitem
    obtain ⟨_, hindex, hfixup⟩ := List.mem_zipIdx hitem
    refine ⟨htargets fixup ?_, ?_⟩
    · rw [hfixup]
      exact List.getElem_mem _
    · show index < 2 ^ 32
      omega
  rw [foldlM_keepFixup, hcount, List.nil_append, List.length_nil]
  constructor
  · rintro ⟨htargets, hroom, hdecoded⟩
    exact ⟨htargets, hroom, (houtput htargets hroom).mp hdecoded⟩
  · rintro ⟨htargets, hroom, hdecoded⟩
    exact ⟨htargets, hroom, (houtput htargets hroom).mpr hdecoded⟩

/-- The decoder accepts exactly the tables of blocks whose fixups fit, and then
returns exactly the relocations of these fixups. -/
theorem decodePeBase_accepts {data : Bytes} (hlength : data.length < 2 ^ 64) :
    decodePeBase limits data imageBase [] = .ok output ↔
      ∃ blocks, PeTable blocks data ∧
        PeDecoded limits imageBase (blocks.flatMap PeBlock.fixups) output := by
  unfold decodePeBase
  rw [evaluate_eq_ok, peBlocks_eq_ok rfl hlength (by rw [remaining_eq]; rfl)]
  simp only [Accepted, List.drop_zero, peDecoded_iff]

/-- A padded block and an empty one behind it. -/
theorem decodePeBase_accepts_padded :
    decodePeBase {}
        [0x00, 0x10, 0, 0, 12, 0, 0, 0, 0x10, 0xa0, 0, 0,
          0x00, 0x20, 0, 0, 8, 0, 0, 0] 0x140000000 [] =
      .ok [{ kind := .relative64, offset := 0x140001010, width := 8 }] := by
  apply (decodePeBase_accepts (by decide)).mpr
  have hfixups : ([⟨0x1000, [0xa010, 0]⟩, ⟨0x2000, []⟩] : List PeBlock).flatMap
      PeBlock.fixups = [(0x1000, 0xa010)] := by decide
  refine ⟨[⟨0x1000, [0xa010, 0]⟩, ⟨0x2000, []⟩], ⟨by decide, by decide⟩, ?_⟩
  rw [hfixups]
  have htarget : fixupTarget 0x140000000 (0x1000, 0xa010) = 0x140001010 := by
    decide
  exact ⟨List.forall_mem_singleton.mpr (by rw [htarget]; decide), by decide,
    .cons ⟨rfl, htarget.symm, rfl, rfl, rfl, rfl⟩ .nil⟩

end RelocationTableDecoder
end BinForge
