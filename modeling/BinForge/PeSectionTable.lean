import BinForge.PeFile

/-!
# PE section records

A section record has forty bytes with its characteristics at offset 36.  The
parser reads nine words after the name where the record has seven and a half,
so it takes the characteristics from the first word behind the record.
-/

namespace BinForge

open StatefulExcept
open ListSplice
open ByteReader
open PeParser

namespace PeFile

/-- The forty bytes of a section's own record. -/
def sectionRecord (data : Bytes) (index : ℕ) : Bytes :=
  slice data ((sectionTable data).toNat + 40 * index) 40

def characteristics (record : Bytes) : UInt32 := u32At .little record 36

def wordBehind (data : Bytes) (index : ℕ) : UInt32 :=
  u32At .little data ((sectionTable data).toNat + 40 * index + 40)

/-- The section a record declares. -/
def declaredSection (record : Bytes) (alignment : UInt32) (index : ℕ) :
    Section :=
  ({ headerAt record 0 with flags := characteristics record } :
    SectionHeader).toSection index alignment

/-- The two words mean the same permissions and, under this name, the same
kind of section. -/
def SameMeaning (name : Bytes) (first second : UInt32) : Prop :=
  pePermissions first = pePermissions second ∧
    peSectionKind name first = peSectionKind name second

variable {data : Bytes}

theorem sectionTable_lt (data : Bytes) :
    (sectionTable data).toNat < 2 ^ 33 := by
  have hoffset := (headerOffset data + 24).toNat_lt
  have hsize := (optionalSize data).toNat_lt
  have hle := Nat.mod_le ((optionalOffset data).toNat +
    (optionalSize data).toUInt64.toNat) (2 ^ 64)
  rw [optionalOffset, UInt32.toNat_toUInt64, UInt16.toNat_toUInt64] at hle
  rw [sectionTable, UInt64.toNat_add, optionalOffset, UInt32.toNat_toUInt64,
    UInt16.toNat_toUInt64]
  omega

theorem recordOffset (data : Bytes) {index : ℕ} (hindex : index < 2 ^ 16) :
    (sectionTable data + UInt64.ofNat index * 40).toNat =
      (sectionTable data).toNat + 40 * index := by
  have htable := sectionTable_lt data
  have hcast : (UInt64.ofNat index).toNat = index :=
    UInt64.toNat_ofNat_of_lt' (Nat.lt_trans hindex (by decide))
  have hproduct : (UInt64.ofNat index * 40).toNat = 40 * index := by
    have hmul := UInt64.toNat_mul (UInt64.ofNat index) 40
    simp only [UInt64.reduceToNat, hcast] at hmul
    omega
  rw [toNat_add_of_fit (by omega), hproduct]

theorem u32At_slice {offset length place : ℕ} (hfit : place + 4 ≤ length) :
    u32At .little (slice data offset length) place =
      u32At .little data (offset + place) := by
  rw [u32At, u32At, slice_slice hfit]

/-- What the parser reads is the record, but for the word behind it. -/
theorem headerAt_eq (data : Bytes) (offset : ℕ) :
    headerAt data offset =
      { headerAt (slice data offset 40) 0 with
        flags := u32At .little data (offset + 40) } := by
  have hname : fixedStringAt (slice data offset 40) 0 8 =
      fixedStringAt data offset 8 := by
    rw [fixedStringAt, fixedStringAt, slice_slice (by decide), Nat.add_zero]
  simp only [headerAt, Nat.zero_add, hname,
    u32At_slice (show 8 + 4 ≤ 40 by decide),
    u32At_slice (show 12 + 4 ≤ 40 by decide),
    u32At_slice (show 16 + 4 ≤ 40 by decide),
    u32At_slice (show 20 + 4 ≤ 40 by decide),
    u32At_slice (show 24 + 4 ≤ 40 by decide),
    u32At_slice (show 28 + 4 ≤ 40 by decide),
    u32At_slice (show 32 + 4 ≤ 40 by decide),
    u32At_slice (show 36 + 4 ≤ 40 by decide)]

end PeFile

namespace PeParser

open PeFile

variable {limits : Limits} {data : Bytes} {image : BinaryImage}

/-- Flags enter a section through their meaning only. -/
theorem toSection_flags_inj {header : SectionHeader} {first second : UInt32}
    {index : ℕ} {alignment : UInt32} :
    ({ header with flags := first } : SectionHeader).toSection index alignment =
        ({ header with flags := second } : SectionHeader).toSection index
          alignment ↔
      SameMeaning header.name first second := by
  simp only [SectionHeader.toSection, SectionHeader.memorySize, Section.mk.injEq,
    SameMeaning, true_and]
  exact and_comm

theorem Parsed.section (hparsed : Parsed limits data image) {index : ℕ}
    (hindex : index < (sectionCount data).toNat) :
    image.sections[index]? =
      some (({ headerAt (sectionRecord data index) 0 with
        flags := wordBehind data index } : SectionHeader).toSection index
          (sectionAlignment data)) := by
  have hsmall := (sectionCount data).toNat_lt
  have hoffset := recordOffset data (hindex.trans hsmall)
  rw [hparsed.sections, List.getElem?_map, List.getElem?_range hindex,
    Option.map_some, sectionAt, hoffset, headerAt_eq]
  rfl

/-- A section is the one its own record declares exactly when the word behind
the record means the same as the characteristics, and two files with the same
record have the same section exactly when the words behind it do. -/
theorem section_of_record_iff (hrun : parse limits data = .ok image)
    {index : ℕ} (hindex : index < (sectionCount data).toNat) :
    (image.sections[index]? = some (declaredSection (sectionRecord data index)
        (sectionAlignment data) index) ↔
      SameMeaning (fixedStringAt (sectionRecord data index) 0 8)
        (wordBehind data index)
        (characteristics (sectionRecord data index))) ∧
    ∀ otherLimits otherData other,
      parse otherLimits otherData = .ok other →
      index < (sectionCount otherData).toNat →
      sectionRecord otherData index = sectionRecord data index →
      sectionAlignment otherData = sectionAlignment data →
      (image.sections[index]? = other.sections[index]? ↔
        SameMeaning (fixedStringAt (sectionRecord data index) 0 8)
          (wordBehind data index) (wordBehind otherData index)) := by
  rw [(parse_ok hrun).section hindex]
  constructor
  · rw [Option.some.injEq]
    exact toSection_flags_inj
  · intro otherLimits otherData other hother hotherIndex hrecord halignment
    rw [(parse_ok hother).section hotherIndex, hrecord, halignment,
      Option.some.injEq]
    exact toSection_flags_inj

/-- A file with one section record, of code by its characteristics, and four
bytes behind it. -/
def oneSectionFile (behind : Bytes) : Bytes :=
  [0x4d, 0x5a] ++ List.replicate 58 0 ++ [64, 0, 0, 0] ++
    [0x50, 0x45, 0, 0, 0x64, 0x86, 1, 0] ++ List.replicate 12 0 ++
    [40, 0, 0, 0] ++
    [0x0b, 0x02] ++ List.replicate 30 0 ++ [0, 0x10, 0, 0, 0, 2, 0, 0] ++
    ascii ".text" ++ List.replicate 3 0 ++ [0x10, 0, 0, 0, 0, 0x10, 0, 0] ++
    List.replicate 20 0 ++ [0x20, 0, 0, 0x60] ++ behind

theorem section_of_record_iff_one_section :
    ∃ image, parse {} (oneSectionFile [0, 0, 0, 0]) = .ok image ∧
      (image.sections[0]? = some (declaredSection
          (sectionRecord (oneSectionFile [0, 0, 0, 0]) 0)
          (sectionAlignment (oneSectionFile [0, 0, 0, 0])) 0) ↔
        SameMeaning
          (fixedStringAt (sectionRecord (oneSectionFile [0, 0, 0, 0]) 0) 0 8)
          (wordBehind (oneSectionFile [0, 0, 0, 0]) 0)
          (characteristics
            (sectionRecord (oneSectionFile [0, 0, 0, 0]) 0))) := by
  obtain ⟨image, hrun, _⟩ := toOption_bind_eq_some.mp (by decide +kernel :
    ((parse {} (oneSectionFile [0, 0, 0, 0])).toOption.bind
      fun image => image.sections[0]?.map Section.permissions) = some 0)
  exact ⟨image, hrun, (section_of_record_iff hrun (by decide +kernel :
    0 < (sectionCount (oneSectionFile [0, 0, 0, 0])).toNat)).1⟩

/-- What follows the record decides the permissions of its section. -/
theorem section_depends_on_word_behind :
    ¬∀ limits data image otherData other index,
      parse limits data = .ok image → parse limits otherData = .ok other →
      index < (sectionCount data).toNat →
      index < (sectionCount otherData).toNat →
      sectionRecord otherData index = sectionRecord data index →
      sectionAlignment otherData = sectionAlignment data →
      image.sections[index]? = other.sections[index]? := by
  intro hall
  obtain ⟨image, hrun, hfirst⟩ := toOption_bind_eq_some.mp (by decide +kernel :
    ((parse {} (oneSectionFile [0, 0, 0, 0])).toOption.bind
      fun image => image.sections[0]?.map Section.permissions) = some 0)
  obtain ⟨other, hother, hsecond⟩ := toOption_bind_eq_some.mp
    (by decide +kernel :
      ((parse {} (oneSectionFile [0, 0, 0, 0xe0])).toOption.bind
        fun image => image.sections[0]?.map Section.permissions) = some 7)
  have hsame := hall _ _ _ _ _ 0 hrun hother (by decide +kernel)
    (by decide +kernel) (by decide +kernel) (by decide +kernel)
  rw [hsame, hsecond] at hfirst
  exact absurd hfirst (by decide)

end PeParser
end BinForge
