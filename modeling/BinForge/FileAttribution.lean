import BinForge.ParserValidation
import BinForge.SectionTranslation
import BinForge.StringScan

/-!
# The section a place of the file is attributed to

`file_to_virtual` and both scanners attribute a place of the file to the first
section whose file range holds it.  Nothing looks at the kind of that section,
and a section without bits may claim a file range, so it can stand in front of
the one that stores the place.
-/

namespace BinForge

open StatefulExcept
open BinaryValidator
open AddressTranslator

namespace FileAttribution

variable {limits : Limits} {image : BinaryImage} {data : Bytes}
  {offset address : UInt64} {item : Section}

/-- The section a place of the file is attributed to. -/
def fileSection (image : BinaryImage) (offset : UInt64) : Option Section :=
  image.sections.find? (inFile offset 1)

/-! ## The loops of the scanners -/

theorem lookLocation_eq (offset : UInt64) (item : Section) :
    lookLocation offset item =
      if inFile offset 1 item then
        some (item.index,
          checkedAdd item.virtualAddress (offset - item.fileOffset))
      else none := by
  have hone : (1 : UInt64).toNat = 1 := rfl
  unfold lookLocation inFile
  dsimp only
  by_cases hbelow : offset < item.fileOffset
  · rw [if_pos hbelow, if_neg]
    rw [Bool.not_eq_true, not_holds_iff]
    exact .inl hbelow
  · rw [UInt64.not_lt, UInt64.le_iff_toNat_le] at hbelow
    have hshift := UInt64.toNat_sub_of_le _ _
      (UInt64.le_iff_toNat_le.mpr hbelow)
    rw [if_neg (by rw [UInt64.not_lt, UInt64.le_iff_toNat_le]; exact hbelow)]
    by_cases hinside : offset - item.fileOffset ≥ item.fileSize
    · rw [if_pos hinside, if_neg]
      rw [ge_iff_le, UInt64.le_iff_toNat_le, hshift] at hinside
      rw [holds_iff, hone]
      omega
    · rw [if_neg hinside, if_pos]
      rw [ge_iff_le, UInt64.le_iff_toNat_le, hshift] at hinside
      rw [holds_iff, hone]
      omega

theorem findSome?_lookLocation (image : BinaryImage) (offset : UInt64) :
    image.sections.findSome? (lookLocation offset) =
      (fileSection image offset).map fun item => (item.index,
        checkedAdd item.virtualAddress (offset - item.fileOffset)) := by
  rw [funext (lookLocation_eq offset)]
  exact findSome?_ite _ _ _

/-- The index a result at a place of the file carries. -/
def attributedIndex (image : BinaryImage) (offset : UInt64) : UInt32 :=
  ((fileSection image offset).map Section.index).getD 0xffffffff

/-- The place is a byte of the file and carries the index of its section. -/
structure Attributed (image : BinaryImage) (data : Bytes) (offset : UInt64)
    (index : UInt32) : Prop where
  inside : offset.toNat < data.length
  index : index = attributedIndex image offset

theorem attributedIndex_eq (image : BinaryImage) (offset : UInt64) :
    attributedIndex image offset =
      ((image.sections.findSome? (lookLocation offset)).map
        Prod.fst).getD 0xffffffff := by
  rw [findSome?_lookLocation, Option.map_map, attributedIndex]
  congr 1

theorem populateLocation_sectionIndex (image : BinaryImage)
    {result : ExtractedString} (hfresh : result.sectionIndex = 0xffffffff) :
    (populateLocation image result).sectionIndex =
      attributedIndex image result.fileOffset := by
  rw [attributedIndex_eq, populateLocation]
  cases image.sections.findSome? (lookLocation result.fileOffset) with
  | none => rw [Option.map_none, Option.getD_none, hfresh]
  | some found => rw [Option.map_some, Option.getD_some]

theorem populateMatchLocation_fileOffset (image : BinaryImage)
    (result : PatternMatch) :
    (populateMatchLocation image result).fileOffset = result.fileOffset := by
  unfold populateMatchLocation
  cases image.sections.findSome? (lookLocation result.fileOffset) with
  | none => dsimp only
  | some found => dsimp only

theorem populateMatchLocation_sectionIndex (image : BinaryImage)
    {result : PatternMatch} (hfresh : result.sectionIndex = 0xffffffff) :
    (populateMatchLocation image result).sectionIndex =
      attributedIndex image result.fileOffset := by
  rw [attributedIndex_eq, populateMatchLocation]
  cases image.sections.findSome? (lookLocation result.fileOffset) with
  | none => rw [Option.map_none, Option.getD_none, hfresh]
  | some found => rw [Option.map_some, Option.getD_some]

theorem toNat_ofNat_lt {place : ℕ} (hplace : place < data.length) :
    (UInt64.ofNat place).toNat < data.length :=
  (Nat.mod_le place _).trans_lt hplace

section Strings

open StringScanner

variable {options : StringScanOptions} {result : List ExtractedString}

def AllAttributed (image : BinaryImage) (data : Bytes)
    (result : List ExtractedString) : Prop :=
  ∀ value ∈ result, Attributed image data value.fileOffset value.sectionIndex

theorem found_attributed {condition : Prop} [Decidable condition] {start : ℕ}
    (hstart : start < data.length) {fresh value : ExtractedString}
    (hplace : fresh.fileOffset = UInt64.ofNat start)
    (hfresh : fresh.sectionIndex = 0xffffffff)
    (hvalue : (if condition then some (populateLocation image fresh)
      else none) = some value) :
    Attributed image data value.fileOffset value.sectionIndex := by
  obtain ⟨-, hsome⟩ := Option.ite_none_right_eq_some.mp hvalue
  obtain rfl := Option.some.inj hsome
  rw [populateLocation_fileOffset]
  refine ⟨?_, populateLocation_sectionIndex image hfresh⟩
  rw [hplace]
  exact toNat_ofNat_lt hstart

/-- A sweep over the file finds attributed strings when it finds one at each
place that is. -/
theorem findsUpTo_attributed {limit : ℕ} (hlimit : limit ≤ data.length)
    {sweep : Sweep ExtractedString}
    (hfound : ∀ start < data.length, ∀ value, sweep.found start = some value →
      Attributed image data value.fileOffset value.sectionIndex) :
    AllAttributed image data (findsUpTo limit sweep) := by
  intro value hmem
  obtain ⟨place, hplace, hvalue⟩ := List.mem_filterMap.mp hmem
  have hinside := (Sweep.le_of_mem_places hplace).2
  exact hfound place (by omega) value hvalue

theorem asciiSweep_attributed :
    AllAttributed image data
      (findsUpTo data.length (asciiSweep image options data)) := by
  apply findsUpTo_attributed (le_refl _)
  intro start hstart value hvalue
  exact found_attributed hstart rfl rfl hvalue

theorem utf8Sweep_attributed :
    AllAttributed image data
      (findsUpTo data.length (utf8Sweep image options data)) := by
  apply findsUpTo_attributed (le_refl _)
  intro start hstart value hvalue
  exact found_attributed hstart rfl rfl hvalue

theorem utf16Sweep_attributed (little : Bool) :
    AllAttributed image data
      (findsUpTo (data.length - 1) (utf16Sweep image options data little)) := by
  apply findsUpTo_attributed (Nat.sub_le _ _)
  intro start hstart value hvalue
  exact found_attributed hstart rfl rfl hvalue

theorem ite_attributed {condition : Prop} [Decidable condition]
    (hresult : AllAttributed image data result) :
    AllAttributed image data (if condition then result else []) := by
  split
  · exact hresult
  · exact fun _ hmem => absurd hmem List.not_mem_nil

/-- Every string found is attributed to the section of its first byte. -/
theorem stringScan_attributed {found : List ExtractedString}
    (hdata : image.fileData = some data)
    (hscan : StringScanner.scan limits image options = .ok found) :
    AllAttributed image data found := by
  obtain ⟨bytes, hbytes, -, rfl⟩ := (scan_eq_ok image options).mp hscan
  obtain rfl := Option.some.inj (hdata.symm.trans hbytes)
  have hall : AllAttributed image data (allFinds image options data) := by
    unfold AllAttributed allFinds asciiFinds utf8Finds utf16Finds
    simp only [List.forall_mem_append]
    exact ⟨⟨⟨ite_attributed asciiSweep_attributed,
      ite_attributed utf8Sweep_attributed⟩,
      ite_attributed (utf16Sweep_attributed true)⟩,
      ite_attributed (utf16Sweep_attributed false)⟩
  intro value hmem
  exact hall value (List.mem_of_mem_take hmem)

end Strings

section Signatures

open SignatureScanner

variable {scanner : SignatureScanner} {pattern : BytePattern}
  {found : List PatternMatch}

/-- The scanners a caller can come to. -/
inductive Reachable : SignatureScanner → Prop
  | new (limits : Limits) : Reachable { limits }
  | add {scanner next : SignatureScanner} {pattern : BytePattern} :
      Reachable scanner → scanner.add pattern = .ok next → Reachable next
  | clear {scanner : SignatureScanner} :
      Reachable scanner → Reachable scanner.clear

theorem Reachable.bytes_ne_nil (hscanner : Reachable scanner) :
    ∀ pattern ∈ scanner.patterns, pattern.bytes ≠ [] := by
  induction hscanner with
  | new limits => exact fun _ hmem => absurd hmem List.not_mem_nil
  | clear _ _ => exact fun _ hmem => absurd hmem List.not_mem_nil
  | @add scanner next pattern _ hadd ih =>
      obtain ⟨hgood, _, rfl⟩ := add_eq_ok.mp hadd
      intro other hother
      rcases List.mem_append.mp hother with hother | hother
      · exact ih other hother
      · obtain rfl := List.mem_singleton.mp hother
        rw [masked_bytes]
        rw [badPattern, decide_eq_false_iff_not] at hgood
        exact fun hempty => hgood (.inr (.inr (.inl hempty)))

def AllMatched (image : BinaryImage) (data : Bytes)
    (found : List PatternMatch) : Prop :=
  ∀ result ∈ found,
    Attributed image data result.fileOffset result.sectionIndex

theorem push_matched (hfound : AllMatched image data found) {place : ℕ}
    (hplace : place < data.length) (name : Bytes) :
    AllMatched image data (found ++ [populateMatchLocation image
      { pattern := name, fileOffset := UInt64.ofNat place }]) := by
  intro other hother
  rcases List.mem_append.mp hother with hother | hother
  · exact hfound other hother
  · obtain rfl := List.mem_singleton.mp hother
    rw [populateMatchLocation_fileOffset]
    exact ⟨toNat_ofNat_lt hplace, populateMatchLocation_sectionIndex image rfl⟩

theorem scanPattern_matched (hbytes : pattern.bytes ≠ [])
    (hfit : pattern.bytes.length ≤ data.length) {passes start : ℕ}
    (hfound : AllMatched image data found) :
    AllMatched image data
      (returned (scanPattern limits image data pattern passes start found)) := by
  have hsome := List.length_pos_iff.mpr hbytes
  induction passes generalizing start found with
  | zero => exact hfound
  | succ passes ih =>
      rw [scanPattern]
      dsimp only
      split
      · exact hfound
      · next hinside =>
          split
          · exact ih hfound
          · split
            · have hnext := push_matched hfound
                (by omega : start < data.length) pattern.name
              split
              · exact hnext
              · exact ih hnext
            · exact ih hfound

theorem scanPatterns_matched {patterns : List BytePattern}
    (hbytes : ∀ pattern ∈ patterns, pattern.bytes ≠ [])
    (hfound : AllMatched image data found) :
    AllMatched image data
      (returned (patterns.foldlM (scanNext limits image data) found)) := by
  induction patterns generalizing found with
  | nil => exact hfound
  | cons pattern patterns ih =>
      obtain ⟨hfirst, hrest⟩ := List.forall_mem_cons.mp hbytes
      have hstep : AllMatched image data
          (returned (scanNext limits image data found pattern)) := by
        unfold scanNext
        split
        · exact hfound
        · next hfit =>
            exact scanPattern_matched hfirst (not_lt.mp hfit) hfound
      rw [List.foldlM_cons]
      cases hrun : scanNext limits image data found pattern with
      | error stopped =>
          rw [hrun] at hstep
          exact hstep
      | ok passed =>
          rw [hrun] at hstep
          exact ih hrest hstep

/-- Every match is attributed to the section of its first byte. -/
theorem signatureScan_attributed (hscanner : Reachable scanner)
    (hdata : image.fileData = some data)
    (hscan : scanner.scan image = .ok found) :
    AllMatched image data found := by
  obtain ⟨bytes, hbytes, hscan⟩ := demand_except_bind_eq_ok.mp hscan
  obtain rfl := Option.some.inj (hdata.symm.trans hbytes)
  obtain rfl := Except.ok.inj hscan
  exact scanPatterns_matched hscanner.bytes_ne_nil fun _ hmem =>
    absurd hmem List.not_mem_nil

/-- The matches before a step stay in front of the result. -/
theorem prefix_scanPattern {passes start : ℕ} :
    found <+: returned
      (scanPattern limits image data pattern passes start found) := by
  induction passes generalizing start found with
  | zero => exact List.prefix_rfl
  | succ passes ih =>
      rw [scanPattern]
      dsimp only
      split
      · exact List.prefix_rfl
      · split
        · exact ih
        · split
          · split
            · exact List.prefix_append ..
            · exact (List.prefix_append ..).trans ih
          · exact ih

/-- The pattern of one byte whose mask compares nothing. -/
def anyByte : BytePattern := { name := [0x2a], bytes := [0], mask := [0] }

theorem equalAt_anyByte (data : Bytes) (place : ℕ) :
    equalAt data anyByte place = true := by
  simp [equalAt, anyByte]

/-- It is found at every place of the file, up to the limit of the matches. -/
theorem scanPattern_anyByte {passes start place : ℕ}
    (hstart : start ≤ place) (hpasses : place < start + passes)
    (hplace : place < data.length)
    (hroom : place < limits.maxSymbols.toNat)
    (hfound : found.length = start) :
    populateMatchLocation image
        { pattern := anyByte.name, fileOffset := UInt64.ofNat place } ∈
      returned (scanPattern limits image data anyByte passes start found) := by
  have halignment : anyByte.alignment.toNat = 1 := rfl
  have hsize : anyByte.bytes.length = 1 := rfl
  induction passes generalizing start found with
  | zero => omega
  | succ passes ih =>
      rw [scanPattern, halignment, hsize]
      dsimp only
      rw [if_neg (by omega), Nat.mod_one, if_neg (not_not.mpr rfl),
        if_pos (equalAt_anyByte data start)]
      rcases hstart.eq_or_lt with rfl | hlater
      · have hmem : populateMatchLocation image
            { pattern := anyByte.name, fileOffset := UInt64.ofNat start } ∈
              found ++ [populateMatchLocation image
                { pattern := anyByte.name, fileOffset := UInt64.ofNat start }] :=
          List.mem_append_right _ List.mem_cons_self
        split
        · exact hmem
        · exact prefix_scanPattern.subset hmem
      · have hlength : (found ++ [populateMatchLocation image
            { pattern := anyByte.name
              fileOffset := UInt64.ofNat start }]).length = start + 1 := by
          rw [List.length_append, List.length_singleton, hfound]
        rw [if_neg (by rw [hlength]; omega)]
        exact ih (by omega) (by omega) hlength

/-- A scanner for it that reports as many matches as a scanner can. -/
def anyByteScanner : SignatureScanner :=
  { limits := { maxSymbols := 0xffffffff }, patterns := [anyByte] }

theorem reachable_anyByteScanner : Reachable anyByteScanner :=
  .add (.new { maxSymbols := 0xffffffff }) (add_eq_ok.mpr
    (⟨rfl, by decide, rfl⟩ : badPattern { maxSymbols := 0xffffffff } anyByte =
      false ∧ _ ∧ _))

theorem anyByteScanner_scan (hdata : image.fileData = some data)
    (hinside : offset.toNat < data.length)
    (hroom : offset.toNat < 2 ^ 32 - 1) :
    ∃ found, anyByteScanner.scan image = .ok found ∧
      ∃ result ∈ found, result.fileOffset = offset ∧
        result.sectionIndex = attributedIndex image offset := by
  have hmem := @scanPattern_anyByte anyByteScanner.limits image data []
    (data.length + 1) 0 offset.toNat (Nat.zero_le _) (by omega) hinside hroom rfl
  rw [UInt64.ofNat_toNat] at hmem
  have hnext : scanNext anyByteScanner.limits image data [] anyByte =
      scanPattern anyByteScanner.limits image data anyByte (data.length + 1) 0
        [] := if_neg (not_lt.mpr (Nat.one_le_of_lt hinside))
  have hloop : returned (anyByteScanner.patterns.foldlM
      (scanNext anyByteScanner.limits image data) []) =
        returned (scanPattern anyByteScanner.limits image data anyByte
          (data.length + 1) 0 []) := by
    rw [← hnext]
    show returned (scanNext anyByteScanner.limits image data [] anyByte >>=
      pure) = _
    rw [bind_pure]
  rw [← hloop] at hmem
  exact ⟨_, demand_except_bind_eq_ok.mpr ⟨data, hdata, rfl⟩, _, hmem,
    populateMatchLocation_fileOffset image _,
    populateMatchLocation_sectionIndex image rfl⟩

end Signatures

/-! ## Accepted files -/

/-- What every parser leaves true of the sections. -/
structure FileSections (limits : Limits) (data : Bytes) (image : BinaryImage) :
    Prop where
  fileData : image.fileData = some data
  count : image.sections.length ≤ limits.maxSections.toNat
  indexed : Indexed Section.index image.sections

theorem fileSections_of_parse
    (hparse : BinaryParser.parse limits data = .ok image) :
    FileSections limits data image := by
  have hlimit := limits.maxSections.toNat_lt
  obtain ⟨_, hformat⟩ := BinaryParser.parse_ok hparse
  cases hdetect : BinaryParser.detect data <;> rw [hdetect] at hformat
  case unknown => exact absurd hformat not_false
  case elfLike =>
    have hparsed := ElfParser.parse_ok hformat
    have hcount : (ElfFile.sections data).length ≤ limits.maxSections.toNat := by
      rw [ElfFile.sections, List.length_map, List.length_range]
      exact hparsed.sectionCount
    refine ⟨hparsed.fileData, ?_, ?_⟩
    · rw [hparsed.sections, List.length_mapIdx]
      exact hcount
    · rw [hparsed.sections]
      exact indexed_mapIdx (by omega) fun _ _ => rfl
  case peLike =>
    have hparsed := PeParser.parse_ok hformat
    refine ⟨hparsed.fileData, ?_, (rvaSections_of_parsed hparsed).indexed⟩
    rw [hparsed.sections, List.length_map, List.length_range]
    exact hparsed.count
  case machoLike =>
    have hparsed := MachOParser.parse_ok hformat
    have hcount := hparsed.walked.sectionCount
    refine ⟨hparsed.fileData, ?_, ?_⟩
    · rw [hparsed.sections_eq, MachOParser.sectionsOf, List.length_mapIdx]
      exact hcount
    · rw [hparsed.sections_eq]
      exact indexed_mapIdx (by omega) fun _ _ => rfl

/-- The loop over the sections stops at this one and returns the address. -/
def AnswersFrom (image : BinaryImage) (offset length : UInt64)
    (item : Section) (address : UInt64) : Prop :=
  ∃ front back, image.sections = front ++ item :: back ∧
    lookStored item.fileOffset item.fileSize item.virtualAddress offset
      length = some (some address) ∧
    ∀ other ∈ front, lookStored other.fileOffset other.fileSize
      other.virtualAddress offset length = none

/-- A result that names a section names one that stores bytes. -/
def NamesStored (image : BinaryImage) (index : UInt32) : Prop :=
  index ≠ 0xffffffff → ∀ item ∈ image.sections, item.index = index →
    item.kind ≠ .noBits

/-- Neither a translation of the place nor a result there goes to a section
without bits. -/
structure NeverZeroFill (image : BinaryImage) (offset : UInt64) : Prop where
  translation : ∀ item address, AnswersFrom image offset 1 item address →
    item.kind ≠ .noBits
  strings : ∀ limits options found,
    StringScanner.scan limits image options = .ok found →
      ∀ result ∈ found, result.fileOffset = offset →
        NamesStored image result.sectionIndex
  signatures : ∀ scanner found, Reachable scanner →
    scanner.scan image = .ok found →
      ∀ result ∈ found, result.fileOffset = offset →
        NamesStored image result.sectionIndex

/-- The place has a 64-bit address in the section. -/
def Addressed (item : Section) (offset : UInt64) : Prop :=
  item.virtualAddress.toNat + (offset.toNat - item.fileOffset.toNat) < 2 ^ 64

/-- The first section that claims the place is one without bits, and the place
has an address there or is a byte of the file. -/
def Shadowed (data : Bytes) (image : BinaryImage) (offset : UInt64) : Prop :=
  ∃ item, fileSection image offset = some item ∧ item.kind = .noBits ∧
    (Addressed item offset ∨ offset.toNat < data.length)

theorem answersFrom_iff :
    AnswersFrom image offset 1 item address ↔
      fileSection image offset = some item ∧
        checkedAdd item.virtualAddress (offset - item.fileOffset) =
          some address := by
  have hlook : ∀ other : Section, lookStored other.fileOffset other.fileSize
      other.virtualAddress offset 1 =
        if inFile offset 1 other then
          some (checkedAdd other.virtualAddress (offset - other.fileOffset))
        else none := fun other => lookStored_eq_ite ..
  unfold AnswersFrom
  rw [fileSection, List.find?_eq_some_iff_append]
  simp only [hlook, ite_eq_right_iff, reduceCtorEq, imp_false,
    Option.ite_none_right_eq_some, Option.some.injEq, Bool.not_eq_true',
    Bool.not_eq_true]
  constructor
  · rintro ⟨front, back, hsplit, ⟨hinside, haddress⟩, hfront⟩
    exact ⟨⟨hinside, front, back, hsplit, hfront⟩, haddress⟩
  · rintro ⟨⟨hinside, front, back, hsplit, hfront⟩, haddress⟩
    exact ⟨front, back, hsplit, ⟨hinside, haddress⟩, hfront⟩

theorem fileOffset_le (hfound : fileSection image offset = some item) :
    item.fileOffset.toNat ≤ offset.toNat := by
  have hholds : inFile offset 1 item = true := List.find?_some hfound
  exact (holds_iff.mp hholds).1

theorem index_ne (hfile : FileSections limits data image)
    (hmem : item ∈ image.sections) : item.index ≠ 0xffffffff := by
  intro hindex
  have hlimit := limits.maxSections.toNat_lt
  have hcount := hfile.count
  obtain ⟨position, hposition⟩ := List.mem_iff_getElem?.mp hmem
  have hbelow := (List.getElem?_eq_some_iff.mp hposition).1
  have hnumber := hfile.indexed position item hposition
  rw [hindex, show (0xffffffff : UInt32).toNat = 2 ^ 32 - 1 from rfl] at hnumber
  omega

/-- A place in no section's shadow is attributed to one that stores it. -/
theorem Attributed.stored (hfile : FileSections limits data image)
    (hclear : ¬Shadowed data image offset) {index : UInt32}
    (hattributed : Attributed image data offset index) :
    NamesStored image index := by
  intro hnamed other hother hindex hkind
  have hfound := hattributed.index
  rw [attributedIndex] at hfound
  cases hsection : fileSection image offset with
  | none =>
      rw [hsection] at hfound
      exact hnamed hfound
  | some item =>
      rw [hsection, Option.map_some, Option.getD_some] at hfound
      have hmem := List.mem_of_find?_eq_some hsection
      obtain rfl := eq_of_indexed hfile.indexed hother hmem
        (hindex.trans hfound)
      exact hclear ⟨other, hsection, hkind, .inr hattributed.inside⟩

theorem neverZeroFill_of_clear (hfile : FileSections limits data image)
    (hclear : ¬Shadowed data image offset) : NeverZeroFill image offset := by
  constructor
  · intro item address hanswer hkind
    obtain ⟨hfound, haddress⟩ := answersFrom_iff.mp hanswer
    have hfit := (checkedAdd_eq_some.mp haddress).1
    rw [UInt64.toNat_sub_of_le _ _
      (UInt64.le_iff_toNat_le.mpr (fileOffset_le hfound))] at hfit
    exact hclear ⟨item, hfound, hkind, .inl hfit⟩
  · rintro _ options found hscan result hresult rfl
    exact (stringScan_attributed hfile.fileData hscan result hresult).stored
      hfile hclear
  · rintro scanner found hscanner hscan result hresult rfl
    exact (signatureScan_attributed hscanner hfile.fileData hscan result
      hresult).stored hfile hclear

theorem clear_of_neverZeroFill (hfile : FileSections limits data image)
    (hreach : 2 ^ 32 - 1 ≤ offset.toNat → ∀ item,
      fileSection image offset = some item → Addressed item offset)
    (hnever : NeverZeroFill image offset) : ¬Shadowed data image offset := by
  rintro ⟨item, hfound, hkind, hplace⟩
  by_cases hfit : Addressed item offset
  · rw [Addressed, ← UInt64.toNat_sub_of_le _ _
      (UInt64.le_iff_toNat_le.mpr (fileOffset_le hfound))] at hfit
    exact hnever.translation item _
      (answersFrom_iff.mpr ⟨hfound, checkedAdd_of_fit hfit⟩) hkind
  · have hroom : offset.toNat < 2 ^ 32 - 1 :=
      not_le.mp fun hbeyond => hfit (hreach hbeyond item hfound)
    obtain ⟨found, hscan, result, hresult, hsame, hindex⟩ :=
      anyByteScanner_scan hfile.fileData (hplace.resolve_left hfit) hroom
    rw [attributedIndex, hfound, Option.map_some, Option.getD_some] at hindex
    have hmem := List.mem_of_find?_eq_some hfound
    exact hnever.signatures anyByteScanner found reachable_anyByteScanner hscan
      result hresult hsame (hindex ▸ index_ne hfile hmem) item hmem hindex.symm
      hkind

/-- A place of an accepted file is never attributed to a section without bits
exactly when none stands in front of it.  A scan reports fewer than `2 ^ 32`
results, so a place behind them counts as shadowed by its address only. -/
theorem neverZeroFill_iff (hparse : BinaryParser.parse limits data = .ok image)
    (offset : UInt64) :
    (¬Shadowed data image offset → NeverZeroFill image offset) ∧
      ((2 ^ 32 - 1 ≤ offset.toNat → ∀ item,
          fileSection image offset = some item → Addressed item offset) →
        NeverZeroFill image offset → ¬Shadowed data image offset) :=
  ⟨neverZeroFill_of_clear (fileSections_of_parse hparse),
    clear_of_neverZeroFill (fileSections_of_parse hparse)⟩

/-- Four bytes of code that a section without bits claims first. -/
def shadowedFile : Bytes :=
  ([0x464c457f, 0x101, 0, 0, 0x30002, 1, 0, 0, 56, 0, 52, 0x280000, 2,
      0xc3909090] ++ [0, 8, 3, 0x2000, 52, 4, 0, 0, 1, 0] ++
    [0, 1, 6, 0x1000, 52, 4, 0, 0, 1, 0] : List UInt32).flatMap u32Bytes

/-- No section claims the header. -/
theorem neverZeroFill_iff_header :
    ∃ image, BinaryParser.parse {} shadowedFile = .ok image ∧
      NeverZeroFill image 40 := by
  obtain ⟨image, hparse, hview⟩ := toOption_bind_eq_some.mp (by decide +kernel :
    ((BinaryParser.parse {} shadowedFile).toOption.bind fun image =>
      some (fileSection image 40).isNone) = some true)
  rw [Option.some.injEq, Option.isNone_iff_eq_none] at hview
  refine ⟨image, hparse, (neverZeroFill_iff hparse 40).1 ?_⟩
  rintro ⟨item, hfound, _⟩
  exact Option.some_ne_none item (hfound.symm.trans hview)

/-- The code is translated to an address of the section without bits. -/
theorem file_offset_in_zero_fill :
    ¬∀ limits data image offset, BinaryParser.parse limits data = .ok image →
      NeverZeroFill image offset := by
  intro hall
  obtain ⟨image, hparse, hview⟩ := toOption_bind_eq_some.mp (by decide +kernel :
    ((BinaryParser.parse {} shadowedFile).toOption.bind fun image =>
      (fileSection image 52).map fun item => (item.kind, item.virtualAddress,
        item.fileOffset)) = some (.noBits, 0x2000, 52))
  obtain ⟨item, hfound, hfields⟩ := Option.map_eq_some_iff.mp hview
  simp only [Prod.mk.injEq] at hfields
  obtain ⟨hkind, haddress, hoffset⟩ := hfields
  refine (hall {} _ image 52 hparse).translation item 0x2000
    (answersFrom_iff.mpr ⟨hfound, ?_⟩) hkind
  rw [haddress, hoffset]
  decide +kernel

end FileAttribution
end BinForge
