import BinForge.FailureReports
import BinForge.Manifest
import BinForge.Measured

/-!
# The checks of the manifest decoder

What a manifest is checked for, in order, in terms of its bytes.  The decoder
does not tell when the count of a table or a record of a table other than the
sections' does not fit.
-/

namespace BinForge

open StatefulExcept
open ListSplice
open ByteReader
open Checklist
open Measured

/-! ## The checks of a manifest -/

namespace ManifestFile

/-- What lies between the signature and the checksum. -/
def body (data : Bytes) : Bytes := slice data 4 (data.length - 8)

section Extents

variable (limits : Limits) (body : Bytes)

def field (count : ℕ) : Extent := fun start =>
  if start + count ≤ body.length then some (start + count) else none

def text : Extent := fun start =>
  let size := u32At .little body start
  (field body 4 start).bind fun stop =>
    if size.toUInt64 > limits.maxStringBytes then none
    else field body size.toNat stop

/-- The count of a table, within its limit. -/
def tableCount (limit : UInt32) : Extent := fun start =>
  (field body 4 start).bind fun stop =>
    if u32At .little body start > limit then none else some stop

def table (limit : UInt32) (record : Extent) : Extent := fun start =>
  (tableCount body limit start).bind
    (inRowOf record (u32At .little body start).toNat)

/-- The retained file, behind the 57 bytes of the preamble. -/
def fileSize : UInt64 := u64At .little body 57

def file : Bytes := slice body 65 (fileSize body).toNat

/-- The stored checksum of the section that ends here matches the file. -/
def SumMatches (stop : ℕ) : Prop :=
  let offset := (u64At .little body (stop - 61)).toNat
  let size := u64At .little body (stop - 53)
  let stored := u32At .little body (stop - 4)
  ¬(stored ≠ 0 ∧ size ≠ 0 ∧
    rangeInside offset size.toNat (file body).length ∧
    crc32 (slice (file body) offset size.toNat) ≠ stored)

instance (stop : ℕ) : Decidable (SumMatches body stop) :=
  inferInstanceAs (Decidable (¬_))

def sectionFields : Extent :=
  inRow [field body 4, text limits body, field body 1, field body 8,
    field body 8, field body 8, field body 8, field body 8, field body 8,
    field body 4, field body 4, field body 1, field body 4]

def sectionExtent : Extent := fun start =>
  (sectionFields limits body start).bind fun stop =>
    if ¬SumMatches body stop then none else some stop

/-- An entry of a segment's section list, among so many sections. -/
def reference (sectionCount : ℕ) : Extent := fun start =>
  (field body 4 start).bind fun stop =>
    if (u32At .little body start).toNat ≥ sectionCount then none else some stop

def segmentExtent (sectionCount : ℕ) : Extent :=
  inRow [field body 4, field body 8, field body 8, field body 8, field body 8,
    field body 8, field body 1,
    table body limits.maxSections (reference body sectionCount)]

def symbolExtent : Extent :=
  inRow [field body 4, text limits body, field body 1, field body 1,
    field body 4, field body 8, field body 8, field body 1, text limits body]

def relocationExtent : Extent :=
  inRow [field body 4, field body 1, field body 4, field body 4, field body 8,
    field body 8, field body 1]

def importExtent : Extent :=
  inRow [text limits body, text limits body, field body 8, field body 8,
    field body 1]

def exportExtent : Extent :=
  inRow [text limits body, field body 8, field body 8, field body 1,
    text limits body]

def debugUnitExtent : Extent :=
  inRow [field body 8, field body 8, field body 4, field body 1, field body 4,
    field body 4, field body 4]

def PreambleFits : Prop :=
  57 ≤ body.length ∧ u32At .little body 0 = 1 ∧
    (ImageManifestCodec.BinaryFormat.ofByte? (u8At body 8)).isSome ∧
    (ImageManifestCodec.WordSize.ofByte? (u8At body 9)).isSome ∧
    (ImageManifestCodec.ByteOrder.ofByte? (u8At body 10)).isSome

def FileFits : Prop :=
  65 ≤ body.length ∧ fileSize body ≤ limits.maxFileSize ∧
    65 + (fileSize body).toNat ≤ body.length

def sectionTable : ℕ := 65 + (fileSize body).toNat

def sectionCount : UInt32 := u32At .little body (sectionTable body)

/-- Where the section table ends, if its records fit. -/
def sectionsEnd : Option ℕ :=
  inRowOf (sectionExtent limits body) (sectionCount body).toNat
    (sectionTable body + 4)

/-- The tables behind the sections'. -/
def laterTables : Extent :=
  inRow [
    table body limits.maxSegments
      (segmentExtent limits body (sectionCount body).toNat),
    table body limits.maxSymbols (symbolExtent limits body),
    table body limits.maxRelocations (relocationExtent body),
    table body limits.maxImports (importExtent limits body),
    table body limits.maxExports (exportExtent limits body),
    table body limits.maxDebugUnits (debugUnitExtent body)]

end Extents

def bodyChecks (limits : Limits) (body : Bytes) : List Check :=
  [told (PreambleFits body), told (FileFits limits body),
   untold (tableCount body limits.maxSections (sectionTable body)).isSome,
   told (sectionsEnd limits body).isSome,
   untold ((sectionsEnd limits body).bind (laterTables limits body)).isSome]

/-- Everything the decoder checks before the tables have been read. -/
def checks (limits : Limits) (data : Bytes) : List Check :=
  told (16 ≤ data.length ∧ data.length ≤ (limits.maxFileSize * 2).toNat) ::
  told (data.take 4 = ascii "BFMF") ::
  told (crc32 (data.take (data.length - 4)) = trailerWord data) ::
  bodyChecks limits (body data)

end ManifestFile

namespace ImageManifestCodec

open ManifestFile

variable {α : Type} {limits : Limits} {data body : Bytes}
  {reader next : ByteReader} {start : ℕ}

/-- The reader of a body, moved to a position. -/
def readerAt (body : Bytes) (position : ℕ) : ByteReader :=
  { data := body, position }

/-! ## Fields -/

/-- A read of so many bytes whose value is a field of the input. -/
theorem measures_field {read : ReaderCall α} {count : ℕ}
    {value : ByteReader → α}
    (hread : ∀ {reader next found}, read reader = .ok found next ↔
      reader.position + count ≤ reader.data.length ∧ found = value reader ∧
        next = reader.movedTo (reader.position + count)) :
    Measures (readerAt body) read (field body count) := by
  intro start
  apply EndsAt.of_iff
  · simp only [hread, exists_and_left, exists_eq, and_true]
    exact Iff.rfl
  · intro found next hrun
    exact (hread.mp hrun).2.2

theorem measures_u8 :
    Measures (readerAt body) ByteReader.readU8 (field body 1) :=
  measures_field readU8_at

theorem measures_u32 :
    Measures (readerAt body) ByteReader.readU32 (field body 4) :=
  measures_field readU32_at

theorem measures_u64 :
    Measures (readerAt body) ByteReader.readU64 (field body 8) :=
  measures_field readU64_at

theorem measures_i64 :
    Measures (readerAt body) ByteReader.readI64 (field body 8) :=
  measures_u64.returning

theorem endsAt_bytes {count : ℕ} {limit : ℕ} (hlimit : limit = count) :
    EndsAt (readerAt body) (do
      let reader ← get
      rejectIf (limit > reader.remaining) ()
      ByteReader.readBytes count : ReaderCall Bytes) start
      (field body count start) := by
  subst hlimit
  apply EndsAt.of_iff
  · simp only [bind_of_ok (get_apply _), rejectIf_bind_eq_ok, readBytes,
      take_eq_ok, exists_and_left, exists_eq, and_true, remaining_eq]
    show _ ∧ start + limit ≤ body.length ↔ start + limit ≤ body.length
    refine and_iff_right_of_imp fun hfit => ?_
    show ¬limit > body.length - start
    omega
  · intro found next hrun
    simp only [bind_of_ok (get_apply _), rejectIf_bind_eq_ok, readBytes,
      take_eq_ok] at hrun
    exact hrun.2.2.2

theorem measures_text :
    Measures (readerAt body) (readText limits.maxStringBytes)
      (ManifestFile.text limits body) := by
  intro start
  refine (measures_u32 start).bind fun size stop _ hsize => ?_
  obtain ⟨-, rfl, -⟩ := readU32_at.mp hsize
  exact EndsAt.guard Iff.rfl fun _ => endsAt_bytes rfl

/-! ## Records -/

theorem table_eq (limit : UInt32) (record : Extent) (start : ℕ) :
    table body limit record start = (field body 4 start).bind fun stop =>
      if u32At .little body start > limit then none
      else inRowOf record (u32At .little body start).toNat stop := by
  unfold table tableCount
  cases field body 4 start with
  | none => rfl
  | some stop =>
      simp only [Option.bind_some]
      split <;> rfl

theorem measures_segment {sectionCount : ℕ} :
    Measures (readerAt body) (decodeSegment limits sectionCount)
      (segmentExtent limits body sectionCount) := by
  refine measures_u32.cons fun _ => ?_
  refine measures_u64.cons fun _ => ?_
  refine measures_u64.cons fun _ => ?_
  refine measures_u64.cons fun _ => ?_
  refine measures_u64.cons fun _ => ?_
  refine measures_u64.cons fun _ => ?_
  refine measures_u8.cons fun _ => ?_
  rw [inRow_singleton]
  intro start
  rw [table_eq]
  refine (measures_u32 start).bind fun count stop _ hcount => ?_
  obtain ⟨-, rfl, -⟩ := readU32_at.mp hcount
  refine EndsAt.guard Iff.rfl fun _ => ?_
  refine Measures.returning (Measures.collect ?_ _) stop
  intro start
  refine (measures_u32 start).bind fun value stop _ hvalue => ?_
  obtain ⟨-, rfl, -⟩ := readU32_at.mp hvalue
  exact EndsAt.guard Iff.rfl fun _ => ⟨_, rfl⟩

theorem measures_symbol :
    Measures (readerAt body) (decodeSymbol limits)
      (symbolExtent limits body) := by
  refine measures_u32.cons fun _ => ?_
  refine measures_text.cons fun _ => ?_
  refine measures_u8.cons fun _ => ?_
  refine measures_u8.cons fun _ => ?_
  refine measures_u32.cons fun _ => ?_
  refine measures_u64.cons fun _ => ?_
  refine measures_u64.cons fun _ => ?_
  refine measures_u8.cons fun _ => ?_
  exact measures_text.cons fun _ => Measures.nil _

theorem measures_relocation :
    Measures (readerAt body) decodeRelocation (relocationExtent body) := by
  refine measures_u32.cons fun _ => ?_
  refine measures_u8.cons fun _ => ?_
  refine measures_u32.cons fun _ => ?_
  refine measures_u32.cons fun _ => ?_
  refine measures_u64.cons fun _ => ?_
  refine measures_i64.cons fun _ => ?_
  exact measures_u8.cons fun _ => Measures.nil _

theorem measures_import :
    Measures (readerAt body) (decodeImport limits)
      (importExtent limits body) := by
  refine measures_text.cons fun _ => ?_
  refine measures_text.cons fun _ => ?_
  refine measures_u64.cons fun _ => ?_
  refine measures_u64.cons fun _ => ?_
  exact measures_u8.cons fun _ => Measures.nil _

theorem measures_export :
    Measures (readerAt body) (decodeExport limits)
      (exportExtent limits body) := by
  refine measures_text.cons fun _ => ?_
  refine measures_u64.cons fun _ => ?_
  refine measures_u64.cons fun _ => ?_
  refine measures_u8.cons fun _ => ?_
  exact measures_text.cons fun _ => Measures.nil _

theorem measures_debugUnit :
    Measures (readerAt body) decodeDebugUnit (debugUnitExtent body) := by
  refine measures_u64.cons fun _ => ?_
  refine measures_u64.cons fun _ => ?_
  refine measures_u32.cons fun _ => ?_
  refine measures_u8.cons fun _ => ?_
  refine measures_u32.cons fun _ => ?_
  refine measures_u32.cons fun _ => ?_
  exact measures_u32.cons fun _ => Measures.nil _

/-! ## Sections -/

theorem measures_sectionFields :
    Measures (readerAt body) (decodeSectionFields limits)
      (sectionFields limits body) := by
  refine measures_u32.cons fun _ => ?_
  refine measures_text.cons fun _ => ?_
  refine measures_u8.cons fun _ => ?_
  refine measures_u64.cons fun _ => ?_
  refine measures_u64.cons fun _ => ?_
  refine measures_u64.cons fun _ => ?_
  refine measures_u64.cons fun _ => ?_
  refine measures_u64.cons fun _ => ?_
  refine measures_u64.cons fun _ => ?_
  refine measures_u32.cons fun _ => ?_
  refine measures_u32.cons fun _ => ?_
  refine measures_u8.cons fun _ => ?_
  exact measures_u32.cons fun _ => Measures.nil _

/-- The last 62 bytes of a section record, behind its name. -/
theorem decodeSectionFields_ok {item : Section} {stored : UInt32} {stop : ℕ}
    (hrun : decodeSectionFields limits (readerAt body start) =
      .ok (item, stored) (readerAt body stop)) :
    item.fileOffset = u64At .little body (stop - 61) ∧
      item.fileSize = u64At .little body (stop - 53) ∧
      stored = u32At .little body (stop - 4) := by
  unfold decodeSectionFields at hrun
  obtain ⟨index, first, hindex, hrun⟩ := bind_eq_ok.mp hrun
  obtain ⟨position, -, rfl⟩ := (measures_u32 start).of_ok hindex
  obtain ⟨name, second, hname, hrun⟩ := bind_eq_ok.mp hrun
  obtain ⟨position, -, rfl⟩ := (measures_text position).of_ok hname
  simp only [bind_eq_ok, readU8_at, readU32_at, readU64_at, pure_eq_ok,
    and_assoc, exists_and_left, exists_eq_left, movedTo_data, movedTo_order,
    movedTo_position, movedTo_movedTo, Nat.add_assoc, Nat.reduceAdd,
    Prod.mk.injEq] at hrun
  obtain ⟨-, -, -, -, -, -, -, -, -, -, -, rfl, rfl, hstop⟩ := hrun
  have hlast : stop = position + 62 :=
    (congrArg ByteReader.position hstop).symm
  subst hlast
  exact ⟨rfl, rfl, rfl⟩

theorem measures_section :
    Measures (readerAt body) (decodeSection limits (ManifestFile.file body))
      (sectionExtent limits body) := by
  intro start
  refine ((measures_sectionFields start).adaptError).bind
    fun ⟨item, stored⟩ stop _ hfields => ?_
  obtain ⟨hoffset, hsize, hstored⟩ :=
    decodeSectionFields_ok (adaptError_eq_ok.mp hfields)
  refine EndsAt.guard ?_ fun _ => ⟨item, rfl⟩
  rw [hoffset, hsize, hstored, SumMatches, not_not]

theorem decodeSection_reported :
    Reported Failure.Told (evaluate (decodeSection limits data) reader) := by
  refine (reported_reportAt (by decide)).bind fun ⟨item, stored⟩ _ _ => ?_
  exact (Reported.rejectIf (told_failure (by decide))).bind
    fun _ _ _ => Reported.pure _

/-! ## Tables -/

/-- The failures that leave no code. -/
def Untold (why : Failure) : Prop := ¬why.Told

theorem silently_untold {action : ReaderCall α} :
    Reported Untold (evaluate (silently action) reader) :=
  Reported.adaptError fun _ _ => not_told_silent

theorem measures_count {limit : UInt32} :
    Measures (readerAt body) (silently do
      let count ← ByteReader.readU32
      rejectIf (count > limit) ()
      return count) (tableCount body limit) := by
  intro start
  refine EndsAt.adaptError ((measures_u32 start).bind
    fun count stop _ hread => ?_)
  obtain ⟨-, rfl, -⟩ := readU32_at.mp hread
  exact EndsAt.guard Iff.rfl fun _ => ⟨_, rfl⟩

theorem count_ok {limit count : UInt32}
    (hrun : (silently do
      let count ← ByteReader.readU32
      rejectIf (count > limit) ()
      return count) (readerAt body start) = .ok count next) :
    count = u32At .little body start ∧ next = readerAt body (start + 4) := by
  obtain ⟨value, middle, hread, hrun⟩ := bind_eq_ok.mp (adaptError_eq_ok.mp hrun)
  obtain ⟨-, rfl, rfl⟩ := readU32_at.mp hread
  obtain ⟨-, hrun⟩ := rejectIf_bind_eq_ok.mp hrun
  rw [pure_eq_ok] at hrun
  obtain ⟨rfl, rfl⟩ := hrun
  exact ⟨rfl, rfl⟩

theorem measures_table {limit : UInt32} {record : DecodeCall α}
    {extent : Extent} (hrecord : Measures (readerAt body) record extent) :
    Measures (readerAt body) (decodeTable limit record)
      (table body limit extent) := by
  intro start
  refine (measures_count start).bind fun count stop _ hcount => ?_
  obtain ⟨rfl, -⟩ := count_ok hcount
  exact Measures.collect hrecord _ stop

theorem table_untold {limit : UInt32} {record : ReaderCall α} :
    Reported Untold (evaluate (decodeTable limit (silently record)) reader) :=
  silently_untold.bind fun _ _ _ => Reported.collect fun _ => silently_untold

/-- The section table: its count is not told of, its records are. -/
theorem sectionTable_follows :
    Follows Failure.Told
      (evaluate (decodeTable limits.maxSections
        (decodeSection limits (ManifestFile.file body)))
        (readerAt body (sectionTable body)))
      [untold (tableCount body limits.maxSections (sectionTable body)).isSome,
       told (sectionsEnd limits body).isSome] := by
  refine ((measures_count _).untold silently_untold).next
    fun count next hcount => ?_
  obtain ⟨rfl, rfl⟩ := count_ok hcount
  exact (measures_section.collect _ _).told
    (Reported.collect fun _ => decodeSection_reported)

theorem sectionTable_ok {sections : List Section}
    (hrun : decodeTable limits.maxSections
      (decodeSection limits (ManifestFile.file body))
      (readerAt body (sectionTable body)) = .ok sections next) :
    sections.length = (ManifestFile.sectionCount body).toNat ∧
      ∃ stop, sectionsEnd limits body = some stop ∧
        next = readerAt body stop := by
  obtain ⟨count, middle, hcount, hrun⟩ := bind_eq_ok.mp hrun
  obtain ⟨rfl, rfl⟩ := count_ok hcount
  exact ⟨collect_length hrun, (measures_section.collect _ _).of_ok hrun⟩

/-! ## The whole body -/

theorem decodeHeader_succeeds :
    (∃ header next, decodeHeader (readerAt body 8) = .ok header next) ↔
      57 ≤ body.length ∧ (BinaryFormat.ofByte? (u8At body 8)).isSome ∧
        (WordSize.ofByte? (u8At body 9)).isSome ∧
        (ByteOrder.ofByte? (u8At body 10)).isSome := by
  unfold decodeHeader
  simp only [bind_eq_ok, readU8_at, readU32_at, readU64_at, demand_eq_ok,
    pure_eq_ok, and_assoc, exists_and_left, exists_eq_left, movedTo_data,
    movedTo_order, movedTo_position, movedTo_movedTo, Nat.add_assoc,
    Nat.reduceAdd, readerAt, Option.isSome_iff_exists]
  constructor
  · rintro ⟨-, -, -, -, -, -, -, -, -, -, -, hfit, _, _, format, hformat, word,
      hword, order, horder, -⟩
    exact ⟨hfit, ⟨format, hformat⟩, ⟨word, hword⟩, order, horder⟩
  · rintro ⟨hfit, ⟨format, hformat⟩, ⟨word, hword⟩, order, horder⟩
    refine ⟨?_, ?_, ?_, ?_, ?_, ?_, ?_, ?_, ?_, ?_, ?_, hfit, _, _, format,
      hformat, word, hword, order, horder, rfl, rfl⟩ <;> omega

theorem decodeHeader_next {header : FileHeader}
    (hrun : decodeHeader (readerAt body 8) = .ok header next) :
    next = readerAt body 57 := by
  simp only [decodeHeader, bind_eq_ok, readU8_at, readU32_at, readU64_at,
    demand_eq_ok, pure_eq_ok, and_assoc, exists_and_left, exists_eq_left,
    movedTo_data, movedTo_order, movedTo_position, movedTo_movedTo,
    Nat.add_assoc, Nat.reduceAdd, readerAt] at hrun
  obtain ⟨-, -, -, -, -, -, -, -, -, -, -, -, _, -, _, -, _, -, -, hnext⟩ := hrun
  exact hnext.symm

/-- The 57 bytes in front of the retained file. -/
theorem preamble_follows :
    Follows Failure.Told (evaluate decodePreamble (readerAt body 0))
      [told (PreambleFits body)] := by
  refine Follows.adaptError ?_ fun _ _ => told_failure (by decide)
  simp only [bind_eq_ok, readU32_at, rejectIf_eq_ok, not_not, ne_eq, and_assoc]
  constructor
  · rintro ⟨header, next, _, _, -, rfl, rfl, _, _, hversion, rfl, _, _, -, rfl,
      rfl, hheader⟩
    obtain ⟨hfit, hbytes⟩ := decodeHeader_succeeds.mp ⟨header, next, hheader⟩
    exact ⟨hfit, hversion, hbytes⟩
  · rintro ⟨hfit, hversion, hbytes⟩
    obtain ⟨header, next, hheader⟩ := decodeHeader_succeeds.mpr ⟨hfit, hbytes⟩
    refine ⟨header, next, _, _, ?_, rfl, rfl, (), _, hversion, rfl, _, _, ?_,
      rfl, rfl, hheader⟩
    · show 0 + 4 ≤ body.length
      omega
    · show 0 + 4 + 4 ≤ body.length
      omega

theorem preamble_next {header : FileHeader}
    (hrun : decodePreamble (readerAt body 0) = .ok header next) :
    next = readerAt body 57 := by
  have hrun := adaptError_eq_ok.mp hrun
  simp only [bind_eq_ok, readU32_at, rejectIf_eq_ok, and_assoc] at hrun
  obtain ⟨_, _, -, rfl, rfl, _, _, -, rfl, _, _, -, rfl, rfl, hheader⟩ := hrun
  exact decodeHeader_next hheader

/-- The size of the retained file is checked, so its bytes are there. -/
theorem fileSize_ok {value : UInt64} :
    (do
      let fileSize ← ByteReader.readU64
      rejectIf (fileSize > limits.maxFileSize) ()
      let reader ← get
      rejectIf (fileSize.toNat > reader.remaining) ()
      return fileSize : ReaderCall UInt64) (readerAt body 57) =
        .ok value next ↔
      FileFits limits body ∧ value = ManifestFile.fileSize body ∧
        next = readerAt body 65 := by
  rw [bind_eq_ok]
  constructor
  · rintro ⟨size, middle, hread, hrun⟩
    obtain ⟨hfit, rfl, rfl⟩ := readU64_at.mp hread
    obtain ⟨hlimit, hrun⟩ := rejectIf_bind_eq_ok.mp hrun
    rw [bind_of_ok (get_apply _)] at hrun
    obtain ⟨hinside, hrun⟩ := rejectIf_bind_eq_ok.mp hrun
    rw [pure_eq_ok] at hrun
    obtain ⟨rfl, rfl⟩ := hrun
    rw [remaining_eq] at hinside
    refine ⟨⟨hfit, UInt64.not_lt.mp hlimit, ?_⟩, rfl, rfl⟩
    have hfit : 65 ≤ body.length := hfit
    have hinside : ¬(ManifestFile.fileSize body).toNat > body.length - 65 := hinside
    omega
  · rintro ⟨⟨hfit, hlimit, hinside⟩, rfl, rfl⟩
    refine ⟨ManifestFile.fileSize body, readerAt body 65,
      readU64_at.mpr ⟨hfit, rfl, rfl⟩, ?_⟩
    refine rejectIf_bind_eq_ok.mpr ⟨UInt64.not_lt.mpr hlimit, ?_⟩
    rw [bind_of_ok (get_apply _)]
    refine rejectIf_bind_eq_ok.mpr ⟨?_, rfl⟩
    rw [remaining_eq]
    show ¬(ManifestFile.fileSize body).toNat > body.length - 65
    omega

theorem readFile_of_fits (hfits : FileFits limits body) :
    ByteReader.readBytes (ManifestFile.fileSize body).toNat (readerAt body 65) =
      .ok (ManifestFile.file body) (readerAt body (sectionTable body)) :=
  take_eq_ok.mpr ⟨hfits.2.2, rfl, rfl⟩

theorem decodeFile_follows :
    Follows Failure.Told (evaluate (decodeFile limits) (readerAt body 57))
      [told (FileFits limits body)] := by
  unfold decodeFile
  refine Follows.next (Follows.adaptError ?_ (told_reportAt (by decide)))
    fun size middle hsize => ?_
  · simp only [fileSize_ok, exists_and_left, exists_eq, and_true]
  · obtain ⟨hfits, rfl, rfl⟩ := fileSize_ok.mp (adaptError_eq_ok.mp hsize)
    apply Follows.of_ok
    exact evaluate_of_ok (adaptError_eq_ok.mpr (readFile_of_fits hfits))

theorem decodeFile_ok {file : Bytes}
    (hrun : decodeFile limits (readerAt body 57) = .ok file next) :
    file = ManifestFile.file body ∧ next = readerAt body (sectionTable body) := by
  obtain ⟨size, middle, hsize, hrun⟩ := bind_eq_ok.mp hrun
  obtain ⟨hfits, rfl, rfl⟩ := fileSize_ok.mp (adaptError_eq_ok.mp hsize)
  have hread := adaptError_eq_ok.mp hrun
  rw [readFile_of_fits hfits, EStateM.Result.ok.injEq] at hread
  exact ⟨hread.1.symm, hread.2.symm⟩

theorem decodeBody_follows :
    Follows Failure.Told (evaluate (decodeBody limits) (readerAt body 0))
      (bodyChecks limits body) := by
  unfold decodeBody
  refine preamble_follows.next fun header next hheader => ?_
  obtain rfl := preamble_next hheader
  refine decodeFile_follows.next fun file next hfile => ?_
  obtain ⟨rfl, rfl⟩ := decodeFile_ok hfile
  refine sectionTable_follows.bind fun sections next hsections => ?_
  obtain ⟨hcount, stop, hstop, rfl⟩ := sectionTable_ok hsections
  rw [hstop, hcount]
  refine EndsAt.untold (Measures.cons (measures_table measures_segment.adaptError)
    (fun _ => ?_) stop) ?_
  · refine (measures_table measures_symbol.adaptError).cons fun _ => ?_
    refine (measures_table measures_relocation.adaptError).cons fun _ => ?_
    refine (measures_table measures_import.adaptError).cons fun _ => ?_
    refine (measures_table measures_export.adaptError).cons fun _ => ?_
    exact (measures_table measures_debugUnit.adaptError).cons fun _ =>
      Measures.nil _
  · refine table_untold.bind fun _ _ _ => ?_
    refine table_untold.bind fun _ _ _ => ?_
    refine table_untold.bind fun _ _ _ => ?_
    refine table_untold.bind fun _ _ _ => ?_
    refine table_untold.bind fun _ _ _ => ?_
    exact table_untold.bind fun _ _ _ => Reported.pure _

/-! ## The whole manifest -/

theorem mem_check {bad : Prop} [Decidable bad] {code : ErrorCode}
    {offset : UInt64} {message : Bytes} {error : Error} :
    error ∈ BinaryValidator.check bad code offset message ↔
      bad ∧ error = ⟨code, offset, message⟩ := by
  unfold BinaryValidator.check
  split <;> simp_all

/-- The validator's errors have codes. -/
theorem validator_code {image : BinaryImage} {error : Error}
    (herror : error ∈ (BinaryValidator.validate limits image).errors) :
    error.code ≠ .none := by
  unfold BinaryValidator.validate at herror
  split at herror
  · rw [List.mem_singleton.mp herror]
    decide
  · simp only [BinaryValidator.checkImage, BinaryValidator.checkLimits,
      BinaryValidator.checkSection, BinaryValidator.checkSegment,
      BinaryValidator.checkSymbol, BinaryValidator.checkRelocation,
      List.mem_append, List.mem_flatMap, mem_check] at herror
    have hcoded : ∀ code offset message, code ≠ ErrorCode.none →
        error = ⟨code, offset, message⟩ → error.code ≠ .none := by
      rintro code offset message hcode rfl
      exact hcode
    rcases herror with (⟨-, h⟩ | ⟨-, h⟩ | ⟨-, h⟩ | ⟨-, h⟩ | ⟨-, h⟩) |
      ⟨_, -, ⟨-, h⟩ | ⟨-, h⟩ | ⟨-, h⟩⟩ | ⟨_, -, ⟨-, h⟩ | ⟨-, h⟩⟩ |
      ⟨_, -, -, h⟩ | ⟨_, -, -, h⟩ <;>
      exact hcoded _ _ _ (by decide) h

theorem told_of_invalid {image : BinaryImage}
    (hinvalid : (BinaryValidator.validate limits image).valid = false) :
    (Failure.reported
      ((BinaryValidator.validate limits image).errors.headD {})).Told := by
  have hsome : (BinaryValidator.validate limits image).errors ≠ [] := by
    unfold BinaryValidator.validate at hinvalid ⊢
    split at hinvalid
    · simp
    · simpa using hinvalid
  obtain ⟨first, rest, herrors⟩ := List.exists_cons_of_ne_nil hsome
  rw [herrors, List.headD_cons]
  exact validator_code (herrors ▸ List.mem_cons_self)

/-- The decoder stops without telling where an untold check of the manifest
does not hold. -/
theorem decode_silent_iff :
    Silent Failure.Told (decode limits data) ↔
      Stops false (ManifestFile.checks limits data) := by
  unfold decode
  refine (Follows.except_rejectIf (told_failure (by decide)) ?_).silent_except_bind
    fun _ _ => ?_
  · rw [not_or, not_lt, gt_iff_lt, not_lt]
  refine (Follows.except_rejectIf (told_failure (by decide)) ?_).silent_except_bind
    fun _ _ => ?_
  · exact not_not
  refine (Follows.except_rejectIf (told_failure (by decide)) ?_).silent_except_bind
    fun _ _ => ?_
  · exact not_not
  refine (silent_except_bind_iff fun image _ => ?_).trans
    (decodeBody_follows.silent_bind_reported fun image next _ => ?_)
  · exact Reported.except_guard told_of_invalid fun _ => Reported.ok image
  · refine Reported.bind (Reported.ok next) fun reader _ _ => ?_
    exact (Reported.rejectIf (told_failure (by decide))).bind
      fun _ _ _ => Reported.pure image

end ImageManifestCodec
end BinForge
