import BinForge.FailureReports
import BinForge.PeFile

/-!
# The checks of the PE parser

What a PE file is checked for up to its optional header, in order, in terms of
its fields.  The parser does not tell when the file ends inside the image base;
whatever goes wrong behind the optional header is told.
-/

namespace BinForge

open StatefulExcept
open ListSplice
open ByteReader
open Checklist
open PeParser

/-! ## The checks of a file -/

namespace PeFile

def signature (data : Bytes) : UInt32 :=
  u32At .little data (headerOffset data).toNat

def optionalMagic (data : Bytes) : UInt16 :=
  u16At .little data (optionalOffset data).toNat

def fileAlignment (data : Bytes) : UInt32 :=
  u32At .little data ((optionalOffset data).toNat + 36)

def coffChecks (limits : Limits) (data : Bytes) : List Check :=
  [told (64 ≤ data.length ∧ data.getD 0 0 = 0x4d ∧ data.getD 1 0 = 0x5a),
   told ((headerOffset data).toNat + 24 ≤ data.length),
   told (signature data = 0x00004550),
   told ((sectionCount data).toUInt32 ≤ limits.maxSections)]

def optionalChecks (data : Bytes) : List Check :=
  let offset := (optionalOffset data).toNat
  [told (offset + (optionalSize data).toNat ≤ data.length),
   told (offset + 2 ≤ data.length ∧
    (optionalMagic data = 0x10b ∨ optionalMagic data = 0x20b)),
   told (offset + 24 ≤ data.length),
   untold (offset + 32 ≤ data.length),
   told (offset + 40 ≤ data.length ∧ sectionAlignment data ≠ 0 ∧
    fileAlignment data ≠ 0)]

def checks (limits : Limits) (data : Bytes) : List Check :=
  coffChecks limits data ++ optionalChecks data

end PeFile

namespace PeParser

variable {limits : Limits} {data : Bytes} {reader : ByteReader}

/-! ## The headers -/

theorem readCoffHeader_succeeds :
    (∃ header next, readCoffHeader reader = .ok header next) ↔
      reader.position + 24 ≤ reader.data.length ∧
        u32At reader.order reader.data reader.position = 0x00004550 := by
  simp only [readCoffHeader, bind_eq_ok, readU32_at, readU16_at, rejectIf_eq_ok,
    pure_eq_ok, and_assoc, exists_and_left, exists_eq_left, exists_const,
    exists_eq', and_true, not_not, ne_eq, movedTo_data, movedTo_order,
    movedTo_position, movedTo_movedTo, Nat.add_assoc, Nat.reduceAdd]
  grind

theorem readWide_succeeds :
    (∃ value next, readWide reader = .ok value next) ↔
      reader.position + 2 ≤ reader.data.length ∧
        (u16At reader.order reader.data reader.position = 0x10b ∨
          u16At reader.order reader.data reader.position = 0x20b) := by
  simp only [readWide, bind_eq_ok, readU16_at, rejectIf_eq_ok, pure_eq_ok,
    and_assoc, exists_and_left, exists_eq_left, exists_const, exists_eq',
    and_true]
  tauto

theorem readStandardFields_succeeds :
    (∃ fields next, readStandardFields reader = .ok fields next) ↔
      reader.position + 22 ≤ reader.data.length := by
  simp only [readStandardFields, bind_eq_ok, readU32_at, readU8_at, pure_eq_ok,
    and_assoc, exists_and_left, exists_eq_left, exists_eq', and_true,
    movedTo_data, movedTo_order, movedTo_position, movedTo_movedTo,
    Nat.add_assoc, Nat.reduceAdd]
  omega

theorem readImageBase_succeeds {wide : Bool} :
    (∃ base next, readImageBase wide reader = .ok base next) ↔
      reader.position + 8 ≤ reader.data.length := by
  unfold readImageBase
  cases wide
  · simp only [Bool.false_eq_true, if_false, bind_eq_ok, readU32_at, pure_eq_ok,
      and_assoc, exists_and_left, exists_eq_left, exists_eq', and_true,
      movedTo_data, movedTo_order, movedTo_position, movedTo_movedTo,
      Nat.add_assoc, Nat.reduceAdd]
    omega
  · simp only [if_true, readU64_at, exists_and_left, exists_eq, and_true]

theorem readAlignments_succeeds :
    (∃ alignment next, readAlignments reader = .ok alignment next) ↔
      reader.position + 8 ≤ reader.data.length ∧
        u32At reader.order reader.data reader.position ≠ 0 ∧
        u32At reader.order reader.data (reader.position + 4) ≠ 0 := by
  simp only [readAlignments, bind_eq_ok, readU32_at, rejectIf_eq_ok, pure_eq_ok,
    and_assoc, exists_and_left, exists_eq_left, exists_const, exists_eq',
    and_true, not_or, movedTo_data, movedTo_order, movedTo_position,
    movedTo_movedTo, Nat.add_assoc, Nat.reduceAdd]
  grind

theorem parseCoff_follows (hreader : OnFile data reader) :
    Follows Failure.Told (evaluate (parseCoff limits data) reader)
      (PeFile.coffChecks limits data) := by
  obtain ⟨rfl, horder⟩ := hreader
  unfold parseCoff reporting
  refine Follows.guard (told_failure (by decide)) ?_ fun ⟨hlong, _⟩ => ?_
  · rw [not_or, not_or, not_lt, not_not, not_not]
  · -- The length is checked, so the pointer at 0x3c is there.
    have hseek : seek 0x3c reader = .ok () (reader.movedTo 0x3c) :=
      seek_of_le (by show 0x3c ≤ _; omega)
    have hpointer : readU32 (reader.movedTo 0x3c) =
        .ok (PeFile.headerOffset reader.data) (reader.movedTo 0x40) :=
      readU32_at.mpr ⟨hlong, by rw [movedTo_order, horder]; rfl, rfl⟩
    rw [evaluate_bind_of_ok (adaptError_eq_ok.mpr hseek),
      evaluate_bind_of_ok (adaptError_eq_ok.mpr hpointer)]
    refine Follows.guard (told_failure (by decide)) ?_ fun hinside => ?_
    · rw [rangeInside_eq_false, not_not]
    · rw [evaluate_bind_of_ok (attempt_of_ok (seek_of_le (by
        rw [UInt32.toNat_toUInt64, movedTo_data]
        omega)))]
      rw [UInt32.toNat_toUInt64, movedTo_movedTo]
      refine Follows.next (Follows.adaptError
        (readCoffHeader_succeeds.trans ?_) fun _ _ =>
          told_failure (by decide)) fun coff next hcoff => ?_
      · rw [movedTo_data, movedTo_order, movedTo_position, horder]
        exact and_iff_right hinside
      · obtain ⟨hsections, -, -⟩ := readCoffHeader_ok (adaptError_eq_ok.mp hcoff)
        refine Follows.guard (told_failure (by decide)) ?_ fun _ =>
          Follows.of_ok rfl
        rw [gt_iff_lt, UInt32.not_lt, hsections, movedTo_order, horder]
        exact Iff.rfl

theorem parseOptional_follows (hreader : OnFile data reader) :
    Follows Failure.Told
      (evaluate (parseOptional data (PeFile.optionalOffset data)
        (PeFile.optionalSize data)) reader) (PeFile.optionalChecks data) := by
  obtain ⟨rfl, horder⟩ := hreader
  unfold parseOptional reporting silently
  refine Follows.guard (told_failure (by decide)) ?_ fun hinside => ?_
  · rw [rangeInside_eq_false, not_not]
  · rw [evaluate_bind_of_ok (attempt_of_ok (seek_of_le (by omega)))]
    refine Follows.next (Follows.adaptError (readWide_succeeds.trans ?_)
      fun _ _ => told_failure (by decide)) fun wide next hwide => ?_
    · rw [movedTo_data, movedTo_order, movedTo_position, horder]
      exact Iff.rfl
    obtain ⟨-, rfl⟩ := readWide_ok (adaptError_eq_ok.mp hwide)
    refine Follows.next (Follows.adaptError
      (readStandardFields_succeeds.trans ?_) (told_reportAt (by decide)))
      fun standard next hstandard => ?_
    · exact Iff.rfl
    obtain ⟨-, rfl⟩ := readStandardFields_ok (adaptError_eq_ok.mp hstandard)
    refine Follows.next (Follows.adaptError_untold
      (readImageBase_succeeds.trans ?_) fun _ _ => not_told_silent)
      fun base next hbase => ?_
    · exact Iff.rfl
    obtain ⟨-, rfl⟩ := readImageBase_ok (adaptError_eq_ok.mp hbase)
    refine Follows.returning (Follows.adaptError
      (readAlignments_succeeds.trans ?_) (told_reportAt (by decide)))
    simp only [movedTo_data, movedTo_order, movedTo_position, movedTo_movedTo,
      horder, Nat.add_assoc, Nat.reduceAdd]
    exact Iff.rfl

/-! ## Behind the headers -/

theorem readSection_reported (hreader : OnFile data reader) {table : UInt64}
    {alignment : UInt32} {index : ℕ}
    (hfit : (table + UInt64.ofNat index * 40).toNat + 8 ≤ data.length) :
    Reported Failure.Told
      (evaluate (readSection data table alignment index) reader) := by
  obtain ⟨rfl, -⟩ := hreader
  unfold readSection
  rw [evaluate_bind_of_ok (attempt_of_ok (seek_of_le (by omega)))]
  refine (reported_silently
    ⟨_, _, readFixedString_at.mpr ⟨hfit, rfl, rfl⟩⟩).bind fun _ _ _ => ?_
  refine (reported_reportAt (by decide)).bind fun _ _ _ => ?_
  exact (Reported.rejectIf (told_failure (by decide))).bind
    fun _ _ _ => Reported.pure _

theorem parseSections_reported (hreader : OnFile data reader) {table : UInt64}
    {count : UInt16} {alignment : UInt32} :
    Reported Failure.Told
      (evaluate (parseSections data table count alignment) reader) := by
  unfold parseSections
  refine Reported.demand_bind (told_failure (by decide))
    fun tableBytes hproduct => ?_
  refine Reported.guard (told_failure (by decide)) fun hinside => ?_
  have hsize : tableBytes.toNat = count.toNat * 40 := by
    simpa using checkedMultiply_toNat hproduct
  rw [rangeInside_eq_false, not_not, hsize] at hinside
  refine Reported.traverse (OnFile data) hreader
    fun index hindex state hstate => ⟨readSection_reported hstate ?_, ?_⟩
  · have hlt := List.mem_range.mp hindex
    have hplace := MachineInteger.place_le table 40 index
    rw [show (40 : UInt64).toNat = 40 from rfl] at hplace
    omega
  · intro item last hrun
    have hlt := List.mem_range.mp hindex
    have hplace := MachineInteger.place_le table 40 index
    rw [show (40 : UInt64).toNat = 40 from rfl] at hplace
    obtain ⟨-, -, -, -, hlast⟩ := readSection_ok hstate (by omega) hrun
    exact hlast

theorem unchecked_reported {α : Type} [Inhabited α] {action : ReaderCall α} :
    Reported Failure.Told (evaluate (unchecked action) reader) :=
  Reported.attempt.bind fun _ _ _ => Reported.pure _

theorem readSymbolName_reported {table : SymbolTable} {i : UInt32} :
    Reported Failure.Told
      (evaluate (readSymbolName data table i) reader) := by
  refine unchecked_reported.bind fun zero _ _ => ?_
  refine unchecked_reported.bind fun nameOffset _ _ => ?_
  split
  · exact Reported.pure _
  · exact Reported.attempt.bind fun _ _ _ => unchecked_reported

theorem readSymbol_reported {table : SymbolTable} {i : UInt32} {index : ℕ} :
    Reported Failure.Told
      (evaluate (readSymbol data table i index) reader) := by
  refine Reported.attempt.bind fun _ _ _ => ?_
  refine readSymbolName_reported.bind fun _ _ _ => ?_
  refine unchecked_reported.bind fun _ _ _ => ?_
  refine unchecked_reported.bind fun _ _ _ => ?_
  refine unchecked_reported.bind fun _ _ _ => ?_
  refine unchecked_reported.bind fun _ _ _ => ?_
  exact unchecked_reported.bind fun _ _ _ => Reported.pure _

theorem readSymbols_reported {table : SymbolTable} {passes : ℕ} {i : UInt32}
    {output : List Symbol} :
    Reported Failure.Told
      (evaluate (readSymbols data table passes i output) reader) := by
  induction passes generalizing i output reader with
  | zero => exact Reported.pure output
  | succ passes ih =>
      rw [readSymbols]
      split
      · exact Reported.pure output
      · apply readSymbol_reported.bind
        intro found _ _
        obtain ⟨symbol, aux⟩ := found
        dsimp only
        split
        · exact Reported.pure _
        · exact ih

theorem parseSymbols_reported {header : CoffHeader} :
    Reported Failure.Told
      (evaluate (parseSymbols limits data header) reader) := by
  unfold parseSymbols
  dsimp only
  split
  · split
    · refine Reported.attempt.bind fun _ _ _ => ?_
      exact unchecked_reported.bind fun _ _ _ => readSymbols_reported
    · exact (Reported.pure _).bind fun _ _ _ => readSymbols_reported
  · exact Reported.pure []

theorem relocationDirectory_reported {image : BinaryImage} {offset : UInt64}
    {size : UInt16} {wide : Bool} :
    Reported Failure.Told
      (evaluate (relocationDirectory data image offset size wide) reader) := by
  unfold relocationDirectory
  dsimp only
  generalize offset + (if wide = true then 108 else 92) = countOffset
  generalize offset + (if wide = true then 112 else 96) = tableOffset
  split
  · refine Reported.attempt.bind fun _ _ _ => ?_
    refine unchecked_reported.bind fun stored _ _ => ?_
    generalize (if 16 < stored then 16 else stored) = count
    split
    · refine Reported.attempt.bind fun _ _ _ => ?_
      refine unchecked_reported.bind fun rva _ _ => ?_
      refine unchecked_reported.bind fun length _ _ => ?_
      split
      · exact Reported.pure none
      · refine (Reported.demand (told_failure (by decide))).bind
          fun file _ _ => ?_
        exact (Reported.rejectIf (told_failure (by decide))).bind
          fun _ _ _ => Reported.pure _
    · exact Reported.pure none
  · exact Reported.pure none

theorem parseRelocations_reported {image : BinaryImage} {offset : UInt64}
    {size : UInt16} {wide : Bool} :
    Reported Failure.Told
      (evaluate (parseRelocations limits data image offset size wide)
        reader) := by
  refine relocationDirectory_reported.bind fun table _ _ => ?_
  cases table with
  | none => exact Reported.pure []
  | some table =>
      exact RelocationTableDecoder.decodePeBase_reported.liftExcept

/-- The parser stops without telling where the checks of the headers do. -/
theorem parse_silent_iff :
    Silent Failure.Told (parse limits data) ↔
      Stops false (PeFile.checks limits data) := by
  have hstart : OnFile data { data := data } := ⟨rfl, rfl⟩
  unfold parse parseImage PeFile.checks
  refine (parseCoff_follows hstart).silent_bind fun ⟨offset, coff⟩ next hcoff => ?_
  obtain ⟨rfl, -, hsize, -, hnext⟩ := parseCoff_ok hstart hcoff
  dsimp only
  rw [hsize]
  refine (parseOptional_follows hnext).silent_bind_reported
    fun optional last hoptional => ?_
  obtain ⟨-, hlast⟩ := parseOptional_ok hnext hoptional
  refine (parseSections_reported hlast).bind fun sections _ _ => ?_
  refine parseSymbols_reported.bind fun symbols _ _ => ?_
  exact parseRelocations_reported.bind fun _ _ _ => Reported.pure _

end PeParser
end BinForge
