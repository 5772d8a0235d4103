import BinForge.BinaryParser
import BinForge.Checklist

/-!
# Failures the caller hears of

A failure is told when it leaves a code in the caller's error object, which
`BinaryParser` and `ImageManifestCodec` clear on entry.  The relocation decoders
and the ELF parser tell of every failure.
-/

namespace BinForge

open StatefulExcept
open Checklist

variable {α : Type} {code : ErrorCode} {offset : UInt64} {message : Bytes}
  {limits : Limits} {data : Bytes} {reader : ByteReader}

/-- The failure leaves a code in a cleared error object. -/
def Failure.Told (why : Failure) : Prop := (why.errorAfter {}).code ≠ .none

instance (why : Failure) : Decidable why.Told :=
  inferInstanceAs (Decidable (_ ≠ _))

/-- The code in the caller's error object, cleared on entry, after the call. -/
def codeAfter : Except Failure α → ErrorCode
  | .ok _ => .none
  | .error why => (why.errorAfter {}).code

/-- A rejection leaves a code, and an acceptance none. -/
structure Answers (outcome : Except Failure α) : Prop where
  rejected : ∀ why, outcome = .error why → codeAfter outcome ≠ .none
  accepted : ∀ value, outcome = .ok value → codeAfter outcome = .none

theorem answers_iff {outcome : Except Failure α} :
    Answers outcome ↔ ¬Silent Failure.Told outcome := by
  rw [← reported_iff]
  constructor
  · rintro ⟨hrejected, -⟩ why rfl
    exact hrejected why rfl
  · intro hreported
    exact ⟨fun why hwhy => hwhy ▸ hreported why hwhy, fun value hvalue =>
      hvalue ▸ rfl⟩

theorem told_failure (hcode : code ≠ .none) :
    (failure code offset message).Told :=
  hcode

theorem not_told_silent : ¬Failure.silent.Told := fun htold => htold rfl

/-! ## Reads and their reports -/

theorem told_reportAt (hcode : code ≠ .none) (reader : ByteReader)
    (missing : Unit) : (reportAt code message reader missing).Told :=
  hcode

theorem reported_reporting {why : Failure} {action : ReaderCall α}
    (htold : why.Told) :
    Reported Failure.Told (evaluate (reporting why action) reader) :=
  Reported.adaptError fun _ _ => htold

theorem reported_reportAt {action : ReaderCall α} (hcode : code ≠ .none) :
    Reported Failure.Told
      (evaluate (adaptError (reportAt code message) action) reader) :=
  Reported.adaptError (told_reportAt hcode)

/-- A call that would not tell, where it does not fail. -/
theorem reported_silently {action : ReaderCall α}
    (hrun : ∃ value next, action reader = .ok value next) :
    Reported Failure.Told (evaluate (silently action) reader) := by
  obtain ⟨value, next, hrun⟩ := hrun
  rw [silently, evaluate_of_ok (adaptError_eq_ok.mpr hrun)]
  exact Reported.ok value

/-! ## The relocation decoders -/

namespace RelocationTableDecoder

variable {output : List Relocation}

theorem appendRelocation_reported {relocation : Relocation} :
    Reported Failure.Told (appendRelocation limits relocation output) :=
  (Reported.except_rejectIf (told_failure (by decide))).except_bind
    fun _ _ => Reported.ok _

theorem elfRecord_reported {options : RelocationDecodeOptions}
    {entrySize : UInt64} {index : ℕ} :
    Reported Failure.Told
      (evaluate (elfRecord limits options entrySize output index) reader) := by
  refine (reported_reporting (told_failure (by decide))).bind fun _ _ _ => ?_
  refine (reported_reportAt (by decide)).bind fun _ _ _ => ?_
  refine (Reported.rejectIf (told_failure (by decide))).bind fun _ _ _ => ?_
  refine (Reported.demand (told_failure (by decide))).bind fun _ _ _ => ?_
  exact appendRelocation_reported.liftExcept

theorem decodeElf_reported {options : RelocationDecodeOptions} :
    Reported Failure.Told (decodeElf limits data options output) := by
  refine (Reported.except_rejectIf (told_failure (by decide))).except_bind
    fun _ _ => ?_
  refine (Reported.except_rejectIf (told_failure (by decide))).except_bind
    fun _ _ => ?_
  exact Reported.foldlM fun _ _ _ => elfRecord_reported

theorem peRecord_reported {imageBase blockOffset : UInt64} {pageRva : UInt32}
    {index : ℕ} :
    Reported Failure.Told (evaluate
      (peRecord limits imageBase blockOffset pageRva output index) reader) := by
  refine (reported_reportAt (by decide)).bind fun encoded next _ => ?_
  dsimp only
  split
  · exact Reported.pure output
  · refine (Reported.demand (told_failure (by decide))).bind fun _ _ _ => ?_
    refine (Reported.demand (told_failure (by decide))).bind fun _ _ _ => ?_
    exact appendRelocation_reported.liftExcept

theorem peBlock_reported {imageBase : UInt64} :
    Reported Failure.Told
      (evaluate (peBlock limits imageBase output) reader) := by
  refine Reported.bind (Reported.ok reader) fun _ _ _ => ?_
  refine (reported_reporting (told_failure (by decide))).bind fun _ _ _ => ?_
  refine (Reported.rejectIf (told_failure (by decide))).bind fun _ _ _ => ?_
  refine (Reported.foldlM fun _ _ _ => peRecord_reported).bind
    fun _ _ _ => ?_
  exact (reported_reporting (told_failure (by decide))).bind
    fun _ _ _ => Reported.pure _

theorem peBlocks_reported {imageBase : UInt64} {passes : ℕ} :
    Reported Failure.Told
      (evaluate (peBlocks limits imageBase passes output) reader) := by
  induction passes generalizing output reader with
  | zero => exact Reported.pure output
  | succ passes ih =>
      refine Reported.bind (Reported.ok reader) fun found _ _ => ?_
      split
      · exact Reported.pure output
      · exact peBlock_reported.bind fun _ _ _ => ih

theorem decodePeBase_reported {imageBase : UInt64} :
    Reported Failure.Told (decodePeBase limits data imageBase output) :=
  peBlocks_reported

end RelocationTableDecoder

/-! ## The ELF parser -/

namespace ElfParser

theorem truncatedAt_reported {action : ReaderCall α} :
    Reported Failure.Told (evaluate (truncatedAt action) reader) :=
  reported_reportAt (by decide)

theorem readRawSections_reported {wide : Bool} {header : ElfHeader} :
    Reported Failure.Told
      (evaluate (readRawSections data wide header) reader) := by
  refine (Reported.demand (told_failure (by decide))).bind fun _ _ _ => ?_
  refine (Reported.rejectIf (told_failure (by decide))).bind fun _ _ _ => ?_
  refine Reported.traverse (fun _ => True) trivial fun index _ state _ =>
    ⟨?_, fun _ _ _ => trivial⟩
  refine truncatedAt_reported.bind fun _ _ _ => ?_
  exact (Reported.rejectIf (told_failure (by decide))).bind
    fun _ _ _ => Reported.pure _

theorem readSegment_reported {wide : Bool} {header : ElfHeader}
    {segments : List Segment} {index : ℕ} :
    Reported Failure.Told
      (evaluate (readSegment data wide header segments index) reader) := by
  refine Reported.attempt.bind fun _ _ _ => ?_
  refine truncatedAt_reported.bind fun entry next _ => ?_
  split
  · exact Reported.pure segments
  · exact (Reported.rejectIf (told_failure (by decide))).bind
      fun _ _ _ => Reported.pure _

theorem readSegments_reported {wide : Bool} {header : ElfHeader} :
    Reported Failure.Told
      (evaluate (readSegments data wide header) reader) := by
  refine (Reported.demand (told_failure (by decide))).bind fun _ _ _ => ?_
  refine (Reported.rejectIf (told_failure (by decide))).bind fun _ _ _ => ?_
  exact Reported.foldlM fun _ _ _ => readSegment_reported

theorem readSymbolTable_reported {wide : Bool} {raw : List RawSection}
    {symbols : List Symbol} {table : RawSection} :
    Reported Failure.Told
      (evaluate (readSymbolTable limits data wide raw symbols table)
        reader) := by
  unfold readSymbolTable
  split
  · refine (Reported.rejectIf (told_failure (by decide))).bind fun _ _ _ => ?_
    refine Reported.foldlM fun _ _ _ => ?_
    refine Reported.attempt.bind fun _ _ _ => ?_
    exact truncatedAt_reported.bind fun _ _ _ => Reported.pure _
  · exact Reported.pure symbols

theorem decodeRelocations_reported {header : FileHeader}
    {sections : List Section} {relocations : List Relocation}
    {item : RawSection} :
    Reported Failure.Told
      (decodeRelocations limits data header sections relocations item) := by
  unfold decodeRelocations
  split
  · exact RelocationTableDecoder.decodeElf_reported
  · exact Reported.ok relocations

/-- The ELF parser tells of every failure. -/
theorem parse_reported : Reported Failure.Told (parse limits data) := by
  have hidentification : Reported Failure.Told (parseIdentification data) := by
    refine (Reported.except_rejectIf (told_failure (by decide))).except_bind
      fun _ _ => ?_
    dsimp only
    split
    · exact Reported.ok _
    · split
      · exact Reported.ok _
      · exact Reported.error (told_failure (by decide))
  refine hidentification.except_bind fun ⟨wide, order⟩ hfound => ?_
  -- The length is checked, so the seek behind the identification succeeds.
  have hlong : 16 ≤ data.length := by
    obtain ⟨hsize, -⟩ := rejectIf_except_bind_eq_ok.mp hfound
    omega
  have hseek : ∃ value next, ByteReader.seek 16 { data, order } =
      .ok value next := ⟨_, _, ByteReader.seek_of_le hlong⟩
  refine (reported_silently hseek).bind fun _ _ _ => ?_
  refine (reported_reporting (told_failure (by decide))).bind fun _ _ _ => ?_
  refine truncatedAt_reported.bind fun header _ _ => ?_
  refine (Reported.rejectIf (told_failure (by decide))).bind fun _ _ _ => ?_
  refine readRawSections_reported.bind fun raw _ _ => ?_
  refine readSegments_reported.bind fun segments _ _ => ?_
  refine (Reported.foldlM fun _ _ _ => readSymbolTable_reported).bind
    fun symbols _ _ => ?_
  exact (Reported.foldlM_except fun _ _ =>
    decodeRelocations_reported).liftExcept.bind fun _ _ _ => Reported.pure _

end ElfParser
end BinForge
