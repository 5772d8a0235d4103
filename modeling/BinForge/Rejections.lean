import BinForge.MachOChecks
import BinForge.ManifestChecks
import BinForge.PeChecks

/-!
# Rejections without a report

`BinaryParser::parse` and `ImageManifestCodec::decode` clear the caller's error
object and then leave it empty on some of the paths that return nothing.  They
do so exactly where the first check an input does not pass is one that its
format does not tell of.
-/

namespace BinForge

open StatefulExcept
open Checklist

variable {limits : Limits} {data : Bytes}

namespace BinaryParser

/-- What a file is checked for once its first bytes have been looked at. -/
def formatChecks (limits : Limits) (data : Bytes) : List Check :=
  match detect data with
  | .elfLike => []
  | .peLike => PeFile.checks limits data
  | .machoLike => MachOFile.checks limits data
  | .unknown => [told False]

def checks (limits : Limits) (data : Bytes) : List Check :=
  told (4 ≤ data.length) ::
  told (data.length ≤ limits.maxFileSize.toNat) ::
  formatChecks limits data

/-- The codes are those of the format's parser. -/
theorem silent_cleared_iff {outcome : Except Failure BinaryImage} :
    Silent Failure.Told (outcome.mapError cleared) ↔
      Silent Failure.Told outcome := by
  cases outcome with
  | ok image => simp [Silent, Except.mapError]
  | error why =>
      simp only [Silent, Except.mapError, Except.error.injEq, exists_eq_left']
      exact Iff.rfl

/-- The parser stops without telling where an untold check of the file's format
does not hold. -/
theorem parse_silent_iff :
    Silent Failure.Told (parse limits data) ↔
      Stops false (checks limits data) := by
  unfold parse checks formatChecks
  refine (Follows.except_rejectIf (told_failure (by decide))
    not_lt).silent_except_bind fun _ _ => ?_
  refine (Follows.except_rejectIf (told_failure (by decide))
    not_lt).silent_except_bind fun _ _ => ?_
  cases detect data with
  | elfLike =>
      apply iff_of_false _ id
      rw [silent_cleared_iff, ← reported_iff]
      exact ElfParser.parse_reported
  | peLike => exact silent_cleared_iff.trans PeParser.parse_silent_iff
  | machoLike =>
      exact silent_cleared_iff.trans MachOParser.parse_follows.silent_iff
  | unknown =>
      apply iff_of_false
      · rw [← reported_iff]
        exact Reported.error (told_failure (by decide))
      · rintro (⟨-, hkind⟩ | ⟨hfalse, -⟩)
        · contradiction
        · exact hfalse

end BinaryParser

/-- A file and a manifest are answered with a code for a rejection and none for
an acceptance, except where an untold check is the first not to hold. -/
theorem rejections_reported_iff :
    (Answers (BinaryParser.parse limits data) ↔
        ¬Stops false (BinaryParser.checks limits data)) ∧
      (Answers (ImageManifestCodec.decode limits data) ↔
        ¬Stops false (ManifestFile.checks limits data)) := by
  rw [answers_iff, answers_iff, BinaryParser.parse_silent_iff,
    ImageManifestCodec.decode_silent_iff]
  exact ⟨Iff.rfl, Iff.rfl⟩

/-- A 32-bit Mach-O header and a segment command that ends behind its size. -/
def shortSegment : Bytes :=
  [0xce, 0xfa, 0xed, 0xfe, 0, 0, 0, 0, 0, 0, 0, 0, 2, 0, 0, 0, 1, 0, 0, 0,
    8, 0, 0, 0, 0, 0, 0, 0, 1, 0, 0, 0, 8, 0, 0, 0]

theorem rejection_without_code :
    ¬∀ (limits : Limits) (data : Bytes),
      Answers (BinaryParser.parse limits data) ∧
        Answers (ImageManifestCodec.decode limits data) := by
  intro hall
  have hanswers := (hall {} shortSegment).1
  obtain ⟨hcode, hnone⟩ : codeAfter (BinaryParser.parse {} shortSegment) = .none ∧
      (BinaryParser.parse {} shortSegment).toOption.isNone = true := by
    decide +kernel
  cases hrun : BinaryParser.parse {} shortSegment with
  | ok image =>
      rw [hrun] at hnone
      contradiction
  | error why => exact hanswers.rejected why hrun hcode

end BinForge
