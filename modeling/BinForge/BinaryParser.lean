import BinForge.ElfParser
import BinForge.MachOParser
import BinForge.PeParser

/-!
# The binary parser

`BinaryParser` looks at the first bytes and hands the file to the parser of its
format.
-/

namespace BinForge

open StatefulExcept
open ByteReader

namespace BinaryParser

def detect (data : Bytes) : BinaryFormat :=
  if data.length < 4 then .unknown
  else if data.take 4 = [0x7f, 0x45, 0x4c, 0x46] then .elfLike
  else if data.take 2 = [0x4d, 0x5a] then .peLike
  else
    let magic := MachOParser.magic data
    if magic = 0xfeedface ∨ magic = 0xfeedfacf ∨ magic = 0xcefaedfe ∨
        magic = 0xcffaedfe then .machoLike
    else .unknown

/-- The error is cleared on entry, so a silent failure leaves it empty. -/
def cleared (why : Failure) : Failure := .reported (why.errorAfter {})

def parse (limits : Limits) (data : Bytes) : Except Failure BinaryImage := do
  rejectIf (data.length < 4)
    (failure .truncated 0 "binary header is truncated")
  rejectIf (data.length > limits.maxFileSize.toNat)
    (failure .resourceLimit 0 "binary exceeds file limit")
  match detect data with
  | .elfLike => (ElfParser.parse limits data).mapError cleared
  | .peLike => (PeParser.parse limits data).mapError cleared
  | .machoLike => (MachOParser.parse limits data).mapError cleared
  | .unknown => throw (failure .badMagic 0 "unknown executable signature")

theorem mapError_eq_ok {ε ε' α : Type} {describe : ε → ε'}
    {result : Except ε α} {value : α} :
    result.mapError describe = .ok value ↔ result = .ok value := by
  cases result <;> simp [Except.mapError]

variable {limits : Limits} {data : Bytes} {image : BinaryImage}

/-- An accepted file is within the limit and accepted by the parser of its
format. -/
theorem parse_ok (hrun : parse limits data = .ok image) :
    data.length ≤ limits.maxFileSize.toNat ∧
      match detect data with
      | .elfLike => ElfParser.parse limits data = .ok image
      | .peLike => PeParser.parse limits data = .ok image
      | .machoLike => MachOParser.parse limits data = .ok image
      | .unknown => False := by
  unfold parse at hrun
  obtain ⟨_, hrun⟩ := rejectIf_except_bind_eq_ok.mp hrun
  obtain ⟨hlength, hrun⟩ := rejectIf_except_bind_eq_ok.mp hrun
  refine ⟨not_lt.mp hlength, ?_⟩
  cases hformat : detect data with
  | unknown =>
      rw [hformat] at hrun
      contradiction
  | elfLike | peLike | machoLike =>
      rw [hformat] at hrun
      exact mapError_eq_ok.mp hrun

end BinaryParser
end BinForge
