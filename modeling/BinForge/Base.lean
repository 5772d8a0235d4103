import BinForge.Alignment
import BinForge.MachineInteger
import BinForge.StatefulExcept

/-!
# Errors, limits and checked arithmetic

The vocabulary every component shares: error values, the resource limits, the
overflow-checked arithmetic and the checksum.  Machine words keep their C++
widths; container sizes are natural numbers.
-/

namespace BinForge

/-- A byte string: file contents, region contents, names and messages. -/
abbrev Bytes := List UInt8

/-- The bytes of a string literal. -/
def ascii (text : String) : Bytes :=
  text.toList.map fun character => UInt8.ofNat character.toNat

instance : Coe String Bytes := ⟨ascii⟩

inductive ErrorCode
  | none
  | truncated
  | badMagic
  | unsupportedFormat
  | unsupportedClass
  | unsupportedEndian
  | invalidHeader
  | invalidOffset
  | invalidCount
  | invalidAlignment
  | invalidString
  | invalidSection
  | invalidSegment
  | invalidSymbol
  | invalidRelocation
  | invalidDebugInfo
  | addressOverflow
  | fileRangeOverflow
  | mappingOverlap
  | mappingMissing
  | permissionDenied
  | unresolvedImport
  | duplicateExport
  | resourceLimit
  | internalError
  deriving DecidableEq, Repr

structure Error where
  code : ErrorCode := .none
  offset : UInt64 := 0
  message : Bytes := []
  deriving DecidableEq, Repr

/-- How a call fails.  Most failing paths assign the caller's error object; a
few return without touching it. -/
inductive Failure
  | silent
  | reported (error : Error)
  deriving DecidableEq, Repr

/-- The caller's error object after a failure, given what it held before. -/
def Failure.errorAfter (before : Error) : Failure → Error
  | .silent => before
  | .reported error => error

def failure (code : ErrorCode) (offset : UInt64) (message : Bytes) : Failure :=
  .reported ⟨code, offset, message⟩

structure Limits where
  maxFileSize : UInt64 := 256 * 1024 * 1024
  maxMappedBytes : UInt64 := 512 * 1024 * 1024
  maxSectionBytes : UInt64 := 128 * 1024 * 1024
  maxDebugBytes : UInt64 := 64 * 1024 * 1024
  maxStringBytes : UInt64 := 1 * 1024 * 1024
  maxSections : UInt32 := 65536
  maxSegments : UInt32 := 65536
  maxSymbols : UInt32 := 1000000
  maxRelocations : UInt32 := 2000000
  maxImports : UInt32 := 250000
  maxExports : UInt32 := 250000
  maxDebugUnits : UInt32 := 65536
  maxDebugDepth : UInt32 := 128
  maxLineRows : UInt32 := 2000000
  maxDisassemblyInstructions : UInt32 := 1000000
  pageSize : UInt32 := 4096
  deriving DecidableEq, Repr

/-! ## Checked arithmetic -/

def checkedAdd (left right : UInt64) : Option UInt64 :=
  if right > 0xffffffffffffffff - left then none else some (left + right)

def checkedMultiply (left right : UInt64) : Option UInt64 :=
  if left ≠ 0 ∧ right > 0xffffffffffffffff / left then none
  else some (left * right)

def checkedAlignUp (value alignment : UInt64) : Option UInt64 :=
  if alignment = 0 ∨ alignment &&& (alignment - 1) ≠ 0 then none
  else
    let mask := alignment - 1
    match checkedAdd value mask with
    | none => none
    | some expanded => some (expanded &&& ~~~mask)

-- Reducing these on open terms would compute with 64-bit literals in unary.
attribute [irreducible] checkedAdd checkedMultiply checkedAlignUp

/-- The arguments are the unsigned values; the guarded difference does not
wrap, so natural subtraction is the machine's. -/
def rangeInside (offset length containerSize : ℕ) : Bool :=
  offset ≤ containerSize && length ≤ containerSize - offset

/-- The same check in 64-bit words, as the source writes it. -/
def rangeInside64 (offset length containerSize : UInt64) : Bool :=
  offset ≤ containerSize && length ≤ containerSize - offset

/-- One step of the inner loop of `crc32`. -/
def crc32Bit (value : UInt32) : UInt32 :=
  (value >>> 1) ^^^ (0xedb88320 &&& (0 - (value &&& 1)))

def crc32Byte (value : UInt32) (byte : UInt8) : UInt32 :=
  (List.range 8).foldl (fun value _ => crc32Bit value) (value ^^^ byte.toUInt32)

def crc32 (data : Bytes) : UInt32 :=
  ~~~(data.foldl crc32Byte 0xffffffff)

/-- Check value of the reflected CRC-32 polynomial. -/
example : crc32 (ascii "123456789") = 0xcbf43926 := by
  decide +kernel

/-! ## What the checks decide -/

theorem checkedAdd_eq_some {left right sum : UInt64} :
    checkedAdd left right = some sum ↔
      left.toNat + right.toNat < 2 ^ 64 ∧ sum = left + right := by
  have hleft := left.toNat_lt
  have hroom : (0xffffffffffffffff - left : UInt64).toNat =
      2 ^ 64 - 1 - left.toNat := by
    rw [UInt64.toNat_sub_of_le]
    · rfl
    · rw [UInt64.le_iff_toNat_le]
      simp only [UInt64.reduceToNat]
      omega
  unfold checkedAdd
  by_cases hover : right > 0xffffffffffffffff - left
  · rw [if_pos hover]
    rw [gt_iff_lt, UInt64.lt_iff_toNat_lt, hroom] at hover
    simp only [reduceCtorEq, false_iff, not_and]
    omega
  · rw [if_neg hover, Option.some.injEq, eq_comm]
    rw [gt_iff_lt, UInt64.lt_iff_toNat_lt, hroom] at hover
    constructor
    · intro hsum
      exact ⟨by omega, hsum⟩
    · exact fun h => h.2

theorem checkedAdd_eq_none {left right : UInt64} :
    checkedAdd left right = none ↔ 2 ^ 64 ≤ left.toNat + right.toNat := by
  cases hsum : checkedAdd left right with
  | none =>
      simp only [true_iff]
      by_contra hfit
      have hsome := checkedAdd_eq_some.mpr ⟨not_le.mp hfit, rfl⟩
      rw [hsum] at hsome
      contradiction
  | some sum =>
      have hfit := (checkedAdd_eq_some.mp hsum).1
      simp only [reduceCtorEq, false_iff, not_le]
      exact hfit

theorem toNat_add_of_fit {left right : UInt64}
    (hfit : left.toNat + right.toNat < 2 ^ 64) :
    (left + right).toNat = left.toNat + right.toNat := by
  rw [UInt64.toNat_add, Nat.mod_eq_of_lt hfit]

theorem checkedAdd_toNat {left right sum : UInt64}
    (hsum : checkedAdd left right = some sum) :
    sum.toNat = left.toNat + right.toNat := by
  obtain ⟨hfit, rfl⟩ := checkedAdd_eq_some.mp hsum
  exact toNat_add_of_fit hfit

theorem checkedAdd_of_fit {left right : UInt64}
    (hfit : left.toNat + right.toNat < 2 ^ 64) :
    checkedAdd left right = some (left + right) :=
  checkedAdd_eq_some.mpr ⟨hfit, rfl⟩

theorem checkedMultiply_toNat {left right product : UInt64}
    (hproduct : checkedMultiply left right = some product) :
    product.toNat = left.toNat * right.toNat := by
  unfold checkedMultiply at hproduct
  split at hproduct
  · contradiction
  · next hfit =>
      obtain rfl := Option.some.inj hproduct
      rw [UInt64.toNat_mul, Nat.mod_eq_of_lt]
      rw [not_and, gt_iff_lt, UInt64.not_lt, UInt64.le_iff_toNat_le,
        UInt64.toNat_div] at hfit
      by_cases hzero : left = 0
      · rw [hzero, UInt64.toNat_zero, Nat.zero_mul]
        exact Nat.two_pow_pos 64
      · have hbound := Nat.mul_le_of_le_div _ _ _ (hfit hzero)
        rw [Nat.mul_comm] at hbound
        exact Nat.lt_of_le_of_lt hbound (by decide)

theorem checkedMultiply_of_fit {left right : UInt64}
    (hfit : left.toNat * right.toNat < 2 ^ 64) :
    checkedMultiply left right = some (left * right) := by
  unfold checkedMultiply
  refine if_neg ?_
  rintro ⟨hleft, hright⟩
  rw [gt_iff_lt, UInt64.lt_iff_toNat_lt, UInt64.toNat_div,
    Nat.div_lt_iff_lt_mul (Nat.pos_of_ne_zero fun hzero =>
      hleft (UInt64.toNat_inj.mp hzero)), Nat.mul_comm] at hright
  have hlimit : (0xffffffffffffffff : UInt64).toNat = 2 ^ 64 - 1 := rfl
  omega

theorem checkedMultiply_eq_some {left right product : UInt64} :
    checkedMultiply left right = some product ↔
      left.toNat * right.toNat < 2 ^ 64 ∧
        product.toNat = left.toNat * right.toNat := by
  constructor
  · intro hproduct
    have hvalue := checkedMultiply_toNat hproduct
    exact ⟨hvalue ▸ product.toNat_lt, hvalue⟩
  · rintro ⟨hfit, hvalue⟩
    have hwrapped : (left * right).toNat = product.toNat := by
      rw [UInt64.toNat_mul, Nat.mod_eq_of_lt hfit, hvalue]
    rw [checkedMultiply_of_fit hfit, UInt64.toNat_inj.mp hwrapped]

/-- Rounding up succeeds exactly for powers of two without overflow, and then
gives the least multiple. -/
theorem checkedAlignUp_eq_some {value alignment result : UInt64} :
    checkedAlignUp value alignment = some result ↔
      (∃ k, alignment.toNat = 2 ^ k) ∧
        value.toNat + (alignment.toNat - 1) < 2 ^ 64 ∧
        result.toNat = Alignment.roundUp value.toNat alignment.toNat := by
  unfold checkedAlignUp
  by_cases hpower : ∃ k, alignment.toNat = 2 ^ k
  · obtain ⟨hnonzero, hmask⟩ := Alignment.powerOfTwo_iff.mpr hpower
    obtain ⟨k, hk⟩ := hpower
    have hpositive := Nat.two_pow_pos k
    have hone : (1 : UInt64) ≤ alignment := by
      rw [UInt64.le_iff_toNat_le, UInt64.toNat_one]
      omega
    have hless : (alignment - 1).toNat = alignment.toNat - 1 := by
      rw [UInt64.toNat_sub_of_le _ _ hone, UInt64.toNat_one]
    rw [if_neg (not_or.mpr ⟨hnonzero, not_not.mpr hmask⟩)]
    dsimp only
    cases hsum : checkedAdd value (alignment - 1) with
    | none =>
        have hover := checkedAdd_eq_none.mp hsum
        simp only [reduceCtorEq, false_iff, not_and]
        omega
    | some expanded =>
        have hexpanded := checkedAdd_toNat hsum
        have hfit := (checkedAdd_eq_some.mp hsum).1
        have hresult : (expanded &&& ~~~(alignment - 1)).toNat =
            Alignment.roundUp value.toNat alignment.toNat := by
          rw [Alignment.toNat_and_not_mask (Alignment.exponent_lt hk)
            (by rw [hless, hk]), hexpanded, hless, hk]
          rfl
        rw [Option.some.injEq, ← hresult, UInt64.toNat_inj, eq_comm]
        exact ⟨fun h => ⟨⟨k, hk⟩, by omega, h⟩, fun h => h.2.2⟩
  · have hbad := mt Alignment.powerOfTwo_iff.mp hpower
    rw [not_and_or, not_not] at hbad
    rw [if_pos hbad]
    exact ⟨fun h => by contradiction, fun h => absurd h.1 hpower⟩

@[simp] theorem rangeInside_iff {offset length containerSize : ℕ} :
    rangeInside offset length containerSize = true ↔
      offset + length ≤ containerSize := by
  simp only [rangeInside, Bool.and_eq_true, decide_eq_true_eq]
  omega

theorem rangeInside_eq_false {offset length size : ℕ} :
    rangeInside offset length size = false ↔ ¬offset + length ≤ size := by
  rw [← Bool.not_eq_true, rangeInside_iff]

/-- The machine difference is taken only where it does not wrap. -/
theorem rangeInside64_eq (offset length containerSize : UInt64) :
    rangeInside64 offset length containerSize =
      rangeInside offset.toNat length.toNat containerSize.toNat := by
  unfold rangeInside64 rangeInside
  by_cases hinside : offset ≤ containerSize
  · simp only [UInt64.le_iff_toNat_le,
      UInt64.toNat_sub_of_le _ _ hinside]
  · have hbeyond := mt UInt64.le_iff_toNat_le.mpr hinside
    rw [decide_eq_false hinside, decide_eq_false hbeyond, Bool.false_and,
      Bool.false_and]

/-! ## The checked operations over the integers -/

/-- A power of two divides the number of words, so that rounding up leaves the
words only where adding the mask does. -/
theorem roundUp_fits_iff {value alignment : UInt64}
    (hpower : ∃ k, alignment.toNat = 2 ^ k) :
    value.toNat + (alignment.toNat - 1) < 2 ^ 64 ↔
      Alignment.roundUp value.toNat alignment.toNat < 2 ^ 64 := by
  obtain ⟨k, hk⟩ := hpower
  have hpositive : 0 < alignment.toNat := hk ▸ Nat.two_pow_pos k
  have hdvd : alignment.toNat ∣ 2 ^ 64 := by
    rw [hk]
    exact pow_dvd_pow 2 (Alignment.exponent_lt hk).le
  constructor
  · intro hfit
    exact (Nat.div_mul_le_self _ _).trans_lt hfit
  · exact Alignment.add_lt_of_roundUp_lt hpositive hdvd

theorem checkedAlignUp_isLeast {value alignment result : UInt64} :
    checkedAlignUp value alignment = some result ↔
      (∃ k, alignment.toNat = 2 ^ k) ∧
        ∃ multiple, IsLeast {n | alignment.toNat ∣ n ∧ value.toNat ≤ n}
            multiple ∧ multiple < 2 ^ 64 ∧ result.toNat = multiple := by
  rw [checkedAlignUp_eq_some]
  apply and_congr_right
  intro hpower
  have hpositive : 0 < alignment.toNat := by
    obtain ⟨k, hk⟩ := hpower
    exact hk ▸ Nat.two_pow_pos k
  have hleast := @Alignment.roundUp_isLeast value.toNat _ hpositive
  rw [roundUp_fits_iff hpower]
  constructor
  · exact fun hfit => ⟨_, hleast, hfit⟩
  · rintro ⟨multiple, hmultiple, hfit⟩
    rw [hleast.unique hmultiple]
    exact hfit

/-- Every check succeeds exactly when the integer it stands for fits a word,
and then returns it. -/
theorem checked_arithmetic_exact :
    (∀ left right result : UInt64,
      checkedAdd left right = some result ↔
        left.toNat + right.toNat < 2 ^ 64 ∧
          result.toNat = left.toNat + right.toNat) ∧
    (∀ left right result : UInt64,
      checkedMultiply left right = some result ↔
        left.toNat * right.toNat < 2 ^ 64 ∧
          result.toNat = left.toNat * right.toNat) ∧
    (∀ value alignment result : UInt64,
      checkedAlignUp value alignment = some result ↔
        (∃ k, alignment.toNat = 2 ^ k) ∧
          ∃ multiple, IsLeast {n | alignment.toNat ∣ n ∧ value.toNat ≤ n}
              multiple ∧ multiple < 2 ^ 64 ∧ result.toNat = multiple) ∧
    ∀ offset length containerSize : UInt64,
      rangeInside64 offset length containerSize = true ↔
        offset.toNat + length.toNat ≤ containerSize.toNat := by
  refine ⟨?_, fun _ _ _ => checkedMultiply_eq_some,
    fun _ _ _ => checkedAlignUp_isLeast, ?_⟩
  · intro left right result
    rw [checkedAdd_eq_some]
    apply and_congr_right
    intro hfit
    rw [← UInt64.toNat_inj, toNat_add_of_fit hfit]
  · intro offset length containerSize
    rw [rangeInside64_eq, rangeInside_iff]

/-- The values of the source's own test. -/
example : checkedAdd 4 5 = some 9 ∧ checkedAdd 0xffffffffffffffff 1 = none ∧
    checkedAlignUp 4097 4096 = some 8192 := by
  decide +kernel

end BinForge
