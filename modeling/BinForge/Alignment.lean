import Mathlib

/-!
# Rounding to powers of two with word masks

A 64-bit word is rounded down by clearing its low bits, and up by first adding
the mask.  This file relates the mask forms to division on natural numbers.
-/

namespace Alignment

/-- The largest multiple of `unit` that is at most `n`. -/
def roundDown (n unit : ℕ) : ℕ := n / unit * unit

/-- The least multiple of `unit` that is at least `n`. -/
def roundUp (n unit : ℕ) : ℕ := (n + (unit - 1)) / unit * unit

theorem roundDown_le (n unit : ℕ) : roundDown n unit ≤ n :=
  Nat.div_mul_le_self n unit

theorem le_roundUp {n unit : ℕ} (hunit : 0 < unit) : n ≤ roundUp n unit := by
  have hmod := Nat.mod_lt (n + (unit - 1)) hunit
  have hsplit := Nat.div_add_mod' (n + (unit - 1)) unit
  unfold roundUp
  omega

theorem dvd_roundDown (n unit : ℕ) : unit ∣ roundDown n unit :=
  Dvd.intro_left _ rfl

theorem roundUp_isLeast {n unit : ℕ} (hunit : 0 < unit) :
    IsLeast {multiple | unit ∣ multiple ∧ n ≤ multiple} (roundUp n unit) := by
  refine ⟨⟨Dvd.intro_left _ rfl, le_roundUp hunit⟩, ?_⟩
  rintro _ ⟨⟨count, rfl⟩, hle⟩
  rw [roundUp, Nat.mul_comm unit]
  apply Nat.mul_le_mul_right
  rw [← Nat.lt_succ_iff, Nat.div_lt_iff_lt_mul hunit, Nat.succ_mul,
    Nat.mul_comm count]
  omega

theorem roundUp_add_of_dvd {n base unit : ℕ} (hunit : 0 < unit)
    (hbase : unit ∣ base) : roundUp (base + n) unit = base + roundUp n unit := by
  obtain ⟨count, rfl⟩ := hbase
  unfold roundUp
  rw [Nat.add_assoc, Nat.mul_add_div hunit, Nat.add_mul, Nat.mul_comm unit]

/-- A multiple of the unit below a limit of whole units leaves a unit. -/
theorem add_lt_of_roundUp_lt {n unit limit : ℕ} (hunit : 0 < unit)
    (hlimit : unit ∣ limit) (hround : roundUp n unit < limit) :
    n + (unit - 1) < limit := by
  obtain ⟨count, rfl⟩ := hlimit
  rw [roundUp, Nat.mul_comm unit count] at hround
  rw [Nat.mul_comm, ← Nat.div_lt_iff_lt_mul hunit]
  exact Nat.lt_of_mul_lt_mul_right hround

/-! ## Masks -/

theorem testBit_roundDown (n k i : ℕ) :
    (roundDown n (2 ^ k)).testBit i = (decide (k ≤ i) && n.testBit i) := by
  rw [roundDown, Nat.testBit_mul_two_pow, Nat.testBit_div_two_pow]
  by_cases hle : k ≤ i
  · rw [Nat.sub_add_cancel hle]
  · simp [hle]

/-- Clearing the bits below `k` rounds down to a multiple of `2 ^ k`. -/
theorem toNat_and_not_mask {value mask : UInt64} {k : ℕ} (hk : k < 64)
    (hmask : mask.toNat = 2 ^ k - 1) :
    (value &&& ~~~mask).toNat = roundDown value.toNat (2 ^ k) := by
  have hpow : 2 ^ k ≤ 2 ^ 63 := Nat.pow_le_pow_right (by decide) (by omega)
  have hpositive : 0 < 2 ^ k := Nat.two_pow_pos k
  have hcomplement : (~~~mask).toNat = 2 ^ 64 - ((2 ^ k - 1) + 1) := by
    rw [UInt64.toNat_not, hmask]
    show 2 ^ 64 - 1 - (2 ^ k - 1) = _
    omega
  apply Nat.eq_of_testBit_eq
  intro i
  rw [UInt64.toNat_and, hcomplement, Nat.testBit_and, testBit_roundDown,
    Nat.testBit_two_pow_sub_succ (by omega), Nat.testBit_two_pow_sub_one]
  by_cases hi : i < 64
  · by_cases hlow : i < k
    · simp [hi, hlow]
    · simp [hi, hlow, not_lt.mp hlow]
  · have hbit : value.toNat.testBit i = false :=
      Nat.testBit_lt_two_pow (value.toNat_lt.trans_le
        (Nat.pow_le_pow_right (by decide) (not_lt.mp hi)))
    simp [hbit]

/-- The usual test accepts exactly the powers of two. -/
theorem powerOfTwo_iff {value : UInt64} :
    (value ≠ 0 ∧ value &&& (value - 1) = 0) ↔ ∃ k, value.toNat = 2 ^ k := by
  rw [ne_eq, ← UInt64.toNat_inj, ← UInt64.toNat_inj, UInt64.toNat_zero]
  by_cases hzero : value.toNat = 0
  · have hnot : ¬∃ k, value.toNat = 2 ^ k := by
      rintro ⟨k, hk⟩
      have hpositive := Nat.two_pow_pos k
      omega
    exact ⟨fun h => absurd hzero h.1, fun h => absurd h hnot⟩
  · have hone : (1 : UInt64) ≤ value := by
      rw [UInt64.le_iff_toNat_le, UInt64.toNat_one]
      omega
    rw [UInt64.toNat_and, UInt64.toNat_sub_of_le _ _ hone, UInt64.toNat_one]
    exact Nat.ne_zero_and_sub_one_eq_zero_iff_isPowerOfTwo

theorem exponent_lt {value : UInt64} {k : ℕ} (hvalue : value.toNat = 2 ^ k) :
    k < 64 := by
  have hlt := value.toNat_lt
  rw [hvalue] at hlt
  exact (Nat.pow_lt_pow_iff_right (by decide)).mp hlt

end Alignment
