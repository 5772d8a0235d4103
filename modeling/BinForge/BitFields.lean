import Mathlib

/-!
# Fields of machine words

A test of a word against a mask is a statement about the bits of a field, and
a field read as a signed number is extended by its highest bit.  The masks of
an instruction decoder are put together from the masks of single fields.
-/

namespace BitFields

variable {n : ℕ}

/-- The bits of a field in place, all others zero. -/
def inPlace (n start : ℕ) {width : ℕ} (value : BitVec width) : BitVec n :=
  value.setWidth n <<< start

def mask (n start width : ℕ) : BitVec n :=
  inPlace n start (BitVec.allOnes width)

theorem getLsbD_inPlace {start width i : ℕ} {value : BitVec width}
    (hi : i < n) :
    (inPlace n start value).getLsbD i =
      (decide (start ≤ i) && value.getLsbD (i - start)) := by
  rw [inPlace, BitVec.getLsbD_shiftLeft, BitVec.getLsbD_setWidth]
  have hinside : i - start < n := by omega
  by_cases hstart : start ≤ i
  · have hnot : ¬i < start := not_lt.mpr hstart
    simp [hi, hinside, hstart, hnot]
  · have hbelow : i < start := not_le.mp hstart
    simp [hi, hstart, hbelow]

/-- Under its mask a word is a field in place when the field has the value. -/
theorem and_mask_eq_iff {start width : ℕ} {word : BitVec n}
    {value : BitVec width} (hfit : start + width ≤ n) :
    word &&& mask n start width = inPlace n start value ↔
      word.extractLsb' start width = value := by
  constructor
  · intro hword
    apply BitVec.eq_of_getLsbD_eq
    intro i hi
    have hbit := congrArg (fun bits => bits.getLsbD (start + i)) hword
    simp only [mask, BitVec.getLsbD_and] at hbit
    rw [getLsbD_inPlace (by omega), getLsbD_inPlace (by omega)] at hbit
    simpa [hi, Nat.le_add_right, Nat.add_sub_cancel_left] using hbit
  · rintro rfl
    apply BitVec.eq_of_getLsbD_eq
    intro i hi
    rw [mask, BitVec.getLsbD_and, getLsbD_inPlace hi, getLsbD_inPlace hi]
    by_cases hstart : start ≤ i
    · by_cases hinside : i - start < width
      · simp [hstart, hinside, Nat.add_sub_cancel' hstart]
      · simp [hstart, hinside]
    · simp [hstart]

theorem and_or_and_left (word first second : BitVec n) :
    (word &&& (first ||| second)) &&& first = word &&& first := by
  ext i hi
  simp only [BitVec.getElem_and, BitVec.getElem_or]
  cases word[i] <;> cases first[i] <;> simp

theorem or_and_of_disjoint {first second mask : BitVec n}
    (hfirst : first &&& mask = first) (hsecond : second &&& mask = 0#n) :
    (first ||| second) &&& mask = first := by
  rw [BitVec.and_or_distrib_right, hfirst, hsecond, BitVec.or_zero]

/-- A test of two fields under one mask. -/
theorem and_or_eq_or_iff {word first second : BitVec n}
    {firstMask secondMask : BitVec n} (hfirst : first &&& firstMask = first)
    (hsecond : second &&& secondMask = second)
    (hfirstOut : first &&& secondMask = 0#n)
    (hsecondOut : second &&& firstMask = 0#n) :
    word &&& (firstMask ||| secondMask) = first ||| second ↔
      word &&& firstMask = first ∧ word &&& secondMask = second := by
  constructor
  · intro hword
    constructor
    · rw [← and_or_and_left word firstMask secondMask, hword]
      exact or_and_of_disjoint hfirst hsecondOut
    · rw [← and_or_and_left word secondMask firstMask,
        BitVec.or_comm secondMask, hword, BitVec.or_comm]
      exact or_and_of_disjoint hsecond hfirstOut
  · rintro ⟨hleft, hright⟩
    rw [BitVec.and_or_distrib_left, hleft, hright]

/-- A field moved to the bottom and masked, in a word of its own width. -/
theorem shift_and_allOnes {start width : ℕ} (word : BitVec n) :
    word >>> start &&& (BitVec.allOnes width).setWidth n =
      (word.extractLsb' start width).setWidth n := by
  apply BitVec.eq_of_getLsbD_eq
  intro i hi
  simp only [BitVec.getLsbD_and, BitVec.getLsbD_ushiftRight,
    BitVec.getLsbD_setWidth, BitVec.getLsbD_allOnes,
    BitVec.getLsbD_extractLsb', hi, decide_true, Bool.true_and, Bool.and_comm]

/-- Two neighbouring fields in place are one. -/
theorem inPlace_append {start highWidth lowWidth : ℕ} (high : BitVec highWidth)
    (low : BitVec lowWidth) :
    inPlace n start (high ++ low) =
      inPlace n (start + lowWidth) high ||| inPlace n start low := by
  apply BitVec.eq_of_getLsbD_eq
  intro i hi
  rw [BitVec.getLsbD_or, getLsbD_inPlace hi, getLsbD_inPlace hi,
    getLsbD_inPlace hi, BitVec.getLsbD_append]
  by_cases hlow : i - start < lowWidth
  · have hhigh : ¬start + lowWidth ≤ i ∨ ¬start ≤ i := by omega
    rcases hhigh with hhigh | hstart
    · simp [hlow, hhigh]
    · have hhigh : ¬start + lowWidth ≤ i := by omega
      simp [hhigh, hstart]
  · have hout : low.getLsbD (i - start) = false :=
      BitVec.getLsbD_of_ge _ _ (not_lt.mp hlow)
    by_cases hstart : start + lowWidth ≤ i
    · have hbelow : start ≤ i := by omega
      simp [hlow, hstart, hbelow, hout, Nat.sub_sub]
    · have hbelow : ¬start ≤ i := by omega
      simp [hstart, hbelow]

/-- A field moved to the bottom, masked, and moved up to its place. -/
theorem shift_and_shift {start width place : ℕ} (word : BitVec n) :
    (word >>> start &&& (BitVec.allOnes width).setWidth n) <<< place =
      inPlace n place (word.extractLsb' start width) := by
  rw [shift_and_allOnes]
  rfl

/-- The highest field needs no mask. -/
theorem shift_eq_top {start width : ℕ} (word : BitVec n)
    (hfit : n ≤ start + width) :
    word >>> start = (word.extractLsb' start width).setWidth n := by
  apply BitVec.eq_of_getLsbD_eq
  intro i hi
  rw [BitVec.getLsbD_ushiftRight, BitVec.getLsbD_setWidth,
    BitVec.getLsbD_extractLsb']
  by_cases hinside : i < width
  · simp [hi, hinside]
  · have hout : word.getLsbD (start + i) = false :=
      BitVec.getLsbD_of_ge _ _ (by omega)
    simp [hinside, hout]

theorem setWidth_inj {width : ℕ} {first second : BitVec width}
    (hfit : width ≤ n) :
    first.setWidth n = second.setWidth n ↔ first = second := by
  constructor
  · intro hwide
    have hnarrow := congrArg (BitVec.setWidth width) hwide
    rwa [BitVec.setWidth_setWidth_of_le _ hfit,
      BitVec.setWidth_setWidth_of_le _ hfit, BitVec.setWidth_eq,
      BitVec.setWidth_eq] at hnarrow
  · intro hsame
    rw [hsame]

/-- A test of a field moved to the bottom. -/
theorem shift_and_eq_iff {start width : ℕ} {word : BitVec n}
    {value : BitVec width} (hfit : width ≤ n) :
    word >>> start &&& (BitVec.allOnes width).setWidth n = value.setWidth n ↔
      word.extractLsb' start width = value := by
  rw [shift_and_allOnes, setWidth_inj hfit]

/-! ## Sign extension -/

theorem xor_two_pow {value k : ℕ} (hvalue : value < 2 ^ (k + 1)) :
    value ^^^ 2 ^ k =
      if value < 2 ^ k then value + 2 ^ k else value - 2 ^ k := by
  have hpositive := Nat.two_pow_pos k
  have hsplit := Nat.div_add_mod (value ^^^ 2 ^ k) (2 ^ k)
  rw [Nat.xor_div_two_pow, Nat.xor_mod_two_pow, Nat.div_self hpositive,
    Nat.mod_self, Nat.xor_zero] at hsplit
  have hvalueSplit := Nat.div_add_mod value (2 ^ k)
  have hlow := Nat.mod_lt value hpositive
  rw [← hsplit]
  split_ifs with hsmall
  · rw [Nat.div_eq_of_lt hsmall, Nat.zero_xor, Nat.mul_one,
      Nat.mod_eq_of_lt hsmall, Nat.add_comm]
  · have hone : value / 2 ^ k = 1 := by
      rw [Nat.div_eq_iff hpositive]
      rw [pow_succ] at hvalue
      omega
    rw [hone] at hvalueSplit
    rw [hone, Nat.xor_self, Nat.mul_zero, Nat.zero_add]
    omega

/-- Flipping the sign bit and subtracting it again extends the sign. -/
theorem xor_sub_eq_signExtend {k : ℕ} (value : BitVec (k + 1)) (hfit : k < n) :
    (value.setWidth n ^^^ BitVec.twoPow n k) - BitVec.twoPow n k =
      value.signExtend n := by
  have hvalue := value.isLt
  have hwide : 2 ^ (k + 1) ≤ 2 ^ n := Nat.pow_le_pow_right (by decide) hfit
  have hsign : (BitVec.twoPow n k).toNat = 2 ^ k := by
    rw [BitVec.toNat_twoPow]
    exact Nat.mod_eq_of_lt (Nat.pow_lt_pow_right (by decide) hfit)
  have hpow : 2 ^ (k + 1) = 2 * 2 ^ k := by
    rw [pow_succ, Nat.mul_comm]
  apply BitVec.eq_of_toNat_eq
  rw [BitVec.toNat_sub, BitVec.toNat_xor, hsign, BitVec.toNat_setWidth,
    Nat.mod_eq_of_lt (hvalue.trans_le hwide), xor_two_pow hvalue,
    BitVec.toNat_signExtend, BitVec.toNat_setWidth,
    Nat.mod_eq_of_lt (hvalue.trans_le hwide), BitVec.msb_eq_decide]
  simp only [Nat.add_sub_cancel, decide_eq_true_eq]
  by_cases hnegative : 2 ^ k ≤ value.toNat
  · rw [if_neg (not_lt.mpr hnegative), if_pos hnegative]
    rw [Nat.mod_eq_of_lt (by omega)]
    omega
  · rw [if_pos (not_le.mp hnegative), if_neg hnegative]
    have hsum : 2 ^ n - 2 ^ k + (value.toNat + 2 ^ k) =
        value.toNat + 2 ^ n := by omega
    rw [hsum, Nat.add_mod_right, Nat.mod_eq_of_lt (by omega)]
    rfl

theorem signExtend_inj {width : ℕ} {first second : BitVec width}
    (hfit : width ≤ n) :
    first.signExtend n = second.signExtend n ↔ first = second := by
  constructor
  · intro hwide
    apply BitVec.eq_of_getLsbD_eq
    intro i hi
    have hbit := congrArg (fun bits => bits.getLsbD i) hwide
    simp only [BitVec.getLsbD_signExtend, hi, hi.trans_le hfit, decide_true,
      Bool.true_and, if_true] at hbit
    exact hbit
  · intro hsame
    rw [hsame]

/-- Extending the sign and then doubling is extending the doubled number. -/
theorem signExtend_shiftLeft_one {width : ℕ} (value : BitVec width)
    (hvalue : 0 < width) :
    value.signExtend n <<< 1 = (value ++ 0#1).signExtend n := by
  have hmsb : (value ++ 0#1).msb = value.msb := by
    rw [BitVec.msb_append, if_neg hvalue.ne']
  apply BitVec.eq_of_getLsbD_eq
  intro i hi
  rw [BitVec.getLsbD_shiftLeft, BitVec.getLsbD_signExtend,
    BitVec.getLsbD_signExtend, BitVec.getLsbD_append, hmsb]
  by_cases hlowest : i < 1
  · have hinside : i < width + 1 := by omega
    simp [hi, hlowest, hinside]
  · have hprevious : i - 1 < n := by omega
    have hcompare : i - 1 < width ↔ i < width + 1 := by omega
    simp [hi, hlowest, hprevious, hcompare]

end BitFields
