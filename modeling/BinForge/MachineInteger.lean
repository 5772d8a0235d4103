import Mathlib

/-!
# Fixed-width integers and their byte digits

Linear orders on the machine words used as map keys, and the positional
reading of a byte list.  A word written byte by byte from its low end and read
back by shifting is the same number; the two directions are proved once here
for every width, through the base-256 digits of Mathlib's `Nat.ofDigits`.
-/

namespace MachineInteger

instance linearOrderUInt8 : LinearOrder UInt8 where
  le_refl := UInt8.le_refl
  le_trans _ _ _ := UInt8.le_trans
  le_antisymm _ _ := UInt8.le_antisymm
  le_total := UInt8.le_total
  toDecidableLE := inferInstance
  lt_iff_le_not_ge := Std.LawfulOrderLT.lt_iff
  min_def _ _ := rfl
  max_def _ _ := rfl

instance linearOrderUInt64 : LinearOrder UInt64 where
  le_refl := UInt64.le_refl
  le_trans _ _ _ := UInt64.le_trans
  le_antisymm _ _ := UInt64.le_antisymm
  le_total := UInt64.le_total
  toDecidableLE := inferInstance
  lt_iff_le_not_ge := Std.LawfulOrderLT.lt_iff
  min_def _ _ := rfl
  max_def _ _ := rfl

/-- A decidable statement about bytes is checked on all of them. -/
theorem forall_uInt8 {p : UInt8 → Prop} (h : ∀ bits : BitVec 8, p ⟨bits⟩)
    (value : UInt8) : p value :=
  h value.toBitVec

/-! ## Positional value of a byte list -/

/-- The number whose base-256 digits, least significant first, are `bytes`. -/
def littleValue (bytes : List UInt8) : ℕ :=
  Nat.ofDigits 256 (bytes.map UInt8.toNat)

/-- The `width` low base-256 digits of `n`, least significant first. -/
def littleBytes : ℕ → ℕ → List UInt8
  | 0, _ => []
  | width + 1, n => UInt8.ofNat n :: littleBytes width (n / 256)

@[simp] theorem littleValue_nil : littleValue [] = 0 := rfl

@[simp] theorem littleValue_cons (byte : UInt8) (bytes : List UInt8) :
    littleValue (byte :: bytes) = byte.toNat + 256 * littleValue bytes := by
  simp [littleValue, Nat.ofDigits_cons]

theorem littleValue_lt (bytes : List UInt8) :
    littleValue bytes < 256 ^ bytes.length := by
  induction bytes with
  | nil => simp
  | cons byte bytes ih =>
      have hbyte : byte.toNat < 256 := byte.toNat_lt
      rw [littleValue_cons, List.length_cons, Nat.pow_succ]
      omega

@[simp] theorem littleBytes_length (width n : ℕ) :
    (littleBytes width n).length = width := by
  induction width generalizing n with
  | zero => rfl
  | succ width ih => simp [littleBytes, ih]

theorem littleValue_littleBytes (width n : ℕ) :
    littleValue (littleBytes width n) = n % 256 ^ width := by
  induction width generalizing n with
  | zero => simp [littleBytes, Nat.mod_one]
  | succ width ih =>
      rw [littleBytes, littleValue_cons, ih, Nat.pow_succ, Nat.mul_comm _ 256,
        Nat.mod_mul]
      simp [UInt8.toNat_ofNat']

theorem littleValue_littleBytes_of_lt {width n : ℕ} (hn : n < 256 ^ width) :
    littleValue (littleBytes width n) = n := by
  rw [littleValue_littleBytes, Nat.mod_eq_of_lt hn]

theorem littleBytes_littleValue (bytes : List UInt8) :
    littleBytes bytes.length (littleValue bytes) = bytes := by
  induction bytes with
  | nil => rfl
  | cons byte bytes ih =>
      have hbyte : byte.toNat < 256 := byte.toNat_lt
      have hdiv : (byte.toNat + 256 * littleValue bytes) / 256 =
          littleValue bytes := by omega
      have hmod : UInt8.ofNat (byte.toNat + 256 * littleValue bytes) = byte := by
        apply UInt8.toNat_inj.mp
        rw [UInt8.toNat_ofNat']
        omega
      rw [List.length_cons, littleBytes, littleValue_cons, hdiv, hmod, ih]

theorem littleBytes_eq_replicate_zero (width : ℕ) :
    littleBytes width 0 = List.replicate width 0 := by
  induction width with
  | zero => rfl
  | succ width ih => simp [littleBytes, ih, List.replicate_succ]

theorem littleBytes_eq_map (width n : ℕ) :
    littleBytes width n =
      (List.range width).map fun i => UInt8.ofNat (n / 256 ^ i) := by
  induction width generalizing n with
  | zero => rfl
  | succ width ih =>
      rw [littleBytes, ih, List.range_succ_eq_map, List.map_cons, List.map_map,
        Nat.pow_zero, Nat.div_one]
      congr 1
      refine List.map_congr_left fun i _ => ?_
      rw [Function.comp_apply, Nat.pow_succ', Nat.div_div_eq_div_mul]

/-! ## The bytes of a word, by shifting -/

theorem shiftRight64_toUInt8 (value : UInt64) {i : ℕ} (hi : i < 8) :
    (value >>> UInt64.ofNat (i * 8)).toUInt8 =
      UInt8.ofNat (value.toNat / 256 ^ i) := by
  apply UInt8.toNat_inj.mp
  have hshift : (UInt64.ofNat (i * 8)).toNat = i * 8 :=
    UInt64.toNat_ofNat_of_lt' (by show _ < 2 ^ 64; omega)
  have hsmall : i * 8 % 64 = i * 8 := Nat.mod_eq_of_lt (by omega)
  have hpow : 2 ^ (i * 8) = 256 ^ i := by
    rw [Nat.mul_comm, Nat.pow_mul]
  rw [UInt64.toNat_toUInt8, UInt64.toNat_shiftRight, hshift, hsmall,
    Nat.shiftRight_eq_div_pow, hpow, UInt8.toNat_ofNat']

theorem shiftRight32_toUInt8 (value : UInt32) {i : ℕ} (hi : i < 4) :
    (value >>> UInt32.ofNat (i * 8)).toUInt8 =
      UInt8.ofNat (value.toNat / 256 ^ i) := by
  apply UInt8.toNat_inj.mp
  have hshift : (UInt32.ofNat (i * 8)).toNat = i * 8 :=
    UInt32.toNat_ofNat_of_lt' (by show _ < 2 ^ 32; omega)
  have hsmall : i * 8 % 32 = i * 8 := Nat.mod_eq_of_lt (by omega)
  have hpow : 2 ^ (i * 8) = 256 ^ i := by
    rw [Nat.mul_comm, Nat.pow_mul]
  rw [UInt32.toNat_toUInt8, UInt32.toNat_shiftRight, hshift, hsmall,
    Nat.shiftRight_eq_div_pow, hpow, UInt8.toNat_ofNat']

/-! ## Shifting a word together from its bytes

The most significant byte comes first, as in `value = (value << 8) | byte`. -/

def shiftIn64 (value : UInt64) (byte : UInt8) : UInt64 :=
  (value <<< 8) ||| byte.toUInt64

def shiftIn32 (value : UInt32) (byte : UInt8) : UInt32 :=
  (value <<< 8) ||| byte.toUInt32

private theorem shiftLeft_or_eq_add {high byte : ℕ} (hbyte : byte < 256) :
    high <<< 8 ||| byte = 256 * high + byte := by
  rw [← Nat.shiftLeft_add_eq_or_of_lt (i := 8) (by simpa using hbyte),
    Nat.shiftLeft_eq]
  omega

/-- Two bytes joined to a 16-bit word. -/
theorem joinBytes_toNat (low high : UInt8) :
    (low.toUInt16 ||| (high.toUInt16 <<< 8)).toNat =
      256 * high.toNat + low.toNat := by
  have hlow : low.toNat < 256 := low.toNat_lt
  have hhigh : high.toNat < 256 := high.toNat_lt
  have hshift : (high.toUInt16 <<< 8).toNat = high.toNat <<< 8 := by
    rw [UInt16.toNat_shiftLeft, UInt8.toNat_toUInt16]
    simp only [UInt16.reduceToNat, Nat.reduceMod, Nat.shiftLeft_eq]
    omega
  rw [UInt16.toNat_or, hshift, UInt8.toNat_toUInt16, Nat.or_comm,
    shiftLeft_or_eq_add hlow]

theorem shiftIn64_toNat {value : UInt64} (byte : UInt8)
    (hvalue : value.toNat < 2 ^ 56) :
    (shiftIn64 value byte).toNat = 256 * value.toNat + byte.toNat := by
  have hbyte : byte.toNat < 256 := byte.toNat_lt
  have hshift : (value <<< 8).toNat = value.toNat <<< 8 := by
    rw [UInt64.toNat_shiftLeft]
    simp only [UInt64.reduceToNat, Nat.reduceMod]
    rw [Nat.shiftLeft_eq]
    omega
  rw [shiftIn64, UInt64.toNat_or, hshift, UInt8.toNat_toUInt64,
    shiftLeft_or_eq_add hbyte]

theorem shiftIn32_toNat {value : UInt32} (byte : UInt8)
    (hvalue : value.toNat < 2 ^ 24) :
    (shiftIn32 value byte).toNat = 256 * value.toNat + byte.toNat := by
  have hbyte : byte.toNat < 256 := byte.toNat_lt
  have hshift : (value <<< 8).toNat = value.toNat <<< 8 := by
    rw [UInt32.toNat_shiftLeft]
    simp only [UInt32.reduceToNat, Nat.reduceMod]
    rw [Nat.shiftLeft_eq]
    omega
  rw [shiftIn32, UInt32.toNat_or, hshift, UInt8.toNat_toUInt32,
    shiftLeft_or_eq_add hbyte]

/-- Bits above the ones a word has are added to it, modulo `2 ^ 64`. -/
theorem or_shiftLeft_toNat {value payload shift : UInt64}
    (hshift : shift.toNat < 64) (hvalue : value.toNat < 2 ^ shift.toNat) :
    (value ||| (payload <<< shift)).toNat =
      (value.toNat + payload.toNat * 2 ^ shift.toNat) % 2 ^ 64 := by
  obtain ⟨rest, hrest⟩ : ∃ rest, 64 = rest + shift.toNat :=
    ⟨64 - shift.toNat, by omega⟩
  have hwhole : (2 : ℕ) ^ 64 = 2 ^ rest * 2 ^ shift.toNat := by
    rw [← pow_add, ← hrest]
  have hlow := Nat.mod_lt payload.toNat (Nat.two_pow_pos rest)
  have hfit : value.toNat + payload.toNat % 2 ^ rest * 2 ^ shift.toNat <
      2 ^ 64 := by
    have hmul := Nat.mul_le_mul_right (2 ^ shift.toNat)
      (Nat.succ_le_of_lt hlow)
    rw [Nat.succ_mul, ← hwhole] at hmul
    omega
  have hpayload : (payload <<< shift).toNat =
      payload.toNat % 2 ^ rest * 2 ^ shift.toNat := by
    rw [UInt64.toNat_shiftLeft, Nat.mod_eq_of_lt hshift, Nat.shiftLeft_eq,
      hwhole, Nat.mul_mod_mul_right]
  rw [UInt64.toNat_or, hpayload, Nat.or_comm, ← Nat.shiftLeft_eq,
    ← Nat.shiftLeft_add_eq_or_of_lt hvalue, Nat.shiftLeft_eq, Nat.add_comm,
    ← Nat.mod_eq_of_lt hfit, ← Nat.mul_mod_mul_right, ← hwhole,
    Nat.add_mod_mod]

/-- At most eight bytes, shifted in from the last one, make their value. -/
theorem foldr_shiftIn64_toNat {bytes : List UInt8} (hlength : bytes.length ≤ 8) :
    (bytes.foldr (fun byte value => shiftIn64 value byte) 0).toNat =
      littleValue bytes := by
  induction bytes with
  | nil => rfl
  | cons byte bytes ih =>
      rw [List.length_cons] at hlength
      have hrest := ih (by omega)
      have hsmall : littleValue bytes < 2 ^ 56 := by
        calc littleValue bytes < 256 ^ bytes.length := littleValue_lt bytes
          _ ≤ 256 ^ 7 := Nat.pow_le_pow_right (by decide) (by omega)
          _ = 2 ^ 56 := by norm_num
      rw [List.foldr_cons, shiftIn64_toNat byte (by rw [hrest]; exact hsmall),
        hrest, littleValue_cons]
      omega

theorem foldr_shiftIn32_toNat {bytes : List UInt8} (hlength : bytes.length ≤ 4) :
    (bytes.foldr (fun byte value => shiftIn32 value byte) 0).toNat =
      littleValue bytes := by
  induction bytes with
  | nil => rfl
  | cons byte bytes ih =>
      rw [List.length_cons] at hlength
      have hrest := ih (by omega)
      have hsmall : littleValue bytes < 2 ^ 24 := by
        calc littleValue bytes < 256 ^ bytes.length := littleValue_lt bytes
          _ ≤ 256 ^ 3 := Nat.pow_le_pow_right (by decide) (by omega)
          _ = 2 ^ 24 := by norm_num
      rw [List.foldr_cons, shiftIn32_toNat byte (by rw [hrest]; exact hsmall),
        hrest, littleValue_cons]
      omega

/-- The room a limit leaves, reckoned in 64 bits, is the true one. -/
theorem room_toNat {limit : UInt32} {used : ℕ} (hused : used ≤ limit.toNat) :
    (limit.toUInt64 - UInt64.ofNat used).toNat = limit.toNat - used := by
  have hbound := limit.toNat_lt
  have hlength : (UInt64.ofNat used).toNat = used :=
    UInt64.toNat_ofNat_of_lt' (by show _ < 2 ^ 64; omega)
  rw [UInt64.toNat_sub_of_le _ _ (by
    rw [UInt64.le_iff_toNat_le, hlength, UInt32.toNat_toUInt64]
    exact hused), hlength, UInt32.toNat_toUInt64]

/-- A place in a table, reckoned in 64 bits, is never behind the true one. -/
theorem place_le (base stride : UInt64) (index : ℕ) :
    (base + UInt64.ofNat index * stride).toNat ≤
      base.toNat + index * stride.toNat := by
  have hindex : (UInt64.ofNat index).toNat ≤ index := by
    rw [UInt64.toNat_ofNat']
    exact Nat.mod_le _ _
  calc (base + UInt64.ofNat index * stride).toNat
      ≤ base.toNat + (UInt64.ofNat index * stride).toNat := by
        rw [UInt64.toNat_add]
        exact Nat.mod_le _ _
    _ ≤ base.toNat + (UInt64.ofNat index).toNat * stride.toNat := by
        rw [UInt64.toNat_mul]
        exact Nat.add_le_add_left (Nat.mod_le _ _) _
    _ ≤ base.toNat + index * stride.toNat :=
        Nat.add_le_add_left (Nat.mul_le_mul_right _ hindex) _

/-- Without a wrap it is the true one. -/
theorem place_eq {base stride : UInt64} {index : ℕ} (hindex : index < 2 ^ 64)
    (hfit : base.toNat + index * stride.toNat < 2 ^ 64) :
    (base + UInt64.ofNat index * stride).toNat =
      base.toNat + index * stride.toNat := by
  rw [UInt64.toNat_add, UInt64.toNat_mul, UInt64.toNat_ofNat_of_lt' hindex,
    Nat.mod_eq_of_lt (Nat.lt_of_le_of_lt (Nat.le_add_left _ _) hfit),
    Nat.mod_eq_of_lt hfit]

end MachineInteger
