import BinForge.Scanners

/-!
# Decoding and encoding UTF-8

The scanner decodes a sequence of bytes to a code point and encodes it again.
What it accepts is the encoding of a character, with the shortest length and
without surrogates, and what it writes is that same encoding.
-/

namespace BinForge

open MachineInteger
open ListSplice

/-! ## Bytes and code points as numbers -/

theorem continuation_toNat (byte : UInt8) (hbyte : byte &&& 0xc0 = 0x80) :
    128 ≤ byte.toNat ∧ byte.toNat < 192 ∧
      (byte &&& 0x3f).toNat = byte.toNat - 128 := by
  revert byte
  apply forall_uInt8
  decide +kernel

theorem leadTwo_toNat (byte : UInt8) (hbyte : byte &&& 0xe0 = 0xc0) :
    192 ≤ byte.toNat ∧ byte.toNat < 224 ∧
      (byte &&& 0x1f).toNat = byte.toNat - 192 := by
  revert byte
  apply forall_uInt8
  decide +kernel

theorem leadThree_toNat (byte : UInt8) (hbyte : byte &&& 0xf0 = 0xe0) :
    224 ≤ byte.toNat ∧ byte.toNat < 240 ∧
      (byte &&& 0x0f).toNat = byte.toNat - 224 := by
  revert byte
  apply forall_uInt8
  decide +kernel

theorem leadFour_toNat (byte : UInt8) (hbyte : byte &&& 0xf8 = 0xf0) :
    240 ≤ byte.toNat ∧ byte.toNat < 248 ∧
      (byte &&& 0x07).toNat = byte.toNat - 240 := by
  revert byte
  apply forall_uInt8
  decide +kernel

/-- The bits that follow a leading byte, one byte after the other. -/
def pushBits (point : UInt32) (byte : UInt8) : UInt32 :=
  (point <<< 6) ||| (byte &&& 0x3f).toUInt32

theorem pushBits_toNat {point : UInt32} {byte : UInt8}
    (hpoint : point.toNat < 2 ^ 26) (hbyte : byte &&& 0xc0 = 0x80) :
    (pushBits point byte).toNat = point.toNat * 64 + (byte.toNat - 128) := by
  obtain ⟨hlower, hupper, hbits⟩ := continuation_toNat byte hbyte
  have hshift : (point <<< 6).toNat = 2 ^ 6 * point.toNat := by
    rw [UInt32.toNat_shiftLeft]
    have hsix : (6 : UInt32).toNat % 32 = 6 := by decide
    rw [hsix, Nat.shiftLeft_eq, Nat.mod_eq_of_lt (by omega), Nat.mul_comm]
  rw [pushBits, UInt32.toNat_or, hshift, UInt8.toNat_toUInt32, hbits,
    ← Nat.two_pow_add_eq_or_of_lt (by omega)]
  omega

/-- Six bits of a code point in a continuation byte. -/
theorem tail_eq (point shift : UInt32) (hshift : shift.toNat < 32) :
    ((0x80 : UInt32) ||| ((point >>> shift) &&& 0x3f)).toUInt8 =
      UInt8.ofNat (point.toNat / 2 ^ shift.toNat % 64 + 128) := by
  have hlow := Nat.mod_lt (point.toNat / 2 ^ shift.toNat)
    (show 0 < 64 by decide)
  apply UInt8.toNat_inj.mp
  rw [UInt32.toNat_toUInt8, UInt32.toNat_or, UInt32.toNat_and,
    UInt32.toNat_shiftRight, Nat.mod_eq_of_lt hshift, Nat.shiftRight_eq_div_pow,
    UInt8.toNat_ofNat']
  have hmask : (0x3f : UInt32).toNat = 2 ^ 6 - 1 := by decide
  have hmark : (0x80 : UInt32).toNat = 2 ^ 7 * 1 := by decide
  rw [hmask, Nat.and_two_pow_sub_one_eq_mod, hmark,
    ← Nat.two_pow_add_eq_or_of_lt (by omega)]
  omega

/-- The high bits of a code point in a leading byte. -/
theorem lead_eq {point shift mark : UInt32} (width count : ℕ)
    (hshift : shift.toNat < 32) (hmark : mark.toNat = 2 ^ width * count)
    (hpoint : point.toNat / 2 ^ shift.toNat < 2 ^ width) :
    (mark ||| (point >>> shift)).toUInt8 =
      UInt8.ofNat (point.toNat / 2 ^ shift.toNat + mark.toNat) := by
  apply UInt8.toNat_inj.mp
  rw [UInt32.toNat_toUInt8, UInt32.toNat_or, UInt32.toNat_shiftRight,
    Nat.mod_eq_of_lt hshift, Nat.shiftRight_eq_div_pow, UInt8.toNat_ofNat',
    hmark, ← Nat.two_pow_add_eq_or_of_lt hpoint, Nat.add_comm]

/-! ## Encoding -/

/-- The bytes of a code point. -/
def encodedValue (value : ℕ) : Bytes :=
  if value ≤ 0x7f then [UInt8.ofNat value]
  else if value ≤ 0x7ff then
    [UInt8.ofNat (value / 64 % 32 + 0xc0), UInt8.ofNat (value % 64 + 0x80)]
  else if value ≤ 0xffff then
    [UInt8.ofNat (value / 4096 % 16 + 0xe0),
      UInt8.ofNat (value / 64 % 64 + 0x80), UInt8.ofNat (value % 64 + 0x80)]
  else
    [UInt8.ofNat (value / 262144 % 8 + 0xf0),
      UInt8.ofNat (value / 4096 % 64 + 0x80),
      UInt8.ofNat (value / 64 % 64 + 0x80), UInt8.ofNat (value % 64 + 0x80)]

theorem utf8EncodeChar_eq (character : Char) :
    String.utf8EncodeChar character = encodedValue character.val.toNat := rfl

theorem tail_zero (point : UInt32) :
    ((0x80 : UInt32) ||| ((point >>> 0) &&& 0x3f)).toUInt8 =
      UInt8.ofNat (point.toNat % 64 + 0x80) := by
  have htail := tail_eq point 0 (by decide)
  have hzero : (0 : UInt32).toNat = 0 := by decide
  rwa [hzero, Nat.pow_zero, Nat.div_one] at htail

theorem tail_six (point : UInt32) :
    ((0x80 : UInt32) ||| ((point >>> 6) &&& 0x3f)).toUInt8 =
      UInt8.ofNat (point.toNat / 64 % 64 + 0x80) :=
  tail_eq point 6 (by decide)

theorem tail_twelve (point : UInt32) :
    ((0x80 : UInt32) ||| ((point >>> 12) &&& 0x3f)).toUInt8 =
      UInt8.ofNat (point.toNat / 4096 % 64 + 0x80) :=
  tail_eq point 12 (by decide)

/-- The scanner writes a code point as it is encoded. -/
theorem appendUtf8_eq (output : Bytes) {point : UInt32}
    (hpoint : point.toNat < 0x110000) :
    appendUtf8 output point = output ++ encodedValue point.toNat := by
  unfold appendUtf8 encodedValue
  by_cases hone : point.toNat ≤ 0x7f
  · have hbelow : point < 0x80 := UInt32.lt_iff_toNat_lt.mpr (by simp; omega)
    rw [if_pos hbelow, if_pos hone]
    rfl
  · have habove : ¬point < 0x80 := by
      rw [UInt32.lt_iff_toNat_lt]
      simp
      omega
    rw [if_neg habove, if_neg hone]
    by_cases htwo : point.toNat ≤ 0x7ff
    · have hbelow : point < 0x800 := UInt32.lt_iff_toNat_lt.mpr (by simp; omega)
      have hlead : ((0xc0 : UInt32) ||| (point >>> 6)).toUInt8 =
          UInt8.ofNat (point.toNat / 64 + 0xc0) :=
        lead_eq 6 3 (by decide) (by decide)
          (by simp; omega)
      have hbits : point.toNat / 64 % 32 = point.toNat / 64 :=
        Nat.mod_eq_of_lt (by omega)
      rw [if_pos hbelow, if_pos htwo]
      simp only [hlead, tail_zero, hbits]
    · have habove : ¬point < 0x800 := by
        rw [UInt32.lt_iff_toNat_lt]
        simp
        omega
      rw [if_neg habove, if_neg htwo]
      by_cases hthree : point.toNat ≤ 0xffff
      · have hbelow : point < 0x10000 :=
          UInt32.lt_iff_toNat_lt.mpr (by simp; omega)
        have hlead : ((0xe0 : UInt32) ||| (point >>> 12)).toUInt8 =
            UInt8.ofNat (point.toNat / 4096 + 0xe0) :=
          lead_eq 5 7 (by decide) (by decide)
            (by simp; omega)
        have hbits : point.toNat / 4096 % 16 = point.toNat / 4096 :=
          Nat.mod_eq_of_lt (by omega)
        rw [if_pos hbelow, if_pos hthree]
        simp only [hlead, tail_six, tail_zero, hbits]
      · have habove : ¬point < 0x10000 := by
          rw [UInt32.lt_iff_toNat_lt]
          simp
          omega
        have hlead : ((0xf0 : UInt32) ||| (point >>> 18)).toUInt8 =
            UInt8.ofNat (point.toNat / 262144 + 0xf0) :=
          lead_eq 4 15 (by decide) (by decide)
            (by simp; omega)
        have hbits : point.toNat / 262144 % 8 = point.toNat / 262144 :=
          Nat.mod_eq_of_lt (by omega)
        rw [if_neg habove, if_neg hthree]
        simp only [hlead, tail_twelve, tail_six, tail_zero, hbits]

/-! ## Decoding -/

theorem asciiCharacter_lt {byte : UInt8} (hbyte : byte < 0x80) :
    byte.toNat ≤ 0x7f := by
  have hvalue := UInt8.lt_iff_toNat_lt.mp hbyte
  have hbound : (0x80 : UInt8).toNat = 128 := by decide
  omega

/-- What a leading byte says, as numbers. -/
theorem utf8Lead_cases {first : UInt8} {length : ℕ} {lead : UInt32}
    (hlead : utf8Lead first = some (length, lead)) :
    (length = 2 ∧ 2 ≤ lead.toNat ∧ lead.toNat < 32 ∧
        first.toNat = 192 + lead.toNat) ∨
      (length = 3 ∧ lead.toNat < 16 ∧ first.toNat = 224 + lead.toNat) ∨
        (length = 4 ∧ lead.toNat < 8 ∧ first.toNat = 240 + lead.toNat) := by
  simp only [utf8Lead] at hlead
  split_ifs at hlead with htwo hshort hthree hfour
  · cases hlead
    obtain ⟨hlower, hupper, hbits⟩ := leadTwo_toNat first htwo
    have hlong := UInt32.le_iff_toNat_le.mp (UInt32.not_lt.mp hshort)
    rw [UInt8.toNat_toUInt32, hbits] at hlong ⊢
    have hbound : (2 : UInt32).toNat = 2 := by decide
    left
    omega
  · cases hlead
    obtain ⟨hlower, hupper, hbits⟩ := leadThree_toNat first hthree
    rw [UInt8.toNat_toUInt32, hbits]
    right
    left
    omega
  · cases hlead
    obtain ⟨hlower, hupper, hbits⟩ := leadFour_toNat first hfour
    rw [UInt8.toNat_toUInt32, hbits]
    right
    right
    omega

theorem utf8Sequence_lead {data : Bytes} {length : ℕ} {point : UInt32}
    (hfirst : ¬data.getD 0 0 < 0x80)
    (hsequence : utf8Sequence data = some (length, point)) :
    ∃ lead, utf8Lead (data.getD 0 0) = some (length, lead) ∧
      point = (slice data 1 (length - 1)).foldl pushBits lead ∧
        length ≤ data.length ∧
          (∀ byte ∈ slice data 1 (length - 1), byte &&& 0xc0 = 0x80) ∧
            ¬((length = 3 ∧ point < 0x800) ∨ (length = 4 ∧ point < 0x10000) ∨
              point > 0x10ffff ∨ (point ≥ 0xd800 ∧ point ≤ 0xdfff)) := by
  simp only [utf8Sequence, if_neg hfirst] at hsequence
  cases hlead : utf8Lead (data.getD 0 0) with
  | none =>
      rw [hlead] at hsequence
      contradiction
  | some announced =>
      obtain ⟨announced, lead⟩ := announced
      rw [hlead] at hsequence
      simp only at hsequence
      split_ifs at hsequence with hlong htails hbad
      obtain ⟨rfl, rfl⟩ := Prod.mk.inj (Option.some.inj hsequence)
      refine ⟨lead, rfl, rfl, not_lt.mp hlong, ?_, hbad⟩
      rw [Bool.not_eq_false, List.all_eq_true] at htails
      intro byte hbyte
      exact beq_iff_eq.mp (htails byte hbyte)

theorem ofNat_eq {value : ℕ} {byte : UInt8} (hvalue : value = byte.toNat) :
    UInt8.ofNat value = byte := by
  rw [hvalue, UInt8.ofNat_toNat]

theorem encodedValue_two {first second : UInt8} {value lead : ℕ}
    (hlead : 2 ≤ lead ∧ lead < 32) (hfirst : first.toNat = 192 + lead)
    (hsecond : 128 ≤ second.toNat ∧ second.toNat < 192)
    (hvalue : value = lead * 64 + (second.toNat - 128)) :
    encodedValue value = [first, second] := by
  have hnotOne : ¬value ≤ 0x7f := by omega
  have htwo : value ≤ 0x7ff := by omega
  have hhigh : value / 64 % 32 + 0xc0 = first.toNat := by omega
  have hlow : value % 64 + 0x80 = second.toNat := by omega
  rw [encodedValue, if_neg hnotOne, if_pos htwo, ofNat_eq hhigh, ofNat_eq hlow]

theorem encodedValue_three {first second third : UInt8} {value lead : ℕ}
    (hlead : lead < 16) (hfirst : first.toNat = 224 + lead)
    (hsecond : 128 ≤ second.toNat ∧ second.toNat < 192)
    (hthird : 128 ≤ third.toNat ∧ third.toNat < 192)
    (hvalue : value = (lead * 64 + (second.toNat - 128)) * 64 +
      (third.toNat - 128)) (hlong : 0x800 ≤ value) :
    encodedValue value = [first, second, third] := by
  have hnotOne : ¬value ≤ 0x7f := by omega
  have hnotTwo : ¬value ≤ 0x7ff := by omega
  have hthree : value ≤ 0xffff := by omega
  have hhigh : value / 4096 % 16 + 0xe0 = first.toNat := by omega
  have hmiddle : value / 64 % 64 + 0x80 = second.toNat := by omega
  have hlow : value % 64 + 0x80 = third.toNat := by omega
  rw [encodedValue, if_neg hnotOne, if_neg hnotTwo, if_pos hthree,
    ofNat_eq hhigh, ofNat_eq hmiddle, ofNat_eq hlow]

theorem encodedValue_four {first second third fourth : UInt8} {value lead : ℕ}
    (hlead : lead < 8) (hfirst : first.toNat = 240 + lead)
    (hsecond : 128 ≤ second.toNat ∧ second.toNat < 192)
    (hthird : 128 ≤ third.toNat ∧ third.toNat < 192)
    (hfourth : 128 ≤ fourth.toNat ∧ fourth.toNat < 192)
    (hvalue : value = ((lead * 64 + (second.toNat - 128)) * 64 +
      (third.toNat - 128)) * 64 + (fourth.toNat - 128))
    (hlong : 0x10000 ≤ value) :
    encodedValue value = [first, second, third, fourth] := by
  have hnotOne : ¬value ≤ 0x7f := by omega
  have hnotTwo : ¬value ≤ 0x7ff := by omega
  have hnotThree : ¬value ≤ 0xffff := by omega
  have hhigh : value / 262144 % 8 + 0xf0 = first.toNat := by omega
  have hupper : value / 4096 % 64 + 0x80 = second.toNat := by omega
  have hlower : value / 64 % 64 + 0x80 = third.toNat := by omega
  have hlow : value % 64 + 0x80 = fourth.toNat := by omega
  rw [encodedValue, if_neg hnotOne, if_neg hnotTwo, if_neg hnotThree,
    ofNat_eq hhigh, ofNat_eq hupper, ofNat_eq hlower, ofNat_eq hlow]

theorem encoded_two {first second : UInt8} {lead : UInt32}
    (hlead : 2 ≤ lead.toNat ∧ lead.toNat < 32)
    (hfirst : first.toNat = 192 + lead.toNat)
    (hsecond : second &&& 0xc0 = 0x80) :
    encodedValue (pushBits lead second).toNat = [first, second] := by
  obtain ⟨hlower, hupper, -⟩ := continuation_toNat second hsecond
  have hpoint := pushBits_toNat (by omega : lead.toNat < 2 ^ 26) hsecond
  exact encodedValue_two hlead hfirst ⟨hlower, hupper⟩ hpoint

theorem encoded_three {first second third : UInt8} {lead : UInt32}
    (hlead : lead.toNat < 16) (hfirst : first.toNat = 224 + lead.toNat)
    (hsecond : second &&& 0xc0 = 0x80) (hthird : third &&& 0xc0 = 0x80)
    (hlong : ¬pushBits (pushBits lead second) third < 0x800) :
    encodedValue (pushBits (pushBits lead second) third).toNat =
      [first, second, third] := by
  obtain ⟨hlower, hupper, -⟩ := continuation_toNat second hsecond
  obtain ⟨hlowerThird, hupperThird, -⟩ := continuation_toNat third hthird
  have hpoint := pushBits_toNat (by omega : lead.toNat < 2 ^ 26) hsecond
  have hwhole := pushBits_toNat
    (by omega : (pushBits lead second).toNat < 2 ^ 26) hthird
  rw [hpoint] at hwhole
  exact encodedValue_three hlead hfirst ⟨hlower, hupper⟩
    ⟨hlowerThird, hupperThird⟩ hwhole
    (UInt32.le_iff_toNat_le.mp (UInt32.not_lt.mp hlong))

theorem encoded_four {first second third fourth : UInt8} {lead : UInt32}
    (hlead : lead.toNat < 8) (hfirst : first.toNat = 240 + lead.toNat)
    (hsecond : second &&& 0xc0 = 0x80) (hthird : third &&& 0xc0 = 0x80)
    (hfourth : fourth &&& 0xc0 = 0x80)
    (hlong : ¬pushBits (pushBits (pushBits lead second) third) fourth <
      0x10000) :
    encodedValue
        (pushBits (pushBits (pushBits lead second) third) fourth).toNat =
      [first, second, third, fourth] := by
  obtain ⟨hlower, hupper, -⟩ := continuation_toNat second hsecond
  obtain ⟨hlowerThird, hupperThird, -⟩ := continuation_toNat third hthird
  obtain ⟨hlowerFourth, hupperFourth, -⟩ := continuation_toNat fourth hfourth
  have hpoint := pushBits_toNat (by omega : lead.toNat < 2 ^ 26) hsecond
  have hnext := pushBits_toNat
    (by omega : (pushBits lead second).toNat < 2 ^ 26) hthird
  have hwhole := pushBits_toNat
    (by omega : (pushBits (pushBits lead second) third).toNat < 2 ^ 26) hfourth
  rw [hnext, hpoint] at hwhole
  exact encodedValue_four hlead hfirst ⟨hlower, hupper⟩
    ⟨hlowerThird, hupperThird⟩ ⟨hlowerFourth, hupperFourth⟩ hwhole
    (UInt32.le_iff_toNat_le.mp (UInt32.not_lt.mp hlong))

/-- A sequence the scanner accepts is the encoding of its code point. -/
theorem take_utf8Sequence {data : Bytes} {length : ℕ} {point : UInt32}
    (hsequence : utf8Sequence data = some (length, point)) :
    length ≤ data.length ∧ data.take length = encodedValue point.toNat := by
  by_cases hfirst : data.getD 0 0 < 0x80
  · simp only [utf8Sequence, if_pos hfirst] at hsequence
    split_ifs at hsequence with hcharacter
    obtain ⟨rfl, rfl⟩ := Prod.mk.inj (Option.some.inj hsequence)
    cases data with
    | nil => exact absurd hcharacter (by decide)
    | cons first rest =>
        have hone : first.toNat ≤ 0x7f := asciiCharacter_lt hfirst
        refine ⟨by simp, ?_⟩
        rw [UInt8.toNat_toUInt32, encodedValue, List.getD_cons_zero,
          if_pos hone, UInt8.ofNat_toNat]
        rfl
  · obtain ⟨lead, hlead, rfl, hlength, htails, hgood⟩ :=
      utf8Sequence_lead hfirst hsequence
    refine ⟨hlength, ?_⟩
    rcases utf8Lead_cases hlead with ⟨rfl, hvalue⟩ | ⟨rfl, hvalue⟩ |
      ⟨rfl, hvalue⟩
    · obtain _ | ⟨first, _ | ⟨second, rest⟩⟩ := data
      · simp at hlength
      · simp at hlength
      · have hsecond := htails second (by simp [slice])
        exact (encoded_two ⟨hvalue.1, hvalue.2.1⟩ hvalue.2.2 hsecond).symm
    · obtain _ | ⟨first, _ | ⟨second, _ | ⟨third, rest⟩⟩⟩ := data
      · simp at hlength
      · simp at hlength
      · simp at hlength
      · have hsecond := htails second (by simp [slice])
        have hthird := htails third (by simp [slice])
        apply Eq.symm
        apply encoded_three hvalue.1 hvalue.2 hsecond hthird
        exact fun hshort => hgood (Or.inl ⟨rfl, hshort⟩)
    · obtain _ | ⟨first, _ | ⟨second, _ | ⟨third, _ | ⟨fourth, rest⟩⟩⟩⟩ := data
      · simp at hlength
      · simp at hlength
      · simp at hlength
      · simp at hlength
      · have hsecond := htails second (by simp [slice])
        have hthird := htails third (by simp [slice])
        have hfourth := htails fourth (by simp [slice])
        apply Eq.symm
        apply encoded_four hvalue.1 hvalue.2 hsecond hthird hfourth
        exact fun hshort => hgood (Or.inr (Or.inl ⟨rfl, hshort⟩))

theorem isValidChar_utf8Sequence {data : Bytes} {length : ℕ} {point : UInt32}
    (hsequence : utf8Sequence data = some (length, point)) :
    point.toNat.isValidChar := by
  by_cases hfirst : data.getD 0 0 < 0x80
  · simp only [utf8Sequence, if_pos hfirst] at hsequence
    split_ifs at hsequence with hcharacter
    obtain ⟨-, rfl⟩ := Prod.mk.inj (Option.some.inj hsequence)
    have hone := asciiCharacter_lt hfirst
    left
    rw [UInt8.toNat_toUInt32]
    omega
  · obtain ⟨lead, -, -, -, -, hgood⟩ := utf8Sequence_lead hfirst hsequence
    rw [not_or, not_or, not_or] at hgood
    obtain ⟨-, -, hbound, hsurrogate⟩ := hgood
    have hupper := UInt32.le_iff_toNat_le.mp (UInt32.not_lt.mp hbound)
    have hmaximum : (0x10ffff : UInt32).toNat = 0x10ffff := by decide
    by_cases hlow : point.toNat < 0xd800
    · exact Or.inl hlow
    · right
      constructor
      · by_contra hbetween
        apply hsurrogate
        constructor
        · exact UInt32.le_iff_toNat_le.mpr (not_lt.mp hlow)
        · exact UInt32.le_iff_toNat_le.mpr (not_lt.mp hbetween)
      · omega

/-- What the scanner accepts is the encoding of a character, and it writes it
as it stands. -/
theorem exists_character {data : Bytes} {length : ℕ} {point : UInt32}
    (hsequence : utf8Sequence data = some (length, point)) :
    ∃ character : Char, length ≤ data.length ∧
      data.take length = String.utf8EncodeChar character ∧
        ∀ output, appendUtf8 output point =
          output ++ String.utf8EncodeChar character := by
  have hvalid := isValidChar_utf8Sequence hsequence
  obtain ⟨hlength, htake⟩ := take_utf8Sequence hsequence
  refine ⟨⟨point, hvalid⟩, hlength, ?_, ?_⟩
  · rw [htake, utf8EncodeChar_eq]
  · intro output
    rw [utf8EncodeChar_eq]
    apply appendUtf8_eq
    rcases hvalid with hlow | hhigh
    · omega
    · exact hhigh.2

end BinForge
