import BinForge.UnsignedLeb

/-!
# What the signed reader accepts

`read_sleb128` takes any encoding of at most ten bytes and returns its number
modulo the word.  Nine bytes always fit.  The tenth has room for the sign only,
and the check that `read_uleb128` makes there is missing.
-/

namespace BinForge

open StatefulExcept
open StreamCodec
open MachineInteger

/-! ## Signed encodings and their numbers -/

/-- The number of the low seven bits of each byte, less the weight above them
when the second highest bit of the last byte is set. -/
def slebValue (encoding : Bytes) : ℤ :=
  ulebValue encoding -
    if encoding.getLastD 0 &&& 0x40 = 0 then 0 else 128 ^ encoding.length

/-- No encoding of the number has fewer bytes. -/
def ShortestSleb (encoding : Bytes) (number : ℤ) : Prop :=
  UlebGroups encoding ∧ slebValue encoding = number ∧
    ∀ other, UlebGroups other → slebValue other = number →
      encoding.length ≤ other.length

theorem slebValue_singleton (byte : UInt8) :
    slebValue [byte] =
      if byte.toNat % 128 < 64 then ((byte.toNat % 128 : ℕ) : ℤ)
      else ((byte.toNat % 128 : ℕ) : ℤ) - 128 := by
  have hsign : byte &&& 0x40 = 0 ↔ byte.toNat % 128 < 64 := by
    rw [← not_iff_not, ← ne_eq, ByteReader.negative_iff, not_lt]
  simp only [slebValue, ulebValue_cons, ulebValue_nil, List.getLastD_cons,
    List.getLastD_nil, hsign, List.length_singleton]
  split_ifs <;> push_cast <;> ring

theorem slebValue_cons {rest : Bytes} (byte : UInt8) (hrest : rest ≠ []) :
    slebValue (byte :: rest) =
      ((byte.toNat % 128 : ℕ) : ℤ) + 128 * slebValue rest := by
  obtain ⟨second, rest, rfl⟩ := List.exists_cons_of_ne_nil hrest
  rw [slebValue, slebValue, ulebValue_cons byte, List.getLastD_cons,
    List.getLastD_cons, List.getLastD_cons, List.length_cons]
  split_ifs <;> push_cast <;> ring

/-- The last byte stands above all the others. -/
theorem slebValue_append (front : Bytes) (last : UInt8) :
    slebValue (front ++ [last]) =
      ulebValue front + 128 ^ front.length * slebValue [last] := by
  induction front with
  | nil => simp
  | cons byte front ih =>
      rw [List.cons_append, slebValue_cons byte (by simp), ih, ulebValue_cons,
        List.length_cons]
      push_cast
      ring

theorem ulebValue_lt (encoding : Bytes) :
    ulebValue encoding < 128 ^ encoding.length := by
  rw [ulebValue_eq_ofDigits]
  have hdigits := @Nat.ofDigits_lt_base_pow_length 128
    (encoding.map fun byte => byte.toNat % 128) (by decide) (by
      intro digit hdigit
      obtain ⟨byte, -, rfl⟩ := List.mem_map.mp hdigit
      exact Nat.mod_lt _ (by decide))
  rwa [List.length_map] at hdigits

theorem slebValue_singleton_bounds (last : UInt8) :
    -64 ≤ slebValue [last] ∧ slebValue [last] < 64 := by
  rw [slebValue_singleton]
  split_ifs <;> omega

/-- The last byte is all zeros or all ones below the top bit. -/
theorem slebValue_singleton_sign {last : UInt8} (hends : last &&& 0x80 = 0) :
    -1 ≤ slebValue [last] ∧ slebValue [last] < 1 ↔ last = 0 ∨ last = 0x7f := by
  have hsmall : last.toNat < 128 := by
    by_contra hlarge
    exact (ByteReader.continues_iff last).mpr (by omega) hends
  rw [slebValue_singleton, ← UInt8.toNat_inj, ← UInt8.toNat_inj]
  show _ ↔ last.toNat = 0 ∨ last.toNat = 127
  split_ifs <;> omega

theorem UlebGroups.last_ends {front : Bytes} {last : UInt8}
    (hgroups : UlebGroups (front ++ [last])) : last &&& 0x80 = 0 := by
  induction front with
  | nil =>
      rcases hgroups with ⟨hends, -⟩ | ⟨-, hnone⟩
      · exact hends
      · exact hnone.elim
  | cons byte front ih =>
      rcases hgroups with ⟨-, hnone⟩ | ⟨-, hgroups⟩
      · simp at hnone
      · exact ih hgroups

/-- One encoding does not begin another. -/
theorem UlebGroups.eq_of_prefix {first second items : Bytes}
    (hfirst : UlebGroups first) (hsecond : UlebGroups second)
    (haheadFirst : first <+: items) (haheadSecond : second <+: items) :
    first = second := by
  induction items generalizing first second with
  | nil =>
      rw [List.prefix_nil.mp haheadFirst] at hfirst
      exact hfirst.elim
  | cons item items ih =>
      obtain ⟨byte, first, rfl⟩ := List.exists_cons_of_ne_nil hfirst.ne_nil
      obtain ⟨other, second, rfl⟩ := List.exists_cons_of_ne_nil hsecond.ne_nil
      obtain ⟨rfl, haheadRest⟩ := List.cons_prefix_cons.mp haheadFirst
      obtain ⟨rfl, haheadOther⟩ := List.cons_prefix_cons.mp haheadSecond
      rcases hfirst with ⟨hends, rfl⟩ | ⟨hmore, hfirst⟩
      · rcases hsecond with ⟨-, rfl⟩ | ⟨hmore, -⟩
        · rfl
        · exact absurd hends hmore
      · rcases hsecond with ⟨hends, -⟩ | ⟨-, hsecond⟩
        · exact absurd hends hmore
        · rw [ih hfirst hsecond haheadRest haheadOther]

/-! ## The shortest encoding -/

theorem signedLeb_length_le (rounds : ℕ) (value : ℤ) :
    (signedLeb rounds value).length ≤ rounds := by
  induction rounds generalizing value with
  | zero => rfl
  | succ rounds ih =>
      rw [signedLeb]
      split
      · simp
      · simpa using ih (value / 128)

theorem signedLeb_last {value : ℤ} (hlast : -64 ≤ value ∧ value < 64) :
    UlebGroups [UInt8.ofNat (value % 128).toNat] ∧
      slebValue [UInt8.ofNat (value % 128).toNat] = value := by
  have hbyte := ByteReader.ofNat_byte_toNat (n := (value % 128).toNat) (by omega)
  have hends : UInt8.ofNat (value % 128).toNat &&& 0x80 = 0 := by
    by_contra hmore
    have hlarge := (ByteReader.continues_iff _).mp hmore
    omega
  refine ⟨Or.inl ⟨hends, rfl⟩, ?_⟩
  rw [slebValue_singleton, hbyte]
  split_ifs <;> omega

theorem signedLeb_groups {rounds : ℕ} {value : ℤ}
    (hlow : -(64 * 128 ^ rounds) ≤ value) (hhigh : value < 64 * 128 ^ rounds) :
    UlebGroups (signedLeb (rounds + 1) value) ∧
      slebValue (signedLeb (rounds + 1) value) = value := by
  induction rounds generalizing value with
  | zero =>
      have hlast : -64 ≤ value ∧ value < 64 := by omega
      rw [signedLeb, if_pos hlast]
      exact signedLeb_last hlast
  | succ rounds ih =>
      rw [signedLeb]
      by_cases hlast : -64 ≤ value ∧ value < 64
      · rw [if_pos hlast]
        exact signedLeb_last hlast
      · rw [pow_succ] at hlow hhigh
        obtain ⟨hgroups, hvalue⟩ := @ih (value / 128) (by omega) (by omega)
        have hbyte := ByteReader.ofNat_byte_toNat
          (n := (value % 128).toNat + 128) (by omega)
        rw [if_neg hlast]
        refine ⟨Or.inr ⟨(ByteReader.continues_iff _).mpr (by omega), hgroups⟩,
          ?_⟩
        rw [slebValue_cons _ hgroups.ne_nil, hbyte, hvalue]
        omega

theorem signedLeb_shortest {rounds : ℕ} {value : ℤ} {encoding : Bytes}
    (hgroups : UlebGroups encoding) (hvalue : slebValue encoding = value) :
    (signedLeb rounds value).length ≤ encoding.length := by
  induction rounds generalizing value encoding with
  | zero => exact Nat.zero_le _
  | succ rounds ih =>
      obtain ⟨byte, rest, rfl⟩ := List.exists_cons_of_ne_nil hgroups.ne_nil
      rw [signedLeb]
      split
      next => simp
      next hlarge =>
        rcases hgroups with ⟨-, rfl⟩ | ⟨-, hgroups⟩
        · exact absurd (hvalue ▸ slebValue_singleton_bounds byte) hlarge
        · rw [slebValue_cons _ hgroups.ne_nil] at hvalue
          exact Nat.succ_le_succ (ih hgroups (by omega))

theorem slebBytes_shortest (value : Int64) :
    ShortestSleb (slebBytes value) value.toInt := by
  have hlow := Int64.le_toInt value
  have hhigh := Int64.toInt_lt value
  obtain ⟨hgroups, hvalue⟩ := @signedLeb_groups 9 value.toInt
    (by omega) (by omega)
  exact ⟨hgroups, hvalue, fun other hother hsame =>
    signedLeb_shortest hother hsame⟩

theorem ShortestSleb.length_le {encoding : Bytes} {value : Int64}
    (hshortest : ShortestSleb encoding value.toInt) : encoding.length ≤ 10 := by
  obtain ⟨hgroups, hvalue, -⟩ := slebBytes_shortest value
  exact (hshortest.2.2 _ hgroups hvalue).trans (signedLeb_length_le 10 _)

namespace ByteReader

/-! ## The last byte -/

theorem toInt64_eq_ofInt {raw : UInt64} {value : ℤ}
    (hraw : (raw.toNat : ℤ) = value % 2 ^ 64) :
    raw.toInt64 = Int64.ofInt value := by
  have hbits : raw.toBitVec = BitVec.ofInt 64 value := by
    apply BitVec.eq_of_toNat_eq
    rw [BitVec.toNat_ofInt]
    show raw.toNat = _
    omega
  show (⟨⟨raw.toBitVec⟩⟩ : Int64) = ⟨⟨BitVec.ofInt 64 value⟩⟩
  rw [hbits]

/-- Ones above the bits gathered make the number negative. -/
theorem spread_sign_toNat {shift gathered : UInt64}
    (hshift : shift.toNat < 64) (hgathered : gathered.toNat < 2 ^ shift.toNat) :
    ((gathered ||| (~~~0 <<< shift)).toNat : ℤ) =
      (gathered.toNat - 2 ^ shift.toNat) % 2 ^ 64 := by
  have hones : (~~~0 : UInt64).toNat = 2 ^ 64 - 1 := rfl
  have hsum : ((gathered.toNat + (2 ^ 64 - 1) * 2 ^ shift.toNat : ℕ) : ℤ) =
      gathered.toNat - 2 ^ shift.toNat + 2 ^ 64 * 2 ^ shift.toNat := by
    rw [Nat.cast_add, Nat.cast_mul, Nat.cast_sub (by decide)]
    push_cast
    ring
  rw [or_shiftLeft_toNat hshift hgathered, hones, Int.natCast_emod, hsum]
  exact Int.add_mul_emod_self_left _ _ _

/-- What the loop returns behind the last byte. -/
def spreadSign (shift raw : UInt64) (byte : UInt8) : Int64 :=
  if shift < 64 ∧ byte &&& 0x40 ≠ 0 then (raw ||| (~~~0 <<< shift)).toInt64
  else raw.toInt64

/-- Modulo the word the last byte counts with its sign, also where its bits
leave the word. -/
theorem spreadSign_eq {shift raw : UInt64} {rounds : ℕ} (byte : UInt8)
    (hshift : shift.toNat + 7 * (rounds + 1) = 70)
    (hraw : raw.toNat < 2 ^ shift.toNat) :
    spreadSign (shift + 7) (raw ||| ((byte &&& 0x7f).toUInt64 <<< shift)) byte =
      Int64.ofInt (raw.toNat + slebValue [byte] * 2 ^ shift.toNat) := by
  have hdigit := Nat.mod_lt byte.toNat (by decide : 0 < 128)
  have hnext := @shift_next shift (by omega)
  have hgathered := gather_toNat byte (by omega) hraw
  have hroom : shift + 7 < 64 ↔ shift.toNat + 7 < 64 := by
    rw [UInt64.lt_iff_toNat_lt, hnext]
    rfl
  simp only [spreadSign, hroom, negative_iff, slebValue_singleton]
  generalize raw ||| (byte &&& 0x7f).toUInt64 <<< shift = gathered at hgathered
  generalize byte.toNat % 128 = digit at hdigit hgathered
  by_cases hnegative : digit < 64
  · rw [if_neg (by omega), if_pos hnegative]
    apply toInt64_eq_ofInt
    rw [hgathered]
    push_cast
    rfl
  · rw [if_neg hnegative]
    by_cases hlast : shift.toNat + 7 < 64
    · rw [if_pos ⟨hlast, by omega⟩]
      rw [Nat.mod_eq_of_lt (gathered_fits hdigit (by omega) hraw)] at hgathered
      have hlow : gathered.toNat < 2 ^ (shift + 7).toNat := by
        rw [hgathered, hnext]
        exact gathered_lt hdigit hraw
      apply toInt64_eq_ofInt
      rw [spread_sign_toNat (by omega) hlow, hgathered, hnext]
      push_cast
      ring_nf
    · -- The tenth byte: what is not spread is a multiple of the word.
      have hend : shift.toNat = 63 := by omega
      rw [if_neg fun hspread => hlast hspread.1]
      apply toInt64_eq_ofInt
      rw [hgathered, hend]
      push_cast
      omega

/-! ## The whole loop -/

theorem readSlebFrom_succ_eq_ok {rounds : ℕ} {shift raw : UInt64}
    {value : Int64} {reader next : ByteReader} :
    readSlebFrom (rounds + 1) shift raw reader = .ok value next ↔
      ∃ byte, reader.position < reader.data.length ∧
        byte = reader.data.getD reader.position 0 ∧
        (byte &&& 0x80 = 0 ∧
            spreadSign (shift + 7)
              (raw ||| ((byte &&& 0x7f).toUInt64 <<< shift)) byte = value ∧
            { reader with position := reader.position + 1 } = next ∨
          byte &&& 0x80 ≠ 0 ∧
            readSlebFrom rounds (shift + 7)
              (raw ||| ((byte &&& 0x7f).toUInt64 <<< shift))
              { reader with position := reader.position + 1 } =
                .ok value next) := by
  have hreturn : ∀ (shift raw : UInt64) (byte : UInt8) (reader : ByteReader),
      (if shift < 64 ∧ byte &&& 0x40 ≠ 0 then
          return (raw ||| (~~~0 <<< shift)).toInt64
        else return raw.toInt64 : ReaderCall Int64) reader = .ok value next ↔
        spreadSign shift raw byte = value ∧ reader = next := by
    intro shift raw byte reader
    unfold spreadSign
    split_ifs <;> rw [pure_eq_ok]
  rw [readSlebFrom, bind_eq_ok]
  constructor
  · rintro ⟨byte, middle, hread, hrest⟩
    obtain ⟨hsome, hbyte, rfl⟩ := readU8_eq_ok.mp hread
    refine ⟨byte, hsome, hbyte, ?_⟩
    by_cases hends : byte &&& 0x80 = 0
    · rw [if_neg (not_not.mpr hends)] at hrest
      exact Or.inl ⟨hends, (hreturn _ _ _ _).mp hrest⟩
    · rw [if_pos hends] at hrest
      exact Or.inr ⟨hends, hrest⟩
  · rintro ⟨byte, hsome, hbyte, htail⟩
    refine ⟨byte, _, readU8_eq_ok.mpr ⟨hsome, hbyte, rfl⟩, ?_⟩
    rcases htail with ⟨hends, hlast⟩ | ⟨hmore, htail⟩
    · rw [if_neg (not_not.mpr hends)]
      exact (hreturn _ _ _ _).mpr hlast
    · rw [if_pos hmore]
      exact htail

/-- With `raw` gathered below the shift, the rounds left return what completes
it, modulo the word. -/
theorem readSlebFrom_eq_ok_iff (rounds : ℕ) {shift raw : UInt64}
    {value : Int64} {reader next : ByteReader}
    (hshift : shift.toNat + 7 * rounds = 70)
    (hraw : raw.toNat < 2 ^ shift.toNat) :
    readSlebFrom rounds shift raw reader = .ok value next ↔
      Begins rounds (fun encoding =>
        Int64.ofInt (raw.toNat + slebValue encoding * 2 ^ shift.toNat) = value)
        reader next := by
  induction rounds generalizing shift raw reader with
  | zero =>
      rw [readSlebFrom, throw_apply]
      exact iff_of_false nofun not_begins_zero
  | succ rounds ih =>
      rw [readSlebFrom_succ_eq_ok, begins_succ_iff]
      apply exists_congr
      intro byte
      apply and_congr_right'
      apply and_congr_right'
      rw [spreadSign_eq byte hshift hraw]
      apply or_congr_right
      apply and_congr_right
      intro hmore
      cases rounds with
      | zero =>
          rw [readSlebFrom, throw_apply]
          exact iff_of_false nofun not_begins_zero
      | succ rounds =>
          have hdigit := Nat.mod_lt byte.toNat (by decide : 0 < 128)
          have hnext := @shift_next shift (by omega)
          have hgathered := gather_toNat byte (by omega) hraw
          rw [Nat.mod_eq_of_lt (gathered_fits hdigit (by omega) hraw)]
            at hgathered
          rw [ih (by omega)
            (by rw [hgathered, hnext]; exact gathered_lt hdigit hraw)]
          apply begins_congr
          intro rest hrest
          have hsum : ((raw.toNat + byte.toNat % 128 * 2 ^ shift.toNat : ℕ) :
              ℤ) + slebValue rest * 2 ^ (shift.toNat + 7) =
                raw.toNat + slebValue (byte :: rest) * 2 ^ shift.toNat := by
            rw [slebValue_cons byte hrest.ne_nil]
            push_cast
            ring
          rw [hgathered, hnext, hsum]

/-- The reader accepts the encodings of at most ten bytes, and returns their
number modulo the word. -/
theorem readSleb128_eq_ok_iff {reader next : ByteReader} {value : Int64} :
    readSleb128 reader = .ok value next ↔
      Begins 10 (fun encoding => Int64.ofInt (slebValue encoding) = value)
        reader next := by
  have hloop := @readSlebFrom_eq_ok_iff 10 0 0 value reader next
    (by decide) (by decide)
  simp only [UInt64.toNat_zero, pow_zero, mul_one, Nat.cast_zero, zero_add]
    at hloop
  exact hloop

theorem readSleb128_of_shortest {reader : ByteReader} {encoding : Bytes}
    {value : Int64} (hshortest : ShortestSleb encoding value.toInt)
    (hahead : encoding <+: reader.data.drop reader.position) :
    readSleb128 reader = .ok value
      { reader with position := reader.position + encoding.length } := by
  have hvalue : Int64.ofInt (slebValue encoding) = value := by
    rw [hshortest.2.1, Int64.ofInt_toInt]
  exact readSleb128_eq_ok_iff.mpr ⟨encoding, hahead, hshortest.length_le,
    hshortest.1, hvalue, rfl⟩

/-- The shortest encoding of a signed word is read back. -/
theorem readSleb128_consumes (value : Int64) :
    Consumes Ahead 0 readSleb128 (slebBytes value) value := by
  apply consumes_of_begins
  rintro reader _ hahead rfl
  exact readSleb128_of_shortest (slebBytes_shortest value) hahead

/-! ## Where the numbers fit the word -/

/-- The number is that of a signed word. -/
def FitsSigned (number : ℤ) : Prop := -2 ^ 63 ≤ number ∧ number < 2 ^ 63

theorem toInt_ofInt_of_fits {number : ℤ} (hfits : FitsSigned number) :
    (Int64.ofInt number).toInt = number :=
  Int64.toInt_ofInt_of_le hfits.1 hfits.2

/-- Of the tenth byte only the sign fits. -/
theorem fitsSigned_iff {front : Bytes} {last : UInt8}
    (hgroups : UlebGroups (front ++ [last])) (hlength : front.length ≤ 9) :
    FitsSigned (slebValue (front ++ [last])) ↔
      (front.length = 9 → last = 0 ∨ last = 0x7f) := by
  have hlow := ulebValue_lt front
  have hbounds := slebValue_singleton_bounds last
  rw [slebValue_append, FitsSigned]
  by_cases hnine : front.length = 9
  · rw [← slebValue_singleton_sign hgroups.last_ends, forall_prop_of_true hnine]
    rw [hnine] at hlow ⊢
    omega
  · have hwide : 128 ^ front.length ≤ 128 ^ 8 :=
      Nat.pow_le_pow_right (by decide) (by omega)
    refine iff_of_true ?_ fun h => absurd h hnine
    have hweight : (0 : ℤ) < 128 ^ front.length := by positivity
    have hcast : ((128 ^ front.length : ℕ) : ℤ) = 128 ^ front.length := by
      push_cast
      rfl
    constructor <;> nlinarith

/-- Reading here is exact: what is returned is the number of the bytes taken,
no number that leaves the word is accepted, and the shortest encodings are. -/
structure SlebExact (reader : ByteReader) : Prop where
  sound : ∀ value next, readSleb128 reader = .ok value next →
    ∃ encoding, encoding <+: reader.data.drop reader.position ∧
      UlebGroups encoding ∧ slebValue encoding = value.toInt ∧
      { reader with position := reader.position + encoding.length } = next
  rejects : ∀ encoding, encoding <+: reader.data.drop reader.position →
    UlebGroups encoding → ¬FitsSigned (slebValue encoding) →
      ∃ failure next, readSleb128 reader = .error failure next
  complete : ∀ (encoding : Bytes) (value : Int64),
    ShortestSleb encoding value.toInt →
      encoding <+: reader.data.drop reader.position →
        readSleb128 reader = .ok value
          { reader with position := reader.position + encoding.length }

/-- An encoding of ten bytes ahead ends in one that repeats the sign. -/
def TenthByteSigns (reader : ByteReader) : Prop :=
  ∀ front last, front ++ [last] <+: reader.data.drop reader.position →
    UlebGroups (front ++ [last]) → front.length = 9 → last = 0 ∨ last = 0x7f

variable {reader next : ByteReader}

theorem UlebGroups.exists_append {encoding : Bytes}
    (hgroups : UlebGroups encoding) :
    ∃ front last, encoding = front ++ [last] :=
  ⟨_, _, (List.dropLast_append_getLast hgroups.ne_nil).symm⟩

theorem TenthByteSigns.fits (hsigns : TenthByteSigns reader) {encoding : Bytes}
    (hahead : encoding <+: reader.data.drop reader.position)
    (hgroups : UlebGroups encoding) (hlength : encoding.length ≤ 10) :
    FitsSigned (slebValue encoding) := by
  obtain ⟨front, last, rfl⟩ := UlebGroups.exists_append hgroups
  rw [List.length_append, List.length_singleton] at hlength
  exact (fitsSigned_iff hgroups (by omega)).mpr (hsigns front last hahead hgroups)

/-- The signed reader is exact except on ten bytes of which the last holds
anything but copies of the sign. -/
theorem readSleb128_exact_iff (reader : ByteReader) :
    SlebExact reader ↔ TenthByteSigns reader := by
  constructor
  · intro hexact front last hahead hgroups hnine
    by_contra hlast
    have hlength : (front ++ [last]).length ≤ 10 := by
      rw [List.length_append, List.length_singleton]
      omega
    have hbeyond : ¬FitsSigned (slebValue (front ++ [last])) := by
      rw [fitsSigned_iff hgroups hnine.le]
      exact fun hsign => hlast (hsign hnine)
    obtain ⟨failure, next, hfails⟩ := hexact.rejects _ hahead hgroups hbeyond
    have hok := readSleb128_eq_ok_iff.mpr
      ⟨_, hahead, hlength, hgroups, rfl, rfl⟩
    rw [hfails] at hok
    contradiction
  · intro hsigns
    refine ⟨?_, ?_, fun _ _ => readSleb128_of_shortest⟩
    · intro value next hrun
      obtain ⟨encoding, hahead, hlength, hgroups, rfl, hnext⟩ :=
        readSleb128_eq_ok_iff.mp hrun
      have hfits := hsigns.fits hahead hgroups hlength
      exact ⟨encoding, hahead, hgroups, (toInt_ofInt_of_fits hfits).symm, hnext⟩
    · intro encoding hahead hgroups hbeyond
      cases hrun : readSleb128 reader with
      | error failure next => exact ⟨failure, next, rfl⟩
      | ok value next =>
          obtain ⟨taken, htaken, hlength, hother, -⟩ :=
            readSleb128_eq_ok_iff.mp hrun
          obtain rfl := hother.eq_of_prefix hgroups htaken hahead
          exact absurd (hsigns.fits hahead hgroups hlength) hbeyond

/-- Nine zero groups, and a tenth whose one bit stands for `2 ^ 64`. -/
def twoAbove : Bytes := List.replicate 9 0x80 ++ [0x02]

theorem twoAbove_groups : UlebGroups twoAbove := by
  simp only [twoAbove, List.replicate, List.cons_append, List.nil_append,
    UlebGroups]
  decide

/-- An encoding of `2 ^ 64` is read as zero. -/
theorem twoAbove_accepted :
    readSleb128 { data := twoAbove } =
        .ok 0 { data := twoAbove, position := 10 } ∧
      slebValue twoAbove = 2 ^ 64 ∧ ¬SlebExact { data := twoAbove } := by
  have hrun : readSleb128 { data := twoAbove } =
      .ok 0 { data := twoAbove, position := 10 } := rfl
  have hvalue : slebValue twoAbove = 2 ^ 64 := by decide
  have hbeyond : ¬FitsSigned (slebValue twoAbove) := by
    rw [hvalue]
    exact fun hfits => absurd hfits.2 (by decide)
  refine ⟨hrun, hvalue, fun hexact => ?_⟩
  obtain ⟨failure, next, hfails⟩ :=
    hexact.rejects twoAbove List.prefix_rfl twoAbove_groups hbeyond
  rw [hrun] at hfails
  contradiction

end ByteReader
end BinForge
