import BinForge.Leb128

/-!
# What the unsigned reader accepts

`read_uleb128` takes any encoding of at most ten bytes whose number fits a
word, padded or not, and nothing else.
-/

namespace BinForge

open StatefulExcept
open StreamCodec
open MachineInteger

/-! ## Encodings and their numbers -/

/-- Every byte but the last has its top bit set. -/
def UlebGroups : Bytes → Prop
  | [] => False
  | byte :: rest =>
      byte &&& 0x80 = 0 ∧ rest = [] ∨ byte &&& 0x80 ≠ 0 ∧ UlebGroups rest

/-- The sum of the low seven bits of each byte, at the powers of 128. -/
def ulebValue (encoding : Bytes) : ℕ :=
  (encoding.mapIdx fun i byte => byte.toNat % 128 * 128 ^ i).sum

theorem ulebValue_eq_ofDigits (encoding : Bytes) :
    ulebValue encoding =
      Nat.ofDigits 128 (encoding.map fun byte => byte.toNat % 128) := by
  rw [ulebValue, Nat.ofDigits_eq_sum_mapIdx, List.mapIdx_eq_zipIdx_map,
    List.mapIdx_eq_zipIdx_map, List.zipIdx_map, List.map_map]
  rfl

@[simp] theorem ulebValue_nil : ulebValue [] = 0 := rfl

@[simp] theorem ulebValue_cons (byte : UInt8) (rest : Bytes) :
    ulebValue (byte :: rest) = byte.toNat % 128 + 128 * ulebValue rest := by
  rw [ulebValue_eq_ofDigits, ulebValue_eq_ofDigits, List.map_cons,
    Nat.ofDigits_cons]

theorem UlebGroups.ne_nil {encoding : Bytes} (hgroups : UlebGroups encoding) :
    encoding ≠ [] := by
  rintro rfl
  exact hgroups

/-! ## The shortest encoding -/

theorem unsignedLeb_length_le (rounds value : ℕ) :
    (unsignedLeb rounds value).length ≤ rounds := by
  induction rounds generalizing value with
  | zero => rfl
  | succ rounds ih =>
      rw [unsignedLeb]
      split
      · simp
      · simpa using ih (value / 128)

theorem unsignedLeb_groups {rounds value : ℕ} (hrounds : value < 128 ^ rounds)
    (hsome : rounds ≠ 0) :
    UlebGroups (unsignedLeb rounds value) ∧
      ulebValue (unsignedLeb rounds value) = value := by
  induction rounds generalizing value with
  | zero => exact absurd rfl hsome
  | succ rounds ih =>
      rw [unsignedLeb]
      by_cases hlast : value < 128
      · have hbyte := ByteReader.ofNat_byte_toNat (n := value) (by omega)
        have hends : UInt8.ofNat value &&& 0x80 = 0 := by
          by_contra hmore
          have hlarge := (ByteReader.continues_iff _).mp hmore
          omega
        rw [if_pos hlast]
        refine ⟨Or.inl ⟨hends, rfl⟩, ?_⟩
        rw [ulebValue_cons, hbyte, ulebValue_nil, Nat.mod_eq_of_lt hlast]
        omega
      · have hbyte := ByteReader.ofNat_byte_toNat
          (n := value % 128 + 128) (by omega)
        have hrest : value / 128 < 128 ^ rounds := by
          rw [Nat.div_lt_iff_lt_mul (by decide), ← pow_succ]
          exact hrounds
        have hmore : rounds ≠ 0 := by
          rintro rfl
          rw [pow_zero] at hrest
          omega
        obtain ⟨hgroups, hvalue⟩ := ih hrest hmore
        rw [if_neg hlast]
        refine ⟨Or.inr ⟨(ByteReader.continues_iff _).mpr (by omega), hgroups⟩,
          ?_⟩
        rw [ulebValue_cons, hbyte, hvalue]
        omega

/-- Padding only makes an encoding longer. -/
theorem unsignedLeb_shortest {rounds value : ℕ} {encoding : Bytes}
    (hgroups : UlebGroups encoding) (hvalue : ulebValue encoding = value) :
    (unsignedLeb rounds value).length ≤ encoding.length := by
  induction rounds generalizing value encoding with
  | zero => exact Nat.zero_le _
  | succ rounds ih =>
      obtain ⟨byte, rest, rfl⟩ := List.exists_cons_of_ne_nil hgroups.ne_nil
      rw [ulebValue_cons] at hvalue
      rw [unsignedLeb]
      split
      next => simp
      next hlarge =>
        rcases hgroups with ⟨-, rfl⟩ | ⟨-, hgroups⟩
        · rw [ulebValue_nil] at hvalue
          omega
        · exact Nat.succ_le_succ (ih hgroups (by omega))

theorem ulebBytes_groups (value : UInt64) :
    UlebGroups (ulebBytes value) ∧
      ulebValue (ulebBytes value) = value.toNat :=
  unsignedLeb_groups (value.toNat_lt.trans (by decide)) (by decide)

/-! ## The bytes ahead -/

theorem cons_prefix_drop_iff {data rest : Bytes} {position : ℕ} {byte : UInt8} :
    byte :: rest <+: data.drop position ↔
      position < data.length ∧ byte = data.getD position 0 ∧
        rest <+: data.drop (position + 1) := by
  by_cases hsome : position < data.length
  · rw [List.drop_eq_getElem_cons hsome, List.cons_prefix_cons,
      List.getD_eq_getElem _ _ hsome]
    simp only [hsome, true_and]
  · rw [List.drop_eq_nil_of_le (by omega)]
    simp [hsome]

namespace ByteReader

/-! ## One round of the loop -/

/-- The check of the tenth byte, as a bound on what is gathered. -/
theorem payload_fits_iff {shift gathered : UInt64} {rounds : ℕ} (byte : UInt8)
    (hshift : shift.toNat + 7 * (rounds + 1) = 70)
    (hgathered : gathered.toNat < 2 ^ shift.toNat) :
    ¬(shift = 63 ∧ (byte &&& 0x7f).toUInt64 > 1) ↔
      gathered.toNat + byte.toNat % 128 * 2 ^ shift.toNat < 2 ^ 64 := by
  have hdigit := Nat.mod_lt byte.toNat (by decide : 0 < 128)
  have hlarge : (byte &&& 0x7f).toUInt64 > 1 ↔ 1 < byte.toNat % 128 := by
    rw [gt_iff_lt, UInt64.lt_iff_toNat_lt, payload_toNat]
    rfl
  have hlast : shift = 63 ↔ shift.toNat = 63 := UInt64.toNat_inj.symm
  rw [hlarge, hlast]
  by_cases hend : shift.toNat = 63
  · rw [hend] at hgathered ⊢
    omega
  · have hfits := @gathered_fits shift.toNat _ _ hdigit (by omega) hgathered
    exact iff_of_true (fun hcheck => hend hcheck.1) hfits

theorem gather_byte_toNat {shift gathered : UInt64} {byte : UInt8}
    (hshift : shift.toNat < 64) (hgathered : gathered.toNat < 2 ^ shift.toNat)
    (hfits : gathered.toNat + byte.toNat % 128 * 2 ^ shift.toNat < 2 ^ 64) :
    (gathered ||| ((byte &&& 0x7f).toUInt64 <<< shift)).toNat =
      gathered.toNat + byte.toNat % 128 * 2 ^ shift.toNat := by
  rw [gather_toNat byte hshift hgathered, Nat.mod_eq_of_lt hfits]

theorem readUlebFrom_succ_eq_ok {rounds : ℕ} {shift gathered value : UInt64}
    {reader next : ByteReader} :
    readUlebFrom (rounds + 1) shift gathered reader = .ok value next ↔
      ∃ byte, reader.position < reader.data.length ∧
        byte = reader.data.getD reader.position 0 ∧
        ¬(shift = 63 ∧ (byte &&& 0x7f).toUInt64 > 1) ∧
        (byte &&& 0x80 = 0 ∧
            gathered ||| ((byte &&& 0x7f).toUInt64 <<< shift) = value ∧
            { reader with position := reader.position + 1 } = next ∨
          byte &&& 0x80 ≠ 0 ∧
            readUlebFrom rounds (shift + 7)
              (gathered ||| ((byte &&& 0x7f).toUInt64 <<< shift))
              { reader with position := reader.position + 1 } =
                .ok value next) := by
  rw [readUlebFrom, bind_eq_ok]
  constructor
  · rintro ⟨byte, middle, hread, hrest⟩
    obtain ⟨hsome, hbyte, rfl⟩ := readU8_eq_ok.mp hread
    obtain ⟨hfits, htail⟩ := rejectIf_bind_eq_ok.mp hrest
    refine ⟨byte, hsome, hbyte, hfits, ?_⟩
    by_cases hends : byte &&& 0x80 = 0
    · simp only [hends, if_true, pure_eq_ok] at htail
      exact Or.inl ⟨hends, htail⟩
    · simp only [hends, if_false] at htail
      exact Or.inr ⟨hends, htail⟩
  · rintro ⟨byte, hsome, hbyte, hfits, htail⟩
    refine ⟨byte, _, readU8_eq_ok.mpr ⟨hsome, hbyte, rfl⟩,
      rejectIf_bind_eq_ok.mpr ⟨hfits, ?_⟩⟩
    rcases htail with ⟨hends, rfl, rfl⟩ | ⟨hmore, htail⟩
    · simp only [hends, if_true, pure_apply]
    · simpa only [hmore, if_false] using htail

/-! ## Encodings ahead -/

/-- The bytes ahead begin with an encoding, of at most this many bytes, that is
accepted; behind it the reader is `next`. -/
def Begins (rounds : ℕ) (accepts : Bytes → Prop) (reader next : ByteReader) :
    Prop :=
  ∃ encoding, encoding <+: reader.data.drop reader.position ∧
    encoding.length ≤ rounds ∧ UlebGroups encoding ∧ accepts encoding ∧
    { reader with position := reader.position + encoding.length } = next

section Begins

variable {rounds : ℕ} {accepts other : Bytes → Prop} {reader next : ByteReader}

theorem not_begins_zero : ¬Begins 0 accepts reader next := by
  rintro ⟨encoding, -, hlength, hgroups, -⟩
  rw [List.eq_nil_of_length_eq_zero (Nat.le_zero.mp hlength)] at hgroups
  exact hgroups

theorem begins_congr (hsame : ∀ encoding, UlebGroups encoding →
    (accepts encoding ↔ other encoding)) :
    Begins rounds accepts reader next ↔ Begins rounds other reader next := by
  apply exists_congr
  intro encoding
  apply and_congr_right'
  apply and_congr_right'
  apply and_congr_right
  intro hgroups
  rw [hsame encoding hgroups]

/-- The first byte of an encoding is its last one, or the others follow it. -/
theorem begins_succ_iff :
    Begins (rounds + 1) accepts reader next ↔
      ∃ byte, reader.position < reader.data.length ∧
        byte = reader.data.getD reader.position 0 ∧
        (byte &&& 0x80 = 0 ∧ accepts [byte] ∧
            { reader with position := reader.position + 1 } = next ∨
          byte &&& 0x80 ≠ 0 ∧
            Begins rounds (fun rest => accepts (byte :: rest))
              { reader with position := reader.position + 1 } next) := by
  constructor
  · rintro ⟨_ | ⟨byte, rest⟩, hahead, hlength, hgroups, haccepts, hnext⟩
    · exact hgroups.elim
    obtain ⟨hsome, hbyte, hahead⟩ := cons_prefix_drop_iff.mp hahead
    refine ⟨byte, hsome, hbyte, ?_⟩
    rcases hgroups with ⟨hends, rfl⟩ | ⟨hmore, hgroups⟩
    · exact Or.inl ⟨hends, haccepts, hnext⟩
    · rw [List.length_cons, Nat.add_comm rest.length, ← Nat.add_assoc] at hnext
      exact Or.inr ⟨hmore, rest, hahead, Nat.le_of_succ_le_succ hlength,
        hgroups, haccepts, hnext⟩
  · rintro ⟨byte, hsome, hbyte, ⟨hends, haccepts, hnext⟩ |
      ⟨hmore, rest, hahead, hlength, hgroups, haccepts, hnext⟩⟩
    · exact ⟨[byte], cons_prefix_drop_iff.mpr ⟨hsome, hbyte,
        List.nil_prefix⟩, Nat.succ_le_succ (Nat.zero_le _),
        Or.inl ⟨hends, rfl⟩, haccepts, hnext⟩
    · rw [Nat.add_assoc, Nat.add_comm 1] at hnext
      exact ⟨byte :: rest, cons_prefix_drop_iff.mpr ⟨hsome, hbyte, hahead⟩,
        Nat.succ_le_succ hlength, Or.inr ⟨hmore, hgroups⟩, haccepts, hnext⟩

end Begins

/-! ## The whole loop -/

/-- The bytes ahead begin with an encoding, of at most this many bytes, that
completes what is gathered to the value. -/
def Completes (rounds shift gathered : ℕ) (reader : ByteReader) (value : ℕ)
    (next : ByteReader) : Prop :=
  ∃ encoding, encoding <+: reader.data.drop reader.position ∧
    encoding.length ≤ rounds ∧ UlebGroups encoding ∧
    gathered + ulebValue encoding * 2 ^ shift = value ∧
    { reader with position := reader.position + encoding.length } = next

theorem completes_iff_begins {rounds shift gathered value : ℕ}
    {reader next : ByteReader} :
    Completes rounds shift gathered reader value next ↔
      Begins rounds
        (fun encoding => gathered + ulebValue encoding * 2 ^ shift = value)
        reader next :=
  Iff.rfl

theorem Completes.gathered_le {rounds shift gathered value : ℕ}
    {reader next : ByteReader}
    (hcompletes : Completes rounds shift gathered reader value next) :
    gathered ≤ value := by
  obtain ⟨encoding, -, -, -, rfl, -⟩ := hcompletes
  exact Nat.le_add_right _ _

/-- The first byte of an encoding is its last one, or the others complete what
is gathered with it. -/
theorem completes_succ_iff {rounds shift gathered value : ℕ}
    {reader next : ByteReader} :
    Completes (rounds + 1) shift gathered reader value next ↔
      ∃ byte, reader.position < reader.data.length ∧
        byte = reader.data.getD reader.position 0 ∧
        (byte &&& 0x80 = 0 ∧
            gathered + byte.toNat % 128 * 2 ^ shift = value ∧
            { reader with position := reader.position + 1 } = next ∨
          byte &&& 0x80 ≠ 0 ∧
            Completes rounds (shift + 7)
              (gathered + byte.toNat % 128 * 2 ^ shift)
              { reader with position := reader.position + 1 } value next) := by
  have hsum : ∀ (byte : UInt8) (rest : Bytes),
      gathered + ulebValue (byte :: rest) * 2 ^ shift =
        gathered + byte.toNat % 128 * 2 ^ shift +
          ulebValue rest * 2 ^ (shift + 7) := by
    intro byte rest
    rw [ulebValue_cons]
    ring
  simp only [completes_iff_begins, begins_succ_iff, hsum, ulebValue_nil,
    Nat.zero_mul, Nat.add_zero]

/-- With `gathered` below the shift, the rounds left accept what completes it
to a number that fits the word. -/
theorem readUlebFrom_eq_ok_iff (rounds : ℕ) {shift gathered value : UInt64}
    {reader next : ByteReader} (hshift : shift.toNat + 7 * rounds = 70)
    (hgathered : gathered.toNat < 2 ^ shift.toNat) :
    readUlebFrom rounds shift gathered reader = .ok value next ↔
      Completes rounds shift.toNat gathered.toNat reader value.toNat next := by
  induction rounds generalizing shift gathered reader with
  | zero =>
      rw [readUlebFrom, throw_apply]
      exact iff_of_false nofun not_begins_zero
  | succ rounds ih =>
      rw [readUlebFrom_succ_eq_ok, completes_succ_iff]
      apply exists_congr
      intro byte
      apply and_congr_right'
      apply and_congr_right'
      rw [payload_fits_iff byte hshift hgathered]
      by_cases hfits :
          gathered.toNat + byte.toNat % 128 * 2 ^ shift.toNat < 2 ^ 64
      · have hgather := gather_byte_toNat (by omega) hgathered hfits
        have hnext := @shift_next shift (by omega)
        have hlow := gathered_lt (Nat.mod_lt byte.toNat (by decide)) hgathered
        rw [ih (by omega) (by rw [hgather, hnext]; exact hlow),
          ← UInt64.toNat_inj, hgather, hnext]
        exact and_iff_right hfits
      · -- The number is at least as large as what is gathered of it.
        have hword := value.toNat_lt
        refine iff_of_false (fun hok => hfits hok.1) ?_
        rintro (⟨-, hvalue, -⟩ | ⟨-, hcompletes⟩)
        · omega
        · exact hfits (hcompletes.gathered_le.trans_lt hword)

theorem readUleb128_eq_ok_iff (reader next : ByteReader) (value : UInt64) :
    readUleb128 reader = .ok value next ↔
      ∃ encoding, encoding <+: reader.data.drop reader.position ∧
        encoding.length ≤ 10 ∧ UlebGroups encoding ∧
        ulebValue encoding = value.toNat ∧
        { reader with position := reader.position + encoding.length } =
          next := by
  have hloop := @readUlebFrom_eq_ok_iff 10 0 0 value reader next
    (by decide) (by decide)
  rw [UInt64.toNat_zero, Completes, pow_zero] at hloop
  simp only [Nat.zero_add, Nat.mul_one] at hloop
  exact hloop

/-- Reading an encoding that is accepted wherever it stands. -/
theorem consumes_of_begins {α : Type} {read : ReaderCall α} {encoding : Bytes}
    {value : α} (hread : ∀ {reader next : ByteReader},
      encoding <+: reader.data.drop reader.position →
      { reader with position := reader.position + encoding.length } = next →
        read reader = .ok value next) :
    Consumes Ahead 0 read encoding value := by
  intro cursor tail _ hahead
  have hbytes : cursor.data.drop cursor.position = encoding ++ tail :=
    hahead.bytes
  have hinside : cursor.position ≤ cursor.data.length := hahead.inside
  refine ⟨_, hread ⟨tail, hbytes.symm⟩ rfl, ⟨rfl, ?_, ?_⟩⟩
  · have hlength := congrArg List.length hbytes
    rw [List.length_drop, List.length_append] at hlength
    show cursor.position + encoding.length ≤ cursor.data.length
    omega
  · show cursor.data.drop (cursor.position + encoding.length) = tail
    rw [← List.drop_drop, hbytes, List.drop_left]

/-- The shortest encoding of a word is read back. -/
theorem readUleb128_consumes (value : UInt64) :
    Consumes Ahead 0 readUleb128 (ulebBytes value) value := by
  obtain ⟨hgroups, hvalue⟩ := ulebBytes_groups value
  exact consumes_of_begins fun hahead hnext => (readUleb128_eq_ok_iff _ _ _).mpr
    ⟨ulebBytes value, hahead, unsignedLeb_length_le 10 _, hgroups, hvalue,
      hnext⟩

theorem readUleb128_ulebBytes (front tail : Bytes) (order : ByteOrder)
    (value : UInt64) :
    readUleb128 ⟨front ++ (ulebBytes value ++ tail), front.length, order⟩ =
      .ok value ⟨front ++ (ulebBytes value ++ tail),
        front.length + (ulebBytes value).length, order⟩ := by
  obtain ⟨hgroups, hvalue⟩ := ulebBytes_groups value
  refine (readUleb128_eq_ok_iff _ _ _).mpr ⟨ulebBytes value, ?_,
    unsignedLeb_length_le 10 _, hgroups, hvalue, rfl⟩
  rw [List.drop_left]
  exact List.prefix_append _ _

/-- The reader accepts exactly the encodings of at most ten bytes whose number
fits a word, and moves past them; the shortest encoding is one of them. -/
theorem readUleb128_exact :
    (∀ (reader next : ByteReader) (value : UInt64),
      readUleb128 reader = .ok value next ↔
        ∃ encoding, encoding <+: reader.data.drop reader.position ∧
          encoding.length ≤ 10 ∧ UlebGroups encoding ∧
          ulebValue encoding = value.toNat ∧
          { reader with position := reader.position + encoding.length } =
            next) ∧
    ∀ (front tail : Bytes) (order : ByteOrder) (value : UInt64),
      readUleb128 ⟨front ++ (ulebBytes value ++ tail), front.length, order⟩ =
          .ok value ⟨front ++ (ulebBytes value ++ tail),
            front.length + (ulebBytes value).length, order⟩ ∧
        ∀ encoding, UlebGroups encoding → ulebValue encoding = value.toNat →
          (ulebBytes value).length ≤ encoding.length := by
  refine ⟨readUleb128_eq_ok_iff, fun front tail order value =>
    ⟨readUleb128_ulebBytes front tail order value, ?_⟩⟩
  intro encoding hgroups hvalue
  exact unsignedLeb_shortest hgroups hvalue

end ByteReader
end BinForge
