import BinForge.Reader

/-!
# Variable-length integers

Seven bits of the number go into each byte, the lowest first, and every byte
but the last has its top bit set.  `ByteReader` gathers them in a 64-bit word.
-/

namespace BinForge

open StatefulExcept
open StreamCodec
open MachineInteger

/-! ## Encodings

The first argument bounds the number of bytes; ten are enough for 64 bits. -/

def unsignedLeb : ℕ → ℕ → Bytes
  | 0, _ => []
  | rounds + 1, value =>
      if value < 128 then [UInt8.ofNat value]
      else UInt8.ofNat (value % 128 + 128) :: unsignedLeb rounds (value / 128)

def signedLeb : ℕ → ℤ → Bytes
  | 0, _ => []
  | rounds + 1, value =>
      if -64 ≤ value ∧ value < 64 then [UInt8.ofNat (value % 128).toNat]
      else UInt8.ofNat ((value % 128).toNat + 128) ::
        signedLeb rounds (value / 128)

def ulebBytes (value : UInt64) : Bytes := unsignedLeb 10 value.toNat

def slebBytes (value : Int64) : Bytes := signedLeb 10 value.toInt

namespace ByteReader

/-! ## The readers -/

/-- The loop of `read_uleb128` with this many rounds left. -/
def readUlebFrom : ℕ → UInt64 → UInt64 → ReaderCall UInt64
  | 0, _, _ => throw ()
  | rounds + 1, shift, value => do
      let byte ← readU8
      let payload := (byte &&& 0x7f).toUInt64
      rejectIf (shift = 63 ∧ payload > 1) ()
      let value := value ||| (payload <<< shift)
      if byte &&& 0x80 = 0 then return value
      else readUlebFrom rounds (shift + 7) value

def readUleb128 : ReaderCall UInt64 := readUlebFrom 10 0 0

/-- The loop of `read_sleb128` with this many rounds left; the sign is spread
over the bits the bytes did not reach. -/
def readSlebFrom : ℕ → UInt64 → UInt64 → ReaderCall Int64
  | 0, _, _ => throw ()
  | rounds + 1, shift, raw => do
      let byte ← readU8
      let raw := raw ||| ((byte &&& 0x7f).toUInt64 <<< shift)
      let shift := shift + 7
      if byte &&& 0x80 ≠ 0 then readSlebFrom rounds shift raw
      else if shift < 64 ∧ byte &&& 0x40 ≠ 0 then
        return (raw ||| (~~~0 <<< shift)).toInt64
      else return raw.toInt64

def readSleb128 : ReaderCall Int64 := readSlebFrom 10 0 0

/-! ## Bytes in any order -/

/-- A reader with exactly these bytes ahead of it, whatever its byte order. -/
def Ahead (reader : ByteReader) (bytes : Bytes) : Prop :=
  LittleAhead { reader with order := .little } bytes

theorem Ahead.remaining {reader : ByteReader} {bytes : Bytes}
    (hahead : Ahead reader bytes) : reader.remaining = bytes.length := by
  rw [remaining_eq, ← hahead.bytes, List.length_drop]

theorem take_consumes_any (bytes : Bytes) :
    Consumes Ahead 0 (take bytes.length) bytes bytes := by
  intro cursor tail _ hahead
  obtain ⟨next, hrun, hnext⟩ := take_consumes bytes
    { cursor with order := .little } tail (Nat.zero_le _) hahead
  obtain ⟨hfit, hbytes, rfl⟩ := take_eq_ok.mp hrun
  exact ⟨_, take_eq_ok.mpr ⟨hfit, hbytes, rfl⟩, hnext⟩

theorem readU8_consumes_any (value : UInt8) :
    Consumes Ahead 0 readU8 [value] value := by
  intro cursor tail _ hahead
  obtain ⟨next, hrun, hnext⟩ := readU8_consumes value
    { cursor with order := .little } tail (Nat.zero_le _) hahead
  obtain ⟨hfit, hvalue, rfl⟩ := readU8_eq_ok.mp hrun
  exact ⟨_, readU8_eq_ok.mpr ⟨hfit, hvalue, rfl⟩, hnext⟩

/-! ## Reads that move forward -/

/-- A read that succeeds stays in its input and moves at least this far. -/
def Forward {ε α : Type} (least : ℕ) (action : EStateM ε ByteReader α) : Prop :=
  ∀ ⦃reader value next⦄, action reader = .ok value next →
    next.data = reader.data ∧ reader.position + least ≤ next.position ∧
      next.position ≤ max reader.position reader.data.length

section Forward

variable {ε ε' α β : Type} {least more : ℕ}

theorem Forward.weaken {action : EStateM ε ByteReader α}
    (haction : Forward more action) (hle : least ≤ more) :
    Forward least action := by
  intro reader value next hrun
  obtain ⟨hdata, hmoved, hinside⟩ := haction hrun
  exact ⟨hdata, by omega, hinside⟩

theorem Forward.of_still {action : EStateM ε ByteReader α}
    (hstill : ∀ {reader value next}, action reader = .ok value next →
      next = reader) : Forward 0 action := by
  intro reader value next hrun
  rw [hstill hrun]
  exact ⟨rfl, Nat.le_refl _, Nat.le_max_left _ _⟩

theorem forward_pure (value : α) :
    Forward 0 (pure value : EStateM ε ByteReader α) :=
  .of_still fun hrun => (EStateM.Result.ok.inj hrun).2.symm

theorem forward_throw (why : ε) :
    Forward least (throw why : EStateM ε ByteReader α) := by
  intro reader value next hrun
  rw [throw_apply] at hrun
  contradiction

theorem forward_rejectIf (condition : Prop) [Decidable condition] (why : ε) :
    Forward 0 (rejectIf condition why : EStateM ε ByteReader Unit) :=
  .of_still fun hrun => (rejectIf_eq_ok.mp hrun).2

theorem Forward.bind {action : EStateM ε ByteReader α}
    {rest : α → EStateM ε ByteReader β} (haction : Forward least action)
    (hrest : ∀ value, Forward more (rest value)) :
    Forward (least + more) (action >>= rest) := by
  intro reader value next hrun
  obtain ⟨found, middle, hhead, htail⟩ := bind_eq_ok.mp hrun
  obtain ⟨hdata, hmoved, hinside⟩ := haction hhead
  obtain ⟨hdata', hmoved', hinside'⟩ := hrest found htail
  rw [hdata] at hdata' hinside'
  exact ⟨hdata', by omega, by omega⟩

/-- What follows may stay where it is. -/
theorem Forward.after {action : EStateM ε ByteReader α}
    {rest : α → EStateM ε ByteReader β} (haction : Forward least action)
    (hrest : ∀ value, Forward 0 (rest value)) :
    Forward least (action >>= rest) :=
  haction.bind hrest

theorem Forward.get_bind {rest : ByteReader → EStateM ε ByteReader β}
    (hrest : ∀ reader, Forward least (rest reader)) :
    Forward least (get >>= rest) := by
  intro reader value next hrun
  rw [bind_of_ok (get_apply reader)] at hrun
  exact hrest reader hrun

theorem Forward.adaptError {action : EStateM ε ByteReader α}
    (describe : ByteReader → ε → ε') (haction : Forward least action) :
    Forward least (StatefulExcept.adaptError describe action) := by
  intro reader value next hrun
  exact haction (adaptError_eq_ok.mp hrun)

theorem Forward.collect {action : EStateM ε ByteReader α}
    (haction : Forward 0 action) (count : ℕ) :
    Forward 0 (StatefulExcept.collect action count) := by
  induction count with
  | zero => exact forward_pure []
  | succ count ih =>
      exact haction.after fun _ => ih.after fun _ => forward_pure _

/-- A read of a fixed size. -/
theorem forward_of_at {action : ReaderCall α} {count : ℕ}
    (hat : ∀ {reader value next}, action reader = .ok value next →
      reader.position + count ≤ reader.data.length ∧
        next = reader.movedTo (reader.position + count)) :
    Forward count action := by
  intro reader value next hrun
  obtain ⟨hfit, rfl⟩ := hat hrun
  exact ⟨rfl, Nat.le_refl _, le_max_of_le_right hfit⟩

end Forward

theorem readU8_forward : Forward 1 readU8 :=
  forward_of_at fun hrun =>
    have hread := readU8_at.mp hrun
    ⟨hread.1, hread.2.2⟩

theorem readU16_forward : Forward 2 readU16 :=
  forward_of_at fun hrun =>
    have hread := readU16_at.mp hrun
    ⟨hread.1, hread.2.2⟩

theorem readU32_forward : Forward 4 readU32 :=
  forward_of_at fun hrun =>
    have hread := readU32_at.mp hrun
    ⟨hread.1, hread.2.2⟩

theorem readU64_forward : Forward 8 readU64 :=
  forward_of_at fun hrun =>
    have hread := readU64_at.mp hrun
    ⟨hread.1, hread.2.2⟩

theorem readWord_forward (wide : Bool) : Forward (fieldSize wide) (readWord wide) :=
  forward_of_at fun hrun =>
    have hread := readWord_at.mp hrun
    ⟨hread.1, hread.2.2⟩

theorem take_forward (count : ℕ) : Forward count (take count) :=
  forward_of_at fun hrun =>
    have hread := take_eq_ok.mp hrun
    ⟨hread.1, hread.2.2⟩

theorem readUlebFrom_forward (rounds : ℕ) (shift value : UInt64) :
    Forward 1 (readUlebFrom rounds shift value) := by
  cases rounds with
  | zero => exact forward_throw ()
  | succ rounds =>
      refine readU8_forward.after fun byte =>
        (forward_rejectIf _ _).after fun _ => ?_
      dsimp only
      split
      · exact forward_pure _
      · exact (readUlebFrom_forward rounds _ _).weaken (Nat.zero_le _)

theorem readSlebFrom_forward (rounds : ℕ) (shift raw : UInt64) :
    Forward 1 (readSlebFrom rounds shift raw) := by
  cases rounds with
  | zero => exact forward_throw ()
  | succ rounds =>
      refine readU8_forward.after fun byte => ?_
      dsimp only
      split
      · exact (readSlebFrom_forward rounds _ _).weaken (Nat.zero_le _)
      · split <;> exact forward_pure _

theorem readUleb128_forward : Forward 1 readUleb128 := readUlebFrom_forward 10 0 0

theorem readSleb128_forward : Forward 1 readSleb128 := readSlebFrom_forward 10 0 0

theorem silently_forward {α : Type} {least : ℕ} {action : ReaderCall α}
    (haction : Forward least action) : Forward least (silently action) :=
  haction.adaptError _

/-- A read that succeeds leaves at least this many bytes fewer. -/
def Takes {ε α : Type} (count : ℕ) (action : EStateM ε ByteReader α) : Prop :=
  ∀ ⦃reader value next⦄, action reader = .ok value next →
    next.remaining + count ≤ reader.remaining

theorem Forward.takes {ε α : Type} {least : ℕ}
    {action : EStateM ε ByteReader α} (haction : Forward least action) :
    Takes least action := by
  intro reader value next hrun
  obtain ⟨hdata, hmoved, hinside⟩ := haction hrun
  rw [remaining_eq, remaining_eq, hdata]
  omega

/-! ## One byte -/

theorem payload_toNat (byte : UInt8) :
    (byte &&& 0x7f).toUInt64.toNat = byte.toNat % 128 := by
  rw [UInt8.toNat_toUInt64, UInt8.toNat_and]
  exact Nat.and_two_pow_sub_one_eq_mod byte.toNat 7

theorem continues_iff (byte : UInt8) :
    byte &&& 0x80 ≠ 0 ↔ 128 ≤ byte.toNat := by
  revert byte
  exact forall_uInt8 (by decide +kernel)

/-- The sign of the last byte is its second highest bit. -/
theorem negative_iff (byte : UInt8) :
    byte &&& 0x40 ≠ 0 ↔ 64 ≤ byte.toNat % 128 := by
  revert byte
  exact forall_uInt8 (by decide +kernel)

theorem ofNat_byte_toNat {n : ℕ} (hn : n < 256) : (UInt8.ofNat n).toNat = n :=
  UInt8.toNat_ofNat_of_lt' hn

theorem shift_next {shift : UInt64} (hshift : shift.toNat < 64) :
    (shift + 7).toNat = shift.toNat + 7 := by
  rw [UInt64.toNat_add]
  apply Nat.mod_eq_of_lt
  show shift.toNat + 7 < 2 ^ 64
  omega

/-- The low seven bits of a byte join those gathered below the shift. -/
theorem gather_toNat {shift gathered : UInt64} (byte : UInt8)
    (hshift : shift.toNat < 64) (hgathered : gathered.toNat < 2 ^ shift.toNat) :
    (gathered ||| ((byte &&& 0x7f).toUInt64 <<< shift)).toNat =
      (gathered.toNat + byte.toNat % 128 * 2 ^ shift.toNat) % 2 ^ 64 := by
  rw [or_shiftLeft_toNat hshift hgathered, payload_toNat]

/-- Seven more bits still lie below the next shift. -/
theorem gathered_lt {shift gathered digit : ℕ} (hdigit : digit < 128)
    (hgathered : gathered < 2 ^ shift) :
    gathered + digit * 2 ^ shift < 2 ^ (shift + 7) := by
  have hdigits : digit * 2 ^ shift ≤ 127 * 2 ^ shift :=
    Nat.mul_le_mul_right _ (Nat.le_of_lt_succ hdigit)
  have hpow : 2 ^ (shift + 7) = 128 * 2 ^ shift := by ring
  omega

/-- As long as another byte may follow, what is gathered fits the word. -/
theorem gathered_fits {shift gathered digit : ℕ} (hdigit : digit < 128)
    (hshift : shift + 7 ≤ 63) (hgathered : gathered < 2 ^ shift) :
    gathered + digit * 2 ^ shift < 2 ^ 64 := by
  have hwide : 2 ^ (shift + 7) ≤ 2 ^ 63 :=
    Nat.pow_le_pow_right (by decide) hshift
  have hlow := gathered_lt hdigit hgathered
  omega

end ByteReader
end BinForge
