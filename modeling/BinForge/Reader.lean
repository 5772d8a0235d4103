import BinForge.Image
import BinForge.ListSplice
import BinForge.StreamCodec

/-!
# The bounded byte reader

`ByteReader` keeps a position in a byte range it does not own.  A call that
returns false fails with `()`; the reader is then where the call left it.
-/

namespace BinForge

open StatefulExcept
open MachineInteger
open ListSplice
open StreamCodec

structure ByteReader where
  data : Bytes
  position : ℕ := 0
  order : ByteOrder := .little
  deriving DecidableEq, Repr

/-- A reader call that returns false on failure. -/
abbrev ReaderCall := EStateM Unit ByteReader

/-! ## Reporting a failed read -/

abbrev DecodeCall := EStateM Failure ByteReader

/-- A path that returns without assigning the error. -/
def silently {α : Type} (action : ReaderCall α) : DecodeCall α :=
  adaptError (fun _ _ => Failure.silent) action

/-- An error reported at the reader's position. -/
def reportAt (code : ErrorCode) (message : Bytes) (reader : ByteReader)
    (_ : Unit) : Failure :=
  failure code (UInt64.ofNat reader.position) message

/-- A failed read reported as one fixed error. -/
def reporting {α : Type} (why : Failure) (action : ReaderCall α) :
    DecodeCall α :=
  adaptError (fun _ _ => why) action

namespace ByteReader

def remaining (reader : ByteReader) : ℕ :=
  if reader.position ≤ reader.data.length then
    reader.data.length - reader.position
  else 0

/-- The `count` bytes the pointer to `offset` gives access to. -/
def pointer (reader : ByteReader) (offset count : ℕ) : Option Bytes :=
  if rangeInside offset count reader.data.length then
    some (slice reader.data offset count)
  else none

def seek (position : UInt64) : ReaderCall Unit := do
  let reader ← get
  rejectIf (position.toNat > reader.data.length) ()
  set { reader with position := position.toNat }

def skip (amount : UInt64) : ReaderCall Unit := do
  let reader ← get
  let next ← demand (checkedAdd (UInt64.ofNat reader.position) amount) ()
  seek next

def readU8 : ReaderCall UInt8 := do
  let reader ← get
  rejectIf (reader.remaining = 0) ()
  set { reader with position := reader.position + 1 }
  return reader.data.getD reader.position 0

/-- The part every fixed-size read shares: the bytes at the position, which
then moves past them. -/
def take (count : ℕ) : ReaderCall Bytes := do
  let reader ← get
  let bytes ← demand (reader.pointer reader.position count) ()
  set { reader with position := reader.position + count }
  return bytes

/-- The integer whose bytes at increasing addresses are `bytes`. -/
def joinU16 (order : ByteOrder) (bytes : Bytes) : UInt16 :=
  match order with
  | .little => (bytes.getD 0 0).toUInt16 ||| ((bytes.getD 1 0).toUInt16 <<< 8)
  | .big => ((bytes.getD 0 0).toUInt16 <<< 8) ||| (bytes.getD 1 0).toUInt16

def joinU32 (order : ByteOrder) (bytes : Bytes) : UInt32 :=
  match order with
  | .little => bytes.foldr (fun byte value => shiftIn32 value byte) 0
  | .big => bytes.foldl shiftIn32 0

def joinU64 (order : ByteOrder) (bytes : Bytes) : UInt64 :=
  match order with
  | .little => bytes.foldr (fun byte value => shiftIn64 value byte) 0
  | .big => bytes.foldl shiftIn64 0

def readU16 : ReaderCall UInt16 := do
  let bytes ← take 2
  let reader ← get
  return joinU16 reader.order bytes

def readU32 : ReaderCall UInt32 := do
  let bytes ← take 4
  let reader ← get
  return joinU32 reader.order bytes

def readU64 : ReaderCall UInt64 := do
  let bytes ← take 8
  let reader ← get
  return joinU64 reader.order bytes

/-- A field of eight or of four bytes, widened. -/
def readWord (wide : Bool) : ReaderCall UInt64 :=
  if wide then readU64
  else do
    let word ← readU32
    return word.toUInt64

def readI32 : ReaderCall Int32 := do
  let raw ← readU32
  return raw.toInt32

def readI64 : ReaderCall Int64 := do
  let raw ← readU64
  return raw.toInt64

def readBytes (count : ℕ) : ReaderCall Bytes := take count

def readFixedString (count : ℕ) : ReaderCall Bytes := do
  let bytes ← take count
  return bytes.takeWhile fun byte => byte ≠ 0

/-- The string at `offset`, which must end within `limit` bytes. -/
def readCString (reader : ByteReader) (offset limit : UInt64) :
    Option Bytes :=
  if offset.toNat > reader.data.length ∨
      limit.toNat > reader.data.length - offset.toNat then none
  else
    let window := slice reader.data offset.toNat limit.toNat
    if window.contains 0 then some (window.takeWhile fun byte => byte ≠ 0)
    else none

end ByteReader

/-! ## Little-endian output -/

/-- The loop of every little-endian 32-bit writer. -/
def u32Bytes (value : UInt32) : Bytes :=
  (List.range 4).map fun i => (value >>> UInt32.ofNat (i * 8)).toUInt8

/-- The loop of every little-endian 64-bit writer. -/
def u64Bytes (value : UInt64) : Bytes :=
  (List.range 8).map fun i => (value >>> UInt64.ofNat (i * 8)).toUInt8

theorem u32Bytes_eq (value : UInt32) :
    u32Bytes value = littleBytes 4 value.toNat := by
  rw [u32Bytes, littleBytes_eq_map]
  exact List.map_congr_left fun i hi =>
    shiftRight32_toUInt8 value (List.mem_range.mp hi)

theorem u64Bytes_eq (value : UInt64) :
    u64Bytes value = littleBytes 8 value.toNat := by
  rw [u64Bytes, littleBytes_eq_map]
  exact List.map_congr_left fun i hi =>
    shiftRight64_toUInt8 value (List.mem_range.mp hi)

@[simp] theorem u32Bytes_length (value : UInt32) :
    (u32Bytes value).length = 4 := by
  simp [u32Bytes]

@[simp] theorem u64Bytes_length (value : UInt64) :
    (u64Bytes value).length = 8 := by
  simp [u64Bytes]

namespace ByteReader

/-! ## What a read returns -/

variable {reader next : ByteReader}

theorem remaining_eq (reader : ByteReader) :
    reader.remaining = reader.data.length - reader.position := by
  unfold remaining
  split <;> omega

theorem take_eq_ok {count : ℕ} {bytes : Bytes} :
    take count reader = .ok bytes next ↔
      reader.position + count ≤ reader.data.length ∧
        bytes = slice reader.data reader.position count ∧
        next = { reader with position := reader.position + count } := by
  unfold take pointer
  rw [bind_of_ok (get_apply reader)]
  simp only [demand_bind_eq_ok, Option.ite_none_right_eq_some,
    Option.some.injEq, rangeInside_iff, bind_of_ok (set_apply _ _), pure_eq_ok]
  constructor
  · rintro ⟨found, ⟨hfit, rfl⟩, rfl, rfl⟩
    exact ⟨hfit, rfl, rfl⟩
  · rintro ⟨hfit, rfl, rfl⟩
    exact ⟨_, ⟨hfit, rfl⟩, rfl, rfl⟩

theorem readU8_eq_ok {value : UInt8} :
    readU8 reader = .ok value next ↔
      reader.position < reader.data.length ∧
        value = reader.data.getD reader.position 0 ∧
        next = { reader with position := reader.position + 1 } := by
  unfold readU8
  rw [bind_of_ok (get_apply reader)]
  simp only [rejectIf_bind_eq_ok, bind_of_ok (set_apply _ _), pure_eq_ok,
    remaining_eq]
  constructor
  · rintro ⟨hsome, rfl, rfl⟩
    exact ⟨by omega, rfl, rfl⟩
  · rintro ⟨hsome, rfl, rfl⟩
    exact ⟨by omega, rfl, rfl⟩

/-- A read of `count` bytes whose value depends on them and the byte order. -/
theorem take_join_eq_ok {α : Type} {count : ℕ} {join : ByteOrder → Bytes → α}
    {value : α} :
    (do
      let bytes ← take count
      let reader ← get
      return join reader.order bytes : ReaderCall α) reader = .ok value next ↔
      ∃ bytes, take count reader = .ok bytes next ∧
        value = join reader.order bytes := by
  rw [bind_eq_ok]
  constructor
  · rintro ⟨bytes, middle, hbytes, hvalue⟩
    rw [bind_of_ok (get_apply middle), pure_eq_ok] at hvalue
    obtain ⟨rfl, rfl⟩ := hvalue
    obtain ⟨_, _, rfl⟩ := take_eq_ok.mp hbytes
    exact ⟨bytes, hbytes, rfl⟩
  · rintro ⟨bytes, hbytes, rfl⟩
    refine ⟨bytes, next, hbytes, ?_⟩
    rw [bind_of_ok (get_apply next), pure_apply]
    obtain ⟨_, _, rfl⟩ := take_eq_ok.mp hbytes
    rfl

/-! ## Fields of the input

A read returns the field of the input at the reader's position. -/

def u8At (data : Bytes) (offset : ℕ) : UInt8 := data.getD offset 0

def u16At (order : ByteOrder) (data : Bytes) (offset : ℕ) : UInt16 :=
  joinU16 order (slice data offset 2)

def u32At (order : ByteOrder) (data : Bytes) (offset : ℕ) : UInt32 :=
  joinU32 order (slice data offset 4)

def u64At (order : ByteOrder) (data : Bytes) (offset : ℕ) : UInt64 :=
  joinU64 order (slice data offset 8)

def fieldSize (wide : Bool) : ℕ := if wide then 8 else 4

def fieldAt (wide : Bool) (order : ByteOrder) (data : Bytes) (offset : ℕ) :
    UInt64 :=
  if wide then u64At order data offset
  else (u32At order data offset).toUInt64

/-- A field without its padding. -/
def fixedStringAt (data : Bytes) (offset count : ℕ) : Bytes :=
  (slice data offset count).takeWhile fun byte => byte ≠ 0

/-- The reader, moved to another position. -/
def movedTo (reader : ByteReader) (position : ℕ) : ByteReader :=
  { reader with position }

@[simp] theorem movedTo_data (reader : ByteReader) (position : ℕ) :
    (reader.movedTo position).data = reader.data := rfl

@[simp] theorem movedTo_order (reader : ByteReader) (position : ℕ) :
    (reader.movedTo position).order = reader.order := rfl

@[simp] theorem movedTo_position (reader : ByteReader) (position : ℕ) :
    (reader.movedTo position).position = position := rfl

@[simp] theorem movedTo_movedTo (reader : ByteReader) (first second : ℕ) :
    (reader.movedTo first).movedTo second = reader.movedTo second := rfl

theorem seek_eq_ok {position : UInt64} {value : Unit} :
    seek position reader = .ok value next ↔
      position.toNat ≤ reader.data.length ∧
        next = reader.movedTo position.toNat := by
  unfold seek
  rw [bind_of_ok (get_apply reader), rejectIf_bind_eq_ok, not_lt, set_apply,
    EStateM.Result.ok.injEq]
  exact and_congr_right fun _ => ⟨fun h => h.2.symm, fun h => ⟨rfl, h.symm⟩⟩

theorem seek_of_le {position : UInt64}
    (hfit : position.toNat ≤ reader.data.length) :
    seek position reader = .ok () (reader.movedTo position.toNat) :=
  seek_eq_ok.mpr ⟨hfit, rfl⟩

theorem attempt_seek_ok {ε : Type} {position : UInt64} {value : Option Unit}
    (hfit : position.toNat ≤ reader.data.length)
    (hrun : (attempt (seek position) : EStateM ε ByteReader (Option Unit))
      reader = .ok value next) : next = reader.movedTo position.toNat := by
  rw [attempt_of_ok (seek_of_le hfit), EStateM.Result.ok.injEq] at hrun
  exact hrun.2.symm

/-- The same with the bytes that are there. -/
theorem take_map_eq_ok {α : Type} {count : ℕ} {join : ByteOrder → Bytes → α}
    {value : α} :
    (do
      let bytes ← take count
      let reader ← get
      return join reader.order bytes : ReaderCall α) reader = .ok value next ↔
      reader.position + count ≤ reader.data.length ∧
        value = join reader.order (slice reader.data reader.position count) ∧
        next = reader.movedTo (reader.position + count) := by
  rw [take_join_eq_ok]
  constructor
  · rintro ⟨bytes, hbytes, rfl⟩
    obtain ⟨hfit, rfl, rfl⟩ := take_eq_ok.mp hbytes
    exact ⟨hfit, rfl, rfl⟩
  · rintro ⟨hfit, rfl, rfl⟩
    exact ⟨_, take_eq_ok.mpr ⟨hfit, rfl, rfl⟩, rfl⟩

theorem readU8_at {value : UInt8} :
    readU8 reader = .ok value next ↔
      reader.position + 1 ≤ reader.data.length ∧
        value = u8At reader.data reader.position ∧
        next = reader.movedTo (reader.position + 1) :=
  readU8_eq_ok

theorem readU16_at {value : UInt16} :
    readU16 reader = .ok value next ↔
      reader.position + 2 ≤ reader.data.length ∧
        value = u16At reader.order reader.data reader.position ∧
        next = reader.movedTo (reader.position + 2) :=
  take_map_eq_ok

theorem readU32_at {value : UInt32} :
    readU32 reader = .ok value next ↔
      reader.position + 4 ≤ reader.data.length ∧
        value = u32At reader.order reader.data reader.position ∧
        next = reader.movedTo (reader.position + 4) :=
  take_map_eq_ok

theorem readU64_at {value : UInt64} :
    readU64 reader = .ok value next ↔
      reader.position + 8 ≤ reader.data.length ∧
        value = u64At reader.order reader.data reader.position ∧
        next = reader.movedTo (reader.position + 8) :=
  take_map_eq_ok

theorem readWord_at {wide : Bool} {value : UInt64} :
    readWord wide reader = .ok value next ↔
      reader.position + fieldSize wide ≤ reader.data.length ∧
        value = fieldAt wide reader.order reader.data reader.position ∧
        next = reader.movedTo (reader.position + fieldSize wide) := by
  unfold readWord
  cases wide with
  | true => exact readU64_at
  | false =>
      rw [if_neg Bool.false_ne_true, bind_eq_ok]
      constructor
      · rintro ⟨word, middle, hword, hvalue⟩
        obtain ⟨hfit, rfl, rfl⟩ := readU32_at.mp hword
        rw [pure_eq_ok] at hvalue
        obtain ⟨rfl, rfl⟩ := hvalue
        exact ⟨hfit, rfl, rfl⟩
      · rintro ⟨hfit, rfl, rfl⟩
        exact ⟨_, _, readU32_at.mpr ⟨hfit, rfl, rfl⟩, rfl⟩

theorem readFixedString_at {count : ℕ} {value : Bytes} :
    readFixedString count reader = .ok value next ↔
      reader.position + count ≤ reader.data.length ∧
        value = fixedStringAt reader.data reader.position count ∧
        next = reader.movedTo (reader.position + count) := by
  unfold readFixedString
  rw [bind_eq_ok]
  constructor
  · rintro ⟨bytes, middle, hbytes, hvalue⟩
    obtain ⟨hfit, rfl, rfl⟩ := take_eq_ok.mp hbytes
    rw [pure_eq_ok] at hvalue
    exact ⟨hfit, hvalue.1.symm, hvalue.2.symm⟩
  · rintro ⟨hfit, rfl, rfl⟩
    exact ⟨_, _, take_eq_ok.mpr ⟨hfit, rfl, rfl⟩, rfl⟩

/-! ## Reading back what was written -/

/-- A little-endian reader with exactly these bytes ahead of it. -/
structure LittleAhead (reader : ByteReader) (bytes : Bytes) : Prop where
  order : reader.order = .little
  inside : reader.position ≤ reader.data.length
  bytes : reader.data.drop reader.position = bytes

theorem LittleAhead.remaining {bytes : Bytes}
    (hahead : LittleAhead reader bytes) : reader.remaining = bytes.length := by
  rw [remaining_eq, ← hahead.bytes, List.length_drop]

theorem take_consumes (bytes : Bytes) :
    Consumes LittleAhead 0 (take bytes.length) bytes bytes := by
  intro cursor tail _ hahead
  have hlength := congrArg List.length hahead.bytes
  rw [List.length_drop, List.length_append] at hlength
  have hinside := hahead.inside
  refine ⟨{ cursor with position := cursor.position + bytes.length },
    take_eq_ok.mpr ⟨by omega, ?_, rfl⟩, hahead.order,
    (by show cursor.position + bytes.length ≤ cursor.data.length; omega), ?_⟩
  · rw [slice, hahead.bytes, List.take_left]
  · show cursor.data.drop (cursor.position + bytes.length) = tail
    rw [← List.drop_drop, hahead.bytes, List.drop_left]

theorem readBytes_consumes (bytes : Bytes) :
    Consumes LittleAhead 0 (readBytes bytes.length) bytes bytes :=
  take_consumes bytes

theorem readU8_consumes (value : UInt8) :
    Consumes LittleAhead 0 readU8 [value] value := by
  intro cursor tail _ hahead
  have hlength := congrArg List.length hahead.bytes
  rw [List.length_drop, List.length_append, List.length_singleton] at hlength
  have hhead : cursor.data[cursor.position]? = some value := by
    rw [← Nat.add_zero cursor.position, ← List.getElem?_drop, hahead.bytes]
    rfl
  refine ⟨{ cursor with position := cursor.position + 1 },
    readU8_eq_ok.mpr ⟨by omega, ?_, rfl⟩, hahead.order,
    (by show cursor.position + 1 ≤ cursor.data.length; omega), ?_⟩
  · rw [List.getD_eq_getElem?_getD, hhead, Option.getD_some]
  · show cursor.data.drop (cursor.position + 1) = tail
    rw [← List.drop_drop, hahead.bytes]
    rfl

theorem joinU32_u32Bytes (value : UInt32) :
    joinU32 .little (u32Bytes value) = value := by
  apply UInt32.toNat_inj.mp
  rw [joinU32, foldr_shiftIn32_toNat (by simp), u32Bytes_eq,
    littleValue_littleBytes_of_lt value.toNat_lt]

theorem joinU64_u64Bytes (value : UInt64) :
    joinU64 .little (u64Bytes value) = value := by
  apply UInt64.toNat_inj.mp
  rw [joinU64, foldr_shiftIn64_toNat (by simp), u64Bytes_eq,
    littleValue_littleBytes_of_lt value.toNat_lt]

theorem take_join_consumes {α : Type} {join : ByteOrder → Bytes → α}
    {bytes : Bytes} {value : α} (hjoin : join .little bytes = value) :
    Consumes LittleAhead 0 (do
      let taken ← take bytes.length
      let reader ← get
      return join reader.order taken) bytes value := by
  intro cursor tail _ hahead
  obtain ⟨next, hrun, hnext⟩ := take_consumes bytes cursor tail
    (Nat.zero_le _) hahead
  refine ⟨next, take_join_eq_ok.mpr ⟨_, hrun, ?_⟩, hnext⟩
  rw [hahead.order, hjoin]

theorem readU32_consumes (value : UInt32) :
    Consumes LittleAhead 0 readU32 (u32Bytes value) value :=
  take_join_consumes (joinU32_u32Bytes value)

theorem readU64_consumes (value : UInt64) :
    Consumes LittleAhead 0 readU64 (u64Bytes value) value :=
  take_join_consumes (joinU64_u64Bytes value)

theorem readI64_consumes (value : Int64) :
    Consumes LittleAhead 0 readI64 (u64Bytes value.toUInt64) value :=
  (readU64_consumes value.toUInt64).bind_last (Consumes.pure _)

/-! ## What an accepted read has taken -/

theorem take_yields (count : ℕ) :
    Yields LittleAhead (take count) fun value taken =>
      value = taken ∧ taken.length = count := by
  intro cursor items value next hahead hrun
  obtain ⟨hfit, rfl, rfl⟩ := take_eq_ok.mp hrun
  refine ⟨slice cursor.data cursor.position count,
    cursor.data.drop (cursor.position + count), ?_, ⟨hahead.order, hfit, rfl⟩,
    rfl, slice_length hfit⟩
  rw [← hahead.bytes, slice, ← List.drop_drop, List.take_append_drop]

theorem readBytes_yields (count : ℕ) :
    Yields LittleAhead (readBytes count) fun value taken =>
      value = taken ∧ taken.length = count :=
  take_yields count

theorem readU8_yields :
    Yields LittleAhead readU8 fun value taken => taken = [value] := by
  intro cursor items value next hahead hrun
  obtain ⟨hfit, rfl, rfl⟩ := readU8_eq_ok.mp hrun
  refine ⟨_, cursor.data.drop (cursor.position + 1), ?_,
    ⟨hahead.order, hfit, rfl⟩, rfl⟩
  rw [← hahead.bytes, List.drop_eq_getElem_cons hfit,
    List.getD_eq_getElem _ _ hfit]
  rfl

theorem u32Bytes_joinU32 {bytes : Bytes} (hlength : bytes.length = 4) :
    u32Bytes (joinU32 .little bytes) = bytes := by
  rw [u32Bytes_eq, joinU32, foldr_shiftIn32_toNat hlength.le, ← hlength,
    littleBytes_littleValue]

theorem u64Bytes_joinU64 {bytes : Bytes} (hlength : bytes.length = 8) :
    u64Bytes (joinU64 .little bytes) = bytes := by
  rw [u64Bytes_eq, joinU64, foldr_shiftIn64_toNat hlength.le, ← hlength,
    littleBytes_littleValue]

theorem take_join_yields {α : Type} {join : ByteOrder → Bytes → α}
    {count : ℕ} {write : α → Bytes}
    (hwrite : ∀ {bytes : Bytes}, bytes.length = count →
      write (join .little bytes) = bytes) :
    Yields LittleAhead (do
      let bytes ← take count
      let reader ← get
      return join reader.order bytes) fun value taken => taken = write value := by
  intro cursor items value next hahead hrun
  obtain ⟨bytes, hbytes, rfl⟩ := take_join_eq_ok.mp hrun
  obtain ⟨taken, tail, hitems, hnext, rfl, hlength⟩ :=
    take_yields count cursor items bytes next hahead hbytes
  refine ⟨bytes, tail, hitems, hnext, ?_⟩
  show bytes = write (join cursor.order bytes)
  rw [hahead.order, hwrite hlength]

theorem readU32_yields :
    Yields LittleAhead readU32 fun value taken => taken = u32Bytes value :=
  take_join_yields u32Bytes_joinU32

theorem readU64_yields :
    Yields LittleAhead readU64 fun value taken => taken = u64Bytes value :=
  take_join_yields u64Bytes_joinU64

end ByteReader

/-! ## Checksummed containers

Containers end with the checksum of everything before it. -/

/-- The 32-bit word in the last four bytes. -/
def trailerWord (data : Bytes) : UInt32 :=
  (data.getD (data.length - 4) 0).toUInt32 |||
    ((data.getD (data.length - 3) 0).toUInt32 <<< 8) |||
    ((data.getD (data.length - 2) 0).toUInt32 <<< 16) |||
    ((data.getD (data.length - 1) 0).toUInt32 <<< 24)

open ByteReader

private theorem joinU32_four (a b c d : UInt8) :
    joinU32 .little [a, b, c, d] =
      a.toUInt32 ||| (b.toUInt32 <<< 8) ||| (c.toUInt32 <<< 16) |||
        (d.toUInt32 <<< 24) := by
  have hsixteen : ∀ x : UInt32, x <<< 16 = (x <<< 8) <<< 8 :=
    fun x => UInt32.shiftLeft_add (a := x) (b := 8) (c := 8) (by decide)
      (by decide) (by decide)
  have htwentyFour : ∀ x : UInt32, x <<< 24 = (x <<< 16) <<< 8 :=
    fun x => UInt32.shiftLeft_add (a := x) (b := 16) (c := 8) (by decide)
      (by decide) (by decide)
  rw [htwentyFour, hsixteen, hsixteen]
  show shiftIn32 (shiftIn32 (shiftIn32 (shiftIn32 0 d) c) b) a = _
  rw [shiftIn32, shiftIn32, shiftIn32, shiftIn32, UInt32.zero_shiftLeft,
    UInt32.zero_or, UInt32.shiftLeft_or, UInt32.shiftLeft_or,
    UInt32.shiftLeft_or]
  -- The four places are atoms from here on.
  generalize d.toUInt32 <<< 8 <<< 8 <<< 8 = fourth
  generalize c.toUInt32 <<< 8 <<< 8 = third
  generalize b.toUInt32 <<< 8 = second
  ac_rfl

theorem trailerWord_append (body : Bytes) (value : UInt32) :
    trailerWord (body ++ u32Bytes value) = value := by
  obtain ⟨a, b, c, d, hbytes⟩ : ∃ a b c d, u32Bytes value = [a, b, c, d] :=
    ⟨_, _, _, _, rfl⟩
  have hvalue := joinU32_u32Bytes value
  rw [hbytes, joinU32_four] at hvalue
  rw [trailerWord, hbytes]
  simp only [List.length_append, List.length_cons, List.length_nil,
    List.getD_eq_getElem?_getD]
  have hplace : ∀ k, 1 ≤ k → k ≤ 4 →
      (body ++ [a, b, c, d])[body.length + (0 + 1 + 1 + 1 + 1) - k]? =
        [a, b, c, d][4 - k]? := by
    intro k hlow hhigh
    rw [List.getElem?_append_right (by omega)]
    congr 1
    omega
  rw [hplace 4 (by omega) le_rfl, hplace 3 (by omega) (by omega),
    hplace 2 (by omega) (by omega), hplace 1 le_rfl (by omega)]
  exact hvalue

/-- A signature, a body and the checksum of both. -/
def sealContainer (signature body : Bytes) : Bytes :=
  let output := signature ++ body
  output ++ u32Bytes (crc32 output)

section Container

variable {signature body : Bytes} (hsignature : signature.length = 4)
include hsignature

theorem sealContainer_length :
    (sealContainer signature body).length = 8 + body.length := by
  simp only [sealContainer, List.length_append, u32Bytes_length, hsignature]
  omega

theorem sealContainer_signature :
    (sealContainer signature body).take 4 = signature := by
  rw [sealContainer, List.append_assoc]
  exact List.take_left' hsignature

theorem sealContainer_summed :
    (sealContainer signature body).take
      ((sealContainer signature body).length - 4) = signature ++ body := by
  apply List.take_left'
  rw [sealContainer_length hsignature, List.length_append, hsignature]
  omega

theorem sealContainer_body :
    slice (sealContainer signature body) 4
      ((sealContainer signature body).length - 8) = body := by
  rw [sealContainer_length hsignature, Nat.add_sub_cancel_left, slice,
    sealContainer, List.append_assoc, List.drop_left' hsignature]
  exact List.take_left' rfl

theorem sealContainer_checksum :
    trailerWord (sealContainer signature body) =
      crc32 ((sealContainer signature body).take
        ((sealContainer signature body).length - 4)) := by
  rw [sealContainer_summed hsignature, sealContainer, trailerWord_append]

end Container

/-- The trailer holds its word's bytes. -/
theorem u32Bytes_trailerWord {data : Bytes} (hlength : 4 ≤ data.length) :
    u32Bytes (trailerWord data) = data.drop (data.length - 4) := by
  have hcount : (data.drop (data.length - 4)).length = 4 := by
    rw [List.length_drop]
    omega
  have hword := trailerWord_append (data.take (data.length - 4))
    (joinU32 .little (data.drop (data.length - 4)))
  rw [u32Bytes_joinU32 hcount, List.take_append_drop] at hword
  rw [hword, u32Bytes_joinU32 hcount]

/-- A container with the right signature and checksum is a sealed one. -/
theorem sealContainer_of_checked {data signature : Bytes}
    (hlength : 8 ≤ data.length) (hsignature : data.take 4 = signature)
    (hchecksum : trailerWord data = crc32 (data.take (data.length - 4))) :
    data = sealContainer signature (slice data 4 (data.length - 8)) := by
  have hsummed : signature ++ slice data 4 (data.length - 8) =
      data.take (data.length - 4) := by
    rw [← hsignature, slice, ← List.take_add]
    congr 1
    omega
  rw [sealContainer, hsummed, ← hchecksum,
    u32Bytes_trailerWord (by omega), List.take_append_drop]

end BinForge
