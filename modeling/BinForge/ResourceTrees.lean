import BinForge.PeResources
import BinForge.Unfolding
import BinForge.Utf8Codec

/-!
# Resource directories as trees

The bytes of a resource area say of every directory which entries it lists.
A parse succeeds exactly when the root unfolds to a finite tree within the
limits, and then reports the leaves of that tree in order.  The set of active
directories decides nothing else.
-/

namespace BinForge

open StatefulExcept
open ByteReader
open Unfolding

namespace PeResourceParser

/-! ## What the bytes say -/

/-- The part of a file that holds the resources, with the limits it is read
under. -/
structure ResourceArea where
  limits : Limits
  image : BinaryImage
  baseFile : UInt64
  directorySize : UInt64

/-- The payload of a leaf. -/
structure ResourceData where
  fileOffset : UInt64
  size : UInt64
  codePage : UInt32
  deriving DecidableEq, Repr

/-- The UTF-16 units from this place on. -/
def unitsAt (data : Bytes) : ℕ → ℕ → List UInt16
  | _, 0 => []
  | place, count + 1 =>
      u16At .little data place :: unitsAt data (place + 2) count

def Surrogate (unit : UInt16) : Prop := 0xd800 ≤ unit ∧ unit ≤ 0xdfff

instance (unit : UInt16) : Decidable (Surrogate unit) :=
  inferInstanceAs (Decidable (_ ∧ _))

namespace ResourceArea

def bytes (area : ResourceArea) : Bytes := area.image.fileData.getD []

def halfAt (area : ResourceArea) (place : ℕ) : UInt16 :=
  u16At .little area.bytes (area.baseFile.toNat + place)

def wordAt (area : ResourceArea) (place : ℕ) : UInt32 :=
  u32At .little area.bytes (area.baseFile.toNat + place)

/-- A counted UTF-16 string without surrogates, in UTF-8. -/
def textAt (area : ResourceArea) (place : ℕ) : Option Bytes :=
  let count := (area.halfAt place).toNat
  let units := unitsAt area.bytes (area.baseFile.toNat + place + 2) count
  if place + 2 + 2 * count ≤ area.directorySize.toNat ∧
      2 * count ≤ area.limits.maxStringBytes.toNat ∧
      units.all fun unit => ¬Surrogate unit then
    some (units.flatMap fun unit => encodedValue unit.toNat)
  else none

def identifierAt (area : ResourceArea) (encoded : UInt32) :
    Option ResourceIdentifier :=
  if encoded &&& 0x80000000 = 0 then some { integer := some encoded }
  else (area.textAt (encoded &&& 0x7fffffff).toNat).map fun name => { name }

def dataAt (area : ResourceArea) (place : ℕ) : Option ResourceData :=
  if place + 16 ≤ area.directorySize.toNat then
    let size := (area.wordAt (place + 4)).toUInt64
    (AddressTranslator.rvaToFile area.image (area.wordAt place).toUInt64
      size).map fun found =>
        { fileOffset := found.fileOffset, size
          codePage := area.wordAt (place + 8) }
  else none

/-- A leaf or, where the highest bit of the target is set, a directory. -/
def entryAt (area : ResourceArea) (place : ℕ) :
    Option (Entry ResourceIdentifier ResourceData UInt64) := do
  let identifier ← area.identifierAt (area.wordAt place)
  let encoded := area.wordAt (place + 4)
  let target := encoded &&& 0x7fffffff
  if encoded &&& 0x80000000 ≠ 0 then return (identifier, .inr target.toUInt64)
  else do
    let data ← area.dataAt target.toNat
    return (identifier, .inl data)

/-- The named entries and those with integers. -/
def entryCount (area : ResourceArea) (place : ℕ) : ℕ :=
  (area.halfAt (place + 12)).toNat + (area.halfAt (place + 14)).toNat

def directoryAt (area : ResourceArea) :
    Graph ResourceIdentifier ResourceData UInt64 := fun relative =>
  let place := relative.toNat
  if place + 16 + 8 * area.entryCount place ≤ area.directorySize.toNat ∧
      area.entryCount place ≤ area.limits.maxSections.toNat then
    (List.range (area.entryCount place)).mapM fun index =>
      area.entryAt (place + 16 + 8 * index)
  else none

/-- The area lies in the file. -/
structure Backed (area : ResourceArea) : Prop where
  inside : area.baseFile.toNat + area.directorySize.toNat ≤ area.bytes.length
  addressable : area.bytes.length < 2 ^ 64

end ResourceArea

variable {area : ResourceArea}

/-! ## Names -/

theorem shiftRight_toUInt8 (mark unit shift : UInt16)
    (hshift : shift.toNat < 16) :
    (mark ||| (unit >>> shift)).toUInt8 =
      (mark.toUInt32 ||| (unit.toUInt32 >>> shift.toUInt32)).toUInt8 := by
  have hwide : shift.toNat % 32 = shift.toNat := Nat.mod_eq_of_lt (by omega)
  rw [← UInt8.toNat_inj, UInt16.toNat_toUInt8, UInt32.toNat_toUInt8,
    UInt16.toNat_or, UInt32.toNat_or, UInt16.toNat_shiftRight,
    UInt32.toNat_shiftRight, UInt16.toNat_toUInt32, UInt16.toNat_toUInt32,
    UInt16.toNat_toUInt32, Nat.mod_eq_of_lt hshift, hwide]

theorem tail_toUInt8 (unit shift : UInt16) (hshift : shift.toNat < 16) :
    ((0x80 : UInt16) ||| ((unit >>> shift) &&& 0x3f)).toUInt8 =
      ((0x80 : UInt32) |||
        ((unit.toUInt32 >>> shift.toUInt32) &&& 0x3f)).toUInt8 := by
  have hwide : shift.toNat % 32 = shift.toNat := Nat.mod_eq_of_lt (by omega)
  rw [← UInt8.toNat_inj, UInt16.toNat_toUInt8, UInt32.toNat_toUInt8,
    UInt16.toNat_or, UInt32.toNat_or, UInt16.toNat_and, UInt32.toNat_and,
    UInt16.toNat_shiftRight, UInt32.toNat_shiftRight, UInt16.toNat_toUInt32,
    UInt16.toNat_toUInt32, Nat.mod_eq_of_lt hshift, hwide]
  rfl

/-- A unit is written as the code point it is. -/
theorem appendUnit_eq (name : Bytes) (unit : UInt16) :
    appendUnit name unit = name ++ encodedValue unit.toNat := by
  have hsmall := unit.toNat_lt
  have hwide : unit.toUInt32.toNat = unit.toNat := UInt16.toNat_toUInt32 _
  have hbelow : ∀ bound : UInt16, unit < bound ↔
      unit.toUInt32 < bound.toUInt32 := by
    intro bound
    rw [UInt16.lt_iff_toNat_lt, UInt32.lt_iff_toNat_lt, hwide,
      UInt16.toNat_toUInt32]
  have hlast : unit.toUInt32 < 0x10000 := by
    rw [UInt32.lt_iff_toNat_lt, hwide]
    exact hsmall
  have hsame : appendUnit name unit = appendUtf8 name unit.toUInt32 := by
    have hbyte : unit.toUInt8 = unit.toUInt32.toUInt8 := by
      rw [← UInt8.toNat_inj, UInt16.toNat_toUInt8, UInt32.toNat_toUInt8, hwide]
    unfold appendUnit appendUtf8
    dsimp only
    rw [if_pos hlast, tail_toUInt8 unit 0 (by decide),
      tail_toUInt8 unit 6 (by decide), shiftRight_toUInt8 _ unit 6 (by decide),
      shiftRight_toUInt8 _ unit 12 (by decide), hbyte]
    exact if_congr (hbelow 0x80) rfl (if_congr (hbelow 0x800) rfl rfl)
  rw [hsame, appendUtf8_eq name (by omega), hwide]

theorem readUnit_eq_ok {relative : UInt64} {name result : Bytes}
    {reader next : ByteReader} {index : ℕ} (horder : reader.order = .little)
    (hroom : reader.position + 2 ≤ reader.data.length) :
    readUnit relative name index reader = .ok result next ↔
      ¬Surrogate (u16At .little reader.data reader.position) ∧
        result = name ++
          encodedValue (u16At .little reader.data reader.position).toNat ∧
        next = reader.movedTo (reader.position + 2) := by
  have hread : silently readU16 reader =
      .ok (u16At .little reader.data reader.position)
        (reader.movedTo (reader.position + 2)) :=
    adaptError_eq_ok.mpr (readU16_at.mpr ⟨hroom, by rw [horder], rfl⟩)
  rw [readUnit, bind_of_ok hread, rejectIf_bind_eq_ok, pure_eq_ok,
    appendUnit_eq]
  exact and_congr_right fun _ => and_congr eq_comm eq_comm

theorem readUnits_eq_ok {relative : UInt64} {name result : Bytes}
    {reader next : ByteReader} {index count : ℕ}
    (horder : reader.order = .little)
    (hroom : reader.position + 2 * count ≤ reader.data.length) :
    (List.range' index count).foldlM (readUnit relative) name reader =
        .ok result next ↔
      (∀ unit ∈ unitsAt reader.data reader.position count, ¬Surrogate unit) ∧
        result = name ++ (unitsAt reader.data reader.position count).flatMap
          (fun unit => encodedValue unit.toNat) ∧
        next = reader.movedTo (reader.position + 2 * count) := by
  induction count generalizing index name reader with
  | zero =>
      rw [List.range'_zero, List.foldlM_nil, pure_eq_ok]
      simp only [unitsAt, List.not_mem_nil, false_implies, implies_true,
        List.flatMap_nil, List.append_nil, Nat.mul_zero, Nat.add_zero, true_and]
      exact and_congr eq_comm eq_comm
  | succ count ih =>
      have hmore : (reader.movedTo (reader.position + 2)).position +
          2 * count ≤ (reader.movedTo (reader.position + 2)).data.length := by
        rw [movedTo_position, movedTo_data]
        omega
      have hsame : (reader.movedTo (reader.position + 2)).order = .little :=
        horder
      have hmoved : reader.position + 2 * (count + 1) =
          reader.position + 2 + 2 * count := by omega
      rw [List.range'_succ, List.foldlM_cons, bind_eq_ok, unitsAt,
        List.forall_mem_cons, List.flatMap_cons, ← List.append_assoc, hmoved]
      constructor
      · rintro ⟨passed, middle, hunit, hrest⟩
        obtain ⟨hplain, rfl, rfl⟩ :=
          (readUnit_eq_ok horder (by omega)).mp hunit
        obtain ⟨hplains, hresult, hnext⟩ := (ih hsame hmore).mp hrest
        exact ⟨⟨hplain, hplains⟩, hresult, hnext⟩
      · rintro ⟨⟨hplain, hplains⟩, hresult, hnext⟩
        exact ⟨_, _, (readUnit_eq_ok horder (by omega)).mpr
          ⟨hplain, rfl, rfl⟩, (ih hsame hmore).mpr ⟨hplains, hresult, hnext⟩⟩

theorem target_lt (encoded : UInt32) : (encoded &&& 0x7fffffff).toNat < 2 ^ 31 := by
  have hmask : (0x7fffffff : UInt32).toNat = 2 ^ 31 - 1 := by decide
  rw [UInt32.toNat_and, hmask, Nat.and_two_pow_sub_one_eq_mod]
  exact Nat.mod_lt _ (by decide)

theorem half_doubled (unit : UInt16) :
    (unit.toUInt64 * 2).toNat = 2 * unit.toNat := by
  have hsmall := unit.toNat_lt
  rw [UInt64.toNat_mul, UInt16.toNat_toUInt64]
  simp only [UInt64.reduceToNat]
  omega

theorem ResourceArea.Backed.place_toNat (hbacked : area.Backed)
    {relative : UInt64} (hroom : relative.toNat ≤ area.directorySize.toNat) :
    (area.baseFile + relative).toNat =
      area.baseFile.toNat + relative.toNat := by
  have hinside := hbacked.inside
  have haddressable := hbacked.addressable
  exact toNat_add_of_fit (by omega)

theorem all_plain {units : List UInt16} :
    (units.all fun unit => ¬Surrogate unit) = true ↔
      ∀ unit ∈ units, ¬Surrogate unit := by
  simp only [List.all_eq_true, decide_eq_true_eq]

theorem readResourceName_eq_ok (hbacked : area.Backed) {relative : UInt64}
    {identifier : ResourceIdentifier} (htarget : relative.toNat < 2 ^ 31)
    (hroom : relative.toNat + 2 ≤ area.directorySize.toNat) :
    (∃ next, readResourceName area.baseFile area.directorySize relative
        area.limits.maxStringBytes { data := area.bytes } =
          .ok identifier next) ↔
      (area.textAt relative.toNat).map (fun name => { name }) =
        some identifier := by
  have hinside := hbacked.inside
  have hplace := hbacked.place_toNat (Nat.le_of_add_right_le hroom)
  have hseek : silently (seek (area.baseFile + relative))
      { data := area.bytes } = .ok () { data := area.bytes
                                        position := area.baseFile.toNat +
                                          relative.toNat } := by
    refine adaptError_eq_ok.mpr (seek_eq_ok.mpr ?_)
    rw [hplace]
    exact ⟨by show _ ≤ area.bytes.length; omega, rfl⟩
  have hread : silently readU16 { data := area.bytes
                                  position := area.baseFile.toNat +
                                    relative.toNat } =
      .ok (area.halfAt relative.toNat)
        { data := area.bytes
          position := area.baseFile.toNat + relative.toNat + 2 } :=
    adaptError_eq_ok.mpr (readU16_at.mpr
      ⟨by show _ ≤ area.bytes.length; dsimp only; omega, rfl, rfl⟩)
  have hbehind : (relative + 2).toNat = relative.toNat + 2 :=
    toNat_add_of_fit (by show _ + 2 < 2 ^ 64; omega)
  have hrun : ∀ next, readResourceName area.baseFile area.directorySize
      relative area.limits.maxStringBytes { data := area.bytes } =
        .ok identifier next ↔
      (2 * (area.halfAt relative.toNat).toNat ≤
          area.limits.maxStringBytes.toNat ∧
        relative.toNat + 2 + 2 * (area.halfAt relative.toNat).toNat ≤
          area.directorySize.toNat) ∧
      ∃ name middle, (List.range' 0
          (area.halfAt relative.toNat).toNat).foldlM (readUnit relative) []
            { data := area.bytes
              position := area.baseFile.toNat + relative.toNat + 2 } =
          .ok name middle ∧ identifier = { name } ∧ next = middle := by
    intro next
    unfold readResourceName
    rw [bind_of_ok hseek, bind_of_ok hread, rejectIf_bind_eq_ok, bind_eq_ok,
      rangeInside_eq_false, hbehind, half_doubled, gt_iff_lt,
      UInt64.lt_iff_toNat_lt, half_doubled, not_or, not_lt, not_not,
      List.range_eq_range']
    refine and_congr_right fun _ => exists_congr fun name =>
      exists_congr fun middle => and_congr_right fun _ => ?_
    rw [pure_eq_ok]
    exact and_congr eq_comm eq_comm
  unfold ResourceArea.textAt
  simp only [hrun]
  constructor
  · rintro ⟨next, ⟨hlimit, hfits⟩, name, middle, hunits, rfl, -⟩
    obtain ⟨hplain, rfl, -⟩ := (readUnits_eq_ok rfl (by
      show _ ≤ area.bytes.length
      dsimp only
      omega)).mp hunits
    rw [if_pos ⟨hfits, hlimit, all_plain.mpr hplain⟩, List.nil_append]
    rfl
  · intro htext
    split at htext
    · rename_i hwhole
      obtain ⟨hfits, hlimit, hplain⟩ := hwhole
      refine ⟨_, ⟨hlimit, hfits⟩, _, _, (readUnits_eq_ok rfl (by
        show _ ≤ area.bytes.length
        dsimp only
        omega)).mpr ⟨all_plain.mp hplain, rfl, rfl⟩, ?_, rfl⟩
      exact (Option.some.inj htext).symm
    · cases htext

theorem resourceName_eq_ok (hbacked : area.Backed) {encoded : UInt32}
    {identifier : ResourceIdentifier} :
    resourceName area.image area.baseFile area.directorySize encoded
        area.limits.maxStringBytes = .ok identifier ↔
      area.identifierAt encoded = some identifier := by
  unfold resourceName ResourceArea.identifierAt
  split
  · exact ⟨fun h => congrArg some (Except.ok.inj h),
      fun h => congrArg Except.ok (Option.some.inj h)⟩
  · have htarget := target_lt encoded
    generalize encoded &&& 0x7fffffff = relative at htarget ⊢
    have hwide : relative.toUInt64.toNat = relative.toNat :=
      UInt32.toNat_toUInt64 _
    rw [rejectIf_except_bind_eq_ok, Bool.not_eq_false, rangeInside_iff, hwide,
      evaluate_eq_ok, ← hwide]
    by_cases hroom : relative.toUInt64.toNat + 2 ≤ area.directorySize.toNat
    · rw [and_iff_right hroom]
      exact readResourceName_eq_ok hbacked (hwide.trans_lt htarget) hroom
    · refine iff_of_false (fun hname => hroom hname.1) ?_
      unfold ResourceArea.textAt
      rw [if_neg fun hwhole => hroom (by omega)]
      exact (Option.some_ne_none _).symm

/-! ## Reads of the walk -/

/-- The walk reads the file and is within its limit on leaves. -/
structure ResourceArea.Read (area : ResourceArea) (state : WalkState) :
    Prop where
  data : state.reader.data = area.bytes
  order : state.reader.order = .little
  count : state.report.entries.length ≤ area.limits.maxSections.toNat

/-- The state with its reader at this place of the area. -/
def WalkState.at (area : ResourceArea) (state : WalkState) (place : ℕ) :
    WalkState :=
  { state with reader := state.reader.movedTo (area.baseFile.toNat + place) }

variable {state next : WalkState} {relative : UInt64}

theorem onReader_eq_ok {α : Type} {action : DecodeCall α} {value : α} :
    onReader action state = .ok value next ↔
      ∃ reader, action state.reader = .ok value reader ∧
        next = { state with reader } := by
  unfold onReader
  cases action state.reader with
  | ok found reader =>
      constructor
      · rintro ⟨⟩
        exact ⟨_, rfl, rfl⟩
      · rintro ⟨_, ⟨⟩, rfl⟩
        rfl
  | error why reader =>
      constructor
      · rintro ⟨⟩
      · rintro ⟨_, ⟨⟩, _⟩

theorem ResourceArea.Read.at (hread : area.Read state) (place : ℕ) :
    area.Read (state.at area place) :=
  ⟨hread.data, hread.order, hread.count⟩

theorem seek_at (hbacked : area.Backed) (hread : area.Read state)
    {why : ByteReader → Unit → Failure} {place : UInt64}
    (hplace : place.toNat ≤ area.directorySize.toNat) :
    onReader (adaptError why (seek (area.baseFile + place))) state =
      .ok () (state.at area place.toNat) := by
  have hinside := hbacked.inside
  have htarget := hbacked.place_toNat hplace
  refine onReader_eq_ok.mpr ⟨_, adaptError_eq_ok.mpr (seek_eq_ok.mpr
    ⟨?_, rfl⟩), ?_⟩
  · rw [htarget, hread.data]
    omega
  · rw [htarget]
    rfl

theorem readU32_then {α : Type} {rest : UInt32 → ReaderCall α}
    {reader : ByteReader} (hroom : reader.position + 4 ≤ reader.data.length) :
    (readU32 >>= rest) reader =
      rest (u32At reader.order reader.data reader.position)
        (reader.movedTo (reader.position + 4)) :=
  bind_of_ok (readU32_at.mpr ⟨hroom, rfl, rfl⟩)

theorem readU16_then {α : Type} {rest : UInt16 → ReaderCall α}
    {reader : ByteReader} (hroom : reader.position + 2 ≤ reader.data.length) :
    (readU16 >>= rest) reader =
      rest (u16At reader.order reader.data reader.position)
        (reader.movedTo (reader.position + 2)) :=
  bind_of_ok (readU16_at.mpr ⟨hroom, rfl, rfl⟩)

theorem readHeader_of {reader : ByteReader}
    (hroom : reader.position + 16 ≤ reader.data.length) :
    readHeader reader =
      .ok (u16At reader.order reader.data (reader.position + 12),
          u16At reader.order reader.data (reader.position + 14))
        (reader.movedTo (reader.position + 16)) := by
  unfold readHeader
  rw [readU32_then (by omega), readU32_then (by dsimp; omega),
    readU16_then (by dsimp; omega), readU16_then (by dsimp; omega),
    readU16_then (by dsimp; omega), readU16_then (by dsimp; omega)]
  rfl

theorem readTwo_of {reader : ByteReader}
    (hroom : reader.position + 8 ≤ reader.data.length) :
    readTwo reader =
      .ok (u32At reader.order reader.data reader.position,
          u32At reader.order reader.data (reader.position + 4))
        (reader.movedTo (reader.position + 8)) := by
  unfold readTwo
  rw [readU32_then (by omega), readU32_then (by dsimp; omega)]
  rfl

theorem readDataEntry_of {reader : ByteReader}
    (hroom : reader.position + 16 ≤ reader.data.length) :
    readDataEntry reader =
      .ok (u32At reader.order reader.data reader.position,
          u32At reader.order reader.data (reader.position + 4),
          u32At reader.order reader.data (reader.position + 8))
        (reader.movedTo (reader.position + 16)) := by
  unfold readDataEntry
  rw [readU32_then (by omega), readU32_then (by dsimp; omega),
    readU32_then (by dsimp; omega), readU32_then (by dsimp; omega)]
  rfl

theorem ResourceArea.Read.room (hbacked : area.Backed) (hread : area.Read state)
    {place count : ℕ} (hroom : place + count ≤ area.directorySize.toNat) :
    (state.at area place).reader.position + count ≤
      (state.at area place).reader.data.length := by
  have hinside := hbacked.inside
  show area.baseFile.toNat + place + count ≤ state.reader.data.length
  rw [hread.data]
  omega

theorem readHeader_at (hbacked : area.Backed) (hread : area.Read state)
    {why : ByteReader → Unit → Failure} {place : ℕ}
    (hroom : place + 16 ≤ area.directorySize.toNat) :
    onReader (adaptError why readHeader) (state.at area place) =
      .ok (area.halfAt (place + 12), area.halfAt (place + 14))
        (state.at area (place + 16)) := by
  have hvalues := readHeader_of (hread.room hbacked hroom)
  refine onReader_eq_ok.mpr ⟨_, adaptError_eq_ok.mpr ?_, rfl⟩
  rw [hvalues]
  unfold ResourceArea.halfAt
  rw [← hread.data, ← hread.order]
  rfl

theorem readTwo_at (hbacked : area.Backed) (hread : area.Read state)
    {why : ByteReader → Unit → Failure} {place : ℕ}
    (hroom : place + 8 ≤ area.directorySize.toNat) :
    onReader (adaptError why readTwo) (state.at area place) =
      .ok (area.wordAt place, area.wordAt (place + 4))
        (state.at area (place + 8)) := by
  have hvalues := readTwo_of (hread.room hbacked hroom)
  refine onReader_eq_ok.mpr ⟨_, adaptError_eq_ok.mpr ?_, rfl⟩
  rw [hvalues]
  unfold ResourceArea.wordAt
  rw [← hread.data, ← hread.order]
  rfl

theorem readDataEntry_at (hbacked : area.Backed) (hread : area.Read state)
    {why : ByteReader → Unit → Failure} {place : ℕ}
    (hroom : place + 16 ≤ area.directorySize.toNat) :
    onReader (adaptError why readDataEntry) (state.at area place) =
      .ok (area.wordAt place, area.wordAt (place + 4), area.wordAt (place + 8))
        (state.at area (place + 16)) := by
  have hvalues := readDataEntry_of (hread.room hbacked hroom)
  refine onReader_eq_ok.mpr ⟨_, adaptError_eq_ok.mpr ?_, rfl⟩
  rw [hvalues]
  unfold ResourceArea.wordAt
  rw [← hread.data, ← hread.order]
  rfl

/-! ## One directory -/

theorem entryCount_lt (area : ResourceArea) (place : ℕ) :
    area.entryCount place < 2 ^ 17 := by
  have hnamed := (area.halfAt (place + 12)).toNat_lt
  have hinteger := (area.halfAt (place + 14)).toNat_lt
  unfold ResourceArea.entryCount
  omega

theorem counts_add (area : ResourceArea) (place : ℕ) :
    (area.halfAt (place + 12)).toUInt32 + (area.halfAt (place + 14)).toUInt32 =
      UInt32.ofNat (area.entryCount place) := by
  rw [ResourceArea.entryCount, UInt32.ofNat_add, ← UInt16.toNat_toUInt32,
    ← UInt16.toNat_toUInt32, UInt32.ofNat_toNat, UInt32.ofNat_toNat]

theorem entryCount_toNat (area : ResourceArea) (place : ℕ) :
    (UInt32.ofNat (area.entryCount place)).toNat = area.entryCount place := by
  have hsmall := entryCount_lt area place
  exact UInt32.toNat_ofNat_of_lt' (by show _ < 2 ^ 32; omega)

theorem entries_size (area : ResourceArea) (place : ℕ) :
    ((UInt32.ofNat (area.entryCount place)).toUInt64 * 8).toNat =
      8 * area.entryCount place := by
  have hsmall := entryCount_lt area place
  rw [UInt64.toNat_mul, UInt32.toNat_toUInt64, entryCount_toNat]
  simp only [UInt64.reduceToNat]
  omega

theorem openDirectory_eq_ok (hbacked : area.Backed) (hread : area.Read state)
    {count : UInt32} :
    openDirectory area.limits area.baseFile area.directorySize relative state =
        .ok count next ↔
      (relative.toNat + 16 + 8 * area.entryCount relative.toNat ≤
          area.directorySize.toNat ∧
        area.entryCount relative.toNat ≤ area.limits.maxSections.toNat) ∧
      count = UInt32.ofNat (area.entryCount relative.toNat) ∧
      next = state.at area (relative.toNat + 16) := by
  unfold openDirectory
  rw [rejectIf_bind_eq_ok, rangeInside_eq_false, not_not]
  by_cases hroom : relative.toNat + 16 ≤ area.directorySize.toNat
  · have hbound := area.directorySize.toNat_lt
    have hseek : onReader (reporting (failure .truncated relative
        "resource directory header is truncated")
          (seek (area.baseFile + relative))) state =
        .ok () (state.at area relative.toNat) :=
      seek_at hbacked hread (Nat.le_of_add_right_le hroom)
    have hheader : onReader (reporting (failure .truncated relative
        "resource directory fields are truncated") readHeader)
          (state.at area relative.toNat) = _ :=
      readHeader_at hbacked hread hroom
    have hbehind : (relative + 16).toNat = relative.toNat + 16 :=
      toNat_add_of_fit (by show _ + 16 < 2 ^ 64; omega)
    rw [and_iff_right hroom, bind_of_ok hseek, bind_of_ok hheader]
    dsimp only
    rw [rejectIf_bind_eq_ok, pure_eq_ok, counts_add, hbehind,
      rangeInside_eq_false, entries_size, gt_iff_lt, UInt32.lt_iff_toNat_lt,
      entryCount_toNat, not_or, not_not, not_lt, and_comm (a := _ ≤ _)]
    exact and_congr_right fun _ => and_congr eq_comm eq_comm
  · exact iff_of_false (fun h => hroom h.1) fun h => hroom (by omega)

/-- What is reported of a leaf. -/
def ResourceArea.leaf (area : ResourceArea)
    (found : List ResourceIdentifier × ResourceData) : ResourceEntry :=
  resourceEntry area.bytes found.1 found.2.fileOffset found.2.size
    found.2.codePage

def WalkState.add (area : ResourceArea) (state : WalkState)
    (found : List ResourceIdentifier × ResourceData) : WalkState :=
  { state with report := { state.report with
      totalBytes := state.report.totalBytes + found.2.size
      entries := state.report.entries ++ [area.leaf found] } }

theorem addResource_eq_ok (hbacked : area.Backed) (hread : area.Read state)
    {target : UInt64} {path : List ResourceIdentifier} :
    addResource area.limits area.image area.baseFile area.directorySize target
        path state = .ok () next ↔
      ∃ data, area.dataAt target.toNat = some data ∧
        state.report.entries.length < area.limits.maxSections.toNat ∧
        state.report.totalBytes.toNat + data.size.toNat < 2 ^ 64 ∧
        next = (state.at area (target.toNat + 16)).add area (path, data) := by
  unfold addResource ResourceArea.dataAt
  rw [rejectIf_bind_eq_ok, rangeInside_eq_false, not_not]
  by_cases hroom : target.toNat + 16 ≤ area.directorySize.toNat
  · have hseek : onReader (reporting (failure .invalidOffset target
        "resource data entry is outside directory")
          (seek (area.baseFile + target))) state =
        .ok () (state.at area target.toNat) :=
      seek_at hbacked hread (Nat.le_of_add_right_le hroom)
    have hentry : onReader (reporting (failure .truncated target
        "resource data descriptor is truncated") readDataEntry)
          (state.at area target.toNat) = _ :=
      readDataEntry_at hbacked hread hroom
    rw [and_iff_right hroom, bind_of_ok hseek, bind_of_ok hentry, if_pos hroom]
    dsimp only
    simp only [Option.map_eq_some_iff, exists_exists_and_eq_and]
    rw [demand_bind_eq_ok]
    refine exists_congr fun found => and_congr_right fun _ => ?_
    rw [bind_of_ok (get_apply _), rejectIf_bind_eq_ok, demand_bind_eq_ok,
      ge_iff_le, not_le]
    refine and_congr_right fun _ => ⟨?_, ?_⟩
    · rintro ⟨total, htotal, hset⟩
      obtain ⟨hsum, rfl⟩ := checkedAdd_eq_some.mp htotal
      rw [set_apply, EStateM.Result.ok.injEq] at hset
      exact ⟨hsum, hset.2.symm⟩
    · rintro ⟨hsum, rfl⟩
      exact ⟨_, checkedAdd_eq_some.mpr ⟨hsum, rfl⟩, rfl⟩
  · rw [if_neg hroom]
    refine iff_of_false (fun h => hroom h.1) ?_
    rintro ⟨data, hnone, -⟩
    cases hnone

variable {path : List ResourceIdentifier}
  {visit : UInt64 → List ResourceIdentifier → WalkCall Unit} {index : ℕ}

theorem walkEntry_eq_ok (hbacked : area.Backed) (hread : area.Read state)
    (hroom : relative.toNat + 16 + 8 * index + 8 ≤
      area.directorySize.toNat) :
    let place := relative.toNat + 16 + 8 * index
    walkEntry area.limits area.image area.baseFile area.directorySize relative
        path visit index state = .ok () next ↔
      ∃ identifier, area.identifierAt (area.wordAt place) = some identifier ∧
        (if area.wordAt (place + 4) &&& 0x80000000 ≠ 0 then
          visit (area.wordAt (place + 4) &&& 0x7fffffff).toUInt64
            (path ++ [identifier])
        else addResource area.limits area.image area.baseFile
          area.directorySize
          (area.wordAt (place + 4) &&& 0x7fffffff).toUInt64
          (path ++ [identifier])) (state.at area (place + 8)) =
            .ok () next := by
  intro place
  have hbound := area.directorySize.toNat_lt
  have hindex : (UInt64.ofNat index * 8).toNat = 8 * index := by
    rw [UInt64.toNat_mul, UInt64.toNat_ofNat_of_lt' (by
      show _ < 2 ^ 64
      omega)]
    simp only [UInt64.reduceToNat]
    omega
  have hhead : (relative + 16).toNat = relative.toNat + 16 :=
    toNat_add_of_fit (by show _ + 16 < 2 ^ 64; omega)
  have hplace : (relative + 16 + UInt64.ofNat index * 8).toNat = place := by
    rw [toNat_add_of_fit (by rw [hhead, hindex]; omega), hhead, hindex]
  have hseek : onReader (silently (seek
      (area.baseFile + (relative + 16 + UInt64.ofNat index * 8)))) state =
        .ok () (state.at area place) := by
    rw [← hplace]
    exact seek_at hbacked hread (by rw [hplace]; omega)
  have hwords : onReader (reporting (failure .truncated
      (relative + 16 + UInt64.ofNat index * 8)
      "resource directory entry is truncated") readTwo)
        (state.at area place) = _ :=
    readTwo_at hbacked hread hroom
  unfold walkEntry
  rw [bind_of_ok hseek]
  unfold erasing
  rw [withCleanup_eq_ok, bind_of_ok hwords]
  dsimp only
  rw [liftExcept_bind_eq_ok]
  refine exists_congr fun identifier => and_congr ?_ ?_
  · exact resourceName_eq_ok hbacked
  · exact Iff.rfl

theorem entryAt_inr {place : ℕ} {identifier : ResourceIdentifier}
    {node : UInt64} :
    area.entryAt place = some (identifier, .inr node) ↔
      area.identifierAt (area.wordAt place) = some identifier ∧
        area.wordAt (place + 4) &&& 0x80000000 ≠ 0 ∧
        (area.wordAt (place + 4) &&& 0x7fffffff).toUInt64 = node := by
  unfold ResourceArea.entryAt
  rw [Option.bind_eq_bind, Option.bind_eq_some_iff]
  constructor
  · rintro ⟨found, hfound, hentry⟩
    dsimp only at hentry
    split at hentry
    · rename_i hdirectory
      cases hentry
      exact ⟨hfound, hdirectory, rfl⟩
    · obtain ⟨data, -, hleaf⟩ := Option.bind_eq_some_iff.mp hentry
      cases hleaf
  · rintro ⟨hfound, hdirectory, rfl⟩
    refine ⟨identifier, hfound, ?_⟩
    dsimp only
    rw [if_pos hdirectory]
    rfl

theorem entryAt_inl {place : ℕ} {identifier : ResourceIdentifier}
    {data : ResourceData} :
    area.entryAt place = some (identifier, .inl data) ↔
      area.identifierAt (area.wordAt place) = some identifier ∧
        area.wordAt (place + 4) &&& 0x80000000 = 0 ∧
        area.dataAt (area.wordAt (place + 4) &&& 0x7fffffff).toNat =
          some data := by
  unfold ResourceArea.entryAt
  rw [Option.bind_eq_bind, Option.bind_eq_some_iff]
  constructor
  · rintro ⟨found, hfound, hentry⟩
    dsimp only at hentry
    split at hentry
    · cases hentry
    · rename_i hleaf
      obtain ⟨read, hread, hsame⟩ := Option.bind_eq_some_iff.mp hentry
      cases hsame
      exact ⟨hfound, not_not.mp hleaf, hread⟩
  · rintro ⟨hfound, hleaf, hread⟩
    refine ⟨identifier, hfound, ?_⟩
    dsimp only
    rw [if_neg (not_not.mpr hleaf), hread]
    rfl

end PeResourceParser
end BinForge
