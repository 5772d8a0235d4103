import BinForge.RelocationRecords
import BinForge.TotalCalls

/-!
# ELF relocation tables, read in full

A table whose entries are at least as long as the standard ones, which is a
whole number of them and fits the room left, is decoded without a failure.
Entry `n` becomes one relocation, appended in order.
-/

namespace BinForge

open StatefulExcept
open ByteReader

theorem ByteReader.seek_returns {reader : ByteReader} {position : UInt64}
    (hfit : position.toNat ≤ reader.data.length) :
    Returns (seek position) reader fun _ next =>
      next = reader.movedTo position.toNat :=
  Returns.of_ok (seek_of_le hfit) rfl

namespace RelocationTableDecoder

variable {limits : Limits} {options : RelocationDecodeOptions} {data : Bytes}
  {output : List Relocation} {reader next : ByteReader}

/-- The entry stored at a place of the table. -/
def elfEntryAt (options : RelocationDecodeOptions) (data : Bytes)
    (place : ℕ) : ElfEntry :=
  let order := options.byteOrder
  if options.wordSize = .bits64 then
    { offset := u64At order data place
      information := u64At order data (place + 8)
      addend := if options.explicitAddends then
          (u64At order data (place + 16)).toInt64 else 0 }
  else
    { offset := (u32At order data place).toUInt64
      information := (u32At order data (place + 4)).toUInt64
      addend := if options.explicitAddends then
          (u32At order data (place + 8)).toInt32.toInt64 else 0 }

def elfPlace (options : RelocationDecodeOptions) (index : ℕ) : ℕ :=
  (UInt64.ofNat index * elfStride options).toNat

/-- The relocation an entry becomes, given its place in the image's list. -/
def elfRelocation (options : RelocationDecodeOptions) (entry : ElfEntry)
    (index : ℕ) : Relocation :=
  let wide := options.wordSize == .bits64
  let kind := elfKind options.architecture (elfType wide entry.information)
  { index := UInt32.ofNat index, kind, targetSection := options.targetSection
    symbolIndex := (elfSymbol wide entry.information).toUInt32
    offset := options.baseAddress + entry.offset, addend := entry.addend
    width := if kind = .absolute64 ∨ kind = .relative64 then 8 else 4 }

theorem readElfEntry_returns (hreader : OnTable options data reader)
    (hfit : reader.position + (elfMinimum options).toNat ≤ data.length) :
    Returns
      (readElfEntry (options.wordSize == .bits64) options.explicitAddends)
      reader fun entry last =>
        entry = elfEntryAt options data reader.position ∧
          OnTable options data last := by
  obtain ⟨rfl, horder⟩ := hreader
  unfold Returns readElfEntry elfEntryAt
  unfold elfMinimum at hfit
  cases hsize : options.wordSize <;> cases hexplicit : options.explicitAddends <;>
    simp only [hsize, hexplicit, beq_self_eq_true, reduceCtorEq,
      Bool.false_eq_true, if_true, if_false, beq_iff_eq, bind_eq_ok, readU64_at,
      readU32_at, readI64, readI32, pure_eq_ok, and_assoc, exists_and_left,
      exists_eq_left, exists_eq_left', movedTo_data, movedTo_order,
      movedTo_position, movedTo_movedTo, UInt64.reduceToNat, Nat.add_assoc,
      Nat.reduceAdd] at hfit ⊢
  case bits32.false =>
    exact ⟨by omega, hfit, by rw [horder]; rfl, rfl, horder⟩
  case bits64.false =>
    exact ⟨by omega, hfit, by rw [horder], rfl, horder⟩
  case bits32.true | bits64.true =>
    exact ⟨by omega, by omega, hfit, by rw [horder], rfl, horder⟩

/-- Neither form leaves more than 32 bits for the symbol. -/
theorem elfSymbol_le {entry : ElfEntry} (options : RelocationDecodeOptions)
    (place : ℕ) (hentry : entry = elfEntryAt options data place) :
    elfSymbol (options.wordSize == .bits64) entry.information ≤ 0xffffffff := by
  have hlimit : (0xffffffff : UInt64).toNat = 2 ^ 32 - 1 := rfl
  rw [UInt64.le_iff_toNat_le, hlimit, elfSymbol, hentry, elfEntryAt]
  cases options.wordSize with
  | bits32 =>
      have hword := (u32At options.byteOrder data (place + 4)).toNat_lt
      simp only [reduceCtorEq, beq_eq_false_iff_ne.mpr, ne_eq, not_false_eq_true,
        Bool.false_eq_true, if_false, UInt64.toNat_shiftRight,
        UInt32.toNat_toUInt64, UInt64.reduceToNat, Nat.reduceMod,
        Nat.shiftRight_eq_div_pow]
      omega
  | bits64 =>
      have hword := (u64At options.byteOrder data (place + 8)).toNat_lt
      simp only [beq_self_eq_true, if_true, UInt64.toNat_shiftRight,
        UInt64.reduceToNat, Nat.reduceMod, Nat.shiftRight_eq_div_pow]
      omega

theorem elfRecord_returns (hreader : OnTable options data reader) {index : ℕ}
    (hfit : elfPlace options index + (elfMinimum options).toNat ≤ data.length)
    (hroom : output.length < limits.maxRelocations.toNat)
    (htarget : options.baseAddress.toNat +
      (elfEntryAt options data (elfPlace options index)).offset.toNat < 2 ^ 64) :
    Returns (elfRecord limits options (elfStride options) output index) reader
      fun result last => result = output ++ [elfRelocation options
          (elfEntryAt options data (elfPlace options index)) output.length] ∧
        OnTable options data last := by
  unfold elfRecord reporting
  have hplace : elfPlace options index ≤ reader.data.length := by
    rw [hreader.data]
    omega
  refine (Returns.adaptError (seek_returns hplace)).bind ?_
  rintro _ _ rfl
  refine (Returns.adaptError
    (readElfEntry_returns (hreader.movedTo _) hfit)).bind ?_
  rintro entry last ⟨hentry, hlast⟩
  refine Returns.rejectIf (not_lt.mpr (elfSymbol_le options _ hentry)) ?_
  rw [movedTo_position] at hentry
  subst hentry
  refine Returns.demand (checkedAdd_of_fit htarget) ?_
  exact Returns.liftExcept (appendRelocation_eq_ok.mpr ⟨hroom, rfl⟩) ⟨rfl, hlast⟩

/-- A table of whole entries that the decoder takes as a whole. -/
structure Decodable (limits : Limits) (options : RelocationDecodeOptions)
    (data : Bytes) (output : List Relocation) : Prop where
  size : data.length < 2 ^ 64
  stride : (elfMinimum options).toNat ≤ (elfStride options).toNat
  nonempty : (elfStride options).toNat ≤ data.length
  whole : data.length % (elfStride options).toNat = 0
  room : output.length + elfCount options data ≤ limits.maxRelocations.toNat
  target : ∀ n < elfCount options data, options.baseAddress.toNat +
    (elfEntryAt options data (elfPlace options n)).offset.toNat < 2 ^ 64

theorem elfMinimum_pos (options : RelocationDecodeOptions) :
    0 < (elfMinimum options).toNat := by
  unfold elfMinimum
  split <;> split <;> decide

theorem Decodable.elfCount_eq (htable : Decodable limits options data output) :
    elfCount options data = data.length / (elfStride options).toNat := by
  rw [elfCount, UInt64.toNat_div, UInt64.toNat_ofNat_of_lt' htable.size]

/-- Every entry lies inside the table. -/
theorem Decodable.elfPlace_le (htable : Decodable limits options data output)
    {n : ℕ} (hn : n < elfCount options data) :
    elfPlace options n + (elfMinimum options).toNat ≤ data.length := by
  rw [htable.elfCount_eq] at hn
  have hplace := MachineInteger.place_le 0 (elfStride options) n
  rw [UInt64.zero_add, UInt64.toNat_zero, Nat.zero_add] at hplace
  calc elfPlace options n + (elfMinimum options).toNat
      ≤ n * (elfStride options).toNat + (elfStride options).toNat :=
        Nat.add_le_add hplace htable.stride
    _ = (n + 1) * (elfStride options).toNat := (Nat.succ_mul _ _).symm
    _ ≤ data.length := Nat.mul_le_of_le_div _ _ _ hn

/-- The relocations of a table, given the number of those ahead of them. -/
def elfRelocations (options : RelocationDecodeOptions) (data : Bytes)
    (ahead count : ℕ) : List Relocation :=
  (List.range count).map fun n =>
    elfRelocation options (elfEntryAt options data (elfPlace options n))
      (ahead + n)

theorem elfRelocations_succ (options : RelocationDecodeOptions) (data : Bytes)
    (ahead count : ℕ) :
    elfRelocations options data ahead (count + 1) =
      elfRelocations options data ahead count ++
        [elfRelocation options (elfEntryAt options data (elfPlace options count))
          (ahead + count)] := by
  rw [elfRelocations, List.range_succ, List.map_append, List.map_singleton]
  rfl

@[simp] theorem elfRelocations_length (options : RelocationDecodeOptions)
    (data : Bytes) (ahead count : ℕ) :
    (elfRelocations options data ahead count).length = count := by
  simp [elfRelocations]

theorem elfRecords_returns (htable : Decodable limits options data output) :
    Returns
      ((List.range (elfCount options data)).foldlM
        (elfRecord limits options (elfStride options)) output)
      { data, order := options.byteOrder } fun result _ =>
        result = output ++
          elfRelocations options data output.length (elfCount options data) := by
  have hroom := htable.room
  refine (Returns.foldlM (fun done carried state =>
    carried = output ++ elfRelocations options data output.length done.length ∧
      OnTable options data state) ⟨(List.append_nil output).symm, rfl, rfl⟩
    ?_).mono fun result last _ hresult => by
      rw [hresult.1, List.length_range]
  rintro done index rest _ state hsplit ⟨rfl, hstate⟩
  obtain rfl := eq_length_of_range hsplit
  have hindex : done.length < elfCount options data :=
    List.mem_range.mp (hsplit ▸ by simp)
  refine (elfRecord_returns hstate (htable.elfPlace_le hindex) ?_
    (htable.target _ hindex)).mono fun result last _ hresult => ?_
  · rw [List.length_append, elfRelocations_length]
    omega
  · obtain ⟨rfl, hlast⟩ := hresult
    rw [List.length_append, List.length_append, elfRelocations_length,
      List.length_singleton, elfRelocations_succ, List.append_assoc]
    exact ⟨rfl, hlast⟩

theorem decodeElf_returns (htable : Decodable limits options data output) :
    decodeElf limits data options output = .ok (output ++
      elfRelocations options data output.length (elfCount options data)) := by
  have hroom := htable.room
  have hsize : (UInt64.ofNat data.length).toNat = data.length :=
    UInt64.toNat_ofNat_of_lt' htable.size
  refine rejectIf_except_bind_eq_ok.mpr ⟨?_, ?_⟩
  · rw [not_or, not_or, UInt64.not_lt, gt_iff_lt, UInt64.not_lt,
      UInt64.le_iff_toNat_le, UInt64.le_iff_toNat_le, hsize, not_not,
      ← UInt64.toNat_inj, UInt64.toNat_mod, hsize]
    exact ⟨htable.stride, htable.nonempty, htable.whole⟩
  refine rejectIf_except_bind_eq_ok.mpr ⟨?_, ?_⟩
  · rw [gt_iff_lt, UInt64.not_lt, UInt64.le_iff_toNat_le,
      relocationRoom_toNat (by omega)]
    rw [elfCount] at hroom
    omega
  obtain ⟨result, _, hrun, rfl⟩ := (elfRecords_returns htable).evaluate
  exact hrun

end RelocationTableDecoder
end BinForge
