import BinForge.MemoryContents

/-!
# Integers in memory

The bytes of an integer and the integer of some bytes undo each other within
the width, in both byte orders.  A range inside one region can be written, and
the integer written is the integer stored afterwards.
-/

namespace BinForge

open StatefulExcept
open MachineInteger
open ListSplice

namespace AddressSpace

variable {memory next : AddressSpace}

/-! ## Integers and their bytes -/

theorem integerBytes_length (order : ByteOrder) (width : UInt8)
    (value : UInt64) : (integerBytes order width value).length = width.toNat := by
  cases order <;> simp [integerBytes]

def lowFirst (order : ByteOrder) (bytes : Bytes) : Bytes :=
  match order with
  | .little => bytes
  | .big => bytes.reverse

@[simp] theorem lowFirst_length (order : ByteOrder) (bytes : Bytes) :
    (lowFirst order bytes).length = bytes.length := by
  cases order <;> simp [lowFirst]

theorem lowFirst_lowFirst (order : ByteOrder) (bytes : Bytes) :
    lowFirst order (lowFirst order bytes) = bytes := by
  cases order with
  | little => rfl
  | big => exact List.reverse_reverse bytes

theorem integerValue_toNat {order : ByteOrder} {bytes : Bytes}
    (hlength : bytes.length ≤ 8) :
    (integerValue order bytes).toNat = littleValue (lowFirst order bytes) := by
  cases order with
  | little => exact foldr_shiftIn64_toNat hlength
  | big =>
      rw [integerValue, ← List.foldr_reverse]
      exact foldr_shiftIn64_toNat (by rw [List.length_reverse]; exact hlength)

theorem lowFirst_integerBytes (order : ByteOrder) {width : UInt8}
    (hwidth : width.toNat ≤ 8) (value : UInt64) :
    lowFirst order (integerBytes order width value) =
      littleBytes width.toNat value.toNat := by
  have hdigits : ((List.range width.toNat).map fun i =>
      (value >>> UInt64.ofNat (i * 8)).toUInt8) =
        littleBytes width.toNat value.toNat := by
    rw [littleBytes_eq_map]
    refine List.map_congr_left fun i hi => shiftRight64_toUInt8 value ?_
    have hlow := List.mem_range.mp hi
    omega
  cases order with
  | little => exact hdigits
  | big => rw [lowFirst, integerBytes, List.reverse_reverse, hdigits]

theorem integerValue_integerBytes {order : ByteOrder} {width : UInt8}
    {value : UInt64} (hwidth : width.toNat ≤ 8)
    (hfits : value.toNat < 256 ^ width.toNat) :
    integerValue order (integerBytes order width value) = value := by
  apply UInt64.toNat_inj.mp
  rw [integerValue_toNat (by rw [integerBytes_length]; exact hwidth),
    lowFirst_integerBytes order hwidth, littleValue_littleBytes_of_lt hfits]

theorem eq_integerBytes (order : ByteOrder) {width : UInt8} {bytes : Bytes}
    (hwidth : width.toNat ≤ 8) (hlength : bytes.length = width.toNat) :
    bytes = integerBytes order width (integerValue order bytes) := by
  have hlow : lowFirst order bytes =
      lowFirst order (integerBytes order width (integerValue order bytes)) := by
    rw [lowFirst_integerBytes order hwidth,
      integerValue_toNat (by rw [hlength]; exact hwidth), ← hlength,
      ← lowFirst_length order bytes, littleBytes_littleValue]
  cases order with
  | little => exact hlow
  | big => exact List.reverse_injective hlow

theorem integerBytes_zero (order : ByteOrder) {width : UInt8}
    (hwidth : width.toNat ≤ 8) :
    integerBytes order width 0 = List.replicate width.toNat 0 := by
  have hlow := lowFirst_integerBytes order hwidth 0
  rw [UInt64.toNat_zero, littleBytes_eq_replicate_zero] at hlow
  cases order with
  | little => exact hlow
  | big =>
      rw [← List.reverse_reverse (integerBytes .big width 0)]
      exact (congrArg List.reverse hlow).trans List.reverse_replicate

/-! ## Ranges inside one region -/

def Mapped (memory : AddressSpace) (address : UInt64) (size : ℕ) : Prop :=
  ∃ entry ∈ memory.regions.entries, entry.2.contains address size = true

instance (memory : AddressSpace) (address : UInt64) (size : ℕ) :
    Decidable (Mapped memory address size) :=
  inferInstanceAs (Decidable (∃ entry ∈ _, _))

theorem Mapped.sameFrame {address : UInt64} {size : ℕ}
    (hframe : SameFrame memory next) (hmapped : Mapped memory address size) :
    Mapped next address size := by
  obtain ⟨entry, hentry, hcontains⟩ := hmapped
  have hlayout : (entry.1, { entry.2 with bytes := [] }) ∈ next.layout := by
    rw [hframe.layout]
    exact List.mem_map.mpr ⟨entry, hentry, rfl⟩
  obtain ⟨after, hafter, hsame⟩ := List.mem_map.mp hlayout
  refine ⟨after, hafter, ?_⟩
  simp only [Prod.mk.injEq, MemoryRegion.mk.injEq] at hsame
  rw [← hcontains]
  simp only [MemoryRegion.contains, hsame]

theorem Mapped.entryAt (hmemory : memory.WellFormed) {address : UInt64}
    {size : ℕ} (hmapped : Mapped memory address size) (hsize : size ≠ 0) :
    ∃ entry, memory.entryAt address = some entry ∧
      entry.2.contains address size = true := by
  obtain ⟨entry, hentry, hcontains⟩ := hmapped
  have hrange := MemoryRegion.contains_iff.mp hcontains
  exact ⟨entry, hmemory.entryAt_eq_some.mpr
    ⟨hentry, hrange.1, by omega⟩, hcontains⟩

theorem Mapped.load_length (hmemory : memory.WellFormed) {address : UInt64}
    {size : ℕ} (hmapped : Mapped memory address size) :
    (memory.contents.load address.toNat size).length = size := by
  obtain ⟨entry, hentry, hcontains⟩ := hmapped
  have hrange := MemoryRegion.contains_iff.mp hcontains
  have hstored := hmemory.stored entry hentry
  rw [← hmemory.slice_eq_load hentry hcontains]
  apply slice_length
  unfold MemoryRegion.stop at hrange
  rw [UInt64.toNat_sub_of_le _ _ (UInt64.le_iff_toNat_le.mpr hrange.1), hstored]
  omega

theorem write_mapped (hmemory : memory.WellFormed) {address : UInt64}
    (input : Bytes) (hmapped : Mapped memory address input.length) :
    ∃ next, write address input true memory = .ok () next := by
  by_cases hinput : input = []
  · exact ⟨memory, by rw [hinput, write_nil]⟩
  · obtain ⟨entry, hentry, hcontains⟩ := hmapped.entryAt hmemory
      (fun hzero => hinput (List.eq_nil_of_length_eq_zero hzero))
    exact ⟨_, (write_eq_ok hinput).mpr
      ⟨entry, hentry, hcontains, Or.inl rfl, rfl⟩⟩

theorem write_unchanged (hmemory : memory.WellFormed) {address : UInt64}
    {input : Bytes} (hmapped : Mapped memory address input.length)
    (hsame : memory.contents.load address.toNat input.length = input) :
    write address input true memory = .ok () memory := by
  by_cases hinput : input = []
  · rw [hinput, write_nil]
  obtain ⟨entry, hfound, hcontains⟩ := hmapped.entryAt hmemory
    (fun hzero => hinput (List.eq_nil_of_length_eq_zero hzero))
  have hentry := (hmemory.entryAt_eq_some.mp hfound).1
  refine (write_eq_ok hinput).mpr ⟨entry, hfound, hcontains, Or.inl rfl, ?_⟩
  have hkept : memory.regions.adjust entry.1 (copyInto address input) =
      memory.regions := by
    refine OrderedMap.adjust_id fun region hregion => ?_
    have hvalue : entry.2 = region :=
      congrArg Prod.snd (OrderedMap.key_injective hentry hregion rfl)
    rw [← hvalue]
    have hslice := hmemory.slice_eq_load hentry hcontains
    have hroom := hmemory.copyInto_length hentry hcontains
    rw [hsame] at hslice
    unfold copyInto
    conv_lhs => rw [← hslice]
    rw [splice_slice_self hroom]
  exact (congrArg (fun regions => { memory with regions }) hkept).symm

/-! ## Stored integers -/

def storedInteger (memory : AddressSpace) (order : ByteOrder)
    (address : UInt64) (width : UInt8) : UInt64 :=
  integerValue order (memory.contents.load address.toNat width.toNat)

theorem integerWidth_le {width : UInt8} (hwidth : integerWidth width = true) :
    width.toNat ≤ 8 := by
  simp only [integerWidth, Bool.or_eq_true, beq_iff_eq] at hwidth
  rcases hwidth with ((rfl | rfl) | rfl) | rfl <;> decide

theorem writeInteger_mapped (hmemory : memory.WellFormed)
    (order : ByteOrder) {address : UInt64} {width : UInt8} {value : UInt64}
    (hwidth : integerWidth width = true)
    (hmapped : Mapped memory address width.toNat)
    (hfits : value.toNat < 256 ^ width.toNat) :
    ∃ next, writeInteger address width order value true memory = .ok () next ∧
      next.contents =
        memory.contents.store address.toNat (integerBytes order width value) ∧
      storedInteger next order address width = value := by
  have hlength := integerBytes_length order width value
  obtain ⟨next, hwrite⟩ := write_mapped hmemory
    (integerBytes order width value) (by rwa [hlength])
  have hcontents := write_ok_contents hmemory hwrite
  refine ⟨next, writeInteger_ok_write.mpr ⟨hwidth, hwrite⟩, hcontents, ?_⟩
  have hload := CellMemory.load_store_self memory.contents address.toNat
    (integerBytes order width value)
  rw [hlength] at hload
  rw [storedInteger, hcontents, hload,
    integerValue_integerBytes (integerWidth_le hwidth) hfits]

theorem writeInteger_unchanged (hmemory : memory.WellFormed)
    {address : UInt64} {width : UInt8} {order : ByteOrder}
    (hwidth : integerWidth width = true)
    (hmapped : Mapped memory address width.toNat) :
    writeInteger address width order
      (storedInteger memory order address width) true memory =
        .ok () memory := by
  have hbytes := eq_integerBytes order (integerWidth_le hwidth)
    (hmapped.load_length hmemory)
  refine writeInteger_ok_write.mpr ⟨hwidth, write_unchanged hmemory ?_ ?_⟩ <;>
    rw [integerBytes_length]
  · exact hmapped
  · exact hbytes

end AddressSpace
end BinForge
