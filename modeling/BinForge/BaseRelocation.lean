import BinForge.LoadFailure
import BinForge.RelocationRecords
import BinForge.StoredInteger

/-!
# Applying PE base relocations

A base relocation says that the load delta is to be added to the integer at
its target.  The decoder leaves the stored integer out of the record, and the
processor stores what the record and the delta alone give.
-/

namespace BinForge

open StatefulExcept
open MachineInteger
open AddressSpace
open RelocationTableDecoder

namespace RelocationProcessor

variable {limits : Limits} {image : BinaryImage} {bias target : UInt64}
  {resolver : Option SymbolResolver} {memory next : AddressSpace}
  {relocation : Relocation}

/-- The delta is added to the whole stored integer. -/
def IsRelative (relocation : Relocation) : Prop :=
  relocation.kind = .relative32 ∨ relocation.kind = .relative64

/-! ## The value of a base record -/

theorem baseRecord_integerWidth (hbase : BaseRecord relocation)
    (hkind : relocation.kind ≠ .none) :
    integerWidth relocation.width = true := by
  obtain ⟨type, hcoded⟩ := hbase.coded
  unfold peKind at hcoded
  split_ifs at hcoded <;> simp_all [integerWidth]

theorem computeValue_relative (hbase : BaseRecord relocation)
    (hkind : IsRelative relocation) :
    computeValue relocation bias target 0 =
      .ok (some (bias, relocation.width)) := by
  have hwidth : relocation.width ≠ 0 := by
    obtain ⟨type, hcoded⟩ := hbase.coded
    unfold peKind at hcoded
    unfold IsRelative at hkind
    split_ifs at hcoded <;> simp_all
  have haddend : bias + relocation.addend.toUInt64 = bias := by
    rw [hbase.addend]
    exact add_zero bias
  unfold computeValue
  rcases hkind with hkind | hkind <;>
    simp only [hkind, haddend, if_pos hwidth]

/-- Without a delta every base record stores zero. -/
theorem computeValue_unbiased (hbase : BaseRecord relocation)
    (hkind : relocation.kind ≠ .none) :
    computeValue relocation 0 target 0 =
      .ok (some (0, relocation.width)) := by
  have haddend : relocation.addend.toUInt64 = 0 := by
    rw [hbase.addend]
    rfl
  obtain ⟨type, hcoded⟩ := hbase.coded
  unfold computeValue
  unfold peKind at hcoded
  split_ifs at hcoded <;>
    simp only [Prod.mk.injEq] at hcoded <;>
    simp only [hcoded, haddend]
  all_goals first
    | rfl
    | exact absurd hcoded.1 hkind

theorem applyOne_base (hbase : BaseRecord relocation)
    (htarget : checkedAdd relocation.offset bias = some target) {value : UInt64}
    (hvalue : computeValue relocation bias target 0 =
      .ok (some (value, relocation.width)))
    (hfits : value.toNat < 256 ^ relocation.width.toNat) :
    applyOne relocation image bias resolver memory =
      writeInteger target relocation.width image.header.byteOrder value true
        memory := by
  have hsymbol : symbolValue relocation image bias target resolver = .ok 0 := by
    rw [symbolValue, if_pos hbase.symbolIndex]
    rfl
  have hpower : 2 ^ (relocation.width.toNat * 8) =
      256 ^ relocation.width.toNat := by
    rw [Nat.mul_comm, Nat.pow_mul]
  unfold applyOne
  rw [demand_bind_of_some htarget, liftExcept_bind_of_ok hsymbol,
    liftExcept_bind_of_ok hvalue]
  refine rejectIf_bind_of_not ?_
  rintro ⟨_, hlarge⟩
  rw [hpower] at hlarge
  omega

theorem applyOne_none (hbase : BaseRecord relocation)
    (hkind : relocation.kind = .none)
    (htarget : checkedAdd relocation.offset bias = some target) :
    applyOne relocation image bias resolver memory = .ok () memory := by
  have hsymbol : symbolValue relocation image bias target resolver = .ok 0 := by
    rw [symbolValue, if_pos hbase.symbolIndex]
    rfl
  have hvalue : computeValue relocation bias target 0 = .ok none := by
    simp only [computeValue, hkind]
  unfold applyOne
  rw [demand_bind_of_some htarget, liftExcept_bind_of_ok hsymbol,
    liftExcept_bind_of_ok hvalue]
  rfl

/-! ## One record -/

/-- The delta replaces the stored integer, so adding it is what happens exactly
when that integer is zero. -/
theorem applyOne_adds_bias_iff (hmemory : memory.WellFormed)
    (hbase : BaseRecord relocation) (hkind : IsRelative relocation)
    (htarget : checkedAdd relocation.offset bias = some target)
    (hmapped : Mapped memory target relocation.width.toNat)
    (hfits : (storedInteger memory image.header.byteOrder target
      relocation.width).toNat + bias.toNat < 256 ^ relocation.width.toNat) :
    (∃ next, applyOne relocation image bias resolver memory = .ok () next ∧
      (storedInteger next image.header.byteOrder target
          relocation.width).toNat =
        (storedInteger memory image.header.byteOrder target
          relocation.width).toNat + bias.toNat) ↔
      storedInteger memory image.header.byteOrder target relocation.width =
        0 := by
  have hnone : relocation.kind ≠ .none := by
    rcases hkind with hkind | hkind <;> simp [hkind]
  have hsmall : bias.toNat < 256 ^ relocation.width.toNat := by omega
  obtain ⟨after, hwrite, _, hstored⟩ := writeInteger_mapped hmemory
    image.header.byteOrder (baseRecord_integerWidth hbase hnone) hmapped hsmall
  rw [applyOne_base hbase htarget (computeValue_relative hbase hkind) hsmall,
    hwrite]
  constructor
  · rintro ⟨next, hrun, hsum⟩
    injection hrun with _ hstate
    rw [← hstate, hstored] at hsum
    apply UInt64.toNat_inj.mp
    rw [UInt64.toNat_zero]
    omega
  · intro hzero
    refine ⟨after, rfl, ?_⟩
    rw [hstored, hzero, UInt64.toNat_zero, Nat.zero_add]

/-! ## A whole table without a delta -/

/-- Every record's slot lies in one region. -/
def SlotsMapped (memory : AddressSpace) (records : List Relocation) : Prop :=
  ∀ relocation ∈ records, relocation.kind ≠ .none →
    Mapped memory relocation.offset relocation.width.toNat

/-- Every record's slot holds zero. -/
def SlotsZero (order : ByteOrder) (memory : AddressSpace)
    (records : List Relocation) : Prop :=
  ∀ relocation ∈ records, relocation.kind ≠ .none →
    storedInteger memory order relocation.offset relocation.width = 0

theorem checkedAdd_zero (offset : UInt64) : checkedAdd offset 0 = some offset := by
  refine checkedAdd_eq_some.mpr ⟨?_, (add_zero offset).symm⟩
  rw [UInt64.toNat_zero]
  exact offset.toNat_lt

theorem applyOne_unbiased (hbase : BaseRecord relocation)
    (hkind : relocation.kind ≠ .none) :
    applyOne relocation image 0 resolver memory =
      writeInteger relocation.offset relocation.width image.header.byteOrder 0
        true memory :=
  applyOne_base hbase (checkedAdd_zero _) (computeValue_unbiased hbase hkind)
    (by rw [UInt64.toNat_zero]; positivity)

theorem applyAll_of_slotsZero (hmemory : memory.WellFormed)
    {records : List Relocation} (hbase : ∀ item ∈ records, BaseRecord item)
    (hmapped : SlotsMapped memory records)
    (hzero : SlotsZero image.header.byteOrder memory records) :
    ∃ count, applyAll image 0 resolver records memory = .ok count memory := by
  unfold applyAll
  generalize (0 : UInt32) = start
  induction records generalizing start with
  | nil => exact ⟨start, rfl⟩
  | cons item rest ih =>
      have hone : applyOne item image 0 resolver memory = .ok () memory := by
        have hitem := hbase item List.mem_cons_self
        by_cases hkind : item.kind = .none
        · exact applyOne_none hitem hkind (checkedAdd_zero _)
        · rw [applyOne_unbiased hitem hkind,
            ← hzero item List.mem_cons_self hkind]
          exact writeInteger_unchanged hmemory
            (baseRecord_integerWidth hitem hkind)
            (hmapped item List.mem_cons_self hkind)
      obtain ⟨count, hrest⟩ := ih
        (fun other hother => hbase other (List.mem_cons_of_mem _ hother))
        (fun other hother => hmapped other (List.mem_cons_of_mem _ hother))
        (fun other hother => hzero other (List.mem_cons_of_mem _ hother))
        (start + 1)
      refine ⟨count, ?_⟩
      rw [List.foldlM_cons, bind_assoc, bind_of_ok hone, pure_bind]
      exact hrest

def ZeroedSlot (relocation : Relocation) (memory : AddressSpace) : Prop :=
  ∀ i < relocation.width.toNat,
    memory.contents (relocation.offset.toNat + i) = some 0

theorem storedInteger_of_zeroed (order : ByteOrder)
    (hwidth : integerWidth relocation.width = true)
    (hzero : ZeroedSlot relocation memory) :
    storedInteger memory order relocation.offset relocation.width = 0 := by
  have hbytes : ∀ i, i < (integerBytes order relocation.width 0).length →
      memory.contents (relocation.offset.toNat + i) =
        (integerBytes order relocation.width 0)[i]? := by
    intro i hi
    rw [integerBytes_length] at hi
    rw [hzero i hi, integerBytes_zero order (integerWidth_le hwidth),
      List.getElem?_replicate, if_pos hi]
  have hload := CellMemory.load_eq hbytes
  rw [integerBytes_length] at hload
  rw [storedInteger, hload, integerValue_integerBytes (integerWidth_le hwidth)
    (by rw [UInt64.toNat_zero]; positivity)]

/-- The loop zeroes every slot, and a slot once zero stays so. -/
theorem applyAll_zeroes (hmemory : memory.WellFormed)
    {records : List Relocation} (hbase : ∀ item ∈ records, BaseRecord item)
    {count : UInt32}
    (hrun : applyAll image 0 resolver records memory = .ok count next) :
    ∀ item ∈ records, item.kind ≠ .none → ZeroedSlot item next := by
  refine (foldlM_ok_induction (fun done _ state => state.WellFormed ∧
    ∀ item ∈ done, item.kind ≠ .none → ZeroedSlot item state) hrun
    ⟨hmemory, by simp⟩ ?_).2
  rintro done item rest count state grown after rfl ⟨hstate, hdone⟩ hstep
  obtain ⟨_, middle, hone, hreturn⟩ := bind_eq_ok.mp hstep
  rw [pure_eq_ok] at hreturn
  obtain ⟨_, rfl⟩ := hreturn
  have hitem := hbase item (by simp)
  by_cases hkind : item.kind = .none
  · rw [applyOne_none hitem hkind (checkedAdd_zero _),
      EStateM.Result.ok.injEq] at hone
    obtain ⟨_, rfl⟩ := hone
    refine ⟨hstate, fun other hother hother' => ?_⟩
    rcases List.mem_append.mp hother with hother | hother
    · exact hdone other hother hother'
    · rw [List.mem_singleton.mp hother] at hother'
      exact absurd hkind hother'
  · rw [applyOne_unbiased hitem hkind] at hone
    obtain ⟨hwidth, hwrite⟩ := writeInteger_ok_write.mp hone
    have hcontents := write_ok_contents hstate hwrite
    rw [integerBytes_zero _ (integerWidth_le hwidth)] at hcontents
    have hkeeps : ∀ address, state.contents address = some 0 →
        middle.contents address = some 0 := by
      intro address hzero
      rw [hcontents, CellMemory.store, List.length_replicate]
      split
      · rw [List.getElem?_replicate, if_pos (by omega)]
      · exact hzero
    refine ⟨write_ok_wellFormed hstate hwrite, fun other hother hother' => ?_⟩
    rcases List.mem_append.mp hother with hother | hother
    · exact fun i hi => hkeeps _ (hdone other hother hother' i hi)
    · rw [List.mem_singleton.mp hother]
      intro i hi
      rw [hcontents, CellMemory.store_inside (by omega)
        (by rw [List.length_replicate]; omega), List.getElem?_replicate,
        if_pos (by omega)]

/-- A table is applied without a delta and changes nothing exactly when every
slot holds zero. -/
theorem apply_unbiased_iff (hmemory : memory.WellFormed)
    {records : List Relocation} (hbase : ∀ item ∈ records, BaseRecord item)
    (hcount : records.length ≤ limits.maxRelocations.toNat)
    (hrecords : image.relocations = records)
    (hmapped : SlotsMapped memory records) :
    (∃ count, apply limits image 0 resolver memory = .ok count memory) ↔
      SlotsZero image.header.byteOrder memory records := by
  unfold apply
  rw [hrecords, rejectIf_bind_of_not (not_lt.mpr hcount)]
  constructor
  · rintro ⟨count, hrun⟩ item hitem hkind
    exact storedInteger_of_zeroed _
      (baseRecord_integerWidth (hbase item hitem) hkind)
      (applyAll_zeroes hmemory hbase hrun item hitem hkind)
  · exact applyAll_of_slotsZero hmemory hbase hmapped

/-! ## Decoded tables -/

/-- For every accepted table: a relative record adds the delta to the stored
integer exactly when that integer is zero, and without a delta the table leaves
the memory unchanged exactly when every slot holds zero. -/
theorem base_table_adds_bias_iff {table : Bytes} {imageBase : UInt64}
    {output decoded : List Relocation}
    (hdecode : decodePeBase limits table imageBase output = .ok decoded) :
    (∀ (image : BinaryImage) (resolver : Option SymbolResolver)
      (memory : AddressSpace) (bias target : UInt64),
      ∀ relocation ∈ decoded.drop output.length, IsRelative relocation →
        memory.Reachable →
        checkedAdd relocation.offset bias = some target →
        Mapped memory target relocation.width.toNat →
        (storedInteger memory image.header.byteOrder target
          relocation.width).toNat + bias.toNat <
            256 ^ relocation.width.toNat →
        ((∃ next, applyOne relocation image bias resolver memory =
              .ok () next ∧
            (storedInteger next image.header.byteOrder target
                relocation.width).toNat =
              (storedInteger memory image.header.byteOrder target
                relocation.width).toNat + bias.toNat) ↔
          storedInteger memory image.header.byteOrder target
            relocation.width = 0)) ∧
      ∀ (image : BinaryImage) (resolver : Option SymbolResolver)
        (memory : AddressSpace), memory.Reachable →
        image.relocations = decoded.drop output.length →
        SlotsMapped memory (decoded.drop output.length) →
        ((∃ count, apply limits image 0 resolver memory = .ok count memory) ↔
          SlotsZero image.header.byteOrder memory
            (decoded.drop output.length)) := by
  obtain ⟨hbase, hcount⟩ := (decodePeBase_ok hdecode).added
  refine ⟨?_, ?_⟩
  · intro image resolver memory bias target relocation hrelocation hkind
      hreachable htarget hmapped hfits
    exact applyOne_adds_bias_iff hreachable.wellFormed
      (hbase relocation hrelocation) hkind htarget hmapped hfits
  · intro image resolver memory hreachable hrecords hmapped
    exact apply_unbiased_iff hreachable.wellFormed hbase hcount hrecords hmapped

/-- One block with a 32-bit relocation at `0x1000` and a padding record. -/
def oneRelocationTable : Bytes :=
  [0x00, 0x10, 0, 0, 12, 0, 0, 0, 0x00, 0x30, 0, 0]

def oneRelocation : Relocation :=
  { kind := .relative32, offset := 0x1000, width := 4 }

theorem decodePeBase_oneRelocationTable :
    decodePeBase {} oneRelocationTable 0 [] = .ok [oneRelocation] := by
  have hdecoded : (decodePeBase {} oneRelocationTable 0 []).toOption =
      some [oneRelocation] := by
    decide +kernel
  cases hrun : decodePeBase {} oneRelocationTable 0 [] with
  | error why => rw [hrun] at hdecoded; contradiction
  | ok decoded =>
      rw [hrun] at hdecoded
      exact congrArg Except.ok (Option.some.inj hdecoded)

/-- Over zeros the delta is stored, and no delta changes nothing. -/
theorem base_table_adds_bias_iff_zero_slot :
    let memory := (new {}).run [.map 0x1000 0x20 permissionRead "data"]
    let image : BinaryImage := { relocations := [oneRelocation] }
    (∃ next, applyOne oneRelocation image 0x10 none memory = .ok () next ∧
      (storedInteger next .little 0x1010 4).toNat =
        (storedInteger memory .little 0x1010 4).toNat + 0x10) ∧
      ∃ count, apply {} image 0 none memory = .ok count memory := by
  intro memory image
  obtain ⟨hone, htable⟩ :=
    base_table_adds_bias_iff decodePeBase_oneRelocationTable
  have hmapped : Mapped memory 0x1010 4 := by decide +kernel
  have hslot : Mapped memory 0x1000 4 := by decide +kernel
  have hstored : storedInteger memory .little 0x1010 4 = 0 := by decide +kernel
  have hzero : storedInteger memory .little 0x1000 4 = 0 := by decide +kernel
  constructor
  · exact (hone image none memory 0x10 0x1010 oneRelocation
      (List.mem_singleton.mpr rfl) (Or.inl rfl) ⟨_, _, rfl⟩
      (by decide +kernel) hmapped
      (by rw [show image.header.byteOrder = .little from rfl,
        show oneRelocation.width = 4 from rfl, hstored]; decide)).mpr hstored
  · refine (htable image none memory ⟨_, _, rfl⟩ rfl ?_).mpr ?_
    · exact List.forall_mem_singleton.mpr fun _ => hslot
    · exact List.forall_mem_singleton.mpr fun _ => hzero

/-- Over a stored five the five is lost, with a delta and without one. -/
theorem base_table_drops_stored :
    ¬∀ (limits : Limits) (table : Bytes) (imageBase : UInt64)
      (decoded : List Relocation),
      decodePeBase limits table imageBase [] = .ok decoded →
      ∀ relocation ∈ decoded, IsRelative relocation →
      ∀ (image : BinaryImage) (resolver : Option SymbolResolver)
        (memory : AddressSpace) (bias target : UInt64), memory.Reachable →
        checkedAdd relocation.offset bias = some target →
        Mapped memory target relocation.width.toNat →
        (storedInteger memory image.header.byteOrder target
          relocation.width).toNat + bias.toNat <
            256 ^ relocation.width.toNat →
        ∃ next, applyOne relocation image bias resolver memory = .ok () next ∧
          (storedInteger next image.header.byteOrder target
              relocation.width).toNat =
            (storedInteger memory image.header.byteOrder target
              relocation.width).toNat + bias.toNat := by
  intro hlaw
  let memory := (new {}).run
    [.map 0x1000 0x10 permissionRead "data", .write 0x1000 [5] true]
  have hmapped : Mapped memory 0x1000 4 := by decide +kernel
  have hstored : storedInteger memory .little 0x1000 4 = 5 := by decide +kernel
  obtain ⟨next, hrun, hsum⟩ := hlaw {} _ 0 _ decodePeBase_oneRelocationTable
    oneRelocation (List.mem_singleton.mpr rfl) (Or.inl rfl) {} none memory 0
    0x1000 ⟨_, _, rfl⟩ (by decide +kernel) hmapped
    (by rw [show ({} : BinaryImage).header.byteOrder = .little from rfl,
      show oneRelocation.width = 4 from rfl, hstored]; decide)
  have hafter : storedInteger
      (finalState (applyOne oneRelocation {} 0 none memory)) .little 0x1000 4 =
        0 := by
    decide +kernel
  rw [hrun, finalState_ok] at hafter
  rw [show ({} : BinaryImage).header.byteOrder = .little from rfl,
    show oneRelocation.width = 4 from rfl, hstored, hafter] at hsum
  contradiction

end RelocationProcessor
end BinForge
