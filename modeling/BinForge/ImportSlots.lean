import BinForge.ImportBinding

/-!
# What a load leaves in the import slots

A slot is one machine word.  The loop writes each resolved address once, so a
slot that no other import's slot meets holds at the end what was written to it:
the address, if it fits the word, and its low bytes otherwise.
-/

namespace BinForge

open StatefulExcept
open AddressSpace

namespace AddressSpace

variable {memory next : AddressSpace} {address slot value : UInt64}
  {width : UInt8} {order : ByteOrder}

/-- An integer is read wherever the whole of it may be. -/
theorem readInteger_inside (hmemory : memory.WellFormed)
    (hwidth : integerWidth width = true)
    (hinside : memory.Inside address width.toNat fun permissions =>
      hasPermission permissions permissionRead) :
    readInteger address width order memory =
      .ok (storedInteger memory order address width) memory := by
  obtain ⟨value, next, hrun⟩ := succeeded_iff.mp
    ((readInteger_succeeded_iff hmemory address width order).mpr
      ⟨hwidth, hinside⟩)
  rw [hrun]
  obtain ⟨-, hrun⟩ := rejectIf_bind_eq_ok.mp hrun
  obtain ⟨bytes, middle, hread, hreturn⟩ := bind_eq_ok.mp hrun
  rw [pure_eq_ok] at hreturn
  obtain ⟨rfl, rfl⟩ := hreturn
  obtain ⟨rfl, rfl⟩ := read_ok_contents hmemory hread
  rfl

/-- The slot holds the address, and gives it to whoever may read there. -/
structure SlotHolds (memory : AddressSpace) (order : ByteOrder)
    (slot : UInt64) (width : UInt8) (address : UInt64) : Prop where
  mapped : Mapped memory slot width.toNat
  stored : storedInteger memory order slot width = address
  read : (memory.Inside slot width.toNat fun permissions =>
      hasPermission permissions permissionRead) →
    readInteger slot width order memory = .ok address memory

theorem slotHolds_of_stored (hmemory : memory.WellFormed)
    (hwidth : integerWidth width = true)
    (hmapped : Mapped memory slot width.toNat)
    (hstored : storedInteger memory order slot width = address) :
    SlotHolds memory order slot width address :=
  ⟨hmapped, hstored, fun hinside =>
    hstored ▸ readInteger_inside hmemory hwidth hinside⟩

/-- A memory of the same layout that agrees on the slot holds the same. -/
theorem storedInteger_congr
    (hsame : ∀ target, slot.toNat ≤ target →
      target < slot.toNat + width.toNat →
        next.contents target = memory.contents target) :
    storedInteger next order slot width =
      storedInteger memory order slot width := by
  unfold storedInteger
  rw [CellMemory.load_congr hsame]

end AddressSpace

namespace BinaryLoader

variable {limits : Limits} {image : BinaryImage} {options : LoadOptions}
  {bias : UInt64} {resolver : Option SymbolResolver} {result : LoadResult}
  {memory state next : AddressSpace} {imported : Import}
  {done rest : List Import} {address : UInt64}

/-- The slots of the two imports do not meet. -/
def SlotsApart (image : BinaryImage) (left right : Import) : Prop :=
  left.slotAddress.toNat + image.header.wordSize.toByte.toNat ≤
      right.slotAddress.toNat ∨
    right.slotAddress.toNat + image.header.wordSize.toByte.toNat ≤
      left.slotAddress.toNat

instance (image : BinaryImage) (left right : Import) :
    Decidable (SlotsApart image left right) :=
  inferInstanceAs (Decidable (_ ∨ _))

/-- Another import leaves the bytes of a slot it does not meet. -/
theorem bindImport_outside {other : Import} {count : UInt32} {slot : UInt64}
    (hstate : state.WellFormed) (hapart : SlotsApart image imported other)
    (hslot : checkedAdd imported.slotAddress bias = some slot)
    (hrun : bindImport image bias resolver other state = .ok count next)
    {target : ℕ} (hlow : slot.toNat ≤ target)
    (hhigh : target < slot.toNat + image.header.wordSize.toByte.toNat) :
    next.contents target = state.contents target := by
  rcases bindImport_eq_ok.mp hrun with
    ⟨-, -, rfl⟩ | ⟨found, place, -, hplace, hwrite, -⟩
  · rfl
  · refine (write_ok_outside hstate (writeInteger_ok_write.mp hwrite).2).2
      target ?_
    rw [integerBytes_length, checkedAdd_toNat hplace]
    rw [checkedAdd_toNat hslot] at hlow hhigh
    unfold SlotsApart at hapart
    omega

/-- So do any number of imports, one after the other. -/
theorem bindRest_outside {slot : UInt64} {first total : UInt32}
    (hslot : checkedAdd imported.slotAddress bias = some slot)
    (hapart : ∀ other ∈ rest, SlotsApart image imported other)
    (hstate : state.WellFormed)
    (hrun : (rest.foldlM (fun resolved imported => do
      let count ← bindImport image bias resolver imported
      return resolved + count) first : MemoryCall UInt32) state =
        .ok total next) :
    next.WellFormed ∧ SameFrame state next ∧
      ∀ target, slot.toNat ≤ target →
        target < slot.toNat + image.header.wordSize.toByte.toNat →
          next.contents target = state.contents target := by
  refine foldlM_ok_induction
    (fun _ _ (later : AddressSpace) => later.WellFormed ∧
      SameFrame state later ∧
      ∀ target, slot.toNat ≤ target →
        target < slot.toNat + image.header.wordSize.toByte.toNat →
          later.contents target = state.contents target)
    hrun ⟨hstate, SameFrame.refl state, fun _ _ _ => rfl⟩ ?_
  rintro before other behind carried earlier passed later hsplit
    ⟨hearlier, hframe, hkept⟩ hbody
  obtain ⟨count, middle, hone, hreturn⟩ := bind_eq_ok.mp hbody
  rw [pure_eq_ok] at hreturn
  obtain ⟨-, rfl⟩ := hreturn
  refine ⟨bindImport_wellFormed hearlier hone,
    hframe.trans (bindImport_ok_frame hone), fun target hlow hhigh => ?_⟩
  rw [bindImport_outside hearlier (hapart other (by simp [hsplit])) hslot hone
    hlow hhigh, hkept target hlow hhigh]

/-- What is owed to a resolved import once the load is through: its slot holds
the address if no other slot meets it, and an address too wide for a slot does
not get this far. -/
structure SlotServed (limits : Limits) (image : BinaryImage)
    (options : LoadOptions) (resolver : Option SymbolResolver)
    (memory : AddressSpace) (imported : Import) (others : List Import)
    (address : UInt64) (next : AddressSpace) : Prop where
  holds : (∀ other ∈ others, SlotsApart image imported other) →
    ∃ slot, checkedAdd imported.slotAddress (loadBias image options) =
        some slot ∧
      SlotHolds next image.header.byteOrder slot image.header.wordSize.toByte
        address
  refused : 256 ^ image.header.wordSize.toByte.toNat ≤ address.toNat →
    ∀ result last, load limits image options resolver memory ≠ .ok result last

/-- The slots of a completed load are served exactly for the addresses that
fit them. -/
theorem load_slots_iff (hmemory : memory.Reachable)
    (henabled : options.resolveImports = true)
    (himports : image.imports = done ++ imported :: rest)
    (haddress : resolveImport resolver imported = .ok (some address))
    (hload : load limits image options resolver memory = .ok result next) :
    SlotServed limits image options resolver memory imported (done ++ rest)
        address next ↔
      address.toNat < 256 ^ image.header.wordSize.toByte.toNat := by
  refine ⟨fun hserved => ?_, fun hfits => ⟨fun hapart => ?_, ?_⟩⟩
  · by_contra hwide
    exact hserved.refused (not_lt.mp hwide) result next hload
  · have hwidth := integerWidth_wordSize image.header.wordSize
    obtain ⟨state, count, total, after, hcomes, hbind, hrest⟩ :=
      comesTo_of_load hload henabled himports
    have hstate := hcomes.wellFormed hmemory.wellFormed
    have hafter := bindImport_wellFormed hstate hbind
    rcases bindImport_eq_ok.mp hbind with
      ⟨hnone, -⟩ | ⟨found, slot, hfound, hslot, hwrite, -⟩
    · rw [haddress] at hnone
      exact absurd (Except.ok.inj hnone) (Option.some_ne_none address)
    rw [haddress] at hfound
    obtain rfl := Option.some.inj (Except.ok.inj hfound)
    obtain ⟨place, hplace, hmapped⟩ := (slotWritable_iff hstate haddress).mpr
      ⟨after, bindImport_eq_ok.mpr
        (Or.inr ⟨address, slot, haddress, hslot, hwrite, rfl⟩)⟩
    rw [hslot] at hplace
    obtain rfl := Option.some.inj hplace
    obtain ⟨written, hwritten, -, hstored⟩ := writeInteger_mapped hstate
      image.header.byteOrder hwidth hmapped hfits
    rw [hwrite] at hwritten
    obtain ⟨-, rfl⟩ := EStateM.Result.ok.inj hwritten
    obtain ⟨hnext, hframe, hkept⟩ := bindRest_outside hslot
      (fun other hother => hapart other (List.mem_append_right done hother))
      hafter hrest
    refine ⟨slot, hslot, slotHolds_of_stored hnext hwidth ?_ ?_⟩
    · exact (hmapped.sameFrame (bindImport_ok_frame hbind)).sameFrame hframe
    · rw [storedInteger_congr hkept, hstored]
  · intro hwide
    exact absurd hfits (not_lt.mpr hwide)

/-- A resolver that has the name of the import at this address. -/
def exportAt (address : UInt64) : SymbolResolver :=
  SymbolResolver.ofCalls [.addExport ⟨"l", { name := "f", address }⟩]

theorem load_slots_iff_low_address :
    ∃ result next,
      load { pageSize := 16 } hintedImage {} (some (exportAt 0x5000))
          (AddressSpace.new {}) = .ok result next ∧
        SlotServed { pageSize := 16 } hintedImage {} (some (exportAt 0x5000))
          (AddressSpace.new {}) hintedImport [] 0x5000 next := by
  obtain ⟨result, next, hrun⟩ := succeeded_iff.mp (by decide +kernel :
    succeeded (load { pageSize := 16 } hintedImage {} (some (exportAt 0x5000))
      (AddressSpace.new {})) = true)
  refine ⟨result, next, hrun, ?_⟩
  exact (@load_slots_iff _ hintedImage _ _ _ _ _ _ [] [] _ ⟨{}, [], rfl⟩ rfl rfl
    (by decide +kernel) hrun).mpr (by decide +kernel)

/-- The upper half of a 64-bit address is lost in a 32-bit image. -/
theorem load_cuts_address :
    ¬∀ limits image options resolver memory result next done imported rest
        address,
      memory.Reachable → options.resolveImports = true →
        image.imports = done ++ imported :: rest →
          resolveImport resolver imported = .ok (some address) →
            load limits image options resolver memory = .ok result next →
              SlotServed limits image options resolver memory imported
                (done ++ rest) address next := by
  intro hall
  obtain ⟨result, next, hrun⟩ := succeeded_iff.mp (by decide +kernel :
    succeeded (load { pageSize := 16 } hintedImage {}
      (some (exportAt 0x100000005)) (AddressSpace.new {})) = true)
  have hserved := hall { pageSize := 16 } hintedImage {}
    (some (exportAt 0x100000005)) (AddressSpace.new {}) result next []
    hintedImport [] 0x100000005 ⟨{}, [], rfl⟩ rfl rfl (by decide +kernel) hrun
  exact hserved.refused (by decide +kernel) result next hrun

end BinaryLoader
end BinForge
