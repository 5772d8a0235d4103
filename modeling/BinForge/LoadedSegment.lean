import BinForge.LoadFailure

/-!
# Permissions and entry point after loading

A successful load leaves each segment's region with the permissions it was
mapped with, since relocations and imports change bytes only.  Those are the
declared ones with write added, so they are the declared ones exactly for
writable segments.  The entry point is moved by its own condition, which
agrees with the segments' bias except for images linked at zero.
-/

namespace BinForge

open StatefulExcept
open AddressSpace
open Alignment
open MachineInteger

namespace BinaryLoader

variable {limits : Limits} {image : BinaryImage} {options : LoadOptions}
  {data : Bytes} {memory next : AddressSpace}

/-! ## Permission bits -/

theorem hasPermission_initial (options : LoadOptions) (segment : Segment) :
    hasPermission (initialPermissions options segment) permissionWrite ∧
      (hasPermission (initialPermissions options segment) permissionRead ↔
        hasPermission segment.permissions permissionRead) ∧
      (hasPermission (initialPermissions options segment) permissionExecute ↔
        options.enforceWx = false ∧
          hasPermission segment.permissions permissionExecute) := by
  unfold initialPermissions
  dsimp only
  generalize segment.permissions = permissions
  cases options.enforceWx
  · revert permissions
    exact forall_uInt8 (by decide +kernel)
  · revert permissions
    exact forall_uInt8 (by decide +kernel)

/-! ## The region of a segment after the call -/

/-- The region a segment's pages are mapped as. -/
structure MappedFor (limits : Limits) (options : LoadOptions) (bias : UInt64)
    (segment : Segment) (region : MemoryRegion) : Prop where
  base : region.base.toNat = roundDown
    (segment.virtualAddress.toNat + bias.toNat) limits.pageSize.toNat
  stop : region.stop = roundUp (segment.virtualAddress.toNat + bias.toNat +
    segment.memorySize.toNat) limits.pageSize.toNat
  permissions : region.permissions = initialPermissions options segment

theorem mappedFor_of_stripped {bias : UInt64} {segment : Segment}
    {first second : MemoryRegion}
    (hsame : ({ second with bytes := [] } : MemoryRegion) =
      { first with bytes := [] })
    (hfirst : MappedFor limits options bias segment first) :
    MappedFor limits options bias segment second := by
  simp only [MemoryRegion.mk.injEq] at hsame
  obtain ⟨hbase, hsize, hpermissions, _⟩ := hsame
  refine ⟨?_, ?_, hpermissions.trans hfirst.permissions⟩
  · rw [hbase]
    exact hfirst.base
  · rw [MemoryRegion.stop, hbase, hsize]
    exact hfirst.stop

theorem regionAt_of_extends {bias : UInt64} {segments : List Segment}
    (hextends : Extends memory next
      (segmentRegions limits options data bias segments)) {segment : Segment}
    (hsegment : segment ∈ segments) (hnonempty : segment.memorySize ≠ 0)
    {start base size : UInt64}
    (hpages : segmentPages limits bias segment = .ok (start, base, size))
    {address : UInt64} (hlow : start.toNat ≤ address.toNat)
    (hhigh : address.toNat < start.toNat + segment.memorySize.toNat) :
    ∃ region, next.regionAt address = some region ∧
      MappedFor limits options bias segment region := by
  have hplace := segmentPages_ok hpages
  have hbase := hplace.base_le
  have hend := hplace.end_le
  have hregion : loadedRegion options data segment start base size ∈
      segmentRegions limits options data bias segments := by
    refine List.mem_filterMap.mpr ⟨segment, hsegment, ?_⟩
    rw [segmentRegion, if_neg hnonempty, hpages]
  have hentry := hextends.added hregion
  have hcovers : (loadedRegion options data segment start base size).Covers
      address.toNat := by
    constructor
    · exact hbase.trans hlow
    · show address.toNat < base.toNat + size.toNat
      omega
  have hfound := hextends.wellFormed.entryAt_eq_some.mpr ⟨hentry, hcovers⟩
  refine ⟨_, by rw [AddressSpace.regionAt, hfound, Option.map_some], ?_, ?_, rfl⟩
  · rw [← hplace.shifted]
    exact hplace.rounded
  · rw [← hplace.shifted]
    exact hplace.stop_eq

theorem load_regionAt {resolver : Option SymbolResolver} {result : LoadResult}
    (hmemory : memory.WellFormed)
    (hrun : load limits image options resolver memory = .ok result next)
    {segment : Segment} (hsegment : segment ∈ image.segments)
    (hnonempty : segment.memorySize ≠ 0) :
    segment.virtualAddress.toNat + (loadBias image options).toNat < 2 ^ 64 ∧
      ∀ address : UInt64,
        segment.virtualAddress.toNat + (loadBias image options).toNat ≤
          address.toNat →
        address.toNat < segment.virtualAddress.toNat +
          (loadBias image options).toNat + segment.memorySize.toNat →
        ∃ region, next.regionAt address = some region ∧
          MappedFor limits options (loadBias image options) segment region := by
  obtain ⟨hvalid, middle, second, hsegments, hrelocate, hbind, _⟩ :=
    load_eq_ok hrun
  obtain ⟨data, hdata, hvalid⟩ := BinaryValidator.validate_valid_iff.mp hvalid
  obtain ⟨hextends, _, hpages⟩ :=
    loadSegments_ok hmemory hdata hvalid.segments hsegments
  obtain ⟨start, base, size, hpage⟩ := hpages segment hsegment hnonempty
  have hshifted := (segmentPages_ok hpage).shifted
  have hframe : SameFrame middle next :=
    (relocateStage_ok_frame hrelocate).trans (importStage_ok_frame hbind)
  rw [← hshifted]
  refine ⟨start.toNat_lt, fun address hlow hhigh => ?_⟩
  obtain ⟨region, hregion, hmapped⟩ :=
    regionAt_of_extends hextends hsegment hnonempty hpage hlow hhigh
  have hsame := hframe.regionAt address
  rw [hregion, Option.map_some, Option.map_eq_some_iff] at hsame
  obtain ⟨after, hafter, hstripped⟩ := hsame
  exact ⟨after, hafter, mappedFor_of_stripped hstripped hmapped⟩

/-! ## Final permissions -/

/-- The permissions agree with what the segment declares; under `enforceWx` a
segment that declares both only must not end up with both. -/
structure AsDeclared (options : LoadOptions) (segment : Segment)
    (permissions : UInt8) : Prop where
  writable : hasPermission permissions permissionWrite →
    hasPermission segment.permissions permissionWrite
  readable : hasPermission permissions permissionRead →
    hasPermission segment.permissions permissionRead
  executable :
    if options.enforceWx = true ∧
        hasPermission segment.permissions permissionWrite ∧
        hasPermission segment.permissions permissionExecute then
      ¬(hasPermission permissions permissionWrite ∧
        hasPermission permissions permissionExecute)
    else hasPermission permissions permissionExecute ↔
      hasPermission segment.permissions permissionExecute

/-- The mapping permissions are the declared ones exactly for a writable
segment. -/
theorem asDeclared_initial_iff (options : LoadOptions) (segment : Segment) :
    AsDeclared options segment (initialPermissions options segment) ↔
      hasPermission segment.permissions permissionWrite := by
  obtain ⟨hwrite, hread, hexecute⟩ := hasPermission_initial options segment
  refine ⟨fun h => h.writable hwrite, fun hdeclared => ⟨fun _ => hdeclared,
    hread.mp, ?_⟩⟩
  split
  · next hboth =>
      intro hpermissions
      rw [(hexecute.mp hpermissions.2).1] at hboth
      exact Bool.false_ne_true hboth.1
  · next hnot =>
      rw [hexecute]
      refine ⟨And.right, fun hx => ⟨?_, hx⟩⟩
      exact Bool.not_eq_true _ ▸ fun henforce => hnot ⟨henforce, hdeclared, hx⟩

/-- A successful load leaves every segment with the permissions it declares
exactly when all of them are writable. -/
theorem load_permissions_iff {resolver : Option SymbolResolver}
    {result : LoadResult} (hreachable : memory.Reachable)
    (hrun : load limits image options resolver memory = .ok result next) :
    (∀ segment ∈ image.segments, segment.memorySize ≠ 0 →
      ∃ region, next.regionAt
          (segment.virtualAddress + loadBias image options) = some region ∧
        AsDeclared options segment region.permissions) ↔
      ∀ segment ∈ image.segments, segment.memorySize ≠ 0 →
        hasPermission segment.permissions permissionWrite := by
  refine forall₃_congr fun segment hsegment hnonempty => ?_
  obtain ⟨hfit, hregions⟩ :=
    load_regionAt hreachable.wellFormed hrun hsegment hnonempty
  have hstart := toNat_add_of_fit hfit
  obtain ⟨region, hregion, hmapped⟩ := hregions
    (segment.virtualAddress + loadBias image options) hstart.ge
    (by rw [hstart]; exact Nat.lt_add_of_pos_right (size_pos_of_ne_zero hnonempty))
  rw [hregion, ← asDeclared_initial_iff options, ← hmapped.permissions]
  constructor
  · rintro ⟨_, ⟨⟩, hdeclared⟩
    exact hdeclared
  · exact fun hdeclared => ⟨region, rfl, hdeclared⟩

/-- One page of code, linked at zero, with its entry point inside. -/
def positionIndependentImage : BinaryImage :=
  { header := { entryPoint := 4 }
    fileData := some [0x90, 0xc3]
    segments := [{ fileSize := 2, memorySize := 8,
                   permissions := permissionRead ||| permissionExecute }] }

def smallPages : Limits := { pageSize := 16 }

theorem load_permissions_iff_position_independent :
    ∃ result next,
      load smallPages positionIndependentImage {} none (new {}) =
          .ok result next ∧
        ((∀ segment ∈ positionIndependentImage.segments,
            segment.memorySize ≠ 0 →
            ∃ region, next.regionAt (segment.virtualAddress +
                loadBias positionIndependentImage {}) = some region ∧
              AsDeclared {} segment region.permissions) ↔
          ∀ segment ∈ positionIndependentImage.segments,
            segment.memorySize ≠ 0 →
              hasPermission segment.permissions permissionWrite) := by
  obtain ⟨result, next, hrun⟩ := succeeded_iff.mp (by decide +kernel :
    succeeded (load smallPages positionIndependentImage {} none (new {})) =
      true)
  exact ⟨result, next, hrun, load_permissions_iff ⟨{}, [], rfl⟩ hrun⟩

/-- A code segment stays writable and is not executable. -/
theorem load_leaves_code_writable :
    ¬∀ limits image options resolver (memory next : AddressSpace) result,
      memory.Reachable →
        load limits image options resolver memory = .ok result next →
        ∀ segment ∈ image.segments, segment.memorySize ≠ 0 →
          ∃ region, next.regionAt
              (segment.virtualAddress + loadBias image options) = some region ∧
            AsDeclared options segment region.permissions := by
  intro hall
  obtain ⟨result, next, hrun⟩ := succeeded_iff.mp (by decide +kernel :
    succeeded (load smallPages positionIndependentImage {} none (new {})) =
      true)
  have hpermissions : ((finalState (load smallPages positionIndependentImage {}
      none (new {}))).regionAt 0).map MemoryRegion.permissions = some 3 := by
    decide +kernel
  rw [hrun, finalState_ok] at hpermissions
  obtain ⟨region, hregion, hdeclared⟩ := hall _ _ _ _ _ _ _ ⟨{}, [], rfl⟩ hrun
    _ List.mem_cons_self (by decide)
  rw [show (0 : UInt64) + loadBias positionIndependentImage {} = 0 by
    decide +kernel] at hregion
  rw [hregion, Option.map_some, Option.some.injEq] at hpermissions
  rw [hpermissions] at hdeclared
  exact absurd (hdeclared.writable (by decide)) (by decide)

/-! ## The entry point -/

/-- The entry point has moved with a segment into the segment's region. -/
def EntryMoved (limits : Limits) (image : BinaryImage) (options : LoadOptions)
    (next : AddressSpace) (result : LoadResult) (segment : Segment) : Prop :=
  result.entryPoint.toNat =
      image.header.entryPoint.toNat + (loadBias image options).toNat ∧
    ∃ region, next.regionAt result.entryPoint = some region ∧
      MappedFor limits options (loadBias image options) segment region

theorem loadBias_eq_zero_iff :
    loadBias image options = 0 ↔
      options.preferredBase = 0 ∨
        options.preferredBase = originalBase image := by
  unfold loadBias loadBase
  rw [sub_eq_zero]
  split
  · next hchosen => simp [hchosen]
  · next hchosen => simp [not_not.mp hchosen]

/-- The entry point moves with the segment it lies in exactly when the image
is not moved, or was linked at a nonzero base at or below the entry. -/
theorem load_entry_iff {resolver : Option SymbolResolver} {result : LoadResult}
    (hreachable : memory.Reachable)
    (hrun : load limits image options resolver memory = .ok result next)
    {segment : Segment} (hsegment : segment ∈ image.segments)
    (hinside : segment.virtualAddress.toNat ≤ image.header.entryPoint.toNat ∧
      image.header.entryPoint.toNat <
        segment.virtualAddress.toNat + segment.memorySize.toNat) :
    EntryMoved limits image options next result segment ↔
      options.preferredBase = 0 ∨
        options.preferredBase = originalBase image ∨
        originalBase image ≠ 0 ∧
          originalBase image ≤ image.header.entryPoint := by
  have hnonempty : segment.memorySize ≠ 0 := by
    intro hzero
    rw [hzero, UInt64.toNat_zero] at hinside
    omega
  obtain ⟨_, hregions⟩ :=
    load_regionAt hreachable.wellFormed hrun hsegment hnonempty
  obtain ⟨_, _, _, _, _, _, hentry⟩ := load_eq_ok hrun
  have hregion : result.entryPoint.toNat =
      image.header.entryPoint.toNat + (loadBias image options).toNat →
      EntryMoved limits image options next result segment := fun hmoved =>
    ⟨hmoved, hregions result.entryPoint (by omega) (by omega)⟩
  rw [← or_assoc, ← loadBias_eq_zero_iff]
  by_cases hguard : originalBase image ≠ 0 ∧
      originalBase image ≤ image.header.entryPoint
  · exact ⟨fun _ => Or.inr hguard,
      fun _ => hregion (entryPoint_moved hguard.1 hguard.2 hentry)⟩
  · have hsame := entryPoint_kept hguard hentry
    constructor
    · rintro ⟨hmoved, _⟩
      rw [hsame] at hmoved
      refine Or.inl (UInt64.toNat_inj.mp ?_)
      rw [UInt64.toNat_zero]
      omega
    · rintro (hzero | hmoves)
      · apply hregion
        rw [hsame, hzero, UInt64.toNat_zero, add_zero]
      · exact absurd hmoves hguard

theorem load_entry_iff_position_independent :
    ∃ result next,
      load smallPages positionIndependentImage { preferredBase := 0x4000 } none
          (new {}) = .ok result next ∧
        ∃ segment ∈ positionIndependentImage.segments,
          EntryMoved smallPages positionIndependentImage
              { preferredBase := 0x4000 } next result segment ↔
            (0x4000 : UInt64) = 0 ∨
              0x4000 = originalBase positionIndependentImage ∨
              originalBase positionIndependentImage ≠ 0 ∧
                originalBase positionIndependentImage ≤
                  positionIndependentImage.header.entryPoint := by
  obtain ⟨result, next, hrun⟩ := succeeded_iff.mp (by decide +kernel :
    succeeded (load smallPages positionIndependentImage
      { preferredBase := 0x4000 } none (new {})) = true)
  exact ⟨result, next, hrun, _, List.mem_cons_self,
    load_entry_iff ⟨{}, [], rfl⟩ hrun List.mem_cons_self (by decide)⟩

/-- An image linked at zero is moved, its entry point is not. -/
theorem load_leaves_entry_behind :
    ¬∀ limits image options resolver (memory next : AddressSpace) result,
      memory.Reachable →
        load limits image options resolver memory = .ok result next →
        ∀ segment ∈ image.segments,
          segment.virtualAddress.toNat ≤ image.header.entryPoint.toNat ∧
            image.header.entryPoint.toNat <
              segment.virtualAddress.toNat + segment.memorySize.toNat →
          EntryMoved limits image options next result segment := by
  intro hall
  obtain ⟨result, next, hrun⟩ := succeeded_iff.mp (by decide +kernel :
    succeeded (load smallPages positionIndependentImage
      { preferredBase := 0x4000 } none (new {})) = true)
  obtain ⟨_, _, _, _, _, _, hentry⟩ := load_eq_ok hrun
  have hstays : entryPoint positionIndependentImage
      (loadBias positionIndependentImage { preferredBase := 0x4000 }) =
        .ok 4 := by
    decide +kernel
  have hmoved := (hall _ _ _ _ _ _ _ ⟨{}, [], rfl⟩ hrun _
    List.mem_cons_self (by decide)).1
  rw [← Except.ok.inj (hstays.symm.trans hentry)] at hmoved
  revert hmoved
  decide +kernel

end BinaryLoader
end BinForge
