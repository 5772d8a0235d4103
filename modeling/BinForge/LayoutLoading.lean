import BinForge.LayoutMeaning
import BinForge.LoadedContents

/-!
# A plan and a load of the same image

The planner moves the lowest segment to the requested base.  The loader moves
the declared image base there, and takes the lowest segment only for an image
that declares none.
-/

namespace BinForge

open StatefulExcept
open MachineInteger

namespace LayoutPlanner

variable {planLimits loadLimits : Limits} {image : BinaryImage}
  {options : LoadOptions} {requestedBase : UInt64} {planned : LayoutPlan}

/-- The plan lists the segment's region at the address where the loader puts
its first byte. -/
def PlacedAlike (planLimits : Limits) (image : BinaryImage)
    (options : LoadOptions) (requestedBase : UInt64) (planned : LayoutPlan)
    (segment : Segment) : Prop :=
  ∃ region ∈ planned.regions,
    planSegment planLimits (originalBase image.segments)
        (loadBase requestedBase (originalBase image.segments)) segment =
      .ok region ∧
    region.targetAddress.toNat = segment.virtualAddress.toNat +
      (BinaryLoader.loadBias image options).toNat

/-- Nothing is placed, nothing is moved, or both measure the move from the
lowest segment. -/
def SameOrigin (image : BinaryImage) (requestedBase : UInt64) : Prop :=
  (∀ segment ∈ image.segments, segment.memorySize = 0) ∨
    requestedBase = 0 ∨ image.header.imageBase = 0 ∨
      image.header.imageBase = originalBase image.segments

instance (image : BinaryImage) (requestedBase : UInt64) :
    Decidable (SameOrigin image requestedBase) :=
  inferInstanceAs (Decidable (_ ∨ _))

/-! ## The two origins -/

theorem leastAddress_eq (first : Segment) (rest : List Segment) :
    BinaryLoader.leastAddress first rest = originalBase (first :: rest) := by
  have hstart : min (0xffffffffffffffff : UInt64) first.virtualAddress =
      first.virtualAddress :=
    min_eq_right (UInt64.le_iff_toNat_le.mpr
      (Nat.le_of_lt_succ first.virtualAddress.toNat_lt))
  have hstep : ∀ (least : UInt64) (segment : Segment),
      (if segment.virtualAddress < least then segment.virtualAddress
        else least) = min least segment.virtualAddress := by
    intro least segment
    rw [min_def]
    split
    next hless => rw [if_neg (not_le.mpr hless)]
    next hnot => rw [if_pos (not_lt.mp hnot)]
  unfold BinaryLoader.leastAddress originalBase
  rw [List.foldl_cons, hstart]
  exact congrArg (fun step => rest.foldl step first.virtualAddress)
    (funext fun least => funext fun segment => hstep least segment)

theorem loader_originalBase_eq (hsegments : image.segments ≠ [])
    (hnone : image.header.imageBase = 0) :
    BinaryLoader.originalBase image = originalBase image.segments := by
  unfold BinaryLoader.originalBase
  rw [if_neg (not_not.mpr hnone)]
  cases hlist : image.segments with
  | nil => exact absurd hlist hsegments
  | cons first rest => exact leastAddress_eq first rest

/-- The moved segment is at one address exactly when the two moves agree. -/
theorem displaced_eq_iff (address lowest base origin : UInt64) :
    base + (address - lowest) = address + (base - origin) ↔
      origin = lowest := by
  constructor <;> intro hsame <;> grind

theorem displacement_eq_iff (hsegments : image.segments ≠ [])
    (hoptions : options.preferredBase = requestedBase) (address : UInt64) :
    loadBase requestedBase (originalBase image.segments) +
          (address - originalBase image.segments) =
        address + BinaryLoader.loadBias image options ↔
      requestedBase = 0 ∨ image.header.imageBase = 0 ∨
        image.header.imageBase = originalBase image.segments := by
  unfold BinaryLoader.loadBias BinaryLoader.loadBase loadBase
  rw [hoptions]
  by_cases hmoved : requestedBase = 0
  · simp only [hmoved, ne_eq, not_true_eq_false, if_false, true_or, iff_true]
    grind
  · rw [if_pos hmoved, if_pos hmoved, displaced_eq_iff, or_iff_right hmoved]
    by_cases hdeclared : image.header.imageBase = 0
    · rw [loader_originalBase_eq hsegments hdeclared]
      simp [hdeclared]
    · rw [or_iff_right hdeclared, BinaryLoader.originalBase, if_pos hdeclared]

/-! ## Plan and load -/

theorem placedAlike_iff {segment : Segment} {address first size : UInt64}
    (hplan : plan planLimits image requestedBase false = .ok planned)
    (hoptions : options.preferredBase = requestedBase)
    (hsegment : segment ∈ image.segments) (hnonempty : segment.memorySize ≠ 0)
    (hpages : BinaryLoader.segmentPages loadLimits
      (BinaryLoader.loadBias image options) segment =
        .ok (address, first, size)) :
    PlacedAlike planLimits image options requestedBase planned segment ↔
      requestedBase = 0 ∨ image.header.imageBase = 0 ∨
        image.header.imageBase = originalBase image.segments := by
  have hsegments : image.segments ≠ [] := List.ne_nil_of_mem hsegment
  obtain ⟨-, hplan⟩ := plan_eq_ok.mp hplan
  rw [if_neg hsegments] at hplan
  obtain ⟨regions, hplace, _, hsame, hfinish⟩ := hplan
  obtain rfl := Except.ok.inj hsame
  have hregions := (finishPlan_ok hfinish).1
  obtain ⟨region, hregion, hplanned⟩ :=
    region_of_segment hplace hsegment hnonempty
  have hmoved := (planSegment_ok hplanned).target
  have hshifted := (BinaryLoader.segmentPages_ok hpages).shifted
  have hsum : region.targetAddress.toNat = segment.virtualAddress.toNat +
        (BinaryLoader.loadBias image options).toNat ↔
      loadBase requestedBase (originalBase image.segments) +
          (segment.virtualAddress - originalBase image.segments) =
        segment.virtualAddress + BinaryLoader.loadBias image options := by
    rw [← UInt64.toNat_inj, toNat_add_of_fit (hmoved ▸ UInt64.toNat_lt _),
      toNat_add_of_fit (hshifted ▸ UInt64.toNat_lt _), hmoved]
  rw [← displacement_eq_iff hsegments hoptions segment.virtualAddress, ← hsum]
  constructor
  · rintro ⟨found, -, hfound, hplaced⟩
    obtain rfl := Except.ok.inj (hplanned.symm.trans hfound)
    exact hplaced
  · exact fun hplaced => ⟨region, hregions ▸ hregion, hplanned, hplaced⟩

/-- A load without relocations and imports puts every segment's bytes where it
says, and the plan lists these addresses exactly when both measure the move
from the same origin. -/
theorem plan_load_agree_iff {resolver : Option SymbolResolver}
    {result : LoadResult} {memory next : AddressSpace}
    (hplan : plan planLimits image requestedBase false = .ok planned)
    (hoptions : options.preferredBase = requestedBase)
    (hrelocate : options.applyRelocations = false)
    (hresolve : options.resolveImports = false)
    (hreachable : memory.Reachable)
    (hload : BinaryLoader.load loadLimits image options resolver memory =
      .ok result next) :
    (∃ data, image.fileData = some data ∧
      ∀ segment ∈ image.segments, segment.memorySize ≠ 0 →
        BinaryLoader.SegmentLoaded loadLimits
          (BinaryLoader.loadBias image options) data segment next) ∧
      ((∀ segment ∈ image.segments, segment.memorySize ≠ 0 →
          PlacedAlike planLimits image options requestedBase planned segment) ↔
        SameOrigin image requestedBase) := by
  obtain ⟨data, hdata, hloaded, -⟩ :=
    BinaryLoader.load_contents hreachable hrelocate hresolve hload
  refine ⟨⟨data, hdata, hloaded⟩, ?_⟩
  obtain ⟨filled, hfilled, hvalid, middle, hsegments, -⟩ :=
    BinaryLoader.load_ok hload
  obtain ⟨-, -, hpages⟩ := BinaryLoader.loadSegments_ok hreachable.wellFormed
    hfilled hvalid.segments hsegments
  have halike : ∀ segment ∈ image.segments, segment.memorySize ≠ 0 →
      (PlacedAlike planLimits image options requestedBase planned segment ↔
        requestedBase = 0 ∨ image.header.imageBase = 0 ∨
          image.header.imageBase = originalBase image.segments) := by
    intro segment hsegment hnonempty
    obtain ⟨address, first, size, hpage⟩ := hpages segment hsegment hnonempty
    exact placedAlike_iff hplan hoptions hsegment hnonempty hpage
  unfold SameOrigin
  by_cases hnone : ∀ segment ∈ image.segments, segment.memorySize = 0
  · refine iff_of_true (fun segment hsegment hnonempty => ?_) (.inl hnone)
    exact absurd (hnone segment hsegment) hnonempty
  · rw [or_iff_right hnone]
    obtain ⟨occupied, hnonempty⟩ := not_forall.mp hnone
    obtain ⟨hoccupied, hnonempty⟩ := Classical.not_imp.mp hnonempty
    exact ⟨fun hall => (halike _ hoccupied hnonempty).mp
        (hall _ hoccupied hnonempty),
      fun hsame segment hsegment hsize =>
        (halike segment hsegment hsize).mpr hsame⟩

/-- One segment at 0x401000, under the declared image base. -/
def offsetImage (imageBase : UInt64) : BinaryImage :=
  { header := { imageBase }
    fileData := some [1, 2, 3, 4]
    segments :=
      [{ fileSize := 4, virtualAddress := 0x401000, memorySize := 4 }] }

/-- The options that move an image and do nothing else. -/
def moveTo (base : UInt64) : LoadOptions :=
  { preferredBase := base, applyRelocations := false, resolveImports := false }

theorem plan_load_agree_iff_same_origin :
    ∃ planned result next,
      plan {} (offsetImage 0x401000) 0x10000000 false = .ok planned ∧
        BinaryLoader.load { pageSize := 16 } (offsetImage 0x401000)
            (moveTo 0x10000000) none (AddressSpace.new {}) =
          .ok result next ∧
        ∀ segment ∈ (offsetImage 0x401000).segments, segment.memorySize ≠ 0 →
          PlacedAlike {} (offsetImage 0x401000) (moveTo 0x10000000) 0x10000000
            planned segment := by
  obtain ⟨planned, hplan, -⟩ := toOption_bind_eq_some.mp
    (by decide +kernel : (plan {} (offsetImage 0x401000) 0x10000000
      false).toOption.bind (fun _ => some ()) = some ())
  obtain ⟨result, next, hload⟩ := succeeded_iff.mp (by decide +kernel :
    succeeded (BinaryLoader.load { pageSize := 16 } (offsetImage 0x401000)
      (moveTo 0x10000000) none (AddressSpace.new {})) = true)
  exact ⟨planned, result, next, hplan, hload,
    (plan_load_agree_iff hplan rfl rfl rfl ⟨{}, [], rfl⟩ hload).2.mpr
      (by decide +kernel)⟩

/-- The plan lists 0x10000000, the loader writes at 0x10001000. -/
theorem plan_load_differ :
    ∃ planned result next,
      plan {} (offsetImage 0x400000) 0x10000000 false = .ok planned ∧
        BinaryLoader.load { pageSize := 16 } (offsetImage 0x400000)
            (moveTo 0x10000000) none (AddressSpace.new {}) =
          .ok result next ∧
        planned.regions.map LayoutRegion.targetAddress = [0x10000000] ∧
        next.contents 0x10000000 = none ∧
        next.contents 0x10001000 = some 1 := by
  obtain ⟨planned, hplan, hlisted⟩ := toOption_bind_eq_some.mp
    (by decide +kernel : (plan {} (offsetImage 0x400000) 0x10000000
      false).toOption.bind
        (fun planned => some (planned.regions.map LayoutRegion.targetAddress)) =
      some [0x10000000])
  obtain ⟨result, next, hload⟩ := succeeded_iff.mp (by decide +kernel :
    succeeded (BinaryLoader.load { pageSize := 16 } (offsetImage 0x400000)
      (moveTo 0x10000000) none (AddressSpace.new {})) = true)
  have hnext : finalState (BinaryLoader.load { pageSize := 16 }
      (offsetImage 0x400000) (moveTo 0x10000000) none (AddressSpace.new {})) =
        next := by
    rw [hload]
    rfl
  refine ⟨planned, result, next, hplan, hload, Option.some.inj hlisted, ?_, ?_⟩
  · rw [← hnext]
    decide +kernel
  · rw [← hnext]
    decide +kernel

end LayoutPlanner
end BinForge
