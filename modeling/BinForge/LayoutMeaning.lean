import BinForge.FileExtents
import BinForge.Layout
import BinForge.LoadedContents
import BinForge.RelatedLists

/-!
# What a layout plan says

A plan's regions are the segments' regions, shifted by one displacement and
separated.  Read as file extents they assign an access and a source to each
target address; the merge is the joining of neighbouring extents.
-/

namespace BinForge

open StatefulExcept
open MachineInteger
open AddressSpace (size_pos_of_ne_zero)

def LayoutRegion.extent (region : LayoutRegion) : FileExtent UInt8 :=
  { start := region.targetAddress.toNat
    length := region.targetSize.toNat
    source := region.sourceOffset.toNat
    backed := region.sourceSize.toNat
    access := region.permissions }

/-- Permissions and source of a target address. -/
def LayoutPlan.assigned (plan : LayoutPlan) (address : ℕ) :
    Option (UInt8 × Option ℕ) :=
  FileExtent.assigned (plan.regions.map LayoutRegion.extent) address

namespace LayoutPlanner

variable {limits : Limits} {lowest base : UInt64} {segment : Segment}
  {segments : List Segment} {region previous : LayoutRegion}
  {regions rest : List LayoutRegion}

/-! ## Planned regions -/

/-- The region of a segment, `base` being where the lowest address goes. -/
structure PlannedFor (lowest base : UInt64) (segment : Segment)
    (region : LayoutRegion) : Prop where
  sourceOffset : region.sourceOffset = segment.fileOffset
  sourceSize : region.sourceSize = segment.fileSize
  target : region.targetAddress.toNat =
    base.toNat + (segment.virtualAddress - lowest).toNat
  targetSize : region.targetSize = segment.memorySize
  permissions : region.permissions = segment.permissions
  bounded : region.targetAddress.toNat + region.targetSize.toNat < 2 ^ 64

theorem planSegment_ok
    (hrun : planSegment limits lowest base segment = .ok region) :
    PlannedFor lowest base segment region := by
  unfold planSegment at hrun
  simp only [demand_except_bind_eq_ok, rejectIf_except_bind_eq_ok] at hrun
  obtain ⟨address, haddress, -, stop, hstop, hrun⟩ := hrun
  obtain rfl := Except.ok.inj hrun
  exact ⟨rfl, rfl, checkedAdd_toNat haddress, rfl, rfl,
    (checkedAdd_eq_some.mp hstop).1⟩

/-- The segments that occupy memory have been planned, in order. -/
theorem planSegments_ok
    (hrun : planSegments limits lowest base segments = .ok regions) :
    List.Forall₂ (fun segment region =>
      planSegment limits lowest base segment = .ok region)
      (segments.filter fun segment => segment.memorySize ≠ 0) regions := by
  refine foldlM_except_induction (fun done regions =>
    List.Forall₂ (fun segment region =>
      planSegment limits lowest base segment = .ok region)
      (done.filter fun segment => segment.memorySize ≠ 0) regions)
    hrun .nil ?_
  intro done segment rest regions next _ hdone hstep
  rw [List.filter_append]
  by_cases hempty : segment.memorySize = 0
  · rw [if_pos hempty] at hstep
    obtain rfl := Except.ok.inj hstep
    simpa [hempty] using hdone
  · rw [if_neg hempty, except_bind_eq_ok] at hstep
    obtain ⟨region, hregion, hstep⟩ := hstep
    obtain rfl := Except.ok.inj hstep
    have hlast : [segment].filter (fun segment => segment.memorySize ≠ 0) =
        [segment] := by simp [hempty]
    rw [hlast]
    exact List.rel_append hdone (.cons hregion .nil)

/-- Each region ends before the next one starts. -/
def Apart (left right : LayoutRegion) : Prop :=
  left.extent.stop ≤ right.extent.start

theorem checkOverlaps_ok (hrun : checkOverlaps regions = .ok ()) :
    regions.Pairwise Apart := by
  have htrans : ∀ first second third : LayoutRegion, Apart first second →
      Apart second third → Apart first third := by
    intro first second third hleft hright
    unfold Apart FileExtent.stop at *
    omega
  have hchain : regions.IsChain Apart := by
    induction regions with
    | nil => exact .nil
    | cons previous rest ih =>
        cases rest with
        | nil => exact .singleton previous
        | cons current rest =>
            rw [checkOverlaps, demand_except_bind_eq_ok] at hrun
            obtain ⟨stop, hstop, hrun⟩ := hrun
            obtain ⟨hbefore, hrun⟩ := rejectIf_except_bind_eq_ok.mp hrun
            refine List.isChain_cons_cons.mpr ⟨?_, ih hrun⟩
            rw [gt_iff_lt, UInt64.not_lt, UInt64.le_iff_toNat_le,
              checkedAdd_toNat hstop] at hbefore
            exact hbefore
  have : IsTrans LayoutRegion Apart := ⟨htrans⟩
  exact hchain.pairwise

theorem sortRegions_perm (regions : List LayoutRegion) :
    (sortRegions regions).Perm regions :=
  List.perm_insertionSort ..

theorem placeRegions_ok {requestedBase : UInt64}
    (hrun : placeRegions limits segments requestedBase = .ok regions) :
    (∃ planned, List.Forall₂ (fun segment region =>
        planSegment limits (originalBase segments)
          (loadBase requestedBase (originalBase segments)) segment =
            .ok region)
        (segments.filter fun segment => segment.memorySize ≠ 0) planned ∧
      regions.Perm planned) ∧ regions.Pairwise Apart := by
  obtain ⟨planned, hplanned, hrun⟩ := except_bind_eq_ok.mp hrun
  obtain ⟨_, hoverlaps, hrun⟩ := except_bind_eq_ok.mp hrun
  obtain rfl := Except.ok.inj hrun
  exact ⟨⟨planned, planSegments_ok hplanned, sortRegions_perm planned⟩,
    checkOverlaps_ok hoverlaps⟩

theorem region_of_segment {requestedBase : UInt64}
    (hrun : placeRegions limits segments requestedBase = .ok regions)
    (hsegment : segment ∈ segments) (hnonempty : segment.memorySize ≠ 0) :
    ∃ region ∈ regions, planSegment limits (originalBase segments)
      (loadBase requestedBase (originalBase segments)) segment =
        .ok region := by
  obtain ⟨⟨planned, hplanned, hperm⟩, -⟩ := placeRegions_ok hrun
  obtain ⟨region, hregion, hplan⟩ := RelatedLists.exists_right hplanned
    (List.mem_filter.mpr ⟨hsegment, by simpa using hnonempty⟩)
  exact ⟨region, hperm.mem_iff.mpr hregion, hplan⟩

theorem segment_of_region {requestedBase : UInt64}
    (hrun : placeRegions limits segments requestedBase = .ok regions)
    (hregion : region ∈ regions) :
    ∃ segment ∈ segments, segment.memorySize ≠ 0 ∧
      planSegment limits (originalBase segments)
        (loadBase requestedBase (originalBase segments)) segment =
          .ok region := by
  obtain ⟨⟨planned, hplanned, hperm⟩, -⟩ := placeRegions_ok hrun
  obtain ⟨segment, hsegment, hplan⟩ := RelatedLists.exists_left hplanned
    (hperm.mem_iff.mp hregion)
  obtain ⟨hsegment, hnonempty⟩ := List.mem_filter.mp hsegment
  exact ⟨segment, hsegment, by simpa using hnonempty, hplan⟩

theorem originalBase_le (hsegment : segment ∈ segments) :
    originalBase segments ≤ segment.virtualAddress := by
  have hfold : ∀ (segments : List Segment) (start : UInt64),
      segments.foldl (fun lowest segment => min lowest segment.virtualAddress)
          start ≤ start ∧
        ∀ segment ∈ segments,
          segments.foldl (fun lowest segment =>
            min lowest segment.virtualAddress) start ≤
              segment.virtualAddress := by
    intro segments
    induction segments with
    | nil => simp
    | cons first rest ih =>
        intro start
        obtain ⟨hle, hall⟩ := ih (min start first.virtualAddress)
        rw [List.foldl_cons]
        exact ⟨hle.trans (min_le_left _ _), List.forall_mem_cons.mpr
          ⟨hle.trans (min_le_right _ _), hall⟩⟩
  exact (hfold segments _).2 segment hsegment

/-- The displacement of a planned region within the address range. -/
theorem PlannedFor.target_eq (hplanned : PlannedFor (originalBase segments) base
      segment region) (hsegment : segment ∈ segments) :
    region.targetAddress.toNat + (originalBase segments).toNat =
      base.toNat + segment.virtualAddress.toNat := by
  have hle := originalBase_le hsegment
  have htarget := hplanned.target
  rw [UInt64.toNat_sub_of_le _ _ hle] at htarget
  rw [UInt64.le_iff_toNat_le] at hle
  omega

/-! ## Merging -/

/-- The range ends of a region fit their words. -/
structure Bounded (region : LayoutRegion) : Prop where
  target : region.targetAddress.toNat + region.targetSize.toNat < 2 ^ 64
  source : region.sourceOffset.toNat + region.sourceSize.toNat < 2 ^ 64

theorem continues_iff (hprevious : Bounded previous) :
    continues previous region ↔ previous.extent.Continues region.extent := by
  unfold continues FileExtent.Continues
  rw [checkedAdd_of_fit hprevious.target, checkedAdd_of_fit hprevious.source,
    Option.some.injEq, Option.some.injEq, ← UInt64.toNat_inj,
    ← UInt64.toNat_inj, toNat_add_of_fit hprevious.target,
    toNat_add_of_fit hprevious.source]
  rfl

theorem mergeFrom_ok (hprevious : Bounded previous)
    (hrest : ∀ region ∈ rest, Bounded region) :
    ∃ merged, mergeFrom previous rest = .ok merged ∧
      merged.map LayoutRegion.extent =
        FileExtent.coalesce previous.extent
          (rest.map LayoutRegion.extent) := by
  induction rest generalizing previous with
  | nil => exact ⟨[previous], rfl, rfl⟩
  | cons region rest ih =>
      obtain ⟨hregion, hrest⟩ := List.forall_mem_cons.mp hrest
      rw [mergeFrom, List.map_cons, FileExtent.coalesce]
      by_cases hcontinues : continues previous region
      · have hextents := (continues_iff hprevious).mp hcontinues
        rw [if_pos hcontinues, if_pos hextents]
        obtain ⟨htarget, hsource, -⟩ := hextents
        simp only [FileExtent.stop, LayoutRegion.extent] at htarget hsource
        have hregionTarget := hregion.target
        have hregionSource := hregion.source
        have hsizes : previous.targetSize.toNat + region.targetSize.toNat <
            2 ^ 64 := by omega
        have hfiles : previous.sourceSize.toNat + region.sourceSize.toNat <
            2 ^ 64 := by omega
        have hjoined : (joined previous region
            (previous.targetSize + region.targetSize)
            (previous.sourceSize + region.sourceSize)).extent =
              previous.extent.join region.extent := by
          simp only [LayoutRegion.extent, joined, FileExtent.join,
            toNat_add_of_fit hsizes, toNat_add_of_fit hfiles]
        have hbounded : Bounded (joined previous region
            (previous.targetSize + region.targetSize)
            (previous.sourceSize + region.sourceSize)) := by
          refine ⟨?_, ?_⟩
          · simp only [joined, toNat_add_of_fit hsizes]
            omega
          · simp only [joined, toNat_add_of_fit hfiles]
            omega
        obtain ⟨merged, hmerged, hmap⟩ := ih hbounded hrest
        rw [hjoined] at hmap
        refine ⟨merged, ?_, hmap⟩
        exact demand_except_bind_eq_ok.mpr ⟨_, checkedAdd_of_fit hsizes,
          demand_except_bind_eq_ok.mpr ⟨_, checkedAdd_of_fit hfiles, hmerged⟩⟩
      · rw [if_neg hcontinues,
          if_neg fun h => hcontinues ((continues_iff hprevious).mpr h)]
        obtain ⟨merged, hmerged, hmap⟩ := ih hregion hrest
        refine ⟨previous :: merged, ?_, by rw [List.map_cons, hmap]⟩
        exact except_bind_eq_ok.mpr ⟨merged, hmerged, rfl⟩

/-! ## Totals -/

theorem accountRegion_eq_ok {start next : LayoutPlan} :
    accountRegion start region = .ok next ↔
      start.mappedBytes.toNat + region.targetSize.toNat < 2 ^ 64 ∧
        start.fileBytes.toNat + region.sourceSize.toNat < 2 ^ 64 ∧
        next = { start with
          mappedBytes := start.mappedBytes + region.targetSize
          fileBytes := start.fileBytes + region.sourceSize
          warnings := start.warnings ++
            if hasPermission region.permissions permissionWrite ∧
                hasPermission region.permissions permissionExecute then
              [region.name ++ ascii " is writable and executable"]
            else [] } := by
  unfold accountRegion
  simp only [demand_except_bind_eq_ok, checkedAdd_eq_some]
  constructor
  · rintro ⟨_, ⟨hmapped, rfl⟩, _, ⟨hfile, rfl⟩, hnext⟩
    exact ⟨hmapped, hfile, (Except.ok.inj hnext).symm⟩
  · rintro ⟨hmapped, hfile, rfl⟩
    exact ⟨_, ⟨hmapped, rfl⟩, _, ⟨hfile, rfl⟩, rfl⟩

/-- The totals after the last loop, and what it leaves alone. -/
structure Accounted (start : LayoutPlan) (added : List LayoutRegion)
    (planned : LayoutPlan) : Prop where
  regions : planned.regions = start.regions
  imageBegin : planned.imageBegin = start.imageBegin
  imageEnd : planned.imageEnd = start.imageEnd
  mappedBytes : planned.mappedBytes.toNat = start.mappedBytes.toNat +
    (added.map fun region => region.targetSize.toNat).sum
  fileBytes : planned.fileBytes.toNat = start.fileBytes.toNat +
    (added.map fun region => region.sourceSize.toNat).sum

theorem accountRegions_ok {start planned : LayoutPlan}
    (hrun : regions.foldlM accountRegion start = .ok planned) :
    Accounted start regions planned := by
  induction regions generalizing start with
  | nil =>
      obtain rfl := Except.ok.inj hrun
      exact ⟨rfl, rfl, rfl, rfl, rfl⟩
  | cons region rest ih =>
      rw [List.foldlM_cons, except_bind_eq_ok] at hrun
      obtain ⟨next, hstep, hrun⟩ := hrun
      obtain ⟨hmapped, hfile, rfl⟩ := accountRegion_eq_ok.mp hstep
      have hrest := ih hrun
      have hmappedTotal := hrest.mappedBytes
      have hfileTotal := hrest.fileBytes
      simp only [toNat_add_of_fit hmapped] at hmappedTotal
      simp only [toNat_add_of_fit hfile] at hfileTotal
      refine ⟨hrest.regions, hrest.imageBegin, hrest.imageEnd, ?_, ?_⟩
      · rw [hmappedTotal, List.map_cons, List.sum_cons, add_assoc]
      · rw [hfileTotal, List.map_cons, List.sum_cons, add_assoc]

theorem accountRegions_succeeds {start : LayoutPlan}
    (hmapped : start.mappedBytes.toNat +
      (regions.map fun region => region.targetSize.toNat).sum < 2 ^ 64)
    (hfile : start.fileBytes.toNat +
      (regions.map fun region => region.sourceSize.toNat).sum < 2 ^ 64) :
    ∃ planned, regions.foldlM accountRegion start = .ok planned := by
  induction regions generalizing start with
  | nil => exact ⟨start, rfl⟩
  | cons region rest ih =>
      rw [List.map_cons, List.sum_cons, ← add_assoc] at hmapped hfile
      have hmappedHead : start.mappedBytes.toNat + region.targetSize.toNat <
          2 ^ 64 := by omega
      have hfileHead : start.fileBytes.toNat + region.sourceSize.toNat <
          2 ^ 64 := by omega
      obtain ⟨next, hnext, hnextMapped, hnextFile⟩ :
          ∃ next, accountRegion start region = .ok next ∧
            next.mappedBytes = start.mappedBytes + region.targetSize ∧
            next.fileBytes = start.fileBytes + region.sourceSize :=
        ⟨_, accountRegion_eq_ok.mpr ⟨hmappedHead, hfileHead, rfl⟩, rfl, rfl⟩
      rw [← toNat_add_of_fit hmappedHead, ← hnextMapped] at hmapped
      rw [← toNat_add_of_fit hfileHead, ← hnextFile] at hfile
      obtain ⟨planned, hrest⟩ := ih hmapped hfile
      refine ⟨planned, ?_⟩
      rw [List.foldlM_cons, except_bind_eq_ok]
      exact ⟨next, hnext, hrest⟩

theorem imageEnd_eq_ok {finish : UInt64} {last : LayoutRegion}
    (hlast : regions.getLast? = some last) :
    imageEnd regions = .ok finish ↔
      last.extent.stop < 2 ^ 64 ∧
        finish = last.targetAddress + last.targetSize := by
  have hend : imageEnd regions =
      demand (checkedAdd last.targetAddress last.targetSize)
        (failure .addressOverflow last.targetAddress
          "layout image end overflows") := by
    rw [imageEnd, hlast]
  have hstop : last.extent.stop =
      last.targetAddress.toNat + last.targetSize.toNat := rfl
  rw [hend, hstop, ← checkedAdd_eq_some]
  cases checkedAdd last.targetAddress last.targetSize with
  | none => simp [demand, throw, throwThe, MonadExceptOf.throw]
  | some sum => simp [demand, pure, Except.pure]

/-- What the end of `plan` requires, of the regions as extents. -/
structure Finishable (limits : Limits) (extents : List (FileExtent UInt8)) :
    Prop where
  stop : ∀ stop, extents.getLast?.map FileExtent.stop = some stop → stop < 2 ^ 64
  mapped : (extents.map FileExtent.length).sum ≤ limits.maxMappedBytes.toNat
  file : (extents.map FileExtent.backed).sum < 2 ^ 64

theorem finishPlan_ok {planned : LayoutPlan}
    (hrun : finishPlan limits regions = .ok planned) :
    planned.regions = regions ∧
      Finishable limits (regions.map LayoutRegion.extent) := by
  unfold finishPlan at hrun
  obtain ⟨finish, hfinish, hrun⟩ := except_bind_eq_ok.mp hrun
  obtain ⟨last, haccount, hrun⟩ := except_bind_eq_ok.mp hrun
  obtain ⟨hlimit, hrun⟩ := rejectIf_except_bind_eq_ok.mp hrun
  obtain rfl := Except.ok.inj hrun
  have htotals := accountRegions_ok haccount
  rw [gt_iff_lt, UInt64.not_lt, UInt64.le_iff_toNat_le,
    htotals.mappedBytes] at hlimit
  have hfile := htotals.fileBytes ▸ last.fileBytes.toNat_lt
  refine ⟨htotals.regions, ?_, ?_, ?_⟩
  · intro stop hstop
    rw [List.getLast?_map, Option.map_map] at hstop
    obtain ⟨region, hlast, rfl⟩ := Option.map_eq_some_iff.mp hstop
    exact ((imageEnd_eq_ok hlast).mp hfinish).1
  · rw [List.map_map]
    show (regions.map fun region => region.targetSize.toNat).sum ≤ _
    simpa using hlimit
  · rw [List.map_map]
    show (regions.map fun region => region.sourceSize.toNat).sum < _
    simpa using hfile

theorem finishPlan_succeeds
    (hregions : Finishable limits (regions.map LayoutRegion.extent)) :
    ∃ planned, finishPlan limits regions = .ok planned ∧
      planned.regions = regions := by
  have hlimit := limits.maxMappedBytes.toNat_lt
  have hmapped := hregions.mapped
  have hfile := hregions.file
  rw [List.map_map] at hmapped hfile
  have hfinish : ∃ finish, imageEnd regions = .ok finish := by
    cases hlast : regions.getLast? with
    | none => exact ⟨0, by rw [imageEnd, hlast]; rfl⟩
    | some last =>
        have hstop := hregions.stop last.extent.stop (by
          rw [List.getLast?_map, hlast]
          rfl)
        exact ⟨_, (imageEnd_eq_ok hlast).mpr ⟨hstop, rfl⟩⟩
  obtain ⟨finish, hfinish⟩ := hfinish
  obtain ⟨planned, haccount⟩ : ∃ planned, regions.foldlM accountRegion
      { imageBegin := (regions.head?.map LayoutRegion.targetAddress).getD 0
        imageEnd := finish, regions } = .ok planned := accountRegions_succeeds
    (by
      show 0 + (regions.map fun region => region.targetSize.toNat).sum < _
      rw [Nat.zero_add]
      exact hmapped.trans_lt hlimit)
    (by
      show 0 + (regions.map fun region => region.sourceSize.toNat).sum < _
      rw [Nat.zero_add]
      exact hfile)
  have htotals := accountRegions_ok haccount
  refine ⟨planned, except_bind_eq_ok.mpr ⟨finish, hfinish,
    except_bind_eq_ok.mpr ⟨planned, haccount,
      rejectIf_except_bind_eq_ok.mpr ⟨?_, rfl⟩⟩⟩, htotals.regions⟩
  rw [gt_iff_lt, UInt64.not_lt, UInt64.le_iff_toNat_le, htotals.mappedBytes]
  show 0 + (regions.map fun region => region.targetSize.toNat).sum ≤ _
  rw [Nat.zero_add]
  exact hmapped

/-! ## The whole call -/

variable {image : BinaryImage} {requestedBase : UInt64} {planned : LayoutPlan}

/-- One region or none is merged with nothing. -/
theorem mergeRegions_of_length_le_one (hlength : ¬regions.length > 1) :
    mergeRegions regions = .ok regions := by
  match regions, hlength with
  | [], _ => rfl
  | [region], _ => rfl
  | _ :: _ :: _, hlength => simp at hlength

theorem plan_eq_ok {merge : Bool} :
    plan limits image requestedBase merge = .ok planned ↔
      (BinaryValidator.validate limits image).valid = true ∧
        if image.segments = [] then
          planned = { imageBegin := requestedBase, imageEnd := requestedBase }
        else
          ∃ regions, placeRegions limits image.segments requestedBase =
              .ok regions ∧
            ∃ final, (if merge then mergeRegions regions else .ok regions) =
                .ok final ∧
              finishPlan limits final = .ok planned := by
  unfold plan
  rw [rejectIf_except_bind_eq_ok, Bool.not_eq_false]
  refine and_congr_right fun _ => ?_
  split
  · exact ⟨fun hrun => (Except.ok.inj hrun).symm, fun hsame => hsame ▸ rfl⟩
  · rw [except_bind_eq_ok]
    refine exists_congr fun regions => and_congr_right fun _ => ?_
    by_cases hlength : regions.length > 1
    · cases merge
      · simp only [Bool.false_eq_true, false_and, if_false,
          Except.ok.injEq, exists_eq_left']
        rfl
      · simp only [hlength, true_and, if_true]
        exact except_bind_eq_ok
    · have hsame := mergeRegions_of_length_le_one hlength
      simp only [hlength, and_false, if_false, hsame, ite_self,
        Except.ok.injEq, exists_eq_left']
      rfl

/-- No segment with zeros at its end is continued, in memory and in the file,
by one with file bytes. -/
def ZerosLast (image : BinaryImage) : Prop :=
  ∀ first ∈ image.segments, ∀ second ∈ image.segments,
    first.memorySize ≠ 0 → second.memorySize ≠ 0 →
    first.virtualAddress.toNat + first.memorySize.toNat =
      second.virtualAddress.toNat →
    first.fileOffset.toNat + first.fileSize.toNat = second.fileOffset.toNat →
    first.permissions = second.permissions →
    first.fileSize = first.memorySize ∨ second.fileSize = 0

instance (image : BinaryImage) : Decidable (ZerosLast image) :=
  inferInstanceAs (Decidable (∀ first ∈ _, ∀ second ∈ _, _))

section Placed

variable {data : Bytes}

theorem placed_bounded (hvalid : BinaryValidator.Valid limits image data)
    (hplace : placeRegions limits image.segments requestedBase = .ok regions)
    (hregion : region ∈ regions) :
    Bounded region ∧ region.extent.Proper := by
  obtain ⟨segment, hsegment, hnonempty, hplan⟩ :=
    segment_of_region hplace hregion
  have hplanned := planSegment_ok hplan
  have hsound := hvalid.segments segment hsegment
  have hrange := hsound.range
  have hfile := hvalid.fileSize
  have hlimit := limits.maxFileSize.toNat_lt
  have hsize := UInt64.le_iff_toNat_le.mp hsound.size
  refine ⟨⟨hplanned.bounded, ?_⟩, ?_, ?_⟩
  · rw [hplanned.sourceOffset, hplanned.sourceSize]
    omega
  · show 0 < region.targetSize.toNat
    rw [hplanned.targetSize]
    exact size_pos_of_ne_zero hnonempty
  · show region.sourceSize.toNat ≤ region.targetSize.toNat
    rwa [hplanned.sourceSize, hplanned.targetSize]

/-- Regions continue each other as their segments do. -/
theorem extent_continues_iff {base : UInt64} {first second : Segment}
    {left right : LayoutRegion} (hfirst : first ∈ image.segments)
    (hsecond : second ∈ image.segments)
    (hleft : PlannedFor (originalBase image.segments) base first left)
    (hright : PlannedFor (originalBase image.segments) base second right) :
    left.extent.Continues right.extent ↔
      first.virtualAddress.toNat + first.memorySize.toNat =
          second.virtualAddress.toNat ∧
        first.fileOffset.toNat + first.fileSize.toNat =
          second.fileOffset.toNat ∧
        first.permissions = second.permissions := by
  have htargetLeft := hleft.target_eq hfirst
  have htargetRight := hright.target_eq hsecond
  unfold FileExtent.Continues FileExtent.stop LayoutRegion.extent
  simp only [hleft.sourceOffset, hleft.sourceSize, hleft.targetSize,
    hleft.permissions, hright.sourceOffset, hright.permissions]
  refine and_congr_left fun _ => ?_
  omega

theorem zerosLast_iff
    (hplace : placeRegions limits image.segments requestedBase =
      .ok regions) :
    (∀ first ∈ regions.map LayoutRegion.extent,
        ∀ second ∈ regions.map LayoutRegion.extent,
          FileExtent.ZerosLast first second) ↔
      ZerosLast image := by
  simp only [List.forall_mem_map]
  constructor
  · intro hall first hfirst second hsecond hfirstSize hsecondSize hstop hsource
      hpermissions
    obtain ⟨left, hleft, hleftPlan⟩ :=
      region_of_segment hplace hfirst hfirstSize
    obtain ⟨right, hright, hrightPlan⟩ :=
      region_of_segment hplace hsecond hsecondSize
    have hleftPlanned := planSegment_ok hleftPlan
    have hrightPlanned := planSegment_ok hrightPlan
    have hzeros := hall left hleft right hright
      ((extent_continues_iff hfirst hsecond hleftPlanned hrightPlanned).mpr
        ⟨hstop, hsource, hpermissions⟩)
    simp only [LayoutRegion.extent, hleftPlanned.sourceSize,
      hleftPlanned.targetSize, hrightPlanned.sourceSize] at hzeros
    exact hzeros.imp UInt64.toNat_inj.mp fun hzero =>
      UInt64.toNat_inj.mp hzero
  · intro hall left hleft right hright hcontinues
    obtain ⟨first, hfirst, hfirstSize, hleftPlan⟩ :=
      segment_of_region hplace hleft
    obtain ⟨second, hsecond, hsecondSize, hrightPlan⟩ :=
      segment_of_region hplace hright
    have hleftPlanned := planSegment_ok hleftPlan
    have hrightPlanned := planSegment_ok hrightPlan
    obtain ⟨hstop, hsource, hpermissions⟩ :=
      (extent_continues_iff hfirst hsecond hleftPlanned hrightPlanned).mp
        hcontinues
    have hzeros := hall first hfirst second hsecond hfirstSize hsecondSize hstop
      hsource hpermissions
    simp only [LayoutRegion.extent, hleftPlanned.sourceSize,
      hleftPlanned.targetSize, hrightPlanned.sourceSize]
    exact hzeros.imp (congrArg _) fun hzero => by rw [hzero, UInt64.toNat_zero]

end Placed

/-- Merging the final regions: still a plan, and the same one exactly when the
segments with zeros come last. -/
theorem finishPlan_mergeRegions {data : Bytes}
    (hvalid : BinaryValidator.Valid limits image data)
    (hplace : placeRegions limits image.segments requestedBase = .ok regions)
    (hfinish : finishPlan limits regions = .ok planned) :
    ∃ final merged, mergeRegions regions = .ok final ∧
      finishPlan limits final = .ok merged ∧
      ((∀ address, merged.assigned address = planned.assigned address) ↔
        ZerosLast image) := by
  obtain ⟨hregions, hfinishable⟩ := finishPlan_ok hfinish
  rw [← zerosLast_iff hplace]
  cases regions with
  | nil =>
      refine ⟨[], planned, rfl, hfinish, ?_⟩
      simp
  | cons first rest =>
      have hbounded : ∀ region ∈ first :: rest, Bounded region :=
        fun _ hregion => (placed_bounded hvalid hplace hregion).1
      have hproper : ∀ region ∈ first :: rest, region.extent.Proper :=
        fun _ hregion => (placed_bounded hvalid hplace hregion).2
      obtain ⟨hfirst, hrest⟩ := List.forall_mem_cons.mp hbounded
      obtain ⟨final, hmerge, hextents⟩ := mergeFrom_ok hfirst hrest
      have hfits : Finishable limits (final.map LayoutRegion.extent) := by
        rw [hextents]
        refine ⟨?_, ?_, ?_⟩
        · rw [FileExtent.coalesce_last_stop]
          exact hfinishable.stop
        · rw [FileExtent.coalesce_sum fun _ _ => rfl]
          exact hfinishable.mapped
        · rw [FileExtent.coalesce_sum fun _ _ => rfl]
          exact hfinishable.file
      obtain ⟨merged, hmerged, hsame⟩ := finishPlan_succeeds hfits
      refine ⟨final, merged, hmerge, hmerged, ?_⟩
      unfold LayoutPlan.assigned
      rw [hsame, hregions, hextents]
      refine FileExtent.assigned_coalesce_iff ?_ ?_
      · rw [← List.map_cons]
        exact List.forall_mem_map.mpr hproper
      · rw [← List.map_cons]
        exact List.pairwise_map.mpr (placeRegions_ok hplace).2

/-- Merging neighbours never makes a plan fail, and keeps the permissions and
the source of every target address exactly when no segment with zeros at its
end is continued by one with file bytes. -/
theorem plan_merge_iff
    (hplan : plan limits image requestedBase false = .ok planned) :
    ∃ merged, plan limits image requestedBase true = .ok merged ∧
      ((∀ address, merged.assigned address = planned.assigned address) ↔
        ZerosLast image) := by
  obtain ⟨haccepted, hplan⟩ := plan_eq_ok.mp hplan
  obtain ⟨data, -, hvalid⟩ := BinaryValidator.validate_valid_iff.mp haccepted
  split at hplan
  next hempty =>
    refine ⟨planned, plan_eq_ok.mpr ⟨haccepted, ?_⟩, ?_⟩
    · rwa [if_pos hempty]
    · simp [ZerosLast, hempty]
  next hsegments =>
    obtain ⟨regions, hplace, _, hsame, hfinish⟩ := hplan
    obtain rfl := Except.ok.inj hsame
    obtain ⟨final, merged, hmerge, hmerged, hiff⟩ :=
      finishPlan_mergeRegions hvalid hplace hfinish
    refine ⟨merged, plan_eq_ok.mpr ⟨haccepted, ?_⟩, hiff⟩
    rw [if_neg hsegments]
    exact ⟨regions, hplace, final, hmerge, hmerged⟩

/-- Two segments in a row, the first with `backed` of its four bytes in the
file. -/
def adjacentImage (backed : UInt64) : BinaryImage :=
  { fileData := some [1, 2, 3, 4, 5, 6, 7, 8]
    segments := [
      { fileSize := backed, virtualAddress := 0x1000, memorySize := 4,
        permissions := permissionRead },
      { index := 1, fileOffset := backed, fileSize := 4,
        virtualAddress := 0x1004, memorySize := 4,
        permissions := permissionRead }] }

theorem plan_merge_iff_adjacent :
    ∃ planned merged, plan {} (adjacentImage 4) 0 false = .ok planned ∧
      plan {} (adjacentImage 4) 0 true = .ok merged ∧
      merged.regions.length = 1 ∧
      ∀ address, merged.assigned address = planned.assigned address := by
  obtain ⟨planned, hplan, -⟩ := toOption_bind_eq_some.mp
    (by decide +kernel : (plan {} (adjacentImage 4) 0 false).toOption.bind
      (fun _ => some ()) = some ())
  obtain ⟨merged, hmerged, hsame⟩ := plan_merge_iff hplan
  obtain ⟨_, hagain, hlength⟩ := toOption_bind_eq_some.mp
    (by decide +kernel : (plan {} (adjacentImage 4) 0 true).toOption.bind
      (fun merged => some merged.regions.length) = some 1)
  obtain rfl := Except.ok.inj (hmerged.symm.trans hagain)
  exact ⟨planned, merged, hplan, hmerged, Option.some.inj hlength,
    hsame.mpr (by decide +kernel)⟩

/-- Two of the zeros at the end of the first segment are merged into the file
bytes of the second. -/
theorem plan_merge_differs :
    ∃ planned merged, plan {} (adjacentImage 2) 0 false = .ok planned ∧
      plan {} (adjacentImage 2) 0 true = .ok merged ∧
      planned.assigned 0x1002 = some (permissionRead, none) ∧
      merged.assigned 0x1002 = some (permissionRead, some 2) := by
  obtain ⟨planned, hplan, hzero⟩ := toOption_bind_eq_some.mp
    (by decide +kernel : (plan {} (adjacentImage 2) 0 false).toOption.bind
      (fun planned => planned.assigned 0x1002) =
        some (permissionRead, none))
  obtain ⟨merged, hmerged, hbyte⟩ := toOption_bind_eq_some.mp
    (by decide +kernel : (plan {} (adjacentImage 2) 0 true).toOption.bind
      (fun merged => merged.assigned 0x1002) =
        some (permissionRead, some 2))
  exact ⟨planned, merged, hplan, hmerged, hzero, hbyte⟩

end LayoutPlanner
end BinForge
