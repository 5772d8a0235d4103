import BinForge.Checklist
import BinForge.LayoutMeaning
import BinForge.RangeOrder

/-!
# What a layout plan holds, exactly

Without merging, a plan holds one region for each segment that occupies memory,
in the one order in which they do not overlap, and totals that did not wrap.
The planner refuses for an overlap only where two such segments share an
address, and the order in which the image lists its segments does not matter.
-/

namespace BinForge

open StatefulExcept
open Checklist
open MachineInteger
open RangeOrder

namespace LayoutRegion

def start (region : LayoutRegion) : ℕ := region.targetAddress.toNat

def stop (region : LayoutRegion) : ℕ :=
  region.targetAddress.toNat + region.targetSize.toNat

end LayoutRegion

namespace Segment

def start (segment : Segment) : ℕ := segment.virtualAddress.toNat

def stop (segment : Segment) : ℕ :=
  segment.virtualAddress.toNat + segment.memorySize.toNat

end Segment

/-- The segments that occupy memory. -/
def BinaryImage.nonemptySegments (image : BinaryImage) : List Segment :=
  image.segments.filter fun segment => segment.memorySize ≠ 0

namespace LayoutPlanner

variable {limits : Limits} {lowest base requestedBase : UInt64}
  {segment : Segment} {segments others : List Segment} {region : LayoutRegion}
  {regions : List LayoutRegion} {image : BinaryImage} {planned : LayoutPlan}
  {why : Failure}

/-- The region a segment is given where its range fits. -/
def regionFor (limits : Limits) (lowest base : UInt64) (segment : Segment) :
    LayoutRegion :=
  { sourceOffset := segment.fileOffset
    sourceSize := segment.fileSize
    targetAddress := base + (segment.virtualAddress - lowest)
    targetSize := segment.memorySize
    alignment := max limits.pageSize.toUInt64
      (if segment.alignment ≠ 0 then segment.alignment else 1)
    permissions := segment.permissions
    name := BinaryLoader.segmentName segment }

theorem planSegment_eq
    (hrun : planSegment limits lowest base segment = .ok region) :
    region = regionFor limits lowest base segment := by
  unfold planSegment at hrun
  simp only [demand_except_bind_eq_ok, rejectIf_except_bind_eq_ok] at hrun
  obtain ⟨address, haddress, -, _, -, hrun⟩ := hrun
  obtain rfl := Except.ok.inj hrun
  rw [regionFor, ← (checkedAdd_eq_some.mp haddress).2]

/-- Where the planner puts the segments of an image. -/
def plannedRegions (limits : Limits) (segments : List Segment)
    (requestedBase : UInt64) : List LayoutRegion :=
  (segments.filter fun segment => segment.memorySize ≠ 0).map
    (regionFor limits (originalBase segments)
      (loadBase requestedBase (originalBase segments)))

/-! ## The lowest address -/

theorem originalBase_isLeast (hsegments : segments ≠ []) :
    IsLeast {address | ∃ segment ∈ segments, segment.virtualAddress = address}
      (originalBase segments) := by
  have hreached : ∀ (segments : List Segment) (start : UInt64),
      segments.foldl (fun lowest segment => min lowest segment.virtualAddress)
          start = start ∨
        ∃ segment ∈ segments, segment.virtualAddress =
          segments.foldl (fun lowest segment =>
            min lowest segment.virtualAddress) start := by
    intro segments
    induction segments with
    | nil => simp
    | cons first rest ih =>
        intro start
        rw [List.foldl_cons]
        rcases ih (min start first.virtualAddress) with hsame | hrest
        · rw [hsame]
          rcases min_choice start first.virtualAddress with hstart | hfirst
          · exact Or.inl hstart
          · exact Or.inr ⟨first, List.mem_cons_self, hfirst.symm⟩
        · obtain ⟨segment, hsegment, hfound⟩ := hrest
          exact Or.inr ⟨segment, List.mem_cons_of_mem _ hsegment, hfound⟩
  constructor
  · rcases hreached segments 0xffffffffffffffff with htop | hfound
    · obtain ⟨first, hfirst⟩ := List.exists_mem_of_ne_nil segments hsegments
      have hle := originalBase_le hfirst
      refine ⟨first, hfirst, ?_⟩
      rw [originalBase, htop, UInt64.le_iff_toNat_le] at hle
      rw [originalBase, htop, ← UInt64.toNat_inj]
      have hbound := first.virtualAddress.toNat_lt
      have htopNat : (0xffffffffffffffff : UInt64).toNat = 2 ^ 64 - 1 := rfl
      omega
    · exact hfound
  · rintro address ⟨segment, hsegment, rfl⟩
    exact originalBase_le hsegment

theorem originalBase_perm (hperm : segments.Perm others) :
    originalBase segments = originalBase others := by
  by_cases hsegments : segments = []
  · subst hsegments
    rw [List.nil_perm.mp hperm]
  · have hothers : others ≠ [] := by
      rintro rfl
      exact hsegments (List.perm_nil.mp hperm)
    apply (originalBase_isLeast hsegments).unique
    simp only [hperm.mem_iff]
    exact originalBase_isLeast hothers

/-! ## Regions of segments -/

/-- Every segment that occupies memory has its region. -/
def Plannable (limits : Limits) (lowest base : UInt64)
    (segments : List Segment) : Prop :=
  ∀ segment ∈ segments, segment.memorySize ≠ 0 →
    planSegment limits lowest base segment =
      .ok (regionFor limits lowest base segment)

theorem mem_filter_nonempty :
    segment ∈ segments.filter (fun segment => segment.memorySize ≠ 0) ↔
      segment ∈ segments ∧ segment.memorySize ≠ 0 := by
  simp [List.mem_filter]

/-- The regions of a permuted image, permuted. -/
theorem plannedRegions_perm (hperm : segments.Perm others) :
    (plannedRegions limits segments requestedBase).Perm
      (plannedRegions limits others requestedBase) := by
  unfold plannedRegions
  rw [originalBase_perm hperm]
  exact (hperm.filter _).map _

theorem planSegments_eq_ok :
    planSegments limits lowest base segments = .ok regions ↔
      Plannable limits lowest base segments ∧
        regions = (segments.filter fun segment => segment.memorySize ≠ 0).map
          (regionFor limits lowest base) := by
  constructor
  · intro hrun
    have hall := planSegments_ok hrun
    constructor
    · intro segment hsegment hnonempty
      obtain ⟨region, -, hplan⟩ := RelatedLists.exists_right hall
        (mem_filter_nonempty.mpr ⟨hsegment, hnonempty⟩)
      rwa [← planSegment_eq hplan]
    · have hmapped := List.forall₂_map_left_iff.mpr
        (hall.imp fun _ _ hplan => (planSegment_eq hplan).symm)
      rw [List.forall₂_eq_eq_eq] at hmapped
      exact hmapped.symm
  · rintro ⟨hall, rfl⟩
    have hrun : ∀ start, segments.foldlM (fun regions segment =>
        if segment.memorySize = 0 then (return regions : Except Failure _)
        else do
          let region ← planSegment limits lowest base segment
          return regions ++ [region]) start =
        .ok (start ++ (segments.filter fun segment =>
          segment.memorySize ≠ 0).map (regionFor limits lowest base)) := by
      induction segments with
      | nil => simp [pure, Except.pure]
      | cons first rest ih =>
          intro start
          have hrest := ih fun segment hsegment =>
            hall segment (List.mem_cons_of_mem _ hsegment)
          rw [List.foldlM_cons]
          by_cases hempty : first.memorySize = 0
          · rw [if_pos hempty]
            apply (hrest start).trans
            simp [hempty]
          · rw [if_neg hempty, hall first List.mem_cons_self hempty]
            apply (hrest (start ++ [regionFor limits lowest base first])).trans
            simp [hempty]
    exact hrun []

theorem placeRegions_eq_ok :
    placeRegions limits segments requestedBase = .ok regions ↔
      Plannable limits (originalBase segments)
          (loadBase requestedBase (originalBase segments)) segments ∧
        regions = sortRegions (plannedRegions limits segments requestedBase) ∧
        checkOverlaps regions = .ok () := by
  unfold placeRegions
  simp only [except_bind_eq_ok, planSegments_eq_ok]
  constructor
  · rintro ⟨_, ⟨hall, rfl⟩, _, hoverlaps, hrun⟩
    obtain rfl := Except.ok.inj hrun
    exact ⟨hall, rfl, hoverlaps⟩
  · rintro ⟨hall, rfl, hoverlaps⟩
    exact ⟨_, ⟨hall, rfl⟩, _, hoverlaps, rfl⟩

theorem plannedRegions_nonempty :
    RangeOrder.Nonempty LayoutRegion.start LayoutRegion.stop
      (plannedRegions limits segments requestedBase) := by
  intro region hregion
  obtain ⟨segment, hsegment, rfl⟩ := List.mem_map.mp hregion
  have hsize := AddressSpace.size_pos_of_ne_zero
    (mem_filter_nonempty.mp hsegment).2
  exact Nat.lt_add_of_pos_right hsize

theorem not_sortedBefore_iff {left right : LayoutRegion} :
    ¬sortedBefore right left ↔ left.start < right.start ∨
      left.start = right.start ∧ left.targetSize ≤ right.targetSize := by
  unfold sortedBefore LayoutRegion.start
  rw [UInt64.toNat_inj]
  by_cases hsame : right.targetAddress = left.targetAddress
  · simp [hsame]
  · have hother : left.targetAddress ≠ right.targetAddress := Ne.symm hsame
    have hne : left.targetAddress.toNat ≠ right.targetAddress.toNat :=
      fun heq => hother (UInt64.toNat_inj.mp heq)
    rw [if_pos hsame, UInt64.not_lt, UInt64.le_iff_toNat_le]
    simp only [hother, false_and, or_false]
    omega

theorem sortRegions_sorted (regions : List LayoutRegion) :
    (sortRegions regions).Pairwise fun left right => left.start ≤ right.start := by
  have htotal : Std.Total fun left right => ¬sortedBefore right left := by
    constructor
    intro left right
    rw [not_sortedBefore_iff, not_sortedBefore_iff]
    have hsize := le_total left.targetSize right.targetSize
    grind
  have htrans : IsTrans LayoutRegion fun left right => ¬sortedBefore right left := by
    constructor
    intro first second third
    rw [not_sortedBefore_iff, not_sortedBefore_iff, not_sortedBefore_iff]
    simp only [UInt64.le_iff_toNat_le]
    omega
  apply (List.pairwise_insertionSort
    (fun left right => ¬sortedBefore right left) regions).imp
  intro left right hbefore
  rcases not_sortedBefore_iff.mp hbefore with hlt | ⟨hsame, -⟩
  · exact Nat.le_of_lt hlt
  · exact Nat.le_of_eq hsame

theorem sortRegions_nonempty :
    RangeOrder.Nonempty LayoutRegion.start LayoutRegion.stop
      (sortRegions (plannedRegions limits segments requestedBase)) :=
  plannedRegions_nonempty.perm (sortRegions_perm _).symm

/-- The sort finds the order without overlaps, if there is one. -/
theorem sortRegions_apart
    (hapart : (plannedRegions limits segments requestedBase).Pairwise
      fun left right => ¬Overlap LayoutRegion.start LayoutRegion.stop left right) :
    (sortRegions (plannedRegions limits segments requestedBase)).Pairwise Apart := by
  apply pairwise_before_of_sorted sortRegions_nonempty (sortRegions_sorted _)
  exact (pairwise_not_overlap_perm (sortRegions_perm _)).mpr hapart

/-- Two segment lists that are permutations of each other are placed alike. -/
theorem placeRegions_perm (hperm : segments.Perm others)
    (hrun : placeRegions limits segments requestedBase = .ok regions) :
    placeRegions limits others requestedBase = .ok regions := by
  obtain ⟨hall, hregions, hoverlaps⟩ := placeRegions_eq_ok.mp hrun
  have hbefore : (sortRegions (plannedRegions limits segments
      requestedBase)).Pairwise (Before LayoutRegion.start LayoutRegion.stop) :=
    hregions ▸ checkOverlaps_ok hoverlaps
  have hplanned : (plannedRegions limits segments requestedBase).Perm
      (plannedRegions limits others requestedBase) := plannedRegions_perm hperm
  have hothers : (sortRegions (plannedRegions limits others
      requestedBase)).Pairwise (Before LayoutRegion.start LayoutRegion.stop) := by
    apply sortRegions_apart
    apply (pairwise_not_overlap_perm hplanned).mp
    apply (pairwise_not_overlap_perm (sortRegions_perm _)).mp
    exact hbefore.imp Before.not_overlap
  have hsame := eq_of_perm sortRegions_nonempty hbefore hothers
    ((sortRegions_perm _).trans (hplanned.trans (sortRegions_perm _).symm))
  refine placeRegions_eq_ok.mpr ⟨?_, hregions.trans hsame, hoverlaps⟩
  rw [← originalBase_perm hperm]
  intro segment hsegment hnonempty
  exact hall segment (hperm.mem_iff.mpr hsegment) hnonempty

/-! ## Refusals for an overlap -/

/-- A failure for another reason than an overlap. -/
def NoOverlap (why : Failure) : Prop := (why.errorAfter {}).code ≠ .mappingOverlap

theorem noOverlap_failure {code : ErrorCode} {offset : UInt64} {message : Bytes}
    (hcode : code ≠ .mappingOverlap) :
    NoOverlap (failure code offset message) :=
  hcode

theorem checkOverlaps_noOverlap (hapart : regions.Pairwise Apart) :
    Reported NoOverlap (checkOverlaps regions) := by
  induction regions with
  | nil => exact Reported.ok ()
  | cons previous rest ih =>
      obtain ⟨hprevious, hrest⟩ := List.pairwise_cons.mp hapart
      cases rest with
      | nil => exact Reported.ok ()
      | cons current rest =>
          rw [checkOverlaps]
          apply Reported.except_demand_bind (noOverlap_failure (by decide))
          intro stop hstop
          have hbefore := hprevious current List.mem_cons_self
          have hfits : ¬stop > current.targetAddress := by
            rw [gt_iff_lt, UInt64.not_lt, UInt64.le_iff_toNat_le,
              checkedAdd_toNat hstop]
            exact hbefore
          exact Reported.except_guard (fun hover => absurd hover hfits)
            fun _ => ih hrest

theorem planSegment_noOverlap :
    Reported NoOverlap (planSegment limits lowest base segment) := by
  unfold planSegment
  apply (Reported.except_demand (noOverlap_failure (by decide))).except_bind
  intro address _
  apply (Reported.except_rejectIf (noOverlap_failure (by decide))).except_bind
  intro _ _
  apply (Reported.except_demand (noOverlap_failure (by decide))).except_bind
  intro _ _
  exact Reported.ok _

theorem planSegments_noOverlap :
    Reported NoOverlap (planSegments limits lowest base segments) := by
  apply Reported.foldlM_except
  intro regions segment
  split
  · exact Reported.ok regions
  · apply planSegment_noOverlap.except_bind
    intro region _
    exact Reported.ok (regions ++ [region])

theorem finishPlan_noOverlap : Reported NoOverlap (finishPlan limits regions) := by
  have hend : Reported NoOverlap (imageEnd regions) := by
    unfold imageEnd
    split
    · exact Reported.ok 0
    · exact Reported.except_demand (noOverlap_failure (by decide))
  have haccount : ∀ start, Reported NoOverlap
      (regions.foldlM accountRegion start) := by
    intro start
    apply Reported.foldlM_except
    intro plan region
    unfold accountRegion
    apply (Reported.except_demand (noOverlap_failure (by decide))).except_bind
    intro _ _
    apply (Reported.except_demand (noOverlap_failure (by decide))).except_bind
    intro _ _
    exact Reported.ok _
  unfold finishPlan
  apply hend.except_bind
  intro finish _
  apply (haccount _).except_bind
  intro plan _
  apply (Reported.except_rejectIf (noOverlap_failure (by decide))).except_bind
  intro _ _
  exact Reported.ok plan

/-- Two segments that occupy memory, at two places of the image, share an
address. -/
def SegmentsOverlap (image : BinaryImage) : Prop :=
  ∃ first second, [first, second].Sublist image.nonemptySegments ∧
    Overlap Segment.start Segment.stop first second

/-- Regions that share an address belong to segments that do. -/
theorem overlap_of_regionFor {first second : Segment}
    (hplannable : Plannable limits (originalBase segments) base segments)
    (hfirst : first ∈ segments.filter fun segment => segment.memorySize ≠ 0)
    (hsecond : second ∈ segments.filter fun segment => segment.memorySize ≠ 0)
    (hoverlap : Overlap LayoutRegion.start LayoutRegion.stop
      (regionFor limits (originalBase segments) base first)
      (regionFor limits (originalBase segments) base second)) :
    Overlap Segment.start Segment.stop first second := by
  have hmoved : ∀ segment ∈ segments.filter (fun segment => segment.memorySize ≠ 0),
      (regionFor limits (originalBase segments) base segment).start +
          (originalBase segments).toNat = base.toNat + segment.start := by
    intro segment hsegment
    obtain ⟨hmem, hnonempty⟩ := mem_filter_nonempty.mp hsegment
    exact (planSegment_ok (hplannable segment hmem hnonempty)).target_eq hmem
  have hleft := hmoved first hfirst
  have hright := hmoved second hsecond
  obtain ⟨point, ⟨hleftStart, hleftStop⟩, hrightStart, hrightStop⟩ := hoverlap
  refine ⟨point + (originalBase segments).toNat - base.toNat, ?_⟩
  unfold LayoutRegion.start LayoutRegion.stop Segment.start Segment.stop regionFor at *
  dsimp only at *
  omega

theorem placeRegions_noOverlap (hapart : ¬SegmentsOverlap image) :
    Reported NoOverlap (placeRegions limits image.segments requestedBase) := by
  unfold placeRegions
  apply planSegments_noOverlap.except_bind
  intro regions hplanned
  obtain ⟨hplannable, rfl⟩ := planSegments_eq_ok.mp hplanned
  have hregions : (plannedRegions limits image.segments requestedBase).Pairwise
      fun left right =>
        ¬Overlap LayoutRegion.start LayoutRegion.stop left right := by
    rw [plannedRegions, List.pairwise_map]
    apply List.pairwise_of_forall_sublist
    intro first second hsublist hoverlap
    have hmem := hsublist.subset
    exact hapart ⟨first, second, hsublist, overlap_of_regionFor hplannable
      (hmem (by simp)) (hmem (by simp)) hoverlap⟩
  apply (checkOverlaps_noOverlap (sortRegions_apart hregions)).except_bind
  intro _ _
  exact Reported.ok _

/-- A valid image is refused for an overlap only if it has one. -/
theorem plan_overlap (hvalid : (BinaryValidator.validate limits image).valid = true)
    (hrun : plan limits image requestedBase false = .error why)
    (hcode : (why.errorAfter {}).code = .mappingOverlap) :
    SegmentsOverlap image := by
  by_contra hapart
  have hreported : Reported NoOverlap (plan limits image requestedBase false) := by
    unfold plan
    refine Reported.except_guard (fun hinvalid => ?_) fun _ => ?_
    · rw [hvalid] at hinvalid
      contradiction
    split
    · exact Reported.ok _
    · apply (placeRegions_noOverlap hapart).except_bind
      intro regions _
      rw [if_neg (by simp)]
      exact finishPlan_noOverlap
  exact hreported why hrun hcode

/-! ## Exact plans -/

/-- What the plan of a valid image with a nonempty segment says. -/
structure Exact (limits : Limits) (image : BinaryImage) (requestedBase : UInt64)
    (planned : LayoutPlan) : Prop where
  /-- The base regions are placed against is the lowest segment address. -/
  lowest : IsLeast
    {address | ∃ segment ∈ image.segments, segment.virtualAddress = address}
    (originalBase image.segments)
  regions : planned.regions.Perm (image.nonemptySegments.map
    (regionFor limits (originalBase image.segments)
      (loadBase requestedBase (originalBase image.segments))))
  /-- No target address and no range end has wrapped. -/
  target : ∀ segment ∈ image.nonemptySegments,
    (regionFor limits (originalBase image.segments)
        (loadBase requestedBase (originalBase image.segments)) segment).start =
      (loadBase requestedBase (originalBase image.segments)).toNat +
        (segment.start - (originalBase image.segments).toNat)
  fits : ∀ region ∈ planned.regions, region.stop < 2 ^ 64
  sorted : planned.regions.Pairwise fun left right => left.start < right.start
  apart : planned.regions.Pairwise
    (Before LayoutRegion.start LayoutRegion.stop)
  imageBegin : IsLeast {start | ∃ region ∈ planned.regions, region.start = start}
    planned.imageBegin.toNat
  imageEnd : IsGreatest {stop | ∃ region ∈ planned.regions, region.stop = stop}
    planned.imageEnd.toNat
  mappedBytes : planned.mappedBytes.toNat =
    (image.nonemptySegments.map fun segment => segment.memorySize.toNat).sum
  fileBytes : planned.fileBytes.toNat =
    (image.nonemptySegments.map fun segment => segment.fileSize.toNat).sum

theorem sum_perm_regionFor {size : LayoutRegion → UInt64}
    {sizeOf : Segment → UInt64} {items : List Segment}
    (hperm : regions.Perm (items.map (regionFor limits lowest base)))
    (hsize : ∀ segment, size (regionFor limits lowest base segment) =
      sizeOf segment) :
    (regions.map fun region => (size region).toNat).sum =
      (items.map fun segment => (sizeOf segment).toNat).sum := by
  have hsum := (hperm.map fun region => (size region).toNat).sum_eq
  simpa [Function.comp_def, hsize] using hsum

theorem finishPlan_totals (hrun : finishPlan limits regions = .ok planned) :
    ∃ finish, imageEnd regions = .ok finish ∧
      Accounted { imageBegin := (regions.head?.map LayoutRegion.targetAddress).getD 0
                  imageEnd := finish, regions } regions planned := by
  unfold finishPlan at hrun
  obtain ⟨finish, hfinish, hrun⟩ := except_bind_eq_ok.mp hrun
  obtain ⟨last, haccount, hrun⟩ := except_bind_eq_ok.mp hrun
  obtain ⟨-, hrun⟩ := rejectIf_except_bind_eq_ok.mp hrun
  obtain rfl := Except.ok.inj hrun
  exact ⟨finish, hfinish, accountRegions_ok haccount⟩

theorem plan_exact_of_ok (hnonempty : image.nonemptySegments ≠ [])
    (hrun : plan limits image requestedBase false = .ok planned) :
    Exact limits image requestedBase planned := by
  have hsegments : image.segments ≠ [] := by
    intro hempty
    apply hnonempty
    rw [BinaryImage.nonemptySegments, hempty, List.filter_nil]
  obtain ⟨-, hrun⟩ := plan_eq_ok.mp hrun
  rw [if_neg hsegments] at hrun
  obtain ⟨regions, hplace, _, hsame, hfinish⟩ := hrun
  obtain rfl := Except.ok.inj hsame
  obtain ⟨hplannable, hregions, hoverlaps⟩ := placeRegions_eq_ok.mp hplace
  obtain ⟨finish, hend, htotals⟩ := finishPlan_totals hfinish
  have hkept : planned.regions = regions := htotals.regions
  have hperm : regions.Perm (plannedRegions limits image.segments requestedBase) :=
    hregions ▸ sortRegions_perm _
  have hproper : RangeOrder.Nonempty LayoutRegion.start LayoutRegion.stop regions :=
    plannedRegions_nonempty.perm hperm.symm
  have hbefore : regions.Pairwise (Before LayoutRegion.start LayoutRegion.stop) :=
    checkOverlaps_ok hoverlaps
  have hplanned : ∀ segment ∈ image.nonemptySegments,
      segment ∈ image.segments ∧ PlannedFor (originalBase image.segments)
        (loadBase requestedBase (originalBase image.segments)) segment
        (regionFor limits (originalBase image.segments)
          (loadBase requestedBase (originalBase image.segments)) segment) := by
    intro segment hsegment
    obtain ⟨hmem, hsize⟩ := mem_filter_nonempty.mp hsegment
    exact ⟨hmem, planSegment_ok (hplannable segment hmem hsize)⟩
  have hregionsNonempty : regions ≠ [] := by
    intro hempty
    have hlength := hperm.length_eq
    rw [hempty, plannedRegions, List.length_map] at hlength
    exact hnonempty (List.eq_nil_of_length_eq_zero hlength.symm)
  refine ⟨originalBase_isLeast hsegments, hkept ▸ hperm, ?_, ?_, ?_, ?_, ?_, ?_, ?_, ?_⟩
  · intro segment hsegment
    obtain ⟨hmem, hfor⟩ := hplanned segment hsegment
    have hle := originalBase_le hmem
    rw [Segment.start, ← UInt64.toNat_sub_of_le _ _ hle]
    exact hfor.target
  · intro region hregion
    rw [hkept] at hregion
    obtain ⟨segment, hsegment, rfl⟩ := List.mem_map.mp (hperm.mem_iff.mp hregion)
    exact (hplanned segment hsegment).2.bounded
  · rw [hkept]
    apply hbefore.imp_of_mem
    intro left right hleft _ hapart
    exact Nat.lt_of_lt_of_le (hproper left hleft) hapart
  · rwa [hkept]
  · obtain ⟨first, hfirst⟩ := Option.ne_none_iff_exists'.mp
      (mt List.head?_eq_none_iff.mp hregionsNonempty)
    have hleast := isLeast_start hproper hbefore hfirst
    rw [hkept, htotals.imageBegin, hfirst]
    exact hleast
  · obtain ⟨last, hlast⟩ := Option.ne_none_iff_exists'.mp
      (mt List.getLast?_eq_none_iff.mp hregionsNonempty)
    obtain ⟨hstop, rfl⟩ := (imageEnd_eq_ok hlast).mp hend
    have hgreatest := isGreatest_stop hproper hbefore hlast
    have hsum : (last.targetAddress + last.targetSize).toNat = last.stop :=
      toNat_add_of_fit hstop
    rw [hkept, htotals.imageEnd, hsum]
    exact hgreatest
  · rw [htotals.mappedBytes]
    exact (Nat.zero_add _).trans (sum_perm_regionFor hperm fun _ => rfl)
  · rw [htotals.fileBytes]
    exact (Nat.zero_add _).trans (sum_perm_regionFor hperm fun _ => rfl)

/-- The order in which an image lists its segments does not reach its plan. -/
theorem plan_perm (hperm : image.segments.Perm segments)
    (hrun : plan limits image requestedBase false = .ok planned) :
    plan limits { image with segments } requestedBase false = .ok planned := by
  obtain ⟨haccepted, hrun⟩ := plan_eq_ok.mp hrun
  obtain ⟨data, hdata, hvalid⟩ := BinaryValidator.validate_valid_iff.mp haccepted
  refine plan_eq_ok.mpr ⟨?_, ?_⟩
  · refine BinaryValidator.validate_valid_iff.mpr ⟨data, hdata, { hvalid with
      segmentCount := hperm.length_eq ▸ hvalid.segmentCount
      segments := ?_ }⟩
    intro segment hsegment
    exact hvalid.segments segment (hperm.mem_iff.mpr hsegment)
  · have hempty : image.segments = [] ↔ segments = [] := by
      rw [← List.length_eq_zero_iff, hperm.length_eq, List.length_eq_zero_iff]
    simp only [hempty] at hrun
    split at hrun
    next hnone => rwa [if_pos hnone]
    next hsome =>
      rw [if_neg hsome]
      obtain ⟨regions, hplace, hrest⟩ := hrun
      exact ⟨regions, placeRegions_perm hperm hplace, hrest⟩

/-- For a valid image with a nonempty segment: a plan is exact, a refusal for an
overlap finds one, and the order of the segments makes no difference. -/
theorem plan_exact (hvalid : (BinaryValidator.validate limits image).valid = true)
    (hnonempty : image.nonemptySegments ≠ []) :
    (∀ planned, plan limits image requestedBase false = .ok planned →
        Exact limits image requestedBase planned) ∧
      (∀ why, plan limits image requestedBase false = .error why →
        (why.errorAfter {}).code = .mappingOverlap → SegmentsOverlap image) ∧
      ∀ segments, image.segments.Perm segments → ∀ planned,
        plan limits image requestedBase false = .ok planned ↔
          plan limits { image with segments } requestedBase false =
            .ok planned := by
  refine ⟨fun planned => plan_exact_of_ok hnonempty,
    fun why => plan_overlap hvalid, ?_⟩
  intro segments hperm planned
  exact ⟨plan_perm hperm, plan_perm hperm.symm⟩

theorem plan_exact_reversed :
    ∃ planned, plan {} (adjacentImage 4) 0x5000 false = .ok planned ∧
      Exact {} (adjacentImage 4) 0x5000 planned ∧
      plan {} { adjacentImage 4 with
        segments := (adjacentImage 4).segments.reverse } 0x5000 false =
          .ok planned := by
  obtain ⟨hexact, -, hreversed⟩ := @plan_exact {} 0x5000 (adjacentImage 4)
    (by decide +kernel) (by decide +kernel)
  obtain ⟨planned, hplan, -⟩ := toOption_bind_eq_some.mp
    (by decide +kernel : (plan {} (adjacentImage 4) 0x5000 false).toOption.bind
      (fun _ => some ()) = some ())
  refine ⟨planned, hplan, hexact planned hplan, ?_⟩
  exact (hreversed _ (List.reverse_perm _).symm planned).mp hplan

end LayoutPlanner
end BinForge
