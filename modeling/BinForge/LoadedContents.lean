import BinForge.Loader
import BinForge.MemoryContents

/-!
# What loading maps

Loading a segment of a valid image either fails without a trace or adds one
region: the segment's pages, holding zeros around the segment's file bytes.
The segment loop therefore adds exactly the regions of the segments it has
passed.
-/

namespace BinForge

open StatefulExcept
open ListSplice
open AddressSpace
open Alignment

namespace BinaryLoader

variable {limits : Limits} {image : BinaryImage} {options : LoadOptions}
  {bias : UInt64} {data : Bytes} {memory next : AddressSpace} {why : Failure}

/-! ## The pages of a segment -/

theorem alignedBase_toNat {k : ℕ} (hpage : limits.pageSize.toNat = 2 ^ k)
    (address : UInt64) :
    (alignedBase limits address).toNat =
      roundDown address.toNat limits.pageSize.toNat := by
  have hpositive := Nat.two_pow_pos k
  have hlt := limits.pageSize.toNat_lt
  have hk : k < 32 := by
    rw [hpage] at hlt
    exact (Nat.pow_lt_pow_iff_right (by decide)).mp hlt
  have hone : (1 : UInt32) ≤ limits.pageSize := by
    rw [UInt32.le_iff_toNat_le, UInt32.toNat_one]
    omega
  have hmask : (limits.pageSize - 1).toUInt64.toNat = 2 ^ k - 1 := by
    rw [UInt32.toNat_toUInt64, UInt32.toNat_sub_of_le _ _ hone,
      UInt32.toNat_one, hpage]
  rw [alignedBase, toNat_and_not_mask (by omega) hmask, hpage]

/-- Where a segment lands: its load address and the pages around it. -/
structure Placement (limits : Limits) (bias : UInt64) (segment : Segment)
    (address base size : UInt64) : Prop where
  power : ∃ k, limits.pageSize.toNat = 2 ^ k
  shifted : address.toNat = segment.virtualAddress.toNat + bias.toNat
  rounded : base.toNat = roundDown address.toNat limits.pageSize.toNat
  padded : size.toNat = roundUp
    (address.toNat - base.toNat + segment.memorySize.toNat)
    limits.pageSize.toNat

theorem segmentPages_ok {segment : Segment} {address base size : UInt64}
    (hrun : segmentPages limits bias segment = .ok (address, base, size)) :
    Placement limits bias segment address base size := by
  unfold segmentPages at hrun
  simp only [demand_except_bind_eq_ok] at hrun
  obtain ⟨_, haddress, total, htotal, _, haligned, hrun⟩ := hrun
  injection hrun with hrun
  obtain ⟨rfl, rfl, rfl⟩ := hrun
  obtain ⟨⟨k, hk⟩, _, hsize⟩ := checkedAlignUp_eq_some.mp haligned
  rw [UInt32.toNat_toUInt64] at hk hsize
  have hbase := alignedBase_toNat hk address
  have hle : alignedBase limits address ≤ address := by
    rw [UInt64.le_iff_toNat_le, hbase]
    exact roundDown_le _ _
  refine ⟨⟨k, hk⟩, checkedAdd_toNat haddress, hbase, ?_⟩
  rw [hsize, checkedAdd_toNat htotal, UInt64.toNat_sub_of_le _ _ hle]

namespace Placement

variable {segment : Segment} {address base size : UInt64}

theorem page_pos (hplace : Placement limits bias segment address base size) :
    0 < limits.pageSize.toNat := by
  obtain ⟨k, hk⟩ := hplace.power
  rw [hk]
  exact Nat.two_pow_pos k

theorem base_le (hplace : Placement limits bias segment address base size) :
    base.toNat ≤ address.toNat := by
  rw [hplace.rounded]
  exact roundDown_le _ _

theorem end_le (hplace : Placement limits bias segment address base size) :
    address.toNat + segment.memorySize.toNat ≤ base.toNat + size.toNat := by
  have hbase := hplace.base_le
  have hround := le_roundUp
    (n := address.toNat - base.toNat + segment.memorySize.toNat)
    hplace.page_pos
  rw [← hplace.padded] at hround
  omega

theorem stop_eq (hplace : Placement limits bias segment address base size) :
    base.toNat + size.toNat =
      roundUp (address.toNat + segment.memorySize.toNat)
        limits.pageSize.toNat := by
  have hbase := hplace.base_le
  have hdvd : limits.pageSize.toNat ∣ base.toNat := by
    rw [hplace.rounded]
    exact dvd_roundDown _ _
  rw [hplace.padded, ← roundUp_add_of_dvd hplace.page_pos hdvd]
  congr 1
  omega

end Placement

/-! ## The region of a segment -/

def loadedRegion (options : LoadOptions) (data : Bytes) (segment : Segment)
    (address base size : UInt64) : MemoryRegion :=
  copyInto address (slice data segment.fileOffset.toNat segment.fileSize.toNat)
    (freshRegion base size (initialPermissions options segment)
      (segmentName segment))

/-- The region of a segment, if it occupies memory. -/
def segmentRegion (limits : Limits) (options : LoadOptions) (data : Bytes)
    (bias : UInt64) (segment : Segment) : Option MemoryRegion :=
  if segment.memorySize = 0 then none
  else
    match segmentPages limits bias segment with
    | .error _ => none
    | .ok (address, base, size) =>
        some (loadedRegion options data segment address base size)

def segmentRegions (limits : Limits) (options : LoadOptions) (data : Bytes)
    (bias : UInt64) (segments : List Segment) : List MemoryRegion :=
  segments.filterMap (segmentRegion limits options data bias)

theorem slice_segment_length {segment : Segment}
    (hsegment : BinaryValidator.SegmentValid data segment) :
    (slice data segment.fileOffset.toNat segment.fileSize.toNat).length =
      segment.fileSize.toNat :=
  slice_length hsegment.range

theorem loadSegment_after_map (hmemory : memory.WellFormed)
    (hdata : image.fileData = some data) {segment : Segment}
    (hsegment : BinaryValidator.SegmentValid data segment)
    {address base size : UInt64}
    (hpages : segmentPages limits bias segment = .ok (address, base, size))
    {mapped : AddressSpace} {value : Unit}
    (hmap : map base size (initialPermissions options segment)
      (segmentName segment) memory = .ok value mapped) :
    loadSegment limits image options bias segment memory =
      .ok size (memory.withRegion
        (loadedRegion options data segment address base size)) := by
  have hplace := segmentPages_ok hpages
  have hlength := slice_segment_length hsegment
  unfold loadSegment
  rw [liftExcept_bind_of_ok hpages]
  dsimp only
  rw [bind_of_ok hmap]
  by_cases hsize : segment.fileSize = 0
  · rw [if_neg (not_not.mpr hsize), pure_apply]
    have hempty : slice data segment.fileOffset.toNat segment.fileSize.toNat =
        [] := by
      rw [hsize, UInt64.toNat_zero] at hlength ⊢
      exact List.eq_nil_of_length_eq_zero hlength
    obtain ⟨_, _, _, _, _, _, rfl⟩ := map_eq_ok.mp hmap
    rw [loadedRegion, hempty, copyInto, splice_nil]
  · have hfits := UInt64.le_iff_toNat_le.mp hsegment.size
    have hend := hplace.end_le
    have hwrite := write_fresh hmemory
      (slice data segment.fileOffset.toNat segment.fileSize.toNat) hmap
      hplace.base_le (by rw [hlength]; omega)
    rw [if_pos hsize, hdata]
    show (rejectIf _ _ >>= _ : MemoryCall UInt64) mapped = _
    rw [rejectIf_bind_of_not (by simpa using hsegment.range),
      bind_of_ok hwrite, pure_apply, loadedRegion]

theorem loadSegment_ok (hmemory : memory.WellFormed)
    (hdata : image.fileData = some data) {segment : Segment}
    (hsegment : BinaryValidator.SegmentValid data segment) {size : UInt64}
    (hrun : loadSegment limits image options bias segment memory =
      .ok size next) :
    ∃ address base mapped,
      segmentPages limits bias segment = .ok (address, base, size) ∧
        map base size (initialPermissions options segment)
          (segmentName segment) memory = .ok () mapped ∧
        next = memory.withRegion
          (loadedRegion options data segment address base size) := by
  have hcopy := hrun
  unfold loadSegment at hrun
  obtain ⟨⟨address, base, pages⟩, hpages, hrun⟩ := liftExcept_bind_eq_ok.mp hrun
  obtain ⟨_, mapped, hmap, _⟩ := bind_eq_ok.mp hrun
  rw [loadSegment_after_map hmemory hdata hsegment hpages hmap,
    EStateM.Result.ok.injEq] at hcopy
  obtain ⟨rfl, rfl⟩ := hcopy
  exact ⟨address, base, mapped, hpages, hmap, rfl⟩

theorem loadSegment_error (hmemory : memory.WellFormed)
    (hdata : image.fileData = some data) {segment : Segment}
    (hsegment : BinaryValidator.SegmentValid data segment)
    (hrun : loadSegment limits image options bias segment memory =
      .error why next) : next = memory := by
  have hcopy := hrun
  unfold loadSegment at hrun
  cases hpages : segmentPages limits bias segment with
  | error failure =>
      rw [liftExcept_bind_of_error hpages] at hrun
      injection hrun with _ hstate
      exact hstate.symm
  | ok pages =>
      obtain ⟨address, base, size⟩ := pages
      rw [liftExcept_bind_of_ok hpages] at hrun
      rcases bind_eq_error.mp hrun with hfail | ⟨_, mapped, hmap, _⟩
      · exact map_atomic _ _ _ _ memory why next hfail
      · rw [loadSegment_after_map hmemory hdata hsegment hpages hmap] at hcopy
        contradiction

/-! ## The segment loop -/

/-- The second address space is the first with more regions. -/
structure Extends (memory next : AddressSpace) (regions : List MemoryRegion) :
    Prop where
  wellFormed : next.WellFormed
  limits : next.limits = memory.limits
  entries : next.regions.entries.Perm
    (memory.regions.entries ++ regions.map fun region => (region.base, region))

theorem Extends.refl (hmemory : memory.WellFormed) : Extends memory memory [] :=
  ⟨hmemory, rfl, by simp⟩

theorem Extends.trans {first second third : AddressSpace}
    {front back : List MemoryRegion} (hleft : Extends first second front)
    (hright : Extends second third back) : Extends first third (front ++ back) := by
  refine ⟨hright.wellFormed, hright.limits.trans hleft.limits, ?_⟩
  refine hright.entries.trans ((hleft.entries.append_right _).trans ?_)
  rw [List.map_append, List.append_assoc]

theorem Extends.kept {regions : List MemoryRegion}
    (hextends : Extends memory next regions) {entry : UInt64 × MemoryRegion}
    (hentry : entry ∈ memory.regions.entries) : entry ∈ next.regions.entries :=
  hextends.entries.mem_iff.mpr (List.mem_append_left _ hentry)

theorem Extends.added {regions : List MemoryRegion}
    (hextends : Extends memory next regions) {region : MemoryRegion}
    (hregion : region ∈ regions) :
    (region.base, region) ∈ next.regions.entries :=
  hextends.entries.mem_iff.mpr (List.mem_append_right _
    (List.mem_map.mpr ⟨region, hregion, rfl⟩))

theorem Extends.mappedBytes_le (hmemory : memory.WellFormed)
    {regions : List MemoryRegion} (hextends : Extends memory next regions) :
    memory.mappedBytes ≤ next.mappedBytes := by
  have hsum := (hextends.entries.map fun entry => entry.2.size.toNat).sum_eq
  rw [← hextends.wellFormed.counted, List.map_append, List.sum_append,
    ← hmemory.counted] at hsum
  rw [UInt64.le_iff_toNat_le]
  omega

theorem withRegion_extends {region : MemoryRegion}
    (hnext : (memory.withRegion region).WellFormed)
    (habsent : ∀ entry ∈ memory.regions.entries, entry.1 ≠ region.base) :
    Extends memory (memory.withRegion region) [region] :=
  ⟨hnext, rfl, (OrderedMap.emplace_perm region habsent).trans
    (List.perm_append_singleton _ _).symm⟩

theorem segmentRegions_append (front back : List Segment) :
    segmentRegions limits options data bias (front ++ back) =
      segmentRegions limits options data bias front ++
        segmentRegions limits options data bias back :=
  List.filterMap_append

theorem segmentRegions_of_empty {segment : Segment}
    (hempty : segment.memorySize = 0) :
    segmentRegions limits options data bias [segment] = [] := by
  have hregion : segmentRegion limits options data bias segment = none := by
    rw [segmentRegion, if_pos hempty]
  rw [segmentRegions, List.filterMap_cons_none hregion, List.filterMap_nil]

theorem segmentRegions_of_pages {segment : Segment}
    (hnonempty : segment.memorySize ≠ 0) {address base size : UInt64}
    (hpages : segmentPages limits bias segment = .ok (address, base, size)) :
    segmentRegions limits options data bias [segment] =
      [loadedRegion options data segment address base size] := by
  have hregion : segmentRegion limits options data bias segment =
      some (loadedRegion options data segment address base size) := by
    rw [segmentRegion, if_neg hnonempty, hpages]
  rw [segmentRegions, List.filterMap_cons_some hregion, List.filterMap_nil]

theorem loadSegment_ok_extends (hmemory : memory.WellFormed)
    (hdata : image.fileData = some data) {segment : Segment}
    (hsegment : BinaryValidator.SegmentValid data segment)
    (hnonempty : segment.memorySize ≠ 0) {size : UInt64}
    (hrun : loadSegment limits image options bias segment memory =
      .ok size next) :
    (∃ address base,
        segmentPages limits bias segment = .ok (address, base, size)) ∧
      next.mappedBytes = memory.mappedBytes + size ∧
      Extends memory next
        (segmentRegions limits options data bias [segment]) := by
  obtain ⟨address, base, mapped, hpages, hmap, rfl⟩ :=
    loadSegment_ok hmemory hdata hsegment hrun
  have hplace := segmentPages_ok hpages
  have hlength := slice_segment_length hsegment
  have hfits := UInt64.le_iff_toNat_le.mp hsegment.size
  have hend := hplace.end_le
  have hwrite := write_fresh hmemory
    (slice data segment.fileOffset.toNat segment.fileSize.toNat) hmap
    hplace.base_le (by rw [hlength]; omega)
  have hnext := write_ok_wellFormed (map_ok_wellFormed hmemory hmap) hwrite
  obtain ⟨hsize, hbounded, _, _, habove, hbelow, _⟩ := map_eq_ok.mp hmap
  have habsent : ∀ entry ∈ memory.regions.entries, entry.1 ≠ base :=
    hmemory.absent_of_disjoint
      (freshRegion base size (initialPermissions options segment)
        (segmentName segment)) (size_pos_of_ne_zero hsize)
      ((hmemory.overlaps_iff hsize hbounded).mp ⟨habove, hbelow⟩)
  rw [segmentRegions_of_pages hnonempty hpages]
  exact ⟨⟨address, base, hpages⟩, rfl, withRegion_extends hnext habsent⟩

theorem loadSegments_ok (hmemory : memory.WellFormed)
    (hdata : image.fileData = some data) {segments : List Segment}
    (hsegments : ∀ segment ∈ segments,
      BinaryValidator.SegmentValid data segment) {mapped : UInt64}
    (hrun : loadSegments limits image options bias segments memory =
      .ok mapped next) :
    Extends memory next (segmentRegions limits options data bias segments) ∧
      mapped + memory.mappedBytes = next.mappedBytes ∧
      ∀ segment ∈ segments, segment.memorySize ≠ 0 →
        ∃ address base size,
          segmentPages limits bias segment = .ok (address, base, size) := by
  refine foldlM_ok_induction (fun done total state =>
    Extends memory state (segmentRegions limits options data bias done) ∧
      total + memory.mappedBytes = state.mappedBytes ∧
      ∀ segment ∈ done, segment.memorySize ≠ 0 →
        ∃ address base size,
          segmentPages limits bias segment = .ok (address, base, size))
    hrun ⟨Extends.refl hmemory, zero_add _, by simp⟩ ?_
  rintro done segment rest total state grown after rfl
    ⟨hextends, htotal, hpages⟩ hstep
  have hsegment := hsegments segment (by simp)
  rw [segmentRegions_append]
  unfold segmentStep at hstep
  by_cases hempty : segment.memorySize = 0
  · rw [if_pos hempty, pure_eq_ok] at hstep
    obtain ⟨rfl, rfl⟩ := hstep
    rw [segmentRegions_of_empty hempty, List.append_nil]
    refine ⟨hextends, htotal, fun other hother hnonempty => ?_⟩
    rcases List.mem_append.mp hother with hother | hother
    · exact hpages other hother hnonempty
    · rw [List.mem_singleton.mp hother] at hnonempty
      exact absurd hempty hnonempty
  · rw [if_neg hempty] at hstep
    obtain ⟨size, middle, hload, hreturn⟩ := bind_eq_ok.mp hstep
    rw [pure_eq_ok] at hreturn
    obtain ⟨rfl, rfl⟩ := hreturn
    obtain ⟨⟨address, base, hpage⟩, hgrowth, hadded⟩ :=
      loadSegment_ok_extends hextends.wellFormed hdata hsegment hempty hload
    refine ⟨hextends.trans hadded, ?_, fun other hother hnonempty => ?_⟩
    · rw [hgrowth, ← htotal, add_right_comm]
    · rcases List.mem_append.mp hother with hother | hother
      · exact hpages other hother hnonempty
      · rw [List.mem_singleton.mp hother]
        exact ⟨address, base, size, hpage⟩

/-! ## The bytes of a loaded region -/

/-- File bytes at the load address, zeros in the rest of the pages. -/
theorem contents_of_loaded (hnext : next.WellFormed) {segment : Segment}
    (hsegment : BinaryValidator.SegmentValid data segment)
    {address base size : UInt64}
    (hplace : Placement limits bias segment address base size)
    (hentry : (base, loadedRegion options data segment address base size) ∈
      next.regions.entries) {target : ℕ} (hlow : base.toNat ≤ target)
    (hhigh : target < base.toNat + size.toNat) :
    next.contents target =
      if address.toNat ≤ target ∧
          target < address.toNat + segment.fileSize.toNat then
        data[segment.fileOffset.toNat + (target - address.toNat)]?
      else some 0 := by
  have hbase := hplace.base_le
  have hend := hplace.end_le
  have hfits := UInt64.le_iff_toNat_le.mp hsegment.size
  have hlength := slice_segment_length hsegment
  have hoffset : (address - base).toNat = address.toNat - base.toNat :=
    UInt64.toNat_sub_of_le _ _ (UInt64.le_iff_toNat_le.mpr hbase)
  have hroom : (address - base).toNat +
      (slice data segment.fileOffset.toNat segment.fileSize.toNat).length ≤
        (List.replicate size.toNat (0 : UInt8)).length := by
    rw [hoffset, hlength, List.length_replicate]
    omega
  rw [hnext.contents_of_covers hentry ⟨hlow, hhigh⟩]
  show (splice (List.replicate size.toNat 0) (address - base).toNat
    (slice data segment.fileOffset.toNat segment.fileSize.toNat))[
      target - base.toNat]? = _
  rw [splice_getElem? hroom, hoffset, hlength, slice_getElem?]
  by_cases hinside : address.toNat ≤ target ∧
      target < address.toNat + segment.fileSize.toNat
  · rw [if_pos hinside, if_pos (by omega), if_pos (by omega)]
    congr 2
    omega
  · rw [if_neg hinside, if_neg (by omega), List.getElem?_replicate,
      if_pos (by omega)]

/-! ## The entry point -/

/-- An entry point at or behind a nonzero origin is moved by the bias. -/
theorem entryPoint_moved {bias found : UInt64}
    (horigin : originalBase image ≠ 0)
    (hlow : originalBase image ≤ image.header.entryPoint)
    (hentry : entryPoint image bias = .ok found) :
    found.toNat = image.header.entryPoint.toNat + bias.toNat := by
  have hnonzero : image.header.entryPoint ≠ 0 := by
    intro hzero
    rw [hzero, UInt64.le_zero_iff] at hlow
    exact horigin hlow
  rw [entryPoint, if_pos ⟨hnonzero, horigin, hlow⟩] at hentry
  exact checkedAdd_toNat (demand_except_eq_ok.mp hentry)

/-- Any other entry point stays where it is. -/
theorem entryPoint_kept {bias found : UInt64}
    (hguard : ¬(originalBase image ≠ 0 ∧
      originalBase image ≤ image.header.entryPoint))
    (hentry : entryPoint image bias = .ok found) :
    found = image.header.entryPoint := by
  rw [entryPoint, if_neg fun h => hguard h.2] at hentry
  exact (Except.ok.inj hentry).symm

/-! ## The whole call -/

/-- The stages a successful call has completed. -/
theorem load_eq_ok {resolver : Option SymbolResolver} {result : LoadResult}
    (hrun : load limits image options resolver memory = .ok result next) :
    (BinaryValidator.validate limits image).valid = true ∧
      ∃ middle second, loadSegments limits image options
          (loadBias image options) image.segments memory =
            .ok result.mappedBytes middle ∧
        relocateStage limits image options resolver middle =
          .ok result.relocationsApplied second ∧
        importStage image options resolver second =
          .ok result.importsResolved next ∧
        entryPoint image (loadBias image options) = .ok result.entryPoint := by
  unfold load at hrun
  obtain ⟨hvalid, hrun⟩ := rejectIf_bind_eq_ok.mp hrun
  obtain ⟨mapped, middle, hsegments, hrun⟩ := bind_eq_ok.mp hrun
  obtain ⟨relocated, second, hrelocate, hrun⟩ := bind_eq_ok.mp hrun
  obtain ⟨bound, third, hbind, hrun⟩ := bind_eq_ok.mp hrun
  obtain ⟨entry, hentry, hrun⟩ := liftExcept_bind_eq_ok.mp hrun
  rw [pure_eq_ok] at hrun
  obtain ⟨rfl, rfl⟩ := hrun
  exact ⟨Bool.not_eq_false _ ▸ hvalid, middle, second, hsegments, hrelocate,
    hbind, hentry⟩

theorem load_ok {resolver : Option SymbolResolver} {result : LoadResult}
    (hrun : load limits image options resolver memory = .ok result next) :
    ∃ data, image.fileData = some data ∧
      BinaryValidator.Valid limits image data ∧
      ∃ middle, loadSegments limits image options (loadBias image options)
          image.segments memory = .ok result.mappedBytes middle ∧
        (options.applyRelocations = false → options.resolveImports = false →
          next = middle) := by
  obtain ⟨hvalid, middle, second, hsegments, hrelocate, hbind, _⟩ :=
    load_eq_ok hrun
  obtain ⟨data, hdata, hvalid⟩ := BinaryValidator.validate_valid_iff.mp hvalid
  refine ⟨data, hdata, hvalid, middle, hsegments, fun hoff hnone => ?_⟩
  rw [relocateStage, hoff, if_neg Bool.false_ne_true, pure_eq_ok] at hrelocate
  rw [importStage, hnone, if_neg Bool.false_ne_true, pure_eq_ok] at hbind
  rw [← hbind.2, ← hrelocate.2]

/-- A segment's pages are one region, with the file bytes at the load address
and zeros everywhere else. -/
structure SegmentLoaded (limits : Limits) (bias : UInt64) (data : Bytes)
    (segment : Segment) (memory : AddressSpace) : Prop where
  inFile : segment.fileOffset.toNat + segment.fileSize.toNat ≤ data.length
  bytes : ∀ i < segment.memorySize.toNat,
    memory.contents (segment.virtualAddress.toNat + bias.toNat + i) =
      if i < segment.fileSize.toNat then data[segment.fileOffset.toNat + i]?
      else some 0
  padding : ∀ target,
    roundDown (segment.virtualAddress.toNat + bias.toNat)
      limits.pageSize.toNat ≤ target →
    target < roundUp (segment.virtualAddress.toNat + bias.toNat +
      segment.memorySize.toNat) limits.pageSize.toNat →
    target < segment.virtualAddress.toNat + bias.toNat ∨
      segment.virtualAddress.toNat + bias.toNat + segment.memorySize.toNat ≤
        target →
    memory.contents target = some 0
  region : ∃ entry ∈ memory.regions.entries,
    entry.2.base.toNat = roundDown (segment.virtualAddress.toNat + bias.toNat)
      limits.pageSize.toNat ∧
    entry.2.stop = roundUp (segment.virtualAddress.toNat + bias.toNat +
      segment.memorySize.toNat) limits.pageSize.toNat

theorem segmentLoaded_of_entry (hnext : next.WellFormed) {segment : Segment}
    (hsegment : BinaryValidator.SegmentValid data segment)
    {address base size : UInt64}
    (hplace : Placement limits bias segment address base size)
    (hentry : (base, loadedRegion options data segment address base size) ∈
      next.regions.entries) :
    SegmentLoaded limits bias data segment next := by
  have hbase := hplace.base_le
  have hend := hplace.end_le
  have hstop := hplace.stop_eq
  have hfits := UInt64.le_iff_toNat_le.mp hsegment.size
  refine ⟨hsegment.range, ?_, ?_, (base, _), hentry, ?_, ?_⟩
  · intro i hi
    rw [← hplace.shifted,
      contents_of_loaded hnext hsegment hplace hentry (by omega) (by omega),
      Nat.add_sub_cancel_left]
    by_cases hfile : i < segment.fileSize.toNat
    · rw [if_pos hfile, if_pos (by omega)]
    · rw [if_neg hfile, if_neg (by omega)]
  · rw [← hplace.shifted, ← hplace.rounded, ← hstop]
    intro target hlow hhigh houtside
    rw [contents_of_loaded hnext hsegment hplace hentry hlow hhigh,
      if_neg (by omega)]
  · rw [← hplace.shifted]
    exact hplace.rounded
  · rw [← hplace.shifted]
    exact hstop

theorem segmentLoaded_of_loadSegments (hmemory : memory.WellFormed)
    (hdata : image.fileData = some data) {segments : List Segment}
    (hsegments : ∀ segment ∈ segments,
      BinaryValidator.SegmentValid data segment) {mapped : UInt64}
    (hrun : loadSegments limits image options bias segments memory =
      .ok mapped next) {segment : Segment} (hsegment : segment ∈ segments)
    (hnonempty : segment.memorySize ≠ 0) :
    SegmentLoaded limits bias data segment next := by
  obtain ⟨hextends, _, hpages⟩ :=
    loadSegments_ok hmemory hdata hsegments hrun
  obtain ⟨address, base, size, hpage⟩ := hpages segment hsegment hnonempty
  have hregion : loadedRegion options data segment address base size ∈
      segmentRegions limits options data bias segments := by
    refine List.mem_filterMap.mpr ⟨segment, hsegment, ?_⟩
    rw [segmentRegion, if_neg hnonempty, hpage]
  exact segmentLoaded_of_entry hextends.wellFormed (hsegments segment hsegment)
    (segmentPages_ok hpage) (hextends.added hregion)

/-- Loading without relocations and imports leaves every segment's file bytes
at its load address and zeros in the rest of its pages, keeps every old region
and reports the growth of the total. -/
theorem load_contents {resolver : Option SymbolResolver} {result : LoadResult}
    (hreachable : memory.Reachable) (hrelocate : options.applyRelocations = false)
    (hresolve : options.resolveImports = false)
    (hrun : load limits image options resolver memory = .ok result next) :
    ∃ data, image.fileData = some data ∧
      (∀ segment ∈ image.segments, segment.memorySize ≠ 0 →
        SegmentLoaded limits (loadBias image options) data segment next) ∧
      (∀ entry ∈ memory.regions.entries, entry ∈ next.regions.entries) ∧
      next.mappedBytes.toNat =
        memory.mappedBytes.toNat + result.mappedBytes.toNat := by
  have hmemory := hreachable.wellFormed
  obtain ⟨data, hdata, hvalid, middle, hsegments, hsame⟩ := load_ok hrun
  obtain rfl := hsame hrelocate hresolve
  obtain ⟨hextends, htotal, _⟩ :=
    loadSegments_ok hmemory hdata hvalid.segments hsegments
  refine ⟨data, hdata, fun segment => segmentLoaded_of_loadSegments hmemory
    hdata hvalid.segments hsegments, fun entry => hextends.kept, ?_⟩
  have hgrows := hextends.mappedBytes_le hmemory
  have hresult : result.mappedBytes = next.mappedBytes - memory.mappedBytes :=
    eq_sub_of_add_eq htotal
  rw [hresult, UInt64.toNat_sub_of_le _ _ hgrows]
  rw [UInt64.le_iff_toNat_le] at hgrows
  omega

/-- Two segments, one ending in zeros, loaded beside an old region. -/
theorem load_contents_two_segments :
    let limits : Limits := { pageSize := 16 }
    let image : BinaryImage :=
      { fileData := some [1, 2, 3, 4, 5]
        segments :=
          [{ index := 0, fileOffset := 1, fileSize := 3,
             virtualAddress := 0x1005, memorySize := 20 },
            { index := 1, fileSize := 2, virtualAddress := 0x1040,
              memorySize := 2 }] }
    let options : LoadOptions :=
      { preferredBase := 0x3005, applyRelocations := false,
        resolveImports := false }
    let memory := (new {}).run [.map 0x1000 16 permissionRead "old"]
    ∃ result next,
      load limits image options none memory = .ok result next ∧
        ∃ data, image.fileData = some data ∧
          (∀ segment ∈ image.segments, segment.memorySize ≠ 0 →
            SegmentLoaded limits (loadBias image options) data segment next) ∧
          (∀ entry ∈ memory.regions.entries, entry ∈ next.regions.entries) ∧
          next.mappedBytes.toNat =
            memory.mappedBytes.toNat + result.mappedBytes.toNat := by
  intro limits image options memory
  obtain ⟨result, next, hrun⟩ := succeeded_iff.mp (by decide +kernel :
    succeeded (load limits image options none memory) = true)
  exact ⟨result, next, hrun, load_contents ⟨_, _, rfl⟩ rfl rfl hrun⟩

end BinaryLoader
end BinForge
