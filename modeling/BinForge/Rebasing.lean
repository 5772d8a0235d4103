import BinForge.LayoutLoading
import BinForge.LoadedSegment

/-!
# Moving an image up and down

The loader computes the move modulo `2 ^ 64` and adds it with overflow checks.
A move up is a small number and works wherever the pages fit.  A move down is
a number close to `2 ^ 64`, and no address can be moved by it.
-/

namespace BinForge

open StatefulExcept
open AddressSpace
open Alignment

namespace BinaryLoader

variable {limits : Limits} {image : BinaryImage} {options : LoadOptions}
  {data : Bytes} {memory next : AddressSpace} {lowest base : UInt64}

/-- Where a segment belongs when the lowest one is moved to `base`. -/
def movedAddress (lowest base : UInt64) (segment : Segment) : ℕ :=
  base.toNat + (segment.virtualAddress.toNat - lowest.toNat)

/-- The first address of the pages around the moved segment. -/
def movedStart (limits : Limits) (lowest base : UInt64) (segment : Segment) :
    ℕ :=
  roundDown (movedAddress lowest base segment) limits.pageSize.toNat

/-- The end of the pages around the moved segment. -/
def movedStop (limits : Limits) (lowest base : UInt64) (segment : Segment) :
    ℕ :=
  roundUp (movedAddress lowest base segment + segment.memorySize.toNat)
    limits.pageSize.toNat

/-- The pages of the moved segments fit the machine and the budget and do not
meet. -/
structure RoomAt (limits : Limits) (budget : UInt64) (segments : List Segment)
    (lowest base : UInt64) : Prop where
  bounded : ∀ segment ∈ segments, segment.memorySize ≠ 0 →
    movedStop limits lowest base segment < 2 ^ 64
  apart : segments.Pairwise fun left right =>
    left.memorySize ≠ 0 → right.memorySize ≠ 0 →
      movedStop limits lowest base left ≤ movedStart limits lowest base right ∨
        movedStop limits lowest base right ≤ movedStart limits lowest base left
  total : ((segments.filter fun segment => segment.memorySize ≠ 0).map
    fun segment => movedStop limits lowest base segment -
      movedStart limits lowest base segment).sum ≤ budget.toNat

/-- The segment's bytes and zeros are at `address`, inside one region. -/
structure PlacedAt (data : Bytes) (segment : Segment) (address : ℕ)
    (memory : AddressSpace) : Prop where
  bytes : ∀ i < segment.memorySize.toNat, memory.contents (address + i) =
    if i < segment.fileSize.toNat then data[segment.fileOffset.toNat + i]?
    else some 0
  region : ∃ entry ∈ memory.regions.entries,
    entry.2.base.toNat ≤ address ∧
      address + segment.memorySize.toNat ≤ entry.2.stop

/-- The load succeeds and puts every segment where it belongs. -/
def Rebased (limits : Limits) (image : BinaryImage) (options : LoadOptions)
    (resolver : Option SymbolResolver) (memory : AddressSpace)
    (lowest : UInt64) : Prop :=
  ∃ result next data,
    load limits image options resolver memory = .ok result next ∧
      image.fileData = some data ∧
      ∀ segment ∈ image.segments, segment.memorySize ≠ 0 →
        PlacedAt data segment
          (movedAddress lowest options.preferredBase segment) next

/-- Nothing that is mapped or entered moves down, and the entry point stays
within the machine. -/
structure MovesUp (limits : Limits) (image : BinaryImage)
    (lowest base : UInt64) : Prop where
  segments : ∀ segment ∈ image.segments, segment.memorySize ≠ 0 →
    (∃ k, limits.pageSize.toNat = 2 ^ k) ∧ lowest ≤ base
  entry : image.header.entryPoint ≠ 0 → lowest ≠ 0 →
    lowest ≤ image.header.entryPoint →
      lowest ≤ base ∧ image.header.entryPoint.toNat +
        (base.toNat - lowest.toNat) < 2 ^ 64

/-! ## The move -/

theorem foldl_least_le (least : UInt64) (rest : List Segment) :
    let result := rest.foldl (fun least segment =>
      if segment.virtualAddress < least then segment.virtualAddress
      else least) least
    result ≤ least ∧ (∀ segment ∈ rest, result ≤ segment.virtualAddress) ∧
      (result = least ∨ ∃ segment ∈ rest, segment.virtualAddress = result) := by
  induction rest generalizing least with
  | nil => exact ⟨UInt64.le_refl _, by simp, Or.inl rfl⟩
  | cons segment rest ih =>
      obtain ⟨hle, hall, hmem⟩ := ih
        (if segment.virtualAddress < least then segment.virtualAddress
          else least)
      rw [List.foldl_cons]
      refine ⟨?_, List.forall_mem_cons.mpr ⟨?_, hall⟩, ?_⟩
      · refine UInt64.le_trans hle ?_
        split_ifs with hless
        · exact UInt64.le_of_lt hless
        · exact UInt64.le_refl _
      · refine UInt64.le_trans hle ?_
        split_ifs with hless
        · exact UInt64.le_refl _
        · exact UInt64.not_lt.mp hless
      · rcases hmem with hsame | ⟨other, hother, hsame⟩
        · by_cases hless : segment.virtualAddress < least
          · rw [if_pos hless] at hsame ⊢
            exact Or.inr ⟨segment, List.mem_cons_self, hsame.symm⟩
          · rw [if_neg hless] at hsame ⊢
            exact Or.inl hsame
        · exact Or.inr ⟨other, List.mem_cons_of_mem _ hother, hsame⟩

/-- Without a declared base the image is measured from its lowest segment. -/
theorem originalBase_of_lowest (hnone : image.header.imageBase = 0)
    (hlowest : IsLeast
      {address | ∃ segment ∈ image.segments, segment.virtualAddress = address}
      lowest) : originalBase image = lowest := by
  obtain ⟨⟨least, hleast, haddress⟩, hbelow⟩ := hlowest
  unfold originalBase
  rw [if_neg (not_not.mpr hnone)]
  cases hsegments : image.segments with
  | nil =>
      rw [hsegments] at hleast
      contradiction
  | cons first rest =>
      rw [hsegments] at hleast hbelow
      obtain ⟨hfirst, hrest, hmem⟩ := foldl_least_le first.virtualAddress rest
      show leastAddress first rest = lowest
      refine UInt64.le_antisymm ?_ (hbelow ?_)
      · rw [← haddress]
        rcases List.mem_cons.mp hleast with rfl | hlater
        · exact hfirst
        · exact hrest least hlater
      · rcases hmem with hsame | ⟨other, hother, hsame⟩
        · exact ⟨first, List.mem_cons_self, hsame.symm⟩
        · exact ⟨other, List.mem_cons_of_mem _ hother, hsame⟩

theorem loadBias_of_lowest (hpreferred : options.preferredBase ≠ 0)
    (horiginal : originalBase image = lowest) :
    loadBias image options = options.preferredBase - lowest := by
  rw [loadBias, loadBase, if_pos hpreferred, horiginal]

theorem sub_toNat_up (hup : lowest ≤ base) :
    (base - lowest).toNat = base.toNat - lowest.toNat :=
  UInt64.toNat_sub_of_le _ _ hup

/-- A move down overflows every address it could apply to. -/
theorem overflows_down {address : UInt64} (hdown : ¬lowest ≤ base)
    (haddress : lowest ≤ address) :
    2 ^ 64 ≤ address.toNat + (base - lowest).toNat := by
  have hlowest := lowest.toNat_lt
  rw [UInt64.le_iff_toNat_le] at hdown haddress
  rw [UInt64.toNat_sub]
  omega

/-! ## The pages of a moved segment -/

/-- Pages that end within the machine can be computed. -/
theorem segmentPages_of_fit {bias : UInt64} {segment : Segment}
    (hpower : ∃ k, limits.pageSize.toNat = 2 ^ k)
    (hfit : roundUp (segment.virtualAddress.toNat + bias.toNat +
      segment.memorySize.toNat) limits.pageSize.toNat < 2 ^ 64) :
    ∃ address first size,
      segmentPages limits bias segment = .ok (address, first, size) := by
  obtain ⟨k, hk⟩ := hpower
  have hpositive : 0 < limits.pageSize.toNat := by
    rw [hk]
    exact Nat.two_pow_pos k
  have hwhole : limits.pageSize.toNat ∣ 2 ^ 64 := by
    have hlt := limits.pageSize.toNat_lt
    rw [hk] at hlt ⊢
    exact pow_dvd_pow 2 ((Nat.pow_lt_pow_iff_right (by decide)).mp
      (hlt.trans (by decide : (2 : ℕ) ^ 32 < 2 ^ 64))).le
  have hround := (le_roundUp hpositive).trans_lt hfit
  have haddress := @checkedAdd_of_fit
    segment.virtualAddress bias (by omega)
  have hshifted := checkedAdd_toNat haddress
  generalize segment.virtualAddress + bias = address at haddress hshifted
  have hfirst := alignedBase_toNat hk address
  have hbelow : alignedBase limits address ≤ address := by
    rw [UInt64.le_iff_toNat_le, hfirst]
    exact roundDown_le _ _
  have hoffset := UInt64.toNat_sub_of_le _ _ hbelow
  rw [UInt64.le_iff_toNat_le] at hbelow
  have htotal := @checkedAdd_of_fit
    (address - alignedBase limits address)
    segment.memorySize (by omega)
  have hsum := checkedAdd_toNat htotal
  have hpadded : (alignedBase limits address).toNat +
      roundUp (address - alignedBase limits address +
        segment.memorySize).toNat limits.pageSize.toNat < 2 ^ 64 := by
    rw [← roundUp_add_of_dvd hpositive (hfirst ▸ dvd_roundDown _ _)]
    convert hfit using 2
    omega
  have hroom := add_lt_of_roundUp_lt hpositive hwhole
    ((Nat.le_add_left _ _).trans_lt hpadded)
  obtain ⟨size, haligned⟩ : ∃ size, checkedAlignUp
      (address - alignedBase limits address + segment.memorySize)
      limits.pageSize.toUInt64 = some size := by
    refine ⟨UInt64.ofNat (roundUp (address - alignedBase limits address +
      segment.memorySize).toNat limits.pageSize.toNat),
      checkedAlignUp_eq_some.mpr ?_⟩
    rw [UInt32.toNat_toUInt64]
    exact ⟨⟨k, hk⟩, hroom, UInt64.toNat_ofNat_of_lt'
      ((Nat.le_add_left _ _).trans_lt hpadded)⟩
  refine ⟨address, alignedBase limits address, size, ?_⟩
  unfold segmentPages
  simp only [demand_except_bind_eq_ok]
  exact ⟨_, haddress, _, htotal, _, haligned, rfl⟩

theorem moved_eq_add {segment : Segment} (hup : lowest ≤ base)
    (hsegment : lowest ≤ segment.virtualAddress) :
    segment.virtualAddress.toNat + (base - lowest).toNat =
      movedAddress lowest base segment := by
  rw [sub_toNat_up hup, movedAddress]
  rw [UInt64.le_iff_toNat_le] at hup hsegment
  omega

/-- After a move up the pages are the ones around the moved address. -/
theorem segmentPages_up {segment : Segment} (hup : lowest ≤ base)
    (hsegment : lowest ≤ segment.virtualAddress)
    (hpower : ∃ k, limits.pageSize.toNat = 2 ^ k)
    (hbounded : movedStop limits lowest base segment < 2 ^ 64) :
    ∃ address first size,
      segmentPages limits (base - lowest) segment =
        .ok (address, first, size) ∧
        first.toNat = movedStart limits lowest base segment ∧
        first.toNat + size.toNat = movedStop limits lowest base segment := by
  have hmoved := moved_eq_add hup hsegment
  unfold movedStop movedStart at *
  rw [← hmoved] at hbounded ⊢
  obtain ⟨address, first, size, hpages⟩ := segmentPages_of_fit hpower hbounded
  have hplace := segmentPages_ok hpages
  refine ⟨address, first, size, hpages, ?_, ?_⟩
  · rw [hplace.rounded, hplace.shifted]
  · rw [hplace.stop_eq, hplace.shifted]

/-! ## The segment loop -/

/-- What the pages of every segment are after a move up. -/
def AllMoved (limits : Limits) (lowest base : UInt64)
    (segments : List Segment) : Prop :=
  ∀ segment ∈ segments, segment.memorySize ≠ 0 → ∃ address first size,
    segmentPages limits (base - lowest) segment =
      .ok (address, first, size) ∧
      first.toNat = movedStart limits lowest base segment ∧
      first.toNat + size.toNat = movedStop limits lowest base segment

theorem mem_segmentRegions {segments : List Segment}
    (hmoved : AllMoved limits lowest base segments) {region : MemoryRegion}
    (hregion : region ∈
      segmentRegions limits options data (base - lowest) segments) :
    ∃ segment ∈ segments, segment.memorySize ≠ 0 ∧
      region.base.toNat = movedStart limits lowest base segment ∧
      region.stop = movedStop limits lowest base segment := by
  obtain ⟨segment, hsegment, hregion⟩ := List.mem_filterMap.mp hregion
  by_cases hempty : segment.memorySize = 0
  · rw [segmentRegion, if_pos hempty] at hregion
    contradiction
  · obtain ⟨address, first, size, hpages, hfirst, hstop⟩ :=
      hmoved segment hsegment hempty
    rw [segmentRegion, if_neg hempty, hpages] at hregion
    obtain rfl := Option.some.inj hregion
    exact ⟨segment, hsegment, hempty, hfirst, hstop⟩

theorem sum_segmentRegions {segments : List Segment}
    (hmoved : AllMoved limits lowest base segments) :
    ((segmentRegions limits options data (base - lowest) segments).map
        fun region => region.size.toNat).sum =
      ((segments.filter fun segment => segment.memorySize ≠ 0).map
        fun segment => movedStop limits lowest base segment -
          movedStart limits lowest base segment).sum := by
  induction segments with
  | nil => rfl
  | cons segment rest ih =>
      have hrest := ih fun other hother =>
        hmoved other (List.mem_cons_of_mem _ hother)
      by_cases hempty : segment.memorySize = 0
      · rw [segmentRegions, List.filterMap_cons_none
          (by rw [segmentRegion, if_pos hempty]), List.filter_cons_of_neg
          (by simpa using hempty)]
        exact hrest
      · obtain ⟨address, first, size, hpages, hfirst, hstop⟩ :=
          hmoved segment List.mem_cons_self hempty
        rw [segmentRegions, List.filterMap_cons_some
          (by rw [segmentRegion, if_neg hempty, hpages]),
          List.filter_cons_of_pos (by simpa using hempty), List.map_cons,
          List.map_cons, List.sum_cons, List.sum_cons]
        rw [segmentRegions] at hrest
        rw [hrest, ← hfirst, ← hstop, Nat.add_sub_cancel_left]
        rfl

/-- The next segment finds its pages free and within the budget. -/
theorem loadSegment_up
    (hentries : memory.regions.entries = [])
    (hdata : image.fileData = some data) {done rest : List Segment}
    {segment : Segment}
    (hsegment : BinaryValidator.SegmentValid data segment)
    (hnonempty : segment.memorySize ≠ 0)
    (hmoved : AllMoved limits lowest base (done ++ segment :: rest))
    (hroom : RoomAt limits memory.limits.maxMappedBytes
      (done ++ segment :: rest) lowest base)
    (hextends : Extends memory next
      (segmentRegions limits options data (base - lowest) done)) :
    succeeded (loadSegment limits image options (base - lowest) segment
      next) = true := by
  have hbefore : AllMoved limits lowest base done := fun other hother =>
    hmoved other (List.mem_append_left _ hother)
  obtain ⟨address, first, size, hpages, hfirst, hstop⟩ :=
    hmoved segment (by simp) hnonempty
  have hplace := segmentPages_ok hpages
  have hcounted := hextends.wellFormed.counted
  have hsum := (hextends.entries.map fun entry => entry.2.size.toNat).sum_eq
  rw [← hcounted, hentries, List.nil_append, List.map_map] at hsum
  have htotal := hroom.total
  rw [List.filter_append, List.filter_cons_of_pos (by simpa using hnonempty),
    List.map_append, List.map_cons, List.sum_append, List.sum_cons,
    ← @sum_segmentRegions _ options data _ _ _ hbefore] at htotal
  have hmap : succeeded (map first size (initialPermissions options segment)
      (segmentName segment) next) = true := by
    rw [hextends.wellFormed.map_succeeded_iff]
    refine ⟨?_, ?_, ?_, ?_⟩
    · rintro rfl
      have hbase := hplace.base_le
      have hend := hplace.end_le
      have hpositive := size_pos_of_ne_zero hnonempty
      rw [UInt64.toNat_zero] at hend
      omega
    · rw [hstop]
      exact hroom.bounded segment (by simp) hnonempty
    · rw [hextends.limits, hsum]
      refine le_trans ?_ htotal
      rw [← hstop, ← hfirst, Nat.add_sub_cancel_left]
      show ((segmentRegions limits options data (base - lowest) done).map
        fun region => region.size.toNat).sum + size.toNat ≤ _
      omega
    · intro entry hentry
      rw [hextends.entries.mem_iff, hentries, List.nil_append] at hentry
      obtain ⟨region, hregion, rfl⟩ := List.mem_map.mp hentry
      obtain ⟨other, hother, hothersize, hotherbase, hotherstop⟩ :=
        mem_segmentRegions hbefore hregion
      have hapart := (List.pairwise_append.mp hroom.apart).2.2 other hother
        segment List.mem_cons_self hothersize hnonempty
      rw [hstop, hfirst, hotherbase, hotherstop]
      exact hapart.symm
  obtain ⟨_, mapped, hmap⟩ := succeeded_iff.mp hmap
  rw [loadSegment_after_map hextends.wellFormed hdata hsegment hpages hmap]
  rfl

theorem loadSegments_up (hmemory : memory.WellFormed)
    (hentries : memory.regions.entries = [])
    (hdata : image.fileData = some data) {segments : List Segment}
    (hsegments : ∀ segment ∈ segments,
      BinaryValidator.SegmentValid data segment)
    (hmoved : AllMoved limits lowest base segments)
    (hroom : RoomAt limits memory.limits.maxMappedBytes segments lowest base) :
    succeeded (loadSegments limits image options (base - lowest) segments
      memory) = true := by
  by_contra hfail
  obtain ⟨why, next, hrun⟩ := not_succeeded_iff.mp
    (Bool.not_eq_true _ ▸ hfail)
  obtain ⟨done, segment, rest, rfl, hnonempty, hextends, hload⟩ :=
    loadSegments_error hmemory hdata hsegments hrun
  have hsucceeds := @loadSegment_up _ image options _ _ _ _ _
    hentries hdata _ _ _ (hsegments segment (by simp)) hnonempty hmoved hroom
    hextends
  rw [hload] at hsucceeds
  contradiction

/-! ## The whole load -/

theorem entryPoint_ok_iff :
    (∃ entry, entryPoint image (loadBias image options) = .ok entry) ↔
      (image.header.entryPoint ≠ 0 → originalBase image ≠ 0 →
        originalBase image ≤ image.header.entryPoint →
          image.header.entryPoint.toNat + (loadBias image options).toNat <
            2 ^ 64) := by
  unfold entryPoint
  dsimp only
  split_ifs with hguard
  · simp only [demand_except_eq_ok, checkedAdd_eq_some]
    constructor
    · rintro ⟨_, hfit, _⟩ _ _ _
      exact hfit
    · intro hfit
      exact ⟨_, hfit hguard.1 hguard.2.1 hguard.2.2, rfl⟩
  · refine iff_of_true ⟨_, rfl⟩ fun hentry horiginal hle => ?_
    exact absurd ⟨hentry, horiginal, hle⟩ hguard

theorem placedAt_of_loaded {segment : Segment} (hup : lowest ≤ base)
    (hsegment : lowest ≤ segment.virtualAddress)
    (hpower : ∃ k, limits.pageSize.toNat = 2 ^ k)
    (hloaded : SegmentLoaded limits (base - lowest) data segment next) :
    PlacedAt data segment (movedAddress lowest base segment) next := by
  have hmoved := moved_eq_add hup hsegment
  have hpositive : 0 < limits.pageSize.toNat := by
    obtain ⟨k, hk⟩ := hpower
    rw [hk]
    exact Nat.two_pow_pos k
  obtain ⟨-, hbytes, -, entry, hentry, hbase, hstop⟩ := hloaded
  rw [hmoved] at hbytes hbase hstop
  refine ⟨hbytes, entry, hentry, ?_, ?_⟩
  · rw [hbase]
    exact roundDown_le _ _
  · rw [hstop]
    exact le_roundUp hpositive

theorem load_of_segments {resolver : Option SymbolResolver}
    (hvalid : (BinaryValidator.validate limits image).valid = true)
    (hrelocate : options.applyRelocations = false)
    (hresolve : options.resolveImports = false)
    (hsegments : succeeded (loadSegments limits image options
      (loadBias image options) image.segments memory) = true)
    {entry : UInt64}
    (hentry : entryPoint image (loadBias image options) = .ok entry) :
    ∃ result next,
      load limits image options resolver memory = .ok result next := by
  obtain ⟨mapped, middle, hsegments⟩ := succeeded_iff.mp hsegments
  refine ⟨{ loadBase := loadBase image options, entryPoint := entry,
            mappedBytes := mapped }, middle, ?_⟩
  unfold load relocateStage importStage
  rw [rejectIf_bind_of_not (by simp [hvalid]), bind_of_ok hsegments, hrelocate,
    hresolve, if_neg Bool.false_ne_true, if_neg Bool.false_ne_true]
  show (liftExcept (entryPoint image (loadBias image options)) >>= _ :
    MemoryCall LoadResult) middle = _
  rw [liftExcept_bind_of_ok hentry]
  rfl

/-- An image without a declared base goes where it is asked exactly when it is
asked to move up. -/
theorem load_rebased_iff {resolver : Option SymbolResolver}
    (hvalid : (BinaryValidator.validate limits image).valid = true)
    (hnone : image.header.imageBase = 0)
    (hlowest : IsLeast
      {address | ∃ segment ∈ image.segments, segment.virtualAddress = address}
      lowest)
    (hpreferred : options.preferredBase ≠ 0)
    (hrelocate : options.applyRelocations = false)
    (hresolve : options.resolveImports = false)
    (hreachable : memory.Reachable) (hentries : memory.regions.entries = [])
    (hroom : RoomAt limits memory.limits.maxMappedBytes image.segments lowest
      options.preferredBase) :
    Rebased limits image options resolver memory lowest ↔
      MovesUp limits image lowest options.preferredBase := by
  have hmemory := hreachable.wellFormed
  have horiginal := originalBase_of_lowest hnone hlowest
  have hbias := loadBias_of_lowest hpreferred horiginal
  have hbelow : ∀ segment ∈ image.segments,
      lowest ≤ segment.virtualAddress := fun segment hsegment =>
    hlowest.2 ⟨segment, hsegment, rfl⟩
  constructor
  · rintro ⟨result, next, data, hrun, hdata, -⟩
    obtain ⟨-, middle, second, hsegments, -, -, hentry⟩ := load_eq_ok hrun
    obtain ⟨found, hfound, hvalid⟩ := BinaryValidator.validate_valid_iff.mp hvalid
    obtain ⟨-, -, hpages⟩ :=
      loadSegments_ok hmemory hfound hvalid.segments hsegments
    rw [hbias] at hpages hentry
    constructor
    · intro segment hsegment hnonempty
      obtain ⟨address, first, size, hpage⟩ := hpages segment hsegment hnonempty
      have hplace := segmentPages_ok hpage
      refine ⟨hplace.power, ?_⟩
      by_contra hdown
      have hover := overflows_down hdown (hbelow segment hsegment)
      have hlt := address.toNat_lt
      rw [hplace.shifted] at hlt
      omega
    · intro hnonzero horigin hinside
      rw [← hbias] at hentry
      have hfit := entryPoint_ok_iff.mp ⟨_, hentry⟩ hnonzero
        (horiginal ▸ horigin) (horiginal ▸ hinside)
      rw [hbias] at hfit
      have hup : lowest ≤ options.preferredBase := by
        by_contra hdown
        have hover := overflows_down hdown hinside
        omega
      rw [sub_toNat_up hup] at hfit
      exact ⟨hup, hfit⟩
  · rintro ⟨hup, hentry⟩
    obtain ⟨data, hdata, hchecked⟩ :=
      BinaryValidator.validate_valid_iff.mp hvalid
    have hmoved : AllMoved limits lowest options.preferredBase
        image.segments := by
      intro segment hsegment hnonempty
      obtain ⟨hpower, hup⟩ := hup segment hsegment hnonempty
      exact segmentPages_up hup (hbelow segment hsegment) hpower
        (hroom.bounded segment hsegment hnonempty)
    have hsegments := @loadSegments_up _ image options _ _ _ _
      hmemory hentries hdata _ hchecked.segments hmoved hroom
    obtain ⟨entry, hpoint⟩ : ∃ entry,
        entryPoint image (loadBias image options) = .ok entry := by
      refine entryPoint_ok_iff.mpr fun hnonzero horigin hinside => ?_
      rw [horiginal] at horigin hinside
      obtain ⟨hup, hfit⟩ := hentry hnonzero horigin hinside
      rw [hbias, sub_toNat_up hup]
      exact hfit
    rw [← hbias] at hsegments
    obtain ⟨result, next, hrun⟩ := @load_of_segments _ _ _ _ resolver
      hvalid hrelocate hresolve hsegments _ hpoint
    obtain ⟨found, hfound, hloaded, -⟩ :=
      load_contents hreachable hrelocate hresolve hrun
    refine ⟨result, next, found, hrun, hfound, ?_⟩
    intro segment hsegment hnonempty
    obtain ⟨hpower, hup⟩ := hup segment hsegment hnonempty
    exact placedAt_of_loaded hup (hbelow segment hsegment) hpower
      (hbias ▸ hloaded segment hsegment hnonempty)

/-- Two segments linked from `0x1008`, the lower one second. -/
def unbasedImage : BinaryImage :=
  { fileData := some [1, 2, 3, 4]
    segments :=
      [{ index := 0, fileSize := 4, virtualAddress := 0x1040,
         memorySize := 20 },
        { index := 1, fileSize := 2, virtualAddress := 0x1008,
          memorySize := 4 }] }

theorem isLeast_unbasedImage : IsLeast
    {address | ∃ segment ∈ unbasedImage.segments,
      segment.virtualAddress = address} 0x1008 := by
  refine ⟨by simp [unbasedImage], ?_⟩
  rintro address ⟨segment, hsegment, rfl⟩
  revert segment
  decide

theorem load_rebased_iff_up :
    Rebased smallPages unbasedImage (LayoutPlanner.moveTo 0x4004) none
      (new {}) 0x1008 :=
  (load_rebased_iff (by decide +kernel) rfl isLeast_unbasedImage (by decide) rfl
    rfl ⟨{}, [], rfl⟩ rfl
    ⟨by decide +kernel, by decide +kernel, by decide +kernel⟩).mpr
      ⟨fun _ _ _ => ⟨⟨4, rfl⟩, by decide⟩, by decide⟩

/-- The same image is refused one page down. -/
theorem load_rebased_refuses_down :
    ¬∀ limits image options resolver (memory : AddressSpace) lowest,
      (BinaryValidator.validate limits image).valid = true →
        image.header.imageBase = 0 →
        IsLeast {address | ∃ segment ∈ image.segments,
          segment.virtualAddress = address} lowest →
        options.preferredBase ≠ 0 → options.applyRelocations = false →
        options.resolveImports = false → memory.Reachable →
        memory.regions.entries = [] →
        RoomAt limits memory.limits.maxMappedBytes image.segments lowest
          options.preferredBase →
        Rebased limits image options resolver memory lowest := by
  intro hall
  obtain ⟨result, next, data, hrun, -⟩ := hall smallPages unbasedImage
    (LayoutPlanner.moveTo 0xff8) none (new {}) 0x1008 (by decide +kernel) rfl
    isLeast_unbasedImage (by decide) rfl rfl ⟨{}, [], rfl⟩ rfl
    ⟨by decide +kernel, by decide +kernel, by decide +kernel⟩
  have hfails : succeeded (load smallPages unbasedImage
      (LayoutPlanner.moveTo 0xff8) none (new {})) = false := by
    decide +kernel
  rw [hrun] at hfails
  contradiction

end BinaryLoader
end BinForge
