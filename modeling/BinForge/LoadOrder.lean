import BinForge.LoadSpecification
import BinForge.Rebasing

/-!
# The order of segments and of images

A load adds a set of regions and stores into mapped memory, so the order in
which an image lists its segments cannot matter.  Neither can the order in
which several images are loaded, as long as what each of them relocates and
binds lies in its own pages.
-/

namespace BinForge

open StatefulExcept
open AddressSpace

namespace AddressSpace

variable {memory next last : AddressSpace} {regions : List MemoryRegion}

/-! ## Regions over the same frame -/

def stripped (region : MemoryRegion) : UInt64 × MemoryRegion :=
  (region.base, { region with bytes := [] })

theorem layout_of_extends (hextends : BinaryLoader.Extends memory next regions) :
    next.layout.Perm (memory.layout ++ regions.map stripped) := by
  have hperm := hextends.entries.map fun entry =>
    (entry.1, ({ entry.2 with bytes := [] } : MemoryRegion))
  rw [List.map_append, List.map_map] at hperm
  exact hperm

theorem layout_sorted (memory : AddressSpace) :
    memory.layout.Pairwise fun left right => left.1 < right.1 :=
  List.pairwise_map.mpr memory.regions.sorted

theorem layout_eq_of_perm (hperm : memory.layout.Perm next.layout) :
    memory.layout = next.layout := by
  refine hperm.eq_of_pairwise ?_ (layout_sorted memory) (layout_sorted next)
  intro left right _ _ hlt hgt
  exact absurd hgt hlt.asymm

theorem SameFrame.entry (hframe : SameFrame memory next)
    {entry : UInt64 × MemoryRegion} (hentry : entry ∈ next.regions.entries) :
    ∃ old ∈ memory.regions.entries, old.2.base = entry.2.base ∧
      old.2.size = entry.2.size := by
  have hlayout : (entry.1, ({ entry.2 with bytes := [] } : MemoryRegion)) ∈
      memory.layout := by
    rw [← hframe.layout]
    exact List.mem_map.mpr ⟨entry, hentry, rfl⟩
  obtain ⟨old, hold, hsame⟩ := List.mem_map.mp hlayout
  simp only [Prod.mk.injEq, MemoryRegion.mk.injEq] at hsame
  exact ⟨old, hold, hsame.2.1, hsame.2.2.1⟩

/-- The second address space is the first with more regions, whatever became of
the bytes of either. -/
structure Grown (memory next : AddressSpace) (regions : List MemoryRegion) :
    Prop where
  limits : next.limits = memory.limits
  layout : next.layout.Perm (memory.layout ++ regions.map stripped)
  mappedBytes : next.mappedBytes.toNat =
    memory.mappedBytes.toNat + totalSize regions

theorem Grown.trans {more : List MemoryRegion} {last : AddressSpace}
    (hleft : Grown memory next regions) (hright : Grown next last more) :
    Grown memory last (regions ++ more) := by
  refine ⟨hright.limits.trans hleft.limits, ?_, ?_⟩
  · rw [List.map_append, ← List.append_assoc]
    exact hright.layout.trans (hleft.layout.append_right _)
  · rw [hright.mappedBytes, hleft.mappedBytes, totalSize_append, Nat.add_assoc]

theorem grown_of_frame (hmemory : memory.WellFormed)
    (hregions : Addable memory regions)
    (hframe : SameFrame (memory.withRegions regions) next) :
    Grown memory next regions := by
  have hextends := hregions.extends hmemory
  refine ⟨hframe.limits.trans hextends.limits, ?_, ?_⟩
  · rw [hframe.layout]
    exact layout_of_extends hextends
  · rw [hframe.mappedBytes]
    exact mappedBytes_of_extends hmemory hextends

theorem Grown.frame {permuted : List MemoryRegion} {last : AddressSpace}
    (hleft : Grown memory next regions) (hright : Grown memory last permuted)
    (hperm : regions.Perm permuted) : SameFrame next last := by
  refine ⟨hright.limits.trans hleft.limits.symm, ?_, ?_⟩
  · exact layout_eq_of_perm (hright.layout.trans
      (((hperm.symm.map _).append_left _).trans hleft.layout.symm))
  · rw [← UInt64.toNat_inj, hright.mappedBytes, hleft.mappedBytes, totalSize,
      totalSize, (hperm.map _).sum_eq]

/-- Whether regions fit is a matter of the frame. -/
theorem Addable.sameFrame (hframe : SameFrame memory next)
    (hregions : Addable memory regions) : Addable next regions := by
  obtain ⟨hmappable, hapart, hfree, hbudget⟩ := hregions
  refine ⟨hmappable, hapart, fun region hregion entry hentry => ?_, ?_⟩
  · obtain ⟨old, hold, hbase, hsize⟩ := hframe.entry hentry
    have hold := hfree region hregion old hold
    unfold MemoryRegion.Apart MemoryRegion.stop at hold ⊢
    rwa [← hbase, ← hsize]
  · rw [hframe.limits, hframe.mappedBytes]
    exact hbudget

end AddressSpace

namespace BinaryLoader

variable {limits : Limits} {image : BinaryImage} {options : LoadOptions}
  {resolver : Option SymbolResolver} {result : LoadResult} {data : Bytes}
  {memory next : AddressSpace}

/-! ## The order of the segments -/

theorem leastAddress_perm {first other : Segment} {rest others : List Segment}
    (hperm : (first :: rest).Perm (other :: others)) :
    leastAddress first rest = leastAddress other others := by
  have hleast : ∀ head tail, IsLeast {address | ∃ segment ∈ (head :: tail :
      List Segment), segment.virtualAddress = address}
        (leastAddress head tail) := by
    intro head tail
    obtain ⟨hhead, htail, hmem⟩ := foldl_least_le head.virtualAddress tail
    unfold leastAddress
    constructor
    · rcases hmem with hsame | ⟨found, hfound, hsame⟩
      · exact ⟨head, List.mem_cons_self, hsame.symm⟩
      · exact ⟨found, List.mem_cons_of_mem _ hfound, hsame⟩
    · rintro address ⟨segment, hsegment, rfl⟩
      rcases List.mem_cons.mp hsegment with rfl | hsegment
      · exact hhead
      · exact htail segment hsegment
  have hsame := hleast other others
  simp only [← hperm.mem_iff] at hsame
  exact (hleast first rest).unique hsame

theorem originalBase_perm {permuted : List Segment}
    (hperm : image.segments.Perm permuted) :
    originalBase { image with segments := permuted } = originalBase image := by
  unfold originalBase
  by_cases hbase : image.header.imageBase = 0
  · rw [if_neg (not_not.mpr hbase), if_neg (not_not.mpr hbase)]
    cases hsegments : image.segments with
    | nil =>
        rw [hsegments] at hperm
        rw [hperm.nil_eq.symm]
    | cons first rest =>
        rw [hsegments] at hperm
        cases permuted with
        | nil => exact absurd hperm.eq_nil (List.cons_ne_nil _ _)
        | cons other others => exact (leastAddress_perm hperm).symm
  · rw [if_pos hbase, if_pos hbase]

/-- What a load asks for does not depend on the order of the segments. -/
theorem Loads.perm {permuted : List Segment}
    (hperm : image.segments.Perm permuted) {relocated bound : List Store}
    {entry : UInt64} (hmemory : memory.WellFormed)
    (hloads : Loads limits image options resolver memory data relocated bound
      entry) :
    Loads limits { image with segments := permuted } options resolver memory
        data relocated bound entry ∧
      ∀ result next, Loaded limits image options memory data relocated bound
          entry result next →
        Loaded limits { image with segments := permuted } options memory data
          relocated bound entry result next := by
  have horigin := originalBase_perm hperm
  have hbase : loadBase { image with segments := permuted } options =
      loadBase image options := by
    rw [loadBase, loadBase, horigin]
  have hbias : loadBias { image with segments := permuted } options =
      loadBias image options := by
    rw [loadBias, loadBias, hbase, horigin]
  have hregions : (segmentRegions limits options data (loadBias image options)
      image.segments).Perm (segmentRegions limits options data
        (loadBias image options) permuted) := hperm.filterMap _
  have hspace := withRegions_perm hmemory hloads.regions hregions
  have hvalid := hloads.valid
  have hpermuted : ∀ segment ∈ permuted,
      BinaryValidator.SegmentValid data segment := fun segment hsegment =>
    hvalid.segments segment (hperm.mem_iff.mpr hsegment)
  constructor
  · constructor
    · exact hloads.file
    · exact { hvalid with
        segmentCount := hperm.length_eq ▸ hvalid.segmentCount
        segments := hpermuted }
    · rw [hbias]
      exact fun segment hsegment =>
        hloads.pages segment (hperm.mem_iff.mpr hsegment)
    · rw [hbias]
      exact hloads.regions.perm hregions
    · rw [← hloads.relocations, relocationStores, hbias]
      rfl
    · rw [← hloads.imports, importStores, hbias]
      rfl
    · rw [hbias, ← hspace]
      exact hloads.mapped
    · rw [← hloads.entry, entryPoint, hbias, horigin]
      rfl
  · intro result next hloaded
    constructor
    · exact hloaded.wellFormed
    · rw [hbias, ← hspace]
      exact hloaded.frame
    · have hfirst := contents_withRegions hmemory hloads.regions
      have hsecond :=
        contents_withRegions hmemory (hloads.regions.perm hregions)
      rw [storeAll_segments hvalid.segments] at hfirst
      rw [storeAll_segments hpermuted] at hsecond
      rw [hbias, hloaded.contents, ← hfirst, hspace, hsecond]
    · rw [hbias, hbase, hloaded.result, totalSize, (hregions.map _).sum_eq]
      rfl

theorem load_perm {permuted : List Segment}
    (hperm : image.segments.Perm permuted) (hmemory : memory.WellFormed)
    (hrun : load limits image options resolver memory = .ok result next) :
    load limits { image with segments := permuted } options resolver memory =
      .ok result next := by
  obtain ⟨data, relocated, bound, entry, hloads, hloaded⟩ :=
    loaded_of_load hmemory hrun
  obtain ⟨hother, hsame⟩ := hloads.perm hperm hmemory
  obtain ⟨found, last, hload, hlast⟩ := load_of_loads hmemory hother
  obtain ⟨rfl, rfl⟩ := (hsame result next hloaded).unique hlast
  exact hload

/-- An image loads alike, with the same memory and the same result, in whatever
order it lists its segments. -/
theorem load_perm_segments {permuted : List Segment}
    (hperm : image.segments.Perm permuted) (hmemory : memory.Reachable) :
    load limits { image with segments := permuted } options resolver memory =
        .ok result next ↔
      load limits image options resolver memory = .ok result next := by
  have hback : ({ image with segments := permuted } : BinaryImage).segments.Perm
      image.segments := hperm.symm
  exact ⟨load_perm hback hmemory.wellFormed, load_perm hperm hmemory.wellFormed⟩

/-- Three segments listed backwards beside an old region. -/
theorem load_perm_segments_three :
    let segment : UInt32 → UInt64 → Segment := fun index address =>
      { index, fileSize := 2, virtualAddress := address, memorySize := 8 }
    let forward := [segment 0 0x1000, segment 1 0x1020, segment 2 0x1040]
    let image : BinaryImage := { fileData := some [1, 2], segments := forward }
    let memory := (new {}).run [.map 0x2000 16 permissionRead "old"]
    ∃ result next,
      load { pageSize := 16 } image {} none memory = .ok result next ∧
        load { pageSize := 16 } { image with segments := forward.reverse } {}
          none memory = .ok result next := by
  intro segment forward image memory
  obtain ⟨result, next, hrun⟩ := succeeded_iff.mp (by decide +kernel :
    succeeded (load { pageSize := 16 } image {} none memory) = true)
  have hperm : image.segments.Perm forward.reverse :=
    (List.reverse_perm forward).symm
  exact ⟨result, next, hrun,
    (load_perm_segments hperm ⟨_, _, rfl⟩).mpr hrun⟩

/-! ## The order of several images -/

/-- A load with the limits it is made under. -/
structure LoadCall where
  limits : Limits := {}
  image : BinaryImage := {}
  options : LoadOptions := {}
  resolver : Option SymbolResolver := none

def LoadCall.call (call : LoadCall) : MemoryCall LoadResult :=
  load call.limits call.image call.options call.resolver

def LoadCall.regions (call : LoadCall) (data : Bytes) : List MemoryRegion :=
  segmentRegions call.limits call.options data
    (loadBias call.image call.options) call.image.segments

/-- What the load relocates and binds lies in its own pages.  With relocations
and imports off there is nothing to ask. -/
def LoadCall.SelfContained (call : LoadCall) : Prop :=
  ∀ data relocated bound, call.image.fileData = some data →
    relocationStores call.image call.options call.resolver = .ok relocated →
    importStores call.image call.options call.resolver = .ok bound →
    ∀ store ∈ relocated ++ bound, store.bytes ≠ [] →
      ∃ region ∈ call.regions data,
        region.contains store.target store.bytes.length = true

theorem Loaded.grown {relocated bound : List Store} {entry : UInt64}
    (hmemory : memory.WellFormed)
    (hloads : Loads limits image options resolver memory data relocated bound
      entry)
    (hloaded : Loaded limits image options memory data relocated bound entry
      result next) :
    Grown memory next (segmentRegions limits options data
      (loadBias image options) image.segments) :=
  grown_of_frame hmemory hloads.regions hloaded.frame

/-- The contents after a load, as one sequence of stores. -/
theorem Loaded.cells {relocated bound : List Store} {entry : UInt64}
    (hloads : Loads limits image options resolver memory data relocated bound
      entry)
    (hloaded : Loaded limits image options memory data relocated bound entry
      result next) :
    next.contents = memory.contents.storeAll
      ((segmentRegions limits options data (loadBias image options)
        image.segments).map MemoryRegion.cells ++
          (relocated ++ bound).map Store.cells) := by
  rw [hloaded.contents, List.map_append, CellMemory.storeAll_append,
    CellMemory.storeAll_append, storeAll_segments hloads.valid.segments]

/-- Cells that lie in one of the regions. -/
def Within (regions : List MemoryRegion) (cells : ℕ × Bytes) : Prop :=
  cells.2 = [] ∨ ∃ region ∈ regions, region.base.toNat ≤ cells.1 ∧
    cells.1 + cells.2.length ≤ region.stop

theorem Within.apart {left right : List MemoryRegion}
    (hapart : ∀ first ∈ left, ∀ second ∈ right, first.Apart second)
    {first second : ℕ × Bytes} (hfirst : Within left first)
    (hsecond : Within right second) : CellMemory.StoresApart first second := by
  rcases hfirst with hempty | ⟨region, hregion, hlow, hhigh⟩
  · exact Or.inl hempty
  rcases hsecond with hempty | ⟨other, hother, hstart, hstop⟩
  · exact Or.inr (Or.inl hempty)
  have hmissed := hapart region hregion other hother
  unfold MemoryRegion.Apart at hmissed
  exact Or.inr (Or.inr (by omega))

namespace LoadCall

variable {call left right : LoadCall}

/-- Everything a self-contained load stores lies in its own pages. -/
theorem SelfContained.within (hself : call.SelfContained)
    {relocated bound : List Store} {entry : UInt64}
    (hloads : Loads call.limits call.image call.options call.resolver memory
      data relocated bound entry) :
    ∀ cells ∈ (call.regions data).map MemoryRegion.cells ++
        (relocated ++ bound).map Store.cells,
      Within (call.regions data) cells := by
  intro cells hcells
  rcases List.mem_append.mp hcells with hcells | hcells
  · obtain ⟨region, hregion, rfl⟩ := List.mem_map.mp hcells
    have hstored := (hloads.regions.mappable region hregion).stored
    refine Or.inr ⟨region, hregion, le_rfl, ?_⟩
    rw [MemoryRegion.cells, hstored]
    rfl
  · obtain ⟨store, hstore, rfl⟩ := List.mem_map.mp hcells
    by_cases hbytes : store.bytes = []
    · exact Or.inl hbytes
    · obtain ⟨region, hregion, hcontains⟩ := hself data relocated bound
        hloads.file hloads.relocations hloads.imports store hstore hbytes
      have hrange := MemoryRegion.contains_iff.mp hcontains
      exact Or.inr ⟨region, hregion, hrange⟩

/-- A self-contained load asks only for room: the rest it brings along. -/
theorem SelfContained.loads (hself : call.SelfContained)
    (hmemory : memory.WellFormed) {other : AddressSpace}
    {relocated bound : List Store} {entry : UInt64}
    (hloads : Loads call.limits call.image call.options call.resolver other
      data relocated bound entry)
    (hroom : Addable memory (call.regions data)) :
    Loads call.limits call.image call.options call.resolver memory data
      relocated bound entry := by
  refine { hloads with regions := hroom, mapped := ?_ }
  intro store hstore hbytes
  obtain ⟨region, hregion, hcontains⟩ := hself data relocated bound hloads.file
    hloads.relocations hloads.imports store hstore hbytes
  exact ⟨_, (hroom.extends hmemory).added hregion, hcontains⟩

/-- Two self-contained loads may be made in either order. -/
theorem comm {leftResult rightResult : LoadResult}
    {first middle last : AddressSpace} (hfirst : first.WellFormed)
    (hleftSelf : left.SelfContained) (hrightSelf : right.SelfContained)
    (hleft : left.call first = .ok leftResult middle)
    (hright : right.call middle = .ok rightResult last) :
    ∃ between, right.call first = .ok rightResult between ∧
      left.call between = .ok leftResult last := by
  obtain ⟨leftData, leftRelocated, leftBound, leftEntry, hleftLoads,
    hleftLoaded⟩ := loaded_of_load hfirst hleft
  have hmiddle := hleftLoaded.wellFormed
  obtain ⟨rightData, rightRelocated, rightBound, rightEntry, hrightLoads,
    hrightLoaded⟩ := loaded_of_load hmiddle hright
  have hboth : Addable first (left.regions leftData ++ right.regions rightData) :=
    (addable_append hfirst).mpr ⟨hleftLoads.regions,
      hrightLoads.regions.sameFrame hleftLoaded.frame.symm⟩
  have hswapped := hboth.perm List.perm_append_comm
  obtain ⟨hrightRoom, hleftRoom⟩ := (addable_append hfirst).mp hswapped
  -- The right image finds room in the first space, ...
  have hrightFirst := hrightSelf.loads hfirst hrightLoads hrightRoom
  obtain ⟨rightFound, between, hrightRun, hrightDone⟩ :=
    load_of_loads hfirst hrightFirst
  obtain rfl : rightResult = rightFound :=
    hrightLoaded.result.trans hrightDone.result.symm
  have hbetween := hrightDone.wellFormed
  -- ... and the left one in what that leaves.
  have hleftSecond := hleftSelf.loads hbetween hleftLoads
    (hleftRoom.sameFrame hrightDone.frame)
  obtain ⟨leftFound, after, hleftRun, hleftDone⟩ :=
    load_of_loads hbetween hleftSecond
  obtain rfl : leftResult = leftFound :=
    hleftLoaded.result.trans hleftDone.result.symm
  refine ⟨between, hrightRun, ?_⟩
  have hsame : after = last := by
    refine eq_of_frame_of_contents hleftDone.wellFormed hrightLoaded.wellFormed
      ?_ ?_
    · exact ((hrightDone.grown hfirst hrightFirst).trans
        (hleftDone.grown hbetween hleftSecond)).frame
          ((hleftLoaded.grown hfirst hleftLoads).trans
            (hrightLoaded.grown hmiddle hrightLoads)) List.perm_append_comm
    · rw [hleftDone.cells hleftSecond, hrightDone.cells hrightFirst,
        hrightLoaded.cells hrightLoads, hleftLoaded.cells hleftLoads]
      have hapart := (List.pairwise_append.mp hboth.apart).2.2
      refine (CellMemory.storeAll_comm fun one hone other hother => ?_).symm
      exact (hleftSelf.within hleftLoads one hone).apart hapart
        (hrightSelf.within hrightLoads other hother)
  rw [← hsame]
  exact hleftRun

end LoadCall

/-- One load of a run, with the result it gave. -/
def LoadStep (step : LoadCall × LoadResult) (before after : AddressSpace) :
    Prop :=
  step.1.call before = .ok step.2 after

theorem loads_perm {steps permuted : List (LoadCall × LoadResult)}
    {last : AddressSpace} (hmemory : memory.WellFormed)
    (hperm : steps.Perm permuted)
    (hself : ∀ step ∈ steps, step.1.SelfContained)
    (hrun : ListRun LoadStep steps memory last) :
    ListRun LoadStep permuted memory last := by
  refine @ListRun.perm _ _ _ WellFormed
    (fun left right => left.1.SelfContained ∧ right.1.SelfContained)
    ?_ (fun _ _ => And.symm) ?_ _ _ hperm ?_ _ _ hmemory hrun
  · intro step before after hbefore hstep
    obtain ⟨_, _, _, _, _, hloaded⟩ := loaded_of_load hbefore hstep
    exact hloaded.wellFormed
  · intro left right first middle last hfirst hpair hleft hright
    exact LoadCall.comm hfirst hpair.1 hpair.2 hleft hright
  · exact List.pairwise_of_forall_mem_list fun left hleft right hright =>
      ⟨hself left hleft, hself right hright⟩

/-- Images that relocate and bind only themselves may be loaded in any order:
the loads go through alike, with the same results and the same memory. -/
theorem loads_in_any_order {steps permuted : List (LoadCall × LoadResult)}
    {last : AddressSpace} (hmemory : memory.Reachable)
    (hperm : steps.Perm permuted)
    (hself : ∀ step ∈ steps, step.1.SelfContained) :
    ListRun LoadStep permuted memory last ↔
      ListRun LoadStep steps memory last :=
  ⟨loads_perm hmemory.wellFormed hperm.symm fun step hstep =>
    hself step (hperm.mem_iff.mpr hstep),
    loads_perm hmemory.wellFormed hperm hself⟩

/-- An image with a relocated pointer, and one without relocations. -/
theorem loads_in_any_order_two :
    let one : LoadCall :=
      { limits := { pageSize := 16 }
        image :=
          { fileData := some [1, 2]
            segments := [{ index := 0, fileSize := 2, virtualAddress := 0x1000,
                           memorySize := 16 }]
            relocations := [{ kind := .relative64, offset := 0x1008 }] } }
    let two : LoadCall :=
      { limits := { pageSize := 16 }
        image :=
          { fileData := some [3, 4]
            segments := [{ index := 0, fileSize := 2, virtualAddress := 0x1010,
                           memorySize := 16 }] } }
    ∃ first second last,
      ListRun LoadStep [(one, first), (two, second)] (new {}) last ∧
        ListRun LoadStep [(two, second), (one, first)] (new {}) last := by
  intro one two
  obtain ⟨first, middle, hfirst⟩ := succeeded_iff.mp (by decide +kernel :
    succeeded (one.call (new {})) = true)
  obtain ⟨second, last, hsecond⟩ := succeeded_iff.mp (by
    rw [show middle = finalState (one.call (new {})) by rw [hfirst]; rfl]
    decide +kernel : succeeded (two.call middle) = true)
  have hrun : ListRun LoadStep [(one, first), (two, second)] (new {}) last :=
    .cons hfirst (.cons hsecond (.nil last))
  refine ⟨first, second, last, hrun,
    (loads_in_any_order ⟨{}, [], rfl⟩ (List.Perm.swap _ _ []) ?_).mpr hrun⟩
  intro step hstep
  simp only [List.mem_cons, List.not_mem_nil, or_false] at hstep
  rcases hstep with rfl | rfl
  · intro data relocated bound hdata hrelocated hbound store hstore _
    obtain rfl := Option.some.inj hdata
    obtain rfl : [⟨0x1008, List.replicate 8 0⟩] = relocated := by
      refine Except.ok.inj (Eq.trans ?_ hrelocated)
      dsimp only
      decide +kernel
    obtain rfl : [] = bound := Except.ok.inj hbound
    obtain rfl := List.mem_singleton.mp hstore
    dsimp only
    decide +kernel
  · intro data relocated bound _ hrelocated hbound store hstore _
    obtain rfl : [] = relocated := Except.ok.inj hrelocated
    obtain rfl : [] = bound := Except.ok.inj hbound
    contradiction

end BinaryLoader
end BinForge
