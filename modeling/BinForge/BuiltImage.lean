import BinForge.SectionLayout
import BinForge.LoadedSegment
import BinForge.RelatedLists

/-!
# Built images in memory

A successful build follows the layout: its file is the laid-out file, its
sections are at their spots and its segments cover the runs.  Loading the image
where it was linked therefore shows every section as built exactly when the
layout is in step.
-/

namespace BinForge

open StatefulExcept
open MachineInteger
open Alignment

namespace BinaryImageBuilder

variable {limits : Limits} {options : BuilderOptions} {state next : BuildState}
  {layout : SectionLayout}

/-! ## One section -/

/-- The segment covers the run, in the file and in memory. -/
structure Covers (run : SegmentRun) (segment : Segment) : Prop where
  file : segment.fileOffset.toNat = run.first.file
  fileEnd : run.first.file + segment.fileSize.toNat = run.last.fileEnd
  memory : segment.virtualAddress.toNat = run.first.memory
  memoryEnd : run.first.memory + segment.memorySize.toNat = run.last.memoryEnd
  permissions : segment.permissions = run.first.source.permissions

/-- The section is its spot's. -/
structure IsAt (spot : Spot) (item : Section) : Prop where
  file : item.fileOffset.toNat = spot.file
  fileEnd : spot.file + item.fileSize.toNat = spot.fileEnd
  memory : item.virtualAddress.toNat = spot.memory
  memoryEnd : spot.memory + item.memorySize.toNat = spot.memoryEnd
  permissions : item.permissions = spot.source.permissions

theorem isAt_of_sizes {spot : Spot} {item : Section}
    (hfile : item.fileOffset.toNat = spot.file)
    (hmemory : item.virtualAddress.toNat = spot.memory)
    (hfileSize : item.fileSize.toNat = spot.source.data.length)
    (hmemorySize : item.memorySize.toNat =
      spot.source.data.length + spot.source.zeroFill.toNat)
    (hpermissions : item.permissions = spot.source.permissions) :
    IsAt spot item :=
  ⟨hfile, by rw [hfileSize]; rfl, hmemory,
    by rw [hmemorySize, ← Nat.add_assoc]; rfl, hpermissions⟩

theorem covers_single {spot : Spot} {item : Section} {segment : Segment}
    (hitem : IsAt spot item) (hfile : segment.fileOffset = item.fileOffset)
    (hfileSize : segment.fileSize = item.fileSize)
    (hmemory : segment.virtualAddress = item.virtualAddress)
    (hmemorySize : segment.memorySize = item.memorySize)
    (hpermissions : segment.permissions = item.permissions) :
    Covers { first := spot } segment := by
  refine ⟨?_, ?_, ?_, ?_, ?_⟩
  · rw [hfile, hitem.file]
  · rw [hfileSize]
    exact hitem.fileEnd
  · rw [hmemory, hitem.memory]
  · rw [hmemorySize]
    exact hitem.memoryEnd
  · rw [hpermissions, hitem.permissions]

theorem placeInSegment_ok {alignment position : UInt64} {spot : Spot}
    {item : Section} {segments grown : List Segment} {runs : List SegmentRun}
    (hitem : IsAt spot item) (hcovers : List.Forall₂ Covers runs segments.reverse)
    (hle : ∀ run ∈ runs.head?, run.first.file ≤ spot.fileEnd ∧
      run.first.memory ≤ spot.memoryEnd)
    (hrun : placeInSegment options alignment item position segments =
      .ok grown) :
    List.Forall₂ Covers (SectionLayout.addSpot options spot runs)
      grown.reverse := by
  rcases List.eq_nil_or_concat segments with rfl | ⟨front, last, rfl⟩
  · rw [List.reverse_nil, List.forall₂_nil_right_iff] at hcovers
    subst hcovers
    obtain rfl := Except.ok.inj hrun
    exact .cons (covers_single hitem rfl rfl rfl rfl rfl) .nil
  · rw [List.concat_eq_append, List.reverse_append, List.reverse_singleton,
      List.singleton_append, List.forall₂_cons_right_iff] at hcovers
    obtain ⟨run, runs, hlast, hfront, rfl⟩ := hcovers
    unfold placeInSegment startsSegment at hrun
    rw [List.concat_eq_append, List.getLast?_concat, List.dropLast_concat] at hrun
    dsimp only at hrun
    rw [SectionLayout.addSpot, ← hlast.permissions, ← hitem.permissions]
    by_cases hstarts : (options.separatePermissions &&
        last.permissions != item.permissions) = true
    · rw [hstarts] at hrun
      obtain rfl := Except.ok.inj hrun
      rw [if_pos hstarts, List.reverse_append, List.reverse_singleton,
        List.singleton_append, List.reverse_append, List.reverse_singleton,
        List.singleton_append]
      exact .cons (covers_single hitem rfl rfl rfl rfl rfl)
        (.cons hlast hfront)
    · rw [Bool.not_eq_true] at hstarts
      rw [hstarts] at hrun
      dsimp only at hrun
      simp only [demand_except_bind_eq_ok] at hrun
      obtain ⟨fileEnd, hfileEnd, memoryEnd, hmemoryEnd, hrun⟩ := hrun
      obtain rfl := Except.ok.inj hrun
      rw [if_neg (by simp [hstarts]), List.reverse_append,
        List.reverse_singleton, List.singleton_append]
      refine .cons ?_ hfront
      obtain ⟨hfile, hmemory⟩ := hle run rfl
      have hfileStop := checkedAdd_toNat hfileEnd
      have hmemoryStop := checkedAdd_toNat hmemoryEnd
      rw [hitem.file, hitem.fileEnd] at hfileStop
      rw [hitem.memory, hitem.memoryEnd] at hmemoryStop
      have hfileFirst := hlast.file
      have hmemoryFirst := hlast.memory
      refine ⟨hfileFirst, ?_, hmemoryFirst, ?_, hlast.permissions⟩
      · rw [SegmentRun.join_first, SegmentRun.join_last,
          UInt64.toNat_sub_of_le _ _ (UInt64.le_iff_toNat_le.mpr (by omega))]
        omega
      · rw [SegmentRun.join_first, SegmentRun.join_last,
          UInt64.toNat_sub_of_le _ _ (UInt64.le_iff_toNat_le.mpr (by omega))]
        omega

/-! ## The section loop -/

/-- The loop has built what is laid out. -/
structure Follows (state : BuildState) (layout : SectionLayout) : Prop where
  storage : state.storage = layout.file
  fileCursor : state.fileCursor.toNat = layout.file.length
  memoryCursor : state.memoryCursor.toNat = layout.memoryCursor
  sections : List.Forall₂ IsAt layout.spots state.sections
  segments : List.Forall₂ Covers layout.runs state.segments.reverse

theorem resize_of_le {bytes : Bytes} {size : ℕ} (hle : bytes.length ≤ size) :
    resize bytes size = bytes ++ List.replicate (size - bytes.length) 0 := by
  rw [resize, List.take_of_length_le hle]

theorem placeSection_ok (hfile : options.fileAlignment ≠ 0)
    (hmemory : options.memoryAlignment ≠ 0) (hsound : layout.Sound)
    (hfollows : Follows state layout) {item : BuilderSection × ℕ}
    (hrun : placeSection limits options state item = .ok next) :
    Follows next (SectionLayout.add options layout item.1) := by
  obtain ⟨source, index⟩ := item
  show Follows next (SectionLayout.add options layout source)
  simp only [placeSection, demand_except_bind_eq_ok,
    rejectIf_except_bind_eq_ok] at hrun
  obtain ⟨fileOffset, hoffset, virtualAddress, haddress, hroom, memorySize,
    hsize, hrun⟩ := hrun
  obtain ⟨segments, hsegments, hrun⟩ := except_bind_eq_ok.mp hrun
  simp only [demand_except_bind_eq_ok] at hrun
  obtain ⟨fileCursor, hfileCursor, memoryCursor, hmemoryCursor, hrun⟩ := hrun
  obtain rfl := Except.ok.inj hrun
  obtain ⟨hfileLe, hmemoryLe⟩ :=
    @SectionLayout.le_spotFor options layout source hfile hmemory
  have hoffset := (checkedAlignUp_eq_some.mp hoffset).2.2
  have haddress := (checkedAlignUp_eq_some.mp haddress).2.2
  rw [hfollows.fileCursor] at hoffset
  rw [hfollows.memoryCursor] at haddress
  have hlength : (UInt64.ofNat source.data.length).toNat =
      source.data.length := by
    have hlt := (limits.maxFileSize - fileOffset).toNat_lt
    exact UInt64.toNat_ofNat_of_lt' (by rw [UInt64.size]; omega)
  have hsize := checkedAdd_toNat hsize
  have hfileCursor := checkedAdd_toNat hfileCursor
  have hmemoryCursor := checkedAdd_toNat hmemoryCursor
  rw [hlength] at hsize hfileCursor
  have hspotFile : fileOffset.toNat =
      (SectionLayout.spotFor options layout source).file := hoffset
  have hspotMemory : virtualAddress.toNat =
      (SectionLayout.spotFor options layout source).memory := haddress
  rw [hspotFile] at hfileCursor
  rw [hspotMemory] at hmemoryCursor
  have hfileEnd : fileCursor.toNat =
      (SectionLayout.spotFor options layout source).fileEnd := hfileCursor
  have hmemoryEnd : memoryCursor.toNat =
      (SectionLayout.spotFor options layout source).memoryEnd := by
    rw [hmemoryCursor, hsize, ← Nat.add_assoc]
    rfl
  refine ⟨?_, ?_, hmemoryEnd, ?_, ?_⟩
  · rw [hfollows.storage, hspotFile, resize_of_le hfileLe]
    rfl
  · rw [hfileEnd, (SectionLayout.add_file hfileLe).1]
  · rw [SectionLayout.add_spots]
    exact List.rel_append hfollows.sections (.cons
      (isAt_of_sizes hspotFile hspotMemory hlength hsize rfl) .nil)
  · refine placeInSegment_ok
      (isAt_of_sizes hspotFile hspotMemory hlength hsize rfl)
      hfollows.segments (fun run hrun => ?_) hsegments
    have hlaid := hsound.runs run (List.mem_of_mem_head? hrun)
    obtain ⟨hfileStop, hmemoryStop⟩ := hsound.current run hrun
    obtain ⟨hfileFirst, hmemoryFirst⟩ := hlaid.le_last run.first_mem
    unfold Spot.fileEnd at hfileFirst hfileStop ⊢
    unfold Spot.memoryEnd at hmemoryFirst hmemoryStop ⊢
    omega

theorem placeSections_ok (hfile : options.fileAlignment ≠ 0)
    (hmemory : options.memoryAlignment ≠ 0)
    {sections : List BuilderSection} {start : BuildState}
    (hstart : Follows start (SectionLayout.ofSections options []))
    (hrun : sections.zipIdx.foldlM (placeSection limits options) start =
      .ok state) :
    Follows state (SectionLayout.ofSections options sections) := by
  have hall := foldlM_except_induction (fun done state =>
    Follows state (SectionLayout.ofSections options (done.map Prod.fst)))
    hrun hstart ?_
  · rwa [List.zipIdx_map_fst] at hall
  · intro done item rest carried passed _ hfollows hstep
    rw [List.map_append, List.map_singleton, SectionLayout.ofSections_append]
    exact placeSection_ok hfile hmemory
      (SectionLayout.ofSections_sound hfile hmemory _) hfollows hstep

/-! ## The whole build -/

theorem build_eq_ok {builder : BinaryImageBuilder} {image : BinaryImage}
    (hrun : build builder options = .ok image) :
    (options.fileAlignment ≠ 0 ∧ options.memoryAlignment ≠ 0) ∧
      (BinaryValidator.validate builder.limits image).valid = true ∧
      ∃ state, builder.sections.zipIdx.foldlM
          (placeSection builder.limits options)
          { memoryCursor := options.imageBase } = .ok state ∧
        image = builtImage builder options state := by
  simp only [build, rejectIf_except_bind_eq_ok] at hrun
  obtain ⟨halignments, hrun⟩ := hrun
  simp only [BinaryValidator.badAlignment, not_or] at halignments
  obtain ⟨⟨hfile, _⟩, ⟨hmemory, _⟩, _⟩ := halignments
  obtain ⟨state, hsections, hrun⟩ := except_bind_eq_ok.mp hrun
  obtain ⟨haccepted, hrun⟩ := rejectIf_except_bind_eq_ok.mp hrun
  obtain rfl := Except.ok.inj hrun
  rw [Bool.not_eq_false] at haccepted
  exact ⟨⟨hfile, hmemory⟩, haccepted, state, hsections, rfl⟩

theorem build_ok {builder : BinaryImageBuilder} {image : BinaryImage}
    (hrun : build builder options = .ok image) :
    options.fileAlignment ≠ 0 ∧ options.memoryAlignment ≠ 0 ∧
      ∃ state, image = builtImage builder options state ∧
        Follows state (SectionLayout.ofSections options builder.sections) := by
  obtain ⟨⟨hfile, hmemory⟩, -, state, hsections, himage⟩ := build_eq_ok hrun
  exact ⟨hfile, hmemory, state, himage, placeSections_ok hfile hmemory
    ⟨rfl, rfl, rfl, .nil, .nil⟩ hsections⟩

/-- Memory shows the section's data at its address and zeros behind it. -/
structure ShownAt (memory : AddressSpace) (built : Section)
    (source : BuilderSection) : Prop where
  data : ∀ i < source.data.length,
    memory.contents (built.virtualAddress.toNat + i) = source.data[i]?
  zeros : ∀ i < source.zeroFill.toNat,
    memory.contents (built.virtualAddress.toNat + source.data.length + i) =
      some 0

theorem shownAt_iff {memory : AddressSpace} {spot : Spot} {built : Section}
    (hbuilt : IsAt spot built) :
    ShownAt memory built spot.source ↔ spot.Loaded memory.contents := by
  have hplace := hbuilt.memory
  constructor
  · rintro ⟨hdata, hzeros⟩
    rw [hplace] at hdata hzeros
    exact ⟨hdata, hzeros⟩
  · rintro ⟨hdata, hzeros⟩
    rw [← hplace] at hdata hzeros
    exact ⟨hdata, hzeros⟩

theorem shown_iff_loaded {memory : AddressSpace} {spots : List Spot}
    {built : List Section} (hbuilt : List.Forall₂ IsAt spots built) :
    (∀ (j : ℕ) source, (spots.map Spot.source)[j]? = some source →
      ∃ item, built[j]? = some item ∧ ShownAt memory item source) ↔
    ∀ spot ∈ spots, spot.Loaded memory.contents := by
  induction hbuilt with
  | nil => simp
  | @cons spot item spots built hitem _ ih =>
      rw [List.forall_mem_cons, ← ih, ← shownAt_iff hitem]
      constructor
      · intro hall
        refine ⟨?_, fun j => hall (j + 1)⟩
        obtain ⟨_, ⟨⟩, hshown⟩ := hall 0 spot.source rfl
        exact hshown
      · rintro ⟨hhead, htail⟩ j source hsource
        cases j with
        | zero =>
            obtain rfl := Option.some.inj hsource
            exact ⟨item, rfl, hhead⟩
        | succ j => exact htail j source hsource

theorem blockLoaded_of_load {image : BinaryImage} {loaderLimits : Limits}
    {loadOptions : LoadOptions} {resolver : Option SymbolResolver}
    {memory loaded : AddressSpace} {result : LoadResult}
    (hreachable : memory.Reachable) (hbase : loadOptions.preferredBase = 0)
    (hrelocate : loadOptions.applyRelocations = false)
    (hresolve : loadOptions.resolveImports = false)
    (hrun : BinaryLoader.load loaderLimits image loadOptions resolver memory =
      .ok result loaded) {file : Bytes} (hfile : image.fileData = some file)
    {run : SegmentRun} {segment : Segment} (hsegment : segment ∈ image.segments)
    (hcovers : Covers run segment) :
    run.BlockLoaded file loaded.contents := by
  obtain ⟨data, hdata, hvalid, _, hsegments, hsame⟩ := BinaryLoader.load_ok hrun
  obtain rfl := hsame hrelocate hresolve
  rw [hfile] at hdata
  obtain rfl := Option.some.inj hdata
  have hbias : BinaryLoader.loadBias image loadOptions = 0 :=
    BinaryLoader.loadBias_eq_zero_iff.mpr (Or.inl hbase)
  have hend := hcovers.memoryEnd
  have hfileEnd := hcovers.fileEnd
  intro x hx
  by_cases hempty : segment.memorySize = 0
  · rw [hempty, UInt64.toNat_zero] at hend
    omega
  · have hbytes := (BinaryLoader.segmentLoaded_of_loadSegments
      hreachable.wellFormed hfile hvalid.segments hsegments hsegment
      hempty).bytes x (by omega)
    rw [hbias, UInt64.toNat_zero, Nat.add_zero, hcovers.memory, hcovers.file]
      at hbytes
    rw [hbytes, SegmentRun.block, ← hfileEnd]
    simp only [Nat.add_lt_add_iff_left]

/-- A built image loaded where it was linked shows every section as built
exactly when, in each segment, the sections that hold anything but zeros are
displaced like the first one. -/
theorem build_load_iff {builder : BinaryImageBuilder} {image : BinaryImage}
    {loaderLimits : Limits} {loadOptions : LoadOptions}
    {resolver : Option SymbolResolver} {memory loaded : AddressSpace}
    {result : LoadResult} (hbuild : build builder options = .ok image)
    (hreachable : memory.Reachable) (hbase : loadOptions.preferredBase = 0)
    (hrelocate : loadOptions.applyRelocations = false)
    (hresolve : loadOptions.resolveImports = false)
    (hrun : BinaryLoader.load loaderLimits image loadOptions resolver memory =
      .ok result loaded) :
    (∀ (j : ℕ) source, builder.sections[j]? = some source →
      ∃ built, image.sections[j]? = some built ∧
        ShownAt loaded built source) ↔
      (SectionLayout.ofSections options builder.sections).InStep := by
  obtain ⟨hfile, hmemory, state, himage, hfollows⟩ := build_ok hbuild
  have hsections : image.sections = state.sections := himage ▸ rfl
  have hdata : image.fileData =
      some (SectionLayout.ofSections options builder.sections).file := by
    rw [himage, ← hfollows.storage]
    rfl
  rw [← SectionLayout.loaded_iff_inStep
    (SectionLayout.ofSections_sound hfile hmemory builder.sections) ?_,
    ← shown_iff_loaded hfollows.sections, SectionLayout.ofSections_sources,
    hsections]
  intro run hmem
  obtain ⟨segment, hsegment, hcovers⟩ := RelatedLists.exists_right hfollows.segments hmem
  refine blockLoaded_of_load hreachable hbase hrelocate hresolve hrun hdata
    ?_ hcovers
  rw [himage]
  exact List.mem_reverse.mp hsegment

/-- Two one-byte sections of one segment. -/
def twoSections : BinaryImageBuilder :=
  (new {}).run
    [.addSection { name := "a", data := [1] },
      .addSection { name := "b", data := [2], zeroFill := 3 }]

def smallPages : Limits := { pageSize := 16 }

/-- Equal alignments keep the sections in step. -/
theorem build_load_iff_two_sections :
    let options : BuilderOptions :=
      { imageBase := 0x1000, fileAlignment := 32, memoryAlignment := 32 }
    let loadOptions : LoadOptions :=
      { applyRelocations := false, resolveImports := false }
    ∃ image, build twoSections options = .ok image ∧
      ∃ result loaded, BinaryLoader.load smallPages image loadOptions none
          (AddressSpace.new {}) = .ok result loaded ∧
        ((∀ (j : ℕ) source, twoSections.sections[j]? = some source →
            ∃ built, image.sections[j]? = some built ∧
              ShownAt loaded built source) ↔
          (SectionLayout.ofSections options twoSections.sections).InStep) := by
  intro options loadOptions
  obtain ⟨image, hbuild, hload⟩ := toOption_bind_eq_some.mp (by decide +kernel :
    (build twoSections options).toOption.bind (fun image =>
      some (succeeded (BinaryLoader.load smallPages image loadOptions none
        (AddressSpace.new {})))) = some true)
  obtain ⟨result, loaded, hrun⟩ := succeeded_iff.mp (Option.some.inj hload)
  exact ⟨image, hbuild, result, loaded, hrun,
    build_load_iff hbuild ⟨{}, [], rfl⟩ rfl rfl rfl hrun⟩

/-- With a finer alignment in the file, the second section is loaded below its
address. -/
theorem build_load_misplaces_section :
    ¬∀ limits commands options image loaderLimits loadOptions resolver
        (memory loaded : AddressSpace) result,
      build ((new limits).run commands) options = .ok image →
      memory.Reachable → loadOptions.preferredBase = 0 →
      loadOptions.applyRelocations = false →
      loadOptions.resolveImports = false →
      BinaryLoader.load loaderLimits image loadOptions resolver memory =
        .ok result loaded →
      ∀ (j : ℕ) source, ((new limits).run commands).sections[j]? = some source →
        ∃ built, image.sections[j]? = some built ∧
          ShownAt loaded built source := by
  intro hall
  let options : BuilderOptions := { imageBase := 0x1000, memoryAlignment := 32 }
  let loadOptions : LoadOptions :=
    { applyRelocations := false, resolveImports := false }
  obtain ⟨image, hbuild, hview⟩ := toOption_bind_eq_some.mp (by decide +kernel :
    (build twoSections options).toOption.bind (fun image =>
      let run := BinaryLoader.load smallPages image loadOptions none
        (AddressSpace.new {})
      some (succeeded run, image.sections[1]?.map Section.virtualAddress,
        (finalState run).contents 0x1020)) =
      some (true, some 0x1020, some 0))
  simp only [Option.some.injEq, Prod.mk.injEq] at hview
  obtain ⟨hsucceeded, haddress, hbyte⟩ := hview
  obtain ⟨result, loaded, hrun⟩ := succeeded_iff.mp hsucceeded
  rw [hrun, finalState_ok] at hbyte
  obtain ⟨built, hbuilt, hshown⟩ := hall _ _ _ _ _ _ _ _ _ _ hbuild
    ⟨{}, [], rfl⟩ rfl rfl rfl hrun 1
    { name := "b", data := [2], zeroFill := 3 } (by decide +kernel)
  rw [hbuilt, Option.map_some, Option.some.injEq] at haddress
  have hdata := hshown.data 0 (by decide)
  rw [haddress] at hdata
  exact absurd (hbyte.symm.trans hdata) (by decide)

end BinaryImageBuilder
end BinForge
