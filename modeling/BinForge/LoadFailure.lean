import BinForge.LoadedContents

/-!
# What a failed load leaves behind

`load` undoes nothing.  Every step of its three loops fails without a trace,
so the address space after a failure is exactly what the completed steps made
of it: the regions of the segments before the failing one, or all regions with
the slots written before the failing relocation or import.
-/

namespace BinForge

open StatefulExcept
open AddressSpace

namespace RelocationProcessor

variable {image : BinaryImage} {bias : UInt64}
  {resolver : Option SymbolResolver} {memory next : AddressSpace}

theorem applyOne_atomic (relocation : Relocation) :
    Atomic (applyOne relocation image bias resolver) := by
  unfold applyOne
  refine (readOnly_demand _ _).bind_atomic fun target => ?_
  refine (readOnly_liftExcept _).bind_atomic fun symbolValue => ?_
  refine (readOnly_liftExcept _).bind_atomic fun stored => ?_
  cases stored with
  | none => exact (readOnly_pure _).atomic
  | some stored =>
      exact (readOnly_rejectIf _).bind_atomic fun _ =>
        writeInteger_atomic _ _ _ _ _

theorem applyOne_ok_frame {relocation : Relocation} {value : Unit}
    (hrun : applyOne relocation image bias resolver memory = .ok value next) :
    SameFrame memory next := by
  unfold applyOne at hrun
  obtain ⟨target, _, hrun⟩ := demand_bind_eq_ok.mp hrun
  obtain ⟨symbolValue, _, hrun⟩ := liftExcept_bind_eq_ok.mp hrun
  obtain ⟨stored, _, hrun⟩ := liftExcept_bind_eq_ok.mp hrun
  cases stored with
  | none =>
      dsimp only at hrun
      rw [pure_eq_ok] at hrun
      rw [← hrun.2]
      exact SameFrame.refl memory
  | some stored =>
      exact write_ok_frame (writeInteger_ok_write.mp
        (rejectIf_bind_eq_ok.mp hrun).2).2

theorem applyAll_ok_frame {relocations : List Relocation} {count : UInt32}
    (hrun : applyAll image bias resolver relocations memory = .ok count next) :
    SameFrame memory next :=
  tally_ok_related SameFrame hrun (SameFrame.refl memory) SameFrame.trans
    applyOne_ok_frame

theorem applyAll_error {relocations : List Relocation} {why : Failure}
    (hrun : applyAll image bias resolver relocations memory =
      .error why next) :
    ∃ done relocation rest count, relocations = done ++ relocation :: rest ∧
      applyAll image bias resolver done memory = .ok count next ∧
      applyOne relocation image bias resolver next = .error why next :=
  tally_error_split hrun applyOne_atomic

end RelocationProcessor

namespace BinaryLoader

variable {limits : Limits} {image : BinaryImage} {options : LoadOptions}
  {bias : UInt64} {resolver : Option SymbolResolver} {data : Bytes}
  {memory next : AddressSpace} {why : Failure}

/-! ## Import slots -/

theorem bindImport_atomic (imported : Import) :
    Atomic (bindImport image bias resolver imported) := by
  unfold bindImport
  refine (readOnly_liftExcept _).bind_atomic fun target => ?_
  cases target with
  | none => exact (readOnly_pure _).atomic
  | some target =>
      refine (readOnly_demand _ _).bind_atomic fun slot => ?_
      intro state failure next hrun
      rcases bind_eq_error.mp hrun with hwrite | ⟨_, _, _, hreturn⟩
      · exact writeInteger_atomic _ _ _ _ _ state failure next hwrite
      · contradiction

theorem bindImport_ok_frame {imported : Import} {count : UInt32}
    (hrun : bindImport image bias resolver imported memory = .ok count next) :
    SameFrame memory next := by
  unfold bindImport at hrun
  obtain ⟨target, _, hrun⟩ := liftExcept_bind_eq_ok.mp hrun
  cases target with
  | none =>
      dsimp only at hrun
      rw [pure_eq_ok] at hrun
      rw [← hrun.2]
      exact SameFrame.refl memory
  | some target =>
      obtain ⟨slot, _, hrun⟩ := demand_bind_eq_ok.mp hrun
      obtain ⟨_, middle, hwrite, hreturn⟩ := bind_eq_ok.mp hrun
      rw [pure_eq_ok] at hreturn
      exact hreturn.2 ▸ write_ok_frame (writeInteger_ok_write.mp hwrite).2

theorem bindImports_ok_frame {imports : List Import} {count : UInt32}
    (hrun : bindImports image bias resolver imports memory = .ok count next) :
    SameFrame memory next :=
  tally_ok_related SameFrame hrun (SameFrame.refl memory) SameFrame.trans
    bindImport_ok_frame

theorem bindImports_error {imports : List Import}
    (hrun : bindImports image bias resolver imports memory = .error why next) :
    ∃ done imported rest count, imports = done ++ imported :: rest ∧
      bindImports image bias resolver done memory = .ok count next ∧
      bindImport image bias resolver imported next = .error why next :=
  tally_error_split hrun bindImport_atomic

theorem relocateStage_ok_frame {count : UInt32}
    (hrun : relocateStage limits image options resolver memory =
      .ok count next) : SameFrame memory next := by
  unfold relocateStage at hrun
  by_cases henabled : options.applyRelocations = true
  · rw [if_pos henabled] at hrun
    exact RelocationProcessor.applyAll_ok_frame (rejectIf_bind_eq_ok.mp hrun).2
  · rw [if_neg henabled, pure_eq_ok] at hrun
    exact hrun.2 ▸ SameFrame.refl memory

theorem importStage_ok_frame {count : UInt32}
    (hrun : importStage image options resolver memory = .ok count next) :
    SameFrame memory next := by
  unfold importStage at hrun
  by_cases henabled : options.resolveImports = true
  · rw [if_pos henabled] at hrun
    exact bindImports_ok_frame hrun
  · rw [if_neg henabled, pure_eq_ok] at hrun
    exact hrun.2 ▸ SameFrame.refl memory

/-! ## The failing step -/

theorem loadSegments_error (hmemory : memory.WellFormed)
    (hdata : image.fileData = some data) {segments : List Segment}
    (hsegments : ∀ segment ∈ segments,
      BinaryValidator.SegmentValid data segment)
    (hrun : loadSegments limits image options bias segments memory =
      .error why next) :
    ∃ done segment rest, segments = done ++ segment :: rest ∧
      segment.memorySize ≠ 0 ∧
      Extends memory next (segmentRegions limits options data bias done) ∧
      loadSegment limits image options bias segment next = .error why next := by
  obtain ⟨done, segment, rest, mapped, last, rfl, hdone, hfail⟩ :=
    foldlM_error_split hrun
  obtain ⟨hextends, _, _⟩ := loadSegments_ok hmemory hdata
    (fun other hother => hsegments other (List.mem_append_left _ hother)) hdone
  unfold segmentStep at hfail
  by_cases hempty : segment.memorySize = 0
  · rw [if_pos hempty, pure_apply] at hfail
    contradiction
  · rw [if_neg hempty] at hfail
    rcases bind_eq_error.mp hfail with hload | ⟨_, _, _, hreturn⟩
    · obtain rfl := loadSegment_error hextends.wellFormed hdata
        (hsegments segment (by simp)) hload
      exact ⟨done, segment, rest, rfl, hempty, hextends, hload⟩
    · contradiction

/-- The processor's own count limit is the validator's. -/
theorem relocateStage_error (hvalid : BinaryValidator.Valid limits image data)
    (hrun : relocateStage limits image options resolver memory =
      .error why next) :
    options.applyRelocations = true ∧
      ∃ done relocation rest count,
        image.relocations = done ++ relocation :: rest ∧
        RelocationProcessor.applyAll image (loadBias image options) resolver
          done memory = .ok count next ∧
        RelocationProcessor.applyOne relocation image (loadBias image options)
          resolver next = .error why next := by
  unfold relocateStage at hrun
  by_cases henabled : options.applyRelocations = true
  · rw [if_pos henabled, RelocationProcessor.apply,
      rejectIf_bind_of_not (not_lt.mpr hvalid.relocationCount)] at hrun
    exact ⟨henabled, RelocationProcessor.applyAll_error hrun⟩
  · rw [if_neg henabled, pure_apply] at hrun
    contradiction

theorem importStage_error
    (hrun : importStage image options resolver memory = .error why next) :
    options.resolveImports = true ∧
      ∃ done imported rest count, image.imports = done ++ imported :: rest ∧
        bindImports image (loadBias image options) resolver done memory =
          .ok count next ∧
        bindImport image (loadBias image options) resolver imported next =
          .error why next := by
  unfold importStage at hrun
  by_cases henabled : options.resolveImports = true
  · rw [if_pos henabled] at hrun
    exact ⟨henabled, bindImports_error hrun⟩
  · rw [if_neg henabled, pure_apply] at hrun
    contradiction

/-! ## The whole call -/

/-- What `next` is after a failing call, by the step that failed. -/
inductive LoadFailed (limits : Limits) (image : BinaryImage)
    (options : LoadOptions) (resolver : Option SymbolResolver)
    (memory : AddressSpace) (why : Failure) (next : AddressSpace) : Prop
  | invalid (hinvalid : (BinaryValidator.validate limits image).valid = false)
      (hsame : next = memory)
  | segment {data : Bytes} {done : List Segment} {segment : Segment}
      {rest : List Segment} (hdata : image.fileData = some data)
      (hsplit : image.segments = done ++ segment :: rest)
      (hnonempty : segment.memorySize ≠ 0)
      (hmapped : Extends memory next (segmentRegions limits options data
        (loadBias image options) done))
      (hfails : loadSegment limits image options (loadBias image options)
        segment next = .error why next)
  | relocation {data : Bytes} {middle : AddressSpace} {count : UInt32}
      {done : List Relocation} {relocation : Relocation}
      {rest : List Relocation} (hdata : image.fileData = some data)
      (hmapped : Extends memory middle (segmentRegions limits options data
        (loadBias image options) image.segments))
      (henabled : options.applyRelocations = true)
      (hsplit : image.relocations = done ++ relocation :: rest)
      (hdone : RelocationProcessor.applyAll image (loadBias image options)
        resolver done middle = .ok count next)
      (hfails : RelocationProcessor.applyOne relocation image
        (loadBias image options) resolver next = .error why next)
  | importSlot {data : Bytes} {middle relocated : AddressSpace}
      {applied count : UInt32} {done : List Import} {imported : Import}
      {rest : List Import} (hdata : image.fileData = some data)
      (hmapped : Extends memory middle (segmentRegions limits options data
        (loadBias image options) image.segments))
      (hrelocated : relocateStage limits image options resolver middle =
        .ok applied relocated)
      (henabled : options.resolveImports = true)
      (hsplit : image.imports = done ++ imported :: rest)
      (hdone : bindImports image (loadBias image options) resolver done
        relocated = .ok count next)
      (hfails : bindImport image (loadBias image options) resolver imported
        next = .error why next)
  | entryPoint {data : Bytes} {middle relocated : AddressSpace}
      {applied count : UInt32} (hdata : image.fileData = some data)
      (hmapped : Extends memory middle (segmentRegions limits options data
        (loadBias image options) image.segments))
      (hrelocated : relocateStage limits image options resolver middle =
        .ok applied relocated)
      (hbound : importStage image options resolver relocated = .ok count next)
      (hfails : entryPoint image (loadBias image options) = .error why)

/-- Whatever failed, the old address space is still there under new regions,
and at most bytes changed after the segments were mapped. -/
theorem LoadFailed.kept (hmemory : memory.WellFormed)
    (hfailed : LoadFailed limits image options resolver memory why next) :
    ∃ middle regions, Extends memory middle regions ∧
      SameFrame middle next := by
  cases hfailed with
  | invalid _ hsame =>
      exact ⟨memory, [], Extends.refl hmemory, hsame ▸ SameFrame.refl memory⟩
  | segment _ _ _ hmapped _ => exact ⟨next, _, hmapped, SameFrame.refl next⟩
  | relocation _ hmapped _ _ hdone _ =>
      exact ⟨_, _, hmapped, RelocationProcessor.applyAll_ok_frame hdone⟩
  | importSlot _ hmapped hrelocated _ _ hdone _ =>
      exact ⟨_, _, hmapped,
        (relocateStage_ok_frame hrelocated).trans (bindImports_ok_frame hdone)⟩
  | entryPoint _ hmapped hrelocated hbound _ =>
      exact ⟨_, _, hmapped,
        (relocateStage_ok_frame hrelocated).trans (importStage_ok_frame hbound)⟩

theorem loadFailed_of_error (hmemory : memory.WellFormed)
    (hrun : load limits image options resolver memory = .error why next) :
    LoadFailed limits image options resolver memory why next := by
  unfold load at hrun
  by_cases hreport : (BinaryValidator.validate limits image).valid = false
  · rcases bind_eq_error.mp hrun with hreject | ⟨_, _, hpass, _⟩
    · exact .invalid hreport (rejectIf_eq_error.mp hreject).2.2
    · exact absurd hreport (rejectIf_eq_ok.mp hpass).1
  rw [rejectIf_bind_of_not hreport] at hrun
  obtain ⟨data, hdata, hvalid⟩ :=
    BinaryValidator.validate_valid_iff.mp (Bool.not_eq_false _ ▸ hreport)
  rcases bind_eq_error.mp hrun with hsegments | ⟨mapped, middle, hsegments, hrun⟩
  · obtain ⟨done, segment, rest, hsplit, hnonempty, hextends, hfails⟩ :=
      loadSegments_error hmemory hdata hvalid.segments hsegments
    exact .segment hdata hsplit hnonempty hextends hfails
  obtain ⟨hmapped, _, _⟩ :=
    loadSegments_ok hmemory hdata hvalid.segments hsegments
  rcases bind_eq_error.mp hrun with hrelocate | ⟨_, relocated, hrelocate, hrun⟩
  · obtain ⟨henabled, done, relocation, rest, count, hsplit, hdone, hfails⟩ :=
      relocateStage_error hvalid hrelocate
    exact .relocation hdata hmapped henabled hsplit hdone hfails
  rcases bind_eq_error.mp hrun with hbind | ⟨_, bound, hbind, hrun⟩
  · obtain ⟨henabled, done, imported, rest, count, hsplit, hdone, hfails⟩ :=
      importStage_error hbind
    exact .importSlot hdata hmapped hrelocate henabled hsplit hdone hfails
  cases hentry : entryPoint image (loadBias image options) with
  | error failure =>
      rw [liftExcept_bind_of_error hentry] at hrun
      injection hrun with hwhy hstate
      exact .entryPoint hdata hmapped hrelocate (hstate ▸ hbind)
        (hwhy ▸ hentry)
  | ok entry =>
      rw [liftExcept_bind_of_ok hentry] at hrun
      contradiction

/-- A failing load leaves what its completed steps made: nothing for an invalid
image, the segments before the failing one, or all segments and the slots
written since.  The old regions keep their place, size, permissions and name. -/
theorem load_error_leaves (hreachable : memory.Reachable)
    (hrun : load limits image options resolver memory = .error why next) :
    LoadFailed limits image options resolver memory why next ∧
      ∃ middle regions, Extends memory middle regions ∧
        SameFrame middle next :=
  have hfailed := loadFailed_of_error hreachable.wellFormed hrun
  ⟨hfailed, hfailed.kept hreachable.wellFormed⟩

/-- The second segment shares a page with the first. -/
def sharedPageImage : BinaryImage :=
  { fileData := some [1, 2, 3, 4]
    segments :=
      [{ index := 0, fileSize := 4, virtualAddress := 0x1000, memorySize := 4 },
        { index := 1, fileSize := 4, virtualAddress := 0x1008,
          memorySize := 4 }] }

theorem load_error_leaves_first_segment :
    ∃ why next,
      load { pageSize := 16 } sharedPageImage {} none (new {}) =
          .error why next ∧
        LoadFailed { pageSize := 16 } sharedPageImage {} none (new {}) why
          next ∧
        ∃ middle regions, Extends (new {}) middle regions ∧
          SameFrame middle next := by
  obtain ⟨why, next, hrun⟩ := not_succeeded_iff.mp (by decide +kernel :
    succeeded (load { pageSize := 16 } sharedPageImage {} none (new {})) =
      false)
  exact ⟨why, next, hrun, load_error_leaves ⟨{}, [], rfl⟩ hrun⟩

/-- The first segment stays mapped when the second one fails. -/
theorem load_not_atomic :
    ¬∀ limits image options resolver (memory next : AddressSpace) why,
      memory.Reachable →
        load limits image options resolver memory = .error why next →
          next = memory := by
  intro hatomic
  have hchanged : finalState
      (load { pageSize := 16 } sharedPageImage {} none (new {})) ≠ new {} := by
    decide +kernel
  obtain ⟨why, next, hrun⟩ := not_succeeded_iff.mp (by decide +kernel :
    succeeded (load { pageSize := 16 } sharedPageImage {} none (new {})) =
      false)
  rw [hrun, finalState_error] at hchanged
  exact hchanged (hatomic _ _ _ _ _ _ why ⟨{}, [], rfl⟩ hrun)

end BinaryLoader
end BinForge
