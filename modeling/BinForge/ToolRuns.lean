import BinForge.Confined
import BinForge.LoadFailure
import BinForge.PatchApplication
import BinForge.MemoryBudget

/-!
# Runs of the tools over one address space

Loader, relocation processor, patch engine and snapshot codec all work on the
same object through its own calls.  What those calls keep is therefore kept by
every interleaving of the tools, also where one of them stops half way: the
tools reach no state that the primitive calls could not reach by themselves.
-/

namespace BinForge

open StatefulExcept
open ListSplice
open AddressSpace

/-- A call of a component that changes an address space, with its arguments
and the limits it was constructed with. -/
inductive Tool
  | command (command : Command)
  | load (limits : Limits) (image : BinaryImage) (options : LoadOptions)
      (resolver : Option SymbolResolver)
  | relocate (limits : Limits) (image : BinaryImage) (bias : UInt64)
      (resolver : Option SymbolResolver)
  | relocateOne (relocation : Relocation) (image : BinaryImage) (bias : UInt64)
      (resolver : Option SymbolResolver)
  | patch (limits : Limits) (plan : PatchPlan)
  | restore (limits : Limits) (snapshot : MemorySnapshot)

namespace AddressSpace

/-- The object after a tool was used on it, successfully or not. -/
def invoke (memory : AddressSpace) : Tool → AddressSpace
  | .command command => memory.perform command
  | .load limits image options resolver =>
      finalState (BinaryLoader.load limits image options resolver memory)
  | .relocate limits image bias resolver =>
      finalState (RelocationProcessor.apply limits image bias resolver memory)
  | .relocateOne relocation image bias resolver =>
      finalState
        (RelocationProcessor.applyOne relocation image bias resolver memory)
  | .patch limits plan => finalState (PatchEngine.apply limits plan memory)
  | .restore limits snapshot =>
      finalState (MemorySnapshotCodec.restore limits snapshot memory)

def invokeAll (memory : AddressSpace) (tools : List Tool) : AddressSpace :=
  tools.foldl invoke memory

/-- Forced writes that start at an allowed address are confined. -/
def StoresConfined (related : AddressSpace → AddressSpace → Prop)
    (allowed : ℕ → Prop) : Prop :=
  ∀ (address : UInt64) (input : Bytes), allowed address.toNat →
    Confined related (write address input true)

variable {related : AddressSpace → AddressSpace → Prop}
  [IsPreorder AddressSpace related] {allowed : ℕ → Prop}

theorem StoresConfined.writeInteger (hstores : StoresConfined related allowed)
    {address : UInt64} (haddress : allowed address.toNat) (width : UInt8)
    (order : ByteOrder) (value : UInt64) :
    Confined related (writeInteger address width order value true) :=
  Confined.rejectIf_bind fun _ => hstores address _ haddress

end AddressSpace

variable {related : AddressSpace → AddressSpace → Prop}
  [IsPreorder AddressSpace related] {allowed : ℕ → Prop}

/-! ## Relocations -/

namespace RelocationProcessor

variable {limits : Limits} {image : BinaryImage} {bias : UInt64}
  {resolver : Option SymbolResolver}

/-- The relocation stores nothing, or at an allowed address. -/
def Aims (allowed : ℕ → Prop) (bias : UInt64) (relocation : Relocation) : Prop :=
  relocation.kind ≠ .none → allowed (relocation.offset.toNat + bias.toNat)

theorem applyOne_confined (hstores : StoresConfined related allowed)
    {relocation : Relocation} (haims : Aims allowed bias relocation) :
    Confined related (applyOne relocation image bias resolver) := by
  refine Confined.demand_bind fun target htarget => ?_
  refine Confined.liftExcept_bind fun symbol _ => ?_
  refine Confined.liftExcept_bind fun stored hstored => ?_
  cases stored with
  | none => exact (readOnly_pure _).confined
  | some stored =>
      have hkind : relocation.kind ≠ .none := by
        intro hkind
        simp [computeValue, hkind] at hstored
      refine Confined.rejectIf_bind fun _ => hstores.writeInteger ?_ _ _ _
      rw [checkedAdd_toNat htarget]
      exact haims hkind

theorem apply_confined (hstores : StoresConfined related allowed)
    (haims : ∀ relocation ∈ image.relocations, Aims allowed bias relocation) :
    Confined related (apply limits image bias resolver) :=
  Confined.rejectIf_bind fun _ =>
    Confined.tally (fun relocation hrelocation =>
      applyOne_confined hstores (haims relocation hrelocation)) 0

end RelocationProcessor

/-! ## Loading -/

namespace BinaryLoader

variable {limits : Limits} {image : BinaryImage} {options : LoadOptions}
  {bias : UInt64} {resolver : Option SymbolResolver}

theorem bindImport_confined (hstores : StoresConfined related allowed)
    {imported : Import}
    (hslot : allowed (imported.slotAddress.toNat + bias.toNat)) :
    Confined related (bindImport image bias resolver imported) := by
  refine Confined.liftExcept_bind fun target _ => ?_
  cases target with
  | none => exact (readOnly_pure _).confined
  | some target =>
      refine Confined.demand_bind fun slot hplace => ?_
      refine (hstores.writeInteger ?_ _ _ _).bind fun _ =>
        (readOnly_pure _).confined
      rwa [checkedAdd_toNat hplace]

/-- What the relocations and imports of a load write to, if it gets there. -/
structure Aims (allowed : ℕ → Prop) (image : BinaryImage)
    (options : LoadOptions) : Prop where
  relocations : options.applyRelocations = true →
    ∀ relocation ∈ image.relocations,
      RelocationProcessor.Aims allowed (loadBias image options) relocation
  imports : options.resolveImports = true → ∀ imported ∈ image.imports,
    allowed (imported.slotAddress.toNat + (loadBias image options).toNat)

theorem relocateStage_confined (hstores : StoresConfined related allowed)
    (haims : Aims allowed image options) :
    Confined related (relocateStage limits image options resolver) := by
  unfold relocateStage
  by_cases henabled : options.applyRelocations = true
  · rw [if_pos henabled]
    exact RelocationProcessor.apply_confined hstores
      (haims.relocations henabled)
  · rw [if_neg henabled]
    exact (readOnly_pure _).confined

theorem importStage_confined (hstores : StoresConfined related allowed)
    (haims : Aims allowed image options) :
    Confined related (importStage image options resolver) := by
  unfold importStage
  by_cases henabled : options.resolveImports = true
  · rw [if_pos henabled]
    exact Confined.tally (fun imported himported =>
      bindImport_confined hstores (haims.imports henabled imported himported)) 0
  · rw [if_neg henabled]
    exact (readOnly_pure _).confined

/-- A load is confined when its segments and its later stores are. -/
theorem load_confined (hstores : StoresConfined related allowed)
    (haims : Aims allowed image options)
    (hsegments : ∀ segment ∈ image.segments, segment.memorySize ≠ 0 →
      Confined related
        (loadSegment limits image options (loadBias image options) segment)) :
    Confined related (load limits image options resolver) := by
  refine Confined.rejectIf_bind fun _ => Confined.bind ?_ fun _ =>
    (relocateStage_confined hstores haims).bind fun _ =>
      (importStage_confined hstores haims).bind fun _ =>
        Confined.liftExcept_bind fun _ _ => (readOnly_pure _).confined
  refine Confined.foldlM (fun segment hsegment total => ?_) 0
  unfold segmentStep
  by_cases hempty : segment.memorySize = 0
  · rw [if_pos hempty]
    exact (readOnly_pure _).confined
  · rw [if_neg hempty]
    exact (hsegments segment hsegment hempty).bind fun _ =>
      (readOnly_pure _).confined

/-- What the segment loop does once the pages are mapped. -/
def fillSegment (image : BinaryImage) (segment : Segment)
    (address size : UInt64) : MemoryCall UInt64 := do
  if segment.fileSize ≠ 0 then
    let unavailable := failure .fileRangeOverflow segment.fileOffset
      "segment data unavailable"
    let data ← demand image.fileData unavailable
    rejectIf (rangeInside segment.fileOffset.toNat segment.fileSize.toNat
      data.length = false) unavailable
    AddressSpace.write address
      (slice data segment.fileOffset.toNat segment.fileSize.toNat) true
  return size

theorem loadSegment_eq (segment : Segment) :
    loadSegment limits image options bias segment =
      liftExcept (segmentPages limits bias segment) >>= fun pages =>
        AddressSpace.map pages.2.1 pages.2.2
            (initialPermissions options segment) (segmentName segment) >>=
          fun _ => fillSegment image segment pages.1 pages.2.2 := rfl

theorem fillSegment_confined {segment : Segment} {address : UInt64}
    (hwrite : ∀ input, Confined related (write address input true))
    (size : UInt64) :
    Confined related (fillSegment image segment address size) := by
  unfold fillSegment
  by_cases hsize : segment.fileSize = 0
  · rw [if_neg (not_not.mpr hsize)]
    exact (readOnly_pure _).confined
  · rw [if_pos hsize]
    refine Confined.demand_bind fun data _ => Confined.rejectIf_bind fun _ => ?_
    exact (hwrite _).bind fun _ => (readOnly_pure _).confined

/-- A segment is mapped and filled by one call each. -/
theorem loadSegment_confined {segment : Segment}
    (hmap : ∀ base size name, Confined related
      (map base size (initialPermissions options segment) name))
    (hwrite : ∀ address input, Confined related (write address input true)) :
    Confined related (loadSegment limits image options bias segment) := by
  rw [loadSegment_eq]
  refine Confined.liftExcept_bind fun pages _ => (hmap _ _ _).bind fun _ => ?_
  exact fillSegment_confined (hwrite _) _

end BinaryLoader

/-! ## Patches -/

namespace PatchEngine

variable {limits : Limits}

/-- The operation writes nothing, or at an allowed address. -/
def Aims (allowed : ℕ → Prop) (operation : PatchOperation) : Prop :=
  operation.kind ≠ .assertBytes → allowed operation.address.toNat

theorem performOperation_confined (hstores : StoresConfined related allowed)
    {operation : PatchOperation} (haims : Aims allowed operation) :
    Confined related (performOperation operation) := by
  unfold performOperation
  cases hkind : operation.kind with
  | writeBytes => exact hstores _ _ (haims (by simp [hkind]))
  | fillBytes => exact hstores _ _ (haims (by simp [hkind]))
  | writeInteger => exact hstores.writeInteger (haims (by simp [hkind])) _ _ _
  | copyBytes =>
      exact (read_readOnly _ _).confined.bind fun _ =>
        hstores _ _ (haims (by simp [hkind]))
  | assertBytes => exact (readOnly_pure _).confined

theorem rollback_confined (hstores : StoresConfined related allowed)
    {undo : List Undo} (hundo : ∀ entry ∈ undo, allowed entry.address.toNat)
    (memory : AddressSpace) : related memory (rollback undo memory) := by
  induction undo generalizing memory with
  | nil => exact refl_of related memory
  | cons entry undo ih =>
      obtain ⟨hentry, hrest⟩ := List.forall_mem_cons.mp hundo
      rw [rollback_cons]
      exact trans_of related (hstores _ entry.bytes hentry memory)
        (ih hrest _)

/-- The rollback writes where operations have been written before. -/
theorem applyOperations_confined (hstores : StoresConfined related allowed)
    {undo : List Undo} (hundo : ∀ entry ∈ undo, allowed entry.address.toNat)
    {operations : List PatchOperation}
    (haims : ∀ operation ∈ operations, Aims allowed operation)
    (result : PatchResult) :
    Confined related (applyOperations undo result operations) := by
  induction operations generalizing undo result with
  | nil => exact (readOnly_pure _).confined
  | cons operation rest ih =>
      obtain ⟨hoperation, hrest⟩ := List.forall_mem_cons.mp haims
      have hback := rollback_confined hstores hundo
      refine ((read_readOnly _ _).confined.withCleanup hback).bind fun before => ?_
      by_cases hkind : operation.kind = .assertBytes
      · rw [if_pos hkind]
        exact ((readOnly_rejectIf _).confined.withCleanup hback).bind fun _ =>
          ih hundo hrest _
      · rw [if_neg hkind]
        have hpushed : ∀ entry ∈ (⟨operation.address, before⟩ :: undo : List Undo),
            allowed entry.address.toNat :=
          List.forall_mem_cons.mpr ⟨hoperation hkind, hundo⟩
        exact ((performOperation_confined hstores hoperation).withCleanup
          (rollback_confined hstores hpushed)).bind fun _ =>
            ih hpushed hrest _

theorem apply_confined (hstores : StoresConfined related allowed)
    {plan : PatchPlan}
    (haims : ∀ operation ∈ plan.operations, Aims allowed operation) :
    Confined related (apply limits plan) := by
  refine (readOnly_get).confined.bind fun memory => ?_
  refine Confined.liftExcept_bind fun _ _ => Confined.rejectIf_bind fun _ => ?_
  refine (applyOperations_confined hstores (by simp) haims {}).bind fun _ => ?_
  exact (readOnly_get.bind fun _ => readOnly_pure _).confined

end PatchEngine

/-! ## Restores -/

namespace MemorySnapshotCodec

theorem restoreRegions_confined {limits : Limits}
    {sources : List SnapshotRegion}
    (hmap : ∀ source ∈ sources, Confined related
      (map source.base source.size source.permissions source.name))
    (hwrite : ∀ address input, Confined related (write address input true))
    (total : UInt64) :
    Confined related (restoreRegions limits total sources) := by
  induction sources generalizing total with
  | nil => exact (readOnly_pure _).confined
  | cons source rest ih =>
      obtain ⟨hsource, hrest⟩ := List.forall_mem_cons.mp hmap
      refine Confined.rejectIf_bind fun _ => Confined.demand_bind fun next _ => ?_
      refine Confined.rejectIf_bind fun _ => hsource.bind fun _ => ?_
      by_cases hbytes : source.bytes = []
      · rw [if_neg (not_not.mpr hbytes)]
        exact ih hrest next
      · rw [if_pos hbytes]
        exact Confined.rejectIf_bind fun _ =>
          (hwrite _ _).bind fun _ => ih hrest next

/-- A restore leaves the object alone or moves a staged one over it. -/
theorem restore_cases (limits : Limits) (snapshot : MemorySnapshot)
    (memory : AddressSpace) :
    finalState (restore limits snapshot memory) = memory ∨
      ∃ total, restoreRegions limits 0 snapshot.regions (new limits) =
        .ok total (finalState (restore limits snapshot memory)) := by
  cases hrun : restore limits snapshot memory with
  | error why next =>
      exact Or.inl (restore_atomic limits snapshot memory why next hrun)
  | ok value next =>
      obtain ⟨_, hrun⟩ := rejectIf_bind_eq_ok.mp hrun
      obtain ⟨staged, hstaged, hset⟩ := liftExcept_bind_eq_ok.mp hrun
      rw [set_apply, EStateM.Result.ok.injEq] at hset
      obtain ⟨_, rfl⟩ := hset
      obtain ⟨last, hstage⟩ := evaluate_eq_ok.mp hstaged
      obtain ⟨total, middle, hregions, hrest⟩ := bind_eq_ok.mp hstage
      obtain ⟨_, hget⟩ := rejectIf_bind_eq_ok.mp hrest
      rw [get_apply, EStateM.Result.ok.injEq] at hget
      rw [hget.1] at hregions
      exact Or.inr ⟨total, hregions⟩

end MemorySnapshotCodec

/-! ## Reachable states -/

namespace AddressSpace

theorem Reachable.perform {memory : AddressSpace} (hmemory : memory.Reachable)
    (command : Command) : (memory.perform command).Reachable := by
  obtain ⟨limits, commands, rfl⟩ := hmemory
  exact ⟨limits, commands ++ [command], by rw [run, run, List.foldl_append]; rfl⟩

theorem command_keeps_reachable (command : Command) :
    Confined (Keeps Reachable) command.call :=
  fun _ hmemory => hmemory.perform command

theorem map_keeps_reachable (base size : UInt64) (permissions : UInt8)
    (name : Bytes) : Confined (Keeps Reachable) (map base size permissions name) :=
  command_keeps_reachable (.map base size permissions name)

theorem write_keeps_reachable (address : UInt64) (input : Bytes) :
    Confined (Keeps Reachable) (write address input true) :=
  command_keeps_reachable (.write address input true)

theorem invoke_keeps_reachable (tool : Tool) (memory : AddressSpace) :
    Keeps Reachable memory (memory.invoke tool) := by
  have hstores : StoresConfined (Keeps Reachable) fun _ => True :=
    fun address input _ => write_keeps_reachable address input
  cases tool with
  | command command => exact command_keeps_reachable command memory
  | load limits image options resolver =>
      refine BinaryLoader.load_confined hstores ⟨?_, ?_⟩ ?_ memory
      · exact fun _ _ _ _ => trivial
      · exact fun _ _ _ => trivial
      · exact fun _ _ _ => BinaryLoader.loadSegment_confined
          (fun base size name => map_keeps_reachable base size _ name)
          write_keeps_reachable
  | relocate limits image bias resolver =>
      exact RelocationProcessor.apply_confined hstores
        (fun _ _ _ => trivial) memory
  | relocateOne relocation image bias resolver =>
      exact RelocationProcessor.applyOne_confined hstores
        (fun _ => trivial) memory
  | patch limits plan =>
      exact PatchEngine.apply_confined hstores (fun _ _ _ => trivial) memory
  | restore limits snapshot =>
      rcases MemorySnapshotCodec.restore_cases limits snapshot memory with
        hsame | ⟨total, hregions⟩
      · rw [invoke, hsame]
        exact id
      · intro _
        refine (MemorySnapshotCodec.restoreRegions_confined (fun _ _ =>
          map_keeps_reachable _ _ _ _) write_keeps_reachable 0).of_ok hregions ?_
        exact ⟨limits, [], rfl⟩

/-- No interleaving of the tools, completed or stopped half way, leads to a
state that the primitive calls alone could not have made; in particular none
breaks the invariant of the address space. -/
theorem invokeAll_reachable (limits : Limits) (tools : List Tool) :
    ((new limits).invokeAll tools).Reachable ∧
      ((new limits).invokeAll tools).WellFormed :=
  have hreachable : ((new limits).invokeAll tools).Reachable :=
    foldl_keeps (fun tool _ memory => invoke_keeps_reachable tool memory)
      ⟨limits, [], rfl⟩
  ⟨hreachable, hreachable.wellFormed⟩

end AddressSpace
end BinForge
