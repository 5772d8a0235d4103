import BinForge.ToolRuns
import BinForge.LoadedSegment

/-!
# What runs of the tools keep

Two properties of every run.  No region becomes writable and executable at
once as long as nobody asks for it, the loader's own relaxation of the declared
permissions included.  And a region that no forced write starts in, and that
no call renames, removes or replaces, comes out of the run as it went in,
whatever is loaded, patched and relocated around it.
-/

namespace BinForge

open StatefulExcept
open AddressSpace

namespace AddressSpace

variable {memory next : AddressSpace}

/-! ## The regions after a call -/

theorem map_ok_mem (hmemory : memory.WellFormed) {base size : UInt64}
    {permissions : UInt8} {name : Bytes} {value : Unit}
    (hrun : map base size permissions name memory = .ok value next)
    {entry : UInt64 × MemoryRegion} :
    entry ∈ next.regions.entries ↔
      entry = (base, freshRegion base size permissions name) ∨
        entry ∈ memory.regions.entries := by
  obtain ⟨hsize, hbounded, _, _, habove, hbelow, rfl⟩ := map_eq_ok.mp hrun
  exact OrderedMap.mem_emplace (hmemory.absent_of_disjoint
    (freshRegion base size permissions name) (size_pos_of_ne_zero hsize)
    ((hmemory.overlaps_iff hsize hbounded).mp ⟨habove, hbelow⟩))

/-- A write changes the bytes of the region it starts in, and nothing else. -/
theorem write_ok_mem {address : UInt64} {input : Bytes}
    {ignorePermissions : Bool} {value : Unit}
    (hrun : write address input ignorePermissions memory = .ok value next)
    {entry : UInt64 × MemoryRegion} (hentry : entry ∈ next.regions.entries) :
    ∃ region, (entry.1, region) ∈ memory.regions.entries ∧
      ({ entry.2 with bytes := [] } : MemoryRegion) =
        { region with bytes := [] } := by
  by_cases hinput : input = []
  · rw [hinput, write_nil, EStateM.Result.ok.injEq] at hrun
    rw [← hrun.2] at hentry
    exact ⟨entry.2, hentry, rfl⟩
  · obtain ⟨found, _, _, _, rfl⟩ := (write_eq_ok hinput).mp hrun
    rcases OrderedMap.mem_adjust.mp hentry with ⟨hold, _⟩ | ⟨region, hold, rfl⟩
    · exact ⟨entry.2, hold, rfl⟩
    · exact ⟨region, hold, rfl⟩

/-! ## Writable or executable -/

def Exclusive (permissions : UInt8) : Prop :=
  ¬(hasPermission permissions permissionWrite ∧
    hasPermission permissions permissionExecute)

instance (permissions : UInt8) : Decidable (Exclusive permissions) :=
  inferInstanceAs (Decidable (¬_))

/-- No region may be both written and executed. -/
structure WriteXorExecute (memory : AddressSpace) : Prop where
  wellFormed : memory.WellFormed
  exclusive : ∀ entry ∈ memory.regions.entries, Exclusive entry.2.permissions

theorem new_writeXorExecute (limits : Limits) :
    (new limits).WriteXorExecute :=
  ⟨new_wellFormed limits, by simp [new, OrderedMap.empty]⟩

theorem map_keeps_exclusive {permissions : UInt8}
    (hpermissions : Exclusive permissions) (base size : UInt64) (name : Bytes) :
    Confined (Keeps WriteXorExecute) (map base size permissions name) := by
  refine (map_atomic base size permissions name).confined ?_
  intro state value next hrun hstate
  refine ⟨map_ok_wellFormed hstate.wellFormed hrun, fun entry hentry => ?_⟩
  rcases (map_ok_mem hstate.wellFormed hrun).mp hentry with rfl | hold
  · exact hpermissions
  · exact hstate.exclusive entry hold

theorem write_keeps_exclusive (address : UInt64) (input : Bytes)
    (ignorePermissions : Bool) :
    Confined (Keeps WriteXorExecute) (write address input ignorePermissions) := by
  refine (write_atomic address input ignorePermissions).confined ?_
  intro state value next hrun hstate
  refine ⟨write_ok_wellFormed hstate.wellFormed hrun, fun entry hentry => ?_⟩
  obtain ⟨region, hold, hsame⟩ := write_ok_mem hrun hentry
  simp only [MemoryRegion.mk.injEq] at hsame
  rw [hsame.2.2.1]
  exact hstate.exclusive _ hold

theorem protect_keeps_exclusive {permissions : UInt8}
    (hpermissions : Exclusive permissions) (base size : UInt64) :
    Confined (Keeps WriteXorExecute) (protect base size permissions) := by
  refine (protect_atomic base size permissions).confined ?_
  intro state value next hrun hstate
  refine ⟨protect_ok_wellFormed hstate.wellFormed hrun, fun entry hentry => ?_⟩
  obtain ⟨found, _, _, _, rfl⟩ := protect_eq_ok.mp hrun
  rcases OrderedMap.mem_adjust.mp hentry with ⟨hold, _⟩ | ⟨region, _, rfl⟩
  · exact hstate.exclusive entry hold
  · exact hpermissions

theorem unmap_keeps_exclusive (base : UInt64) :
    Confined (Keeps WriteXorExecute) (unmap base) := by
  refine (unmap_atomic base).confined ?_
  intro state value next hrun hstate
  refine ⟨unmap_ok_wellFormed hstate.wellFormed hrun, fun entry hentry => ?_⟩
  obtain ⟨found, _, rfl⟩ := unmap_eq_ok.mp hrun
  exact hstate.exclusive entry (OrderedMap.mem_erase.mp hentry).1

end AddressSpace

/-- The tool is not asked for a region that is writable and executable.  The
loader makes every region writable, so without `enforce_wx` its segments must
not be executable. -/
def Tool.Exclusive : Tool → Prop
  | .command (.map _ _ permissions _) => AddressSpace.Exclusive permissions
  | .command (.protect _ _ permissions) => AddressSpace.Exclusive permissions
  | .command _ => True
  | .load _ image options _ => options.enforceWx = true ∨
      ∀ segment ∈ image.segments, segment.memorySize ≠ 0 →
        ¬hasPermission segment.permissions permissionExecute
  | .relocate .. | .relocateOne .. | .patch .. => True
  | .restore _ snapshot => ∀ source ∈ snapshot.regions,
      AddressSpace.Exclusive source.permissions

namespace AddressSpace

variable {memory : AddressSpace}

theorem command_keeps_exclusive {command : Command}
    (hcommand : (Tool.command command).Exclusive) :
    Confined (Keeps WriteXorExecute) command.call := by
  cases command with
  | map base size permissions name => exact map_keeps_exclusive hcommand _ _ _
  | unmap base => exact unmap_keeps_exclusive base
  | protect base size permissions => exact protect_keeps_exclusive hcommand _ _
  | write address input ignorePermissions =>
      exact write_keeps_exclusive address input ignorePermissions
  | writeInteger address width order value ignorePermissions =>
      exact Confined.rejectIf_bind fun _ => write_keeps_exclusive _ _ _
  | clear =>
      intro state hstate
      refine ⟨perform_wellFormed hstate.wellFormed .clear, fun entry hentry => ?_⟩
      simp [Command.call, clear, modify_apply, OrderedMap.empty] at hentry

theorem initialPermissions_exclusive {options : LoadOptions}
    {segment : Segment} (hsegment : options.enforceWx = true ∨
      ¬hasPermission segment.permissions permissionExecute) :
    Exclusive (BinaryLoader.initialPermissions options segment) := by
  rintro ⟨_, hexecute⟩
  obtain ⟨hoff, hdeclared⟩ :=
    (BinaryLoader.hasPermission_initial options segment).2.2.mp hexecute
  rcases hsegment with henforced | hdata
  · rw [hoff] at henforced
    contradiction
  · exact hdata hdeclared

theorem invoke_keeps_exclusive {tool : Tool} (htool : tool.Exclusive)
    (memory : AddressSpace) :
    Keeps WriteXorExecute memory (memory.invoke tool) := by
  have hstores : StoresConfined (Keeps WriteXorExecute) fun _ => True :=
    fun address input _ => write_keeps_exclusive address input true
  cases tool with
  | command command => exact command_keeps_exclusive htool memory
  | load limits image options resolver =>
      refine BinaryLoader.load_confined hstores ⟨?_, ?_⟩ ?_ memory
      · exact fun _ _ _ _ => trivial
      · exact fun _ _ _ => trivial
      · intro segment hsegment hnonempty
        have hpermissions := initialPermissions_exclusive
          (htool.imp_right fun hall => hall segment hsegment hnonempty)
        exact BinaryLoader.loadSegment_confined
          (map_keeps_exclusive hpermissions)
          fun address input => write_keeps_exclusive address input true
  | relocate limits image bias resolver =>
      exact RelocationProcessor.apply_confined hstores
        (fun _ _ _ => trivial) memory
  | relocateOne relocation image bias resolver =>
      exact RelocationProcessor.applyOne_confined hstores
        (fun _ => trivial) memory
  | patch limits plan =>
      exact PatchEngine.apply_confined hstores (fun _ _ _ => trivial) memory
  | restore limits snapshot =>
      rcases MemorySnapshotCodec.restore_cases limits snapshot memory with
        hsame | ⟨total, hregions⟩
      · rw [invoke, hsame]
        exact id
      · intro _
        refine (MemorySnapshotCodec.restoreRegions_confined
          (fun source hsource => map_keeps_exclusive (htool source hsource) _ _ _)
          (fun address input => write_keeps_exclusive address input true)
          0).of_ok hregions (new_writeXorExecute limits)

/-- Loads, relocations, patches and restores add no region that is writable
and executable at once to a run that does not ask for one. -/
theorem invokeAll_writeXorExecute (limits : Limits) {tools : List Tool}
    (htools : ∀ tool ∈ tools, tool.Exclusive) :
    ((new limits).invokeAll tools).WriteXorExecute :=
  foldl_keeps (fun tool htool memory =>
    invoke_keeps_exclusive (htools tool htool) memory)
    (new_writeXorExecute limits)

/-- An executable mapping, a load that fails at its second segment, and a patch
of the code. -/
theorem invokeAll_writeXorExecute_patched_code :
    ((new {}).invokeAll
      [.command (.map 0x8000 16 (permissionRead ||| permissionExecute)
        (ascii "text")),
        .load { pageSize := 16 } BinaryLoader.sharedPageImage {} none,
        .patch {} { operations :=
          [{ kind := .writeBytes, address := 0x8004, bytes := [0x90] }] }]
      ).WriteXorExecute := by
  refine invokeAll_writeXorExecute {} fun tool htool => ?_
  simp only [List.mem_cons, List.not_mem_nil, or_false] at htool
  rcases htool with rfl | rfl | rfl
  · show Exclusive (permissionRead ||| permissionExecute)
    decide
  · exact Or.inl rfl
  · trivial

end AddressSpace

/-! ## A region nobody touches -/

namespace AddressSpace

variable {region : MemoryRegion}

/-- The region is mapped, exactly as it stands. -/
structure Holds (region : MemoryRegion) (memory : AddressSpace) : Prop where
  wellFormed : memory.WellFormed
  mapped : (region.base, region) ∈ memory.regions.entries

/-- A write that may not change the region: it respects permissions the region
does not give, or starts elsewhere. -/
def WriteSpares (region : MemoryRegion) (address : UInt64)
    (ignorePermissions : Bool) : Prop :=
  (ignorePermissions = false ∧
      ¬hasPermission region.permissions permissionWrite) ∨
    ¬region.Covers address.toNat

theorem map_keeps_region (base size : UInt64) (permissions : UInt8)
    (name : Bytes) :
    Confined (Keeps (Holds region)) (map base size permissions name) := by
  refine (map_atomic base size permissions name).confined ?_
  intro state value next hrun hstate
  exact ⟨map_ok_wellFormed hstate.wellFormed hrun,
    (map_ok_mem hstate.wellFormed hrun).mpr (Or.inr hstate.mapped)⟩

/-- The regions a map succeeds next to do not meet the new one. -/
theorem map_ok_apart {memory next : AddressSpace} (hmemory : memory.WellFormed)
    {base size : UInt64} {permissions : UInt8} {name : Bytes} {value : Unit}
    (hrun : map base size permissions name memory = .ok value next)
    {entry : UInt64 × MemoryRegion} (hentry : entry ∈ memory.regions.entries) :
    base.toNat + size.toNat ≤ entry.2.base.toNat ∨
      entry.2.stop ≤ base.toNat := by
  obtain ⟨hsize, hbounded, _, _, habove, hbelow, _⟩ := map_eq_ok.mp hrun
  exact (hmemory.overlaps_iff hsize hbounded).mp ⟨habove, hbelow⟩ entry hentry

/-- A change under another key leaves the region. -/
theorem Holds.adjust_other {memory : AddressSpace} (hold : Holds region memory)
    {key : UInt64} (hkey : key ≠ region.base)
    (change : MemoryRegion → MemoryRegion) :
    (region.base, region) ∈ (memory.regions.adjust key change).entries :=
  OrderedMap.mem_adjust.mpr (Or.inl ⟨hold.mapped, hkey.symm⟩)

theorem write_keeps_region {address : UInt64} {ignorePermissions : Bool}
    (hspares : WriteSpares region address ignorePermissions) (input : Bytes) :
    Confined (Keeps (Holds region)) (write address input ignorePermissions) := by
  refine (write_atomic address input ignorePermissions).confined ?_
  intro state value next hrun hstate
  refine ⟨write_ok_wellFormed hstate.wellFormed hrun, ?_⟩
  by_cases hinput : input = []
  · rw [hinput, write_nil, EStateM.Result.ok.injEq] at hrun
    rw [← hrun.2]
    exact hstate.mapped
  obtain ⟨entry, hfound, _, hallowed, rfl⟩ := (write_eq_ok hinput).mp hrun
  obtain ⟨hentry, hcovers⟩ := hstate.wellFormed.entryAt_eq_some.mp hfound
  refine hstate.adjust_other (fun hkey => ?_) _
  -- Written to by its key, the region would be the one found at the address.
  have hsame : entry = (region.base, region) :=
    OrderedMap.key_injective hentry hstate.mapped hkey
  subst hsame
  rcases hspares with ⟨hrespects, hreadOnly⟩ | houtside
  · rcases hallowed with hforced | hwritable
    · rw [hrespects] at hforced
      contradiction
    · exact hreadOnly hwritable
  · exact houtside hcovers

theorem protect_keeps_region {base : UInt64} (hother : base ≠ region.base)
    (size : UInt64) (permissions : UInt8) :
    Confined (Keeps (Holds region)) (protect base size permissions) := by
  refine (protect_atomic base size permissions).confined ?_
  intro state value next hrun hstate
  refine ⟨protect_ok_wellFormed hstate.wellFormed hrun, ?_⟩
  obtain ⟨entry, hfound, hbase, _, rfl⟩ := protect_eq_ok.mp hrun
  have hentry := (hstate.wellFormed.entryAt_eq_some.mp hfound).1
  refine hstate.adjust_other ?_ _
  rw [hstate.wellFormed.keyed entry hentry, hbase]
  exact hother

theorem unmap_keeps_region {base : UInt64} (hother : base ≠ region.base) :
    Confined (Keeps (Holds region)) (unmap base) := by
  refine (unmap_atomic base).confined ?_
  intro state value next hrun hstate
  refine ⟨unmap_ok_wellFormed hstate.wellFormed hrun, ?_⟩
  obtain ⟨found, _, rfl⟩ := unmap_eq_ok.mp hrun
  exact OrderedMap.mem_erase.mpr ⟨hstate.mapped, hother.symm⟩

/-- The loader fills a segment inside the pages it has just mapped, which no
older region meets. -/
theorem loadSegment_keeps_region {limits : Limits} {image : BinaryImage}
    {options : LoadOptions} {bias : UInt64} {segment : Segment}
    (hnonempty : segment.memorySize ≠ 0) :
    Confined (Keeps (Holds region))
      (BinaryLoader.loadSegment limits image options bias segment) := by
  rw [BinaryLoader.loadSegment_eq]
  refine Confined.liftExcept_bind fun pages hpages => ?_
  obtain ⟨address, base, size⟩ := pages
  have hplace := BinaryLoader.segmentPages_ok hpages
  refine Confined.bind_of_ok (map_keeps_region _ _ _ _) ?_
  intro state value next hmap hstate
  have houtside : ¬region.Covers address.toNat := by
    have hapart := map_ok_apart hstate.wellFormed hmap hstate.mapped
    have hlow := hplace.base_le
    have hhigh := hplace.end_le
    have hsome := size_pos_of_ne_zero hnonempty
    unfold MemoryRegion.Covers
    dsimp only at hapart
    omega
  exact BinaryLoader.fillSegment_confined
    (fun input => write_keeps_region (Or.inr houtside) input) size next
    ((map_keeps_region _ _ _ _).of_ok hmap hstate)

end AddressSpace

/-- The tool has no business with the region: it does not unmap, protect or
clear it, restores no snapshot over it, and its forced writes start elsewhere. -/
def Tool.Spares (region : MemoryRegion) : Tool → Prop
  | .command (.map ..) => True
  | .command (.unmap base) => base ≠ region.base
  | .command (.protect base _ _) => base ≠ region.base
  | .command (.write address _ ignorePermissions) =>
      WriteSpares region address ignorePermissions
  | .command (.writeInteger address _ _ _ ignorePermissions) =>
      WriteSpares region address ignorePermissions
  | .command .clear => False
  | .load _ image options _ =>
      BinaryLoader.Aims (fun address => ¬region.Covers address) image options
  | .relocate _ image bias _ => ∀ relocation ∈ image.relocations,
      RelocationProcessor.Aims (fun address => ¬region.Covers address) bias
        relocation
  | .relocateOne relocation _ bias _ =>
      RelocationProcessor.Aims (fun address => ¬region.Covers address) bias
        relocation
  | .patch _ plan => ∀ operation ∈ plan.operations,
      PatchEngine.Aims (fun address => ¬region.Covers address) operation
  | .restore codec snapshot =>
      ¬MemorySnapshotCodec.Restorable codec snapshot

namespace AddressSpace

variable {memory : AddressSpace} {region : MemoryRegion}

theorem command_keeps_region {command : Command}
    (hcommand : (Tool.command command).Spares region) :
    Confined (Keeps (Holds region)) command.call := by
  cases command with
  | map base size permissions name => exact map_keeps_region _ _ _ _
  | unmap base => exact unmap_keeps_region hcommand
  | protect base size permissions => exact protect_keeps_region hcommand _ _
  | write address input ignorePermissions =>
      exact write_keeps_region hcommand input
  | writeInteger address width order value ignorePermissions =>
      exact Confined.rejectIf_bind fun _ => write_keeps_region hcommand _
  | clear => exact absurd hcommand id

theorem invoke_keeps_region {tool : Tool} (htool : tool.Spares region)
    (memory : AddressSpace) :
    Keeps (Holds region) memory (memory.invoke tool) := by
  have hstores : StoresConfined (Keeps (Holds region))
      fun address => ¬region.Covers address :=
    fun address input houtside => write_keeps_region (Or.inr houtside) input
  cases tool with
  | command command => exact command_keeps_region htool memory
  | load limits image options resolver =>
      exact BinaryLoader.load_confined hstores htool
        (fun _ _ hnonempty => loadSegment_keeps_region hnonempty) memory
  | relocate limits image bias resolver =>
      exact RelocationProcessor.apply_confined hstores htool memory
  | relocateOne relocation image bias resolver =>
      exact RelocationProcessor.applyOne_confined hstores htool memory
  | patch limits plan => exact PatchEngine.apply_confined hstores htool memory
  | restore limits snapshot =>
      intro hmemory
      cases hrun : MemorySnapshotCodec.restore limits snapshot memory with
      | ok value next =>
          exact absurd (MemorySnapshotCodec.restore_eq_ok.mp hrun).1 htool
      | error why next =>
          rw [invoke, hrun, finalState_error,
            MemorySnapshotCodec.restore_atomic limits snapshot memory why next
              hrun]
          exact hmemory

/-- A region that every tool of a run spares is there after the run with the
same bytes, name and permissions. -/
theorem invokeAll_spares (hmemory : memory.Reachable)
    (hregion : (region.base, region) ∈ memory.regions.entries)
    {tools : List Tool} (htools : ∀ tool ∈ tools, tool.Spares region) :
    (region.base, region) ∈ (memory.invokeAll tools).regions.entries :=
  (foldl_keeps (fun tool htool memory =>
    invoke_keeps_region (htools tool htool) memory)
    (⟨hmemory.wellFormed, hregion⟩ : Holds region memory)).mapped

/-- A read-only region beside a failing load, refused writes and a patch. -/
theorem invokeAll_spares_read_only :
    let memory := (new {}).run [.map 0x8000 4 permissionRead (ascii "data"),
      .map 0x9000 4 permissionRead (ascii "rest")]
    (0x8000, freshRegion 0x8000 4 permissionRead (ascii "data")) ∈
      (memory.invokeAll
        [.load { pageSize := 16 } BinaryLoader.sharedPageImage {} none,
          .command (.write 0x8001 [1, 2] false),
          .patch {} { operations :=
            [{ kind := .fillBytes, address := 0x9000, length := 4,
               fill := 1 }] }]).regions.entries := by
  intro memory
  refine @invokeAll_spares memory
    (freshRegion 0x8000 4 permissionRead (ascii "data")) ⟨_, _, rfl⟩
    (by decide +kernel) _ fun tool htool => ?_
  simp only [List.mem_cons, List.not_mem_nil, or_false] at htool
  rcases htool with rfl | rfl | rfl
  · exact ⟨fun _ _ hnone => by simp [BinaryLoader.sharedPageImage] at hnone,
      fun _ _ hnone => by simp [BinaryLoader.sharedPageImage] at hnone⟩
  · exact Or.inl ⟨rfl, by decide⟩
  · intro operation hoperation _
    simp only [List.mem_cons, List.not_mem_nil, or_false] at hoperation
    subst hoperation
    simp [MemoryRegion.Covers, MemoryRegion.stop, freshRegion]

end AddressSpace
end BinForge
