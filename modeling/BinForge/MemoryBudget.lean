import BinForge.SnapshotRestore

/-!
# The budget of an address space across restores

`restore` moves the staged address space over the target, and with it the
limits of the codec.  The budget an object was constructed with therefore
governs it as long as every snapshot restored into it was staged under the
same byte limit.
-/

namespace BinForge

open StatefulExcept
open MachineInteger

namespace AddressSpace

variable {memory : AddressSpace}

/-- A call on an address space, or a restore into it by some codec. -/
inductive Operation
  | perform (command : Command)
  | restore (limits : Limits) (snapshot : MemorySnapshot)

def Operation.call : Operation → MemoryCall Unit
  | .perform command => command.call
  | .restore limits snapshot => MemorySnapshotCodec.restore limits snapshot

/-- The object after an operation, succeeding or failing. -/
def operate (memory : AddressSpace) (operation : Operation) : AddressSpace :=
  finalState (operation.call memory)

def operateAll (memory : AddressSpace) (operations : List Operation) :
    AddressSpace :=
  operations.foldl operate memory

/-- A codec whose restore takes effect has the byte limit given. -/
def Operation.SharesBudget (limits : Limits) : Operation → Prop
  | .perform _ => True
  | .restore codec snapshot =>
      MemorySnapshotCodec.Restorable codec snapshot →
        codec.maxMappedBytes = limits.maxMappedBytes

/-- The object respects the limits given, and its next `map` will. -/
structure WithinBudget (limits : Limits) (memory : AddressSpace) : Prop where
  mapped : memory.mappedBytes ≤ limits.maxMappedBytes
  later : ∀ base size permissions name,
    succeeded (map base size permissions name memory) = true ↔
      size ≠ 0 ∧ base.toNat + size.toNat < 2 ^ 64 ∧
        memory.mappedBytes.toNat + size.toNat ≤ limits.maxMappedBytes.toNat ∧
        ∀ entry ∈ memory.regions.entries,
          base.toNat + size.toNat ≤ entry.2.base.toNat ∨
            entry.2.stop ≤ base.toNat

theorem WellFormed.withinBudget (hmemory : memory.WellFormed) {limits : Limits}
    (hlimits : memory.limits.maxMappedBytes = limits.maxMappedBytes) :
    WithinBudget limits memory := by
  refine ⟨hlimits ▸ hmemory.budget, fun base size permissions name => ?_⟩
  rw [hmemory.map_succeeded_iff, hlimits]

/-- A restore that takes effect leaves the codec's limits behind. -/
theorem restore_limits {codec : Limits} {snapshot : MemorySnapshot}
    {next : AddressSpace} {value : Unit}
    (hrun : MemorySnapshotCodec.restore codec snapshot memory =
      .ok value next) :
    next.WellFormed ∧ next.limits = codec := by
  obtain ⟨hsnapshot, rfl⟩ := MemorySnapshotCodec.restore_eq_ok.mp hrun
  exact ⟨MemorySnapshotCodec.withRestored_wellFormed (new_wellFormed codec) rfl
    hsnapshot.placeable, MemorySnapshotCodec.withRestored_limits _ _⟩

/-- One operation keeps the invariant and the byte limit. -/
theorem operate_budget {limits : Limits} (hmemory : memory.WellFormed)
    (hlimits : memory.limits.maxMappedBytes = limits.maxMappedBytes)
    {operation : Operation} (hoperation : operation.SharesBudget limits) :
    (memory.operate operation).WellFormed ∧
      (memory.operate operation).limits.maxMappedBytes =
        limits.maxMappedBytes := by
  cases operation with
  | perform command =>
      refine ⟨perform_wellFormed hmemory command, ?_⟩
      have hsame : (memory.perform command).limits = memory.limits :=
        perform_limits command
      rw [← hlimits, ← hsame]
      rfl
  | restore codec snapshot =>
      have hlast : memory.operate (.restore codec snapshot) =
          finalState (MemorySnapshotCodec.restore codec snapshot memory) := rfl
      rw [hlast]
      cases hrun : MemorySnapshotCodec.restore codec snapshot memory with
      | error why next =>
          obtain rfl := MemorySnapshotCodec.restore_atomic codec snapshot memory
            why next hrun
          exact ⟨hmemory, hlimits⟩
      | ok value next =>
          obtain ⟨hnext, hcodec⟩ := restore_limits hrun
          refine ⟨hnext, ?_⟩
          rw [finalState_ok, hcodec]
          exact hoperation (MemorySnapshotCodec.restore_eq_ok.mp hrun).1

theorem operateAll_budget {limits : Limits} (hmemory : memory.WellFormed)
    (hlimits : memory.limits.maxMappedBytes = limits.maxMappedBytes)
    {operations : List Operation}
    (hoperations : ∀ operation ∈ operations, operation.SharesBudget limits) :
    (memory.operateAll operations).WellFormed ∧
      (memory.operateAll operations).limits.maxMappedBytes =
        limits.maxMappedBytes := by
  induction operations generalizing memory with
  | nil => exact ⟨hmemory, hlimits⟩
  | cons operation operations ih =>
      obtain ⟨hhead, htail⟩ := List.forall_mem_cons.mp hoperations
      obtain ⟨hnext, hnextLimits⟩ := operate_budget hmemory hlimits hhead
      exact ih hnext hnextLimits htail

/-- In a run whose restores are all staged under the object's byte limit, the
mapped bytes stay within it and every later `map` is decided by it. -/
theorem operateAll_withinBudget (limits : Limits) (operations : List Operation)
    (hoperations : ∀ operation ∈ operations, operation.SharesBudget limits) :
    WithinBudget limits ((new limits).operateAll operations) := by
  obtain ⟨hmemory, hlimits⟩ :=
    operateAll_budget (new_wellFormed limits) rfl hoperations
  exact hmemory.withinBudget hlimits

theorem operateAll_withinBudget_same_codec :
    WithinBudget { maxMappedBytes := 32 }
      ((new { maxMappedBytes := 32 }).operateAll
        [.perform (.map 0x1000 16 permissionRead "text"),
          .restore { maxMappedBytes := 32 } { mappedBytes := 32
                                              regions := [{ base := 0x4000
                                                            size := 32 }] }]) :=
  operateAll_withinBudget _ _ fun operation hoperation => by
    simp only [List.mem_cons, List.not_mem_nil, or_false] at hoperation
    rcases hoperation with rfl | rfl
    · trivial
    · exact fun _ => rfl

/-- A codec with a larger limit takes the object past its own budget. -/
theorem restore_exceeds_budget :
    let limits : Limits := { maxMappedBytes := 16 }
    let memory := (new limits).operateAll
      [.restore {} { mappedBytes := 32, regions := [{ base := 0x4000
                                                      size := 32 }] }]
    ¬memory.mappedBytes ≤ limits.maxMappedBytes ∧
      succeeded (map 0x8000 16 permissionRead "" memory) = true := by
  decide +kernel

end AddressSpace
end BinForge
