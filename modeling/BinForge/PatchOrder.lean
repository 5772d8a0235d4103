import BinForge.PatchComposition
import BinForge.PermutedRuns

/-!
# The order of the operations of a plan

An operation writes a range and may look at another.  Operations that are
independent, none writing where another writes or looks, may stand in a plan in
any order: it is accepted for the same memories, with the same result.
-/

namespace BinForge

open StatefulExcept

namespace PatchEngine

open AddressSpace

variable {limits : Limits} {plan : PatchPlan} {memory next : AddressSpace}
  {contents other : CellMemory UInt8} {operation left right : PatchOperation}
  {operations permuted : List PatchOperation} {result : PatchResult}

/-! ## Where an operation looks and writes -/

/-- The first address and the size of what an operation writes. -/
def writes (operation : PatchOperation) : ℕ × ℕ :=
  (operation.address.toNat, writtenSize operation)

/-- The first address and the size of what an operation looks at. -/
def looksAt (operation : PatchOperation) : ℕ × ℕ :=
  match operation.kind with
  | .copyBytes =>
      (operation.sourceAddress.toNat, operationSize operation)
  | .assertBytes => (operation.address.toNat, operationSize operation)
  | _ => (0, 0)

/-- No address lies in both ranges. -/
def RangesApart (first second : ℕ × ℕ) : Prop :=
  first.2 = 0 ∨ second.2 = 0 ∨ first.1 + first.2 ≤ second.1 ∨
    second.1 + second.2 ≤ first.1

instance (first second : ℕ × ℕ) : Decidable (RangesApart first second) :=
  inferInstanceAs (Decidable (_ ∨ _))

/-- Neither operation writes where the other writes or looks. -/
structure Independent (left right : PatchOperation) : Prop where
  written : RangesApart (writes left) (writes right)
  seenRight : RangesApart (writes left) (looksAt right)
  seenLeft : RangesApart (writes right) (looksAt left)

theorem independent_iff :
    Independent left right ↔ RangesApart (writes left) (writes right) ∧
      RangesApart (writes left) (looksAt right) ∧
        RangesApart (writes right) (looksAt left) :=
  ⟨fun hapart => ⟨hapart.written, hapart.seenRight, hapart.seenLeft⟩,
    fun hapart => ⟨hapart.1, hapart.2.1, hapart.2.2⟩⟩

instance (left right : PatchOperation) : Decidable (Independent left right) :=
  decidable_of_iff _ independent_iff.symm

theorem RangesApart.symm {first second : ℕ × ℕ}
    (hapart : RangesApart first second) : RangesApart second first := by
  unfold RangesApart at *
  omega

theorem Independent.symm (hapart : Independent left right) :
    Independent right left :=
  ⟨hapart.written.symm, hapart.seenLeft, hapart.seenRight⟩

/-! ## What an operation writes -/

/-- The bytes an operation stores at its address. -/
def writtenBytes (contents : CellMemory UInt8) (operation : PatchOperation) :
    Bytes :=
  match operation.kind with
  | .writeBytes => operation.bytes
  | .fillBytes => List.replicate operation.length.toNat operation.fill
  | .writeInteger =>
      integerBytes operation.byteOrder operation.width operation.integer
  | .copyBytes =>
      contents.load operation.sourceAddress.toNat operation.length.toNat
  | .assertBytes => []

theorem effect_eq_writtenBytes (contents : CellMemory UInt8)
    (operation : PatchOperation) :
    effect contents operation = contents.store operation.address.toNat
      (writtenBytes contents operation) := by
  unfold effect writtenBytes
  cases operation.kind with
  | assertBytes => exact (CellMemory.store_nil _ _).symm
  | _ => rfl

theorem writtenBytes_length_le (contents : CellMemory UInt8)
    (operation : PatchOperation) :
    (writtenBytes contents operation).length ≤ writtenSize operation := by
  unfold writtenBytes writtenSize operationSize
  cases operation.kind with
  | writeBytes => simp
  | fillBytes => simp
  | writeInteger => simp [integerBytes_length]
  | copyBytes => simpa using CellMemory.load_length_le contents _ _
  | assertBytes => simp

/-- What an operation writes depends on what it looks at. -/
theorem writtenBytes_congr
    (hsame : ∀ target, (looksAt operation).1 ≤ target →
      target < (looksAt operation).1 + (looksAt operation).2 →
        contents target = other target) :
    writtenBytes contents operation = writtenBytes other operation := by
  unfold looksAt at hsame
  unfold writtenBytes
  cases hkind : operation.kind with
  | copyBytes =>
      rw [hkind, operationSize, hkind] at hsame
      exact CellMemory.load_congr hsame
  | _ => rfl

/-- An operation keeps what is apart from its writes. -/
theorem effect_apart {range : ℕ × ℕ} (hapart : RangesApart (writes operation) range)
    {target : ℕ} (hlow : range.1 ≤ target) (hhigh : target < range.1 + range.2) :
    effect contents operation target = contents target := by
  unfold RangesApart writes at hapart
  apply effect_outside
  omega

theorem Independent.writtenBytes_effect (hapart : Independent left right) :
    writtenBytes (effect contents left) right = writtenBytes contents right :=
  writtenBytes_congr fun _ hlow hhigh =>
    effect_apart hapart.seenRight hlow hhigh

/-- Independent operations may be carried out in either order. -/
theorem Independent.effect_comm (hapart : Independent left right) :
    effect (effect contents left) right =
      effect (effect contents right) left := by
  have hranges := hapart.written
  have hleft := writtenBytes_length_le contents left
  have hright := writtenBytes_length_le contents right
  rw [effect_eq_writtenBytes _ right, hapart.writtenBytes_effect,
    effect_eq_writtenBytes _ left, effect_eq_writtenBytes _ left,
    hapart.symm.writtenBytes_effect, effect_eq_writtenBytes _ right]
  unfold RangesApart writes at hranges
  rcases Nat.eq_zero_or_pos (writtenBytes contents left).length with hnone | _
  · rw [List.eq_nil_of_length_eq_zero hnone, CellMemory.store_nil,
      CellMemory.store_nil]
  · rcases Nat.eq_zero_or_pos (writtenBytes contents right).length with
      hnone | _
    · rw [List.eq_nil_of_length_eq_zero hnone, CellMemory.store_nil,
        CellMemory.store_nil]
    · exact CellMemory.store_comm (by omega)

/-! ## Runs of operations -/

/-- The assertion, if the operation is one, holds. -/
def Asserted (contents : CellMemory UInt8) (operation : PatchOperation) :
    Prop :=
  operation.kind = .assertBytes →
    contents.load operation.address.toNat operation.bytes.length =
      operation.bytes

/-- One operation that goes through. -/
def Performs (operation : PatchOperation)
    (contents next : CellMemory UInt8) : Prop :=
  Asserted contents operation ∧ next = effect contents operation

theorem Independent.asserted_effect (hapart : Independent left right) :
    Asserted (effect contents left) right ↔ Asserted contents right := by
  refine forall_congr' fun hkind => ?_
  have hlooks : looksAt right =
      (right.address.toNat, right.bytes.length) := by
    rw [looksAt, hkind, operationSize, hkind]
  have hseen := hapart.seenRight
  rw [hlooks] at hseen
  rw [CellMemory.load_congr fun target hlow hhigh =>
    effect_apart hseen hlow hhigh]

theorem performs_iff_run {last : CellMemory UInt8} :
    ListRun Performs operations contents last ↔
      AssertionsHold contents operations ∧
        last = operations.foldl effect contents := by
  induction operations generalizing contents with
  | nil =>
      constructor
      · intro hrun
        cases hrun
        exact ⟨assertionsHold_nil _, rfl⟩
      · rintro ⟨-, rfl⟩
        exact .nil _
  | cons operation rest ih =>
      rw [ListRun.cons_iff, assertionsHold_cons, List.foldl_cons]
      constructor
      · rintro ⟨next, ⟨hassert, rfl⟩, hrest⟩
        obtain ⟨hhold, hlast⟩ := ih.mp hrest
        exact ⟨⟨hassert, hhold⟩, hlast⟩
      · rintro ⟨⟨hassert, hhold⟩, hlast⟩
        exact ⟨_, ⟨hassert, rfl⟩, ih.mpr ⟨hhold, hlast⟩⟩

/-- Independent operations go through in any order. -/
theorem performs_perm (hperm : operations.Perm permuted)
    (hapart : operations.Pairwise Independent) {last : CellMemory UInt8}
    (hrun : ListRun Performs operations contents last) :
    ListRun Performs permuted contents last := by
  have hcommute : ∀ left right first middle last, True →
      Independent left right → Performs left first middle →
        Performs right middle last →
          ∃ between, Performs right first between ∧
            Performs left between last := by
    rintro left right first middle last - hpair ⟨hleft, rfl⟩ ⟨hright, rfl⟩
    exact ⟨effect first right, ⟨hpair.asserted_effect.mp hright, rfl⟩,
      hpair.symm.asserted_effect.mpr hleft, hpair.effect_comm⟩
  exact ListRun.perm (fun _ _ _ _ _ => trivial) (fun _ _ hpair => hpair.symm)
    hcommute hperm hapart trivial hrun

/-! ## Plans -/

theorem writtenTotal_perm (hperm : operations.Perm permuted) :
    writtenTotal operations = writtenTotal permuted :=
  (hperm.map writtenSize).sum_eq

theorem Affordable.perm (hperm : plan.operations.Perm permuted)
    (haffordable : Affordable limits plan) :
    Affordable limits { plan with operations := permuted } := by
  have htotal := writtenTotal_perm hperm
  constructor
  · exact hperm.length_eq ▸ haffordable.count
  · exact htotal ▸ haffordable.total
  · exact htotal ▸ haffordable.declared

theorem Performed.perm (hperm : operations.Perm permuted)
    (hapart : operations.Pairwise Independent)
    (hperformed : Performed operations memory next) :
    Performed permuted memory next := by
  obtain ⟨hassert, hcontents⟩ := performs_iff_run.mp
    (performs_perm hperm hapart
      (performs_iff_run.mpr ⟨hperformed.assertions, hperformed.contents⟩))
  exact
    { placed := fun operation hoperation =>
        hperformed.placed operation (hperm.mem_iff.mpr hoperation)
      allowed := fun operation hoperation =>
        hperformed.allowed operation (hperm.mem_iff.mpr hoperation)
      assertions := hassert
      frame := hperformed.frame
      wellFormed := hperformed.wellFormed
      contents := hcontents }

theorem resultOf_perm (hperm : operations.Perm permuted)
    (next : AddressSpace) :
    resultOf operations next = resultOf permuted next := by
  rw [resultOf, resultOf, hperm.length_eq, writtenTotal_perm hperm]

theorem apply_ok_perm (hmemory : memory.WellFormed)
    (hperm : plan.operations.Perm permuted)
    (hapart : plan.operations.Pairwise Independent)
    (hrun : apply limits plan memory = .ok result next) :
    apply limits { plan with operations := permuted } memory =
      .ok result next := by
  obtain ⟨haffordable, hchecksum, hperformed, rfl⟩ :=
    (apply_ok_iff hmemory).mp hrun
  exact (apply_ok_iff hmemory).mpr ⟨haffordable.perm hperm, hchecksum,
    hperformed.perm hperm hapart, resultOf_perm hperm next⟩

/-- The independent operations of a plan may stand in any order: the plan is
accepted for the same memories, with the same result and the same memory
after it. -/
theorem apply_in_any_order (hreachable : memory.Reachable)
    (hperm : plan.operations.Perm permuted)
    (hapart : plan.operations.Pairwise Independent) :
    apply limits plan memory = .ok result next ↔
      apply limits { plan with operations := permuted } memory =
        .ok result next := by
  constructor
  · intro hrun
    exact apply_ok_perm hreachable.wellFormed hperm hapart hrun
  · intro hrun
    have hback : ({ plan with operations := permuted } :
        PatchPlan).operations.Perm plan.operations := hperm.symm
    have hagain := apply_ok_perm hreachable.wellFormed hback
      ((hperm.pairwise_iff fun hpair => hpair.symm).mp hapart) hrun
    exact hagain

theorem apply_in_any_order_copy :
    let memory := (new {}).run [.map 0x1000 16 permissionRead (ascii "data")]
    let copy : PatchOperation :=
      { kind := .copyBytes, address := 0x1008, sourceAddress := 0x1000
        length := 4 }
    let write : PatchOperation :=
      { kind := .writeBytes, address := 0x1004, bytes := [1, 2] }
    ∃ result next,
      apply {} { operations := [copy, write] } memory = .ok result next ∧
        apply {} { operations := [write, copy] } memory = .ok result next := by
  intro memory copy write
  obtain ⟨result, next, hrun⟩ := succeeded_iff.mp
    (by decide +kernel :
      succeeded (apply {} { operations := [copy, write] } memory) = true)
  exact ⟨result, next, hrun,
    (apply_in_any_order (⟨_, _, rfl⟩ : memory.Reachable)
      (List.Perm.swap _ _ _) (by decide +kernel)).mp hrun⟩

end PatchEngine
end BinForge
