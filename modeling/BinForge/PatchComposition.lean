import BinForge.PatchApplication
import BinForge.StoreSequences

/-!
# Plans put together and undone

An application is known by the plan's budget, the places of its operations and
the contents they leave.  So a plan may be cut anywhere and applied in two
pieces, and whatever a plan has done another plan undoes.
-/

namespace StatefulExcept

theorem rejectIf_except_eq_ok {ε : Type} {condition : Prop}
    [Decidable condition] {failure : ε} :
    (rejectIf condition failure : Except ε Unit) = .ok () ↔ ¬condition := by
  unfold rejectIf
  split <;> simp_all [throw, throwThe, MonadExceptOf.throw, pure, Except.pure]

end StatefulExcept

namespace BinForge

open StatefulExcept

namespace PatchEngine

open AddressSpace

variable {limits : Limits} {plan : PatchPlan} {memory next : AddressSpace}
  {contents : CellMemory UInt8} {operation : PatchOperation}
  {operations front back : List PatchOperation} {result : PatchResult}

/-! ## What validation decides -/

/-- The number of bytes the operations write. -/
def writtenTotal (operations : List PatchOperation) : ℕ :=
  (operations.map writtenSize).sum

/-- The checks that do not look at the memory. -/
structure Affordable (limits : Limits) (plan : PatchPlan) : Prop where
  count : plan.operations.length ≤ limits.maxRelocations.toNat
  total : writtenTotal plan.operations ≤ limits.maxMappedBytes.toNat
  declared : plan.bytesWritten = 0 ∨
    plan.bytesWritten.toNat = writtenTotal plan.operations

/-- Below the limit, the count stays below it or the pass fails. -/
theorem countWritten_eq_ok {totalWritten total : UInt64}
    (hsmall : operationSize operation < 2 ^ 64)
    (hbelow : totalWritten.toNat ≤ limits.maxMappedBytes.toNat) :
    countWritten limits totalWritten operation = .ok total ↔
      total.toNat = totalWritten.toNat + writtenSize operation ∧
        total.toNat ≤ limits.maxMappedBytes.toNat := by
  have hlimit := limits.maxMappedBytes.toNat_lt
  unfold countWritten writtenSize
  by_cases hkind : operation.kind = .assertBytes
  · rw [if_pos hkind, if_pos hkind, Nat.add_zero]
    constructor
    · intro hrun
      obtain rfl := Except.ok.inj hrun
      exact ⟨rfl, hbelow⟩
    · rintro ⟨hsame, -⟩
      rw [UInt64.toNat_inj.mp hsame]
      rfl
  · rw [if_neg hkind, if_neg hkind, demand_except_bind_eq_ok]
    simp only [rejectIf_except_bind_eq_ok, checkedAdd_eq_some, UInt64.not_lt,
      UInt64.toNat_ofNat_of_lt' hsmall]
    constructor
    · rintro ⟨sum, ⟨hfit, rfl⟩, hle, hrun⟩
      obtain rfl := Except.ok.inj hrun
      refine ⟨?_, UInt64.le_iff_toNat_le.mp hle⟩
      rw [toNat_add_of_fit (by rwa [UInt64.toNat_ofNat_of_lt' hsmall]),
        UInt64.toNat_ofNat_of_lt' hsmall]
    · rintro ⟨hsum, hle⟩
      have hfit : totalWritten.toNat + operationSize operation < 2 ^ 64 := by
        omega
      refine ⟨total, ⟨hfit, UInt64.toNat_inj.mp ?_⟩,
        UInt64.le_iff_toNat_le.mpr hle, rfl⟩
      rw [toNat_add_of_fit (by rwa [UInt64.toNat_ofNat_of_lt' hsmall]),
        UInt64.toNat_ofNat_of_lt' hsmall, hsum]

/-- The range of a mapped region has an end. -/
theorem checkedAdd_of_fullyMapped (hmemory : memory.WellFormed)
    {address : UInt64} {size : ℕ}
    (hmapped : fullyMapped memory address size = true) :
    ∃ stop, checkedAdd address (UInt64.ofNat size) = some stop := by
  obtain ⟨region, hregion, hcontains⟩ := fullyMapped_iff.mp hmapped
  obtain ⟨entry, hentryAt, rfl⟩ := Option.map_eq_some_iff.mp hregion
  have hentry := (hmemory.entryAt_eq_some.mp hentryAt).1
  have hstop := hmemory.bounded entry hentry
  have hrange := MemoryRegion.contains_iff.mp hcontains
  refine ⟨_, checkedAdd_eq_some.mpr ⟨?_, rfl⟩⟩
  rw [UInt64.toNat_ofNat_of_lt' (fullyMapped_size_lt hmapped)]
  omega

theorem validateOperation_eq_ok (hmemory : memory.WellFormed) {index : ℕ}
    {totalWritten total : UInt64}
    (hbelow : totalWritten.toNat ≤ limits.maxMappedBytes.toNat) :
    validateOperation limits memory index totalWritten operation = .ok total ↔
      Placed memory operation ∧
        total.toNat = totalWritten.toNat + writtenSize operation ∧
        total.toNat ≤ limits.maxMappedBytes.toNat := by
  constructor
  · intro hrun
    have hplaced := (validateOperation_ok hrun).1
    refine ⟨hplaced, ?_⟩
    rw [← countWritten_eq_ok (fullyMapped_size_lt hplaced.destination) hbelow]
    unfold validateOperation at hrun
    simp only [rejectIf_except_bind_eq_ok, demand_except_bind_eq_ok] at hrun
    obtain ⟨-, _, -, -, hrun⟩ := hrun
    by_cases hcopy : operation.kind = .copyBytes
    · simp only [if_pos hcopy, rejectIf_except_bind_eq_ok,
        demand_except_bind_eq_ok] at hrun
      exact hrun.choose_spec.2.2
    · rwa [if_neg hcopy] at hrun
  · rintro ⟨hplaced, hcount⟩
    have hrun := (countWritten_eq_ok
      (fullyMapped_size_lt hplaced.destination) hbelow).mpr hcount
    unfold validateOperation
    simp only [rejectIf_except_bind_eq_ok, demand_except_bind_eq_ok, not_or,
      Bool.not_eq_false]
    refine ⟨⟨hplaced.sizeValid, hplaced.nonempty⟩, ?_⟩
    obtain ⟨stop, hstop⟩ :=
      checkedAdd_of_fullyMapped hmemory hplaced.destination
    refine ⟨stop, hstop, hplaced.destination, ?_⟩
    by_cases hcopy : operation.kind = .copyBytes
    · simp only [if_pos hcopy, rejectIf_except_bind_eq_ok,
        demand_except_bind_eq_ok, Bool.not_eq_false]
      obtain ⟨stop, hstop⟩ :=
        checkedAdd_of_fullyMapped hmemory (hplaced.source hcopy)
      exact ⟨stop, hstop, hplaced.source hcopy, hrun⟩
    · rwa [if_neg hcopy]

theorem validateOperations_eq_ok (hmemory : memory.WellFormed) {index : ℕ}
    {totalWritten total : UInt64}
    (hbelow : totalWritten.toNat ≤ limits.maxMappedBytes.toNat) :
    validateOperations limits memory index totalWritten operations =
        .ok total ↔
      (∀ operation ∈ operations, Placed memory operation) ∧
        total.toNat = totalWritten.toNat + writtenTotal operations ∧
        total.toNat ≤ limits.maxMappedBytes.toNat := by
  induction operations generalizing index totalWritten with
  | nil =>
      constructor
      · intro hrun
        obtain rfl := Except.ok.inj hrun
        exact ⟨by simp, rfl, hbelow⟩
      · rintro ⟨-, hsame, -⟩
        rw [UInt64.toNat_inj.mp hsame]
        rfl
  | cons operation rest ih =>
      have htotal : writtenTotal (operation :: rest) =
          writtenSize operation + writtenTotal rest := List.sum_cons
      rw [validateOperations, except_bind_eq_ok, List.forall_mem_cons, htotal]
      constructor
      · rintro ⟨next, hhead, hrest⟩
        obtain ⟨hplaced, hnext, hle⟩ :=
          (validateOperation_eq_ok hmemory hbelow).mp hhead
        obtain ⟨hall, hsum, hlast⟩ := (ih hle).mp hrest
        exact ⟨⟨hplaced, hall⟩, by omega, hlast⟩
      · rintro ⟨⟨hplaced, hall⟩, hsum, hlast⟩
        have hbound := total.toNat_lt
        have hnext : (UInt64.ofNat (totalWritten.toNat +
            writtenSize operation)).toNat =
            totalWritten.toNat + writtenSize operation :=
          UInt64.toNat_ofNat_of_lt' (by show _ < 2 ^ 64; omega)
        refine ⟨_, (validateOperation_eq_ok hmemory hbelow).mpr
          ⟨hplaced, hnext, by omega⟩, (ih (by omega)).mpr
          ⟨hall, by omega, hlast⟩⟩

theorem validate_eq_ok (hmemory : memory.WellFormed) :
    validate limits plan memory = .ok () ↔
      Affordable limits plan ∧
        ∀ operation ∈ plan.operations, Placed memory operation := by
  have hlimit := limits.maxMappedBytes.toNat_lt
  unfold validate
  rw [rejectIf_except_bind_eq_ok, except_bind_eq_ok, not_lt]
  constructor
  · rintro ⟨hcount, total, hloop, hdeclared⟩
    obtain ⟨hplaced, hsum, hle⟩ :=
      (validateOperations_eq_ok hmemory (Nat.zero_le _)).mp hloop
    rw [UInt64.toNat_zero, Nat.zero_add] at hsum
    refine ⟨⟨hcount, by omega, ?_⟩, hplaced⟩
    rw [rejectIf_except_eq_ok, not_and, not_not] at hdeclared
    rw [← hsum, UInt64.toNat_inj]
    exact or_iff_not_imp_left.mpr hdeclared
  · rintro ⟨⟨hcount, htotal, hdeclared⟩, hplaced⟩
    have hsum : (UInt64.ofNat (writtenTotal plan.operations)).toNat =
        writtenTotal plan.operations :=
      UInt64.toNat_ofNat_of_lt' (by show _ < 2 ^ 64; omega)
    refine ⟨hcount, UInt64.ofNat (writtenTotal plan.operations),
      (validateOperations_eq_ok hmemory (Nat.zero_le _)).mpr
        ⟨hplaced, ?_, by omega⟩, ?_⟩
    · rw [hsum, UInt64.toNat_zero, Nat.zero_add]
    · rw [rejectIf_except_eq_ok, not_and, not_not, ← UInt64.toNat_inj, hsum]
      exact or_iff_not_imp_left.mp hdeclared

/-! ## What an application is -/

/-- The ranges an operation looks at are readable. -/
def Allowed (memory : AddressSpace) (operation : PatchOperation) : Prop :=
  Readable memory operation.address ∧
    (operation.kind = .copyBytes → Readable memory operation.sourceAddress)

/-- The result for these operations and the memory they leave. -/
def resultOf (operations : List PatchOperation) (next : AddressSpace) :
    PatchResult :=
  { operationsApplied := UInt32.ofNat operations.length
    bytesWritten := UInt64.ofNat (writtenTotal operations)
    resultingChecksum := memoryChecksum next }

/-- The operations go through, one after the other, from one memory to the
other. -/
structure Performed (operations : List PatchOperation)
    (memory next : AddressSpace) : Prop where
  placed : ∀ operation ∈ operations, Placed memory operation
  allowed : ∀ operation ∈ operations, Allowed memory operation
  assertions : AssertionsHold memory.contents operations
  frame : SameFrame memory next
  wellFormed : next.WellFormed
  contents : next.contents = operations.foldl effect memory.contents

theorem foldl_countOperation (result : PatchResult) :
    operations.foldl countOperation result =
      { result with
        operationsApplied :=
          result.operationsApplied + UInt32.ofNat operations.length
        bytesWritten :=
          result.bytesWritten + UInt64.ofNat (writtenTotal operations) } := by
  induction operations generalizing result with
  | nil =>
      show result = { result with
        operationsApplied := result.operationsApplied + 0
        bytesWritten := result.bytesWritten + 0 }
      rw [UInt32.add_zero, UInt64.add_zero]
  | cons operation rest ih =>
      have htotal : writtenTotal (operation :: rest) =
          writtenSize operation + writtenTotal rest := List.sum_cons
      rw [List.foldl_cons, ih, htotal, List.length_cons, UInt64.ofNat_add,
        Nat.add_comm rest.length, UInt32.ofNat_add, ← UInt32.add_assoc,
        ← UInt64.add_assoc]
      rfl

theorem applyOperations_wellFormed (hmemory : memory.WellFormed)
    {undo : List Undo} {last : PatchResult}
    (hplaced : ∀ operation ∈ operations, Placed memory operation)
    (hrun : applyOperations undo result operations memory = .ok last next) :
    next.WellFormed := by
  induction operations generalizing memory undo result with
  | nil =>
      obtain ⟨-, rfl⟩ := pure_eq_ok.mp hrun
      exact hmemory
  | cons operation rest ih =>
      obtain ⟨hhead, hrest⟩ := List.forall_mem_cons.mp hplaced
      obtain ⟨undo', middle, hstep, -, hframe, hmiddle⟩ :=
        applyOperations_cons hmemory undo result rest hhead
          (applies_of_applyOperations_ok hmemory hhead hrun)
      rw [hstep] at hrun
      exact ih hmiddle (fun other hother =>
        (hrest other hother).sameFrame hframe) hrun

/-- An application goes through exactly when the plan is affordable, the
memory is the expected one and the operations can be performed. -/
theorem apply_ok_iff (hmemory : memory.WellFormed) :
    apply limits plan memory = .ok result next ↔
      Affordable limits plan ∧
        (plan.expectedChecksum = 0 ∨
          memoryChecksum memory = plan.expectedChecksum) ∧
        Performed plan.operations memory next ∧
        result = resultOf plan.operations next := by
  rw [apply_eq_ok, validate_eq_ok hmemory]
  constructor
  · rintro ⟨⟨haffordable, hplaced⟩, hchecksum, last, hloop, rfl⟩
    obtain ⟨hallowed, hassert⟩ :=
      (applyOperations_succeeds_iff hmemory hplaced).mp ⟨last, next, hloop⟩
    obtain ⟨hcontents, hframe, rfl⟩ :=
      applyOperations_ok hmemory hplaced hloop
    refine ⟨haffordable, hchecksum, ⟨hplaced, hallowed, hassert, hframe,
      applyOperations_wellFormed hmemory hplaced hloop, hcontents⟩, ?_⟩
    rw [foldl_countOperation, resultOf, PatchResult.mk.injEq]
    exact ⟨UInt32.zero_add _, UInt64.zero_add _, rfl⟩
  · rintro ⟨haffordable, hchecksum, hperformed, rfl⟩
    have hplaced := hperformed.placed
    refine ⟨⟨haffordable, hplaced⟩, hchecksum, ?_⟩
    obtain ⟨last, after, hloop⟩ :=
      (@applyOperations_succeeds_iff _ hmemory [] {} _ hplaced).mpr
        ⟨hperformed.allowed, hperformed.assertions⟩
    obtain ⟨hcontents, hframe, hlast⟩ :=
      applyOperations_ok hmemory hplaced hloop
    have hsame : after = next := eq_of_frame_of_contents
      (applyOperations_wellFormed hmemory hplaced hloop) hperformed.wellFormed
      (hframe.symm.trans hperformed.frame)
      (hcontents.trans hperformed.contents.symm)
    subst hsame
    refine ⟨last, hloop, ?_⟩
    rw [hlast, foldl_countOperation, resultOf, PatchResult.mk.injEq]
    exact ⟨(UInt32.zero_add _).symm, (UInt64.zero_add _).symm, rfl⟩

/-- Operations that can be performed leave some memory. -/
theorem exists_performed (hmemory : memory.WellFormed)
    (hplaced : ∀ operation ∈ operations, Placed memory operation)
    (hallowed : ∀ operation ∈ operations, Allowed memory operation)
    (hassert : AssertionsHold memory.contents operations) :
    ∃ next, Performed operations memory next := by
  obtain ⟨last, next, hloop⟩ :=
    (@applyOperations_succeeds_iff _ hmemory [] {} _ hplaced).mpr
      ⟨hallowed, hassert⟩
  obtain ⟨hcontents, hframe, -⟩ := applyOperations_ok hmemory hplaced hloop
  exact ⟨next, hplaced, hallowed, hassert, hframe,
    applyOperations_wellFormed hmemory hplaced hloop, hcontents⟩

theorem Allowed.sameFrame (hframe : SameFrame memory next)
    (hallowed : Allowed memory operation) : Allowed next operation :=
  ⟨readable_sameFrame hframe hallowed.1,
    fun hkind => readable_sameFrame hframe (hallowed.2 hkind)⟩

/-! ## Plans in two pieces -/

theorem assertionsHold_append : AssertionsHold contents (front ++ back) ↔
    AssertionsHold contents front ∧
      AssertionsHold (front.foldl effect contents) back := by
  induction front generalizing contents with
  | nil => simp [assertionsHold_nil]
  | cons operation front ih =>
      rw [List.cons_append, assertionsHold_cons, assertionsHold_cons, ih,
        List.foldl_cons, and_assoc]

theorem Performed.split (hmemory : memory.WellFormed)
    (hperformed : Performed (front ++ back) memory next) :
    ∃ middle, Performed front memory middle ∧ Performed back middle next := by
  obtain ⟨hplaced, hallowed, hassert, hframe, hnext, hcontents⟩ := hperformed
  rw [List.forall_mem_append] at hplaced hallowed
  rw [assertionsHold_append] at hassert
  obtain ⟨middle, hfront⟩ :=
    exists_performed hmemory hplaced.1 hallowed.1 hassert.1
  refine ⟨middle, hfront,
    { placed := fun operation hoperation =>
        (hplaced.2 operation hoperation).sameFrame hfront.frame
      allowed := fun operation hoperation =>
        (hallowed.2 operation hoperation).sameFrame hfront.frame
      assertions := hfront.contents ▸ hassert.2
      frame := hfront.frame.symm.trans hframe
      wellFormed := hnext
      contents := ?_ }⟩
  rw [hcontents, hfront.contents, List.foldl_append]

theorem Performed.append {middle : AddressSpace}
    (hfront : Performed front memory middle)
    (hback : Performed back middle next) :
    Performed (front ++ back) memory next := by
  refine
    { placed := List.forall_mem_append.mpr ⟨hfront.placed, ?_⟩
      allowed := List.forall_mem_append.mpr ⟨hfront.allowed, ?_⟩
      assertions := assertionsHold_append.mpr
        ⟨hfront.assertions, hfront.contents ▸ hback.assertions⟩
      frame := hfront.frame.trans hback.frame
      wellFormed := hback.wellFormed
      contents := ?_ }
  · intro operation hoperation
    exact (hback.placed operation hoperation).sameFrame hfront.frame.symm
  · intro operation hoperation
    exact (hback.allowed operation hoperation).sameFrame hfront.frame.symm
  · rw [hback.contents, hfront.contents, List.foldl_append]

/-- The first operations of a plan. -/
def firstPiece (plan : PatchPlan) (count : ℕ) : PatchPlan :=
  { plan with operations := plan.operations.take count, bytesWritten := 0 }

/-- The other operations, for whatever memory the first ones leave. -/
def lastPiece (plan : PatchPlan) (count : ℕ) : PatchPlan :=
  { plan with
    operations := plan.operations.drop count
    expectedChecksum := 0
    bytesWritten := 0 }

/-- The result of two applications together. -/
def together (first last : PatchResult) : PatchResult :=
  { operationsApplied := first.operationsApplied + last.operationsApplied
    bytesWritten := first.bytesWritten + last.bytesWritten
    resultingChecksum := last.resultingChecksum }

theorem writtenTotal_append (front back : List PatchOperation) :
    writtenTotal (front ++ back) = writtenTotal front + writtenTotal back := by
  rw [writtenTotal, List.map_append, List.sum_append]
  rfl

theorem resultOf_append (front back : List PatchOperation)
    (middle next : AddressSpace) :
    resultOf (front ++ back) next =
      together (resultOf front middle) (resultOf back next) := by
  rw [resultOf, List.length_append, writtenTotal_append, UInt32.ofNat_add,
    UInt64.ofNat_add]
  rfl

theorem Affordable.pieces (haffordable : Affordable limits plan) (count : ℕ) :
    Affordable limits (firstPiece plan count) ∧
      Affordable limits (lastPiece plan count) := by
  have hcount := haffordable.count
  have htotal := haffordable.total
  rw [← List.take_append_drop count plan.operations, writtenTotal_append]
    at htotal
  refine ⟨⟨?_, ?_, Or.inl rfl⟩, ⟨?_, ?_, Or.inl rfl⟩⟩
  · exact (List.length_take_le' _ _).trans hcount
  · exact (Nat.le_add_right _ _).trans htotal
  · exact (List.drop_sublist _ _).length_le.trans hcount
  · exact (Nat.le_add_left _ _).trans htotal

/-- A plan within its budget may be cut anywhere: applying it is applying its
two pieces one after the other. -/
theorem apply_in_pieces (hreachable : memory.Reachable) (count : ℕ) :
    apply limits plan memory = .ok result next ↔
      Affordable limits plan ∧ ∃ first middle last,
        apply limits (firstPiece plan count) memory = .ok first middle ∧
          apply limits (lastPiece plan count) middle = .ok last next ∧
          result = together first last := by
  have hmemory := hreachable.wellFormed
  rw [apply_ok_iff hmemory]
  refine and_congr_right fun haffordable => ?_
  obtain ⟨hfirst, hlast⟩ := haffordable.pieces count
  have hcut : plan.operations = (firstPiece plan count).operations ++
      (lastPiece plan count).operations :=
    (List.take_append_drop count plan.operations).symm
  constructor
  · rintro ⟨hchecksum, hperformed, rfl⟩
    rw [hcut] at hperformed
    obtain ⟨middle, hfront, hback⟩ := hperformed.split hmemory
    refine ⟨_, middle, _, (apply_ok_iff hmemory).mpr
        ⟨hfirst, hchecksum, hfront, rfl⟩,
      (apply_ok_iff hfront.wellFormed).mpr
        ⟨hlast, Or.inl rfl, hback, rfl⟩, ?_⟩
    rw [hcut]
    exact resultOf_append _ _ _ _
  · rintro ⟨first, middle, last, hfront, hback, rfl⟩
    obtain ⟨-, hchecksum, hperformed, rfl⟩ :=
      (apply_ok_iff hmemory).mp hfront
    obtain ⟨-, -, hrest, rfl⟩ :=
      (apply_ok_iff hperformed.wellFormed).mp hback
    refine ⟨hchecksum, ?_, ?_⟩
    · rw [hcut]
      exact hperformed.append hrest
    · rw [hcut]
      exact (resultOf_append _ _ _ _).symm

theorem apply_in_pieces_fill :
    let memory := (new {}).run [.map 0x1000 16 permissionRead (ascii "data")]
    let plan : PatchPlan :=
      { operations :=
          [{ kind := .fillBytes, address := 0x1000, length := 4, fill := 0x90 },
            { kind := .assertBytes, address := 0x1003, bytes := [0x90] },
            { kind := .writeBytes, address := 0x1001, bytes := [1, 2] }] }
    ∃ first middle last result next,
      apply {} plan memory = .ok result next ∧
        apply {} (firstPiece plan 1) memory = .ok first middle ∧
          apply {} (lastPiece plan 1) middle = .ok last next ∧
            result.bytesWritten = first.bytesWritten + last.bytesWritten := by
  intro memory plan
  obtain ⟨result, next, hrun⟩ := succeeded_iff.mp
    (by decide +kernel : succeeded (apply {} plan memory) = true)
  obtain ⟨-, first, middle, last, hfirst, hlast, htogether⟩ :=
    (apply_in_pieces (⟨_, _, rfl⟩ : memory.Reachable) 1).mp hrun
  exact ⟨first, middle, last, result, next, hrun, hfirst, hlast,
    congrArg PatchResult.bytesWritten htogether⟩

/-! ## Plans undone -/

/-- Put back what an operation writes over. -/
def undoing (contents : CellMemory UInt8) (operation : PatchOperation) :
    List PatchOperation :=
  if operation.kind = .assertBytes then []
  else
    [{ kind := .writeBytes, address := operation.address
       bytes := contents.load operation.address.toNat
        (operationSize operation) }]

/-- Put everything back, the last operation first. -/
def undoingAll :
    CellMemory UInt8 → List PatchOperation → List PatchOperation
  | _, [] => []
  | contents, operation :: rest =>
      undoingAll (effect contents operation) rest ++ undoing contents operation

def revert (memory : AddressSpace) (plan : PatchPlan) : PatchPlan :=
  { operations := undoingAll memory.contents plan.operations }

/-- The addresses of a range are mapped. -/
def Covers (contents : CellMemory UInt8) (address : UInt64) (size : ℕ) :
    Prop :=
  ∀ target, address.toNat ≤ target → target < address.toNat + size →
    (contents target).isSome

/-- The ranges of an operation are mapped. -/
structure Backed (contents : CellMemory UInt8) (operation : PatchOperation) :
    Prop where
  destination : Covers contents operation.address (operationSize operation)
  source : operation.kind = .copyBytes →
    Covers contents operation.sourceAddress (operationSize operation)

theorem covers_of_fullyMapped (hmemory : memory.WellFormed) {address : UInt64}
    {size : ℕ} (hmapped : fullyMapped memory address size = true) :
    Covers memory.contents address size := by
  intro target hlow hhigh
  obtain ⟨region, hregion, hcontains⟩ := fullyMapped_iff.mp hmapped
  obtain ⟨entry, hentryAt, rfl⟩ := Option.map_eq_some_iff.mp hregion
  have hentry := (hmemory.entryAt_eq_some.mp hentryAt).1
  have hrange := MemoryRegion.contains_iff.mp hcontains
  have hstored := hmemory.stored entry hentry
  rw [hmemory.contents_of_covers hentry ⟨by omega, by omega⟩,
    List.getElem?_eq_getElem (by
      unfold MemoryRegion.stop at hrange
      omega)]
  rfl

theorem Placed.backed (hmemory : memory.WellFormed)
    (hplaced : Placed memory operation) : Backed memory.contents operation :=
  ⟨covers_of_fullyMapped hmemory hplaced.destination,
    fun hkind => covers_of_fullyMapped hmemory (hplaced.source hkind)⟩

/-- An operation on mapped addresses stores as many bytes as its size. -/
theorem effect_eq_store (hbacked : Backed contents operation)
    (hkind : operation.kind ≠ .assertBytes) :
    ∃ bytes : Bytes, bytes.length = operationSize operation ∧
      effect contents operation =
        contents.store operation.address.toNat bytes := by
  have hsource := hbacked.source
  unfold operationSize at hsource ⊢
  unfold effect
  cases hcase : operation.kind with
  | writeBytes => exact ⟨operation.bytes, rfl, rfl⟩
  | fillBytes => exact ⟨_, List.length_replicate, rfl⟩
  | writeInteger => exact ⟨_, integerBytes_length _ _ _, rfl⟩
  | copyBytes =>
      rw [hcase] at hsource
      exact ⟨_, CellMemory.load_length (hsource rfl), rfl⟩
  | assertBytes => exact absurd hcase hkind

theorem effect_assert (hkind : operation.kind = .assertBytes) :
    effect contents operation = contents := by
  rw [effect, hkind]

theorem isSome_effect (hbacked : Backed contents operation) {target : ℕ}
    (hmapped : (contents target).isSome) :
    (effect contents operation target).isSome := by
  by_cases hkind : operation.kind = .assertBytes
  · rwa [effect_assert hkind]
  · obtain ⟨bytes, -, heffect⟩ := effect_eq_store hbacked hkind
    rw [heffect]
    exact CellMemory.isSome_store hmapped

theorem Backed.effect {other : PatchOperation}
    (hbacked : Backed contents operation) (hother : Backed contents other) :
    Backed (PatchEngine.effect contents operation) other :=
  ⟨fun target hlow hhigh =>
      isSome_effect hbacked (hother.destination target hlow hhigh),
    fun hkind target hlow hhigh =>
      isSome_effect hbacked (hother.source hkind target hlow hhigh)⟩

theorem effect_undoing (hbacked : Backed contents operation) :
    (undoing contents operation).foldl effect (effect contents operation) =
      contents := by
  unfold undoing
  by_cases hkind : operation.kind = .assertBytes
  · rw [if_pos hkind, effect_assert hkind]
    rfl
  · obtain ⟨bytes, hlength, heffect⟩ := effect_eq_store hbacked hkind
    rw [if_neg hkind, heffect]
    show (contents.store _ bytes).store _ (contents.load _ _) = contents
    rw [← hlength]
    refine CellMemory.store_undo ?_
    rw [hlength]
    exact hbacked.destination

theorem writtenTotal_undoing (hbacked : Backed contents operation) :
    writtenTotal (undoing contents operation) = writtenSize operation := by
  unfold undoing writtenSize
  by_cases hkind : operation.kind = .assertBytes
  · rw [if_pos hkind, if_pos hkind]
    rfl
  · rw [if_neg hkind, if_neg hkind]
    exact CellMemory.load_length hbacked.destination

/-- The whole of the plan is undone, with as many bytes written. -/
theorem foldl_undoingAll
    (hbacked : ∀ operation ∈ operations, Backed contents operation) :
    (undoingAll contents operations).foldl effect
        (operations.foldl effect contents) = contents ∧
      writtenTotal (undoingAll contents operations) =
        writtenTotal operations := by
  induction operations generalizing contents with
  | nil => exact ⟨rfl, rfl⟩
  | cons operation rest ih =>
      obtain ⟨hhead, hrest⟩ := List.forall_mem_cons.mp hbacked
      obtain ⟨hundone, htotal⟩ := ih fun other hother =>
        hhead.effect (hrest other hother)
      rw [undoingAll, List.foldl_cons, List.foldl_append, hundone,
        effect_undoing hhead, writtenTotal_append, htotal,
        writtenTotal_undoing hhead, Nat.add_comm]
      exact ⟨rfl, List.sum_cons.symm⟩

/-- What undoes a plan writes bytes where the plan wrote. -/
theorem mem_undoingAll {undone : PatchOperation}
    (hbacked : ∀ operation ∈ operations, Backed contents operation)
    (hundone : undone ∈ undoingAll contents operations) :
    ∃ operation ∈ operations, undone.kind = .writeBytes ∧
      undone.length = 0 ∧ undone.address = operation.address ∧
      undone.bytes.length = operationSize operation := by
  induction operations generalizing contents with
  | nil => contradiction
  | cons operation rest ih =>
      obtain ⟨hhead, hrest⟩ := List.forall_mem_cons.mp hbacked
      rw [undoingAll, List.mem_append] at hundone
      rcases hundone with hundone | hundone
      · obtain ⟨other, hother, hsame⟩ := ih (fun other hother =>
          hhead.effect (hrest other hother)) hundone
        exact ⟨other, List.mem_cons_of_mem _ hother, hsame⟩
      · refine ⟨operation, List.mem_cons_self, ?_⟩
        unfold undoing at hundone
        split at hundone
        · contradiction
        · obtain rfl := List.mem_singleton.mp hundone
          exact ⟨rfl, rfl, rfl, CellMemory.load_length hhead.destination⟩

theorem length_undoingAll (contents : CellMemory UInt8)
    (operations : List PatchOperation) :
    (undoingAll contents operations).length ≤ operations.length := by
  induction operations generalizing contents with
  | nil => exact le_rfl
  | cons operation rest ih =>
      have hhead : (undoing contents operation).length ≤ 1 := by
        unfold undoing
        split <;> simp
      have hrest := ih (effect contents operation)
      rw [undoingAll, List.length_append, List.length_cons]
      omega

theorem assertionsHold_of_writes
    (hwrites : ∀ operation ∈ operations, operation.kind = .writeBytes) :
    AssertionsHold contents operations := by
  rintro done operation rest rfl hkind
  rw [hwrites operation (by simp)] at hkind
  contradiction

/-- Whatever a plan did to a memory, the plan that puts the old bytes back is
accepted and leaves the memory as it was. -/
theorem revert_restores (hreachable : memory.Reachable)
    (hrun : apply limits plan memory = .ok result next) :
    ∃ undone, apply limits (revert memory plan) next = .ok undone memory ∧
      undone.bytesWritten = result.bytesWritten := by
  have hmemory := hreachable.wellFormed
  obtain ⟨haffordable, -, hperformed, rfl⟩ := (apply_ok_iff hmemory).mp hrun
  have hbacked : ∀ operation ∈ plan.operations,
      Backed memory.contents operation := fun operation hoperation =>
    (hperformed.placed operation hoperation).backed hmemory
  obtain ⟨hcontents, htotal⟩ := foldl_undoingAll hbacked
  refine ⟨_, (apply_ok_iff hperformed.wellFormed).mpr
    ⟨⟨?_, ?_, Or.inl rfl⟩, Or.inl rfl,
      { placed := fun undone hundone => ?_
        allowed := fun undone hundone => ?_
        assertions := assertionsHold_of_writes fun undone hundone => ?_
        frame := hperformed.frame.symm
        wellFormed := hmemory
        contents := ?_ }, rfl⟩, congrArg UInt64.ofNat htotal⟩
  · exact (length_undoingAll _ _).trans haffordable.count
  · exact htotal.le.trans haffordable.total
  · obtain ⟨operation, hoperation, hkind, hlength, haddress, hbytes⟩ :=
      mem_undoingAll hbacked hundone
    have hplaced :=
      (hperformed.placed operation hoperation).sameFrame hperformed.frame
    have hsize : operationSize undone = operationSize operation := by
      rw [← hbytes, operationSize, hkind]
    refine ⟨?_, hsize ▸ hplaced.nonempty, ?_, fun hcopy => ?_⟩
    · rw [operationSizeValid, hkind, hlength]
      rfl
    · rw [hsize, haddress]
      exact hplaced.destination
    · rw [hkind] at hcopy
      contradiction
  · obtain ⟨operation, hoperation, hkind, -, haddress, -⟩ :=
      mem_undoingAll hbacked hundone
    refine ⟨?_, fun hcopy => ?_⟩
    · rw [haddress]
      exact ((hperformed.allowed operation hoperation).sameFrame
        hperformed.frame).1
    · rw [hkind] at hcopy
      contradiction
  · obtain ⟨-, -, hkind, -⟩ := mem_undoingAll hbacked hundone
    exact hkind
  · rw [hperformed.contents]
    exact hcontents.symm

theorem revert_restores_overlap :
    let memory := (new {}).run [.map 0x1000 16 permissionRead (ascii "data")]
    let plan : PatchPlan :=
      { operations :=
          [{ kind := .fillBytes, address := 0x1000, length := 4, fill := 0x90 },
            { kind := .copyBytes, address := 0x1002, sourceAddress := 0x1000,
              length := 4 }] }
    ∃ result next undone, apply {} plan memory = .ok result next ∧
      apply {} (revert memory plan) next = .ok undone memory := by
  intro memory plan
  obtain ⟨result, next, hrun⟩ := succeeded_iff.mp
    (by decide +kernel : succeeded (apply {} plan memory) = true)
  obtain ⟨undone, hundone, -⟩ :=
    revert_restores (⟨_, _, rfl⟩ : memory.Reachable) hrun
  exact ⟨result, next, undone, hrun, hundone⟩

end PatchEngine
end BinForge
