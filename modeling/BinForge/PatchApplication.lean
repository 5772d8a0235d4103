import BinForge.Patch
import BinForge.StoredInteger

/-!
# Patch application is transactional

An operation that was performed is undone by writing back the bytes it read
first.  The undo log therefore stands for the initial memory at every step of
the loop, and a failing `apply` hands that memory back.  A completed `apply`
has stored every operation's effect in order.
-/

namespace BinForge

open StatefulExcept
open ListSplice

namespace AddressSpace

variable {memory next : AddressSpace}

theorem read_ok_length (hmemory : memory.WellFormed) {address : UInt64}
    {size : ℕ} {value : Bytes}
    (hrun : read address size memory = .ok value next) :
    value.length = size := by
  by_cases hsize : size = 0
  · subst hsize
    rw [read, if_pos rfl, pure_eq_ok] at hrun
    rw [← hrun.1, List.length_nil]
  · obtain ⟨region, hfound, hfit, _, rfl, rfl⟩ := (read_eq_ok hsize).mp hrun
    obtain ⟨entry, hentryAt, rfl⟩ := Option.map_eq_some_iff.mp hfound
    have hentry := (hmemory.entryAt_eq_some.mp hentryAt).1
    have hstored := hmemory.stored entry hentry
    have hrange := MemoryRegion.contains_iff.mp hfit
    unfold MemoryRegion.stop at hrange
    apply slice_length
    rw [UInt64.toNat_sub_of_le _ _ (UInt64.le_iff_toNat_le.mpr hrange.1)]
    omega

theorem write_read_self (hmemory : memory.WellFormed) {address : UInt64}
    {size : ℕ} {before : Bytes}
    (hread : read address size memory = .ok before memory) :
    write address before true memory = .ok () memory := by
  have hlength := read_ok_length hmemory hread
  by_cases hsize : size = 0
  · rw [List.eq_nil_of_length_eq_zero (hlength.trans hsize), write_nil]
  obtain ⟨region, hfound, hfit, _, hbefore, _⟩ := (read_eq_ok hsize).mp hread
  obtain ⟨entry, hentryAt, rfl⟩ := Option.map_eq_some_iff.mp hfound
  have hentry := (hmemory.entryAt_eq_some.mp hentryAt).1
  have hnonempty : before ≠ [] := by
    intro hnil
    rw [hnil, List.length_nil] at hlength
    omega
  refine (write_eq_ok hnonempty).mpr ⟨entry, hentryAt, by rwa [hlength],
    Or.inl rfl, ?_⟩
  rw [OrderedMap.adjust_id]
  intro region hregion
  have hsame : entry = (entry.1, region) :=
    OrderedMap.key_injective hentry hregion rfl
  have hroom := hmemory.copyInto_length hentry (by rwa [hlength])
  rw [hlength, hsame] at hroom
  rw [hbefore, hsame, copyInto, splice_slice_self hroom]

theorem write_undo (hmemory : memory.WellFormed) {address : UInt64}
    {before input : Bytes} {value : Unit}
    (hread : read address input.length memory = .ok before memory)
    (hwrite : write address input true memory = .ok value next) :
    write address before true next = .ok () memory := by
  have hlength := read_ok_length hmemory hread
  have hnext := write_ok_wellFormed hmemory hwrite
  by_cases hinput : input = []
  · subst hinput
    rw [write_nil, EStateM.Result.ok.injEq] at hwrite
    rw [List.eq_nil_of_length_eq_zero hlength, write_nil, hwrite.2]
  have hsize : input.length ≠ 0 := by simpa using hinput
  obtain ⟨entry, hentryAt, hfit, _, rfl⟩ := (write_eq_ok hinput).mp hwrite
  obtain ⟨region, hfound, _, _, hbefore, _⟩ := (read_eq_ok hsize).mp hread
  have hentry := (hmemory.entryAt_eq_some.mp hentryAt).1
  have hcovers := (hmemory.entryAt_eq_some.mp hentryAt).2
  have hregion : region = entry.2 := by
    rw [regionAt, hentryAt, Option.map_some, Option.some.injEq] at hfound
    exact hfound.symm
  have hnonempty : before ≠ [] := by
    intro hnil
    rw [hnil, List.length_nil] at hlength
    exact hsize hlength.symm
  have hwritten : (entry.1, copyInto address input entry.2) ∈
      (memory.regions.adjust entry.1 (copyInto address input)).entries :=
    OrderedMap.mem_adjust.mpr (Or.inr ⟨entry.2, hentry, rfl⟩)
  refine (write_eq_ok hnonempty).mpr
    ⟨(entry.1, copyInto address input entry.2),
      hnext.entryAt_eq_some.mpr ⟨hwritten, hcovers⟩, ?_, Or.inl rfl, ?_⟩
  · rw [hlength]
    exact hfit
  · ext1
    · rfl
    · show memory.regions = (memory.regions.adjust _ _).adjust _ _
      rw [OrderedMap.adjust_adjust, OrderedMap.adjust_id]
      intro stored hstored
      have hsame : entry = (entry.1, stored) :=
        OrderedMap.key_injective hentry hstored rfl
      have hroom := hmemory.copyInto_length hentry hfit
      rw [hsame] at hroom
      rw [hbefore, hregion, hsame]
      simp only [copyInto]
      rw [splice_undo hroom rfl]
    · rfl

end AddressSpace

namespace PatchEngine

open AddressSpace

variable {memory next start : AddressSpace} {why : Failure}

/-! ## The undo log -/

theorem performOperation_eq_write (hmemory : memory.WellFormed)
    {operation : PatchOperation} {value : Unit}
    (hrun : performOperation operation memory = .ok value next)
    (hkind : operation.kind ≠ .assertBytes) :
    ∃ input, input.length = operationSize operation ∧
      write operation.address input true memory = .ok value next := by
  unfold performOperation at hrun
  cases hcase : operation.kind with
  | writeBytes =>
      rw [hcase] at hrun
      exact ⟨operation.bytes, by simp [operationSize, hcase], hrun⟩
  | fillBytes =>
      rw [hcase] at hrun
      exact ⟨_, List.length_replicate .., hrun⟩
  | writeInteger =>
      rw [hcase] at hrun
      refine ⟨_, ?_, (writeInteger_ok_write.mp hrun).2⟩
      simp only [operationSize, hcase, integerBytes]
      cases operation.byteOrder <;> simp
  | copyBytes =>
      rw [hcase] at hrun
      obtain ⟨copy, middle, hread, hwrite⟩ := bind_eq_ok.mp hrun
      have hsame := (read_ok_contents hmemory hread).2
      subst middle
      exact ⟨copy, read_ok_length hmemory hread, hwrite⟩
  | assertBytes => exact absurd hcase hkind

theorem performOperation_atomic (operation : PatchOperation) :
    Atomic (performOperation operation) := by
  unfold performOperation
  split
  · exact write_atomic _ _ _
  · exact write_atomic _ _ _
  · exact writeInteger_atomic _ _ _ _ _
  · exact (read_readOnly _ _).bind_atomic fun _ => write_atomic _ _ _
  · exact (readOnly_pure _).atomic

/-- Rolling the log back from `memory` gives `start`. -/
structure Restores (start memory : AddressSpace) (undo : List Undo) :
    Prop where
  wellFormed : memory.WellFormed
  rollback : rollback undo memory = start

theorem Restores.nil (hstart : start.WellFormed) : Restores start start [] :=
  ⟨hstart, rfl⟩

theorem rollback_cons (entry : Undo) (undo : List Undo)
    (memory : AddressSpace) :
    PatchEngine.rollback (entry :: undo) memory =
      PatchEngine.rollback undo (undoOne memory entry) := rfl

/-- The log extended by the bytes read before an operation still restores the
start, whether the operation succeeds or fails. -/
theorem Restores.push {undo : List Undo} (hlog : Restores start memory undo)
    {operation : PatchOperation} {before : Bytes}
    (hread : read operation.address (operationSize operation) memory =
      .ok before memory)
    (hkind : operation.kind ≠ .assertBytes) :
    (∀ value next, performOperation operation memory = .ok value next →
        Restores start next (⟨operation.address, before⟩ :: undo)) ∧
      ∀ why next, performOperation operation memory = .error why next →
        PatchEngine.rollback (⟨operation.address, before⟩ :: undo) next =
          start := by
  constructor
  · intro value next hrun
    obtain ⟨input, hinput, hwrite⟩ :=
      performOperation_eq_write hlog.wellFormed hrun hkind
    refine ⟨write_ok_wellFormed hlog.wellFormed hwrite, ?_⟩
    rw [← hinput] at hread
    rw [rollback_cons, undoOne, write_undo hlog.wellFormed hread hwrite,
      finalState_ok]
    exact hlog.rollback
  · intro why next hrun
    rw [performOperation_atomic operation memory why next hrun, rollback_cons,
      undoOne, write_read_self hlog.wellFormed hread, finalState_ok]
    exact hlog.rollback

theorem applyOperations_error {undo : List Undo} {result : PatchResult}
    {operations : List PatchOperation} (hlog : Restores start memory undo)
    (hrun : applyOperations undo result operations memory = .error why next) :
    next = start := by
  induction operations generalizing memory undo result with
  | nil => simp [applyOperations, pure_apply] at hrun
  | cons operation rest ih =>
      unfold applyOperations at hrun
      rcases bind_eq_error.mp hrun with hread | ⟨before, middle, hread, hrest⟩
      · obtain ⟨last, hfail, rfl⟩ := withCleanup_eq_error.mp hread
        rw [(read_readOnly _ _).atomic memory why last hfail]
        exact hlog.rollback
      · rw [withCleanup_eq_ok] at hread
        have hsame := (read_ok_contents hlog.wellFormed hread).2
        subst middle
        split at hrest
        · rcases bind_eq_error.mp hrest with hbad | ⟨_, middle, hok, htail⟩
          · obtain ⟨last, hfail, rfl⟩ := withCleanup_eq_error.mp hbad
            rw [(rejectIf_eq_error.mp hfail).2.2]
            exact hlog.rollback
          · rw [withCleanup_eq_ok] at hok
            rw [(rejectIf_eq_ok.mp hok).2] at htail
            exact ih hlog htail
        · rename_i hkind
          obtain ⟨hok, herror⟩ := hlog.push hread hkind
          rcases bind_eq_error.mp hrest with hbad | ⟨_, middle, hdone, htail⟩
          · obtain ⟨last, hfail, rfl⟩ := withCleanup_eq_error.mp hbad
            exact herror why last hfail
          · rw [withCleanup_eq_ok] at hdone
            exact ih (hok _ middle hdone) htail

/-- A failing application leaves regions, bytes and totals as they were. -/
theorem apply_error_unchanged {limits : Limits} {plan : PatchPlan}
    (hreachable : memory.Reachable)
    (hrun : apply limits plan memory = .error why next) : next = memory := by
  have hmemory := hreachable.wellFormed
  unfold apply at hrun
  rw [bind_of_ok (get_apply memory)] at hrun
  rcases bind_eq_error.mp hrun with hinvalid | ⟨_, checked, hvalid, hrun⟩
  · exact (readOnly_liftExcept _).atomic memory why next hinvalid
  have hchecked : checked = memory := by
    have hstate := readOnly_liftExcept (validate limits plan memory) memory
    rwa [hvalid, finalState_ok] at hstate
  subst checked
  rcases bind_eq_error.mp hrun with hstale | ⟨_, agreed, hfresh, hrun⟩
  · exact (rejectIf_eq_error.mp hstale).2.2
  rw [(rejectIf_eq_ok.mp hfresh).2] at hrun
  rcases bind_eq_error.mp hrun with hloop | ⟨result, last, _, hreturn⟩
  · exact applyOperations_error (Restores.nil hmemory) hloop
  · rw [bind_of_ok (get_apply last), pure_apply] at hreturn
    contradiction

/-- An assertion that fails after a fill and a copy over the filled bytes. -/
theorem apply_error_unchanged_after_overlap :
    let memory := (new {}).run [.map 0x1000 16 permissionRead (ascii "data")]
    let plan : PatchPlan :=
      { operations :=
          [{ kind := .fillBytes, address := 0x1000, length := 4, fill := 0x90 },
            { kind := .copyBytes, address := 0x1002, sourceAddress := 0x1000,
              length := 4 },
            { kind := .assertBytes, address := 0x1005, bytes := [0] }] }
    ∃ why next, apply {} plan memory = .error why next ∧ next = memory := by
  intro memory plan
  obtain ⟨why, next, hrun⟩ := not_succeeded_iff.mp
    (by decide +kernel : succeeded (apply {} plan memory) = false)
  exact ⟨why, next, hrun, apply_error_unchanged ⟨_, _, rfl⟩ hrun⟩

/-! ## What a completed application did -/

/-- The first byte of the range lies in a readable region. -/
def Readable (memory : AddressSpace) (address : UInt64) : Prop :=
  ∃ region, memory.regionAt address = some region ∧
    hasPermission region.permissions permissionRead

/-- What an operation makes of the memory's contents. -/
def effect (contents : CellMemory UInt8) (operation : PatchOperation) :
    CellMemory UInt8 :=
  match operation.kind with
  | .writeBytes => contents.store operation.address.toNat operation.bytes
  | .fillBytes =>
      contents.store operation.address.toNat
        (List.replicate operation.length.toNat operation.fill)
  | .writeInteger =>
      contents.store operation.address.toNat
        (integerBytes operation.byteOrder operation.width operation.integer)
  | .copyBytes =>
      contents.store operation.address.toNat
        (contents.load operation.sourceAddress.toNat operation.length.toNat)
  | .assertBytes => contents

/-- Every assertion holds of the contents the operations before it leave. -/
def AssertionsHold (contents : CellMemory UInt8)
    (operations : List PatchOperation) : Prop :=
  ∀ done operation rest, operations = done ++ operation :: rest →
    operation.kind = .assertBytes →
      (done.foldl effect contents).load operation.address.toNat
        operation.bytes.length = operation.bytes

def writtenSize (operation : PatchOperation) : ℕ :=
  if operation.kind = .assertBytes then 0 else operationSize operation

theorem assertionsHold_nil (contents : CellMemory UInt8) :
    AssertionsHold contents [] := by
  intro done operation rest hsplit
  simp at hsplit

theorem assertionsHold_cons {contents : CellMemory UInt8}
    {operation : PatchOperation} {rest : List PatchOperation} :
    AssertionsHold contents (operation :: rest) ↔
      (operation.kind = .assertBytes →
        contents.load operation.address.toNat operation.bytes.length =
          operation.bytes) ∧
        AssertionsHold (effect contents operation) rest := by
  constructor
  · intro hall
    refine ⟨hall [] operation rest rfl, ?_⟩
    intro done later tail hsplit hkind
    exact hall (operation :: done) later tail (by rw [hsplit]; rfl) hkind
  · rintro ⟨hhead, htail⟩ done later tail hsplit hkind
    cases done with
    | nil =>
        rw [List.nil_append, List.cons.injEq] at hsplit
        obtain ⟨rfl, _⟩ := hsplit
        exact hhead hkind
    | cons first done =>
        rw [List.cons_append, List.cons.injEq] at hsplit
        obtain ⟨rfl, hsplit⟩ := hsplit
        exact htail done later tail hsplit hkind

/-- What `validate` checks of one operation. -/
structure Placed (memory : AddressSpace) (operation : PatchOperation) :
    Prop where
  sizeValid : operationSizeValid operation = true
  nonempty : operationSize operation ≠ 0
  destination :
    fullyMapped memory operation.address (operationSize operation) = true
  source : operation.kind = .copyBytes →
    fullyMapped memory operation.sourceAddress (operationSize operation) = true

theorem fullyMapped_iff {address : UInt64} {size : ℕ} :
    fullyMapped memory address size = true ↔
      ∃ region, memory.regionAt address = some region ∧
        region.contains address size = true := by
  unfold fullyMapped
  cases memory.regionAt address <;> simp

theorem fullyMapped_size_lt {address : UInt64} {size : ℕ}
    (hmapped : fullyMapped memory address size = true) : size < 2 ^ 64 := by
  obtain ⟨region, _, hcontains⟩ := fullyMapped_iff.mp hmapped
  have hrange := MemoryRegion.contains_iff.mp hcontains
  have hsize := region.size.toNat_lt
  unfold MemoryRegion.stop at hrange
  omega

theorem countWritten_ok {limits : Limits} {totalWritten total : UInt64}
    {operation : PatchOperation}
    (hsmall : operationSize operation < 2 ^ 64)
    (hrun : countWritten limits totalWritten operation = .ok total) :
    total.toNat = totalWritten.toNat + writtenSize operation := by
  unfold countWritten at hrun
  unfold writtenSize
  by_cases hkind : operation.kind = .assertBytes
  · rw [if_pos hkind] at hrun ⊢
    injection hrun with hsame
    rw [hsame, Nat.add_zero]
  · rw [if_neg hkind, demand_except_bind_eq_ok] at hrun
    obtain ⟨next, hsum, hrun⟩ := hrun
    obtain ⟨_, hrun⟩ := rejectIf_except_bind_eq_ok.mp hrun
    injection hrun with hsame
    rw [if_neg hkind, ← hsame, checkedAdd_toNat hsum,
      UInt64.toNat_ofNat_of_lt' hsmall]

theorem validateOperation_ok {limits : Limits} {index : ℕ}
    {totalWritten total : UInt64} {operation : PatchOperation}
    (hrun : validateOperation limits memory index totalWritten operation =
      .ok total) :
    Placed memory operation ∧
      total.toNat = totalWritten.toNat + writtenSize operation := by
  unfold validateOperation at hrun
  simp only [rejectIf_except_bind_eq_ok, demand_except_bind_eq_ok, not_or,
    Bool.not_eq_false] at hrun
  obtain ⟨⟨hvalid, hnonempty⟩, _, _, hdestination, hrun⟩ := hrun
  have hsmall := fullyMapped_size_lt hdestination
  by_cases hcopy : operation.kind = .copyBytes
  · simp only [if_pos hcopy, rejectIf_except_bind_eq_ok,
      demand_except_bind_eq_ok, Bool.not_eq_false] at hrun
    obtain ⟨_, _, hsource, hrun⟩ := hrun
    exact ⟨⟨hvalid, hnonempty, hdestination, fun _ => hsource⟩,
      countWritten_ok hsmall hrun⟩
  · rw [if_neg hcopy] at hrun
    exact ⟨⟨hvalid, hnonempty, hdestination, fun hkind => absurd hkind hcopy⟩,
      countWritten_ok hsmall hrun⟩

theorem validateOperations_ok {limits : Limits} {index : ℕ}
    {totalWritten total : UInt64} {operations : List PatchOperation}
    (hrun : validateOperations limits memory index totalWritten operations =
      .ok total) :
    (∀ operation ∈ operations, Placed memory operation) ∧
      total.toNat = totalWritten.toNat + (operations.map writtenSize).sum := by
  induction operations generalizing index totalWritten with
  | nil =>
      injection hrun with hsame
      simp [hsame]
  | cons operation rest ih =>
      obtain ⟨next, hhead, hrest⟩ := except_bind_eq_ok.mp hrun
      obtain ⟨hplaced, hnext⟩ := validateOperation_ok hhead
      obtain ⟨hall, htotal⟩ := ih hrest
      refine ⟨?_, ?_⟩
      · intro other hother
        rcases List.mem_cons.mp hother with rfl | hother
        · exact hplaced
        · exact hall other hother
      · rw [htotal, hnext, List.map_cons, List.sum_cons]
        omega

theorem validate_ok {limits : Limits} {plan : PatchPlan}
    (hrun : validate limits plan memory = .ok ()) :
    plan.operations.length < 2 ^ 32 ∧
      (∀ operation ∈ plan.operations, Placed memory operation) ∧
      (plan.operations.map writtenSize).sum < 2 ^ 64 := by
  unfold validate at hrun
  obtain ⟨hcount, hrun⟩ := rejectIf_except_bind_eq_ok.mp hrun
  obtain ⟨total, hloop, _⟩ := except_bind_eq_ok.mp hrun
  obtain ⟨hplaced, htotal⟩ := validateOperations_ok hloop
  have hlimit := limits.maxRelocations.toNat_lt
  have hbound := total.toNat_lt
  rw [UInt64.toNat_zero] at htotal
  exact ⟨by omega, hplaced, by omega⟩

/-! ## One operation -/

theorem fullyMapped_sameFrame (hframe : SameFrame memory next)
    (address : UInt64) (size : ℕ) :
    fullyMapped next address size = fullyMapped memory address size := by
  have hregion := hframe.regionAt address
  unfold fullyMapped
  cases hold : memory.regionAt address with
  | none =>
      rw [hold, Option.map_none, Option.map_eq_none_iff] at hregion
      rw [hregion]
  | some region =>
      rw [hold, Option.map_some, Option.map_eq_some_iff] at hregion
      obtain ⟨after, hafter, hsame⟩ := hregion
      rw [hafter]
      show after.contains address size = region.contains address size
      simp only [MemoryRegion.mk.injEq] at hsame
      simp only [MemoryRegion.contains, hsame]

theorem readable_sameFrame (hframe : SameFrame memory next)
    {address : UInt64} (hreadable : Readable memory address) :
    Readable next address := by
  obtain ⟨region, hold, hpermission⟩ := hreadable
  have hregion := hframe.regionAt address
  rw [hold, Option.map_some, Option.map_eq_some_iff] at hregion
  obtain ⟨after, hafter, hsame⟩ := hregion
  simp only [MemoryRegion.mk.injEq] at hsame
  exact ⟨after, hafter, by rw [hsame.2.2.1]; exact hpermission⟩

theorem Placed.sameFrame (hframe : SameFrame memory next)
    {operation : PatchOperation} (hplaced : Placed memory operation) :
    Placed next operation :=
  ⟨hplaced.sizeValid, hplaced.nonempty,
    (fullyMapped_sameFrame hframe _ _).trans hplaced.destination,
    fun hkind => (fullyMapped_sameFrame hframe _ _).trans
      (hplaced.source hkind)⟩

theorem read_succeeds_iff (hmemory : memory.WellFormed) {address : UInt64}
    {size : ℕ} (hsize : size ≠ 0)
    (hmapped : fullyMapped memory address size = true) :
    read address size memory =
        .ok (memory.contents.load address.toNat size) memory ↔
      Readable memory address := by
  obtain ⟨region, hregion, hcontains⟩ := fullyMapped_iff.mp hmapped
  constructor
  · intro hrun
    obtain ⟨found, hfound, _, hpermission, _⟩ := (read_eq_ok hsize).mp hrun
    exact ⟨found, hfound, hpermission⟩
  · rintro ⟨found, hfound, hpermission⟩
    rw [hregion, Option.some.injEq] at hfound
    subst hfound
    have hrun : read address size memory = .ok _ memory :=
      (read_eq_ok hsize).mpr
        ⟨region, hregion, hcontains, hpermission, rfl, rfl⟩
    rw [hrun, (read_ok_contents hmemory hrun).1]

theorem write_succeeds {address : UInt64} {input : Bytes}
    (hmapped : fullyMapped memory address input.length = true) :
    ∃ next, write address input true memory = .ok () next := by
  by_cases hinput : input = []
  · exact ⟨memory, by rw [hinput, write_nil]⟩
  obtain ⟨region, hregion, hcontains⟩ := fullyMapped_iff.mp hmapped
  obtain ⟨entry, hentry, rfl⟩ := Option.map_eq_some_iff.mp hregion
  exact ⟨_, (write_eq_ok hinput).mpr
    ⟨entry, hentry, hcontains, Or.inl rfl, rfl⟩⟩

/-- The conditions beyond `Placed` under which an operation goes through. -/
structure Applies (memory : AddressSpace) (operation : PatchOperation) :
    Prop where
  destination : Readable memory operation.address
  source : operation.kind = .copyBytes →
    Readable memory operation.sourceAddress
  assertion : operation.kind = .assertBytes →
    memory.contents.load operation.address.toNat operation.bytes.length =
      operation.bytes

theorem performOperation_ok (hmemory : memory.WellFormed)
    {operation : PatchOperation} {value : Unit}
    (hrun : performOperation operation memory = .ok value next) :
    next.contents = effect memory.contents operation ∧
      SameFrame memory next ∧ next.WellFormed := by
  unfold performOperation at hrun
  unfold effect
  cases hkind : operation.kind with
  | writeBytes =>
      rw [hkind] at hrun
      exact ⟨write_ok_contents hmemory hrun, write_ok_frame hrun,
        write_ok_wellFormed hmemory hrun⟩
  | fillBytes =>
      simp only [hkind, operationSize] at hrun
      exact ⟨write_ok_contents hmemory hrun, write_ok_frame hrun,
        write_ok_wellFormed hmemory hrun⟩
  | writeInteger =>
      rw [hkind] at hrun
      have hwrite := (writeInteger_ok_write.mp hrun).2
      exact ⟨write_ok_contents hmemory hwrite, write_ok_frame hwrite,
        write_ok_wellFormed hmemory hwrite⟩
  | copyBytes =>
      simp only [hkind, operationSize] at hrun
      obtain ⟨copy, middle, hread, hwrite⟩ := bind_eq_ok.mp hrun
      obtain ⟨rfl, rfl⟩ := read_ok_contents hmemory hread
      exact ⟨write_ok_contents hmemory hwrite, write_ok_frame hwrite,
        write_ok_wellFormed hmemory hwrite⟩
  | assertBytes =>
      simp only [hkind, pure_eq_ok] at hrun
      rw [← hrun.2]
      exact ⟨rfl, SameFrame.refl memory, hmemory⟩

theorem performOperation_succeeds_iff (hmemory : memory.WellFormed)
    {operation : PatchOperation} (hplaced : Placed memory operation) :
    (∃ next, performOperation operation memory = .ok () next) ↔
      (operation.kind = .copyBytes →
        Readable memory operation.sourceAddress) := by
  have hdestination := hplaced.destination
  have hvalid := hplaced.sizeValid
  unfold performOperation
  cases hkind : operation.kind with
  | writeBytes =>
      simp only [operationSize, hkind] at hdestination
      simpa using write_succeeds hdestination
  | fillBytes =>
      have hlength := List.length_replicate (n := operationSize operation)
        (a := operation.fill)
      rw [← hlength] at hdestination
      simpa using write_succeeds hdestination
  | writeInteger =>
      simp only [operationSize, operationSizeValid, hkind] at hdestination hvalid
      rw [← integerBytes_length operation.byteOrder operation.width
        operation.integer] at hdestination
      obtain ⟨next, hwrite⟩ := write_succeeds hdestination
      have hrun := writeInteger_ok_write.mpr ⟨hvalid, hwrite⟩
      simpa using ⟨next, hrun⟩
  | copyBytes =>
      simp only [forall_const]
      have hmapped := hplaced.source hkind
      rw [← read_succeeds_iff hmemory hplaced.nonempty hmapped]
      constructor
      · rintro ⟨next, hrun⟩
        obtain ⟨copy, middle, hread, _⟩ := bind_eq_ok.mp hrun
        obtain ⟨hcopy, rfl⟩ := read_ok_contents hmemory hread
        rw [hread, hcopy]
      · intro hread
        rw [← read_ok_length hmemory hread] at hdestination
        obtain ⟨next, hwrite⟩ := write_succeeds hdestination
        exact ⟨next, by rw [bind_of_ok hread, hwrite]⟩
  | assertBytes => simp [pure_apply]

/-! ## The loop -/

/-- The result after one more operation. -/
def countOperation (result : PatchResult) (operation : PatchOperation) :
    PatchResult :=
  { result with
    operationsApplied := result.operationsApplied + 1
    bytesWritten := result.bytesWritten + UInt64.ofNat (writtenSize operation) }

theorem operationSize_assert {operation : PatchOperation}
    (hkind : operation.kind = .assertBytes) :
    operationSize operation = operation.bytes.length := by
  rw [operationSize, hkind]

theorem applyOperations_cons (hmemory : memory.WellFormed) (undo : List Undo)
    (result : PatchResult) {operation : PatchOperation}
    (rest : List PatchOperation) (hplaced : Placed memory operation)
    (happlies : Applies memory operation) :
    ∃ undo' next,
      applyOperations undo result (operation :: rest) memory =
          applyOperations undo' (countOperation result operation) rest next ∧
        next.contents = effect memory.contents operation ∧
        SameFrame memory next ∧ next.WellFormed := by
  have hread := (read_succeeds_iff hmemory hplaced.nonempty
    hplaced.destination).mpr happlies.destination
  rw [applyOperations, bind_of_ok (withCleanup_eq_ok.mpr hread)]
  by_cases hkind : operation.kind = .assertBytes
  · rw [if_pos hkind, operationSize_assert hkind, happlies.assertion hkind,
      bind_of_ok (withCleanup_eq_ok.mpr (rejectIf_of_not _ _ (not_not.mpr rfl)))]
    refine ⟨undo, memory, ?_, by rw [effect, hkind], SameFrame.refl memory,
      hmemory⟩
    rw [countOperation, writtenSize, if_pos hkind]
    simp
  · rw [if_neg hkind]
    obtain ⟨next, hrun⟩ :=
      (performOperation_succeeds_iff hmemory hplaced).mpr happlies.source
    rw [bind_of_ok (withCleanup_eq_ok.mpr hrun)]
    refine ⟨⟨operation.address, memory.contents.load operation.address.toNat
      (operationSize operation)⟩ :: undo, next, ?_,
      performOperation_ok hmemory hrun⟩
    rw [countOperation, writtenSize, if_neg hkind]

theorem applies_of_applyOperations_ok (hmemory : memory.WellFormed)
    {undo : List Undo} {result last : PatchResult} {operation : PatchOperation}
    {rest : List PatchOperation} (hplaced : Placed memory operation)
    (hrun : applyOperations undo result (operation :: rest) memory =
      .ok last next) : Applies memory operation := by
  unfold applyOperations at hrun
  obtain ⟨before, middle, hread, hrun⟩ := bind_eq_ok.mp hrun
  rw [withCleanup_eq_ok] at hread
  obtain ⟨rfl, rfl⟩ := read_ok_contents hmemory hread
  have hreadable := (read_succeeds_iff hmemory hplaced.nonempty
    hplaced.destination).mp hread
  by_cases hkind : operation.kind = .assertBytes
  · rw [if_pos hkind] at hrun
    obtain ⟨_, _, hcheck, _⟩ := bind_eq_ok.mp hrun
    rw [withCleanup_eq_ok] at hcheck
    have hsame := not_not.mp (rejectIf_eq_ok.mp hcheck).1
    rw [operationSize_assert hkind] at hsame
    exact ⟨hreadable, by simp [hkind], fun _ => hsame⟩
  · rw [if_neg hkind] at hrun
    obtain ⟨_, after, hperform, _⟩ := bind_eq_ok.mp hrun
    rw [withCleanup_eq_ok] at hperform
    exact ⟨hreadable, (performOperation_succeeds_iff hmemory hplaced).mp
      ⟨after, hperform⟩, fun h => absurd h hkind⟩

/-- The loop completes exactly when every operation is readable and every
assertion holds. -/
theorem applyOperations_succeeds_iff (hmemory : memory.WellFormed)
    {undo : List Undo} {result : PatchResult}
    {operations : List PatchOperation}
    (hplaced : ∀ operation ∈ operations, Placed memory operation) :
    (∃ last next, applyOperations undo result operations memory =
        .ok last next) ↔
      (∀ operation ∈ operations, Readable memory operation.address ∧
        (operation.kind = .copyBytes →
          Readable memory operation.sourceAddress)) ∧
        AssertionsHold memory.contents operations := by
  induction operations generalizing memory undo result with
  | nil =>
      simp [applyOperations, pure_apply, assertionsHold_nil]
  | cons operation rest ih =>
      have hhead := hplaced operation List.mem_cons_self
      have htail : ∀ other ∈ rest, Placed memory other :=
        fun other hother => hplaced other (List.mem_cons_of_mem _ hother)
      rw [assertionsHold_cons, List.forall_mem_cons]
      constructor
      · rintro ⟨last, final, hrun⟩
        have happlies := applies_of_applyOperations_ok hmemory hhead hrun
        obtain ⟨undo', next, hstep, hcontents, hframe, hnext⟩ :=
          applyOperations_cons hmemory undo result rest hhead happlies
        rw [hstep] at hrun
        obtain ⟨hreadable, hassert⟩ := (ih hnext fun other hother =>
          (htail other hother).sameFrame hframe).mp ⟨last, final, hrun⟩
        rw [hcontents] at hassert
        refine ⟨⟨⟨happlies.destination, happlies.source⟩, fun other hother => ?_⟩,
          happlies.assertion, hassert⟩
        obtain ⟨hdestination, hsource⟩ := hreadable other hother
        exact ⟨readable_sameFrame hframe.symm hdestination,
          fun hkind => readable_sameFrame hframe.symm (hsource hkind)⟩
      · rintro ⟨⟨⟨hdestination, hsource⟩, hreadable⟩, hassertion, hassert⟩
        obtain ⟨undo', next, hstep, hcontents, hframe, hnext⟩ :=
          applyOperations_cons hmemory undo result rest hhead
            ⟨hdestination, hsource, hassertion⟩
        rw [hstep]
        rw [← hcontents] at hassert
        refine (ih hnext fun other hother =>
          (htail other hother).sameFrame hframe).mpr ⟨fun other hother => ?_,
            hassert⟩
        obtain ⟨hdestination, hsource⟩ := hreadable other hother
        exact ⟨readable_sameFrame hframe hdestination,
          fun hkind => readable_sameFrame hframe (hsource hkind)⟩

theorem applyOperations_ok (hmemory : memory.WellFormed)
    {undo : List Undo} {result last : PatchResult}
    {operations : List PatchOperation}
    (hplaced : ∀ operation ∈ operations, Placed memory operation)
    (hrun : applyOperations undo result operations memory = .ok last next) :
    next.contents = operations.foldl effect memory.contents ∧
      SameFrame memory next ∧
      last = operations.foldl countOperation result := by
  induction operations generalizing memory undo result with
  | nil =>
      simp only [applyOperations, pure_eq_ok] at hrun
      obtain ⟨rfl, rfl⟩ := hrun
      exact ⟨rfl, SameFrame.refl memory, rfl⟩
  | cons operation rest ih =>
      have hhead := hplaced operation List.mem_cons_self
      obtain ⟨undo', middle, hstep, hcontents, hframe, hmiddle⟩ :=
        applyOperations_cons hmemory undo result rest hhead
          (applies_of_applyOperations_ok hmemory hhead hrun)
      rw [hstep] at hrun
      obtain ⟨hfinal, hrest, hlast⟩ := ih hmiddle (fun other hother =>
        (hplaced other (List.mem_cons_of_mem _ hother)).sameFrame hframe) hrun
      rw [List.foldl_cons, List.foldl_cons, ← hcontents]
      exact ⟨hfinal, hframe.trans hrest, hlast⟩

/-! ## The result -/

theorem countOperations_operationsApplied (result : PatchResult)
    {operations : List PatchOperation}
    (hfit : result.operationsApplied.toNat + operations.length < 2 ^ 32) :
    (operations.foldl countOperation result).operationsApplied.toNat =
      result.operationsApplied.toNat + operations.length := by
  induction operations generalizing result with
  | nil => rfl
  | cons operation rest ih =>
      rw [List.length_cons] at hfit
      have hnext : (countOperation result operation).operationsApplied.toNat =
          result.operationsApplied.toNat + 1 := by
        show (result.operationsApplied + 1).toNat = _
        rw [UInt32.toNat_add, UInt32.toNat_one, Nat.mod_eq_of_lt (by omega)]
      rw [List.foldl_cons, ih _ (by omega), hnext, List.length_cons]
      omega

theorem countOperations_bytesWritten (result : PatchResult)
    {operations : List PatchOperation}
    (hfit : result.bytesWritten.toNat + (operations.map writtenSize).sum <
      2 ^ 64) :
    (operations.foldl countOperation result).bytesWritten.toNat =
      result.bytesWritten.toNat + (operations.map writtenSize).sum := by
  induction operations generalizing result with
  | nil => rfl
  | cons operation rest ih =>
      rw [List.map_cons, List.sum_cons] at hfit
      have hsmall : (UInt64.ofNat (writtenSize operation)).toNat =
          writtenSize operation := by
        have hlt : writtenSize operation < 2 ^ 64 := by omega
        exact UInt64.toNat_ofNat_of_lt' hlt
      have hnext : (countOperation result operation).bytesWritten.toNat =
          result.bytesWritten.toNat + writtenSize operation := by
        show (result.bytesWritten +
          UInt64.ofNat (writtenSize operation)).toNat = _
        rw [toNat_add_of_fit (by omega), hsmall]
      rw [List.foldl_cons, ih _ (by omega), hnext, List.map_cons, List.sum_cons]
      omega

theorem effect_outside {operation : PatchOperation}
    {contents : CellMemory UInt8} {address : ℕ}
    (houtside : address < operation.address.toNat ∨
      operation.address.toNat + writtenSize operation ≤ address) :
    effect contents operation address = contents address := by
  unfold effect
  unfold writtenSize operationSize at houtside
  cases hkind : operation.kind with
  | writeBytes =>
      simp only [hkind, reduceCtorEq, if_false] at houtside
      exact CellMemory.store_outside houtside
  | fillBytes =>
      simp only [hkind, reduceCtorEq, if_false] at houtside
      exact CellMemory.store_outside (by rwa [List.length_replicate])
  | writeInteger =>
      simp only [hkind, reduceCtorEq, if_false] at houtside
      exact CellMemory.store_outside (by rwa [integerBytes_length])
  | copyBytes =>
      simp only [hkind, reduceCtorEq, if_false] at houtside
      have hlength := contents.load_length_le operation.sourceAddress.toNat
        operation.length.toNat
      exact CellMemory.store_outside (by omega)
  | assertBytes => rfl

theorem effects_outside {operations : List PatchOperation}
    {contents : CellMemory UInt8} {address : ℕ}
    (houtside : ∀ operation ∈ operations,
      address < operation.address.toNat ∨
        operation.address.toNat + writtenSize operation ≤ address) :
    operations.foldl effect contents address = contents address := by
  induction operations generalizing contents with
  | nil => rfl
  | cons operation rest ih =>
      rw [List.foldl_cons, ih fun other hother =>
        houtside other (List.mem_cons_of_mem _ hother)]
      exact effect_outside (houtside operation List.mem_cons_self)

theorem apply_eq_ok {limits : Limits} {plan : PatchPlan}
    {result : PatchResult} :
    apply limits plan memory = .ok result next ↔
      validate limits plan memory = .ok () ∧
        (plan.expectedChecksum = 0 ∨
          memoryChecksum memory = plan.expectedChecksum) ∧
        ∃ last, applyOperations [] {} plan.operations memory = .ok last next ∧
          result = { last with resultingChecksum := memoryChecksum next } := by
  unfold apply
  rw [bind_of_ok (get_apply memory), liftExcept_bind_eq_ok]
  constructor
  · rintro ⟨_, hvalid, hrun⟩
    obtain ⟨hchecksum, hrun⟩ := rejectIf_bind_eq_ok.mp hrun
    obtain ⟨last, middle, hloop, hrun⟩ := bind_eq_ok.mp hrun
    rw [bind_of_ok (get_apply middle), pure_eq_ok] at hrun
    obtain ⟨rfl, rfl⟩ := hrun
    rw [not_and, not_not] at hchecksum
    exact ⟨hvalid, or_iff_not_imp_left.mpr hchecksum, last, hloop, rfl⟩
  · rintro ⟨hvalid, hchecksum, last, hloop, rfl⟩
    refine ⟨(), hvalid, rejectIf_bind_eq_ok.mpr ⟨?_, ?_⟩⟩
    · rw [not_and, not_not]
      exact or_iff_not_imp_left.mp hchecksum
    · rw [bind_of_ok hloop, bind_of_ok (get_apply next), pure_apply]

/-- When a plan applies, and what it then does. -/
theorem apply_succeeds_iff {limits : Limits} {plan : PatchPlan}
    (hreachable : memory.Reachable) :
    ((∃ result next, apply limits plan memory = .ok result next) ↔
        validate limits plan memory = .ok () ∧
          (plan.expectedChecksum = 0 ∨
            memoryChecksum memory = plan.expectedChecksum) ∧
          (∀ operation ∈ plan.operations,
            Readable memory operation.address ∧
              (operation.kind = .copyBytes →
                Readable memory operation.sourceAddress)) ∧
          AssertionsHold memory.contents plan.operations) ∧
      ∀ result next, apply limits plan memory = .ok result next →
        next.contents = plan.operations.foldl effect memory.contents ∧
          (∀ address, (∀ operation ∈ plan.operations,
            address < operation.address.toNat ∨
              operation.address.toNat + writtenSize operation ≤ address) →
            next.contents address = memory.contents address) ∧
          SameFrame memory next ∧
          result.operationsApplied.toNat = plan.operations.length ∧
          result.bytesWritten.toNat =
            (plan.operations.map writtenSize).sum := by
  have hmemory := hreachable.wellFormed
  constructor
  · simp only [apply_eq_ok]
    constructor
    · rintro ⟨_, next, hvalid, hchecksum, last, hloop, _⟩
      obtain ⟨_, hplaced, _⟩ := validate_ok hvalid
      exact ⟨hvalid, hchecksum,
        (applyOperations_succeeds_iff hmemory hplaced).mp ⟨last, next, hloop⟩⟩
    · rintro ⟨hvalid, hchecksum, happlies⟩
      obtain ⟨_, hplaced, _⟩ := validate_ok hvalid
      obtain ⟨last, next, hloop⟩ :=
        (applyOperations_succeeds_iff hmemory hplaced).mpr happlies
      exact ⟨_, next, hvalid, hchecksum, last, hloop, rfl⟩
  · intro result next hrun
    obtain ⟨hvalid, _, last, hloop, rfl⟩ := apply_eq_ok.mp hrun
    obtain ⟨hcount, hplaced, htotal⟩ := validate_ok hvalid
    obtain ⟨hcontents, hframe, rfl⟩ := applyOperations_ok hmemory hplaced hloop
    refine ⟨hcontents, fun address houtside => ?_, hframe, ?_, ?_⟩
    · rw [hcontents, effects_outside houtside]
    · exact (countOperations_operationsApplied {} (by simpa using hcount)).trans
        (Nat.zero_add _)
    · exact (countOperations_bytesWritten {} (by simpa using htotal)).trans
        (Nat.zero_add _)

theorem apply_succeeds_iff_overlap :
    let memory := (new {}).run [.map 0x1000 16 permissionRead (ascii "data")]
    let plan : PatchPlan :=
      { operations :=
          [{ kind := .fillBytes, address := 0x1000, length := 4, fill := 0x90 },
            { kind := .copyBytes, address := 0x1002, sourceAddress := 0x1000,
              length := 4 },
            { kind := .assertBytes, address := 0x1005, bytes := [0x90] }] }
    ∃ result next, apply {} plan memory = .ok result next ∧
      next.contents = plan.operations.foldl effect memory.contents ∧
      result.operationsApplied.toNat = 3 ∧ result.bytesWritten.toNat = 8 := by
  intro memory plan
  obtain ⟨result, next, hrun⟩ := succeeded_iff.mp
    (by decide +kernel : succeeded (apply {} plan memory) = true)
  obtain ⟨hcontents, _, _, happlied, hwritten⟩ :=
    (apply_succeeds_iff (⟨_, _, rfl⟩ : memory.Reachable)).2 result next hrun
  exact ⟨result, next, hrun, hcontents, happlied, hwritten⟩

end PatchEngine
end BinForge
