import BinForge.LoadFailure
import BinForge.MemoryLaws
import BinForge.PermutedRuns

/-!
# The order of relocations

What a relocation stores does not depend on the memory it is stored in, and a
write leaves alone whether another one succeeds.  Relocations that write to
ranges that do not meet may therefore be applied in any order.
-/

namespace BinForge

open StatefulExcept
open AddressSpace

namespace RelocationProcessor

variable {limits : Limits} {image : BinaryImage} {bias : UInt64}
  {resolver : Option SymbolResolver} {memory next : AddressSpace}
  {relocation : Relocation}

/-- The number of bytes a relocation writes. -/
def writtenWidth (relocation : Relocation) : UInt8 :=
  match relocation.kind with
  | .high16 | .low16 => 2
  | _ =>
      if relocation.width ≠ 0 then relocation.width
      else defaultWidth relocation.kind

/-- The ranges the two relocations write after the bias do not meet. -/
def Apart (bias : UInt64) (left right : Relocation) : Prop :=
  left.offset.toNat + bias.toNat + (writtenWidth left).toNat ≤
      right.offset.toNat + bias.toNat ∨
    right.offset.toNat + bias.toNat + (writtenWidth right).toNat ≤
      left.offset.toNat + bias.toNat

instance (bias : UInt64) (left right : Relocation) :
    Decidable (Apart bias left right) :=
  inferInstanceAs (Decidable (_ ∨ _))

/-- Relocations without effect write nothing and are apart from all. -/
def Independent (bias : UInt64) (left right : Relocation) : Prop :=
  left.kind ≠ .none → right.kind ≠ .none → Apart bias left right

instance (bias : UInt64) (left right : Relocation) :
    Decidable (Independent bias left right) :=
  inferInstanceAs (Decidable (_ → _))

theorem Independent.symm {left right : Relocation}
    (hpair : Independent bias left right) : Independent bias right left :=
  fun hright hleft => (hpair hleft hright).symm

/-! ## One relocation -/

/-- The bytes a relocation stores and where, nothing for one without effect;
the memory has no say in it. -/
def Stores (relocation : Relocation) (image : BinaryImage) (bias : UInt64)
    (resolver : Option SymbolResolver) (target : UInt64) (input : Bytes) :
    Prop :=
  ∃ symbol, checkedAdd relocation.offset bias = some target ∧
    symbolValue relocation image bias target resolver = .ok symbol ∧
    ((computeValue relocation bias target symbol = .ok none ∧ input = []) ∨
      ∃ value width,
        computeValue relocation bias target symbol =
          .ok (some (value, width)) ∧
        ¬(width < 8 ∧ value.toNat ≥ 2 ^ (width.toNat * 8)) ∧
        integerWidth width = true ∧
        input = integerBytes image.header.byteOrder width value)

theorem applyOne_eq_ok {value : Unit} :
    applyOne relocation image bias resolver memory = .ok value next ↔
      ∃ target input, Stores relocation image bias resolver target input ∧
        write target input true memory = .ok value next := by
  unfold applyOne
  constructor
  · intro hrun
    obtain ⟨target, htarget, hrun⟩ := demand_bind_eq_ok.mp hrun
    obtain ⟨symbol, hsymbol, hrun⟩ := liftExcept_bind_eq_ok.mp hrun
    obtain ⟨stored, hstored, hrun⟩ := liftExcept_bind_eq_ok.mp hrun
    cases stored with
    | none =>
        exact ⟨target, [], ⟨symbol, htarget, hsymbol, Or.inl ⟨hstored, rfl⟩⟩,
          hrun⟩
    | some stored =>
        obtain ⟨hfits, hrun⟩ := rejectIf_bind_eq_ok.mp hrun
        obtain ⟨hwidth, hwrite⟩ := writeInteger_ok_write.mp hrun
        exact ⟨target, _, ⟨symbol, htarget, hsymbol,
          Or.inr ⟨_, _, hstored, hfits, hwidth, rfl⟩⟩, hwrite⟩
  · rintro ⟨target, input, ⟨symbol, htarget, hsymbol, hstored⟩, hwrite⟩
    rw [demand_bind_of_some htarget, liftExcept_bind_of_ok hsymbol]
    rcases hstored with ⟨hstored, rfl⟩ |
      ⟨integer, width, hstored, hfits, hwidth, rfl⟩
    · rw [liftExcept_bind_of_ok hstored]
      exact hwrite
    · rw [liftExcept_bind_of_ok hstored]
      exact rejectIf_bind_eq_ok.mpr
        ⟨hfits, writeInteger_ok_write.mpr ⟨hwidth, hwrite⟩⟩

theorem computeValue_width {target symbol value : UInt64} {width : UInt8}
    (hvalue : computeValue relocation bias target symbol =
      .ok (some (value, width))) : width = writtenWidth relocation := by
  unfold computeValue at hvalue
  unfold writtenWidth
  cases hkind : relocation.kind <;> simp_all

theorem Stores.target_toNat {target : UInt64} {input : Bytes}
    (hstores : Stores relocation image bias resolver target input) :
    target.toNat = relocation.offset.toNat + bias.toNat := by
  obtain ⟨_, htarget, _⟩ := hstores
  exact checkedAdd_toNat htarget

theorem Stores.length {target : UInt64} {input : Bytes}
    (hstores : Stores relocation image bias resolver target input)
    (hinput : input ≠ []) :
    relocation.kind ≠ .none ∧
      input.length = (writtenWidth relocation).toNat := by
  obtain ⟨symbol, _, _, ⟨_, rfl⟩ | ⟨value, width, hvalue, _, _, rfl⟩⟩ := hstores
  · contradiction
  · constructor
    · intro hkind
      simp [computeValue, hkind] at hvalue
    · rw [integerBytes_length, computeValue_width hvalue]

/-! ## Two relocations -/

theorem Stores.apart {left right : Relocation}
    {leftTarget rightTarget : UInt64} {leftInput rightInput : Bytes}
    (hleft : Stores left image bias resolver leftTarget leftInput)
    (hright : Stores right image bias resolver rightTarget rightInput)
    (hpair : Independent bias left right) :
    leftInput = [] ∨ rightInput = [] ∨
      leftTarget.toNat + leftInput.length ≤ rightTarget.toNat ∨
        rightTarget.toNat + rightInput.length ≤ leftTarget.toNat := by
  by_cases hleftInput : leftInput = []
  · exact Or.inl hleftInput
  by_cases hrightInput : rightInput = []
  · exact Or.inr (Or.inl hrightInput)
  obtain ⟨hleftKind, hleftLength⟩ := hleft.length hleftInput
  obtain ⟨hrightKind, hrightLength⟩ := hright.length hrightInput
  have hapart := hpair hleftKind hrightKind
  unfold Apart at hapart
  rw [hleft.target_toNat, hright.target_toNat, hleftLength, hrightLength]
  exact Or.inr (Or.inr hapart)

theorem applyOne_comm {left right : Relocation}
    {middle last : AddressSpace} (hmemory : memory.WellFormed)
    (hpair : Independent bias left right)
    (hleft : applyOne left image bias resolver memory = .ok () middle)
    (hright : applyOne right image bias resolver middle = .ok () last) :
    ∃ between, applyOne right image bias resolver memory = .ok () between ∧
      applyOne left image bias resolver between = .ok () last := by
  obtain ⟨leftTarget, leftInput, hleftStores, hleftWrite⟩ :=
    applyOne_eq_ok.mp hleft
  obtain ⟨rightTarget, rightInput, hrightStores, hrightWrite⟩ :=
    applyOne_eq_ok.mp hright
  suffices hswapped : ∃ between,
      write rightTarget rightInput true memory = .ok () between ∧
        write leftTarget leftInput true between = .ok () last by
    obtain ⟨between, hfirst, hsecond⟩ := hswapped
    exact ⟨between, applyOne_eq_ok.mpr ⟨_, _, hrightStores, hfirst⟩,
      applyOne_eq_ok.mpr ⟨_, _, hleftStores, hsecond⟩⟩
  rcases hleftStores.apart hrightStores hpair with rfl | rfl | hapart
  · rw [write_nil, EStateM.Result.ok.injEq] at hleftWrite
    obtain ⟨-, rfl⟩ := hleftWrite
    exact ⟨last, hrightWrite, write_nil⟩
  · rw [write_nil, EStateM.Result.ok.injEq] at hrightWrite
    obtain ⟨-, rfl⟩ := hrightWrite
    exact ⟨memory, write_nil, hleftWrite⟩
  · exact write_comm hmemory hapart hleftWrite hrightWrite

/-! ## Whole tables -/

theorem applyAll_perm {relocations permuted : List Relocation}
    {applied : UInt32} (hmemory : memory.WellFormed)
    (hperm : relocations.Perm permuted)
    (hapart : relocations.Pairwise (Independent bias))
    (hrun : applyAll image bias resolver relocations memory =
      .ok applied next) :
    applyAll image bias resolver permuted memory = .ok applied next := by
  obtain ⟨hsteps, hcount⟩ := foldlM_count_eq_ok.mp hrun
  refine foldlM_count_eq_ok.mpr ⟨?_, hperm.length_eq ▸ hcount⟩
  refine @ListRun.perm _ _ _ WellFormed _ ?_
    (fun _ _ hpair => hpair.symm) ?_ _ _ hperm hapart _ _ hmemory hsteps
  · intro relocation before after hbefore hstep
    obtain ⟨target, input, _, hwrite⟩ := applyOne_eq_ok.mp hstep
    exact write_ok_wellFormed hbefore hwrite
  · intro left right first middle last hfirst hpair hleft hright
    exact applyOne_comm hfirst hpair hleft hright

theorem apply_ok_iff {applied : UInt32} :
    apply limits image bias resolver memory = .ok applied next ↔
      image.relocations.length ≤ limits.maxRelocations.toNat ∧
        applyAll image bias resolver image.relocations memory =
          .ok applied next := by
  unfold apply
  rw [rejectIf_bind_eq_ok, gt_iff_lt, not_lt]

/-- A permutation of relocations with disjoint targets succeeds when the
original order does, with the same memory and the same count. -/
theorem apply_perm_iff (hmemory : memory.Reachable)
    {permuted : List Relocation} (hperm : image.relocations.Perm permuted)
    (hapart : image.relocations.Pairwise (Independent bias))
    (applied : UInt32) (next : AddressSpace) :
    apply limits { image with relocations := permuted } bias resolver memory =
        .ok applied next ↔
      apply limits image bias resolver memory = .ok applied next := by
  have hbody : applyAll { image with relocations := permuted } bias resolver =
      applyAll image bias resolver := rfl
  have hpermuted : permuted.Pairwise (Independent bias) :=
    (hperm.pairwise_iff fun hpair => hpair.symm).mp hapart
  rw [apply_ok_iff, apply_ok_iff, hbody, hperm.length_eq]
  refine and_congr_right fun _ => ⟨?_, ?_⟩
  · exact applyAll_perm hmemory.wellFormed hperm.symm hpermuted
  · exact applyAll_perm hmemory.wellFormed hperm hapart

/-- Two relocations of neighbouring words. -/
theorem apply_perm_iff_two_words :
    let memory := (new {}).run [.map 0x1000 0x10 permissionRead "data"]
    let low : Relocation := { kind := .relative32, offset := 0x1000 }
    let high : Relocation := { kind := .relative32, offset := 0x1004 }
    ∀ applied next,
      apply {} { relocations := [high, low] } 0x10 none memory =
          .ok applied next ↔
        apply {} { relocations := [low, high] } 0x10 none memory =
          .ok applied next := by
  intro memory low high applied next
  exact @apply_perm_iff _ { relocations := [low, high] } _ _ _
    ⟨_, _, rfl⟩ _ (List.Perm.swap high low []) (by decide +kernel) applied next

end RelocationProcessor
end BinForge
