import BinForge.CallBudget
import BinForge.PeResources

/-!
# How often resource directories are visited

A directory calls `walk` for each of its entries that is a subdirectory, along
every path that leads to it.  The visits are bounded by the depth limit and the
limit on the entries of one directory together, and not by either alone.
-/

namespace BinForge

open StatefulExcept
open ByteReader

namespace PeResourceParser

variable {limits : Limits} {image : BinaryImage}
  {baseFile directorySize relative : UInt64} {slack budget : ℕ}

/-- The budget for visits, with one more for a visit that is too deep. -/
abbrev SpendsVisits {α : Type} (action : WalkCall α) (budget : ℕ) : Prop :=
  Spends WalkState.visits 1 action budget

/-! ## Steps that visit nothing -/

theorem spends_onReader {α : Type} (action : DecodeCall α) :
    SpendsVisits (onReader action) 0 := by
  apply Spends.of_free
  intro state
  unfold onReader
  cases action state.reader <;> rfl

theorem spends_erasing {α : Type} {action : WalkCall α}
    (haction : SpendsVisits action budget) :
    SpendsVisits (erasing relative action) budget :=
  haction.withCleanup fun _ => rfl

theorem spends_rejectIf (condition : Prop) [Decidable condition]
    (why : Failure) : SpendsVisits (rejectIf condition why) 0 :=
  .of_readOnly (readOnly_rejectIf why)

theorem spends_demand {α : Type} (value : Option α) (why : Failure) :
    SpendsVisits (demand value why) 0 :=
  .of_readOnly (readOnly_demand value why)

theorem spends_get : SpendsVisits get 0 := .of_readOnly readOnly_get

theorem spends_modify (change : WalkState → WalkState)
    (hchange : ∀ state, (change state).visits = state.visits) :
    SpendsVisits (modify change) 0 :=
  .of_free hchange

theorem spends_openDirectory :
    SpendsVisits (openDirectory limits baseFile directorySize relative) 0 := by
  unfold openDirectory
  refine (spends_rejectIf _ _).after fun _ => ?_
  refine (spends_onReader _).after fun _ => ?_
  refine (spends_onReader _).after fun counts => ?_
  exact (spends_rejectIf _ _).after fun _ => .pure _

theorem spends_addResource {target : UInt64} {path : List ResourceIdentifier} :
    SpendsVisits
      (addResource limits image baseFile directorySize target path) 0 := by
  unfold addResource
  refine (spends_rejectIf _ _).after fun _ => ?_
  refine (spends_onReader _).after fun _ => ?_
  refine (spends_onReader _).after fun entry => ?_
  refine (spends_demand _ _).after fun dataFile => ?_
  apply Spends.of_free
  intro state
  rw [bind_of_ok (get_apply state)]
  let unchanged (last : WalkState) := last.visits = state.visits
  refine finalState_rejectIf_bind unchanged rfl fun _ => ?_
  exact finalState_demand_bind unchanged rfl fun totalBytes _ => rfl

/-! ## Visits -/

theorem spends_walkEntry {path : List ResourceIdentifier}
    {visit : UInt64 → List ResourceIdentifier → WalkCall Unit}
    (hvisit : ∀ target path, SpendsVisits (visit target path) budget)
    (index : ℕ) :
    SpendsVisits (walkEntry limits image baseFile directorySize relative path
      visit index) budget := by
  unfold walkEntry
  refine (spends_onReader _).after fun _ => spends_erasing ?_
  refine (spends_onReader _).after fun encoded => ?_
  refine Spends.after (.of_readOnly (readOnly_liftExcept _)) fun identifier => ?_
  exact .ite (hvisit _ _) (spends_addResource.mono (Nat.zero_le _))

theorem openDirectory_count {count : UInt32} {state next : WalkState}
    (hrun : openDirectory limits baseFile directorySize relative state =
      .ok count next) : count ≤ limits.maxSections := by
  unfold openDirectory at hrun
  obtain ⟨_, hrun⟩ := rejectIf_bind_eq_ok.mp hrun
  obtain ⟨_, _, _, hrun⟩ := bind_eq_ok.mp hrun
  obtain ⟨counts, _, _, hrun⟩ := bind_eq_ok.mp hrun
  obtain ⟨hcount, hrun⟩ := rejectIf_bind_eq_ok.mp hrun
  rw [pure_eq_ok] at hrun
  obtain ⟨rfl, -⟩ := hrun
  exact UInt32.not_lt.mp fun hlarge => hcount (.inl hlarge)

/-- The directories on this many levels, when each has as many entries as it
may have and all of them are subdirectories. -/
def fullLevels (limits : Limits) (levels : ℕ) : ℕ :=
  ∑ level ∈ Finset.range levels, limits.maxSections.toNat ^ level

theorem fullLevels_succ (limits : Limits) (levels : ℕ) :
    fullLevels limits (levels + 1) =
      1 + limits.maxSections.toNat * fullLevels limits levels := by
  rw [fullLevels, geom_sum_succ, fullLevels, Nat.add_comm]

theorem spends_enter : SpendsVisits (modify enter) 1 := by
  intro state
  exact Nat.le_add_right _ _

theorem spends_walk (levels : ℕ) (relative : UInt64)
    (path : List ResourceIdentifier) :
    SpendsVisits (walk limits image baseFile directorySize levels relative path)
      (fullLevels limits levels) := by
  induction levels generalizing relative path with
  | zero =>
      intro state
      exact le_rfl
  | succ levels ih =>
      rw [walk, fullLevels_succ]
      refine spends_enter.bind fun _ => ?_
      refine (spends_modify (deepen _) fun _ => rfl).after fun _ => ?_
      refine spends_get.after fun state => ?_
      refine (spends_rejectIf _ _).after fun _ => ?_
      refine (spends_modify (activate relative) fun _ => rfl).after fun _ => ?_
      rw [← Nat.zero_add (_ * _)]
      apply (spends_erasing spends_openDirectory).bind_returned
      intro count before after hopen
      have hcount := UInt32.le_iff_toNat_le.mp
        (openDirectory_count (withCleanup_eq_ok.mp hopen))
      have hentries : SpendsVisits ((List.range count.toNat).forM
          (walkEntry limits image baseFile directorySize relative path
            (walk limits image baseFile directorySize levels)))
          ((List.range count.toNat).length * fullLevels limits levels) :=
        Spends.forM _ (spends_walkEntry ih)
      rw [List.length_range] at hentries
      rw [← Nat.add_zero (_ * _)]
      exact (hentries.mono (Nat.mul_le_mul_right _ hcount)).bind fun _ =>
        spends_modify (leave relative) fun _ => rfl

theorem spends_parse {directoryRva : UInt64} :
    SpendsVisits (parse limits image directoryRva directorySize)
      (fullLevels limits (limits.maxDebugDepth.toNat + 1)) := by
  unfold parse
  refine (spends_rejectIf _ _).after fun _ => ?_
  refine .ite ((Spends.pure _).mono (Nat.zero_le _)) ?_
  refine (spends_rejectIf _ _).after fun _ => ?_
  refine (spends_demand _ _).after fun root => ?_
  rw [← Nat.add_zero (fullLevels _ _)]
  exact (spends_walk _ _ _).bind fun _ => spends_get.after fun _ => .pure _

/-- A parse visits at most as many directories as the two limits allow on all
levels together, and one more below them when it fails. -/
theorem directoryVisits_le (limits : Limits) (image : BinaryImage)
    (directoryRva directorySize : UInt64) :
    directoryVisits limits image directoryRva directorySize ≤
      ∑ depth ∈ Finset.range (limits.maxDebugDepth.toNat + 1),
        limits.maxSections.toNat ^ depth +
      if succeeded (parse limits image directoryRva directorySize
        (start image)) then 0 else 1 := by
  have hparse := @spends_parse limits image directorySize directoryRva
    (start image)
  have hstart : (start image).visits = 0 := rfl
  rwa [hstart, Nat.zero_add] at hparse

/-- Three directories, one below the other, with two entries for the next one
each.  The walk meets the bound for these limits. -/
theorem shared_directories_visited :
    let image : BinaryImage :=
      { header := { format := .peLike }
        sections := [{ fileSize := 80, memorySize := 80 }]
        fileData := some [0, 0, 0, 0, 0, 0, 0, 0, 0, 0, 0, 0, 0, 0, 2, 0,
          1, 0, 0, 0, 32, 0, 0, 128, 2, 0, 0, 0, 32, 0, 0, 128,
          0, 0, 0, 0, 0, 0, 0, 0, 0, 0, 0, 0, 0, 0, 2, 0,
          1, 0, 0, 0, 64, 0, 0, 128, 2, 0, 0, 0, 64, 0, 0, 128,
          0, 0, 0, 0, 0, 0, 0, 0, 0, 0, 0, 0, 0, 0, 0, 0] }
    let limits : Limits := { maxSections := 2, maxDebugDepth := 2 }
    succeeded (parse limits image 0 80 (start image)) = true ∧
      directoryVisits limits image 0 80 = 7 ∧
      ¬directoryVisits limits image 0 80 ≤ limits.maxSections.toNat := by
  decide +kernel

end PeResourceParser
end BinForge
