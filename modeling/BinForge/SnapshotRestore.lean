import BinForge.SnapshotPipeline

/-!
# Restoring a snapshot

`restore` maps and fills the regions one after the other in a staged address
space.  It accepts exactly the snapshots whose regions fit the codec's limits,
do not meet and add up to the recorded total, and the staged space then holds
those regions and nothing else, whatever the target held and whatever order
the regions are listed in.
-/

namespace BinForge

open StatefulExcept
open MachineInteger
open AddressSpace

namespace MemorySnapshotCodec

/-- The mapped region a snapshot region stands for. -/
def restoredRegion (source : SnapshotRegion) : MemoryRegion :=
  { base := source.base
    size := source.size
    permissions := source.permissions
    name := source.name
    bytes := if source.bytes = [] then List.replicate source.size.toNat 0
      else source.bytes }

/-- What the loop of `restore` asks of a region by itself. -/
structure RegionFits (limits : Limits) (source : SnapshotRegion) : Prop where
  nonempty : 0 < source.size.toNat
  size : source.size ≤ limits.maxMappedBytes
  name : source.name.length ≤ limits.maxStringBytes.toNat
  bytes : source.bytes = [] ∨ (source.bytes.length = source.size.toNat ∧
    crc32 source.bytes = source.checksum)
  bounded : source.base.toNat + source.size.toNat < 2 ^ 64

/-- No address belongs to both ranges. -/
def Apart (left right : SnapshotRegion) : Prop :=
  left.base.toNat + left.size.toNat ≤ right.base.toNat ∨
    right.base.toNat + right.size.toNat ≤ left.base.toNat

instance (left right : SnapshotRegion) : Decidable (Apart left right) :=
  inferInstanceAs (Decidable (_ ∨ _))

/-- The snapshots `restore` accepts. -/
structure Restorable (limits : Limits) (snapshot : MemorySnapshot) : Prop where
  version : snapshot.version = 1
  mapped : snapshot.mappedBytes ≤ limits.maxMappedBytes
  count : snapshot.regions.length ≤ limits.maxSegments.toNat
  regions : ∀ source ∈ snapshot.regions, RegionFits limits source
  disjoint : snapshot.regions.Pairwise Apart
  total : (snapshot.regions.map fun source => source.size.toNat).sum =
    snapshot.mappedBytes.toNat

variable {limits : Limits} {staged last : AddressSpace}

theorem RegionFits.stored {source : SnapshotRegion}
    (hsource : RegionFits limits source) :
    (restoredRegion source).bytes.length = source.size.toNat := by
  rcases hsource.bytes with hempty | ⟨hlength, _⟩
  · simp [restoredRegion, hempty]
  · have hbytes : source.bytes ≠ [] := by
      intro hnil
      have hpositive := hsource.nonempty
      rw [← hlength, hnil, List.length_nil] at hpositive
      omega
    simp [restoredRegion, hbytes, hlength]

/-- What the region must satisfy besides, in the staged space it is added to. -/
structure RoomFor (staged : AddressSpace) (source : SnapshotRegion) : Prop where
  budget : staged.mappedBytes.toNat + source.size.toNat ≤
    staged.limits.maxMappedBytes.toNat
  apart : ∀ entry ∈ staged.regions.entries,
    source.base.toNat + source.size.toNat ≤ entry.2.base.toNat ∨
      entry.2.stop ≤ source.base.toNat

theorem RoomFor.wellFormed {source : SnapshotRegion}
    (hroom : RoomFor staged source) (hstaged : staged.WellFormed)
    (hsource : RegionFits limits source) :
    (staged.withRegion (restoredRegion source)).WellFormed := by
  have hlimit := staged.limits.maxMappedBytes.toNat_lt
  have hbudget := hroom.budget
  refine hstaged.withRegion hsource.nonempty hsource.stored hsource.bounded
    hroom.apart ?_ ?_
  · show staged.mappedBytes.toNat + source.size.toNat < 2 ^ 64
    omega
  · show staged.mappedBytes + source.size ≤ staged.limits.maxMappedBytes
    rw [UInt64.le_iff_toNat_le, toNat_add_of_fit (by omega)]
    exact hbudget

theorem not_rejected_iff {source : SnapshotRegion} :
    ¬(source.size = 0 ∨ source.size > limits.maxMappedBytes ∨
        source.name.length > limits.maxStringBytes.toNat ∨
        (source.bytes ≠ [] ∧ source.bytes.length ≠ source.size.toNat)) ↔
      0 < source.size.toNat ∧ source.size ≤ limits.maxMappedBytes ∧
        source.name.length ≤ limits.maxStringBytes.toNat ∧
        (source.bytes = [] ∨ source.bytes.length = source.size.toNat) := by
  have hzero : source.size = 0 ↔ source.size.toNat = 0 := by
    rw [← UInt64.toNat_inj, UInt64.toNat_zero]
  simp only [not_or, not_and_or, not_not, gt_iff_lt, not_lt, hzero,
    Nat.pos_iff_ne_zero, ne_eq]

/-- The staged space once a region has been mapped and filled. -/
theorem fill_eq_ok (hstaged : staged.WellFormed) {source : SnapshotRegion}
    {rest : MemoryCall UInt64} {value : UInt64} {mapped : AddressSpace}
    (hmap : map source.base source.size source.permissions source.name staged =
      .ok () mapped)
    (hlength : source.bytes = [] ∨ source.bytes.length = source.size.toNat) :
    (if source.bytes ≠ [] then do
        rejectIf (crc32 source.bytes ≠ source.checksum)
          (failure .invalidHeader source.base
            "snapshot region checksum does not match")
        AddressSpace.write source.base source.bytes true
        rest
      else rest) mapped = .ok value last ↔
      (source.bytes = [] ∨ crc32 source.bytes = source.checksum) ∧
        rest (staged.withRegion (restoredRegion source)) = .ok value last := by
  by_cases hbytes : source.bytes = []
  · obtain ⟨-, -, -, -, -, -, rfl⟩ := map_eq_ok.mp hmap
    rw [if_neg (not_not.mpr hbytes)]
    simp [restoredRegion, hbytes, freshRegion]
  · have hwrite := write_fresh_whole hstaged hmap
      (hlength.resolve_left hbytes)
    rw [if_pos hbytes, rejectIf_bind_eq_ok, bind_of_ok hwrite, not_not]
    simp [restoredRegion, hbytes]

/-- One round of the loop: the region is accepted or the call fails. -/
theorem restoreRegions_cons_eq_ok (hstaged : staged.WellFormed)
    (hlimits : staged.limits = limits) {source : SnapshotRegion}
    {rest : List SnapshotRegion} {value : UInt64} :
    restoreRegions limits staged.mappedBytes (source :: rest) staged =
        .ok value last ↔
      RegionFits limits source ∧ RoomFor staged source ∧
        restoreRegions limits
          (staged.withRegion (restoredRegion source)).mappedBytes rest
          (staged.withRegion (restoredRegion source)) = .ok value last := by
  have hlimit := limits.maxMappedBytes.toNat_lt
  rw [restoreRegions, rejectIf_bind_eq_ok, not_rejected_iff, demand_bind_eq_ok]
  constructor
  · rintro ⟨⟨hpositive, hsize, hname, hlength⟩, next, hnext, hrun⟩
    obtain ⟨hfit, rfl⟩ := checkedAdd_eq_some.mp hnext
    obtain ⟨hbudget, hrun⟩ := rejectIf_bind_eq_ok.mp hrun
    obtain ⟨_, mapped, hmap, hrun⟩ := bind_eq_ok.mp hrun
    obtain ⟨hchecksum, hrun⟩ := (fill_eq_ok hstaged hmap hlength).mp hrun
    obtain ⟨hzero, hbounded, -, -, habove, hbelow, -⟩ := map_eq_ok.mp hmap
    rw [gt_iff_lt, UInt64.not_lt, UInt64.le_iff_toNat_le,
      toNat_add_of_fit hfit] at hbudget
    refine ⟨⟨hpositive, hsize, hname, ?_, hbounded⟩, ⟨?_, ?_⟩, hrun⟩
    · rcases hlength with hempty | hlength
      · exact Or.inl hempty
      · exact hchecksum.imp_right fun hcrc => ⟨hlength, hcrc⟩
    · rwa [hlimits]
    · exact (hstaged.overlaps_iff hzero hbounded).mp ⟨habove, hbelow⟩
  · rintro ⟨hsource, hroom, hrun⟩
    have hbudget := hroom.budget
    rw [hlimits] at hbudget
    have hsum : (staged.mappedBytes + source.size).toNat =
        staged.mappedBytes.toNat + source.size.toNat :=
      toNat_add_of_fit (by omega)
    have hle : staged.mappedBytes + source.size ≤ limits.maxMappedBytes := by
      rw [UInt64.le_iff_toNat_le, hsum]
      exact hbudget
    have hzero : source.size ≠ 0 := by
      intro hzero
      have hpositive := hsource.nonempty
      rw [hzero, UInt64.toNat_zero] at hpositive
      omega
    have hmap := map_succeeds hstaged source.permissions source.name hzero
      hsource.bounded hroom.apart (by omega) (by rw [hlimits]; exact hle)
    refine ⟨⟨hsource.nonempty, hsource.size, hsource.name,
      hsource.bytes.imp_right And.left⟩, _, checkedAdd_of_fit (by omega), ?_⟩
    rw [rejectIf_bind_of_not (UInt64.not_lt.mpr hle), bind_of_ok hmap]
    exact (fill_eq_ok hstaged hmap (hsource.bytes.imp_right And.left)).mpr
      ⟨hsource.bytes.imp_right And.right, hrun⟩

/-! ## The whole list -/

/-- The staged space after the regions, in the order of the list. -/
def withRestored (staged : AddressSpace) (sources : List SnapshotRegion) :
    AddressSpace :=
  sources.foldl (fun staged source => staged.withRegion (restoredRegion source))
    staged

/-- What the loop of `restore` asks of a list of regions. -/
structure Placeable (limits : Limits) (staged : AddressSpace)
    (sources : List SnapshotRegion) : Prop where
  fits : ∀ source ∈ sources, RegionFits limits source
  disjoint : sources.Pairwise Apart
  apart : ∀ source ∈ sources, ∀ entry ∈ staged.regions.entries,
    source.base.toNat + source.size.toNat ≤ entry.2.base.toNat ∨
      entry.2.stop ≤ source.base.toNat
  budget : staged.mappedBytes.toNat +
      (sources.map fun source => source.size.toNat).sum ≤
    limits.maxMappedBytes.toNat

theorem RoomFor.absent {source : SnapshotRegion} (hroom : RoomFor staged source)
    (hstaged : staged.WellFormed) (hsource : RegionFits limits source) :
    ∀ entry ∈ staged.regions.entries, entry.1 ≠ source.base :=
  hstaged.absent_of_disjoint (restoredRegion source) hsource.nonempty hroom.apart

theorem RoomFor.mem_withRegion {source : SnapshotRegion}
    (hroom : RoomFor staged source) (hstaged : staged.WellFormed)
    (hsource : RegionFits limits source) {entry : UInt64 × MemoryRegion} :
    entry ∈ (staged.withRegion (restoredRegion source)).regions.entries ↔
      entry = (source.base, restoredRegion source) ∨
        entry ∈ staged.regions.entries :=
  OrderedMap.mem_emplace (hroom.absent hstaged hsource)

theorem RoomFor.mappedBytes_toNat {source : SnapshotRegion}
    (hroom : RoomFor staged source) :
    (staged.withRegion (restoredRegion source)).mappedBytes.toNat =
      staged.mappedBytes.toNat + source.size.toNat := by
  have hlimit := staged.limits.maxMappedBytes.toNat_lt
  have hbudget := hroom.budget
  have hfit : staged.mappedBytes.toNat + source.size.toNat < 2 ^ 64 := by omega
  exact toNat_add_of_fit hfit

theorem placeable_cons (hstaged : staged.WellFormed)
    (hlimits : staged.limits = limits) {source : SnapshotRegion}
    {rest : List SnapshotRegion} :
    Placeable limits staged (source :: rest) ↔
      RegionFits limits source ∧ RoomFor staged source ∧
        Placeable limits (staged.withRegion (restoredRegion source)) rest := by
  constructor
  · rintro ⟨hfits, hdisjoint, hapart, hbudget⟩
    obtain ⟨hsource, hfits⟩ := List.forall_mem_cons.mp hfits
    obtain ⟨hbeside, hdisjoint⟩ := List.pairwise_cons.mp hdisjoint
    obtain ⟨hclear, hapart⟩ := List.forall_mem_cons.mp hapart
    rw [List.map_cons, List.sum_cons] at hbudget
    have hroom : RoomFor staged source := ⟨by rw [hlimits]; omega, hclear⟩
    refine ⟨hsource, hroom, hfits, hdisjoint, ?_, ?_⟩
    · intro other hother entry hentry
      rcases (hroom.mem_withRegion hstaged hsource).mp hentry with rfl | hold
      · exact (hbeside other hother).symm
      · exact hapart other hother entry hold
    · rw [hroom.mappedBytes_toNat]
      omega
  · rintro ⟨hsource, hroom, hfits, hdisjoint, hapart, hbudget⟩
    rw [hroom.mappedBytes_toNat] at hbudget
    refine ⟨List.forall_mem_cons.mpr ⟨hsource, hfits⟩,
      List.pairwise_cons.mpr ⟨fun other hother => ?_, hdisjoint⟩,
      List.forall_mem_cons.mpr ⟨hroom.apart, fun other hother entry hentry => ?_⟩,
      ?_⟩
    · exact (hapart other hother _
        ((hroom.mem_withRegion hstaged hsource).mpr (Or.inl rfl))).symm
    · exact hapart other hother entry
        ((hroom.mem_withRegion hstaged hsource).mpr (Or.inr hentry))
    · rw [List.map_cons, List.sum_cons]
      omega

/-- The loop accepts exactly the lists that can be placed one by one. -/
theorem restoreRegions_eq_ok {sources : List SnapshotRegion}
    (hstaged : staged.WellFormed) (hlimits : staged.limits = limits)
    {value : UInt64} :
    restoreRegions limits staged.mappedBytes sources staged = .ok value last ↔
      Placeable limits staged sources ∧ last = withRestored staged sources ∧
        value = last.mappedBytes := by
  induction sources generalizing staged with
  | nil =>
      have hbudget := UInt64.le_iff_toNat_le.mp hstaged.budget
      rw [hlimits] at hbudget
      rw [restoreRegions, pure_eq_ok]
      constructor
      · rintro ⟨rfl, rfl⟩
        exact ⟨⟨by simp, by simp, by simp, by simpa using hbudget⟩, rfl, rfl⟩
      · rintro ⟨-, rfl, rfl⟩
        exact ⟨rfl, rfl⟩
  | cons source rest ih =>
      rw [restoreRegions_cons_eq_ok hstaged hlimits,
        placeable_cons hstaged hlimits]
      constructor
      · rintro ⟨hsource, hroom, hrun⟩
        obtain ⟨hrest, hlast, hvalue⟩ :=
          (ih (hroom.wellFormed hstaged hsource) hlimits).mp hrun
        exact ⟨⟨hsource, hroom, hrest⟩, hlast, hvalue⟩
      · rintro ⟨⟨hsource, hroom, hrest⟩, hlast, hvalue⟩
        exact ⟨hsource, hroom,
          (ih (hroom.wellFormed hstaged hsource) hlimits).mpr
            ⟨hrest, hlast, hvalue⟩⟩

/-- A placeable list is added to a well-formed space region by region. -/
@[elab_as_elim]
theorem Placeable.induction
    {motive : AddressSpace → List SnapshotRegion → Prop}
    (hnil : ∀ {staged}, staged.WellFormed → motive staged [])
    (hcons : ∀ {staged source rest}, staged.WellFormed →
      RegionFits limits source → RoomFor staged source →
      motive (staged.withRegion (restoredRegion source)) rest →
      motive staged (source :: rest))
    {sources : List SnapshotRegion} (hstaged : staged.WellFormed)
    (hlimits : staged.limits = limits)
    (hsources : Placeable limits staged sources) : motive staged sources := by
  induction sources generalizing staged with
  | nil => exact hnil hstaged
  | cons source rest ih =>
      obtain ⟨hsource, hroom, hrest⟩ :=
        (placeable_cons hstaged hlimits).mp hsources
      exact hcons hstaged hsource hroom
        (ih (hroom.wellFormed hstaged hsource) hlimits hrest)

theorem withRestored_wellFormed {sources : List SnapshotRegion}
    (hstaged : staged.WellFormed) (hlimits : staged.limits = limits)
    (hsources : Placeable limits staged sources) :
    (withRestored staged sources).WellFormed := by
  refine Placeable.induction ?_ ?_ hstaged hlimits hsources
  · intro staged hstaged
    exact hstaged
  · intro staged source rest _ _ _ hrest
    exact hrest

/-- The staged space holds its old regions and the new ones, each once. -/
theorem withRestored_perm {sources : List SnapshotRegion}
    (hstaged : staged.WellFormed) (hlimits : staged.limits = limits)
    (hsources : Placeable limits staged sources) :
    (withRestored staged sources).regions.entries.Perm
      (staged.regions.entries ++
        sources.map fun source => (source.base, restoredRegion source)) := by
  refine Placeable.induction ?_ ?_ hstaged hlimits hsources
  · intro staged _
    simp [withRestored]
  · intro staged source rest hstaged hsource hroom htail
    have hhead := OrderedMap.emplace_perm (restoredRegion source)
      (hroom.absent hstaged hsource)
    rw [List.map_cons]
    exact htail.trans ((hhead.append_right _).trans List.perm_middle.symm)

theorem withRestored_mappedBytes {sources : List SnapshotRegion}
    (hstaged : staged.WellFormed) (hlimits : staged.limits = limits)
    (hsources : Placeable limits staged sources) :
    (withRestored staged sources).mappedBytes.toNat =
      staged.mappedBytes.toNat +
        (sources.map fun source => source.size.toNat).sum := by
  refine Placeable.induction ?_ ?_ hstaged hlimits hsources
  · intro staged _
    rfl
  · intro staged source rest _ _ hroom htail
    rw [withRestored, List.foldl_cons, ← withRestored, htail,
      hroom.mappedBytes_toNat, List.map_cons, List.sum_cons, Nat.add_assoc]

theorem withRestored_limits (staged : AddressSpace)
    (sources : List SnapshotRegion) :
    (withRestored staged sources).limits = staged.limits := by
  induction sources generalizing staged with
  | nil => rfl
  | cons source rest ih => exact ih _

/-! ## Accepted snapshots -/

variable {snapshot : MemorySnapshot}

theorem Restorable.placeable (hsnapshot : Restorable limits snapshot) :
    Placeable limits (new limits) snapshot.regions := by
  refine ⟨hsnapshot.regions, hsnapshot.disjoint, fun _ _ _ hentry => ?_, ?_⟩
  · simp [new, OrderedMap.empty] at hentry
  · show (0 : UInt64).toNat + _ ≤ _
    rw [UInt64.toNat_zero, Nat.zero_add, hsnapshot.total]
    exact UInt64.le_iff_toNat_le.mp hsnapshot.mapped

theorem Placeable.total (hsources : Placeable limits (new limits)
    snapshot.regions) :
    (withRestored (new limits) snapshot.regions).mappedBytes.toNat =
      (snapshot.regions.map fun source => source.size.toNat).sum := by
  rw [withRestored_mappedBytes (new_wellFormed limits) rfl hsources]
  exact Nat.zero_add _

theorem stage_eq_ok : stage limits snapshot = .ok staged ↔
    Placeable limits (new limits) snapshot.regions ∧
      snapshot.mappedBytes =
        (withRestored (new limits) snapshot.regions).mappedBytes ∧
      staged = withRestored (new limits) snapshot.regions := by
  unfold stage
  simp only [evaluate_eq_ok, bind_eq_ok]
  constructor
  · rintro ⟨final, total, middle, hrun, _, next, hcheck, hget⟩
    obtain ⟨hplaced, rfl, rfl⟩ :=
      (restoreRegions_eq_ok (new_wellFormed limits) rfl).mp hrun
    obtain ⟨hmapped, rfl⟩ := rejectIf_eq_ok.mp hcheck
    rw [get_apply, EStateM.Result.ok.injEq] at hget
    exact ⟨hplaced, not_not.mp hmapped, hget.1.symm⟩
  · rintro ⟨hplaced, hmapped, rfl⟩
    exact ⟨_, _, _, (restoreRegions_eq_ok (new_wellFormed limits) rfl).mpr
      ⟨hplaced, rfl, rfl⟩, (), _, rejectIf_of_not _ _ (not_not.mpr hmapped), rfl⟩

theorem restore_eq_ok {memory next : AddressSpace} {value : Unit} :
    restore limits snapshot memory = .ok value next ↔
      Restorable limits snapshot ∧
        next = withRestored (new limits) snapshot.regions := by
  unfold restore
  rw [rejectIf_bind_eq_ok]
  constructor
  · rintro ⟨haccepted, hrun⟩
    obtain ⟨staged, middle, hlift, hset⟩ := bind_eq_ok.mp hrun
    obtain ⟨hstage, rfl⟩ := liftExcept_eq_ok.mp hlift
    obtain ⟨hplaced, hmapped, rfl⟩ := stage_eq_ok.mp hstage
    rw [set_apply, EStateM.Result.ok.injEq] at hset
    simp only [not_or, not_not, gt_iff_lt, not_lt] at haccepted
    obtain ⟨hversion, hle, hcount⟩ := haccepted
    refine ⟨⟨hversion, hle, hcount, hplaced.fits, hplaced.disjoint, ?_⟩,
      hset.2.symm⟩
    rw [hmapped, hplaced.total]
  · rintro ⟨hsnapshot, rfl⟩
    have hplaced := hsnapshot.placeable
    have hmapped : snapshot.mappedBytes =
        (withRestored (new limits) snapshot.regions).mappedBytes := by
      rw [← UInt64.toNat_inj, hplaced.total, hsnapshot.total]
    refine ⟨?_, ?_⟩
    · exact not_or.mpr ⟨not_not.mpr hsnapshot.version,
        not_or.mpr ⟨UInt64.not_lt.mpr hsnapshot.mapped,
          not_lt.mpr hsnapshot.count⟩⟩
    · rw [liftExcept_bind_of_ok (stage_eq_ok.mpr ⟨hplaced, hmapped, rfl⟩),
        set_apply]

theorem restore_atomic (limits : Limits) (snapshot : MemorySnapshot) :
    Atomic (restore limits snapshot) :=
  (readOnly_rejectIf _).bind_atomic fun _ =>
    (readOnly_liftExcept _).bind_atomic fun _ => atomic_set _

theorem Restorable.restored_perm (hsnapshot : Restorable limits snapshot) :
    (withRestored (new limits) snapshot.regions).regions.entries.Perm
      (snapshot.regions.map fun source =>
        (source.base, restoredRegion source)) :=
  withRestored_perm (new_wellFormed limits) rfl hsnapshot.placeable

theorem Apart.symm {left right : SnapshotRegion} (hapart : Apart left right) :
    Apart right left :=
  Or.symm hapart

/-- Listing the regions in another order makes no difference. -/
theorem Restorable.reorder (hsnapshot : Restorable limits snapshot)
    {regions : List SnapshotRegion} (hperm : snapshot.regions.Perm regions) :
    Restorable limits { snapshot with regions } := by
  refine ⟨hsnapshot.version, hsnapshot.mapped, ?_, ?_, ?_, ?_⟩
  · show regions.length ≤ _
    rw [← hperm.length_eq]
    exact hsnapshot.count
  · exact fun source hsource =>
      hsnapshot.regions source (hperm.mem_iff.mpr hsource)
  · exact hperm.pairwise hsnapshot.disjoint Apart.symm
  · show (regions.map _).sum = _
    rw [← (hperm.map _).sum_eq]
    exact hsnapshot.total

theorem Restorable.withRestored_reorder (hsnapshot : Restorable limits snapshot)
    {regions : List SnapshotRegion} (hperm : snapshot.regions.Perm regions) :
    withRestored (new limits) regions =
      withRestored (new limits) snapshot.regions := by
  have hother := hsnapshot.reorder hperm
  have hregions := hother.restored_perm.trans
    ((hperm.symm.map _).trans hsnapshot.restored_perm.symm)
  refine AddressSpace.ext ?_ (OrderedMap.eq_of_perm hregions) ?_
  · rw [withRestored_limits, withRestored_limits]
  · have htotal := hother.placeable.total.trans
      ((hperm.symm.map _).sum_eq.trans hsnapshot.placeable.total.symm)
    exact UInt64.toNat_inj.mp htotal

/-- `restore` accepts exactly the snapshots that fit, replaces the target by
their regions whatever the target and the order of the list were, and leaves
the target alone otherwise. -/
theorem restore_exact (limits : Limits) (snapshot : MemorySnapshot)
    (memory : AddressSpace) :
    let result := restore limits snapshot memory
    (succeeded result = true ↔ Restorable limits snapshot) ∧
      (succeeded result = false → finalState result = memory) ∧
      (succeeded result = true →
        (finalState result).regions.entries.Perm
            (snapshot.regions.map fun source =>
              (source.base, restoredRegion source)) ∧
          ∀ regions other, snapshot.regions.Perm regions →
            restore limits { snapshot with regions } other =
              .ok () (finalState result)) := by
  intro result
  have haccepted : succeeded result = true ↔ Restorable limits snapshot := by
    rw [succeeded_iff]
    constructor
    · rintro ⟨value, next, hrun⟩
      exact (restore_eq_ok.mp hrun).1
    · intro hsnapshot
      exact ⟨(), _, restore_eq_ok.mpr ⟨hsnapshot, rfl⟩⟩
  refine ⟨haccepted, fun hfailed => ?_, fun hsucceeded => ?_⟩
  · obtain ⟨why, next, hrun⟩ := not_succeeded_iff.mp hfailed
    rw [hrun]
    exact restore_atomic limits snapshot memory why next hrun
  · have hsnapshot := haccepted.mp hsucceeded
    have hrun : result = .ok () (withRestored (new limits) snapshot.regions) :=
      restore_eq_ok.mpr ⟨hsnapshot, rfl⟩
    rw [hrun, finalState_ok]
    refine ⟨hsnapshot.restored_perm, fun regions other hperm => ?_⟩
    exact restore_eq_ok.mpr ⟨hsnapshot.reorder hperm,
      (hsnapshot.withRestored_reorder hperm).symm⟩

theorem restore_exact_two_regions :
    let snapshot : MemorySnapshot :=
      { mappedBytes := 18
        regions := [
          { base := 0x2000, size := 2, bytes := [1, 2], checksum := crc32 [1, 2] },
          { base := 0x1000, size := 16 }] }
    let result := restore {} snapshot (new {})
    succeeded result = true ∧
      (finalState result).regions.entries.Perm
        (snapshot.regions.map fun source =>
          (source.base, restoredRegion source)) := by
  intro snapshot result
  obtain ⟨haccepted, -, hregions⟩ := restore_exact {} snapshot (new {})
  have hsnapshot : Restorable {} snapshot := by
    refine ⟨rfl, by decide, by decide, ?_, by decide, by decide⟩
    intro source hsource
    simp only [snapshot, List.mem_cons, List.not_mem_nil, or_false] at hsource
    rcases hsource with rfl | rfl
    · exact ⟨by decide, by decide, by decide, Or.inr ⟨rfl, rfl⟩, by decide⟩
    · exact ⟨by decide, by decide, by decide, Or.inl rfl, by decide⟩
  have hsucceeded := haccepted.mpr hsnapshot
  exact ⟨hsucceeded, (hregions hsucceeded).1⟩

/-! ## Restored contents -/

theorem restoredRegion_captureRegion {region : MemoryRegion}
    (hpositive : 0 < region.size.toNat)
    (hstored : region.bytes.length = region.size.toNat) (includeBytes : Bool) :
    restoredRegion (captureRegion includeBytes region) =
      { region with
        bytes := if includeBytes then region.bytes
          else List.replicate region.size.toNat 0 } := by
  have hbytes : region.bytes ≠ [] := by
    intro hnil
    rw [hnil, List.length_nil] at hstored
    omega
  cases includeBytes <;> simp [restoredRegion, captureRegion, hbytes]

/-- A snapshot that `capture` returned is accepted with the regions captured;
a capture that reported an error is never accepted. -/
theorem restore_capture {captureLimits : Limits} {memory target next : AddressSpace}
    (hmemory : memory.WellFormed) {includeBytes : Bool} {value : Unit}
    (hrun : restore limits (capture captureLimits memory includeBytes).1 target =
      .ok value next) :
    next.regions.entries = memory.regions.entries.map fun entry =>
      (entry.1, { entry.2 with
        bytes := if includeBytes then entry.2.bytes
          else List.replicate entry.2.size.toNat 0 }) := by
  obtain ⟨hsnapshot, rfl⟩ := restore_eq_ok.mp hrun
  have hperm := hsnapshot.restored_perm
  have hsorted : (memory.regions.entries.map fun entry =>
      (entry.1, ({ entry.2 with
        bytes := if includeBytes then entry.2.bytes
          else List.replicate entry.2.size.toNat 0 } :
        MemoryRegion))).Pairwise fun left right => left.1 < right.1 := by
    rw [List.pairwise_map]
    exact memory.regions.sorted
  refine OrderedMap.entries_eq_of_perm hsorted (hperm.trans (List.Perm.of_eq ?_))
  have htotal := hsnapshot.total
  unfold capture at htotal ⊢
  dsimp only at htotal ⊢
  split at htotal
  next hover =>
    -- The snapshot of a failed capture lists no region but keeps the total.
    rw [if_pos hover]
    have hzero : (memory.regions.entries.map fun entry =>
        entry.2.size.toNat).sum = 0 := by
      rw [← hmemory.counted]
      exact htotal.symm
    have hnone : memory.regions.entries = [] := by
      refine List.eq_nil_iff_forall_not_mem.mpr fun entry hentry => ?_
      have hpositive := hmemory.nonempty entry hentry
      have hsize := List.sum_eq_zero_iff.mp hzero _
        (List.mem_map_of_mem (f := fun entry : UInt64 × MemoryRegion =>
          entry.2.size.toNat) hentry)
      omega
    rw [hnone]
    rfl
  next hfits =>
    rw [if_neg hfits, List.map_map]
    refine List.map_congr_left fun entry hentry => ?_
    have hkey := hmemory.keyed entry hentry
    rw [Function.comp_apply, restoredRegion_captureRegion
      (hmemory.nonempty entry hentry) (hmemory.stored entry hentry), hkey]
    rfl

/-- What an accepted snapshot puts into each region, and what restoring a
capture gives back. -/
theorem restore_contents (limits : Limits) :
    (∀ snapshot target next, restore limits snapshot target = .ok () next →
      ∀ source ∈ snapshot.regions, ∃ region,
        (source.base, region) ∈ next.regions.entries ∧
          (source.bytes ≠ [] → region.bytes = source.bytes ∧
            crc32 region.bytes = source.checksum) ∧
          (source.bytes = [] →
            region.bytes = List.replicate source.size.toNat 0)) ∧
      ∀ captureLimits (memory : AddressSpace) includeBytes target next,
        memory.Reachable →
          restore limits (capture captureLimits memory includeBytes).1 target =
              .ok () next →
            next.regions.entries = memory.regions.entries.map fun entry =>
              (entry.1, { entry.2 with
                bytes := if includeBytes then entry.2.bytes
                  else List.replicate entry.2.size.toNat 0 }) := by
  refine ⟨fun snapshot target next hrun source hsource => ?_,
    fun _ _ _ _ _ hreachable hrun => restore_capture hreachable.wellFormed hrun⟩
  obtain ⟨hsnapshot, rfl⟩ := restore_eq_ok.mp hrun
  refine ⟨restoredRegion source, hsnapshot.restored_perm.mem_iff.mpr
    (List.mem_map_of_mem hsource), fun hbytes => ?_, fun hbytes => ?_⟩
  · have hchecked := ((hsnapshot.regions source hsource).bytes.resolve_left
      hbytes).2
    simp [restoredRegion, hbytes, hchecked]
  · simp [restoredRegion, hbytes]

theorem restore_contents_two_regions :
    let memory := (new {}).run
      [.map 0x1000 1 permissionRead "data", .write 0x1000 [7] true]
    ∃ next, restore {} (capture {} memory true).1 (new {}) = .ok () next ∧
      next.regions.entries = memory.regions.entries.map fun entry =>
        (entry.1, { entry.2 with bytes := entry.2.bytes }) := by
  intro memory
  obtain ⟨value, next, hrun⟩ := succeeded_iff.mp
    (by decide +kernel : succeeded
      (restore {} (capture {} memory true).1 (new {})) = true)
  exact ⟨next, hrun, (restore_contents {}).2 {} memory true (new {}) next
    ⟨_, _, rfl⟩ hrun⟩

/-- A capture without bytes keeps the checksum of the bytes it drops, and is
restored as zeros all the same. -/
theorem restore_without_bytes_differs :
    let memory := (new {}).run
      [.map 0x1000 1 permissionRead "data", .write 0x1000 [7] true]
    let snapshot := (capture {} memory false).1
    let result := restore {} snapshot (new {})
    memory.Reachable ∧ succeeded result = true ∧
      (∃ source ∈ snapshot.regions,
        ∃ entry ∈ (finalState result).regions.entries,
          entry.1 = source.base ∧ crc32 entry.2.bytes ≠ source.checksum) ∧
      (finalState result).regions ≠ memory.regions := by
  intro memory snapshot result
  exact ⟨⟨_, _, rfl⟩, by decide +kernel, by decide +kernel, by decide +kernel⟩

end MemorySnapshotCodec
end BinForge
