import BinForge.LoadedContents
import BinForge.MemoryLaws

/-!
# Adding a set of regions

Mapping fills an address space one region at a time.  Whether a list of regions
fits depends only on the regions, on what is there already and on the budget,
not on the order of the list, and neither does the address space that holds
them in the end.
-/

namespace BinForge

open MachineInteger
open BinaryLoader (Extends withRegion_extends)

/-- No address belongs to both regions. -/
def MemoryRegion.Apart (left right : MemoryRegion) : Prop :=
  left.stop ≤ right.base.toNat ∨ right.stop ≤ left.base.toNat

instance (left right : MemoryRegion) : Decidable (left.Apart right) :=
  inferInstanceAs (Decidable (_ ∨ _))

theorem MemoryRegion.Apart.symm {left right : MemoryRegion}
    (hapart : left.Apart right) : right.Apart left :=
  Or.symm hapart

namespace AddressSpace

variable {memory next : AddressSpace} {region : MemoryRegion}
  {regions permuted : List MemoryRegion}

/-- What a region must be to be mapped at all. -/
structure Mappable (region : MemoryRegion) : Prop where
  nonempty : 0 < region.size.toNat
  stored : region.bytes.length = region.size.toNat
  bounded : region.stop < 2 ^ 64

def totalSize (regions : List MemoryRegion) : ℕ :=
  (regions.map fun region => region.size.toNat).sum

@[simp] theorem totalSize_nil : totalSize [] = 0 := rfl

@[simp] theorem totalSize_cons (region : MemoryRegion)
    (regions : List MemoryRegion) :
    totalSize (region :: regions) = region.size.toNat + totalSize regions :=
  List.sum_cons

@[simp] theorem totalSize_append (front back : List MemoryRegion) :
    totalSize (front ++ back) = totalSize front + totalSize back := by
  simp [totalSize]

/-- The regions may be added to the address space. -/
structure Addable (memory : AddressSpace) (regions : List MemoryRegion) :
    Prop where
  mappable : ∀ region ∈ regions, Mappable region
  apart : regions.Pairwise MemoryRegion.Apart
  free : ∀ region ∈ regions, ∀ entry ∈ memory.regions.entries,
    region.Apart entry.2
  budget : memory.mappedBytes.toNat + totalSize regions ≤
    memory.limits.maxMappedBytes.toNat

/-- The address space with the regions added in order. -/
def withRegions (memory : AddressSpace) (regions : List MemoryRegion) :
    AddressSpace :=
  regions.foldl withRegion memory

@[simp] theorem withRegions_nil : memory.withRegions [] = memory := rfl

@[simp] theorem withRegions_cons :
    memory.withRegions (region :: regions) =
      (memory.withRegion region).withRegions regions := rfl

theorem Addable.wellFormed_one (hmemory : memory.WellFormed)
    (hregion : Addable memory [region]) :
    (memory.withRegion region).WellFormed := by
  obtain ⟨hmappable, -, hfree, hbudget⟩ := hregion
  obtain ⟨hnonempty, hstored, hbounded⟩ := hmappable region (by simp)
  have hlimit := memory.limits.maxMappedBytes.toNat_lt
  rw [totalSize_cons, totalSize_nil, Nat.add_zero] at hbudget
  refine hmemory.withRegion hnonempty hstored hbounded
    (hfree region (by simp)) (by omega) ?_
  rw [UInt64.le_iff_toNat_le, toNat_add_of_fit (by omega)]
  exact hbudget

theorem Addable.extends_one (hmemory : memory.WellFormed)
    (hregion : Addable memory [region]) :
    Extends memory (memory.withRegion region) [region] :=
  withRegion_extends (hregion.wellFormed_one hmemory)
    (hmemory.absent_of_disjoint region (hregion.mappable region (by simp)).nonempty
      (hregion.free region (by simp)))

/-- A larger address space holds the old entries and the added regions. -/
theorem mem_of_extends (hextends : Extends memory next regions)
    {entry : UInt64 × MemoryRegion} (hentry : entry ∈ next.regions.entries) :
    entry ∈ memory.regions.entries ∨ entry.2 ∈ regions := by
  rcases List.mem_append.mp (hextends.entries.mem_iff.mp hentry) with hold | hnew
  · exact Or.inl hold
  · obtain ⟨region, hregion, rfl⟩ := List.mem_map.mp hnew
    exact Or.inr hregion

theorem mappedBytes_of_extends (hmemory : memory.WellFormed)
    (hextends : Extends memory next regions) :
    next.mappedBytes.toNat = memory.mappedBytes.toNat + totalSize regions := by
  have hsum := (hextends.entries.map fun entry => entry.2.size.toNat).sum_eq
  rw [← hextends.wellFormed.counted, List.map_append, List.sum_append,
    ← hmemory.counted, List.map_map] at hsum
  exact hsum

theorem addable_append_of_extends (hmemory : memory.WellFormed)
    (hfront : Addable memory front) (hextends : Extends memory next front) :
    Addable memory (front ++ back) ↔ Addable next back := by
  have hmapped := mappedBytes_of_extends hmemory hextends
  constructor
  · rintro ⟨hmappable, hapart, hfree, hbudget⟩
    obtain ⟨-, hback, hacross⟩ := List.pairwise_append.mp hapart
    refine ⟨fun region hregion => hmappable region (by simp [hregion]), hback,
      fun region hregion entry hentry => ?_, ?_⟩
    · rcases mem_of_extends hextends hentry with hold | hnew
      · exact hfree region (by simp [hregion]) entry hold
      · exact (hacross entry.2 hnew region hregion).symm
    · rw [hextends.limits, hmapped]
      rw [totalSize_append] at hbudget
      omega
  · rintro ⟨hmappable, hapart, hfree, hbudget⟩
    rw [hextends.limits, hmapped] at hbudget
    refine ⟨fun region hregion => ?_, List.pairwise_append.mpr
      ⟨hfront.apart, hapart, fun left hleft right hright => ?_⟩,
      fun region hregion entry hentry => ?_, ?_⟩
    · rcases List.mem_append.mp hregion with hregion | hregion
      · exact hfront.mappable region hregion
      · exact hmappable region hregion
    · exact (hfree right hright _ (hextends.added hleft)).symm
    · rcases List.mem_append.mp hregion with hregion | hregion
      · exact hfront.free region hregion entry hentry
      · exact hfree region hregion entry (hextends.kept hentry)
    · rw [totalSize_append]
      omega

theorem Addable.of_append
    (hregions : Addable memory (front ++ back)) : Addable memory front := by
  obtain ⟨hmappable, hapart, hfree, hbudget⟩ := hregions
  rw [totalSize_append] at hbudget
  exact ⟨fun region hregion => hmappable region (by simp [hregion]),
    (List.pairwise_append.mp hapart).1,
    fun region hregion => hfree region (by simp [hregion]), by omega⟩

theorem Addable.extends (hmemory : memory.WellFormed)
    (hregions : Addable memory regions) :
    Extends memory (memory.withRegions regions) regions := by
  induction regions generalizing memory with
  | nil => exact Extends.refl hmemory
  | cons region rest ih =>
      have hhead : Addable memory [region] :=
        Addable.of_append (hregions : Addable memory ([region] ++ rest))
      have hstep := hhead.extends_one hmemory
      exact hstep.trans (ih hstep.wellFormed
        ((addable_append_of_extends hmemory hhead hstep).mp hregions))

theorem addable_append (hmemory : memory.WellFormed) :
    Addable memory (front ++ back) ↔
      Addable memory front ∧ Addable (memory.withRegions front) back := by
  constructor
  · intro hregions
    have hfront := hregions.of_append
    exact ⟨hfront, (addable_append_of_extends hmemory hfront
      (hfront.extends hmemory)).mp hregions⟩
  · rintro ⟨hfront, hback⟩
    exact (addable_append_of_extends hmemory hfront
      (hfront.extends hmemory)).mpr hback

/-! ## The order of the regions -/

theorem Addable.perm (hregions : Addable memory regions)
    (hperm : regions.Perm permuted) : Addable memory permuted := by
  obtain ⟨hmappable, hapart, hfree, hbudget⟩ := hregions
  refine ⟨fun region hregion => hmappable region (hperm.mem_iff.mpr hregion),
    (hperm.pairwise_iff fun hpair => hpair.symm).mp hapart,
    fun region hregion => hfree region (hperm.mem_iff.mpr hregion), ?_⟩
  rwa [totalSize, ← (hperm.map _).sum_eq]

/-- What holds the same regions over the same space is the same. -/
theorem eq_of_extends (hmemory : memory.WellFormed) {last : AddressSpace}
    (hleft : Extends memory next regions) (hright : Extends memory last permuted)
    (hperm : regions.Perm permuted) : next = last := by
  ext1
  · exact hleft.limits.trans hright.limits.symm
  · exact OrderedMap.eq_of_perm (hleft.entries.trans
      (((hperm.map _).append_left _).trans hright.entries.symm))
  · rw [← UInt64.toNat_inj, mappedBytes_of_extends hmemory hleft,
      mappedBytes_of_extends hmemory hright, totalSize, totalSize,
      (hperm.map _).sum_eq]

theorem withRegions_perm (hmemory : memory.WellFormed)
    (hregions : Addable memory regions) (hperm : regions.Perm permuted) :
    memory.withRegions regions = memory.withRegions permuted :=
  eq_of_extends hmemory (hregions.extends hmemory)
    ((hregions.perm hperm).extends hmemory) hperm

/-- The regions of an address space do not meet. -/
theorem WellFormed.pairwise_apart (hmemory : memory.WellFormed) :
    memory.regions.entries.Pairwise fun left right => left.2.Apart right.2 := by
  refine memory.regions.sorted.imp_of_mem fun hleft hright hlt => Or.inl ?_
  have hkey := hmemory.keyed _ hright
  have hstop := hmemory.separated.stop_le hleft hright hlt
  rwa [hkey] at hstop

/-- Whatever an address space was extended by could be added to it. -/
theorem addable_of_extends (hmemory : memory.WellFormed)
    (hextends : Extends memory next regions) : Addable memory regions := by
  have hnext := hextends.wellFormed
  have hbudget := UInt64.le_iff_toNat_le.mp hnext.budget
  rw [mappedBytes_of_extends hmemory hextends, hextends.limits] at hbudget
  have hapart := (hextends.entries.pairwise_iff fun hpair => hpair.symm).mp
    hnext.pairwise_apart
  obtain ⟨-, hadded, hacross⟩ := List.pairwise_append.mp hapart
  rw [List.pairwise_map] at hadded
  refine ⟨fun region hregion => ?_, hadded,
    fun region hregion entry hentry => ?_, hbudget⟩
  · have hentry := hextends.added hregion
    exact ⟨hnext.nonempty _ hentry, hnext.stored _ hentry,
      hnext.bounded _ hentry⟩
  · exact (hacross entry hentry _
      (List.mem_map.mpr ⟨region, hregion, rfl⟩)).symm

theorem withRegions_eq (hmemory : memory.WellFormed)
    (hregions : Addable memory regions)
    (hextends : Extends memory next regions) :
    next = memory.withRegions regions :=
  eq_of_extends hmemory hextends (hregions.extends hmemory) (List.Perm.refl _)

end AddressSpace
end BinForge
