import BinForge.LoadOrder

/-!
# Unloading

The pages of an image that relocates and binds only itself are all that a load
of it changes.  Unmapping them takes the load back, also when other images have
been loaded before and after it.
-/

namespace CellMemory

variable {β : Type} {memory : CellMemory β}

/-- No store reaches a cell beside all of them. -/
theorem storeAll_outside {stores : List (ℕ × List β)} {target : ℕ}
    (houtside : ∀ cells ∈ stores,
      target < cells.1 ∨ cells.1 + cells.2.length ≤ target) :
    memory.storeAll stores target = memory target := by
  induction stores generalizing memory with
  | nil => rfl
  | cons cells stores ih =>
      obtain ⟨hcells, hrest⟩ := List.forall_mem_cons.mp houtside
      rw [storeAll_cons, ih hrest, store_outside hcells]

end CellMemory

namespace BinForge

open StatefulExcept

namespace AddressSpace

open BinaryLoader (Extends)

variable {memory next last : AddressSpace} {region : MemoryRegion}
  {regions permuted : List MemoryRegion}

/-! ## Taking regions away -/

/-- Unmap the region with this base. -/
def UnmapStep (base : UInt64) (before after : AddressSpace) : Prop :=
  unmap base before = .ok () after

theorem extends_perm (hextends : Extends memory next regions)
    (hperm : regions.Perm permuted) : Extends memory next permuted :=
  ⟨hextends.wellFormed, hextends.limits,
    hextends.entries.trans ((hperm.map _).append_left _)⟩

/-- The first of the added regions is unmapped, and the others stay. -/
theorem unmap_extends (hextends : Extends memory next (region :: regions)) :
    ∃ after, UnmapStep region.base next after ∧ Extends memory after regions := by
  have hadded := hextends.added List.mem_cons_self
  have hunmap : UnmapStep region.base next _ := unmap_eq_ok.mpr
    ⟨region, OrderedMap.find?_eq_some.mpr hadded, rfl⟩
  refine ⟨_, hunmap, unmap_ok_wellFormed hextends.wellFormed hunmap,
    hextends.limits, ?_⟩
  have hentries := hextends.entries
  rw [List.map_cons] at hentries
  exact ((OrderedMap.erase_perm hadded).symm.trans
    (hentries.trans List.perm_middle)).cons_inv

/-- Unmapping everything that was added, in any order, leads back. -/
theorem unmapAll_extends (hmemory : memory.WellFormed)
    (hextends : Extends memory next regions) (hperm : regions.Perm permuted) :
    ListRun UnmapStep (permuted.map MemoryRegion.base) next memory := by
  replace hextends := extends_perm hextends hperm
  clear hperm
  induction permuted generalizing next with
  | nil =>
      rw [eq_of_extends hmemory hextends (Extends.refl hmemory) (.refl [])]
      exact .nil memory
  | cons region rest ih =>
      obtain ⟨after, hunmap, hrest⟩ := unmap_extends hextends
      exact .cons hunmap (ih hrest)

/-! ## Regions as they stand -/

/-- A region with the bytes that a memory holds at its addresses. -/
def asStored (memory : AddressSpace) (region : MemoryRegion) : MemoryRegion :=
  { region with
    bytes := memory.contents.load region.base.toNat region.size.toNat }

theorem layout_mem (hnext : SameFrame (memory.withRegions regions) next)
    (hmemory : memory.WellFormed) (hregions : Addable memory regions)
    (hregion : region ∈ regions) :
    ∃ entry ∈ next.regions.entries, entry.2.base = region.base ∧
      entry.2.size = region.size := by
  have hadded := (hregions.extends hmemory).added hregion
  exact SameFrame.entry hnext.symm hadded

theorem isSome_contents (hmemory : memory.WellFormed)
    {entry : UInt64 × MemoryRegion} (hentry : entry ∈ memory.regions.entries)
    {address : ℕ} (hcovers : entry.2.Covers address) :
    (memory.contents address).isSome := by
  have hstored := hmemory.stored entry hentry
  rw [hmemory.contents_of_covers hentry hcovers, List.getElem?_eq_getElem (by
    unfold MemoryRegion.Covers MemoryRegion.stop at hcovers
    omega)]
  rfl

theorem contents_eq_none_iff (hmemory : memory.WellFormed) {address : ℕ} :
    memory.contents address = none ↔
      ∀ entry ∈ memory.regions.entries, ¬entry.2.Covers address := by
  constructor
  · intro hnone entry hentry hcovers
    have hsome := isSome_contents hmemory hentry hcovers
    rw [hnone] at hsome
    contradiction
  · exact contents_eq_none_of_uncovered

section Stored

variable (hmemory : memory.WellFormed) (hnext : next.WellFormed)
  (hregions : Addable memory regions)
  (hframe : SameFrame (memory.withRegions regions) next)
include hmemory hnext hregions hframe

theorem mapped_asStored (hregion : region ∈ regions) :
    ∀ target, region.base.toNat ≤ target →
      target < region.base.toNat + region.size.toNat →
        (next.contents target).isSome := by
  intro target hlow hhigh
  obtain ⟨entry, hentry, hbase, hsize⟩ :=
    layout_mem hframe hmemory hregions hregion
  refine isSome_contents hnext hentry ?_
  unfold MemoryRegion.Covers MemoryRegion.stop
  rw [hbase, hsize]
  exact ⟨hlow, hhigh⟩

theorem addable_asStored : Addable memory (regions.map next.asStored) := by
  have hsize : totalSize (regions.map next.asStored) = totalSize regions := by
    rw [totalSize, List.map_map]
    rfl
  refine ⟨?_, ?_, ?_, hsize ▸ hregions.budget⟩
  · rintro _ hmem
    obtain ⟨region, hregion, rfl⟩ := List.mem_map.mp hmem
    obtain ⟨hnonempty, -, hbounded⟩ := hregions.mappable region hregion
    exact ⟨hnonempty, CellMemory.load_length
      (mapped_asStored hmemory hnext hregions hframe hregion), hbounded⟩
  · exact List.pairwise_map.mpr hregions.apart
  · rintro _ hmem
    obtain ⟨region, hregion, rfl⟩ := List.mem_map.mp hmem
    exact hregions.free region hregion

/-- What was added stands there as it was changed since, if the rest did not
change. -/
theorem extends_asStored
    (hkept : ∀ entry ∈ memory.regions.entries, ∀ address,
      entry.2.Covers address →
        next.contents address = memory.contents address) :
    Extends memory next (regions.map next.asStored) := by
  have hadded := addable_asStored hmemory hnext hregions hframe
  have hextends := hadded.extends hmemory
  have htarget := hextends.wellFormed
  -- The regions as they stand have the frame of the regions that were added.
  have hgrown : Grown memory (memory.withRegions (regions.map next.asStored))
      regions := by
    have hstripped := layout_of_extends hextends
    have hmapped := mappedBytes_of_extends hmemory hextends
    rw [totalSize, List.map_map] at hmapped
    rw [List.map_map] at hstripped
    exact ⟨hextends.limits, hstripped, hmapped⟩
  have hsame := (grown_of_frame hmemory hregions hframe).frame hgrown
    (List.Perm.refl regions)
  suffices hnext : next = memory.withRegions (regions.map next.asStored) by
    rw [← hnext] at hextends
    exact hextends
  refine eq_of_frame_of_contents hnext htarget hsame (funext fun address => ?_)
  by_cases hnew : ∃ region ∈ regions, region.Covers address
  · obtain ⟨region, hregion, hcovers⟩ := hnew
    have hentry := hextends.added
      (List.mem_map.mpr ⟨region, hregion, rfl⟩)
    have hmapped := mapped_asStored hmemory hnext hregions hframe hregion
    have hrange := hcovers
    unfold MemoryRegion.Covers MemoryRegion.stop at hrange
    rw [htarget.contents_of_covers hentry hcovers]
    show _ = (next.contents.load _ _)[address - region.base.toNat]?
    rw [CellMemory.load_getElem? hmapped (by omega)]
    congr 1
    omega
  by_cases hold : ∃ entry ∈ memory.regions.entries, entry.2.Covers address
  · obtain ⟨entry, hentry, hcovers⟩ := hold
    rw [hkept entry hentry address hcovers,
      htarget.contents_of_covers (hextends.kept hentry) hcovers,
      hmemory.contents_of_covers hentry hcovers]
  · have hnone : (memory.withRegions (regions.map next.asStored)).contents
        address = none := by
      refine (contents_eq_none_iff htarget).mpr fun entry hentry hcovers => ?_
      rcases mem_of_extends hextends hentry with hkept | hadded
      · exact hold ⟨entry, hkept, hcovers⟩
      · obtain ⟨region, hregion, hstands⟩ := List.mem_map.mp hadded
        rw [← hstands] at hcovers
        exact hnew ⟨region, hregion, hcovers⟩
    rw [hnone]
    refine (contents_eq_none_iff hnext).mpr fun entry hentry hcovers => ?_
    obtain ⟨other, hother, hbase, hsize⟩ := hsame.symm.entry hentry
    refine (contents_eq_none_iff htarget).mp hnone other hother ?_
    unfold MemoryRegion.Covers MemoryRegion.stop at hcovers ⊢
    rwa [hbase, hsize]

end Stored

end AddressSpace

namespace BinaryLoader

open AddressSpace

variable {memory last : AddressSpace} {data : Bytes}

/-- A self-contained load is taken back by unmapping its pages. -/
theorem LoadCall.unload {call : LoadCall} {result : LoadResult}
    {permuted : List MemoryRegion} (hmemory : memory.WellFormed)
    (hself : call.SelfContained) (hrun : call.call memory = .ok result last)
    (hdata : call.image.fileData = some data)
    (hperm : (call.regions data).Perm permuted) :
    ListRun UnmapStep (permuted.map MemoryRegion.base) last memory := by
  obtain ⟨found, relocated, bound, entry, hloads, hloaded⟩ :=
    loaded_of_load hmemory hrun
  obtain rfl : found = data :=
    Option.some.inj (hloads.file.symm.trans hdata)
  have hextends := extends_asStored hmemory hloaded.wellFormed hloads.regions
    hloaded.frame fun entry hentry address hcovers => by
      rw [hloaded.cells hloads]
      refine CellMemory.storeAll_outside fun cells hcells => ?_
      rcases hself.within hloads cells hcells with hempty | hinside
      · rw [hempty, List.length_nil]
        omega
      obtain ⟨region, hregion, hlow, hhigh⟩ := hinside
      have hapart := hloads.regions.free region hregion entry hentry
      unfold MemoryRegion.Apart at hapart
      unfold MemoryRegion.Covers at hcovers
      omega
  have hunmapped := unmapAll_extends hmemory hextends (hperm.map _)
  rwa [List.map_map] at hunmapped

/-- Where several self-contained images have been loaded, unmapping the pages
of one of them, in any order, leaves what loading the others alone does. -/
theorem unload_one_of_many {front back : List (LoadCall × LoadResult)}
    {step : LoadCall × LoadResult} {permuted : List MemoryRegion}
    (hmemory : memory.Reachable)
    (hself : ∀ other ∈ front ++ step :: back, other.1.SelfContained)
    (hrun : ListRun LoadStep (front ++ step :: back) memory last)
    (hdata : step.1.image.fileData = some data)
    (hperm : (step.1.regions data).Perm permuted) :
    ∃ without, ListRun LoadStep (front ++ back) memory without ∧
      ListRun UnmapStep (permuted.map MemoryRegion.base) last without := by
  have hlast : (front ++ step :: back).Perm (front ++ back ++ [step]) :=
    List.perm_middle.trans (List.perm_append_singleton _ _).symm
  obtain ⟨without, hothers, hstep⟩ := ListRun.append_iff.mp
    (loads_perm hmemory.wellFormed hlast hself hrun)
  have hsound : without.WellFormed := by
    refine ListRun.invariant ?_ hmemory.wellFormed hothers
    intro other before after hbefore hrun
    obtain ⟨_, _, _, _, _, hloaded⟩ := loaded_of_load hbefore hrun
    exact hloaded.wellFormed
  obtain ⟨_, hload, hdone⟩ := ListRun.cons_iff.mp hstep
  cases hdone
  exact ⟨without, hothers, LoadCall.unload hsound
    (hself step (by simp)) hload hdata hperm⟩

/-- The image loaded first is unloaded from under the second one. -/
theorem unload_one_of_many_first :
    let image : UInt64 → BinaryImage := fun address =>
      { fileData := some [1, 2]
        segments := [{ index := 0, fileSize := 2, virtualAddress := address,
                       memorySize := 16 },
                     { index := 1, virtualAddress := address + 0x40,
                       memorySize := 8 }] }
    let call : UInt64 → LoadCall := fun address =>
      { limits := { pageSize := 16 }, image := image address }
    ∃ first second last without,
      ListRun LoadStep [(call 0x1000, first), (call 0x1010, second)] (new {})
          last ∧
        ListRun LoadStep [(call 0x1010, second)] (new {}) without ∧
          ListRun UnmapStep [0x1040, 0x1000] last without := by
  intro image call
  obtain ⟨first, middle, hfirst⟩ := succeeded_iff.mp (by decide +kernel :
    succeeded ((call 0x1000).call (new {})) = true)
  obtain ⟨second, last, hsecond⟩ := succeeded_iff.mp (by
    rw [show middle = finalState ((call 0x1000).call (new {})) by
      rw [hfirst]; rfl]
    decide +kernel : succeeded ((call 0x1010).call middle) = true)
  have hrun : ListRun LoadStep ([] ++ (call 0x1000, first) ::
      [(call 0x1010, second)]) (new {}) last :=
    .cons hfirst (.cons hsecond (.nil last))
  have hself : ∀ address, (call address).SelfContained := by
    intro address data relocated bound _ hrelocated hbound store hstore
    obtain rfl : [] = relocated := Except.ok.inj hrelocated
    obtain rfl : [] = bound := Except.ok.inj hbound
    contradiction
  obtain ⟨without, hothers, hunmapped⟩ := @unload_one_of_many (new {}) last
    [1, 2] [] [(call 0x1010, second)] (call 0x1000, first) _ ⟨{}, [], rfl⟩
    (by
      intro other hother
      simp only [List.nil_append, List.mem_cons, List.not_mem_nil,
        or_false] at hother
      rcases hother with rfl | rfl
      · exact hself 0x1000
      · exact hself 0x1010) hrun rfl (List.reverse_perm _).symm
  have hbases : ((call 0x1000).regions [1, 2]).reverse.map MemoryRegion.base =
      [0x1040, 0x1000] := by decide +kernel
  rw [hbases] at hunmapped
  exact ⟨first, second, last, without, hrun, hothers, hunmapped⟩

end BinaryLoader
end BinForge
