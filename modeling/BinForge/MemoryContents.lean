import BinForge.CellMemory
import BinForge.MemoryInvariant

/-!
# The address space as a partial byte memory

`contents` forgets how the bytes are grouped into regions and `layout` keeps
the grouping and forgets the bytes.  Reads are loads and writes are stores of
the contents, and no write touches the layout.
-/

namespace BinForge

open StatefulExcept
open ListSplice

namespace AddressSpace

/-- The byte at each mapped address. -/
def contents (memory : AddressSpace) : CellMemory UInt8 := fun address =>
  (memory.regions.entries.find? fun entry => entry.2.Covers address).bind
    fun entry => entry.2.bytes[address - entry.2.base.toNat]?

/-- The regions without their bytes. -/
def layout (memory : AddressSpace) : List (UInt64 × MemoryRegion) :=
  memory.regions.entries.map fun entry => (entry.1, { entry.2 with bytes := [] })

variable {memory next : AddressSpace}

namespace WellFormed

theorem contents_of_covers (hmemory : memory.WellFormed)
    {entry : UInt64 × MemoryRegion} {address : ℕ}
    (hentry : entry ∈ memory.regions.entries)
    (hcovers : entry.2.Covers address) :
    memory.contents address = entry.2.bytes[address - entry.2.base.toNat]? := by
  unfold contents
  cases hfind : memory.regions.entries.find? fun entry =>
      entry.2.Covers address with
  | none =>
      have hnone := List.find?_eq_none.mp hfind entry hentry
      simp [hcovers] at hnone
  | some found =>
      have hfound : found.2.Covers address := by
        simpa using List.find?_some hfind
      rw [hmemory.covers_unique (List.mem_of_find?_eq_some hfind) hentry hfound
        hcovers]
      rfl

end WellFormed

theorem contents_eq_none_of_uncovered {address : ℕ}
    (huncovered : ∀ entry ∈ memory.regions.entries, ¬entry.2.Covers address) :
    memory.contents address = none := by
  unfold contents
  rw [List.find?_eq_none.mpr fun entry hentry => by
    simpa using huncovered entry hentry]
  rfl

/-! ## Reads and writes -/

theorem WellFormed.slice_eq_load (hmemory : memory.WellFormed)
    {entry : UInt64 × MemoryRegion} {address : UInt64} {size : ℕ}
    (hentry : entry ∈ memory.regions.entries)
    (hfit : entry.2.contains address size = true) :
    slice entry.2.bytes (address - entry.2.base).toNat size =
      memory.contents.load address.toNat size := by
  have hrange := MemoryRegion.contains_iff.mp hfit
  have hstored := hmemory.stored entry hentry
  have hoffset : (address - entry.2.base).toNat =
      address.toNat - entry.2.base.toNat :=
    UInt64.toNat_sub_of_le _ _ (UInt64.le_iff_toNat_le.mpr hrange.1)
  have hlength : (slice entry.2.bytes (address - entry.2.base).toNat
      size).length = size := by
    unfold MemoryRegion.stop at hrange
    exact slice_length (by omega)
  rw [← hlength, eq_comm, hlength]
  conv_lhs => rw [← hlength]
  apply CellMemory.load_eq
  intro i hi
  rw [hlength] at hi
  rw [hmemory.contents_of_covers hentry ⟨by omega, by omega⟩, slice_getElem?,
    if_pos hi, hoffset]
  congr 1
  omega

theorem read_ok_contents (hmemory : memory.WellFormed) {address : UInt64}
    {size : ℕ} {value : Bytes}
    (hrun : read address size memory = .ok value next) :
    value = memory.contents.load address.toNat size ∧ next = memory := by
  by_cases hsize : size = 0
  · subst hsize
    rw [read, if_pos rfl, pure_eq_ok] at hrun
    exact ⟨hrun.1.symm, hrun.2.symm⟩
  · obtain ⟨region, hfound, hfit, _, rfl, rfl⟩ := (read_eq_ok hsize).mp hrun
    obtain ⟨entry, hentryAt, rfl⟩ := Option.map_eq_some_iff.mp hfound
    have hentry := (hmemory.entryAt_eq_some.mp hentryAt).1
    exact ⟨hmemory.slice_eq_load hentry hfit, rfl⟩

theorem layout_adjust (key : UInt64) {change : MemoryRegion → MemoryRegion}
    (hchange : ∀ region,
      { change region with bytes := [] } = { region with bytes := [] }) :
    ({ memory with regions := memory.regions.adjust key change } :
      AddressSpace).layout = memory.layout := by
  simp only [layout, OrderedMap.adjust, List.map_map]
  refine List.map_congr_left fun entry _ => ?_
  simp only [Function.comp_apply]
  split
  · rw [hchange]
  · rfl

/-- Everything but the bytes is the same. -/
structure SameFrame (memory next : AddressSpace) : Prop where
  limits : next.limits = memory.limits
  layout : next.layout = memory.layout
  mappedBytes : next.mappedBytes = memory.mappedBytes

theorem SameFrame.refl (memory : AddressSpace) : SameFrame memory memory :=
  ⟨rfl, rfl, rfl⟩

theorem SameFrame.trans {first second third : AddressSpace}
    (hleft : SameFrame first second) (hright : SameFrame second third) :
    SameFrame first third :=
  ⟨hright.limits.trans hleft.limits, hright.layout.trans hleft.layout,
    hright.mappedBytes.trans hleft.mappedBytes⟩

/-- The lookup sees bases and sizes only, so it survives a change of bytes. -/
theorem regionAt_strip (memory : AddressSpace) (address : UInt64) :
    (memory.regionAt address).map (fun region => { region with bytes := [] }) =
      ((memory.layout.filter fun entry => entry.1 ≤ address).getLast?.filter
        fun entry => entry.2.contains address 1).map Prod.snd := by
  have hcandidate : (memory.layout.filter fun entry =>
        decide (entry.1 ≤ address)).getLast? =
      (memory.regions.beforeUpperBound address).map fun entry =>
        (entry.1, { entry.2 with bytes := [] }) := by
    rw [layout, List.filter_map, List.getLast?_map]
    rfl
  rw [hcandidate, regionAt, entryAt]
  cases memory.regions.beforeUpperBound address with
  | none => rfl
  | some candidate =>
      have hsame : ({ candidate.2 with bytes := [] } : MemoryRegion).contains
          address 1 = candidate.2.contains address 1 := rfl
      by_cases hcontains : candidate.2.contains address 1 = true <;>
        simp [Option.filter, hsame, hcontains]

theorem SameFrame.symm (hframe : SameFrame memory next) :
    SameFrame next memory :=
  ⟨hframe.limits.symm, hframe.layout.symm, hframe.mappedBytes.symm⟩

theorem SameFrame.regionAt (hframe : SameFrame memory next)
    (address : UInt64) :
    (next.regionAt address).map (fun region => { region with bytes := [] }) =
      (memory.regionAt address).map fun region =>
        { region with bytes := [] } := by
  rw [regionAt_strip, regionAt_strip, hframe.layout]

theorem write_ok_frame {address : UInt64} {input : Bytes}
    {ignorePermissions : Bool} {value : Unit}
    (hrun : write address input ignorePermissions memory = .ok value next) :
    SameFrame memory next := by
  by_cases hinput : input = []
  · subst hinput
    rw [write_nil, EStateM.Result.ok.injEq] at hrun
    rw [← hrun.2]
    exact SameFrame.refl memory
  · obtain ⟨entry, _, _, _, rfl⟩ := (write_eq_ok hinput).mp hrun
    exact ⟨rfl, layout_adjust entry.1 fun _ => rfl, rfl⟩

/-- The byte of the written region at a covered address. -/
theorem copyInto_byte (hmemory : memory.WellFormed) {address : UInt64}
    {input : Bytes} {entry : UInt64 × MemoryRegion}
    (hentry : entry ∈ memory.regions.entries)
    (hfit : entry.2.contains address input.length = true) {target : ℕ}
    (hcovers : entry.2.Covers target) :
    (copyInto address input entry.2).bytes[target - entry.2.base.toNat]? =
      memory.contents.store address.toNat input target := by
  have hroom := hmemory.copyInto_length hentry hfit
  have hrange := MemoryRegion.contains_iff.mp hfit
  have hoffset : (address - entry.2.base).toNat =
      address.toNat - entry.2.base.toNat :=
    UInt64.toNat_sub_of_le _ _ (UInt64.le_iff_toNat_le.mpr hrange.1)
  rw [copyInto, splice_getElem? hroom, CellMemory.store,
    hmemory.contents_of_covers hentry hcovers, hoffset]
  unfold MemoryRegion.Covers at hcovers
  by_cases hinside : address.toNat ≤ target ∧
      target < address.toNat + input.length
  · rw [if_pos hinside, if_pos (by omega)]
    congr 1
    omega
  · rw [if_neg hinside, if_neg (by omega)]

theorem write_ok_contents (hmemory : memory.WellFormed) {address : UInt64}
    {input : Bytes} {ignorePermissions : Bool} {value : Unit}
    (hrun : write address input ignorePermissions memory = .ok value next) :
    next.contents = memory.contents.store address.toNat input := by
  have hnext := write_ok_wellFormed hmemory hrun
  by_cases hinput : input = []
  · subst hinput
    rw [write_nil, EStateM.Result.ok.injEq] at hrun
    rw [← hrun.2, CellMemory.store_nil]
  obtain ⟨entry, hfound, hfit, _, rfl⟩ := (write_eq_ok hinput).mp hrun
  have hentry := (hmemory.entryAt_eq_some.mp hfound).1
  have hrange := MemoryRegion.contains_iff.mp hfit
  funext target
  by_cases hcovered : ∃ source ∈ memory.regions.entries,
      source.2.Covers target
  · obtain ⟨source, hsource, hcovers⟩ := hcovered
    by_cases hkey : source.1 = entry.1
    · -- The region written to: its bytes are spliced.
      have hsame := OrderedMap.key_injective hsource hentry hkey
      subst hsame
      have hin : (source.1, copyInto address input source.2) ∈
          (memory.regions.adjust source.1 (copyInto address input)).entries :=
        OrderedMap.mem_adjust.mpr (Or.inr ⟨source.2, hsource, rfl⟩)
      rw [hnext.contents_of_covers hin hcovers]
      exact copyInto_byte hmemory hsource hfit hcovers
    · -- Another region: kept, and apart from the written range.
      have hin : source ∈
          (memory.regions.adjust entry.1 (copyInto address input)).entries :=
        OrderedMap.mem_adjust.mpr (Or.inl ⟨hsource, hkey⟩)
      rw [hnext.contents_of_covers hin hcovers, CellMemory.store_outside,
        hmemory.contents_of_covers hsource hcovers]
      by_contra hinside
      have hboth : entry.2.Covers target := by
        unfold MemoryRegion.Covers
        omega
      exact hkey (by rw [hmemory.covers_unique hsource hentry hcovers hboth])
  · have huncovered : ∀ source ∈ memory.regions.entries,
        ¬source.2.Covers target :=
      fun source hsource hcovers => hcovered ⟨source, hsource, hcovers⟩
    have hafter : ∀ source ∈
        (memory.regions.adjust entry.1 (copyInto address input)).entries,
          ¬source.2.Covers target := by
      intro source hsource
      rcases OrderedMap.mem_adjust.mp hsource with ⟨hold, _⟩ | ⟨region, hold, rfl⟩
      · exact huncovered source hold
      · exact huncovered (entry.1, region) hold
    have houtside := huncovered entry hentry
    unfold MemoryRegion.Covers at houtside
    rw [contents_eq_none_of_uncovered hafter, CellMemory.store_outside (by omega),
      contents_eq_none_of_uncovered huncovered]

end AddressSpace
end BinForge
