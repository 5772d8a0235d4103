import BinForge.StoredInteger

/-!
# Laws of the address space

`map` and `region_at` look at the two neighbours of an address only.  What they
decide is what a scan of every region would.  Two spaces with the same regions
and the same bytes are one, so writes to ranges that do not meet may be made in
either order.
-/

namespace BinForge

open StatefulExcept
open ListSplice

namespace AddressSpace

variable {memory next : AddressSpace}

/-! ## Neighbour lookups -/

/-- A nonempty range ends before a region or starts behind it exactly when
they share no address. -/
theorem apart_iff {region : MemoryRegion} {base size : ℕ} (hsize : 0 < size)
    (hregion : 0 < region.size.toNat) :
    (base + size ≤ region.base.toNat ∨ region.stop ≤ base) ↔
      ∀ address, ¬(region.Covers address ∧ base ≤ address ∧
        address < base + size) := by
  unfold MemoryRegion.Covers MemoryRegion.stop
  constructor
  · rintro hapart address ⟨⟨hlow, hhigh⟩, hstart, hstop⟩
    omega
  · intro hnone
    by_contra hmeet
    have hshared := hnone (max base region.base.toNat)
    omega

theorem regionAt_of_covers (hmemory : memory.WellFormed)
    {entry : UInt64 × MemoryRegion} {address : UInt64}
    (hentry : entry ∈ memory.regions.entries)
    (hcovers : entry.2.Covers address.toNat) :
    memory.regionAt address = some entry.2 := by
  rw [regionAt, hmemory.entryAt_eq_some.mpr ⟨hentry, hcovers⟩]
  rfl

theorem regionAt_eq_none (hmemory : memory.WellFormed) {address : UInt64} :
    memory.regionAt address = none ↔
      ∀ entry ∈ memory.regions.entries, ¬entry.2.Covers address.toNat := by
  rw [regionAt, Option.map_eq_none_iff]
  constructor
  · intro hnone entry hentry hcovers
    have hfound := hmemory.entryAt_eq_some.mpr ⟨hentry, hcovers⟩
    rw [hnone] at hfound
    contradiction
  · intro huncovered
    cases hfound : memory.entryAt address with
    | none => rfl
    | some entry =>
        obtain ⟨hentry, hcovers⟩ := hmemory.entryAt_eq_some.mp hfound
        exact absurd hcovers (huncovered entry hentry)

/-- In every state a run reaches, `map` accepts exactly the nonempty ranges
that fit the machine and the budget and meet no region, and `regionAt` returns
the one region that holds the address. -/
theorem lookups_match_scans (limits : Limits) (commands : List Command) :
    let memory := (new limits).run commands
    (∀ base size permissions name,
      succeeded (map base size permissions name memory) = true ↔
        0 < size.toNat ∧ base.toNat + size.toNat < 2 ^ 64 ∧
          memory.mappedBytes.toNat + size.toNat ≤
            limits.maxMappedBytes.toNat ∧
          ∀ entry ∈ memory.regions.entries, ∀ address,
            ¬(entry.2.Covers address ∧ base.toNat ≤ address ∧
              address < base.toNat + size.toNat)) ∧
      ∀ address : UInt64,
        (∀ entry ∈ memory.regions.entries, entry.2.Covers address.toNat →
          memory.regionAt address = some entry.2 ∧
            ∀ other ∈ memory.regions.entries,
              other.2.Covers address.toNat → other = entry) ∧
        ((∀ entry ∈ memory.regions.entries,
            ¬entry.2.Covers address.toNat) →
          memory.regionAt address = none) := by
  intro memory
  have hmemory : memory.WellFormed :=
    run_wellFormed (new_wellFormed limits) commands
  have hlimits : memory.limits = limits := run_limits commands
  refine ⟨fun base size permissions name => ?_, fun address => ⟨?_, ?_⟩⟩
  · have hpositive : size ≠ 0 ↔ 0 < size.toNat := by
      rw [Nat.pos_iff_ne_zero, ne_eq, ne_eq, ← UInt64.toNat_inj,
        UInt64.toNat_zero]
    rw [hmemory.map_succeeded_iff, hlimits, hpositive]
    refine and_congr_right fun hsize => and_congr_right fun _ =>
      and_congr_right fun _ => forall₂_congr fun entry hentry => ?_
    exact apart_iff hsize (hmemory.nonempty entry hentry)
  · intro entry hentry hcovers
    refine ⟨regionAt_of_covers hmemory hentry hcovers, ?_⟩
    intro other hother hcoversOther
    exact hmemory.covers_unique hother hentry hcoversOther hcovers
  · exact (regionAt_eq_none hmemory).mpr

/-! ## Writes that do not meet -/

/-- The bytes of a region are the contents at its addresses. -/
theorem bytes_eq_of_contents (hmemory : memory.WellFormed)
    (hnext : next.WellFormed) (hcontents : memory.contents = next.contents)
    {left right : UInt64 × MemoryRegion}
    (hleft : left ∈ memory.regions.entries)
    (hright : right ∈ next.regions.entries)
    (hbase : left.2.base = right.2.base) (hsize : left.2.size = right.2.size) :
    left.2.bytes = right.2.bytes := by
  have hlengthLeft := hmemory.stored left hleft
  have hlengthRight := hnext.stored right hright
  refine List.ext_getElem? fun i => ?_
  by_cases hi : i < left.2.size.toNat
  · have hcoversLeft : left.2.Covers (left.2.base.toNat + i) := by
      unfold MemoryRegion.Covers MemoryRegion.stop
      omega
    have hcoversRight : right.2.Covers (left.2.base.toNat + i) := by
      unfold MemoryRegion.Covers MemoryRegion.stop
      rw [← hbase, ← hsize]
      omega
    have hbyteLeft := hmemory.contents_of_covers hleft hcoversLeft
    have hbyteRight := hnext.contents_of_covers hright hcoversRight
    rw [Nat.add_sub_cancel_left] at hbyteLeft
    rw [← hbase, Nat.add_sub_cancel_left] at hbyteRight
    rw [← hbyteLeft, ← hbyteRight, hcontents]
  · rw [List.getElem?_eq_none (by omega),
      List.getElem?_eq_none (by rw [hlengthRight, ← hsize]; omega)]

theorem eq_of_frame_of_contents (hmemory : memory.WellFormed)
    (hnext : next.WellFormed) (hframe : SameFrame memory next)
    (hcontents : memory.contents = next.contents) : memory = next := by
  ext1
  · exact hframe.limits.symm
  · apply OrderedMap.ext
    have hlength : memory.regions.entries.length =
        next.regions.entries.length := by
      have hlayout := congrArg List.length hframe.layout
      simpa [layout] using hlayout.symm
    refine List.ext_getElem hlength fun i hi hj => ?_
    have hleft := List.getElem_mem hi
    have hright := List.getElem_mem hj
    have hsame : (layout next)[i]? = (layout memory)[i]? := by
      rw [hframe.layout]
    simp only [layout, List.getElem?_map, List.getElem?_eq_getElem hi,
      List.getElem?_eq_getElem hj, Option.map_some, Option.some.injEq,
      Prod.mk.injEq, MemoryRegion.mk.injEq] at hsame
    obtain ⟨hkey, hbase, hsize, hpermissions, hname, -⟩ := hsame
    have hbytes := bytes_eq_of_contents hmemory hnext hcontents hleft hright
      hbase.symm hsize.symm
    refine Prod.ext hkey.symm ?_
    rw [MemoryRegion.mk.injEq]
    exact ⟨hbase.symm, hsize.symm, hpermissions.symm, hname.symm, hbytes⟩
  · exact hframe.mappedBytes.symm

theorem mapped_of_write {address : UInt64} {input : Bytes}
    {ignorePermissions : Bool} {value : Unit} (hinput : input ≠ [])
    (hwrite : write address input ignorePermissions memory = .ok value next) :
    Mapped memory address input.length := by
  obtain ⟨entry, hfound, hcontains, -⟩ := (write_eq_ok hinput).mp hwrite
  unfold entryAt at hfound
  cases hcandidate : memory.regions.beforeUpperBound address with
  | none => simp [hcandidate] at hfound
  | some candidate =>
      simp only [hcandidate, Option.ite_none_right_eq_some,
        Option.some.injEq] at hfound
      obtain ⟨-, rfl⟩ := hfound
      exact ⟨candidate, (OrderedMap.beforeUpperBound_eq_some hcandidate).1,
        hcontains⟩

/-- Two writes to ranges that do not meet may be made in either order. -/
theorem write_comm (hmemory : memory.WellFormed) {left right : UInt64}
    {first second : Bytes} {middle last : AddressSpace}
    (hapart : left.toNat + first.length ≤ right.toNat ∨
      right.toNat + second.length ≤ left.toNat)
    (hleft : write left first true memory = .ok () middle)
    (hright : write right second true middle = .ok () last) :
    ∃ between, write right second true memory = .ok () between ∧
      write left first true between = .ok () last := by
  by_cases hfirst : first = []
  · subst hfirst
    rw [write_nil, EStateM.Result.ok.injEq] at hleft
    obtain ⟨-, rfl⟩ := hleft
    exact ⟨last, hright, write_nil⟩
  by_cases hsecond : second = []
  · subst hsecond
    rw [write_nil, EStateM.Result.ok.injEq] at hright
    obtain ⟨-, rfl⟩ := hright
    exact ⟨memory, write_nil, hleft⟩
  have hmiddle := write_ok_wellFormed hmemory hleft
  have hlast := write_ok_wellFormed hmiddle hright
  have hframe := write_ok_frame hleft
  obtain ⟨between, hbetween⟩ := write_mapped hmemory second
    ((mapped_of_write hsecond hright).sameFrame hframe.symm)
  have hsound := write_ok_wellFormed hmemory hbetween
  obtain ⟨after, hafter⟩ := write_mapped hsound first
    ((mapped_of_write hfirst hleft).sameFrame (write_ok_frame hbetween))
  refine ⟨between, hbetween, ?_⟩
  have hsame : after = last := by
    refine eq_of_frame_of_contents (write_ok_wellFormed hsound hafter) hlast
      ?_ ?_
    · exact ((write_ok_frame hbetween).trans (write_ok_frame hafter)).symm.trans
        (hframe.trans (write_ok_frame hright))
    · rw [write_ok_contents hsound hafter, write_ok_contents hmemory hbetween,
        write_ok_contents hmiddle hright, write_ok_contents hmemory hleft]
      exact CellMemory.store_comm (by omega)
  rw [← hsame]
  exact hafter

end AddressSpace
end BinForge
