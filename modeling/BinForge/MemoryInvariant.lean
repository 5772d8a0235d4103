import BinForge.Memory

/-!
# The invariant of the address space

What each call does when it succeeds, that a failing call leaves the object
alone, and the invariant that every sequence of calls keeps: regions are
nonempty, stored in full, inside the 64-bit range and pairwise disjoint, and
the running total is the exact sum of their sizes.
-/

namespace BinForge

open StatefulExcept
open MachineInteger
open ListSplice

/-- The first address after the region. -/
def MemoryRegion.stop (region : MemoryRegion) : ℕ :=
  region.base.toNat + region.size.toNat

def MemoryRegion.Covers (region : MemoryRegion) (address : ℕ) : Prop :=
  region.base.toNat ≤ address ∧ address < region.stop

instance (region : MemoryRegion) (address : ℕ) :
    Decidable (region.Covers address) :=
  inferInstanceAs (Decidable (_ ∧ _))

theorem MemoryRegion.contains_iff {region : MemoryRegion} {address : UInt64}
    {length : ℕ} :
    region.contains address length = true ↔
      region.base.toNat ≤ address.toNat ∧
        address.toNat + length ≤ region.stop := by
  unfold MemoryRegion.contains MemoryRegion.stop
  by_cases hbelow : address < region.base
  · rw [if_pos hbelow]
    rw [UInt64.lt_iff_toNat_lt] at hbelow
    simp only [Bool.false_eq_true, false_iff]
    omega
  · rw [if_neg hbelow, rangeInside_iff]
    have hle : region.base ≤ address := UInt64.not_lt.mp hbelow
    rw [UInt64.toNat_sub_of_le _ _ hle]
    rw [UInt64.le_iff_toNat_le] at hle
    omega

namespace AddressSpace

/-! ## What a call does -/

variable {memory next : AddressSpace} {why : Failure}

/-- The object after mapping a new region. -/
def withRegion (memory : AddressSpace) (region : MemoryRegion) : AddressSpace :=
  { memory with
    regions := memory.regions.emplace region.base region
    mappedBytes := memory.mappedBytes + region.size }

def freshRegion (base size : UInt64) (permissions : UInt8) (name : Bytes) :
    MemoryRegion :=
  { base, size, permissions, name, bytes := List.replicate size.toNat 0 }

theorem map_eq_ok {base size : UInt64} {permissions : UInt8} {name : Bytes}
    {value : Unit} :
    map base size permissions name memory = .ok value next ↔
      size ≠ 0 ∧ base.toNat + size.toNat < 2 ^ 64 ∧
        memory.mappedBytes.toNat + size.toNat < 2 ^ 64 ∧
        memory.mappedBytes + size ≤ memory.limits.maxMappedBytes ∧
        overlapsNext (base + size) (memory.regions.lowerBound base) = false ∧
        overlapsPrevious base (memory.regions.beforeLowerBound base) = false ∧
        next = memory.withRegion (freshRegion base size permissions name) := by
  unfold map
  rw [rejectIf_bind_eq_ok]
  cases hfinish : checkedAdd base size with
  | none =>
      have hover := checkedAdd_eq_none.mp hfinish
      simp only [throw_apply, reduceCtorEq, and_false, false_iff]
      omega
  | some finish =>
      obtain ⟨hfit, rfl⟩ := checkedAdd_eq_some.mp hfinish
      simp only [bind_of_ok (get_apply memory)]
      cases htotal : checkedAdd memory.mappedBytes size with
      | none =>
          have hover := checkedAdd_eq_none.mp htotal
          simp only [throw_apply, reduceCtorEq, and_false, false_iff]
          omega
      | some total =>
          obtain ⟨htotalFit, rfl⟩ := checkedAdd_eq_some.mp htotal
          simp only [rejectIf_bind_eq_ok, set_apply, EStateM.Result.ok.injEq,
            Bool.not_eq_true, gt_iff_lt, UInt64.not_lt]
          constructor
          · rintro ⟨hsize, hlimit, hnext, hprevious, -, rfl⟩
            exact ⟨hsize, hfit, htotalFit, hlimit, hnext, hprevious, rfl⟩
          · rintro ⟨hsize, -, -, hlimit, hnext, hprevious, rfl⟩
            exact ⟨hsize, hlimit, hnext, hprevious, trivial, rfl⟩

theorem unmap_eq_ok {base : UInt64} {value : Unit} :
    unmap base memory = .ok value next ↔
      ∃ found, memory.regions.find? base = some found ∧
        next = { memory with
          regions := memory.regions.erase base
          mappedBytes := memory.mappedBytes - found.size } := by
  unfold unmap
  rw [bind_of_ok (get_apply memory)]
  cases memory.regions.find? base with
  | none => simp [throw_apply]
  | some found => simp [set_apply, eq_comm]

theorem protect_eq_ok {base size : UInt64} {permissions : UInt8} {value : Unit} :
    protect base size permissions memory = .ok value next ↔
      ∃ entry, memory.entryAt base = some entry ∧
        entry.2.base = base ∧ entry.2.size = size ∧
        next = { memory with
          regions := memory.regions.adjust entry.1 fun region =>
            { region with permissions } } := by
  unfold protect
  rw [bind_of_ok (get_apply memory)]
  cases memory.entryAt base with
  | none => simp [throw_apply]
  | some entry =>
      simp only [rejectIf_bind_eq_ok, set_apply, EStateM.Result.ok.injEq,
        not_or, not_not, Option.some.injEq, exists_eq_left', and_assoc]
      constructor
      · rintro ⟨hbase, hsize, -, rfl⟩
        exact ⟨hbase, hsize, rfl⟩
      · rintro ⟨hbase, hsize, rfl⟩
        exact ⟨hbase, hsize, trivial, rfl⟩

/-- Copy `input` over the bytes of a region. -/
def copyInto (address : UInt64) (input : Bytes) (region : MemoryRegion) :
    MemoryRegion :=
  { region with
    bytes := splice region.bytes (address - region.base).toNat input }

theorem write_eq_ok {address : UInt64} {input : Bytes}
    {ignorePermissions : Bool} {value : Unit} (hinput : input ≠ []) :
    write address input ignorePermissions memory = .ok value next ↔
      ∃ entry, memory.entryAt address = some entry ∧
        entry.2.contains address input.length = true ∧
        (ignorePermissions = true ∨
          hasPermission entry.2.permissions permissionWrite) ∧
        next = { memory with
          regions := memory.regions.adjust entry.1 (copyInto address input) } := by
  unfold write
  rw [if_neg (by simpa using hinput), bind_of_ok (get_apply memory)]
  cases memory.entryAt address with
  | none => simp [throw_apply]
  | some entry =>
      simp only [rejectIf_bind_eq_ok, set_apply, EStateM.Result.ok.injEq,
        Option.some.injEq, exists_eq_left', Bool.not_eq_true', not_and,
        not_not, Bool.not_eq_false, ← or_iff_not_imp_left]
      constructor
      · rintro ⟨hfit, hallowed, -, rfl⟩
        exact ⟨hfit, hallowed, rfl⟩
      · rintro ⟨hfit, hallowed, rfl⟩
        exact ⟨hfit, hallowed, trivial, rfl⟩

theorem write_nil {address : UInt64} {ignorePermissions : Bool} :
    write address [] ignorePermissions memory = .ok () memory := rfl

theorem read_eq_ok {address : UInt64} {size : ℕ} {value : Bytes}
    (hsize : size ≠ 0) :
    read address size memory = .ok value next ↔
      ∃ region, memory.regionAt address = some region ∧
        region.contains address size = true ∧
        hasPermission region.permissions permissionRead ∧
        value = slice region.bytes (address - region.base).toNat size ∧
        next = memory := by
  unfold read
  rw [if_neg hsize, bind_of_ok (get_apply memory)]
  cases memory.regionAt address with
  | none => simp [throw_apply]
  | some region =>
      simp only [rejectIf_bind_eq_ok, pure_eq_ok, Option.some.injEq,
        exists_eq_left', Bool.not_eq_true', Bool.not_eq_false, not_not]
      constructor
      · rintro ⟨hfit, hreadable, rfl, rfl⟩
        exact ⟨hfit, hreadable, rfl, rfl⟩
      · rintro ⟨hfit, hreadable, rfl, rfl⟩
        exact ⟨hfit, hreadable, rfl, rfl⟩

/-! ## Failing calls -/

theorem map_atomic (base size : UInt64) (permissions : UInt8) (name : Bytes) :
    Atomic (map base size permissions name) := by
  unfold map
  refine (readOnly_rejectIf _).bind_atomic fun _ => ?_
  split
  · exact (readOnly_throw _).atomic
  · refine readOnly_get.bind_atomic fun _ => ?_
    split
    · exact (readOnly_throw _).atomic
    · exact (readOnly_rejectIf _).bind_atomic fun _ =>
        (readOnly_rejectIf _).bind_atomic fun _ =>
          (readOnly_rejectIf _).bind_atomic fun _ => atomic_set _

theorem unmap_atomic (base : UInt64) : Atomic (unmap base) := by
  unfold unmap
  refine readOnly_get.bind_atomic fun _ => ?_
  split
  · exact (readOnly_throw _).atomic
  · exact atomic_set _

theorem protect_atomic (base size : UInt64) (permissions : UInt8) :
    Atomic (protect base size permissions) := by
  unfold protect
  refine readOnly_get.bind_atomic fun _ => ?_
  split
  · exact (readOnly_throw _).atomic
  · exact (readOnly_rejectIf _).bind_atomic fun _ => atomic_set _

theorem write_atomic (address : UInt64) (input : Bytes)
    (ignorePermissions : Bool) :
    Atomic (write address input ignorePermissions) := by
  unfold write
  split
  · exact (readOnly_pure _).atomic
  · refine readOnly_get.bind_atomic fun _ => ?_
    split
    · exact (readOnly_throw _).atomic
    · exact (readOnly_rejectIf _).bind_atomic fun _ =>
        (readOnly_rejectIf _).bind_atomic fun _ => atomic_set _

theorem writeInteger_atomic (address : UInt64) (width : UInt8)
    (order : ByteOrder) (value : UInt64) (ignorePermissions : Bool) :
    Atomic (writeInteger address width order value ignorePermissions) :=
  (readOnly_rejectIf _).bind_atomic fun _ => write_atomic _ _ _

theorem read_readOnly (address : UInt64) (size : ℕ) :
    ReadOnly (read address size) := by
  unfold read
  split
  · exact readOnly_pure _
  · refine readOnly_get.bind fun _ => ?_
    split
    · exact readOnly_throw _
    · exact (readOnly_rejectIf _).bind fun _ =>
        (readOnly_rejectIf _).bind fun _ => readOnly_pure _

theorem Command.call_atomic (command : Command) : Atomic command.call := by
  cases command with
  | map base size permissions name => exact map_atomic base size permissions name
  | unmap base => exact unmap_atomic base
  | protect base size permissions => exact protect_atomic base size permissions
  | write address input ignorePermissions =>
      exact write_atomic address input ignorePermissions
  | writeInteger address width order value ignorePermissions =>
      exact writeInteger_atomic address width order value ignorePermissions
  | clear =>
      intro state failure next hrun
      rw [Command.call, AddressSpace.clear, modify_apply] at hrun
      contradiction

/-! ## The invariant -/

/-- What holds of an address space between calls. -/
structure WellFormed (memory : AddressSpace) : Prop where
  keyed : ∀ entry ∈ memory.regions.entries, entry.1 = entry.2.base
  nonempty : ∀ entry ∈ memory.regions.entries, 0 < entry.2.size.toNat
  stored : ∀ entry ∈ memory.regions.entries,
    entry.2.bytes.length = entry.2.size.toNat
  bounded : ∀ entry ∈ memory.regions.entries, entry.2.stop < 2 ^ 64
  separated :
    memory.regions.Separated UInt64.toNat MemoryRegion.stop
  counted : memory.mappedBytes.toNat =
    (memory.regions.entries.map fun entry => entry.2.size.toNat).sum
  budget : memory.mappedBytes ≤ memory.limits.maxMappedBytes

theorem strictMono_toNat : StrictMono UInt64.toNat :=
  fun _ _ hlt => UInt64.lt_iff_toNat_lt.mp hlt

theorem new_wellFormed (limits : Limits) : (new limits).WellFormed := by
  constructor <;>
    simp [new, OrderedMap.empty, OrderedMap.Separated, UInt64.le_iff_toNat_le]

namespace WellFormed

theorem region_keyed (hmemory : memory.WellFormed) {key : UInt64}
    {region : MemoryRegion} (hmem : (key, region) ∈ memory.regions.entries) :
    key = region.base :=
  hmemory.keyed _ hmem

/-- A contained point is found, and its region is the only one to hold it. -/
theorem entryAt_eq_some (hmemory : memory.WellFormed) {address : UInt64}
    {entry : UInt64 × MemoryRegion} :
    memory.entryAt address = some entry ↔
      entry ∈ memory.regions.entries ∧ entry.2.Covers address.toNat := by
  unfold entryAt
  constructor
  · intro hfound
    cases hcandidate : memory.regions.beforeUpperBound address with
    | none => simp [hcandidate] at hfound
    | some candidate =>
        obtain ⟨hmem, _, _⟩ := OrderedMap.beforeUpperBound_eq_some hcandidate
        simp only [hcandidate, Option.ite_none_right_eq_some,
          Option.some.injEq] at hfound
        obtain ⟨hcontains, rfl⟩ := hfound
        have hrange := MemoryRegion.contains_iff.mp hcontains
        exact ⟨hmem, hrange.1, by omega⟩
  · rintro ⟨hmem, hlow, hhigh⟩
    have hkey := hmemory.keyed entry hmem
    have hstart : entry.1 ≤ address := by
      rw [hkey, UInt64.le_iff_toNat_le]
      exact hlow
    rw [hmemory.separated.beforeUpperBound_of_mem strictMono_toNat hmem hstart
      hhigh]
    simp only [Option.ite_none_right_eq_some, and_true]
    exact MemoryRegion.contains_iff.mpr ⟨hlow, by omega⟩

/-- An address belongs to one region at most. -/
theorem covers_unique (hmemory : memory.WellFormed)
    {left right : UInt64 × MemoryRegion} {address : ℕ}
    (hleft : left ∈ memory.regions.entries)
    (hright : right ∈ memory.regions.entries)
    (hcoverLeft : left.2.Covers address) (hcoverRight : right.2.Covers address) :
    left = right := by
  have hkeyLeft := hmemory.keyed left hleft
  have hkeyRight := hmemory.keyed right hright
  unfold MemoryRegion.Covers at hcoverLeft hcoverRight
  rcases lt_trichotomy left.1 right.1 with hlt | heq | hgt
  · have hapart := hmemory.separated.stop_le hleft hright hlt
    rw [hkeyRight] at hapart
    omega
  · exact OrderedMap.key_injective hleft hright heq
  · have hapart := hmemory.separated.stop_le hright hleft hgt
    rw [hkeyLeft] at hapart
    omega

theorem overlapsNext_eq_false (hmemory : memory.WellFormed)
    {base size : UInt64} (hfit : base.toNat + size.toNat < 2 ^ 64) :
    overlapsNext (base + size) (memory.regions.lowerBound base) = false ↔
      ∀ next, memory.regions.lowerBound base = some next →
        base.toNat + size.toNat ≤ next.1.toNat := by
  cases hbound : memory.regions.lowerBound base with
  | none => simp [overlapsNext]
  | some next =>
      have hkey := hmemory.keyed next (OrderedMap.lowerBound_eq_some hbound).1
      rw [overlapsNext, decide_eq_false_iff_not, gt_iff_lt, UInt64.not_lt,
        UInt64.le_iff_toNat_le, toNat_add_of_fit hfit]
      simp [hkey]

theorem overlapsPrevious_eq_false (hmemory : memory.WellFormed)
    {base : UInt64} :
    overlapsPrevious base (memory.regions.beforeLowerBound base) = false ↔
      ∀ previous, memory.regions.beforeLowerBound base = some previous →
        previous.2.stop ≤ base.toNat := by
  cases hbound : memory.regions.beforeLowerBound base with
  | none => simp [overlapsPrevious]
  | some previous =>
      have hstop : previous.2.base.toNat + previous.2.size.toNat < 2 ^ 64 :=
        hmemory.bounded previous (OrderedMap.beforeLowerBound_eq_some hbound).1
      have hsum : (previous.2.base + previous.2.size).toNat =
          previous.2.stop := by
        rw [toNat_add_of_fit hstop, MemoryRegion.stop]
      simp only [overlapsPrevious, checkedAdd_of_fit hstop, Option.elim_some,
        decide_eq_false_iff_not, gt_iff_lt, UInt64.not_lt,
        UInt64.le_iff_toNat_le, hsum, Option.some.injEq, forall_eq']

/-- The neighbour checks of `map` accept exactly the free ranges. -/
theorem overlaps_iff (hmemory : memory.WellFormed) {base size : UInt64}
    (hsize : size ≠ 0) (hfit : base.toNat + size.toNat < 2 ^ 64) :
    (overlapsNext (base + size) (memory.regions.lowerBound base) = false ∧
        overlapsPrevious base (memory.regions.beforeLowerBound base) = false) ↔
      ∀ entry ∈ memory.regions.entries,
        base.toNat + size.toNat ≤ entry.2.base.toNat ∨
          entry.2.stop ≤ base.toNat := by
  have hpositive : 0 < size.toNat := by
    rw [Nat.pos_iff_ne_zero]
    exact fun hzero => hsize (UInt64.toNat_inj.mp (by simpa using hzero))
  rw [hmemory.overlapsNext_eq_false hfit, hmemory.overlapsPrevious_eq_false,
    hmemory.separated.neighbours_iff strictMono_toNat]
  constructor
  · intro hall entry hentry
    have hkey := hmemory.keyed entry hentry
    rcases le_or_gt base entry.1 with hle | hlt
    · left
      rw [← hkey]
      exact (hall entry hentry).1 hle
    · exact Or.inr ((hall entry hentry).2 hlt)
  · intro hall entry hentry
    have hkey := hmemory.keyed entry hentry
    have hsome := hmemory.nonempty entry hentry
    have hdisjoint := hall entry hentry
    unfold MemoryRegion.stop at hdisjoint ⊢
    rw [UInt64.le_iff_toNat_le, UInt64.lt_iff_toNat_lt, hkey]
    constructor
    · intro hle
      omega
    · intro hlt
      omega

theorem absent_of_disjoint (hmemory : memory.WellFormed)
    (region : MemoryRegion) (hpositive : 0 < region.size.toNat)
    (hdisjoint : ∀ entry ∈ memory.regions.entries,
      region.stop ≤ entry.2.base.toNat ∨ entry.2.stop ≤ region.base.toNat) :
    ∀ entry ∈ memory.regions.entries, entry.1 ≠ region.base := by
  intro entry hentry hsame
  have hkey := hmemory.keyed entry hentry
  have hsome := hmemory.nonempty entry hentry
  have hbase : entry.2.base.toNat = region.base.toNat := by
    rw [← hkey, hsame]
  have hapart := hdisjoint entry hentry
  unfold MemoryRegion.stop at hapart
  omega

theorem withRegion (hmemory : memory.WellFormed) {region : MemoryRegion}
    (hpositive : 0 < region.size.toNat)
    (hstored : region.bytes.length = region.size.toNat)
    (hbounded : region.stop < 2 ^ 64)
    (hdisjoint : ∀ entry ∈ memory.regions.entries,
      region.stop ≤ entry.2.base.toNat ∨ entry.2.stop ≤ region.base.toNat)
    (hfit : memory.mappedBytes.toNat + region.size.toNat < 2 ^ 64)
    (hbudget : memory.mappedBytes + region.size ≤
      memory.limits.maxMappedBytes) :
    (memory.withRegion region).WellFormed := by
  have habsent := hmemory.absent_of_disjoint region hpositive hdisjoint
  have hmem : ∀ entry, entry ∈ (memory.withRegion region).regions.entries ↔
      entry = (region.base, region) ∨ entry ∈ memory.regions.entries :=
    fun _ => OrderedMap.mem_emplace habsent
  constructor
  · intro entry hentry
    rcases (hmem entry).mp hentry with rfl | hold
    · rfl
    · exact hmemory.keyed entry hold
  · intro entry hentry
    rcases (hmem entry).mp hentry with rfl | hold
    · exact hpositive
    · exact hmemory.nonempty entry hold
  · intro entry hentry
    rcases (hmem entry).mp hentry with rfl | hold
    · exact hstored
    · exact hmemory.stored entry hold
  · intro entry hentry
    rcases (hmem entry).mp hentry with rfl | hold
    · exact hbounded
    · exact hmemory.bounded entry hold
  · refine hmemory.separated.emplace habsent ?_ ?_
    · intro entry hentry hle
      have hkey := hmemory.keyed entry hentry
      have hsome := hmemory.nonempty entry hentry
      have hapart := hdisjoint entry hentry
      rw [UInt64.le_iff_toNat_le, hkey] at hle
      rw [hkey]
      unfold MemoryRegion.stop at hapart ⊢
      omega
    · intro entry hentry hlt
      have hkey := hmemory.keyed entry hentry
      have hapart := hdisjoint entry hentry
      rw [UInt64.lt_iff_toNat_lt, hkey] at hlt
      unfold MemoryRegion.stop at hapart ⊢
      omega
  · have hperm := (OrderedMap.emplace_perm region habsent).map
      fun entry => entry.2.size.toNat
    show (memory.mappedBytes + region.size).toNat =
      ((memory.regions.emplace region.base region).entries.map
        fun entry => entry.2.size.toNat).sum
    rw [hperm.sum_eq, toNat_add_of_fit hfit, hmemory.counted]
    simp only [List.map_cons, List.sum_cons]
    omega
  · exact hbudget

theorem adjust (hmemory : memory.WellFormed) (key : UInt64)
    {change : MemoryRegion → MemoryRegion}
    (hbase : ∀ region, (change region).base = region.base)
    (hsize : ∀ region, (change region).size = region.size)
    (hlength : ∀ region, (key, region) ∈ memory.regions.entries →
      (change region).bytes.length = region.bytes.length) :
    ({ memory with regions := memory.regions.adjust key change } :
      AddressSpace).WellFormed := by
  have hmem : ∀ entry ∈ (memory.regions.adjust key change).entries,
      ∃ source ∈ memory.regions.entries, entry.1 = source.1 ∧
        entry.2.base = source.2.base ∧ entry.2.size = source.2.size ∧
        entry.2.bytes.length = source.2.bytes.length := by
    intro entry hentry
    rcases OrderedMap.mem_adjust.mp hentry with ⟨hold, _⟩ | ⟨region, hold, rfl⟩
    · exact ⟨entry, hold, rfl, rfl, rfl, rfl⟩
    · exact ⟨(key, region), hold, rfl, hbase region, hsize region,
        hlength region hold⟩
  constructor
  · intro entry hentry
    obtain ⟨source, hold, hkey, hsame, _, _⟩ := hmem entry hentry
    rw [hkey, hsame]
    exact hmemory.keyed source hold
  · intro entry hentry
    obtain ⟨source, hold, _, _, hsame, _⟩ := hmem entry hentry
    rw [hsame]
    exact hmemory.nonempty source hold
  · intro entry hentry
    obtain ⟨source, hold, _, _, hsame, hbytes⟩ := hmem entry hentry
    rw [hbytes, hsame]
    exact hmemory.stored source hold
  · intro entry hentry
    obtain ⟨source, hold, _, hsameBase, hsameSize, _⟩ := hmem entry hentry
    have hbound := hmemory.bounded source hold
    unfold MemoryRegion.stop at hbound ⊢
    rw [hsameBase, hsameSize]
    exact hbound
  · apply hmemory.separated.adjust
    intro region
    rw [MemoryRegion.stop, MemoryRegion.stop, hbase, hsize]
  · show memory.mappedBytes.toNat = _
    rw [hmemory.counted]
    simp only [OrderedMap.adjust, List.map_map]
    congr 1
    refine List.map_congr_left fun entry _ => ?_
    simp only [Function.comp_apply]
    split
    · rw [hsize]
    · rfl
  · exact hmemory.budget

end WellFormed

/-! ## Every call keeps the invariant -/

theorem size_pos_of_ne_zero {size : UInt64} (hsize : size ≠ 0) :
    0 < size.toNat := by
  rw [Nat.pos_iff_ne_zero]
  exact fun hzero => hsize (UInt64.toNat_inj.mp (by simpa using hzero))

theorem map_ok_wellFormed (hmemory : memory.WellFormed) {base size : UInt64}
    {permissions : UInt8} {name : Bytes} {value : Unit}
    (hrun : map base size permissions name memory = .ok value next) :
    next.WellFormed := by
  obtain ⟨hsize, hfit, htotal, hlimit, hnext, hprevious, rfl⟩ :=
    map_eq_ok.mp hrun
  exact hmemory.withRegion (size_pos_of_ne_zero hsize)
    (List.length_replicate ..) hfit
    ((hmemory.overlaps_iff hsize hfit).mp ⟨hnext, hprevious⟩) htotal hlimit

theorem unmap_ok_wellFormed (hmemory : memory.WellFormed) {base : UInt64}
    {value : Unit} (hrun : unmap base memory = .ok value next) :
    next.WellFormed := by
  obtain ⟨found, hfind, rfl⟩ := unmap_eq_ok.mp hrun
  have hfound := OrderedMap.find?_eq_some.mp hfind
  have hmem : ∀ entry ∈ (memory.regions.erase base).entries,
      entry ∈ memory.regions.entries :=
    fun _ hentry => (OrderedMap.mem_erase.mp hentry).1
  have hcounted := hmemory.counted
  have hperm := (OrderedMap.erase_perm hfound).map
    fun entry => entry.2.size.toNat
  rw [hperm.sum_eq, List.map_cons, List.sum_cons] at hcounted
  dsimp only at hcounted
  have hle : found.size ≤ memory.mappedBytes := by
    rw [UInt64.le_iff_toNat_le]
    omega
  have hremaining : (memory.mappedBytes - found.size).toNat =
      memory.mappedBytes.toNat - found.size.toNat :=
    UInt64.toNat_sub_of_le _ _ hle
  constructor
  · exact fun entry hentry => hmemory.keyed entry (hmem entry hentry)
  · exact fun entry hentry => hmemory.nonempty entry (hmem entry hentry)
  · exact fun entry hentry => hmemory.stored entry (hmem entry hentry)
  · exact fun entry hentry => hmemory.bounded entry (hmem entry hentry)
  · exact hmemory.separated.erase base
  · show (memory.mappedBytes - found.size).toNat =
      ((memory.regions.erase base).entries.map fun entry =>
        entry.2.size.toNat).sum
    omega
  · show memory.mappedBytes - found.size ≤ memory.limits.maxMappedBytes
    have hbudget := UInt64.le_iff_toNat_le.mp hmemory.budget
    rw [UInt64.le_iff_toNat_le, hremaining]
    omega

theorem protect_ok_wellFormed (hmemory : memory.WellFormed)
    {base size : UInt64} {permissions : UInt8} {value : Unit}
    (hrun : protect base size permissions memory = .ok value next) :
    next.WellFormed := by
  obtain ⟨entry, _, _, _, rfl⟩ := protect_eq_ok.mp hrun
  exact hmemory.adjust entry.1 (fun _ => rfl) (fun _ => rfl) fun _ _ => rfl

theorem WellFormed.copyInto_length (hmemory : memory.WellFormed)
    {address : UInt64} {input : Bytes} {entry : UInt64 × MemoryRegion}
    (hentry : entry ∈ memory.regions.entries)
    (hfit : entry.2.contains address input.length = true) :
    (address - entry.2.base).toNat + input.length ≤ entry.2.bytes.length := by
  have hrange := MemoryRegion.contains_iff.mp hfit
  unfold MemoryRegion.stop at hrange
  rw [UInt64.toNat_sub_of_le _ _ (UInt64.le_iff_toNat_le.mpr hrange.1),
    hmemory.stored entry hentry]
  omega

theorem write_ok_wellFormed (hmemory : memory.WellFormed) {address : UInt64}
    {input : Bytes} {ignorePermissions : Bool} {value : Unit}
    (hrun : write address input ignorePermissions memory = .ok value next) :
    next.WellFormed := by
  by_cases hinput : input = []
  · subst hinput
    rw [write_nil, EStateM.Result.ok.injEq] at hrun
    exact hrun.2 ▸ hmemory
  · obtain ⟨entry, hfound, hfit, _, rfl⟩ := (write_eq_ok hinput).mp hrun
    have hentry := (hmemory.entryAt_eq_some.mp hfound).1
    refine hmemory.adjust entry.1 (fun _ => rfl) (fun _ => rfl) ?_
    intro region hregion
    have hsame : entry = (entry.1, region) :=
      OrderedMap.key_injective hentry hregion rfl
    have hroom := hmemory.copyInto_length hentry hfit
    rw [hsame] at hroom
    exact splice_length hroom

theorem writeInteger_ok_write {address : UInt64} {width : UInt8}
    {order : ByteOrder} {integer : UInt64} {ignorePermissions : Bool}
    {value : Unit} :
    writeInteger address width order integer ignorePermissions memory =
        .ok value next ↔
      integerWidth width = true ∧
        write address (integerBytes order width integer) ignorePermissions
          memory = .ok value next := by
  unfold writeInteger
  rw [rejectIf_bind_eq_ok]
  simp

theorem map_succeeds (hmemory : memory.WellFormed) {base size : UInt64}
    (permissions : UInt8) (name : Bytes) (hsize : size ≠ 0)
    (hbounded : base.toNat + size.toNat < 2 ^ 64)
    (hdisjoint : ∀ entry ∈ memory.regions.entries,
      base.toNat + size.toNat ≤ entry.2.base.toNat ∨
        entry.2.stop ≤ base.toNat)
    (hfit : memory.mappedBytes.toNat + size.toNat < 2 ^ 64)
    (hbudget : memory.mappedBytes + size ≤ memory.limits.maxMappedBytes) :
    map base size permissions name memory =
      .ok () (memory.withRegion (freshRegion base size permissions name)) :=
  map_eq_ok.mpr ⟨hsize, hbounded, hfit, hbudget,
    ((hmemory.overlaps_iff hsize hbounded).mpr hdisjoint).1,
    ((hmemory.overlaps_iff hsize hbounded).mpr hdisjoint).2, rfl⟩

/-- `map` succeeds exactly on a free range that the budget has room for. -/
theorem WellFormed.map_succeeded_iff (hmemory : memory.WellFormed)
    {base size : UInt64} {permissions : UInt8} {name : Bytes} :
    succeeded (map base size permissions name memory) = true ↔
      size ≠ 0 ∧ base.toNat + size.toNat < 2 ^ 64 ∧
        memory.mappedBytes.toNat + size.toNat ≤
          memory.limits.maxMappedBytes.toNat ∧
        ∀ entry ∈ memory.regions.entries,
          base.toNat + size.toNat ≤ entry.2.base.toNat ∨
            entry.2.stop ≤ base.toNat := by
  have hlimit := memory.limits.maxMappedBytes.toNat_lt
  rw [succeeded_iff]
  constructor
  · rintro ⟨value, next, hrun⟩
    obtain ⟨hsize, hbounded, hfit, hbudget, habove, hbelow, -⟩ :=
      map_eq_ok.mp hrun
    rw [UInt64.le_iff_toNat_le, toNat_add_of_fit hfit] at hbudget
    exact ⟨hsize, hbounded, hbudget,
      (hmemory.overlaps_iff hsize hbounded).mp ⟨habove, hbelow⟩⟩
  · rintro ⟨hsize, hbounded, hbudget, hdisjoint⟩
    have hfit : memory.mappedBytes.toNat + size.toNat < 2 ^ 64 := by omega
    refine ⟨(), _, map_succeeds hmemory permissions name hsize hbounded
      hdisjoint hfit ?_⟩
    rw [UInt64.le_iff_toNat_le, toNat_add_of_fit hfit]
    exact hbudget

theorem write_fresh (hmemory : memory.WellFormed) (input : Bytes)
    {base size address : UInt64} {permissions : UInt8} {name : Bytes}
    {value : Unit}
    (hmap : map base size permissions name memory = .ok value next)
    (hlow : base.toNat ≤ address.toNat)
    (hhigh : address.toNat + input.length ≤ base.toNat + size.toNat) :
    write address input true next = .ok () (memory.withRegion
      (copyInto address input (freshRegion base size permissions name))) := by
  have hnext := map_ok_wellFormed hmemory hmap
  obtain ⟨hsize, hbounded, _, _, habove, hbelow, rfl⟩ := map_eq_ok.mp hmap
  by_cases hinput : input = []
  · subst hinput
    rw [write_nil, copyInto, splice_nil]
  have hlength : 0 < input.length := List.length_pos_iff.mpr hinput
  have habsent : ∀ entry ∈ memory.regions.entries, entry.1 ≠ base :=
    hmemory.absent_of_disjoint
      (freshRegion base size permissions name)
      (size_pos_of_ne_zero hsize)
      ((hmemory.overlaps_iff hsize hbounded).mp ⟨habove, hbelow⟩)
  have hmem : (base, freshRegion base size permissions name) ∈
      (memory.withRegion
        (freshRegion base size permissions name)).regions.entries :=
    (OrderedMap.mem_emplace habsent).mpr (Or.inl rfl)
  have hcovers : (freshRegion base size permissions name).Covers
      address.toNat := by
    refine ⟨hlow, ?_⟩
    show address.toNat < base.toNat + size.toNat
    omega
  refine (write_eq_ok hinput).mpr ⟨_, hnext.entryAt_eq_some.mpr
    ⟨hmem, hcovers⟩, MemoryRegion.contains_iff.mpr ⟨hlow, hhigh⟩, Or.inl rfl, ?_⟩
  show _ = { memory with
    regions := (memory.regions.emplace base
      (freshRegion base size permissions name)).adjust base
        (copyInto address input)
    mappedBytes := memory.mappedBytes + size }
  rw [OrderedMap.adjust_emplace habsent]
  rfl

theorem write_fresh_whole (hmemory : memory.WellFormed) {base size : UInt64}
    {permissions : UInt8} {name input : Bytes} {value : Unit}
    (hmap : map base size permissions name memory = .ok value next)
    (hinput : input.length = size.toNat) :
    write base input true next = .ok () (memory.withRegion
      { base, size, permissions, name, bytes := input }) := by
  rw [write_fresh hmemory input hmap le_rfl (by omega)]
  have hzero : (base - (freshRegion base size permissions name).base).toNat =
      0 := by
    show (base - base).toNat = 0
    rw [UInt64.sub_self, UInt64.toNat_zero]
  rw [copyInto, hzero,
    splice_whole (by rw [hinput]; exact List.length_replicate.symm)]
  rfl

theorem perform_wellFormed (hmemory : memory.WellFormed) (command : Command) :
    (memory.perform command).WellFormed := by
  unfold perform
  cases hrun : command.call memory with
  | error why last =>
      rw [finalState_error, command.call_atomic memory why last hrun]
      exact hmemory
  | ok value last =>
      rw [finalState_ok]
      cases command with
      | map base size permissions name => exact map_ok_wellFormed hmemory hrun
      | unmap base => exact unmap_ok_wellFormed hmemory hrun
      | protect base size permissions => exact protect_ok_wellFormed hmemory hrun
      | write address input ignorePermissions =>
          exact write_ok_wellFormed hmemory hrun
      | writeInteger address width order integer ignorePermissions =>
          exact write_ok_wellFormed hmemory (writeInteger_ok_write.mp hrun).2
      | clear =>
          rw [Command.call, AddressSpace.clear, modify_apply,
            EStateM.Result.ok.injEq] at hrun
          rw [← hrun.2]
          constructor <;>
            simp [OrderedMap.empty, OrderedMap.Separated,
              UInt64.le_iff_toNat_le]

theorem run_wellFormed (hmemory : memory.WellFormed)
    (commands : List Command) : (memory.run commands).WellFormed := by
  induction commands generalizing memory with
  | nil => exact hmemory
  | cons command commands ih => exact ih (perform_wellFormed hmemory command)

theorem Reachable.wellFormed (hreachable : memory.Reachable) :
    memory.WellFormed := by
  obtain ⟨limits, commands, rfl⟩ := hreachable
  exact run_wellFormed (new_wellFormed limits) commands

theorem perform_limits (command : Command) :
    (memory.perform command).limits = memory.limits := by
  unfold perform
  cases hrun : command.call memory with
  | error why last =>
      rw [finalState_error, command.call_atomic memory why last hrun]
  | ok value last =>
      rw [finalState_ok]
      have hwrite : ∀ {address input ignorePermissions},
          write address input ignorePermissions memory = .ok value last →
            last.limits = memory.limits := by
        intro address input ignorePermissions hrun
        by_cases hinput : input = []
        · subst hinput
          rw [write_nil, EStateM.Result.ok.injEq] at hrun
          rw [hrun.2]
        · obtain ⟨_, _, _, _, rfl⟩ := (write_eq_ok hinput).mp hrun
          rfl
      cases command with
      | map base size permissions name =>
          obtain ⟨_, _, _, _, _, _, rfl⟩ := map_eq_ok.mp hrun
          rfl
      | unmap base =>
          obtain ⟨_, _, rfl⟩ := unmap_eq_ok.mp hrun
          rfl
      | protect base size permissions =>
          obtain ⟨_, _, _, _, rfl⟩ := protect_eq_ok.mp hrun
          rfl
      | write address input ignorePermissions => exact hwrite hrun
      | writeInteger address width order integer ignorePermissions =>
          exact hwrite (writeInteger_ok_write.mp hrun).2
      | clear =>
          rw [Command.call, AddressSpace.clear, modify_apply,
            EStateM.Result.ok.injEq] at hrun
          rw [← hrun.2]

theorem run_limits (commands : List Command) :
    (memory.run commands).limits = memory.limits := by
  induction commands generalizing memory with
  | nil => rfl
  | cons command commands ih => exact ih.trans (perform_limits command)

/-- Every run from a new object keeps its regions keyed by their base,
nonempty, fully stored, inside 64 bits and pairwise disjoint, and its total
exact and within the limit. -/
theorem run_new_sound (limits : Limits) (commands : List Command) :
    let memory := (new limits).run commands
    (∀ entry ∈ memory.regions.entries, entry.1 = entry.2.base) ∧
      (∀ entry ∈ memory.regions.entries,
        0 < entry.2.size.toNat ∧
          entry.2.bytes.length = entry.2.size.toNat ∧
          entry.2.base.toNat + entry.2.size.toNat < 2 ^ 64) ∧
      (∀ left ∈ memory.regions.entries, ∀ right ∈ memory.regions.entries,
        left ≠ right → ∀ address,
          ¬(left.2.Covers address ∧ right.2.Covers address)) ∧
      memory.mappedBytes.toNat =
        (memory.regions.entries.map fun entry => entry.2.size.toNat).sum ∧
      memory.mappedBytes ≤ limits.maxMappedBytes := by
  intro memory
  have hmemory : memory.WellFormed :=
    run_wellFormed (new_wellFormed limits) commands
  refine ⟨hmemory.keyed, fun entry hentry => ?_, ?_, hmemory.counted, ?_⟩
  · exact ⟨hmemory.nonempty entry hentry, hmemory.stored entry hentry,
      hmemory.bounded entry hentry⟩
  · rintro left hleft right hright hne address ⟨hcoverLeft, hcoverRight⟩
    exact hne (hmemory.covers_unique hleft hright hcoverLeft hcoverRight)
  · have hlimits : memory.limits = limits := run_limits commands
    rw [← hlimits]
    exact hmemory.budget

end AddressSpace
end BinForge
