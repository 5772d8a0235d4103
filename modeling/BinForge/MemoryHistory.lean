import BinForge.StoredInteger

/-!
# The bytes of a run

Seen from outside, the address space is a partial byte memory: a mapped
address holds the byte last written to it since its region was mapped, or
zero.  The record of a run is the list of its calls that succeeded.
-/

namespace BinForge

open StatefulExcept
open ListSplice

namespace AddressSpace

/-- The calls of a run that succeed, in order. -/
def accepted (memory : AddressSpace) : List Command → List Command
  | [] => []
  | command :: rest =>
      if succeeded (command.call memory) then
        command :: accepted (memory.perform command) rest
      else accepted (memory.perform command) rest

/-- The byte a call writes to an address. -/
def Command.written : Command → CellMemory UInt8
  | .write address input _ =>
      CellMemory.store (fun _ => none) address.toNat input
  | .writeInteger address width order value _ =>
      CellMemory.store (fun _ => none) address.toNat
        (integerBytes order width value)
  | _ => fun _ => none

/-- The byte last written to an address, or zero. -/
def lastWritten (calls : List Command) (address : ℕ) : UInt8 :=
  (calls.reverse.findSome? fun call => call.written address).getD 0

/-- A call that maps a region at the base or removes the one there. -/
def Command.Replaces (base : UInt64) : Command → Prop
  | .map start _ _ _ => start = base
  | .unmap start => start = base
  | .clear => True
  | _ => False

/-- `since` are the calls after the one that mapped the region. -/
structure MappedBefore (calls : List Command) (region : MemoryRegion)
    (since : List Command) : Prop where
  mapping : ∃ before permissions, calls = before ++
    .map region.base region.size permissions region.name :: since
  kept : ∀ call ∈ since, ¬call.Replaces region.base

/-- Every byte is accounted for by the calls. -/
def Recorded (calls : List Command) (memory : AddressSpace) : Prop :=
  ∀ entry ∈ memory.regions.entries, ∃ since,
    MappedBefore calls entry.2 since ∧ ∀ address, entry.2.Covers address →
      memory.contents address = some (lastWritten since address)

/-- The range lies inside one region whose permissions are allowed. -/
def Inside (memory : AddressSpace) (address : UInt64) (size : ℕ)
    (allowed : UInt8 → Prop) : Prop :=
  ∃ entry ∈ memory.regions.entries,
    entry.2.base.toNat ≤ address.toNat ∧
      address.toNat + size ≤ entry.2.stop ∧ allowed entry.2.permissions

variable {memory next : AddressSpace} {calls : List Command}

/-! ## The record grows with the run -/

theorem lastWritten_append (call : Command) (address : ℕ) :
    lastWritten (calls ++ [call]) address =
      (call.written address).getD (lastWritten calls address) := by
  unfold lastWritten
  rw [List.reverse_append, List.reverse_singleton, List.singleton_append,
    List.findSome?_cons]
  cases call.written address <;> rfl

theorem MappedBefore.append {region : MemoryRegion} {since : List Command}
    (hbefore : MappedBefore calls region since) {call : Command}
    (hkeeps : ¬call.Replaces region.base) :
    MappedBefore (calls ++ [call]) region (since ++ [call]) := by
  obtain ⟨before, permissions, rfl⟩ := hbefore.mapping
  refine ⟨⟨before, permissions, by simp⟩, fun later hlater => ?_⟩
  rcases List.mem_append.mp hlater with hold | hnew
  · exact hbefore.kept later hold
  · rw [List.mem_singleton.mp hnew]
    exact hkeeps

theorem store_written (contents : CellMemory UInt8) (address : ℕ)
    (input : Bytes) (target : ℕ) {byte : UInt8}
    (hbyte : contents target = some byte) :
    contents.store address input target =
      some ((CellMemory.store (fun _ => none) address input target).getD
        byte) := by
  unfold CellMemory.store
  split
  next hinside =>
    have hlength : target - address < input.length := by omega
    rw [List.getElem?_eq_getElem hlength, Option.getD_some]
  next => rw [hbyte, Option.getD_none]

/-- A call keeps the record if each region it leaves is an old one whose bytes
it writes as it says, or is new and zero. -/
theorem Recorded.extend (hrecorded : Recorded calls memory) (call : Command)
    (hregions : ∀ entry ∈ next.regions.entries,
      (∃ permissions, call = .map entry.2.base entry.2.size permissions
          entry.2.name ∧ ∀ address, entry.2.Covers address →
            next.contents address = some 0) ∨
        ∃ old ∈ memory.regions.entries, old.2.base = entry.2.base ∧
          old.2.size = entry.2.size ∧ old.2.name = entry.2.name ∧
          ¬call.Replaces entry.2.base ∧
          ∀ address byte, entry.2.Covers address →
            memory.contents address = some byte →
            next.contents address =
              some ((call.written address).getD byte)) :
    Recorded (calls ++ [call]) next := by
  intro entry hentry
  rcases hregions entry hentry with ⟨permissions, rfl, hzero⟩ |
    ⟨old, hold, hbase, hsize, hname, hkeeps, hbytes⟩
  · exact ⟨[], ⟨⟨calls, permissions, rfl⟩, by simp⟩, hzero⟩
  · obtain ⟨since, hbefore, hcontents⟩ := hrecorded old hold
    have hsame : MappedBefore calls entry.2 since := by
      refine ⟨?_, hbase ▸ hbefore.kept⟩
      rw [← hbase, ← hsize, ← hname]
      exact hbefore.mapping
    refine ⟨since ++ [call], hsame.append hkeeps, fun address hcovers => ?_⟩
    have hcoversOld : old.2.Covers address := by
      unfold MemoryRegion.Covers MemoryRegion.stop at hcovers ⊢
      rwa [hbase, hsize]
    rw [lastWritten_append]
    exact hbytes address _ hcovers (hcontents address hcoversOld)

/-- Regions with the same bytes at the same place give the same contents. -/
theorem WellFormed.contents_congr (hmemory : memory.WellFormed)
    (hnext : next.WellFormed) {old entry : UInt64 × MemoryRegion}
    (hold : old ∈ memory.regions.entries)
    (hentry : entry ∈ next.regions.entries) (hbase : old.2.base = entry.2.base)
    (hsize : old.2.size = entry.2.size) (hbytes : old.2.bytes = entry.2.bytes)
    {address : ℕ} (hcovers : entry.2.Covers address) :
    next.contents address = memory.contents address := by
  have hcoversOld : old.2.Covers address := by
    unfold MemoryRegion.Covers MemoryRegion.stop at hcovers ⊢
    rwa [hbase, hsize]
  rw [hnext.contents_of_covers hentry hcovers,
    hmemory.contents_of_covers hold hcoversOld, hbase, hbytes]

theorem recorded_map (hmemory : memory.WellFormed)
    (hrecorded : Recorded calls memory) {base size : UInt64}
    {permissions : UInt8} {name : Bytes} {value : Unit}
    (hrun : map base size permissions name memory = .ok value next) :
    Recorded (calls ++ [.map base size permissions name]) next := by
  have hnext := map_ok_wellFormed hmemory hrun
  obtain ⟨hsize, hbounded, _, _, habove, hbelow, rfl⟩ := map_eq_ok.mp hrun
  have habsent : ∀ entry ∈ memory.regions.entries, entry.1 ≠ base :=
    hmemory.absent_of_disjoint (freshRegion base size permissions name)
      (size_pos_of_ne_zero hsize)
      ((hmemory.overlaps_iff hsize hbounded).mp ⟨habove, hbelow⟩)
  refine hrecorded.extend _ fun entry hentry => ?_
  rcases (OrderedMap.mem_emplace habsent).mp hentry with rfl | hold
  · refine Or.inl ⟨permissions, rfl, fun address hcovers => ?_⟩
    rw [hnext.contents_of_covers hentry hcovers]
    unfold MemoryRegion.Covers MemoryRegion.stop at hcovers
    have hinside : address - (freshRegion base size permissions
        name).base.toNat < size.toNat := by
      simp only [freshRegion] at hcovers ⊢
      omega
    exact List.getElem?_replicate_of_lt hinside
  · refine Or.inr ⟨entry, hold, rfl, rfl, rfl, ?_, fun address byte hcovers
      hbyte => ?_⟩
    · rw [← hmemory.keyed entry hold]
      exact fun hsame => habsent entry hold hsame.symm
    · rw [hmemory.contents_congr hnext hold hentry rfl rfl rfl hcovers]
      exact hbyte

theorem recorded_unmap (hmemory : memory.WellFormed)
    (hrecorded : Recorded calls memory) {base : UInt64} {value : Unit}
    (hrun : unmap base memory = .ok value next) :
    Recorded (calls ++ [.unmap base]) next := by
  have hnext := unmap_ok_wellFormed hmemory hrun
  obtain ⟨found, _, rfl⟩ := unmap_eq_ok.mp hrun
  refine hrecorded.extend _ fun entry hentry => Or.inr ?_
  obtain ⟨hold, hkey⟩ := OrderedMap.mem_erase.mp hentry
  refine ⟨entry, hold, rfl, rfl, rfl, ?_, fun address byte hcovers hbyte => ?_⟩
  · rw [← hmemory.keyed entry hold]
    exact fun hsame => hkey hsame.symm
  · rw [hmemory.contents_congr hnext hold hentry rfl rfl rfl hcovers]
    exact hbyte

theorem recorded_protect (hmemory : memory.WellFormed)
    (hrecorded : Recorded calls memory) {base size : UInt64}
    {permissions : UInt8} {value : Unit}
    (hrun : protect base size permissions memory = .ok value next) :
    Recorded (calls ++ [.protect base size permissions]) next := by
  have hnext := protect_ok_wellFormed hmemory hrun
  obtain ⟨found, _, _, _, rfl⟩ := protect_eq_ok.mp hrun
  refine hrecorded.extend _ fun entry hentry => Or.inr ?_
  rcases OrderedMap.mem_adjust.mp hentry with ⟨hold, _⟩ | ⟨region, hold, rfl⟩
  · refine ⟨entry, hold, rfl, rfl, rfl, id, fun address byte hcovers hbyte => ?_⟩
    rw [hmemory.contents_congr hnext hold hentry rfl rfl rfl hcovers]
    exact hbyte
  · refine ⟨_, hold, rfl, rfl, rfl, id, fun address byte hcovers hbyte => ?_⟩
    rw [hmemory.contents_congr hnext hold hentry rfl rfl rfl hcovers]
    exact hbyte

/-- Both writing calls, `call` being either. -/
theorem recorded_write (hmemory : memory.WellFormed)
    (hrecorded : Recorded calls memory) {address : UInt64} {input : Bytes}
    {ignorePermissions : Bool} {value : Unit}
    (hrun : write address input ignorePermissions memory = .ok value next)
    {call : Command} (hkeeps : ∀ base, ¬call.Replaces base)
    (hwritten : call.written =
      CellMemory.store (fun _ => none) address.toNat input) :
    Recorded (calls ++ [call]) next := by
  have hlayout := (write_ok_frame hrun).layout
  refine hrecorded.extend _ fun entry hentry => Or.inr ?_
  have hstripped : (entry.1, { entry.2 with bytes := [] }) ∈ memory.layout :=
    hlayout ▸ List.mem_map.mpr ⟨entry, hentry, rfl⟩
  obtain ⟨old, hold, hsame⟩ := List.mem_map.mp hstripped
  simp only [Prod.mk.injEq, MemoryRegion.mk.injEq] at hsame
  obtain ⟨_, hbase, hsize, _, hname, _⟩ := hsame
  refine ⟨old, hold, hbase, hsize, hname, hkeeps _, fun target byte _ hbyte =>
    ?_⟩
  rw [write_ok_contents hmemory hrun, hwritten]
  exact store_written memory.contents address.toNat input target hbyte

/-- One call, with its entry in the record if it succeeds. -/
theorem recorded_perform (hmemory : memory.WellFormed)
    (hrecorded : Recorded calls memory) (command : Command) :
    Recorded (if succeeded (command.call memory) then calls ++ [command]
      else calls) (memory.perform command) := by
  unfold perform
  cases hrun : command.call memory with
  | error why last =>
      rw [finalState_error, command.call_atomic memory why last hrun]
      exact hrecorded
  | ok value last =>
      rw [finalState_ok]
      show Recorded (calls ++ [command]) last
      cases command with
      | map base size permissions name =>
          exact recorded_map hmemory hrecorded hrun
      | unmap base => exact recorded_unmap hmemory hrecorded hrun
      | protect base size permissions =>
          exact recorded_protect hmemory hrecorded hrun
      | write address input ignorePermissions =>
          exact recorded_write hmemory hrecorded hrun (fun _ => id) rfl
      | writeInteger address width order integer ignorePermissions =>
          exact recorded_write hmemory hrecorded
            (writeInteger_ok_write.mp hrun).2 (fun _ => id) rfl
      | clear =>
          rw [Command.call, AddressSpace.clear, modify_apply,
            EStateM.Result.ok.injEq] at hrun
          rw [← hrun.2]
          exact fun entry hentry => absurd hentry List.not_mem_nil

theorem recorded_run (hmemory : memory.WellFormed)
    (hrecorded : Recorded calls memory) (commands : List Command) :
    Recorded (calls ++ memory.accepted commands) (memory.run commands) := by
  induction commands generalizing memory calls with
  | nil => rwa [accepted, List.append_nil]
  | cons command commands ih =>
      have hstep := recorded_perform hmemory hrecorded command
      have hrest := ih (perform_wellFormed hmemory command) hstep
      rw [accepted]
      split at hrest
      next hsucceeded =>
        rw [if_pos hsucceeded, List.append_cons]
        exact hrest
      next hfailed =>
        rw [if_neg hfailed]
        exact hrest

theorem recorded_run_new (limits : Limits) (commands : List Command) :
    Recorded ((new limits).accepted commands) ((new limits).run commands) := by
  have hnew : Recorded [] (new limits) :=
    fun _ hentry => absurd hentry List.not_mem_nil
  exact recorded_run (new_wellFormed limits) hnew commands

/-! ## When a call succeeds -/

theorem read_succeeded_iff (hmemory : memory.WellFormed) (address : UInt64)
    (size : ℕ) :
    succeeded (read address size memory) = true ↔
      size = 0 ∨ memory.Inside address size
        fun permissions => hasPermission permissions permissionRead := by
  by_cases hsize : size = 0
  · subst hsize
    exact iff_of_true rfl (Or.inl rfl)
  rw [or_iff_right hsize, succeeded_iff]
  constructor
  · rintro ⟨value, last, hrun⟩
    obtain ⟨region, hfound, hfit, hreadable, -⟩ := (read_eq_ok hsize).mp hrun
    obtain ⟨entry, hentryAt, rfl⟩ := Option.map_eq_some_iff.mp hfound
    obtain ⟨hlow, hhigh⟩ := MemoryRegion.contains_iff.mp hfit
    exact ⟨entry, (hmemory.entryAt_eq_some.mp hentryAt).1, hlow, hhigh,
      hreadable⟩
  · rintro ⟨entry, hentry, hlow, hhigh, hreadable⟩
    have hfound := hmemory.entryAt_eq_some.mpr
      ⟨hentry, hlow, (by omega : address.toNat < entry.2.stop)⟩
    exact ⟨_, memory, (read_eq_ok hsize).mpr ⟨entry.2,
      by rw [regionAt, hfound, Option.map_some],
      MemoryRegion.contains_iff.mpr ⟨hlow, hhigh⟩, hreadable, rfl, rfl⟩⟩

theorem write_succeeded_iff (hmemory : memory.WellFormed) (address : UInt64)
    (input : Bytes) (ignorePermissions : Bool) :
    succeeded (write address input ignorePermissions memory) = true ↔
      input = [] ∨ memory.Inside address input.length fun permissions =>
        ignorePermissions = true ∨
          hasPermission permissions permissionWrite := by
  by_cases hinput : input = []
  · subst hinput
    exact iff_of_true rfl (Or.inl rfl)
  have hlength : 0 < input.length := List.length_pos_iff.mpr hinput
  rw [or_iff_right hinput, succeeded_iff]
  constructor
  · rintro ⟨value, last, hrun⟩
    obtain ⟨entry, hfound, hfit, hallowed, -⟩ :=
      (write_eq_ok hinput).mp hrun
    obtain ⟨hlow, hhigh⟩ := MemoryRegion.contains_iff.mp hfit
    exact ⟨entry, (hmemory.entryAt_eq_some.mp hfound).1, hlow, hhigh, hallowed⟩
  · rintro ⟨entry, hentry, hlow, hhigh, hallowed⟩
    have hfound := hmemory.entryAt_eq_some.mpr
      ⟨hentry, hlow, (by omega : address.toNat < entry.2.stop)⟩
    exact ⟨(), _, (write_eq_ok hinput).mpr ⟨entry, hfound,
      MemoryRegion.contains_iff.mpr ⟨hlow, hhigh⟩, hallowed, rfl⟩⟩

theorem integerWidth_ne_zero {width : UInt8}
    (hwidth : integerWidth width = true) : width.toNat ≠ 0 := by
  simp only [integerWidth, Bool.or_eq_true, beq_iff_eq] at hwidth
  rcases hwidth with ((rfl | rfl) | rfl) | rfl <;> decide

theorem readInteger_succeeded_iff (hmemory : memory.WellFormed)
    (address : UInt64) (width : UInt8) (order : ByteOrder) :
    succeeded (readInteger address width order memory) = true ↔
      integerWidth width = true ∧ memory.Inside address width.toNat
        fun permissions => hasPermission permissions permissionRead := by
  have hread := read_succeeded_iff hmemory address width.toNat
  rw [succeeded_iff] at hread ⊢
  constructor
  · rintro ⟨value, last, hrun⟩
    obtain ⟨hwidth, hrun⟩ := rejectIf_bind_eq_ok.mp hrun
    obtain ⟨bytes, middle, hrun, -⟩ := bind_eq_ok.mp hrun
    have hwidth : integerWidth width = true := by simpa using hwidth
    exact ⟨hwidth, (hread.mp ⟨bytes, middle, hrun⟩).resolve_left
      (integerWidth_ne_zero hwidth)⟩
  · rintro ⟨hwidth, hinside⟩
    obtain ⟨bytes, middle, hrun⟩ := hread.mpr (Or.inr hinside)
    exact ⟨_, middle, rejectIf_bind_eq_ok.mpr ⟨by simpa using hwidth,
      bind_eq_ok.mpr ⟨bytes, middle, hrun, rfl⟩⟩⟩

theorem writeInteger_succeeded_iff (hmemory : memory.WellFormed)
    (address : UInt64) (width : UInt8) (order : ByteOrder) (integer : UInt64)
    (ignorePermissions : Bool) :
    succeeded (writeInteger address width order integer ignorePermissions
        memory) = true ↔
      integerWidth width = true ∧ memory.Inside address width.toNat
        fun permissions => ignorePermissions = true ∨
          hasPermission permissions permissionWrite := by
  have hwrite := write_succeeded_iff hmemory address
    (integerBytes order width integer) ignorePermissions
  rw [succeeded_iff] at hwrite ⊢
  simp only [writeInteger_ok_write]
  rw [integerBytes_length] at hwrite
  constructor
  · rintro ⟨value, last, hwidth, hrun⟩
    refine ⟨hwidth, (hwrite.mp ⟨value, last, hrun⟩).resolve_left fun hempty => ?_⟩
    have hlength := integerBytes_length order width integer
    rw [hempty] at hlength
    exact integerWidth_ne_zero hwidth hlength.symm
  · rintro ⟨hwidth, hinside⟩
    obtain ⟨value, last, hrun⟩ := hwrite.mpr (Or.inr hinside)
    exact ⟨value, last, hwidth, hrun⟩

/-! ## The refinement -/

theorem read_recorded (hmemory : memory.WellFormed)
    (hrecorded : Recorded calls memory) {address : UInt64} {size : ℕ}
    {value : Bytes} (hsize : size ≠ 0)
    (hrun : read address size memory = .ok value next) :
    ∃ entry ∈ memory.regions.entries, ∃ since,
      MappedBefore calls entry.2 since ∧
        entry.2.base.toNat ≤ address.toNat ∧
        address.toNat + size ≤ entry.2.stop ∧
        value = (List.range size).map fun i =>
          lastWritten since (address.toNat + i) := by
  obtain ⟨region, hfound, hfit, -⟩ := (read_eq_ok hsize).mp hrun
  obtain ⟨entry, hentryAt, rfl⟩ := Option.map_eq_some_iff.mp hfound
  have hentry := (hmemory.entryAt_eq_some.mp hentryAt).1
  obtain ⟨hlow, hhigh⟩ := MemoryRegion.contains_iff.mp hfit
  obtain ⟨since, hbefore, hcontents⟩ := hrecorded entry hentry
  refine ⟨entry, hentry, since, hbefore, hlow, hhigh, ?_⟩
  have hload : memory.contents.load address.toNat
      ((List.range size).map fun i =>
        lastWritten since (address.toNat + i)).length = _ :=
    CellMemory.load_eq fun i hi => by
      rw [List.length_map, List.length_range] at hi
      rw [hcontents _ ⟨by omega, by omega⟩, List.getElem?_map,
        List.getElem?_range hi, Option.map_some]
  rw [List.length_map, List.length_range] at hload
  rw [(read_ok_contents hmemory hrun).1, hload]

theorem write_ok_outside (hmemory : memory.WellFormed) {address : UInt64}
    {input : Bytes} {ignorePermissions : Bool} {value : Unit}
    (hrun : write address input ignorePermissions memory = .ok value next) :
    SameFrame memory next ∧ ∀ target,
      target < address.toNat ∨ address.toNat + input.length ≤ target →
        next.contents target = memory.contents target := by
  refine ⟨write_ok_frame hrun, fun target houtside => ?_⟩
  rw [write_ok_contents hmemory hrun, CellMemory.store_outside houtside]

theorem readInteger_readOnly (address : UInt64) (width : UInt8)
    (order : ByteOrder) : ReadOnly (readInteger address width order) :=
  (readOnly_rejectIf _).bind fun _ =>
    (read_readOnly _ _).bind fun _ => readOnly_pure _

/-- A memory as its calls describe it: which reads and writes succeed, what
they return and what they leave alone. -/
structure RefinesByteMemory (calls : List Command) (memory : AddressSpace) :
    Prop where
  read : ∀ address size value next,
    read address size memory = .ok value next →
      next = memory ∧ (size = 0 ∧ value = [] ∨
        ∃ entry ∈ memory.regions.entries, ∃ since,
          MappedBefore calls entry.2 since ∧
            entry.2.base.toNat ≤ address.toNat ∧
            address.toNat + size ≤ entry.2.stop ∧
            value = (List.range size).map fun i =>
              lastWritten since (address.toNat + i))
  readable : ∀ address size,
    succeeded (AddressSpace.read address size memory) = true ↔
      size = 0 ∨ memory.Inside address size
        fun permissions => hasPermission permissions permissionRead
  integerReadable : ∀ address width order,
    succeeded (readInteger address width order memory) = true ↔
      integerWidth width = true ∧ memory.Inside address width.toNat
        fun permissions => hasPermission permissions permissionRead
  writable : ∀ address input ignorePermissions,
    succeeded (write address input ignorePermissions memory) = true ↔
      input = [] ∨ memory.Inside address input.length fun permissions =>
        ignorePermissions = true ∨ hasPermission permissions permissionWrite
  integerWritable : ∀ address width order integer ignorePermissions,
    succeeded (writeInteger address width order integer ignorePermissions
        memory) = true ↔
      integerWidth width = true ∧ memory.Inside address width.toNat
        fun permissions =>
          ignorePermissions = true ∨ hasPermission permissions permissionWrite
  failed : ∀ command : Command, succeeded (command.call memory) = false →
    memory.perform command = memory
  unread : ∀ address size,
    finalState (AddressSpace.read address size memory) = memory
  integerUnread : ∀ address width order,
    finalState (readInteger address width order memory) = memory
  written : ∀ address input ignorePermissions value next,
    write address input ignorePermissions memory = .ok value next →
      SameFrame memory next ∧ ∀ target,
        target < address.toNat ∨ address.toNat + input.length ≤ target →
          next.contents target = memory.contents target
  integerWritten : ∀ address width order integer ignorePermissions value next,
    writeInteger address width order integer ignorePermissions memory =
        .ok value next →
      SameFrame memory next ∧ ∀ target,
        target < address.toNat ∨ address.toNat + width.toNat ≤ target →
          next.contents target = memory.contents target

/-- Every state of every run refines the partial byte memory of the calls that
succeeded. -/
theorem run_refinesByteMemory (limits : Limits) (commands : List Command) :
    RefinesByteMemory ((new limits).accepted commands)
      ((new limits).run commands) := by
  have hmemory : ((new limits).run commands).WellFormed :=
    run_wellFormed (new_wellFormed limits) commands
  have hrecorded := recorded_run_new limits commands
  refine ⟨?_, read_succeeded_iff hmemory, readInteger_succeeded_iff hmemory,
    write_succeeded_iff hmemory, writeInteger_succeeded_iff hmemory, ?_,
    fun address size => read_readOnly address size _,
    fun address width order => readInteger_readOnly address width order _,
    fun address input ignorePermissions value next hrun =>
      write_ok_outside hmemory hrun, ?_⟩
  · intro address size value next hrun
    refine ⟨(read_ok_contents hmemory hrun).2, ?_⟩
    by_cases hsize : size = 0
    · subst hsize
      exact Or.inl ⟨rfl, (read_ok_contents hmemory hrun).1⟩
    · exact Or.inr (read_recorded hmemory hrecorded hsize hrun)
  · intro command hfailed
    obtain ⟨why, last, hrun⟩ := not_succeeded_iff.mp hfailed
    rw [perform, hrun, finalState_error]
    exact command.call_atomic _ why last hrun
  · intro address width order integer ignorePermissions value next hrun
    have houtside := write_ok_outside hmemory (writeInteger_ok_write.mp hrun).2
    rwa [integerBytes_length] at houtside

end AddressSpace
end BinForge
