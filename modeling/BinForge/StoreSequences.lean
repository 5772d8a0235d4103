import BinForge.RegionSets
import BinForge.PermutedRuns

/-!
# Sequences of stores

Relocations and imports come down to bytes stored one range after the other.
Whether such a sequence goes through depends on the regions alone, since no
store changes them, and what it leaves is the contents with all the ranges
stored in order.
-/

namespace CellMemory

variable {β : Type} {memory : CellMemory β}

/-- All the stores, in the order of the list. -/
def storeAll (memory : CellMemory β) (stores : List (ℕ × List β)) :
    CellMemory β :=
  stores.foldl (fun memory cells => memory.store cells.1 cells.2) memory

@[simp] theorem storeAll_nil : memory.storeAll [] = memory := rfl

@[simp] theorem storeAll_cons (cells : ℕ × List β)
    (stores : List (ℕ × List β)) :
    memory.storeAll (cells :: stores) =
      (memory.store cells.1 cells.2).storeAll stores := rfl

theorem storeAll_append (front back : List (ℕ × List β)) :
    memory.storeAll (front ++ back) = (memory.storeAll front).storeAll back :=
  List.foldl_append

/-- A store into cells that have just been stored. -/
theorem store_splice {address offset : ℕ} {cells patch : List β}
    (hfit : offset + patch.length ≤ cells.length) :
    (memory.store address cells).store (address + offset) patch =
      memory.store address (ListSplice.splice cells offset patch) := by
  have hlength := ListSplice.splice_length hfit
  funext target
  by_cases hcells : address ≤ target ∧ target < address + cells.length
  · rw [store_inside hcells.1 (hlength ▸ hcells.2),
      ListSplice.splice_getElem? hfit]
    by_cases hpatch : address + offset ≤ target ∧
        target < address + offset + patch.length
    · rw [store_inside hpatch.1 hpatch.2, if_pos (by omega)]
      congr 1
      omega
    · rw [store_outside (by omega), store_inside hcells.1 hcells.2,
        if_neg (by omega)]
  · rw [store_outside (by omega), store_outside (by omega),
      store_outside (by omega)]

/-- The two runs of cells do not meet; a run without cells meets nothing. -/
def StoresApart (left right : ℕ × List β) : Prop :=
  left.2 = [] ∨ right.2 = [] ∨
    left.1 + left.2.length ≤ right.1 ∨ right.1 + right.2.length ≤ left.1

theorem StoresApart.comm {left right : ℕ × List β}
    (hapart : StoresApart left right) :
    (memory.store left.1 left.2).store right.1 right.2 =
      (memory.store right.1 right.2).store left.1 left.2 := by
  rcases hapart with hleft | hright | hranges
  · rw [hleft, store_nil, store_nil]
  · rw [hright, store_nil, store_nil]
  · exact store_comm hranges

theorem storeAll_store_comm {cells : ℕ × List β} {stores : List (ℕ × List β)}
    (hapart : ∀ other ∈ stores, StoresApart cells other) :
    (memory.store cells.1 cells.2).storeAll stores =
      (memory.storeAll stores).store cells.1 cells.2 := by
  induction stores generalizing memory with
  | nil => rfl
  | cons other stores ih =>
      obtain ⟨hother, hrest⟩ := List.forall_mem_cons.mp hapart
      rw [storeAll_cons, storeAll_cons, hother.comm, ih hrest]

/-- Two sequences that do not meet may be stored in either order. -/
theorem storeAll_comm {left right : List (ℕ × List β)}
    (hapart : ∀ first ∈ left, ∀ second ∈ right, StoresApart first second) :
    (memory.storeAll left).storeAll right =
      (memory.storeAll right).storeAll left := by
  induction left generalizing memory with
  | nil => rfl
  | cons first left ih =>
      obtain ⟨hfirst, hrest⟩ := List.forall_mem_cons.mp hapart
      rw [storeAll_cons, storeAll_cons, ih hrest, storeAll_store_comm hfirst]

/-! ## Mapped ranges -/

section Mapped

variable {address length : ℕ}

theorem load_getElem? (hmapped : ∀ target, address ≤ target →
      target < address + length → (memory target).isSome)
    {i : ℕ} (hi : i < length) :
    (memory.load address length)[i]? = memory (address + i) := by
  induction length generalizing address i with
  | zero => contradiction
  | succ length ih =>
      obtain ⟨cell, hcell⟩ := Option.isSome_iff_exists.mp
        (hmapped address le_rfl (by omega))
      rw [load, hcell, Option.toList_some, List.singleton_append]
      cases i with
      | zero => rw [List.getElem?_cons_zero, Nat.add_zero, hcell]
      | succ i =>
          rw [List.getElem?_cons_succ, ih (fun target hlow hhigh =>
            hmapped target (by omega) (by omega)) (by omega)]
          congr 1
          omega

theorem load_length (hmapped : ∀ target, address ≤ target →
      target < address + length → (memory target).isSome) :
    (memory.load address length).length = length := by
  refine le_antisymm (memory.load_length_le address length) ?_
  by_contra hshort
  have hcell := load_getElem? hmapped (i := length - 1) (by omega)
  rw [List.getElem?_eq_none (by omega)] at hcell
  have hsome := hmapped (address + (length - 1)) (by omega) (by omega)
  rw [← hcell] at hsome
  contradiction

/-- A store is undone by storing what was there. -/
theorem store_undo {cells : List β} (hmapped : ∀ target, address ≤ target →
      target < address + cells.length → (memory target).isSome) :
    (memory.store address cells).store address
      (memory.load address cells.length) = memory := by
  have hlength := load_length hmapped
  funext target
  by_cases hinside : address ≤ target ∧ target < address + cells.length
  · rw [store_inside hinside.1 (by omega),
      load_getElem? hmapped (by omega)]
    congr 1
    omega
  · rw [store_outside (by omega), store_outside (by omega)]

/-- A store maps what it stores and unmaps nothing. -/
theorem isSome_store {cells : List β} {target : ℕ}
    (hmapped : (memory target).isSome) :
    (memory.store address cells target).isSome := by
  by_cases hinside : address ≤ target ∧ target < address + cells.length
  · rw [store_inside hinside.1 hinside.2,
      List.getElem?_eq_getElem (by omega)]
    rfl
  · rwa [store_outside (by omega)]

end Mapped

end CellMemory

namespace StatefulExcept

variable {ε σ α β : Type}

/-- A pass that only computes has one result for each item. -/
theorem mapM_eq_ok {f : α → Except ε β} {items : List α} {values : List β} :
    items.mapM f = .ok values ↔
      List.Forall₂ (fun item value => f item = .ok value) items values := by
  induction items generalizing values with
  | nil =>
      rw [List.mapM_nil]
      constructor
      · intro hvalues
        obtain rfl := Except.ok.inj hvalues
        exact .nil
      · intro hall
        cases hall
        rfl
  | cons item items ih =>
      rw [List.mapM_cons]
      constructor
      · intro hrun
        obtain ⟨value, hvalue, hrest⟩ := except_bind_eq_ok.mp hrun
        obtain ⟨rest, hitems, hreturn⟩ := except_bind_eq_ok.mp hrest
        obtain rfl := Except.ok.inj hreturn
        exact .cons hvalue (ih.mp hitems)
      · intro hall
        cases hall with
        | cons hvalue hrest =>
            exact except_bind_eq_ok.mpr ⟨_, hvalue,
              except_bind_eq_ok.mpr ⟨_, ih.mpr hrest, rfl⟩⟩

end StatefulExcept

namespace BinForge

open StatefulExcept

/-- Bytes to be stored from a target address on. -/
structure Store where
  target : UInt64 := 0
  bytes : Bytes := []
  deriving DecidableEq, Repr

def Store.cells (store : Store) : ℕ × List UInt8 :=
  (store.target.toNat, store.bytes)

def MemoryRegion.cells (region : MemoryRegion) : ℕ × List UInt8 :=
  (region.base.toNat, region.bytes)

namespace AddressSpace

variable {memory next last : AddressSpace} {region : MemoryRegion}
  {regions : List MemoryRegion} {stores : List Store}

/-! ## Regions as stores -/

/-- A new region adds its bytes to the contents. -/
theorem contents_withRegion (hmemory : memory.WellFormed)
    (hregion : Addable memory [region]) :
    (memory.withRegion region).contents =
      memory.contents.store region.base.toNat region.bytes := by
  have hextends := hregion.extends_one hmemory
  have hnext := hextends.wellFormed
  have hstored := (hregion.mappable region (by simp)).stored
  have hfree := hregion.free region (by simp)
  have hnew := hextends.added (List.mem_singleton_self region)
  funext target
  by_cases hcovers : region.Covers target
  · rw [hnext.contents_of_covers hnew hcovers]
    unfold MemoryRegion.Covers MemoryRegion.stop at hcovers
    rw [CellMemory.store_inside hcovers.1 (by omega)]
  · have hmissed : target < region.base.toNat ∨
        region.base.toNat + region.bytes.length ≤ target := by
      unfold MemoryRegion.Covers MemoryRegion.stop at hcovers
      omega
    rw [CellMemory.store_outside hmissed]
    by_cases hold : ∃ entry ∈ memory.regions.entries, entry.2.Covers target
    · obtain ⟨entry, hentry, hcovered⟩ := hold
      rw [hnext.contents_of_covers (hextends.kept hentry) hcovered,
        hmemory.contents_of_covers hentry hcovered]
    · have hnone : ∀ entry ∈ memory.regions.entries,
          ¬entry.2.Covers target := fun entry hentry hcovered =>
        hold ⟨entry, hentry, hcovered⟩
      rw [contents_eq_none_of_uncovered hnone, contents_eq_none_of_uncovered]
      intro entry hentry
      rcases mem_of_extends hextends hentry with hkept | hadded
      · exact hnone entry hkept
      · rw [List.mem_singleton.mp hadded]
        exact hcovers

theorem contents_withRegions (hmemory : memory.WellFormed)
    (hregions : Addable memory regions) :
    (memory.withRegions regions).contents =
      memory.contents.storeAll (regions.map MemoryRegion.cells) := by
  induction regions generalizing memory with
  | nil => rfl
  | cons region rest ih =>
      have hhead : Addable memory [region] :=
        Addable.of_append (hregions : Addable memory ([region] ++ rest))
      have hstep := hhead.extends_one hmemory
      rw [withRegions_cons, ih hstep.wellFormed
        ((addable_append_of_extends hmemory hhead hstep).mp hregions),
        contents_withRegion hmemory hhead]
      rfl

/-! ## Stores that ignore permissions -/

/-- The stores went through one after the other. -/
def Stored (stores : List Store) (memory next : AddressSpace) : Prop :=
  ListRun (fun store before after =>
    write store.target store.bytes true before = .ok () after) stores memory next

theorem Stored.meaning (hmemory : memory.WellFormed)
    (hstored : Stored stores memory next) :
    next.WellFormed ∧ SameFrame memory next ∧
      next.contents = memory.contents.storeAll (stores.map Store.cells) := by
  induction hstored with
  | nil state => exact ⟨hmemory, SameFrame.refl _, rfl⟩
  | cons hwrite _ ih =>
      obtain ⟨hlast, hframe, hcontents⟩ :=
        ih (write_ok_wellFormed hmemory hwrite)
      refine ⟨hlast, (write_ok_frame hwrite).trans hframe, ?_⟩
      rw [hcontents, write_ok_contents hmemory hwrite]
      rfl

/-- Every store that has bytes has a region around them. -/
def AllMapped (memory : AddressSpace) (stores : List Store) : Prop :=
  ∀ store ∈ stores, store.bytes ≠ [] →
    Mapped memory store.target store.bytes.length

theorem AllMapped.sameFrame (hframe : SameFrame memory next)
    (hmapped : AllMapped memory stores) : AllMapped next stores :=
  fun store hstore hbytes => (hmapped store hstore hbytes).sameFrame hframe

theorem exists_stored_iff (hmemory : memory.WellFormed) :
    (∃ next, Stored stores memory next) ↔ AllMapped memory stores := by
  constructor
  · rintro ⟨next, hstored⟩
    induction hstored with
    | nil state => exact fun store hstore => absurd hstore (by simp)
    | cons hwrite _ ih =>
        refine List.forall_mem_cons.mpr ⟨fun hbytes => ?_, ?_⟩
        · exact mapped_of_write hbytes hwrite
        · exact AllMapped.sameFrame (write_ok_frame hwrite).symm
            (ih (write_ok_wellFormed hmemory hwrite))
  · intro hmapped
    induction stores generalizing memory with
    | nil => exact ⟨memory, .nil memory⟩
    | cons store stores ih =>
        obtain ⟨hhead, hrest⟩ := List.forall_mem_cons.mp hmapped
        have hwrite : ∃ next,
            write store.target store.bytes true memory = .ok () next := by
          by_cases hbytes : store.bytes = []
          · exact ⟨memory, by rw [hbytes, write_nil]⟩
          · exact write_mapped hmemory _ (hhead hbytes)
        obtain ⟨next, hwrite⟩ := hwrite
        obtain ⟨last, hlast⟩ := ih (write_ok_wellFormed hmemory hwrite)
          (AllMapped.sameFrame (write_ok_frame hwrite) hrest)
        exact ⟨last, .cons hwrite hlast⟩

theorem Stored.append {front back : List Store}
    (hfront : Stored front memory next) (hback : Stored back next last) :
    Stored (front ++ back) memory last :=
  ListRun.append_iff.mpr ⟨next, hfront, hback⟩

theorem Stored.split {front back : List Store}
    (hstored : Stored (front ++ back) memory last) :
    ∃ next, Stored front memory next ∧ Stored back next last :=
  ListRun.append_iff.mp hstored

end AddressSpace
end BinForge
