import BinForge.StoreSequences
import BinForge.ImportBinding

/-!
# What a load asks for and what it does

A load is a set of regions added to the address space followed by a sequence
of stores.  Both are functions of the image, the options and the resolver, so
the whole call is specified by them: it goes through exactly when the regions
fit beside the old ones and every store falls into one region, and then the
contents are the old ones with all of it stored in order.
-/

namespace BinForge

open StatefulExcept
open ListSplice
open AddressSpace

/-! ## Relocations as stores -/

namespace RelocationProcessor

variable {limits : Limits} {image : BinaryImage} {bias : UInt64}
  {resolver : Option SymbolResolver} {memory next : AddressSpace}
  {relocation : Relocation}

/-- The bytes a relocation stores, none for one without effect. -/
def storeOf (image : BinaryImage) (bias : UInt64)
    (resolver : Option SymbolResolver) (relocation : Relocation) :
    Except Failure Store := do
  let target ← demand (checkedAdd relocation.offset bias)
    (failure .addressOverflow relocation.offset "relocation target overflow")
  let symbol ← symbolValue relocation image bias target resolver
  match ← computeValue relocation bias target symbol with
  | none => return { target }
  | some (value, width) => do
      rejectIf (width < 8 ∧ value.toNat ≥ 2 ^ (width.toNat * 8))
        (failure .addressOverflow target "relocation result does not fit")
      rejectIf (!integerWidth width)
        (failure .invalidRelocation target "integer width is unsupported")
      return { target, bytes := integerBytes image.header.byteOrder width value }

theorem storeOf_eq_ok {store : Store} :
    storeOf image bias resolver relocation = .ok store ↔
      Stores relocation image bias resolver store.target store.bytes := by
  unfold storeOf Stores
  rw [demand_except_bind_eq_ok]
  constructor
  · rintro ⟨target, htarget, hrun⟩
    obtain ⟨symbol, hsymbol, hrun⟩ := except_bind_eq_ok.mp hrun
    obtain ⟨stored, hstored, hrun⟩ := except_bind_eq_ok.mp hrun
    cases stored with
    | none =>
        obtain rfl := Except.ok.inj hrun
        exact ⟨symbol, htarget, hsymbol, Or.inl ⟨hstored, rfl⟩⟩
    | some stored =>
        obtain ⟨hfits, hrun⟩ := rejectIf_except_bind_eq_ok.mp hrun
        obtain ⟨hwidth, hrun⟩ := rejectIf_except_bind_eq_ok.mp hrun
        obtain rfl := Except.ok.inj hrun
        exact ⟨symbol, htarget, hsymbol, Or.inr ⟨stored.1, stored.2, hstored,
          hfits, by simpa using hwidth, rfl⟩⟩
  · rintro ⟨symbol, htarget, hsymbol, hstored⟩
    refine ⟨store.target, htarget,
      except_bind_eq_ok.mpr ⟨symbol, hsymbol, except_bind_eq_ok.mpr ?_⟩⟩
    rcases hstored with ⟨hnone, hbytes⟩ | ⟨value, width, hvalue, hfits, hwidth,
      hbytes⟩
    · refine ⟨none, hnone, ?_⟩
      rw [← hbytes]
      rfl
    · refine ⟨some (value, width), hvalue, rejectIf_except_bind_eq_ok.mpr
        ⟨hfits, rejectIf_except_bind_eq_ok.mpr ⟨by simpa using hwidth, ?_⟩⟩⟩
      rw [← hbytes]
      rfl

theorem applyOne_eq_store {value : Unit} :
    applyOne relocation image bias resolver memory = .ok value next ↔
      ∃ store, storeOf image bias resolver relocation = .ok store ∧
        write store.target store.bytes true memory = .ok value next := by
  rw [applyOne_eq_ok]
  constructor
  · rintro ⟨target, input, hstores, hwrite⟩
    exact ⟨⟨target, input⟩, storeOf_eq_ok.mpr hstores, hwrite⟩
  · rintro ⟨store, hstore, hwrite⟩
    exact ⟨store.target, store.bytes, storeOf_eq_ok.mp hstore, hwrite⟩

theorem applyAll_eq_stores {relocations : List Relocation} {applied : UInt32} :
    applyAll image bias resolver relocations memory = .ok applied next ↔
      ∃ stores, relocations.mapM (storeOf image bias resolver) = .ok stores ∧
        Stored stores memory next ∧
        applied = UInt32.ofNat stores.length := by
  refine foldlM_count_eq_ok.trans ?_
  rw [UInt32.zero_add]
  constructor
  · rintro ⟨hrun, rfl⟩
    suffices hall : ∃ stores,
        relocations.mapM (storeOf image bias resolver) = .ok stores ∧
          Stored stores memory next by
      obtain ⟨stores, hstores, hstored⟩ := hall
      exact ⟨stores, hstores, hstored, by
        rw [(mapM_eq_ok.mp hstores).length_eq]⟩
    simp only [mapM_eq_ok]
    induction hrun with
    | nil state => exact ⟨[], .nil, .nil state⟩
    | cons hone _ ih =>
        obtain ⟨store, hstore, hwrite⟩ := applyOne_eq_store.mp hone
        obtain ⟨stores, hstores, hstored⟩ := ih
        exact ⟨store :: stores, .cons hstore hstores, .cons hwrite hstored⟩
  · rintro ⟨stores, hstores, hstored, rfl⟩
    rw [mapM_eq_ok] at hstores
    refine ⟨?_, by rw [hstores.length_eq]⟩
    induction hstores generalizing memory with
    | nil =>
        cases hstored
        exact .nil _
    | cons hstore _ ih =>
        obtain ⟨middle, hwrite, hrest⟩ := ListRun.cons_iff.mp hstored
        exact .cons (applyOne_eq_store.mpr ⟨_, hstore, hwrite⟩) (ih hrest)

end RelocationProcessor

/-! ## Imports as stores -/

namespace BinaryLoader

variable {limits : Limits} {image : BinaryImage} {options : LoadOptions}
  {bias : UInt64} {resolver : Option SymbolResolver} {data : Bytes}
  {memory next : AddressSpace} {imported : Import}

/-- The word written to the import's slot, nothing for an unresolved weak
import. -/
def slotOf (image : BinaryImage) (bias : UInt64)
    (resolver : Option SymbolResolver) (imported : Import) :
    Except Failure (Option Store) := do
  match ← resolveImport resolver imported with
  | none => return none
  | some address => do
      let slot ← demand (checkedAdd imported.slotAddress bias) Failure.silent
      return some { target := slot, bytes := integerBytes image.header.byteOrder
                      image.header.wordSize.toByte address }

theorem bindImport_eq_slot {count : UInt32} :
    bindImport image bias resolver imported memory = .ok count next ↔
      ∃ slot, slotOf image bias resolver imported = .ok slot ∧
        Stored slot.toList memory next ∧
        count = UInt32.ofNat slot.toList.length := by
  rw [bindImport_eq_ok]
  unfold slotOf
  constructor
  · rintro (⟨htarget, rfl, rfl⟩ | ⟨address, slot, htarget, hslot, hwrite, rfl⟩)
    · exact ⟨none, except_bind_eq_ok.mpr ⟨none, htarget, rfl⟩, .nil _, rfl⟩
    · refine ⟨some ⟨slot, _⟩, except_bind_eq_ok.mpr ⟨some address, htarget,
        demand_except_bind_eq_ok.mpr ⟨slot, hslot, rfl⟩⟩, ?_, rfl⟩
      exact .cons (writeInteger_ok_write.mp hwrite).2 (.nil _)
  · rintro ⟨slot, hslot, hstored, rfl⟩
    obtain ⟨target, htarget, hslot⟩ := except_bind_eq_ok.mp hslot
    cases target with
    | none =>
        obtain rfl := Except.ok.inj hslot
        cases hstored
        exact Or.inl ⟨htarget, rfl, rfl⟩
    | some address =>
        obtain ⟨place, hplace, hslot⟩ := demand_except_bind_eq_ok.mp hslot
        obtain rfl := Except.ok.inj hslot
        obtain ⟨last, hwrite, hrest⟩ := ListRun.cons_iff.mp hstored
        cases hrest
        exact Or.inr ⟨address, place, htarget, hplace,
          writeInteger_ok_write.mpr ⟨integerWidth_wordSize _, hwrite⟩, rfl⟩

theorem reduceOption_cons_length {α : Type} (item : Option α)
    (items : List (Option α)) :
    (item :: items).reduceOption.length =
      item.toList.length + items.reduceOption.length := by
  cases item <;> simp [Nat.add_comm]

theorem bindImports_eq_slots {imports : List Import} {resolved : UInt32} :
    bindImports image bias resolver imports memory = .ok resolved next ↔
      ∃ slots, imports.mapM (slotOf image bias resolver) = .ok slots ∧
        Stored slots.reduceOption memory next ∧
        resolved = UInt32.ofNat slots.reduceOption.length := by
  suffices hall : ∀ first : UInt32,
      (imports.foldlM (fun resolved imported => do
          let count ← bindImport image bias resolver imported
          return resolved + count) first : MemoryCall UInt32) memory =
            .ok resolved next ↔
        ∃ slots, List.Forall₂ (fun imported slot =>
            slotOf image bias resolver imported = .ok slot) imports slots ∧
          Stored slots.reduceOption memory next ∧
          resolved = first + UInt32.ofNat slots.reduceOption.length by
    have hzero := hall 0
    simp only [UInt32.zero_add] at hzero
    simp only [mapM_eq_ok]
    exact hzero
  intro first
  induction imports generalizing first memory with
  | nil =>
      rw [List.foldlM_nil, pure_eq_ok]
      constructor
      · rintro ⟨rfl, rfl⟩
        exact ⟨[], .nil, .nil _, by simp⟩
      · rintro ⟨slots, hslots, hstored, rfl⟩
        cases hslots
        cases hstored
        exact ⟨by simp, rfl⟩
  | cons imported imports ih =>
      rw [List.foldlM_cons, bind_eq_ok]
      constructor
      · rintro ⟨counted, middle, hone, hrest⟩
        obtain ⟨count, state, hbind, hreturn⟩ := bind_eq_ok.mp hone
        rw [pure_eq_ok] at hreturn
        obtain ⟨rfl, rfl⟩ := hreturn
        obtain ⟨slot, hslot, hstored, rfl⟩ := bindImport_eq_slot.mp hbind
        obtain ⟨slots, hslots, hmore, rfl⟩ := (ih _).mp hrest
        refine ⟨slot :: slots, .cons hslot hslots, ?_, ?_⟩
        · cases slot with
          | none =>
              cases hstored
              exact hmore
          | some slot => exact hstored.append hmore
        · rw [reduceOption_cons_length, UInt32.ofNat_add, UInt32.add_assoc]
      · rintro ⟨slots, hslots, hstored, rfl⟩
        cases hslots with
        | @cons _ slot _ slots hslot hslots =>
            obtain ⟨middle, hfront, hback⟩ : ∃ middle,
                Stored slot.toList memory middle ∧
                  Stored slots.reduceOption middle next := by
              cases slot with
              | none => exact ⟨memory, .nil _, hstored⟩
              | some slot =>
                  obtain ⟨middle, hwrite, hrest⟩ := ListRun.cons_iff.mp hstored
                  exact ⟨middle, .cons hwrite (.nil _), hrest⟩
            refine ⟨first + UInt32.ofNat slot.toList.length, middle,
              bind_eq_ok.mpr ⟨_, middle,
                bindImport_eq_slot.mpr ⟨slot, hslot, hfront, rfl⟩, rfl⟩,
              (ih _).mpr ⟨slots, hslots, hback, ?_⟩⟩
            rw [reduceOption_cons_length, UInt32.ofNat_add, UInt32.add_assoc]

/-! ## Segments as regions -/

/-- Every segment that occupies memory has its pages in the address range. -/
def HavePages (limits : Limits) (bias : UInt64) (segments : List Segment) :
    Prop :=
  ∀ segment ∈ segments, segment.memorySize ≠ 0 →
    ∃ address base size,
      segmentPages limits bias segment = .ok (address, base, size)

theorem mappedBytes_of_loaded (hmemory : memory.WellFormed)
    {regions : List MemoryRegion} (hextends : Extends memory next regions)
    {mapped : UInt64} (htotal : mapped + memory.mappedBytes = next.mappedBytes) :
    mapped.toNat = totalSize regions := by
  have hgrows := hextends.mappedBytes_le hmemory
  have hsize := mappedBytes_of_extends hmemory hextends
  rw [eq_sub_of_add_eq htotal, UInt64.toNat_sub_of_le _ _ hgrows]
  omega

theorem loadSegments_eq_regions (hmemory : memory.WellFormed)
    (hdata : image.fileData = some data) {segments : List Segment}
    (hsegments : ∀ segment ∈ segments,
      BinaryValidator.SegmentValid data segment) {mapped : UInt64} :
    loadSegments limits image options bias segments memory =
        .ok mapped next ↔
      HavePages limits bias segments ∧
        Addable memory (segmentRegions limits options data bias segments) ∧
        next = memory.withRegions
          (segmentRegions limits options data bias segments) ∧
        mapped.toNat =
          totalSize (segmentRegions limits options data bias segments) := by
  constructor
  · intro hrun
    obtain ⟨hextends, htotal, hpages⟩ := loadSegments_ok hmemory hdata
      hsegments hrun
    have haddable := addable_of_extends hmemory hextends
    exact ⟨hpages, haddable, withRegions_eq hmemory haddable hextends,
      mappedBytes_of_loaded hmemory hextends htotal⟩
  · rintro ⟨hpages, haddable, rfl, hmapped⟩
    cases hrun : loadSegments limits image options bias segments memory with
    | ok total last =>
        obtain ⟨hextends, htotal, -⟩ := loadSegments_ok hmemory hdata
          hsegments hrun
        rw [withRegions_eq hmemory haddable hextends,
          UInt64.toNat_inj.mp (hmapped.trans
            (mappedBytes_of_loaded hmemory hextends htotal).symm)]
    | error why last =>
        -- The segment that failed finds its pages free.
        exfalso
        obtain ⟨done, segment, rest, rfl, hnonempty, hextends, hfails⟩ :=
          loadSegments_error hmemory hdata hsegments hrun
        obtain ⟨address, base, size, hpage⟩ :=
          hpages segment (by simp) hnonempty
        rw [← List.singleton_append, ← List.append_assoc,
          segmentRegions_append] at haddable
        have hbefore := haddable.of_append
        rw [segmentRegions_append] at hbefore
        have hregion := (addable_append_of_extends hmemory
          hbefore.of_append hextends).mp hbefore
        rw [segmentRegions_of_pages hnonempty hpage] at hregion
        have hmember := List.mem_singleton_self
          (loadedRegion options data segment address base size)
        obtain ⟨hpositive, -, hbounded⟩ := hregion.mappable _ hmember
        have hbudget := hregion.budget
        have hmap : succeeded (map base size
            (initialPermissions options segment) (segmentName segment)
              last) = true := by
          rw [hextends.wellFormed.map_succeeded_iff]
          refine ⟨fun hzero => ?_, hbounded, ?_, hregion.free _ hmember⟩
          · subst hzero
            exact absurd hpositive (lt_irrefl 0)
          · rwa [totalSize_cons, totalSize_nil, Nat.add_zero] at hbudget
        obtain ⟨_, middle, hmap⟩ := succeeded_iff.mp hmap
        rw [loadSegment_after_map hextends.wellFormed hdata
          (hsegments segment (by simp)) hpage hmap] at hfails
        contradiction

/-- What a segment stores: zeros over its pages, then its file bytes. -/
def segmentStores (limits : Limits) (data : Bytes) (bias : UInt64)
    (segment : Segment) : List (ℕ × Bytes) :=
  if segment.memorySize = 0 then []
  else
    match segmentPages limits bias segment with
    | .error _ => []
    | .ok (address, base, size) =>
        [(base.toNat, List.replicate size.toNat 0),
          (address.toNat,
            slice data segment.fileOffset.toNat segment.fileSize.toNat)]

theorem storeAll_segment {segment : Segment}
    (hsegment : BinaryValidator.SegmentValid data segment)
    (contents : CellMemory UInt8) :
    contents.storeAll ((segmentRegions limits options data bias
        [segment]).map MemoryRegion.cells) =
      contents.storeAll (segmentStores limits data bias segment) := by
  unfold segmentStores
  by_cases hempty : segment.memorySize = 0
  · rw [segmentRegions_of_empty hempty, if_pos hempty]
    rfl
  rw [if_neg hempty]
  cases hpages : segmentPages limits bias segment with
  | error why =>
      have hnone : segmentRegion limits options data bias segment = none := by
        rw [segmentRegion, if_neg hempty, hpages]
      rw [segmentRegions, List.filterMap_cons_none hnone]
      rfl
  | ok pages =>
      obtain ⟨address, base, size⟩ := pages
      have hplace := segmentPages_ok hpages
      have hlength := slice_segment_length hsegment
      have hfits := UInt64.le_iff_toNat_le.mp hsegment.size
      have hlow := hplace.base_le
      have hhigh := hplace.end_le
      have hoffset : (address - base).toNat = address.toNat - base.toNat :=
        UInt64.toNat_sub_of_le _ _ (UInt64.le_iff_toNat_le.mpr hlow)
      have hroom : (address - base).toNat + (slice data
          segment.fileOffset.toNat segment.fileSize.toNat).length ≤
            (List.replicate size.toNat (0 : UInt8)).length := by
        rw [hoffset, hlength, List.length_replicate]
        omega
      have hplaced : base.toNat + (address - base).toNat = address.toNat := by
        omega
      have hstep := @CellMemory.store_splice _ contents base.toNat _ _ _ hroom
      rw [hplaced] at hstep
      rw [segmentRegions_of_pages hempty hpages]
      exact hstep.symm

theorem storeAll_segments {segments : List Segment}
    (hsegments : ∀ segment ∈ segments,
      BinaryValidator.SegmentValid data segment)
    (contents : CellMemory UInt8) :
    contents.storeAll ((segmentRegions limits options data bias
        segments).map MemoryRegion.cells) =
      contents.storeAll
        (segments.flatMap (segmentStores limits data bias)) := by
  induction segments generalizing contents with
  | nil => rfl
  | cons segment segments ih =>
      obtain ⟨hsegment, hrest⟩ := List.forall_mem_cons.mp hsegments
      have hsplit : segmentRegions limits options data bias
          (segment :: segments) =
            segmentRegions limits options data bias [segment] ++
              segmentRegions limits options data bias segments :=
        segmentRegions_append [segment] segments
      rw [hsplit, List.map_append, CellMemory.storeAll_append,
        List.flatMap_cons, CellMemory.storeAll_append,
        storeAll_segment hsegment, ih hrest]

/-! ## The whole load -/

/-- The stores of the relocations, if they are to be applied. -/
def relocationStores (image : BinaryImage) (options : LoadOptions)
    (resolver : Option SymbolResolver) : Except Failure (List Store) :=
  if options.applyRelocations then
    image.relocations.mapM (RelocationProcessor.storeOf image
      (loadBias image options) resolver)
  else .ok []

/-- The words written to the import slots, if these are to be bound. -/
def importStores (image : BinaryImage) (options : LoadOptions)
    (resolver : Option SymbolResolver) : Except Failure (List Store) :=
  if options.resolveImports then
    (image.imports.mapM (slotOf image (loadBias image options) resolver)).map
      List.reduceOption
  else .ok []

theorem relocateStage_eq_stores {applied : UInt32}
    (hcount : image.relocations.length ≤ limits.maxRelocations.toNat) :
    relocateStage limits image options resolver memory = .ok applied next ↔
      ∃ stores, relocationStores image options resolver = .ok stores ∧
        Stored stores memory next ∧ applied.toNat = stores.length := by
  unfold relocateStage relocationStores
  have hlimit := limits.maxRelocations.toNat_lt
  by_cases henabled : options.applyRelocations = true
  · simp only [if_pos henabled]
    rw [RelocationProcessor.apply, rejectIf_bind_of_not (not_lt.mpr hcount),
      RelocationProcessor.applyAll_eq_stores]
    refine exists_congr fun stores => and_congr_right fun hstores =>
      and_congr_right fun _ => ?_
    have hlength := (mapM_eq_ok.mp hstores).length_eq
    rw [← UInt32.toNat_inj, UInt32.toNat_ofNat_of_lt' (by
      show stores.length < 2 ^ 32
      omega)]
  · simp only [if_neg henabled, pure_eq_ok, Except.ok.injEq]
    constructor
    · rintro ⟨rfl, rfl⟩
      exact ⟨[], rfl, .nil _, rfl⟩
    · rintro ⟨stores, rfl, hstored, happlied⟩
      cases hstored
      exact ⟨(UInt32.toNat_inj.mp happlied).symm, rfl⟩

theorem importStage_eq_stores {resolved : UInt32} :
    importStage image options resolver memory = .ok resolved next ↔
      ∃ stores, importStores image options resolver = .ok stores ∧
        Stored stores memory next ∧
        resolved = UInt32.ofNat stores.length := by
  unfold importStage importStores
  by_cases henabled : options.resolveImports = true
  · simp only [if_pos henabled]
    rw [bindImports_eq_slots]
    cases image.imports.mapM (slotOf image (loadBias image options) resolver)
    · simp [Except.map]
    · simp [Except.map]
  · simp only [if_neg henabled, pure_eq_ok, Except.ok.injEq]
    constructor
    · rintro ⟨rfl, rfl⟩
      exact ⟨[], rfl, .nil _, rfl⟩
    · rintro ⟨stores, rfl, hstored, rfl⟩
      cases hstored
      exact ⟨rfl, rfl⟩

/-- What a load asks for: an image the validator accepts, segments that fit
beside the old regions and into the budget, relocations and imports that can be
computed and fall into one region each, and an entry point in range. -/
structure Loads (limits : Limits) (image : BinaryImage) (options : LoadOptions)
    (resolver : Option SymbolResolver) (memory : AddressSpace) (data : Bytes)
    (relocated bound : List Store) (entry : UInt64) : Prop where
  file : image.fileData = some data
  valid : BinaryValidator.Valid limits image data
  pages : HavePages limits (loadBias image options) image.segments
  regions : Addable memory (segmentRegions limits options data
    (loadBias image options) image.segments)
  relocations : relocationStores image options resolver = .ok relocated
  imports : importStores image options resolver = .ok bound
  mapped : AllMapped (memory.withRegions (segmentRegions limits options data
    (loadBias image options) image.segments)) (relocated ++ bound)
  entry : entryPoint image (loadBias image options) = .ok entry

/-- What a load does: the segments' regions are added, and the contents are the
old ones with segments, relocations and imports stored in this order. -/
structure Loaded (limits : Limits) (image : BinaryImage) (options : LoadOptions)
    (memory : AddressSpace) (data : Bytes) (relocated bound : List Store)
    (entry : UInt64) (result : LoadResult) (next : AddressSpace) : Prop where
  wellFormed : next.WellFormed
  frame : SameFrame (memory.withRegions (segmentRegions limits options data
    (loadBias image options) image.segments)) next
  contents : next.contents = ((memory.contents.storeAll
      (image.segments.flatMap
        (segmentStores limits data (loadBias image options)))).storeAll
      (relocated.map Store.cells)).storeAll (bound.map Store.cells)
  result : result =
    { loadBase := loadBase image options
      entryPoint := entry
      mappedBytes := UInt64.ofNat (totalSize (segmentRegions limits options data
        (loadBias image options) image.segments))
      relocationsApplied := UInt32.ofNat relocated.length
      importsResolved := UInt32.ofNat bound.length }

theorem load_of_stages {mapped entry : UInt64} {applied resolved : UInt32}
    {middle second : AddressSpace}
    (hvalid : (BinaryValidator.validate limits image).valid = true)
    (hsegments : loadSegments limits image options (loadBias image options)
      image.segments memory = .ok mapped middle)
    (hrelocate : relocateStage limits image options resolver middle =
      .ok applied second)
    (hbind : importStage image options resolver second = .ok resolved next)
    (hentry : entryPoint image (loadBias image options) = .ok entry) :
    load limits image options resolver memory =
      .ok { loadBase := loadBase image options, entryPoint := entry,
            mappedBytes := mapped, relocationsApplied := applied,
            importsResolved := resolved } next := by
  unfold load
  rw [rejectIf_bind_of_not (by simp [hvalid]), bind_of_ok hsegments,
    bind_of_ok hrelocate, bind_of_ok hbind, liftExcept_bind_of_ok hentry]
  rfl

/-- The stages of a load that went through, as regions and stores. -/
theorem loaded_of_load {result : LoadResult} (hmemory : memory.WellFormed)
    (hrun : load limits image options resolver memory = .ok result next) :
    ∃ data relocated bound entry,
      Loads limits image options resolver memory data relocated bound entry ∧
        Loaded limits image options memory data relocated bound entry result
          next := by
  obtain ⟨hvalid, middle, second, hsegments, hrelocate, hbind, hentry⟩ :=
    load_eq_ok hrun
  obtain ⟨data, hdata, hvalid⟩ := BinaryValidator.validate_valid_iff.mp hvalid
  obtain ⟨hpages, haddable, hmiddle, hmapped⟩ :=
    (loadSegments_eq_regions hmemory hdata hvalid.segments).mp hsegments
  obtain ⟨relocated, hrelocations, hfirst, happlied⟩ :=
    (relocateStage_eq_stores hvalid.relocationCount).mp hrelocate
  obtain ⟨bound, himports, hlast, hresolved⟩ := importStage_eq_stores.mp hbind
  have hwell := (haddable.extends hmemory).wellFormed
  rw [hmiddle] at hfirst
  obtain ⟨hsecond, hframe, hcontents⟩ := hfirst.meaning hwell
  obtain ⟨hnext, hsame, hfinal⟩ := hlast.meaning hsecond
  refine ⟨data, relocated, bound, result.entryPoint, ⟨hdata, hvalid, hpages,
    haddable, hrelocations, himports,
    (exists_stored_iff hwell).mp ⟨next, hfirst.append hlast⟩, hentry⟩,
    hnext, hframe.trans hsame, ?_, ?_⟩
  · rw [hfinal, hcontents, contents_withRegions hmemory haddable,
      storeAll_segments hvalid.segments]
  · unfold load at hrun
    obtain ⟨_, hrun⟩ := rejectIf_bind_eq_ok.mp hrun
    rw [bind_of_ok hsegments, bind_of_ok hrelocate, bind_of_ok hbind,
      liftExcept_bind_of_ok hentry, pure_eq_ok] at hrun
    rw [← hrun.1, ← hmapped, ← happlied, hresolved]
    simp

theorem relocationStores_length {relocated : List Store}
    (hrelocations : relocationStores image options resolver = .ok relocated) :
    relocated.length ≤ image.relocations.length := by
  unfold relocationStores at hrelocations
  by_cases henabled : options.applyRelocations = true
  · rw [if_pos henabled, mapM_eq_ok] at hrelocations
    exact hrelocations.length_eq.symm.le
  · rw [if_neg henabled] at hrelocations
    obtain rfl := Except.ok.inj hrelocations
    exact Nat.zero_le _

/-- A load that gets what it asks for goes through. -/
theorem load_of_loads {relocated bound : List Store} {entry : UInt64}
    (hmemory : memory.WellFormed)
    (hloads : Loads limits image options resolver memory data relocated bound
      entry) :
    ∃ result next, load limits image options resolver memory = .ok result next ∧
      Loaded limits image options memory data relocated bound entry result
        next := by
  obtain ⟨hdata, hvalid, hpages, haddable, hrelocations, himports, hmapped,
    hentry⟩ := hloads
  have hlimit := memory.limits.maxMappedBytes.toNat_lt
  have hbudget := haddable.budget
  have htotal : totalSize (segmentRegions limits options data
      (loadBias image options) image.segments) < 2 ^ 64 := by omega
  have hsegments := (loadSegments_eq_regions hmemory hdata hvalid.segments).mpr
    ⟨hpages, haddable, rfl, UInt64.toNat_ofNat_of_lt' htotal⟩
  have hwell := (haddable.extends hmemory).wellFormed
  obtain ⟨last, hall⟩ := (exists_stored_iff hwell).mpr hmapped
  obtain ⟨second, hfirst, hlast⟩ := hall.split
  have hcount : relocated.length < 2 ^ 32 := by
    have hlength := relocationStores_length hrelocations
    have hallowed := hvalid.relocationCount
    have hsmall := limits.maxRelocations.toNat_lt
    omega
  obtain ⟨hsecond, hframe, hcontents⟩ := hfirst.meaning hwell
  obtain ⟨hnext, hsame, hfinal⟩ := hlast.meaning hsecond
  refine ⟨_, last, load_of_stages
    (BinaryValidator.validate_valid_iff.mpr ⟨data, hdata, hvalid⟩) hsegments
    ((relocateStage_eq_stores hvalid.relocationCount).mpr
      ⟨relocated, hrelocations, hfirst, UInt32.toNat_ofNat_of_lt' hcount⟩)
    (importStage_eq_stores.mpr ⟨bound, himports, hlast, rfl⟩) hentry,
    hnext, hframe.trans hsame, ?_, rfl⟩
  rw [hfinal, hcontents, contents_withRegions hmemory haddable,
    storeAll_segments hvalid.segments]

theorem Loaded.unique {relocated bound : List Store} {entry : UInt64}
    {result other : LoadResult} {last : AddressSpace}
    (hnext : Loaded limits image options memory data relocated bound entry
      result next)
    (hlast : Loaded limits image options memory data relocated bound entry
      other last) : result = other ∧ next = last :=
  ⟨hnext.result.trans hlast.result.symm,
    eq_of_frame_of_contents hnext.wellFormed hlast.wellFormed
      (hnext.frame.symm.trans hlast.frame)
      (hnext.contents.trans hlast.contents.symm)⟩

/-- A load goes through exactly when it gets what it asks for, and then does
exactly what it is for. -/
theorem load_exact {result : LoadResult} (hmemory : memory.Reachable) :
    load limits image options resolver memory = .ok result next ↔
      ∃ data relocated bound entry,
        Loads limits image options resolver memory data relocated bound entry ∧
          Loaded limits image options memory data relocated bound entry result
            next := by
  refine ⟨loaded_of_load hmemory.wellFormed, ?_⟩
  rintro ⟨data, relocated, bound, entry, hloads, hloaded⟩
  obtain ⟨other, last, hrun, hlast⟩ := load_of_loads hmemory.wellFormed hloads
  obtain ⟨rfl, rfl⟩ := hloaded.unique hlast
  exact hrun

/-- A segment with a relocated pointer and a slot for an imported address. -/
theorem load_exact_pointer_and_slot :
    let image : BinaryImage :=
      { fileData := some [1, 2, 3, 4]
        segments := [{ index := 0, fileSize := 4, virtualAddress := 0x1000,
                       memorySize := 32 }]
        relocations := [{ kind := .relative64, offset := 0x1008 }]
        imports := [{ name := ascii "puts", slotAddress := 0x1010 }] }
    let options : LoadOptions := { preferredBase := 0x3000 }
    let resolver : SymbolResolver :=
      { named := [(([], ascii "puts"), 0x7000)] }
    ∃ result next data relocated bound entry,
      load { pageSize := 16 } image options resolver (new {}) =
          .ok result next ∧
        Loads { pageSize := 16 } image options resolver (new {}) data relocated
          bound entry ∧
        Loaded { pageSize := 16 } image options (new {}) data relocated bound
          entry result next := by
  intro image options resolver
  obtain ⟨result, next, hrun⟩ := succeeded_iff.mp (by decide +kernel :
    succeeded (load { pageSize := 16 } image options resolver (new {})) = true)
  obtain ⟨data, relocated, bound, entry, hloads, hloaded⟩ :=
    (load_exact ⟨{}, [], rfl⟩).mp hrun
  exact ⟨result, next, data, relocated, bound, entry, hrun, hloads, hloaded⟩

end BinaryLoader

end BinForge
