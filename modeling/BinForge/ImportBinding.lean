import BinForge.ImportedSymbols
import BinForge.MemoryHistory
import BinForge.MemoryLaws
import BinForge.RelocationOrder

/-!
# What the import loop binds

`load` comes to an import when all steps before it succeed.  What the resolver
answers then decides everything: the ordinal of a by-name import is asked when
its name is unknown, and the address goes into a slot of one machine word, cut
to the width of the slot.
-/

namespace BinForge

open StatefulExcept
open AddressSpace
open SymbolResolver
open Checklist

namespace BinaryLoader

variable {limits : Limits} {image : BinaryImage} {options : LoadOptions}
  {bias : UInt64} {resolver : Option SymbolResolver}
  {memory state next : AddressSpace} {imported : Import}
  {done rest : List Import}

/-! ## One import -/

theorem bindImport_eq_ok {count : UInt32} :
    bindImport image bias resolver imported state = .ok count next ↔
      (resolveImport resolver imported = .ok none ∧ count = 0 ∧
          next = state) ∨
        ∃ address slot,
          resolveImport resolver imported = .ok (some address) ∧
          checkedAdd imported.slotAddress bias = some slot ∧
          writeInteger slot image.header.wordSize.toByte
            image.header.byteOrder address true state = .ok () next ∧
          count = 1 := by
  unfold bindImport
  rw [liftExcept_bind_eq_ok]
  constructor
  · rintro ⟨target, htarget, hrun⟩
    cases target with
    | none =>
        dsimp only at hrun
        rw [pure_eq_ok] at hrun
        exact Or.inl ⟨htarget, hrun.1.symm, hrun.2.symm⟩
    | some address =>
        obtain ⟨slot, hslot, hrun⟩ := demand_bind_eq_ok.mp hrun
        obtain ⟨value, middle, hwrite, hreturn⟩ := bind_eq_ok.mp hrun
        rw [pure_eq_ok] at hreturn
        obtain ⟨rfl, rfl⟩ := hreturn
        exact Or.inr ⟨address, slot, htarget, hslot, hwrite, rfl⟩
  · rintro (⟨htarget, rfl, rfl⟩ | ⟨address, slot, htarget, hslot, hwrite, rfl⟩)
    · exact ⟨none, htarget, rfl⟩
    · refine ⟨some address, htarget, demand_bind_eq_ok.mpr ⟨slot, hslot, ?_⟩⟩
      exact bind_eq_ok.mpr ⟨(), next, hwrite, rfl⟩

/-- What happens to an import that has an address. -/
theorem bindImport_of_resolved {address : UInt64}
    (haddress : resolveImport resolver imported = .ok (some address)) :
    bindImport image bias resolver imported state =
      (do
        let slot ← demand (checkedAdd imported.slotAddress bias) Failure.silent
        writeInteger slot image.header.wordSize.toByte image.header.byteOrder
          address true
        return 1 : MemoryCall UInt32) state :=
  liftExcept_bind_of_ok haddress state

/-- An import with an address is not refused as unresolved. -/
theorem bindImport_other {address : UInt64} {why : Failure}
    (haddress : resolveImport resolver imported = .ok (some address))
    (hrun : bindImport image bias resolver imported state = .error why next) :
    ¬why.IsUnresolved := by
  rw [bindImport_of_resolved haddress] at hrun
  refine (Reported.demand other_silent).bind (fun slot _ _ => ?_) why
    (evaluate_of_error hrun)
  exact (writeInteger_other _ _ _ _ _).bind fun _ _ _ => Reported.pure _

/-! ## The imports a load comes to -/

/-- `load` comes to the import behind `done`, with this memory. -/
structure ComesTo (limits : Limits) (image : BinaryImage)
    (options : LoadOptions) (resolver : Option SymbolResolver)
    (memory : AddressSpace) (done : List Import) (state : AddressSpace) :
    Prop where
  valid : (BinaryValidator.validate limits image).valid = true
  enabled : options.resolveImports = true
  reached : ∃ mapped relocated count first second,
    loadSegments limits image options (loadBias image options) image.segments
      memory = .ok mapped first ∧
    relocateStage limits image options resolver first =
      .ok relocated second ∧
    bindImports image (loadBias image options) resolver done second =
      .ok count state

/-- What stops the import stops the load. -/
theorem ComesTo.load_error {why : Failure}
    (hcomes : ComesTo limits image options resolver memory done state)
    (himports : image.imports = done ++ imported :: rest)
    (hrun : bindImport image (loadBias image options) resolver imported state =
      .error why next) :
    load limits image options resolver memory = .error why next := by
  obtain ⟨hvalid, henabled, mapped, relocated, count, first, second, hsegments,
    hrelocate, hbind⟩ := hcomes
  have hstage : importStage image options resolver second =
      .error why next := by
    unfold importStage
    rw [if_pos henabled, himports, bindImports, List.foldlM_append]
    refine (bind_of_ok hbind).trans ?_
    rw [List.foldlM_cons]
    exact bind_eq_error.mpr (Or.inl (bind_eq_error.mpr (Or.inl hrun)))
  unfold load
  rw [rejectIf_bind_of_not (by rw [hvalid]; decide), bind_of_ok hsegments,
    bind_of_ok hrelocate]
  exact bind_eq_error.mpr (Or.inl hstage)

/-- A load that succeeds has come to every import and has got past it. -/
theorem comesTo_of_load {result : LoadResult}
    (hrun : load limits image options resolver memory = .ok result next)
    (henabled : options.resolveImports = true)
    (himports : image.imports = done ++ imported :: rest) :
    ∃ state count total after,
      ComesTo limits image options resolver memory done state ∧
        bindImport image (loadBias image options) resolver imported state =
          .ok count after ∧
        (rest.foldlM (fun resolved imported => do
          let count ← bindImport image (loadBias image options) resolver imported
          return resolved + count) total : MemoryCall UInt32) after =
            .ok result.importsResolved next := by
  obtain ⟨hvalid, first, second, hsegments, hrelocate, hbind, -⟩ :=
    load_eq_ok hrun
  rw [importStage, if_pos henabled, himports, bindImports, List.foldlM_append]
    at hbind
  obtain ⟨before, state, hdone, hbind⟩ := bind_eq_ok.mp hbind
  rw [List.foldlM_cons] at hbind
  obtain ⟨total, after, hstep, hrest⟩ := bind_eq_ok.mp hbind
  obtain ⟨count, middle, hone, hreturn⟩ := bind_eq_ok.mp hstep
  rw [pure_eq_ok] at hreturn
  obtain ⟨rfl, rfl⟩ := hreturn
  exact ⟨state, count, _, middle, ⟨hvalid, henabled, _, _, _, _, _, hsegments,
    hrelocate, hdone⟩, hone, hrest⟩

/-! ## The memory at an import -/

theorem relocateStage_wellFormed {count : UInt32}
    (hmemory : memory.WellFormed)
    (hrun : relocateStage limits image options resolver memory =
      .ok count next) : next.WellFormed := by
  unfold relocateStage at hrun
  by_cases henabled : options.applyRelocations = true
  · rw [if_pos henabled] at hrun
    have happly := (rejectIf_bind_eq_ok.mp hrun).2
    have hkept : memory.WellFormed → next.WellFormed :=
      tally_ok_related (fun before after =>
        before.WellFormed → after.WellFormed) happly id
        (fun hfirst hsecond hbefore => hsecond (hfirst hbefore))
        fun hone hbefore => by
          obtain ⟨target, input, -, hwrite⟩ :=
            RelocationProcessor.applyOne_eq_ok.mp hone
          exact write_ok_wellFormed hbefore hwrite
    exact hkept hmemory
  · rw [if_neg henabled, pure_eq_ok] at hrun
    exact hrun.2 ▸ hmemory

theorem bindImport_wellFormed {count : UInt32} (hstate : state.WellFormed)
    (hrun : bindImport image bias resolver imported state = .ok count next) :
    next.WellFormed := by
  rcases bindImport_eq_ok.mp hrun with
    ⟨-, -, rfl⟩ | ⟨address, slot, -, -, hwrite, -⟩
  · exact hstate
  · exact write_ok_wellFormed hstate (writeInteger_ok_write.mp hwrite).2

theorem ComesTo.wellFormed (hmemory : memory.WellFormed)
    (hcomes : ComesTo limits image options resolver memory done state) :
    state.WellFormed := by
  obtain ⟨hvalid, -, mapped, relocated, count, first, second, hsegments,
    hrelocate, hbind⟩ := hcomes
  obtain ⟨data, hdata, hchecked⟩ :=
    BinaryValidator.validate_valid_iff.mp hvalid
  have hfirst := (loadSegments_ok hmemory hdata hchecked.segments
    hsegments).1.wellFormed
  have hsecond := relocateStage_wellFormed hfirst hrelocate
  have hkept : second.WellFormed → state.WellFormed :=
    tally_ok_related (fun before after =>
      before.WellFormed → after.WellFormed) hbind id
      (fun hfirst hsecond hbefore => hsecond (hfirst hbefore))
      fun hone hbefore => bindImport_wellFormed hbefore hone
  exact hkept hsecond

/-- The slot lies in one mapping after the bias. -/
def SlotWritable (image : BinaryImage) (bias : UInt64) (imported : Import)
    (state : AddressSpace) : Prop :=
  ∃ slot, checkedAdd imported.slotAddress bias = some slot ∧
    Mapped state slot image.header.wordSize.toByte.toNat

theorem integerWidth_wordSize (size : WordSize) :
    integerWidth size.toByte = true := by
  cases size <;> rfl

theorem slotWritable_iff {address : UInt64} (hstate : state.WellFormed)
    (haddress : resolveImport resolver imported = .ok (some address)) :
    SlotWritable image bias imported state ↔
      ∃ next, bindImport image bias resolver imported state = .ok 1 next := by
  have hwidth := integerWidth_wordSize image.header.wordSize
  have hlength := integerBytes_length image.header.byteOrder
    image.header.wordSize.toByte address
  constructor
  · rintro ⟨slot, hslot, hmapped⟩
    obtain ⟨next, hwrite⟩ := write_mapped hstate
      (integerBytes image.header.byteOrder image.header.wordSize.toByte address)
      (by rwa [hlength])
    exact ⟨next, bindImport_eq_ok.mpr (Or.inr ⟨address, slot, haddress, hslot,
      writeInteger_ok_write.mpr ⟨hwidth, hwrite⟩, rfl⟩)⟩
  · rintro ⟨next, hrun⟩
    rcases bindImport_eq_ok.mp hrun with
      ⟨-, hzero, -⟩ | ⟨found, slot, -, hslot, hwrite, -⟩
    · contradiction
    · have hmapped := mapped_of_write (fun hnil => by
        have hlength := integerBytes_length image.header.byteOrder
          image.header.wordSize.toByte found
        rw [hnil] at hlength
        exact integerWidth_ne_zero hwidth hlength.symm)
        (writeInteger_ok_write.mp hwrite).2
      rw [integerBytes_length] at hmapped
      exact ⟨slot, hslot, hmapped⟩

/-! ## By-name imports -/

/-- A by-name import the load has come to gets the address of the export of
that name; without one the load stops as unresolved, unless it is weak. -/
structure BoundByName (limits : Limits) (image : BinaryImage)
    (options : LoadOptions) (history : Option (List Call))
    (memory : AddressSpace) (imported : Import) (state : AddressSpace) :
    Prop where
  bound : ∀ next,
    bindImport image (loadBias image options) (history.map ofCalls) imported
        state = .ok 1 next →
      ∃ calls address slot, history = some calls ∧
        ExportsName calls imported.library imported.name address ∧
        checkedAdd imported.slotAddress (loadBias image options) =
          some slot ∧
        writeInteger slot image.header.wordSize.toByte
          image.header.byteOrder address true state = .ok () next
  unresolved : imported.weak = false →
    (∀ calls, history = some calls → ∀ address,
      ¬ExportsName calls imported.library imported.name address) →
    ∃ why, load limits image options (history.map ofCalls) memory =
      .error why state ∧ why.IsUnresolved

/-- The resolver has the name, or has nothing under the import's ordinal. -/
def NameDecides (history : Option (List Call)) (imported : Import) : Prop :=
  ∀ calls, history = some calls →
    (∃ address,
        ExportsName calls imported.library imported.name address) ∨
      ∀ address,
        ¬ExportsOrdinal calls imported.library imported.ordinal address

/-- Where the resolver has no answer, the import is skipped or refused. -/
theorem boundByName_of_unanswered {history : Option (List Call)}
    (hcomes : ComesTo limits image options (history.map ofCalls) memory done state)
    (himports : image.imports = done ++ imported :: rest)
    (hanswer : ∀ calls, history = some calls →
      (ofCalls calls).resolve imported.library imported.name
        imported.ordinal = none) :
    BoundByName limits image options history memory imported state := by
  have hresolve : ∃ message, resolveImport (history.map ofCalls) imported =
      if imported.weak then .ok none
      else .error (failure .unresolvedImport imported.slotAddress message) := by
    cases history with
    | none => exact ⟨_, rfl⟩
    | some calls =>
        refine ⟨ascii "unresolved import: " ++ imported.name, ?_⟩
        simp only [Option.map_some, resolveImport, hanswer calls rfl]
  obtain ⟨message, hresolve⟩ := hresolve
  constructor
  · intro next hrun
    rcases bindImport_eq_ok.mp hrun with
      ⟨-, hzero, -⟩ | ⟨address, -, haddress, -⟩
    · contradiction
    · rw [hresolve] at haddress
      split at haddress <;> simp at haddress
  · intro hstrong _
    rw [hstrong, if_neg Bool.false_ne_true] at hresolve
    exact ⟨failure .unresolvedImport imported.slotAddress message,
      hcomes.load_error himports (liftExcept_bind_of_error hresolve state), rfl⟩

/-- An import found under its name is bound to that export. -/
theorem boundByName_of_named {calls : List Call} {address : UInt64}
    (haddress : resolveImport (some (ofCalls calls)) imported =
      .ok (some address))
    (hnamed : ExportsName calls imported.library imported.name address) :
    BoundByName limits image options (some calls) memory imported state := by
  constructor
  · intro next hrun
    rcases bindImport_eq_ok.mp hrun with
      ⟨-, hzero, -⟩ | ⟨found, slot, hfound, hslot, hwrite, -⟩
    · contradiction
    · rw [Option.map_some, haddress] at hfound
      obtain rfl := Option.some.inj (Except.ok.inj hfound)
      exact ⟨calls, address, slot, rfl, hnamed, hslot, hwrite⟩
  · intro _ hunnamed
    exact absurd hnamed (hunnamed calls rfl address)

/-- An import that has an address and cannot be bound stops the load for
another reason. -/
theorem ComesTo.not_unresolved {address : UInt64} {why : Failure}
    {last : AddressSpace}
    (hcomes : ComesTo limits image options resolver memory done state)
    (himports : image.imports = done ++ imported :: rest)
    (haddress : resolveImport resolver imported = .ok (some address))
    (hstuck : ¬∃ next, bindImport image (loadBias image options) resolver
      imported state = .ok 1 next)
    (hload : load limits image options resolver memory = .error why last) :
    ¬why.IsUnresolved := by
  cases hrun : bindImport image (loadBias image options) resolver imported
      state with
  | ok count next =>
      rcases bindImport_eq_ok.mp hrun with
        ⟨hnone, -⟩ | ⟨_, _, _, _, _, rfl⟩
      · rw [haddress] at hnone
        exact absurd (Except.ok.inj hnone) (Option.some_ne_none address)
      · exact absurd ⟨next, hrun⟩ hstuck
  | error other next =>
      rw [hcomes.load_error himports hrun] at hload
      obtain ⟨rfl, -⟩ := EStateM.Result.error.inj hload
      exact bindImport_other haddress hrun

/-- An import that only its ordinal finds must be weak and stay unbound. -/
theorem boundByName_unnamed_iff {calls : List Call} {address : UInt64}
    (hcomes : ComesTo limits image options (some (ofCalls calls)) memory done
      state)
    (himports : image.imports = done ++ imported :: rest)
    (haddress : resolveImport (some (ofCalls calls)) imported =
      .ok (some address))
    (hunnamed : ∀ other,
      ¬ExportsName calls imported.library imported.name other) :
    BoundByName limits image options (some calls) memory imported state ↔
      imported.weak = true ∧
        ¬∃ next, bindImport image (loadBias image options)
          (some (ofCalls calls)) imported state = .ok 1 next := by
  constructor
  · rintro ⟨hbound, hunresolved⟩
    have hstuck : ¬∃ next, bindImport image (loadBias image options)
        (some (ofCalls calls)) imported state = .ok 1 next := by
      rintro ⟨next, hrun⟩
      obtain ⟨_, other, _, hhistory, hnamed, -⟩ := hbound next hrun
      exact hunnamed other (Option.some.inj hhistory ▸ hnamed)
    refine ⟨?_, hstuck⟩
    by_contra hstrong
    obtain ⟨why, hload, hwhy⟩ := hunresolved (Bool.not_eq_true _ ▸ hstrong)
      fun _ hhistory => Option.some.inj hhistory ▸ hunnamed
    exact hcomes.not_unresolved himports haddress hstuck hload hwhy
  · rintro ⟨hweak, hstuck⟩
    constructor
    · intro next hrun
      exact absurd ⟨next, hrun⟩ hstuck
    · intro hstrong
      rw [hweak] at hstrong
      contradiction

/-- A by-name import is served by its name exactly where the name decides, or
the import is weak and its slot cannot be written. -/
theorem load_by_name_iff {history : Option (List Call)}
    (hmemory : memory.Reachable)
    (hcomes : ComesTo limits image options (history.map ofCalls) memory done state)
    (himports : image.imports = done ++ imported :: rest) :
    BoundByName limits image options history memory imported state ↔
      NameDecides history imported ∨
        imported.weak = true ∧
          ¬SlotWritable image (loadBias image options) imported state := by
  by_cases hanswer : ∀ calls, history = some calls →
      (ofCalls calls).resolve imported.library imported.name
        imported.ordinal = none
  · refine iff_of_true (boundByName_of_unanswered hcomes himports hanswer)
      (Or.inl fun calls hhistory => Or.inr ?_)
    exact (resolve_eq_none.mp (hanswer calls hhistory)).2
  push Not at hanswer
  obtain ⟨calls, rfl, hanswer⟩ := hanswer
  obtain ⟨address, hanswer⟩ := Option.ne_none_iff_exists'.mp hanswer
  have haddress : resolveImport ((some calls).map ofCalls) imported =
      .ok (some address) := by
    simp only [Option.map_some, resolveImport, hanswer]
  rcases resolve_eq_some.mp hanswer with hnamed | ⟨hunnamed, hordinal⟩
  · refine iff_of_true (boundByName_of_named haddress hnamed) (Or.inl ?_)
    intro _ hhistory
    exact Or.inl ⟨address, Option.some.inj hhistory ▸ hnamed⟩
  -- The ordinal has given the address, and no export has the name.
  have hundecided : ¬NameDecides (some calls) imported := by
    intro hdecides
    rcases hdecides calls rfl with ⟨other, hnamed⟩ | hfree
    · exact hunnamed other hnamed
    · exact hfree address hordinal
  rw [or_iff_right hundecided,
    slotWritable_iff (hcomes.wellFormed hmemory.wellFormed) haddress]
  exact boundByName_unnamed_iff hcomes himports haddress hunnamed

/-- One page with a slot for the import `f` of the library `l`, whose hint is
seven. -/
def hintedImport : Import :=
  { library := "l", name := "f", ordinal := 7, slotAddress := 0x1004 }

def hintedImage : BinaryImage :=
  { segments := [{ virtualAddress := 0x1000, memorySize := 16 }]
    imports := [hintedImport]
    fileData := some [] }

/-- The library's export `name`, with ordinal seven. -/
def exportSeven (name : Bytes) : Call :=
  .addExport ⟨"l", { name, address := 0x5000, ordinal := 7 }⟩

theorem hintedImage_loads (name : Bytes)
    (hload : succeeded (load { pageSize := 16 } hintedImage {}
      (some (ofCalls [exportSeven name])) (AddressSpace.new {})) = true) :
    ∃ state count after,
      ComesTo { pageSize := 16 } hintedImage {}
        (some (ofCalls [exportSeven name])) (AddressSpace.new {}) [] state ∧
      bindImport hintedImage (loadBias hintedImage {})
        (some (ofCalls [exportSeven name])) hintedImport state =
          .ok count after := by
  obtain ⟨result, next, hrun⟩ := succeeded_iff.mp hload
  obtain ⟨state, count, _, after, hcomes, hbind, -⟩ := comesTo_of_load hrun rfl
    (show hintedImage.imports = [] ++ hintedImport :: [] from rfl)
  exact ⟨state, count, after, hcomes, hbind⟩

theorem load_by_name_iff_exported :
    ∃ state, BoundByName { pageSize := 16 } hintedImage {}
      (some [exportSeven "f"]) (AddressSpace.new {}) hintedImport state := by
  obtain ⟨state, _, _, hcomes, -⟩ := hintedImage_loads "f" (by decide +kernel)
  refine ⟨state, (load_by_name_iff ⟨{}, [], rfl⟩ hcomes rfl).mpr
    (Or.inl fun calls hhistory => Or.inl ⟨0x5000, ?_⟩)⟩
  obtain rfl := Option.some.inj hhistory
  decide +kernel

/-- The hint selects an export of another name. -/
theorem load_binds_other_name :
    ¬∀ limits image options history memory done imported rest state,
      memory.Reachable →
        ComesTo limits image options (history.map ofCalls) memory done state →
          image.imports = done ++ imported :: rest → imported.name ≠ [] →
            BoundByName limits image options history memory imported
              state := by
  intro hall
  obtain ⟨state, count, after, hcomes, hbind⟩ :=
    hintedImage_loads "g" (by decide +kernel)
  have hbound := (hall { pageSize := 16 } hintedImage {}
    (some [exportSeven "g"]) (AddressSpace.new {}) [] hintedImport [] state
    ⟨{}, [], rfl⟩ hcomes rfl (by decide)).bound
  rcases bindImport_eq_ok.mp hbind with
    ⟨hnone, -⟩ | ⟨_, _, _, _, _, rfl⟩
  · have hsome : resolveImport (some (ofCalls [exportSeven "g"])) hintedImport =
        .ok (some 0x5000) := by decide +kernel
    rw [hsome] at hnone
    exact Option.some_ne_none _ (Except.ok.inj hnone)
  · obtain ⟨calls, _, _, hhistory, ⟨offer, hheld, -, -, hname, -⟩, -⟩ :=
      hbound after hbind
    obtain rfl := Option.some.inj hhistory
    exact (by decide +kernel : ∀ offer ∈ held [exportSeven "g"],
      offer.symbol.name ≠ hintedImport.name) offer hheld hname

end BinaryLoader
end BinForge
