import BinForge.LastWrite
import BinForge.PeImports
import BinForge.RelatedLists

/-!
# Exports parsed into a used vector

What `parse_exports` writes is read off the image alone.  It does not clear the
vector first, so a name, or the two fields of a forwarder, that nothing writes
is the one of the symbol that stood there before.
-/

namespace BinForge

open StatefulExcept
open ByteReader

namespace PeImportExportParser

/-! ## Writes -/

inductive ExportWrite
  | ofFunction (index : ℕ) (ordinal : UInt64) (function : ExportedFunction)
  | ofName (index : ℕ) (name : Bytes)
  deriving DecidableEq, Repr

namespace ExportWrite

def index : ExportWrite → ℕ
  | .ofFunction index _ _ => index
  | .ofName index _ => index

def change : ExportWrite → Export → Export
  | .ofFunction _ ordinal function => assignFunction ordinal function
  | .ofName _ name => fun symbol => { symbol with name }

def perform (exports : List Export) (write : ExportWrite) : List Export :=
  exports.modify write.index write.change

/-- The change to the symbol at an index, if it is this one. -/
def changeAt (index : ℕ) (symbol : Export) (write : ExportWrite) : Export :=
  if write.index = index then write.change symbol else symbol

/-! What a write puts into each field of the symbol at an index. -/

def nameAt (index : ℕ) : ExportWrite → Option Bytes
  | .ofName place name => if place = index then some name else none
  | .ofFunction _ _ _ => none

def addressAt (index : ℕ) : ExportWrite → Option (UInt64 × UInt64)
  | .ofFunction place ordinal function =>
      if place = index then some (ordinal, function.address) else none
  | .ofName _ _ => none

def forwardAt (index : ℕ) : ExportWrite → Option (Bool × Bytes)
  | .ofFunction place _ function =>
      if place = index then
        function.forwardTarget.map fun target => (true, target)
      else none
  | .ofName _ _ => none

variable (index : ℕ) (symbol : Export) (write : ExportWrite)

theorem changeAt_name : (changeAt index symbol write).name =
    (write.nameAt index).getD symbol.name := by
  cases write with
  | ofName place name =>
      by_cases hplace : place = index <;>
        simp [changeAt, ExportWrite.index, change, nameAt, hplace]
  | ofFunction place ordinal function =>
      cases hforward : function.forwardTarget <;>
        by_cases hplace : place = index <;>
          simp [changeAt, ExportWrite.index, change, nameAt, hplace,
            assignFunction, hforward]

theorem changeAt_address :
    ((changeAt index symbol write).ordinal,
        (changeAt index symbol write).address) =
      (write.addressAt index).getD (symbol.ordinal, symbol.address) := by
  cases write with
  | ofName place name =>
      by_cases hplace : place = index <;>
        simp [changeAt, ExportWrite.index, change, addressAt, hplace]
  | ofFunction place ordinal function =>
      cases hforward : function.forwardTarget <;>
        by_cases hplace : place = index <;>
          simp [changeAt, ExportWrite.index, change, addressAt, hplace,
            assignFunction, hforward]

theorem changeAt_forward :
    ((changeAt index symbol write).forwarded,
        (changeAt index symbol write).forwardTarget) =
      (write.forwardAt index).getD
        (symbol.forwarded, symbol.forwardTarget) := by
  cases write with
  | ofName place name =>
      by_cases hplace : place = index <;>
        simp [changeAt, ExportWrite.index, change, forwardAt, hplace]
  | ofFunction place ordinal function =>
      cases hforward : function.forwardTarget <;>
        by_cases hplace : place = index <;>
          simp [changeAt, ExportWrite.index, change, forwardAt, hplace,
            assignFunction, hforward]

end ExportWrite

/-! ## Plans -/

/-- The number of symbols and the writes to them. -/
structure ExportPlan where
  count : ℕ
  writes : List ExportWrite
  deriving DecidableEq, Repr

namespace ExportPlan

def apply (plan : ExportPlan) (exports : List Export) : List Export :=
  plan.writes.foldl ExportWrite.perform (resizeExports exports plan.count)

/-- Every symbol is assigned its address. -/
def Complete (plan : ExportPlan) : Prop :=
  ∀ index < plan.count, ∃ write ∈ plan.writes, write.addressAt index ≠ none

/-- Two symbols agree on what no write to their index puts there. -/
structure SameSymbol (writes : List ExportWrite) (index : ℕ)
    (first second : Export) : Prop where
  name : (∀ write ∈ writes, write.nameAt index = none) →
    first.name = second.name
  forward : (∀ write ∈ writes, write.forwardAt index = none) →
    (first.forwarded, first.forwardTarget) =
      (second.forwarded, second.forwardTarget)

/-- Two vectors agree on what the plan leaves as it was. -/
def SameUnwritten (plan : ExportPlan) (first second : List Export) : Prop :=
  ∀ index < plan.count, SameSymbol plan.writes index
    (first.getD index {}) (second.getD index {})

/-- Every write changes one symbol, so each symbol goes through them on its
own. -/
theorem getElem?_perform (writes : List ExportWrite) (exports : List Export)
    (index : ℕ) :
    (writes.foldl ExportWrite.perform exports)[index]? =
      exports[index]?.map fun symbol =>
        writes.foldl (ExportWrite.changeAt index) symbol := by
  induction writes generalizing exports with
  | nil => simp
  | cons write writes ih =>
      rw [List.foldl_cons, ih, ExportWrite.perform, List.getElem?_modify,
        Option.map_eq_map, Option.map_map]
      rfl

theorem getElem?_resizeExports (exports : List Export) (count index : ℕ) :
    (resizeExports exports count)[index]? =
      if index < count then some (exports.getD index {}) else none := by
  rw [resizeExports, List.getElem?_append, List.length_take,
    List.getElem?_take, List.getElem?_replicate, List.getD_eq_getElem?_getD]
  by_cases hcount : index < count
  · by_cases hlength : index < exports.length
    · simp [hcount, hlength]
    · have hrest : index - min count exports.length <
          count - exports.length := by
        omega
      simp [hcount, hlength, hrest]
  · have hrest : ¬index - min count exports.length <
        count - exports.length := by
      omega
    simp [hcount, hrest]

section Registers

variable {writes : List ExportWrite} {index : ℕ} {first second : Export}

theorem changes_name (symbol : Export) :
    (writes.foldl (ExportWrite.changeAt index) symbol).name =
      lastWrite (ExportWrite.nameAt index) writes symbol.name :=
  LastWrite.foldl_view _ Export.name (ExportWrite.changeAt_name index) writes
    symbol

theorem changes_address (symbol : Export) :
    ((writes.foldl (ExportWrite.changeAt index) symbol).ordinal,
        (writes.foldl (ExportWrite.changeAt index) symbol).address) =
      lastWrite (ExportWrite.addressAt index) writes
        (symbol.ordinal, symbol.address) :=
  LastWrite.foldl_view _ (fun symbol : Export => (symbol.ordinal, symbol.address))
    (ExportWrite.changeAt_address index) writes symbol

theorem changes_forward (symbol : Export) :
    ((writes.foldl (ExportWrite.changeAt index) symbol).forwarded,
        (writes.foldl (ExportWrite.changeAt index) symbol).forwardTarget) =
      lastWrite (ExportWrite.forwardAt index) writes
        (symbol.forwarded, symbol.forwardTarget) :=
  LastWrite.foldl_view _
    (fun symbol : Export => (symbol.forwarded, symbol.forwardTarget))
    (ExportWrite.changeAt_forward index) writes symbol

theorem export_eq_iff : first = second ↔
    first.name = second.name ∧
      (first.ordinal, first.address) = (second.ordinal, second.address) ∧
      (first.forwarded, first.forwardTarget) =
        (second.forwarded, second.forwardTarget) := by
  cases first
  cases second
  simp only [Export.mk.injEq, Prod.mk.injEq]
  tauto

theorem changes_eq_iff
    (hcomplete : ∃ write ∈ writes, write.addressAt index ≠ none) :
    writes.foldl (ExportWrite.changeAt index) first =
        writes.foldl (ExportWrite.changeAt index) second ↔
      SameSymbol writes index first second := by
  rw [export_eq_iff, changes_name, changes_name, changes_address,
    changes_address, changes_forward, changes_forward, LastWrite.eq_iff,
    LastWrite.eq_iff, LastWrite.eq_iff]
  constructor
  · rintro ⟨hname, -, hforward⟩
    exact ⟨hname, hforward⟩
  · rintro ⟨hname, hforward⟩
    refine ⟨hname, fun hsilent => ?_, hforward⟩
    obtain ⟨write, hwrite, hassigned⟩ := hcomplete
    exact absurd (hsilent write hwrite) hassigned

end Registers

theorem apply_eq_iff {plan : ExportPlan} (hcomplete : plan.Complete)
    {first second : List Export} :
    plan.apply first = plan.apply second ↔
      plan.SameUnwritten first second := by
  rw [List.ext_getElem?_iff]
  apply forall_congr'
  intro index
  rw [apply, apply, getElem?_perform, getElem?_perform, getElem?_resizeExports,
    getElem?_resizeExports]
  by_cases hindex : index < plan.count
  · rw [if_pos hindex, if_pos hindex, Option.map_some, Option.map_some,
      Option.some.injEq, changes_eq_iff (hcomplete index hindex)]
    exact (imp_iff_right hindex).symm
  · simp [hindex]

end ExportPlan

/-! ## What the parser plans -/

def planFunction (limits : Limits) (image : BinaryImage)
    (directoryRva directorySize : UInt64) (directory : ExportDirectory)
    (index : ℕ) : DecodeCall ExportWrite := do
  let function ← readFunction limits image directoryRva directorySize
  return .ofFunction index (functionOrdinal directory index) function

def planName (limits : Limits) (image : BinaryImage) (tables : ExportTables)
    (index : ℕ) : DecodeCall ExportWrite := do
  let (symbol, name) ← readName limits image tables
    tables.directory.functionCount.toNat index
  return .ofName symbol name

/-- Everything the parser reads, without the vector it writes to. -/
def exportPlan (limits : Limits) (image : BinaryImage)
    (directoryRva directorySize fileOffset : UInt64) :
    DecodeCall ExportPlan := do
  let tables ← openExports limits image directoryRva fileOffset
  let directory := tables.directory
  let _ ← attempt (seek tables.functions.fileOffset)
  let functions ← StatefulExcept.traverse
    (planFunction limits image directoryRva directorySize directory)
    (List.range directory.functionCount.toNat)
  let names ← StatefulExcept.traverse (planName limits image tables)
    (List.range directory.nameCount.toNat)
  return { count := directory.functionCount.toNat, writes := functions ++ names }

section Plan

variable {limits : Limits} {image : BinaryImage}
  {directoryRva directorySize fileOffset : UInt64} {exports : List Export}

theorem perform_length (exports : List Export) (write : ExportWrite) :
    (write.perform exports).length = exports.length :=
  List.length_modify ..

theorem performs_length (writes : List ExportWrite) (exports : List Export) :
    (writes.foldl ExportWrite.perform exports).length = exports.length := by
  induction writes generalizing exports with
  | nil => rfl
  | cons write writes ih => rw [List.foldl_cons, ih, perform_length]

theorem resizeExports_length (exports : List Export) (count : ℕ) :
    (resizeExports exports count).length = count := by
  rw [resizeExports, List.length_append, List.length_take,
    List.length_replicate]
  omega

theorem functions_eq (directory : ExportDirectory) (exports : List Export) :
    (List.range directory.functionCount.toNat).foldlM
        (exportFunction limits image directoryRva directorySize directory)
        exports =
      StatefulExcept.traverse
          (planFunction limits image directoryRva directorySize directory)
          (List.range directory.functionCount.toNat) >>= fun writes =>
        pure (writes.foldl ExportWrite.perform exports) := by
  apply foldlM_eq_traverse (fun _ => True)
  · intro carried index _
    simp only [exportFunction, planFunction, bind_assoc, pure_bind]
    rfl
  · simp
  · trivial

theorem names_eq (tables : ExportTables) {exports : List Export}
    (hlength : exports.length = tables.directory.functionCount.toNat) :
    (List.range tables.directory.nameCount.toNat).foldlM
        (exportName limits image tables) exports =
      StatefulExcept.traverse (planName limits image tables)
          (List.range tables.directory.nameCount.toNat) >>= fun writes =>
        pure (writes.foldl ExportWrite.perform exports) := by
  apply foldlM_eq_traverse
    (fun exports => exports.length = tables.directory.functionCount.toNat)
  · intro carried index hcarried
    simp only [exportName, planName, bind_assoc, pure_bind, hcarried]
    rfl
  · intro carried write hcarried
    rw [perform_length, hcarried]
  · exact hlength

/-- The parser carries out its plan on the vector it is given. -/
theorem exportLoops_eq (exports : List Export) :
    exportLoops limits image directoryRva directorySize fileOffset exports =
      exportPlan limits image directoryRva directorySize fileOffset >>=
        fun plan => pure (plan.apply exports) := by
  simp only [exportLoops, exportPlan, bind_assoc, pure_bind, functions_eq]
  apply bind_congr
  intro tables
  apply bind_congr
  intro _
  apply bind_congr
  intro functions
  rw [names_eq tables (by rw [performs_length, resizeExports_length])]
  simp only [ExportPlan.apply, List.foldl_append]

theorem planFunction_ok {directory : ExportDirectory} {index : ℕ}
    {write : ExportWrite} {reader next : ByteReader}
    (hrun : planFunction limits image directoryRva directorySize directory index
      reader = .ok write next) : write.addressAt index ≠ none := by
  obtain ⟨function, middle, _, hrun⟩ := bind_eq_ok.mp hrun
  rw [pure_eq_ok] at hrun
  rw [← hrun.1, ExportWrite.addressAt, if_pos rfl]
  exact Option.some_ne_none _

theorem exportPlan_complete {plan : ExportPlan} {reader next : ByteReader}
    (hrun : exportPlan limits image directoryRva directorySize fileOffset
      reader = .ok plan next) : plan.Complete := by
  obtain ⟨tables, _, _, hrun⟩ := bind_eq_ok.mp hrun
  obtain ⟨_, _, _, hrun⟩ := bind_eq_ok.mp hrun
  obtain ⟨functions, _, hfunctions, hrun⟩ := bind_eq_ok.mp hrun
  obtain ⟨names, _, _, hrun⟩ := bind_eq_ok.mp hrun
  rw [pure_eq_ok] at hrun
  obtain ⟨rfl, rfl⟩ := hrun
  have hall := (traverse_ok (fun _ => True)
    (fun index write => write.addressAt index ≠ none) hfunctions trivial
    fun index _ _ _ _ _ hstep => ⟨planFunction_ok hstep, trivial⟩).1
  intro index hindex
  obtain ⟨write, hwrite, hassigned⟩ :=
    RelatedLists.exists_right hall (List.mem_range.mpr hindex)
  exact ⟨write, List.mem_append_left _ hwrite, hassigned⟩

/-- The plan for an image, when its tables can be read. -/
def plannedExports (limits : Limits) (image : BinaryImage)
    (directoryRva directorySize : UInt64) : Option ExportPlan :=
  (AddressTranslator.rvaToFile image directoryRva 40).bind fun directory =>
    (evaluate (exportPlan limits image directoryRva directorySize
      directory.fileOffset) { data := image.fileData.getD [] }).toOption

theorem parseExports_planned (hsize : directorySize ≠ 0)
    {result : List Export}
    (hrun : parseExports limits image directoryRva directorySize exports =
      .ok result) :
    ∃ plan, plannedExports limits image directoryRva directorySize = some plan ∧
      plan.Complete ∧ result = plan.apply exports := by
  unfold parseExports at hrun
  obtain ⟨_, hrun⟩ := rejectIf_except_bind_eq_ok.mp hrun
  rw [if_neg hsize] at hrun
  obtain ⟨directory, hdirectory, hrun⟩ := demand_except_bind_eq_ok.mp hrun
  obtain ⟨last, hloops⟩ := evaluate_eq_ok.mp hrun
  rw [exportLoops_eq] at hloops
  obtain ⟨plan, middle, hplan, hresult⟩ := bind_eq_ok.mp hloops
  rw [pure_eq_ok] at hresult
  refine ⟨plan, ?_, exportPlan_complete hplan, hresult.1.symm⟩
  rw [plannedExports, hdirectory, Option.bind_some, evaluate_of_ok hplan]
  rfl

end Plan

/-- The two vectors hold the same where the parser writes nothing. -/
def SameLeftovers (limits : Limits) (image : BinaryImage)
    (directoryRva directorySize : UInt64) (first second : List Export) : Prop :=
  if directorySize = 0 then first = second
  else ∀ plan ∈ plannedExports limits image directoryRva directorySize,
    plan.SameUnwritten first second

/-- Two calls that succeed leave equal vectors exactly when the vectors they
were given agree on what is not written. -/
theorem parseExports_equal_iff {limits : Limits} {image : BinaryImage}
    {directoryRva directorySize : UInt64}
    {first second firstResult secondResult : List Export}
    (hfirst : parseExports limits image directoryRva directorySize first =
      .ok firstResult)
    (hsecond : parseExports limits image directoryRva directorySize second =
      .ok secondResult) :
    firstResult = secondResult ↔
      SameLeftovers limits image directoryRva directorySize first second := by
  unfold SameLeftovers
  by_cases hsize : directorySize = 0
  · unfold parseExports at hfirst hsecond
    rw [rejectIf_except_bind_eq_ok, if_pos hsize] at hfirst hsecond
    rw [if_pos hsize, ← Except.ok.inj hfirst.2, ← Except.ok.inj hsecond.2]
  · obtain ⟨plan, hplan, hcomplete, rfl⟩ := parseExports_planned hsize hfirst
    obtain ⟨other, hother, _, rfl⟩ := parseExports_planned hsize hsecond
    obtain rfl := Option.some.inj (hplan.symm.trans hother)
    rw [if_neg hsize, ExportPlan.apply_eq_iff hcomplete]
    simp [hplan]

/-- One function outside the directory and no name. -/
theorem parseExports_equal_no_names :
    let image : BinaryImage :=
      { header := { format := .peLike }
        sections := [{ fileSize := 44, memorySize := 44 }]
        fileData := some [0, 0, 0, 0, 0, 0, 0, 0, 0, 0, 0, 0, 0, 0, 0, 0,
          1, 0, 0, 0, 1, 0, 0, 0, 0, 0, 0, 0, 40, 0, 0, 0, 0, 0, 0, 0,
          0, 0, 0, 0, 0, 1, 0, 0] }
    ∃ first second,
      parseExports {} image 0 40 [] = .ok first ∧
        parseExports {} image 0 40 [{ ordinal := 5 }] = .ok second ∧
        first = second := by
  intro image
  obtain ⟨first, hfirst, -⟩ := toOption_bind_eq_some.mp
    (by decide +kernel : (parseExports {} image 0 40 []).toOption.bind
      (fun _ => some ()) = some ())
  obtain ⟨second, hsecond, -⟩ := toOption_bind_eq_some.mp
    (by decide +kernel : (parseExports {} image 0 40
      [{ ordinal := 5 }]).toOption.bind (fun _ => some ()) = some ())
  refine ⟨first, second, hfirst, hsecond,
    (parseExports_equal_iff hfirst hsecond).mpr ?_⟩
  rw [SameLeftovers, if_neg (by decide)]
  intro plan hplan index hindex
  have hcount : (plannedExports {} image 0 40).map (·.count) = some 1 := by
    decide +kernel
  rw [Option.mem_def.mp hplan] at hcount
  have hone : plan.count = 1 := Option.some.inj hcount
  obtain rfl : index = 0 := by omega
  exact ⟨fun _ => rfl, fun _ => rfl⟩

theorem parseExports_keeps_name :
    let image : BinaryImage :=
      { header := { format := .peLike }
        sections := [{ fileSize := 44, memorySize := 44 }]
        fileData := some [0, 0, 0, 0, 0, 0, 0, 0, 0, 0, 0, 0, 0, 0, 0, 0,
          1, 0, 0, 0, 1, 0, 0, 0, 0, 0, 0, 0, 40, 0, 0, 0, 0, 0, 0, 0,
          0, 0, 0, 0, 0, 1, 0, 0] }
    parseExports {} image 0 40 [] =
        .ok [{ address := 0x100, ordinal := 1 }] ∧
      parseExports {} image 0 40
          [{ name := "old", forwarded := true, forwardTarget := "a.b" }] =
        .ok [{ name := "old", address := 0x100, ordinal := 1
               forwarded := true, forwardTarget := "a.b" }] ∧
      [({ address := 0x100, ordinal := 1 } : Export)] ≠
        [{ name := "old", address := 0x100, ordinal := 1
           forwarded := true, forwardTarget := "a.b" }] := by
  decide +kernel

end PeImportExportParser
end BinForge
