import BinForge.Checklist
import BinForge.LoadFailure
import BinForge.ResolverTables

/-!
# Relocations against imported symbols

The address of an imported symbol comes from the resolver, by the symbol's
library and name.  `apply_one` also accepts two other numbers for it: without a
resolver the symbol's own value moved by the bias, and without an export of
that name the library's export with ordinal zero.
-/

namespace BinForge

open StatefulExcept
open Checklist

/-- The failure carries the code `unresolved_import`. -/
def Failure.IsUnresolved : Failure → Prop
  | .silent => False
  | .reported error => error.code = .unresolvedImport

instance (why : Failure) : Decidable why.IsUnresolved := by
  cases why <;> unfold Failure.IsUnresolved <;> infer_instance

/-- The failure has another reason. -/
def Failure.IsOther (why : Failure) : Prop := ¬why.IsUnresolved

theorem other_failure {code : ErrorCode} {offset : UInt64} {message : Bytes}
    (hcode : code ≠ .unresolvedImport) :
    (failure code offset message).IsOther :=
  hcode

theorem other_silent : Failure.silent.IsOther := id

namespace AddressSpace

variable {memory : AddressSpace}

/-- A store fails for reasons of its own. -/
theorem writeInteger_other (address : UInt64) (width : UInt8)
    (order : ByteOrder) (value : UInt64) (ignorePermissions : Bool) :
    Reported Failure.IsOther (evaluate
      (writeInteger address width order value ignorePermissions) memory) := by
  unfold writeInteger
  refine (Reported.rejectIf (other_failure (by decide))).bind
    fun _ state _ => ?_
  unfold write
  split
  · exact Reported.pure ()
  · rw [evaluate_bind_of_ok (get_apply state)]
    split
    · exact Reported.error (other_failure (by decide))
    · refine (Reported.rejectIf
        (other_failure (by decide))).bind fun _ _ _ => ?_
      refine (Reported.rejectIf
        (other_failure (by decide))).bind fun _ _ _ => ?_
      exact Reported.ok ()

end AddressSpace

namespace RelocationProcessor

open SymbolResolver

variable {image : BinaryImage} {bias : UInt64} {memory : AddressSpace}
  {relocation : Relocation} {symbol : Symbol}

/-- The address that the resolver, if there is one, gives for a name alone. -/
theorem symbolValue_import {resolver : SymbolResolver}
    (hindex : relocation.symbolIndex ≠ 0)
    (hsymbol : image.symbol? relocation.symbolIndex = some symbol)
    (hbinding : symbol.binding = .importSymbol) (target : UInt64) :
    symbolValue relocation image bias target (some resolver) =
      demand (resolver.resolve symbol.library symbol.name 0)
        (failure .unresolvedImport target "relocation import unresolved") := by
  unfold symbolValue
  rw [if_neg hindex, hsymbol]
  simp [demand, hbinding, bind, Except.bind, pure, Except.pure]

theorem symbolValue_unresolvable (hindex : relocation.symbolIndex ≠ 0)
    (hsymbol : image.symbol? relocation.symbolIndex = some symbol)
    (target : UInt64) :
    symbolValue relocation image bias target none =
      demand (checkedAdd symbol.value bias)
        (failure .addressOverflow target "symbol address overflow") := by
  unfold symbolValue
  rw [if_neg hindex, hsymbol]
  simp [demand, bind, Except.bind, pure, Except.pure]

theorem computeValue_other (target value : UInt64) :
    Reported Failure.IsOther (computeValue relocation bias target value) := by
  have hrejected : (failure .invalidRelocation target
      "unsupported relocation kind").IsOther := other_failure (by decide)
  unfold computeValue
  cases relocation.kind <;>
    first | exact Reported.ok _ | exact Reported.error hrejected

/-- Apart from the look-up of the symbol nothing fails as unresolved. -/
theorem applyOne_other {resolver : Option SymbolResolver}
    (hvalue : ∀ target, checkedAdd relocation.offset bias = some target →
      Reported Failure.IsOther
        (symbolValue relocation image bias target resolver)) :
    Reported Failure.IsOther
      (evaluate (applyOne relocation image bias resolver) memory) := by
  unfold applyOne
  refine (Reported.demand (other_failure (by decide))).bind
    fun target next htarget => ?_
  have htarget := (demand_eq_ok.mp htarget).1
  refine (hvalue target htarget).liftExcept.bind fun value _ _ => ?_
  refine (computeValue_other target value).liftExcept.bind fun stored _ _ => ?_
  cases stored with
  | none => exact Reported.pure ()
  | some stored =>
      exact (Reported.rejectIf (other_failure (by decide))).bind
        fun _ _ _ => AddressSpace.writeInteger_other _ _ _ _ _

theorem not_unresolved_of_value {resolver : Option SymbolResolver}
    {next : AddressSpace} {why : Failure}
    (hvalue : ∀ target, checkedAdd relocation.offset bias = some target →
      Reported Failure.IsOther
        (symbolValue relocation image bias target resolver))
    (hrun : applyOne relocation image bias resolver memory =
      .error why next) : ¬why.IsUnresolved :=
  applyOne_other hvalue why (evaluate_of_error hrun)

/-- What is owed to a relocation against an imported symbol, given the calls
that made the resolver: the address of the export is used, and without one the
relocation is refused as unresolved. -/
structure ImportHonoured (relocation : Relocation) (image : BinaryImage)
    (bias : UInt64) (history : Option (List Call)) (memory : AddressSpace)
    (symbol : Symbol) : Prop where
  used : ∀ next,
    applyOne relocation image bias (history.map ofCalls) memory = .ok () next →
      ∃ calls target address, history = some calls ∧
        checkedAdd relocation.offset bias = some target ∧
        symbolValue relocation image bias target (history.map ofCalls) =
          .ok address ∧
        ExportsName calls symbol.library symbol.name address
  refused :
    (∀ calls, history = some calls →
      ∀ address, ¬ExportsName calls symbol.library symbol.name address) →
    ∃ why, applyOne relocation image bias (history.map ofCalls) memory =
      .error why memory ∧ why.IsUnresolved

/-! ## Where the name is held, and where it is not -/

theorem honoured_of_exported {calls : List Call} {address : UInt64}
    (hindex : relocation.symbolIndex ≠ 0)
    (hsymbol : image.symbol? relocation.symbolIndex = some symbol)
    (hbinding : symbol.binding = .importSymbol)
    (hname : ExportsName calls symbol.library symbol.name address) :
    ImportHonoured relocation image bias (some calls) memory symbol := by
  constructor
  · intro next hrun
    obtain ⟨target, htarget, -⟩ := demand_bind_eq_ok.mp hrun
    refine ⟨calls, target, address, rfl, htarget, ?_, hname⟩
    rw [Option.map_some, symbolValue_import hindex hsymbol hbinding,
      resolve_eq_some.mpr (Or.inl hname)]
    rfl
  · intro hunnamed
    exact absurd hname (hunnamed calls rfl address)

/-- Without the name and the ordinal zero the relocation is refused. -/
theorem applyOne_unexported {calls : List Call}
    (hindex : relocation.symbolIndex ≠ 0)
    (hsymbol : image.symbol? relocation.symbolIndex = some symbol)
    (hbinding : symbol.binding = .importSymbol)
    (hunnamed : ∀ address,
      ¬ExportsName calls symbol.library symbol.name address)
    (hordinal : ∀ address, ¬ExportsOrdinal calls symbol.library 0 address)
    (hfit : relocation.offset.toNat + bias.toNat < 2 ^ 64) :
    applyOne relocation image bias (some (ofCalls calls)) memory =
      .error (failure .unresolvedImport (relocation.offset + bias)
        "relocation import unresolved") memory := by
  unfold applyOne
  rw [demand_bind_of_some (checkedAdd_of_fit hfit),
    symbolValue_import hindex hsymbol hbinding,
    resolve_eq_none.mpr ⟨hunnamed, hordinal⟩]
  rfl

/-- Without a resolver the symbol's own value is used. -/
theorem not_unresolved_of_unresolvable {next : AddressSpace} {why : Failure}
    (hindex : relocation.symbolIndex ≠ 0)
    (hsymbol : image.symbol? relocation.symbolIndex = some symbol)
    (hrun : applyOne relocation image bias none memory = .error why next) :
    ¬why.IsUnresolved := by
  apply not_unresolved_of_value _ hrun
  intro target _
  rw [symbolValue_unresolvable hindex hsymbol]
  exact Reported.except_demand (other_failure (by decide))

/-- The export under the ordinal zero stands in for the name. -/
theorem not_unresolved_of_ordinal {calls : List Call} {address : UInt64}
    {next : AddressSpace} {why : Failure}
    (hindex : relocation.symbolIndex ≠ 0)
    (hsymbol : image.symbol? relocation.symbolIndex = some symbol)
    (hbinding : symbol.binding = .importSymbol)
    (hunnamed : ∀ address,
      ¬ExportsName calls symbol.library symbol.name address)
    (hordinal : ExportsOrdinal calls symbol.library 0 address)
    (hrun : applyOne relocation image bias (some (ofCalls calls)) memory =
      .error why next) : ¬why.IsUnresolved := by
  apply not_unresolved_of_value _ hrun
  intro target _
  rw [symbolValue_import hindex hsymbol hbinding,
    resolve_eq_some.mpr (Or.inr ⟨hunnamed, hordinal⟩)]
  exact Reported.ok address

/-- Imported symbols are honoured exactly where a resolver is given that has
the name, or has neither the name nor the ordinal zero for a target that does
not overflow.  The index zero stands for no symbol. -/
theorem import_honoured_iff {history : Option (List Call)}
    (hindex : relocation.symbolIndex ≠ 0)
    (hsymbol : image.symbol? relocation.symbolIndex = some symbol)
    (hbinding : symbol.binding = .importSymbol) :
    ImportHonoured relocation image bias history memory symbol ↔
      ∃ calls, history = some calls ∧
        ((∃ address,
            ExportsName calls symbol.library symbol.name address) ∨
          (∀ address, ¬ExportsOrdinal calls symbol.library 0 address) ∧
            relocation.offset.toNat + bias.toNat < 2 ^ 64) := by
  constructor
  · intro hhonoured
    cases history with
    | none =>
        obtain ⟨why, hrun, hunresolved⟩ :=
          hhonoured.refused fun _ hsome => by contradiction
        exact absurd hunresolved
          (not_unresolved_of_unresolvable hindex hsymbol hrun)
    | some calls =>
        refine ⟨calls, rfl, or_iff_not_imp_left.mpr fun hunnamed => ?_⟩
        have hunnamed := not_exists.mp hunnamed
        obtain ⟨why, hrun, hunresolved⟩ := hhonoured.refused
          fun _ hsome => Option.some.inj hsome ▸ hunnamed
        constructor
        · intro address hordinal
          exact not_unresolved_of_ordinal hindex hsymbol hbinding hunnamed
            hordinal hrun hunresolved
        · -- An overflowing target is rejected before the look-up.
          by_contra hover
          apply not_unresolved_of_value _ hrun hunresolved
          intro target htarget
          exact absurd (checkedAdd_eq_some.mp htarget).1 hover
  · rintro ⟨calls, rfl, hcondition⟩
    by_cases hnamed : ∃ address,
        ExportsName calls symbol.library symbol.name address
    · obtain ⟨address, hname⟩ := hnamed
      exact honoured_of_exported hindex hsymbol hbinding hname
    · obtain ⟨hordinal, hfit⟩ := hcondition.resolve_left hnamed
      have hrefused := @applyOne_unexported _ _ memory _ _ _ hindex hsymbol
        hbinding (not_exists.mp hnamed) hordinal hfit
      constructor
      · intro next hrun
        rw [Option.map_some, hrefused] at hrun
        contradiction
      · intro _
        exact ⟨_, hrefused, rfl⟩

/-- An imported symbol that also has a value of its own. -/
def importedSymbol : Symbol :=
  { index := 1, name := "f", binding := .importSymbol, value := 0x30,
    library := "l" }

def importingImage : BinaryImage := { symbols := [{}, importedSymbol] }

def importingRelocation : Relocation :=
  { kind := .absolute32, symbolIndex := 1, offset := 0x1000 }

theorem import_honoured_iff_exported :
    ImportHonoured importingRelocation importingImage 0
      (some [.addExport ⟨"l", { name := "f", address := 0x5000 }⟩])
      (AddressSpace.new {}) importedSymbol :=
  (import_honoured_iff (by decide) rfl rfl).mpr
    ⟨_, rfl, Or.inl ⟨0x5000, by decide +kernel⟩⟩

/-- Without a resolver the symbol's own value is stored. -/
theorem import_fabricated :
    ¬∀ relocation image bias history memory symbol,
      relocation.kind = .absolute32 → relocation.symbolIndex ≠ 0 →
        image.symbol? relocation.symbolIndex = some symbol →
          symbol.binding = .importSymbol →
            ImportHonoured relocation image bias history memory symbol := by
  intro hall
  have hhonoured := hall importingRelocation importingImage 0 none
    ((AddressSpace.new {}).perform (.map 0x1000 16 3 [])) importedSymbol rfl
    (by decide) rfl rfl
  obtain ⟨value, next, hrun⟩ := succeeded_iff.mp (by decide +kernel :
    succeeded (applyOne importingRelocation importingImage 0 none
      ((AddressSpace.new {}).perform (.map 0x1000 16 3 []))) = true)
  obtain ⟨calls, _, _, hnone, -⟩ := hhonoured.used next hrun
  contradiction

end RelocationProcessor
end BinForge
