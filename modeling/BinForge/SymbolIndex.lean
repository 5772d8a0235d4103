import Mathlib.Data.Prod.Lex
import BinForge.Image
import BinForge.PreferredMap
import BinForge.PrefixOrder

/-!
# The symbol index

`SymbolIndex` keeps three maps from keys to symbols of an image: one from
names, one from libraries with names, and one from addresses.  They are filled
in one loop over the symbols, each with its own rule for a key that is there.
-/

namespace BinForge

open OrderedMap
open StatefulExcept

/-- A pointer to a symbol of an image: the symbol and its place there. -/
abbrev SymbolPointer := Symbol × ℕ

structure SymbolLookupResult where
  symbol : Option SymbolPointer := none
  displacement : UInt64 := 0
  exact : Bool := false
  deriving DecidableEq

structure SymbolIndex where
  limits : Limits := {}
  names : OrderedMap Bytes SymbolPointer := empty
  qualified : OrderedMap (Bytes ×ₗ Bytes) SymbolPointer := empty
  addresses : OrderedMap UInt64 SymbolPointer := empty

namespace SymbolIndex

def clear (index : SymbolIndex) : SymbolIndex := { limits := index.limits }

/-- A local symbol makes room for one that is not. -/
def addName (names : OrderedMap Bytes SymbolPointer) (symbol : SymbolPointer) :
    OrderedMap Bytes SymbolPointer :=
  names.emplaceOr symbol.1.name symbol fun existing =>
    existing.1.binding == .local && symbol.1.binding != .local

def addQualified (qualified : OrderedMap (Bytes ×ₗ Bytes) SymbolPointer)
    (symbol : SymbolPointer) : OrderedMap (Bytes ×ₗ Bytes) SymbolPointer :=
  qualified.emplace (toLex (symbol.1.library, symbol.1.name)) symbol

/-- A symbol without a size makes room for one that has one. -/
def addAddress (addresses : OrderedMap UInt64 SymbolPointer)
    (symbol : SymbolPointer) : OrderedMap UInt64 SymbolPointer :=
  addresses.emplaceOr symbol.1.value symbol fun existing =>
    existing.1.size == 0 && symbol.1.size != 0

def isNamed (symbol : SymbolPointer) : Bool := symbol.1.name != []

def isIndexable (symbol : SymbolPointer) : Bool :=
  symbol.1.value != 0 && symbol.1.kind != .file && symbol.1.kind != .section

/-- The body of the loop over the symbols. -/
def add (index : SymbolIndex) (symbol : SymbolPointer) : SymbolIndex :=
  { index with
    names := if isNamed symbol then addName index.names symbol
      else index.names
    qualified := if isNamed symbol then addQualified index.qualified symbol
      else index.qualified
    addresses := if isIndexable symbol then addAddress index.addresses symbol
      else index.addresses }

/-- The pointers to the symbols of an image. -/
def pointers (image : BinaryImage) : List SymbolPointer :=
  image.symbols.zipIdx

def build (image : BinaryImage) : EStateM Failure SymbolIndex Unit := do
  modify clear
  let index ← get
  rejectIf (image.symbols.length > index.limits.maxSymbols.toNat)
    (failure .resourceLimit 0 "symbol index limit exceeded")
  set ((pointers image).foldl add index)

def byName (index : SymbolIndex) (name : Bytes) : Option SymbolPointer :=
  index.names.find? name

def byQualifiedName (index : SymbolIndex) (library name : Bytes) :
    Option SymbolPointer :=
  index.qualified.find? (toLex (library, name))

def nearest (index : SymbolIndex) (address : UInt64) : SymbolLookupResult :=
  match index.addresses.beforeUpperBound address with
  | none => {}
  | some (start, symbol) =>
      let displacement := address - start
      { symbol :=
          if symbol.1.size ≠ 0 ∧ displacement ≥ symbol.1.size then none
          else some symbol
        displacement
        exact := displacement == 0 }

/-- The loop from the lower bound of the prefix on. -/
def prefixLoop (start : Bytes) (maximum : ℕ) :
    List (Bytes × SymbolPointer) → List SymbolPointer → List SymbolPointer
  | [], result => result
  | entry :: rest, result =>
      if result.length < maximum then
        if entry.1.take start.length ≠ start then result
        else prefixLoop start maximum rest (result ++ [entry.2])
      else result

def byPrefix (index : SymbolIndex) (start : Bytes) (maximum : ℕ) :
    List SymbolPointer :=
  if maximum = 0 then []
  else prefixLoop start maximum (index.names.fromKey start) []

/-! ## The maps after a build -/

/-- The maps that collect the symbols, each with its preference. -/
def collected (limits : Limits) (image : BinaryImage) : SymbolIndex where
  limits := limits
  names := PreferredMap.collect (fun symbol => symbol.1.name)
    (fun symbol => symbol.1.binding != .local)
    ((pointers image).filter isNamed)
  qualified := PreferredMap.collect
    (fun symbol => toLex (symbol.1.library, symbol.1.name)) (fun _ => false)
    ((pointers image).filter isNamed)
  addresses := PreferredMap.collect (fun symbol => symbol.1.value)
    (fun symbol => symbol.1.size != 0) ((pointers image).filter isIndexable)

theorem addName_eq : addName = PreferredMap.add (fun symbol => symbol.1.name)
    (fun symbol => symbol.1.binding != .local) := by
  funext names symbol
  simp only [addName, PreferredMap.add, bne, Bool.not_not]

theorem addQualified_eq : addQualified =
    PreferredMap.add (fun symbol => toLex (symbol.1.library, symbol.1.name))
      (fun _ => false) := by
  funext qualified symbol
  simp only [addQualified, PreferredMap.add, Bool.and_false]
  exact emplace_eq_emplaceOr _ _ _

theorem addAddress_eq : addAddress =
    PreferredMap.add (fun symbol => symbol.1.value)
      (fun symbol => symbol.1.size != 0) := by
  funext addresses symbol
  simp only [addAddress, PreferredMap.add, bne, Bool.not_not]

theorem foldl_add (symbols : List SymbolPointer) (index : SymbolIndex) :
    symbols.foldl add index =
      { limits := index.limits
        names := (symbols.filter isNamed).foldl addName index.names
        qualified := (symbols.filter isNamed).foldl addQualified index.qualified
        addresses :=
          (symbols.filter isIndexable).foldl addAddress index.addresses } := by
  induction symbols generalizing index with
  | nil => rfl
  | cons symbol rest ih =>
      rw [List.foldl_cons, ih]
      by_cases hnamed : isNamed symbol = true <;>
        by_cases hindexable : isIndexable symbol = true <;>
          simp [add, hnamed, hindexable]

theorem build_eq_ok {image : BinaryImage} {start index : SymbolIndex} :
    build image start = .ok () index ↔
      image.symbols.length ≤ start.limits.maxSymbols.toNat ∧
        index = collected start.limits image := by
  have hloop : (pointers image).foldl add (clear start) =
      collected start.limits image := by
    rw [foldl_add, addName_eq, addQualified_eq, addAddress_eq]
    rfl
  unfold build
  rw [bind_of_ok (modify_apply _ _), bind_of_ok (get_apply _),
    rejectIf_bind_eq_ok, hloop, set_apply]
  simp [clear, eq_comm]

end SymbolIndex
end BinForge
