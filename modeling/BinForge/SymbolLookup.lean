import Mathlib.Data.Finset.Sort
import BinForge.SymbolIndex

/-!
# Looking symbols up

A name leads to the first symbol that is not local, or else to the first one;
a name with its library leads to the first one in any case.  A prefix leads to
the symbols of the names that start with it, in order.  An address leads to
the symbol kept for the greatest start not above it, and to no other one.
-/

namespace BinForge

open OrderedMap
open PreferredMap
open StatefulExcept

namespace SymbolIndex

variable {image : BinaryImage} {start index : SymbolIndex}

/-! ## Names -/

/-- The symbols of a name, in the order of the table. -/
def named (image : BinaryImage) (name : Bytes) : List SymbolPointer :=
  (pointers image).filter fun symbol => symbol.1.name = name

theorem filter_isNamed {name : Bytes} (hname : name ≠ []) :
    ((pointers image).filter isNamed).filter
        (fun symbol => decide (symbol.1.name = name)) = named image name := by
  rw [List.filter_filter]
  apply List.filter_congr
  intro symbol _
  by_cases hsame : symbol.1.name = name
  · simp [isNamed, hsame, hname]
  · simp [hsame]

theorem byName_eq (hbuild : build image start = .ok () index) {name : Bytes}
    (hname : name ≠ []) :
    index.byName name =
      preferred (fun symbol => symbol.1.binding != .local)
        (named image name) := by
  obtain ⟨-, rfl⟩ := build_eq_ok.mp hbuild
  rw [byName, collected, find?_collect fun _ _ => decide_eq_true_iff,
    filter_isNamed hname]

theorem byName_nil (hbuild : build image start = .ok () index) :
    index.byName [] = none := by
  obtain ⟨-, rfl⟩ := build_eq_ok.mp hbuild
  apply find?_collect_eq_none.mpr
  intro symbol hsymbol
  have hnamed := (List.mem_filter.mp hsymbol).2
  simpa [isNamed] using hnamed

theorem byQualifiedName_nil (hbuild : build image start = .ok () index)
    (library : Bytes) : index.byQualifiedName library [] = none := by
  obtain ⟨-, rfl⟩ := build_eq_ok.mp hbuild
  apply find?_collect_eq_none.mpr
  intro symbol hsymbol hkey
  have hnamed := (List.mem_filter.mp hsymbol).2
  have hname := congrArg (fun key => (ofLex key).2) hkey
  simp only [ofLex_toLex] at hname
  simp [isNamed, hname] at hnamed

theorem mem_symbols {symbol : SymbolPointer}
    (hsymbol : symbol ∈ pointers image) : symbol.1 ∈ image.symbols := by
  obtain ⟨symbol, position⟩ := symbol
  exact List.fst_mem_of_mem_zipIdx hsymbol

/-- When all symbols of a name are of one library, the library makes no
difference to which symbols there are. -/
theorem byQualifiedName_eq (hbuild : build image start = .ok () index)
    {library name : Bytes} (hname : name ≠ [])
    (hlibrary : ∀ symbol ∈ image.symbols, symbol.name = name →
      symbol.library = library) :
    index.byQualifiedName library name = (named image name).head? := by
  obtain ⟨-, rfl⟩ := build_eq_ok.mp hbuild
  have hkey : ∀ symbol ∈ (pointers image).filter isNamed,
      decide (symbol.1.name = name) = true ↔
        toLex (symbol.1.library, symbol.1.name) = toLex (library, name) := by
    intro symbol hsymbol
    have hmem := mem_symbols (List.mem_filter.mp hsymbol).1
    rw [toLex_inj, Prod.mk.injEq, decide_eq_true_iff]
    exact ⟨fun hsame => ⟨hlibrary _ hmem hsame, hsame⟩, And.right⟩
  rw [byQualifiedName, collected, find?_collect hkey, filter_isNamed hname,
    preferred, List.find?_eq_none.mpr fun _ _ => Bool.false_ne_true,
    Option.none_or]

/-- The two lookups of a name agree, and on a symbol that is not local if
there is one. -/
structure NameLookupsAgree (image : BinaryImage) (index : SymbolIndex)
    (library name : Bytes) : Prop where
  same : index.byQualifiedName library name = index.byName name
  prefers : ∀ found, index.byName name = some found →
    found.1.binding = .local →
      ∀ symbol ∈ named image name, symbol.1.binding = .local

/-- The first symbol of the name is one to keep: it is not local, or all of
them are. -/
def FirstIsKept (image : BinaryImage) (name : Bytes) : Prop :=
  ∀ first ∈ (named image name).head?, first.1.binding = .local →
    ∀ symbol ∈ named image name, symbol.1.binding = .local

instance (image : BinaryImage) (name : Bytes) :
    Decidable (FirstIsKept image name) :=
  inferInstanceAs (Decidable (∀ first ∈ (named image name).head?, _))

theorem binding_bne_iff {symbol : SymbolPointer} :
    (symbol.1.binding != .local) = false ↔ symbol.1.binding = .local := by
  simp

/-- A local symbol is found by name only when all symbols of it are local. -/
theorem byName_prefers (hbuild : build image start = .ok () index)
    {name : Bytes} {found : SymbolPointer}
    (hfound : index.byName name = some found)
    (hlocal : found.1.binding = .local) :
    ∀ symbol ∈ named image name, symbol.1.binding = .local := by
  by_cases hname : name = []
  · subst hname
    rw [byName_nil hbuild] at hfound
    contradiction
  · rw [byName_eq hbuild hname] at hfound
    intro symbol hsymbol
    rcases Option.or_eq_some_iff.mp hfound with hfind | ⟨hnone, -⟩
    · have hpreferred := List.find?_some hfind
      rw [binding_bne_iff.mpr hlocal] at hpreferred
      contradiction
    · have hout := List.find?_eq_none.mp hnone symbol hsymbol
      exact binding_bne_iff.mp (Bool.eq_false_iff.mpr hout)

/-- The two lookups of a name agree exactly when it is empty or the first
symbol of it is one to keep. -/
theorem name_lookups_agree_iff (image : BinaryImage) (start index : SymbolIndex)
    (library name : Bytes) (hbuild : build image start = .ok () index)
    (hlibrary : ∀ symbol ∈ image.symbols, symbol.name = name →
      symbol.library = library) :
    NameLookupsAgree image index library name ↔
      name = [] ∨ FirstIsKept image name := by
  by_cases hname : name = []
  · subst hname
    apply iff_of_true
    · constructor
      · rw [byQualifiedName_nil hbuild, byName_nil hbuild]
      · intro found
        exact byName_prefers hbuild
    · exact Or.inl rfl
  · have hsame : index.byQualifiedName library name = index.byName name ↔
        FirstIsKept image name := by
      rw [byQualifiedName_eq hbuild hname hlibrary, byName_eq hbuild hname,
        eq_comm, preferred_eq_head?_iff]
      simp only [binding_bne_iff]
      rfl
    constructor
    · intro hagree
      exact Or.inr (hsame.mp hagree.same)
    · intro hkept
      constructor
      · exact hsame.mpr (hkept.resolve_left hname)
      · intro found
        exact byName_prefers hbuild

/-- A global definition alone, and one after a local symbol of its name. -/
def globalMain : Symbol := { name := "main", binding := .global, value := 16 }

def localMain : Symbol := { name := "main", binding := .local, value := 32 }

def globalImage : BinaryImage := { symbols := [globalMain, localMain] }

def localFirstImage : BinaryImage := { symbols := [localMain, globalMain] }

theorem build_small {image : BinaryImage} (hsmall : image.symbols.length ≤ 9) :
    build image {} = .ok () (collected {} image) := by
  apply build_eq_ok.mpr
  constructor
  · exact hsmall.trans (by decide)
  · rfl

theorem name_lookups_agree_globalImage :
    NameLookupsAgree globalImage (collected {} globalImage) [] "main" :=
  (name_lookups_agree_iff globalImage {} (collected {} globalImage) [] "main"
    (build_small (by decide)) (by decide)).mpr (Or.inr (by decide))

/-- By name the global definition is found, with the library the local one. -/
theorem localFirstImage_lookups_differ :
    build localFirstImage {} = .ok () (collected {} localFirstImage) ∧
      (∀ symbol ∈ localFirstImage.symbols, symbol.name = "main" →
        symbol.library = []) ∧
      ¬NameLookupsAgree localFirstImage (collected {} localFirstImage) []
        "main" := by
  have hbuild : build localFirstImage {} =
      .ok () (collected {} localFirstImage) := build_small (by decide)
  refine ⟨hbuild, by decide, ?_⟩
  intro hagree
  have hsame := hagree.same
  rw [byName_eq hbuild (by decide),
    byQualifiedName_eq hbuild (by decide) (by decide)] at hsame
  revert hsame
  decide

/-! ## Prefixes -/

/-- The nonempty names that start with these bytes, each once and in order. -/
def namesFrom (image : BinaryImage) (start : Bytes) : List Bytes :=
  ((image.symbols.map Symbol.name).toFinset.filter fun name =>
    name ≠ [] ∧ start <+: name).sort

theorem mem_namesFrom {start name : Bytes} :
    name ∈ namesFrom image start ↔
      (∃ symbol ∈ image.symbols, symbol.name = name) ∧ name ≠ [] ∧
        start <+: name := by
  simp [namesFrom]

/-- The loop collects what follows as long as it starts with the bytes and
there is room. -/
theorem prefixLoop_eq (start : Bytes) (maximum : ℕ)
    (entries : List (Bytes × SymbolPointer)) (result : List SymbolPointer) :
    prefixLoop start maximum entries result =
      result ++ ((entries.takeWhile fun entry =>
        decide (start <+: entry.1)).take (maximum - result.length)).map
          Prod.snd := by
  induction entries generalizing result with
  | nil => simp [prefixLoop]
  | cons entry rest ih =>
      rw [prefixLoop]
      by_cases hroom : result.length < maximum
      · have hleft : maximum - result.length =
            maximum - (result.length + 1) + 1 := by omega
        rw [if_pos hroom]
        by_cases hstarts : start <+: entry.1
        · have htake : ¬entry.1.take start.length ≠ start :=
            not_not.mpr (List.prefix_iff_eq_take.mp hstarts).symm
          rw [if_neg htake, ih, List.takeWhile_cons, decide_eq_true hstarts,
            hleft]
          simp
        · have htake : entry.1.take start.length ≠ start := by
            intro htake
            exact hstarts (List.prefix_iff_eq_take.mpr htake.symm)
          rw [if_pos htake, List.takeWhile_cons, decide_eq_false hstarts]
          simp
      · have hnone : maximum - result.length = 0 := by omega
        rw [if_neg hroom, hnone]
        simp

/-- From its lower bound on, the names that start with the bytes come first
and are all there are. -/
theorem takeWhile_fromKey (names : OrderedMap Bytes SymbolPointer)
    (start : Bytes) :
    ((names.fromKey start).takeWhile fun entry => decide (start <+: entry.1)) =
      names.entries.filter fun entry => decide (start <+: entry.1) := by
  rw [PrefixOrder.takeWhile_eq_filter]
  · rw [fromKey, List.filter_filter]
    apply List.filter_congr
    intro entry _
    by_cases hstarts : start <+: entry.1
    · simp [hstarts, PrefixOrder.le_of_isPrefix hstarts]
    · simp [hstarts]
  · apply (names.sorted.filter _).imp_of_mem
    intro first second hfirst _ hlt hsecond
    have hlower := (mem_fromKey.mp hfirst).2
    apply decide_eq_true
    exact PrefixOrder.isPrefix_of_le_of_le hlower hlt.le
      (of_decide_eq_true hsecond)

theorem keys_eq_namesFrom (hbuild : build image start = .ok () index)
    (bytes : Bytes) :
    (index.names.entries.filter fun entry => decide (bytes <+: entry.1)).map
      Prod.fst = namesFrom image bytes := by
  have hkeys : ((index.names.entries.filter fun entry =>
      decide (bytes <+: entry.1)).map Prod.fst).Pairwise (· < ·) :=
    List.pairwise_map.mpr (index.names.sorted.filter _)
  have hsorted : (namesFrom image bytes).Pairwise (· < ·) :=
    (Finset.sortedLT_sort _).pairwise
  apply hkeys.eq_of_mem_iff hsorted
  intro name
  have hheld : (∃ entry ∈ index.names.entries, entry.1 = name) ↔
      (∃ symbol ∈ image.symbols, symbol.name = name) ∧ name ≠ [] := by
    obtain ⟨-, rfl⟩ := build_eq_ok.mp hbuild
    rw [collected, exists_entry_iff]
    constructor
    · rintro ⟨symbol, hsymbol, rfl⟩
      obtain ⟨hmem, hnamed⟩ := List.mem_filter.mp hsymbol
      exact ⟨⟨_, mem_symbols hmem, rfl⟩, by simpa [isNamed] using hnamed⟩
    · rintro ⟨⟨symbol, hsymbol, rfl⟩, hname⟩
      obtain ⟨position, hposition⟩ := List.getElem?_of_mem hsymbol
      refine ⟨(symbol, position), ?_, rfl⟩
      apply List.mem_filter.mpr
      exact ⟨List.mem_zipIdx_iff_getElem?.mpr hposition, by simpa [isNamed]⟩
  rw [mem_namesFrom, ← and_assoc, ← hheld]
  simp only [List.mem_map, List.mem_filter, decide_eq_true_iff]
  constructor
  · rintro ⟨entry, ⟨hentry, hstarts⟩, rfl⟩
    exact ⟨⟨entry, hentry, rfl⟩, hstarts⟩
  · rintro ⟨⟨entry, hentry, rfl⟩, hstarts⟩
    exact ⟨entry, ⟨hentry, hstarts⟩, rfl⟩

/-- A prefix leads to what its names lead to, in order and up to a maximum. -/
theorem prefix_exact (image : BinaryImage) (start index : SymbolIndex)
    (hbuild : build image start = .ok () index) (bytes : Bytes)
    (maximum : ℕ) :
    (index.byPrefix bytes maximum).map some =
      ((namesFrom image bytes).take maximum).map index.byName := by
  have hloop : index.byPrefix bytes maximum =
      ((index.names.entries.filter fun entry =>
        decide (bytes <+: entry.1)).take maximum).map Prod.snd := by
    rw [byPrefix]
    split_ifs with hzero
    · simp [hzero]
    · rw [prefixLoop_eq, takeWhile_fromKey]
      simp
  rw [hloop, ← keys_eq_namesFrom hbuild, ← List.map_take, List.map_map,
    List.map_map]
  apply List.map_congr_left
  intro entry hentry
  have hmem := (List.mem_filter.mp (List.mem_of_mem_take hentry)).1
  exact (find?_eq_some.mpr hmem).symm

theorem prefix_exact_globalImage :
    ((collected {} globalImage).byPrefix "ma" 1).map some =
      ((namesFrom globalImage "ma").take 1).map
        (collected {} globalImage).byName :=
  prefix_exact globalImage {} (collected {} globalImage)
    (build_small (by decide)) "ma" 1

/-! ## Addresses -/

/-- The symbol kept for a start address: the first one there with a size, or
else the first one. -/
def keptAt (image : BinaryImage) (address : UInt64) : Option SymbolPointer :=
  preferred (fun symbol => symbol.1.size != 0)
    ((pointers image).filter fun symbol =>
      isIndexable symbol && symbol.1.value == address)

/-- The symbol is the one kept for the greatest start not above the address. -/
structure IsNearest (image : BinaryImage) (address : UInt64)
    (symbol : SymbolPointer) : Prop where
  kept : keptAt image symbol.1.value = some symbol
  below : symbol.1.value ≤ address
  greatest : ∀ other ∈ pointers image, isIndexable other = true →
    other.1.value ≤ address → other.1.value ≤ symbol.1.value

/-- The address is one of those the symbol takes up. -/
def Covers (symbol : Symbol) (address : UInt64) : Prop :=
  symbol.value.toNat ≤ address.toNat ∧
    address.toNat < symbol.value.toNat + symbol.size.toNat

instance (symbol : Symbol) (address : UInt64) :
    Decidable (Covers symbol address) :=
  inferInstanceAs (Decidable (_ ∧ _))

theorem addresses_find? (hbuild : build image start = .ok () index)
    (address : UInt64) : index.addresses.find? address = keptAt image address := by
  obtain ⟨-, rfl⟩ := build_eq_ok.mp hbuild
  have htest : ∀ symbol ∈ (pointers image).filter isIndexable,
      (symbol.1.value == address) = true ↔ symbol.1.value = address := by
    intro symbol _
    exact beq_iff_eq
  rw [collected, find?_collect htest, List.filter_filter, keptAt]
  congr 2
  funext symbol
  exact Bool.and_comm _ _

theorem keptAt_value {address : UInt64} {symbol : SymbolPointer}
    (hkept : keptAt image address = some symbol) :
    symbol.1.value = address ∧ isIndexable symbol = true ∧
      symbol ∈ pointers image := by
  obtain ⟨hmem, htest⟩ := List.mem_filter.mp (preferred_mem hkept)
  rw [Bool.and_eq_true, beq_iff_eq] at htest
  exact ⟨htest.2, htest.1, hmem⟩

theorem exists_keptAt {symbol : SymbolPointer} (hmem : symbol ∈ pointers image)
    (hindexable : isIndexable symbol = true) :
    ∃ kept, keptAt image symbol.1.value = some kept := by
  apply Option.ne_none_iff_exists'.mp
  intro hnone
  have hempty := preferred_eq_none.mp hnone
  have htest : (isIndexable symbol && symbol.1.value == symbol.1.value) =
      true := by simp [hindexable]
  have hin : symbol ∈ (pointers image).filter fun other =>
      isIndexable other && other.1.value == symbol.1.value :=
    List.mem_filter.mpr ⟨hmem, htest⟩
  rw [hempty] at hin
  contradiction

theorem beforeUpperBound_iff (hbuild : build image start = .ok () index)
    {address key : UInt64} {symbol : SymbolPointer} :
    index.addresses.beforeUpperBound address = some (key, symbol) ↔
      key = symbol.1.value ∧ IsNearest image address symbol := by
  constructor
  · intro hbefore
    obtain ⟨hmem, hle, hgreatest⟩ := beforeUpperBound_eq_some hbefore
    have hkept := addresses_find? hbuild key
    rw [find?_eq_some.mpr hmem, eq_comm] at hkept
    obtain ⟨rfl, -, -⟩ := keptAt_value hkept
    refine ⟨rfl, hkept, hle, ?_⟩
    intro other hother hindexable hbelow
    obtain ⟨kept, hfound⟩ := exists_keptAt hother hindexable
    rw [← addresses_find? hbuild, find?_eq_some] at hfound
    exact hgreatest _ hfound hbelow
  · rintro ⟨rfl, hnearest⟩
    have hfound := hnearest.kept
    rw [← addresses_find? hbuild, find?_eq_some] at hfound
    cases hbefore : index.addresses.beforeUpperBound address with
    | none =>
        have habove := beforeUpperBound_eq_none.mp hbefore _ hfound
        exact absurd hnearest.below (not_le.mpr habove)
    | some entry =>
        obtain ⟨hmem, hle, hgreatest⟩ := beforeUpperBound_eq_some hbefore
        have hkept := addresses_find? hbuild entry.1
        rw [find?_eq_some.mpr hmem, eq_comm] at hkept
        obtain ⟨hvalue, hindexable, hother⟩ := keptAt_value hkept
        have hback := hnearest.greatest entry.2 hother hindexable
          (hvalue.trans_le hle)
        have hsame : entry.1 = symbol.1.value :=
          le_antisymm (hvalue ▸ hback) (hgreatest _ hfound hnearest.below)
        rw [key_injective hmem hfound hsame]

theorem displacement_lt {symbol : SymbolPointer} {address : UInt64}
    (hcovers : Covers symbol.1 address) :
    ¬(symbol.1.size ≠ 0 ∧ address - symbol.1.value ≥ symbol.1.size) := by
  rintro ⟨-, hbeyond⟩
  obtain ⟨hbelow, hinside⟩ := hcovers
  have hdistance := UInt64.toNat_sub_of_le address symbol.1.value
    (UInt64.le_iff_toNat_le.mpr hbelow)
  have hsize := UInt64.le_iff_toNat_le.mp hbeyond
  omega

/-- The lookup finds a symbol that covers the address exactly when the one
kept for the greatest start not above it does, and then it finds that one. -/
theorem nearest_covers_iff (image : BinaryImage) (start index : SymbolIndex)
    (hbuild : build image start = .ok () index) (address : UInt64)
    (symbol : SymbolPointer) :
    (index.nearest address).symbol = some symbol ∧ Covers symbol.1 address ↔
      IsNearest image address symbol ∧ Covers symbol.1 address := by
  apply and_congr_left
  intro hcovers
  have hpasses := displacement_lt hcovers
  unfold nearest
  constructor
  · intro hfound
    cases hbefore : index.addresses.beforeUpperBound address with
    | none =>
        rw [hbefore] at hfound
        contradiction
    | some entry =>
        obtain ⟨key, candidate⟩ := entry
        rw [hbefore] at hfound
        simp only at hfound
        split_ifs at hfound
        cases hfound
        exact ((beforeUpperBound_iff hbuild).mp hbefore).2
  · intro hnearest
    rw [(beforeUpperBound_iff hbuild).mpr ⟨rfl, hnearest⟩]
    exact if_neg hpasses

/-- A function, one inside it, and an address behind the inner one. -/
def outer : Symbol := { name := "outer", value := 16, size := 64 }

def inner : Symbol := { name := "inner", value := 32, size := 4 }

def nestedImage : BinaryImage := { symbols := [outer, inner] }

theorem nearest_covers_nestedImage :
    ((collected {} nestedImage).nearest 34).symbol = some (inner, 1) ∧
      Covers inner 34 := by
  have hinner : IsNearest nestedImage 34 (inner, 1) :=
    ⟨by decide, by decide, by decide⟩
  exact (nearest_covers_iff nestedImage {} (collected {} nestedImage)
    (build_small (by decide)) 34 (inner, 1)).mpr ⟨hinner, by decide⟩

/-- The outer function covers the address, and the lookup finds nothing. -/
theorem nestedImage_hides_outer :
    build nestedImage {} = .ok () (collected {} nestedImage) ∧
      outer ∈ nestedImage.symbols ∧ isIndexable (outer, 0) = true ∧
      Covers outer 48 ∧
      ((collected {} nestedImage).nearest 48).symbol = none :=
  ⟨build_small (by decide), by decide, by decide, by decide, by decide⟩

end SymbolIndex
end BinForge
