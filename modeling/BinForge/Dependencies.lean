import BinForge.Accumulators
import BinForge.ImageDiff

/-!
# Dependencies

`DependencyAnalyzer::analyze` gathers, library by library, what an image
imports and exports by its tables and by its symbols, counts the imports that a
resolver knows, and lists the exports that repeat one.
-/

namespace BinForge

open OrderedMap
open ImageDiffer (nameOr)

/-- A set of strings. -/
abbrev NameSet := OrderedMap Bytes Unit

structure DependencyNode where
  library : Bytes := []
  imports : NameSet := empty
  exports : NameSet := empty
  unresolved : NameSet := empty
  deriving DecidableEq

structure DependencyReport where
  libraries : OrderedMap Bytes DependencyNode := empty
  duplicateExports : List Bytes := []
  resolved : UInt32 := 0
  unresolved : UInt32 := 0
  deriving DecidableEq

namespace DependencyAnalyzer

/-! ## The three loops -/

/-- The node of a library, inserted if it is not there, with its name set and
then changed. -/
def enter (libraries : OrderedMap Bytes DependencyNode) (library : Bytes)
    (change : DependencyNode → DependencyNode) :
    OrderedMap Bytes DependencyNode :=
  accumulate {} libraries library fun node => change { node with library }

def importIdentity (symbol : Import) : Bytes :=
  nameOr symbol.name symbol.ordinal.toNat

def exportIdentity (symbol : Export) : Bytes :=
  nameOr symbol.name symbol.ordinal.toNat

/-- Without a resolver nothing is resolved. -/
def resolves (resolver : Option SymbolResolver) (symbol : Import) : Bool :=
  resolver.any fun resolver =>
    (resolver.resolve symbol.library symbol.name symbol.ordinal).isSome

def noteImport (resolver : Option SymbolResolver) (report : DependencyReport)
    (symbol : Import) : DependencyReport :=
  let identity := importIdentity symbol
  let libraries := enter report.libraries symbol.library fun node =>
    { node with imports := node.imports.emplace identity () }
  if resolves resolver symbol then
    { report with libraries, resolved := report.resolved + 1 }
  else
    { report with
      libraries := libraries.adjust symbol.library fun node =>
        { node with unresolved := node.unresolved.emplace identity () }
      unresolved := report.unresolved + 1 }

/-- The name the image's own exports go under. -/
def ownLibrary (image : BinaryImage) : Bytes :=
  if image.header.format = .peLike then "self.dll" else "self"

/-- The report goes along with the exports seen so far. -/
def noteExport (library : Bytes)
    (state : DependencyReport × OrderedMap (Bytes ×ₗ Bytes) Unit)
    (symbol : Export) :
    DependencyReport × OrderedMap (Bytes ×ₗ Bytes) Unit :=
  let (report, seen) := state
  let identity := exportIdentity symbol
  let key := toLex (library, identity)
  let duplicateExports :=
    if seen.contains key then
      report.duplicateExports ++ [library ++ ascii "!" ++ identity]
    else report.duplicateExports
  ({ report with
     libraries := enter report.libraries library fun node =>
       { node with exports := node.exports.emplace identity () }
     duplicateExports },
    seen.emplace key ())

/-- Symbols count under their names, and exported ones under no other library
than this. -/
def noteSymbol (report : DependencyReport) (symbol : Symbol) :
    DependencyReport :=
  match symbol.binding with
  | .importSymbol =>
      { report with
        libraries := enter report.libraries symbol.library fun node =>
          { node with imports := node.imports.emplace symbol.name () } }
  | .exportSymbol =>
      { report with
        libraries := enter report.libraries "self" fun node =>
          { node with exports := node.exports.emplace symbol.name () } }
  | _ => report

/-- The imports and the exports are cut at their limits, the symbols are
not. -/
def analyze (limits : Limits) (image : BinaryImage)
    (resolver : Option SymbolResolver) : DependencyReport :=
  let report := (image.imports.take limits.maxImports.toNat).foldl
    (noteImport resolver) {}
  let (report, _) := (image.exports.take limits.maxExports.toNat).foldl
    (noteExport (ownLibrary image)) (report, empty)
  image.symbols.foldl noteSymbol report

/-! ## What the report is about -/

variable (limits : Limits) (image : BinaryImage)
  (resolver : Option SymbolResolver)

/-- The imports and the exports that are looked at. -/
def readImports : List Import := image.imports.take limits.maxImports.toNat

def readExports : List Export := image.exports.take limits.maxExports.toNat

def Imports (library identity : Bytes) : Prop :=
  (∃ symbol ∈ readImports limits image,
    symbol.library = library ∧ importIdentity symbol = identity) ∨
  ∃ symbol ∈ image.symbols, symbol.binding = .importSymbol ∧
    symbol.library = library ∧ symbol.name = identity

def Exports (library identity : Bytes) : Prop :=
  (library = ownLibrary image ∧
    ∃ symbol ∈ readExports limits image, exportIdentity symbol = identity) ∨
  library = ascii "self" ∧ ∃ symbol ∈ image.symbols,
    symbol.binding = .exportSymbol ∧ symbol.name = identity

def Misses (library identity : Bytes) : Prop :=
  ∃ symbol ∈ readImports limits image, symbol.library = library ∧
    importIdentity symbol = identity ∧ resolves resolver symbol = false

/-- A set holds exactly the names with the property. -/
def Holds (set : NameSet) (property : Bytes → Prop) : Prop :=
  ∀ identity, set.contains identity = true ↔ property identity

/-- The report lists exactly what the image imports and exports, once per
library, and counts every import that is looked at. -/
structure Exact (report : DependencyReport) : Prop where
  listed : ∀ library, report.libraries.contains library = true ↔
    ∃ identity, Imports limits image library identity ∨
      Exports limits image library identity
  named : ∀ library node, report.libraries.find? library = some node →
    node.library = library
  imported : ∀ library node, report.libraries.find? library = some node →
    Holds node.imports (Imports limits image library)
  exported : ∀ library node, report.libraries.find? library = some node →
    Holds node.exports (Exports limits image library)
  missing : ∀ library node, report.libraries.find? library = some node →
    Holds node.unresolved (Misses limits image resolver library)
  duplicates : report.duplicateExports =
    (KeyedIndex.repeats exportIdentity [] (readExports limits image)).map
      fun symbol => ownLibrary image ++ ascii "!" ++ exportIdentity symbol
  resolvedCount : report.resolved.toNat =
    (readImports limits image).countP (resolves resolver)
  unresolvedCount : report.unresolved.toNat =
    (readImports limits image).countP fun symbol => !resolves resolver symbol

/-! ## Mentions -/

/-- What one import, export or symbol adds to the node of its library. -/
structure Mention where
  library : Bytes
  imported : Option Bytes := none
  exported : Option Bytes := none
  missing : Option Bytes := none
  deriving DecidableEq, Repr

/-- Add a name to a set, if there is one. -/
def insertName (set : NameSet) (name : Option Bytes) : NameSet :=
  name.elim set fun name => set.emplace name ()

def Mention.enter (mention : Mention) (node : DependencyNode) :
    DependencyNode :=
  { library := mention.library
    imports := insertName node.imports mention.imported
    exports := insertName node.exports mention.exported
    unresolved := insertName node.unresolved mention.missing }

def importMention (symbol : Import) : Mention :=
  { library := symbol.library
    imported := some (importIdentity symbol)
    missing :=
      if resolves resolver symbol then none
      else some (importIdentity symbol) }

def exportMention (symbol : Export) : Mention :=
  { library := ownLibrary image
    exported := some (exportIdentity symbol) }

def symbolMention (symbol : Symbol) : Option Mention :=
  match symbol.binding with
  | .importSymbol =>
      some { library := symbol.library, imported := some symbol.name }
  | .exportSymbol => some { library := "self", exported := some symbol.name }
  | _ => none

def mentions : List Mention :=
  (readImports limits image).map (importMention resolver) ++
    (readExports limits image).map (exportMention image) ++
    image.symbols.filterMap symbolMention

variable {limits image resolver} {set : NameSet} {identity library : Bytes}

theorem contains_foldl_insertName {names : List (Option Bytes)} :
    (names.foldl insertName set).contains identity = true ↔
      set.contains identity = true ∨ some identity ∈ names := by
  induction names generalizing set with
  | nil => simp
  | cons name names ih =>
      rw [List.foldl_cons, ih, List.mem_cons, ← or_assoc]
      refine or_congr_left ?_
      cases name with
      | none => simp [insertName]
      | some name =>
          rw [insertName, Option.elim_some, contains_emplace, or_comm,
            Option.some.injEq]

/-- What is added to one set of a node. -/
theorem foldl_enter {mentions : List Mention} (view : DependencyNode → NameSet)
    (name : Mention → Option Bytes)
    (hview : ∀ (mention : Mention) node,
      view (mention.enter node) = insertName (view node) (name mention))
    (node : DependencyNode) :
    view (mentions.foldl (fun node mention => mention.enter node) node) =
      (mentions.map name).foldl insertName (view node) := by
  induction mentions generalizing node with
  | nil => rfl
  | cons mention mentions ih =>
      rw [List.foldl_cons, ih, hview, List.map_cons, List.foldl_cons]

/-! ## The loops as mentions -/

/-- The libraries filled by a list of mentions. -/
def enterAll (libraries : OrderedMap Bytes DependencyNode)
    (mentions : List Mention) : OrderedMap Bytes DependencyNode :=
  mentions.foldl (fun libraries mention =>
    accumulate {} libraries mention.library mention.enter) libraries

theorem enterAll_append (libraries : OrderedMap Bytes DependencyNode)
    (first second : List Mention) :
    enterAll libraries (first ++ second) =
      enterAll (enterAll libraries first) second :=
  List.foldl_append

theorem noteImport_libraries (report : DependencyReport) (symbol : Import) :
    (noteImport resolver report symbol).libraries =
      accumulate {} report.libraries symbol.library
        (importMention resolver symbol).enter := by
  unfold noteImport importMention
  dsimp only
  split
  · rfl
  · dsimp only
    rw [enter, accumulate, adjust_adjust]
    rfl

theorem importLoop_libraries (symbols : List Import)
    (report : DependencyReport) :
    (symbols.foldl (noteImport resolver) report).libraries =
      enterAll report.libraries (symbols.map (importMention resolver)) := by
  induction symbols generalizing report with
  | nil => rfl
  | cons symbol symbols ih =>
      rw [List.foldl_cons, ih, noteImport_libraries]
      rfl

theorem exportLoop_libraries (symbols : List Export)
    (state : DependencyReport × OrderedMap (Bytes ×ₗ Bytes) Unit) :
    (symbols.foldl (noteExport (ownLibrary image)) state).1.libraries =
      enterAll state.1.libraries (symbols.map (exportMention image)) := by
  induction symbols generalizing state with
  | nil => rfl
  | cons symbol symbols ih =>
      rw [List.foldl_cons, ih]
      rfl

theorem symbolLoop_libraries (symbols : List Symbol)
    (report : DependencyReport) :
    (symbols.foldl noteSymbol report).libraries =
      enterAll report.libraries (symbols.filterMap symbolMention) := by
  induction symbols generalizing report with
  | nil => rfl
  | cons symbol symbols ih =>
      rw [List.foldl_cons, ih]
      unfold noteSymbol symbolMention
      rw [List.filterMap_cons]
      cases symbol.binding <;> rfl

/-- The symbols change nothing but the libraries. -/
theorem symbolLoop_counts (symbols : List Symbol) (report : DependencyReport) :
    let last := symbols.foldl noteSymbol report
    last.duplicateExports = report.duplicateExports ∧
      last.resolved = report.resolved ∧
      last.unresolved = report.unresolved := by
  induction symbols generalizing report with
  | nil => exact ⟨rfl, rfl, rfl⟩
  | cons symbol symbols ih =>
      obtain ⟨hduplicates, hresolved, hunresolved⟩ :=
        ih (noteSymbol report symbol)
      have hsame : (noteSymbol report symbol).duplicateExports =
            report.duplicateExports ∧
          (noteSymbol report symbol).resolved = report.resolved ∧
          (noteSymbol report symbol).unresolved = report.unresolved := by
        unfold noteSymbol
        cases symbol.binding <;> exact ⟨rfl, rfl, rfl⟩
      exact ⟨hduplicates.trans hsame.1, hresolved.trans hsame.2.1,
        hunresolved.trans hsame.2.2⟩

theorem analyze_libraries :
    (analyze limits image resolver).libraries =
      gather {} Mention.library Mention.enter
        (mentions limits image resolver) := by
  unfold analyze
  rw [symbolLoop_libraries, exportLoop_libraries, importLoop_libraries,
    ← enterAll_append, ← enterAll_append, mentions, List.append_assoc]
  rfl

theorem importLoop_duplicates (symbols : List Import)
    (report : DependencyReport) :
    (symbols.foldl (noteImport resolver) report).duplicateExports =
      report.duplicateExports := by
  induction symbols generalizing report with
  | nil => rfl
  | cons symbol symbols ih =>
      rw [List.foldl_cons, ih, noteImport]
      split <;> rfl

/-- Each import raises one of the two counters. -/
theorem importLoop_counts (symbols : List Import) (report : DependencyReport)
    (hfit : report.resolved.toNat + report.unresolved.toNat + symbols.length <
      2 ^ 32) :
    (symbols.foldl (noteImport resolver) report).resolved.toNat =
        report.resolved.toNat + symbols.countP (resolves resolver) ∧
      (symbols.foldl (noteImport resolver) report).unresolved.toNat =
        report.unresolved.toNat +
          symbols.countP fun symbol => !resolves resolver symbol := by
  induction symbols generalizing report with
  | nil => exact ⟨rfl, rfl⟩
  | cons symbol symbols ih =>
      rw [List.length_cons] at hfit
      rw [List.foldl_cons, List.countP_cons, List.countP_cons]
      by_cases hknown : resolves resolver symbol = true
      · have hresolved : (noteImport resolver report symbol).resolved.toNat =
            report.resolved.toNat + 1 := by
          rw [noteImport, if_pos hknown]
          show (report.resolved + 1).toNat = _
          rw [UInt32.toNat_add, UInt32.toNat_one, Nat.mod_eq_of_lt (by omega)]
        have hunresolved :
            (noteImport resolver report symbol).unresolved =
              report.unresolved := by
          rw [noteImport, if_pos hknown]
        obtain ⟨hfirst, hsecond⟩ := ih (noteImport resolver report symbol)
          (by rw [hresolved, hunresolved]; omega)
        rw [hfirst, hsecond, hresolved, hunresolved, hknown]
        simp only [Bool.not_true, if_true, Bool.false_eq_true, if_false]
        omega
      · rw [Bool.not_eq_true] at hknown
        have hunresolved :
            (noteImport resolver report symbol).unresolved.toNat =
              report.unresolved.toNat + 1 := by
          rw [noteImport, if_neg (by simp [hknown])]
          show (report.unresolved + 1).toNat = _
          rw [UInt32.toNat_add, UInt32.toNat_one, Nat.mod_eq_of_lt (by omega)]
        have hresolved : (noteImport resolver report symbol).resolved =
            report.resolved := by
          rw [noteImport, if_neg (by simp [hknown])]
        obtain ⟨hfirst, hsecond⟩ := ih (noteImport resolver report symbol)
          (by rw [hresolved, hunresolved]; omega)
        rw [hfirst, hsecond, hresolved, hunresolved, hknown]
        simp only [Bool.not_false, if_true, Bool.false_eq_true, if_false]
        omega

/-- The set of the exports seen decides which of them repeat one. -/
theorem exportLoop_report (symbols : List Export)
    (state : DependencyReport × OrderedMap (Bytes ×ₗ Bytes) Unit)
    (seen : List Bytes)
    (hseen : ∀ identity,
      state.2.contains (toLex (library, identity)) = true ↔ identity ∈ seen) :
    let last := (symbols.foldl (noteExport library) state).1
    last.duplicateExports = state.1.duplicateExports ++
        (KeyedIndex.repeats exportIdentity seen symbols).map
          (fun symbol => library ++ ascii "!" ++ exportIdentity symbol) ∧
      last.resolved = state.1.resolved ∧
      last.unresolved = state.1.unresolved := by
  induction symbols generalizing state seen with
  | nil => exact ⟨(List.append_nil _).symm, rfl, rfl⟩
  | cons symbol symbols ih =>
      rw [List.foldl_cons]
      by_cases hrepeated : exportIdentity symbol ∈ seen
      · have hpresent := (hseen _).mpr hrepeated
        obtain ⟨hduplicates, hcounts⟩ := ih (noteExport library state symbol)
          seen fun identity => by
            show (state.2.emplace _ _).contains _ = true ↔ _
            rw [contains_emplace, hseen, toLex_inj, Prod.mk.injEq]
            exact or_iff_right_of_imp fun hsame => hsame.2 ▸ hrepeated
        rw [KeyedIndex.repeats_of_mem hrepeated, List.map_cons]
        refine ⟨?_, hcounts⟩
        rw [hduplicates]
        show (if _ then _ else _) ++ _ = _
        rw [if_pos hpresent, List.append_assoc]
        rfl
      · have habsent := mt (hseen _).mp hrepeated
        obtain ⟨hduplicates, hcounts⟩ := ih (noteExport library state symbol)
          (exportIdentity symbol :: seen) fun identity => by
            show (state.2.emplace _ _).contains _ = true ↔ _
            rw [contains_emplace, hseen, toLex_inj, Prod.mk.injEq,
              List.mem_cons]
            exact or_congr_left (and_iff_right rfl)
        rw [KeyedIndex.repeats_of_not_mem hrepeated]
        refine ⟨?_, hcounts⟩
        rw [hduplicates]
        show (if _ then _ else _) ++ _ = _
        rw [if_neg habsent]

/-! ## What the mentions say -/

theorem mem_mentions {mention : Mention} :
    mention ∈ mentions limits image resolver ↔
      (∃ symbol ∈ readImports limits image,
        importMention resolver symbol = mention) ∨
      (∃ symbol ∈ readExports limits image,
        exportMention image symbol = mention) ∨
      ∃ symbol ∈ image.symbols, symbolMention symbol = some mention := by
  rw [mentions, List.mem_append, List.mem_append, List.mem_map, List.mem_map,
    List.mem_filterMap, or_assoc]

theorem symbolMention_eq_some {symbol : Symbol} {mention : Mention} :
    symbolMention symbol = some mention ↔
      (symbol.binding = .importSymbol ∧
        mention = { library := symbol.library, imported := some symbol.name }) ∨
      symbol.binding = .exportSymbol ∧
        mention = { library := "self", exported := some symbol.name } := by
  unfold symbolMention
  cases symbol.binding <;> simp [eq_comm]

theorem imports_iff : Imports limits image library identity ↔
    ∃ mention ∈ mentions limits image resolver,
      mention.library = library ∧ mention.imported = some identity := by
  simp only [mem_mentions, Imports]
  constructor
  · rintro (⟨symbol, hsymbol, rfl, rfl⟩ | ⟨symbol, hsymbol, hkind, rfl, rfl⟩)
    · exact ⟨_, Or.inl ⟨symbol, hsymbol, rfl⟩, rfl, rfl⟩
    · exact ⟨_, Or.inr (Or.inr ⟨symbol, hsymbol,
        symbolMention_eq_some.mpr (Or.inl ⟨hkind, rfl⟩)⟩), rfl, rfl⟩
  · rintro ⟨_, ⟨symbol, hsymbol, rfl⟩ | ⟨symbol, hsymbol, rfl⟩ |
      ⟨symbol, hsymbol, hmention⟩, rfl, himported⟩
    · exact Or.inl ⟨symbol, hsymbol, rfl, Option.some.inj himported⟩
    · contradiction
    · rcases symbolMention_eq_some.mp hmention with
        ⟨hkind, rfl⟩ | ⟨hkind, rfl⟩
      · exact Or.inr ⟨symbol, hsymbol, hkind, rfl, Option.some.inj himported⟩
      · contradiction

theorem exports_iff : Exports limits image library identity ↔
    ∃ mention ∈ mentions limits image resolver,
      mention.library = library ∧ mention.exported = some identity := by
  simp only [mem_mentions, Exports]
  constructor
  · rintro (⟨rfl, symbol, hsymbol, rfl⟩ | ⟨rfl, symbol, hsymbol, hkind, rfl⟩)
    · exact ⟨_, Or.inr (Or.inl ⟨symbol, hsymbol, rfl⟩), rfl, rfl⟩
    · exact ⟨_, Or.inr (Or.inr ⟨symbol, hsymbol,
        symbolMention_eq_some.mpr (Or.inr ⟨hkind, rfl⟩)⟩), rfl, rfl⟩
  · rintro ⟨_, ⟨symbol, hsymbol, rfl⟩ | ⟨symbol, hsymbol, rfl⟩ |
      ⟨symbol, hsymbol, hmention⟩, rfl, hexported⟩
    · contradiction
    · exact Or.inl ⟨rfl, symbol, hsymbol, Option.some.inj hexported⟩
    · rcases symbolMention_eq_some.mp hmention with
        ⟨hkind, rfl⟩ | ⟨hkind, rfl⟩
      · contradiction
      · exact Or.inr ⟨rfl, symbol, hsymbol, hkind, Option.some.inj hexported⟩

theorem misses_iff : Misses limits image resolver library identity ↔
    ∃ mention ∈ mentions limits image resolver,
      mention.library = library ∧ mention.missing = some identity := by
  simp only [mem_mentions, Misses]
  constructor
  · rintro ⟨symbol, hsymbol, rfl, rfl, hunknown⟩
    exact ⟨_, Or.inl ⟨symbol, hsymbol, rfl⟩, rfl,
      if_neg (by rw [hunknown]; exact Bool.false_ne_true)⟩
  · rintro ⟨_, ⟨symbol, hsymbol, rfl⟩ | ⟨symbol, hsymbol, rfl⟩ |
      ⟨symbol, hsymbol, hmention⟩, rfl, hmissing⟩
    · obtain ⟨hunknown, hidentity⟩ :=
        Option.ite_none_left_eq_some.mp hmissing
      exact ⟨symbol, hsymbol, rfl, Option.some.inj hidentity,
        Bool.eq_false_of_not_eq_true hunknown⟩
    · contradiction
    · rcases symbolMention_eq_some.mp hmention with
        ⟨hkind, rfl⟩ | ⟨hkind, rfl⟩
      · contradiction
      · contradiction

/-- A mention names an import or an export. -/
theorem mention_names {mention : Mention}
    (hmention : mention ∈ mentions limits image resolver) :
    ∃ identity, mention.imported = some identity ∨
      mention.exported = some identity := by
  rcases mem_mentions.mp hmention with
    ⟨symbol, -, rfl⟩ | ⟨symbol, -, rfl⟩ | ⟨symbol, -, hsymbol⟩
  · exact ⟨_, Or.inl rfl⟩
  · exact ⟨_, Or.inr rfl⟩
  · rcases symbolMention_eq_some.mp hsymbol with ⟨-, rfl⟩ | ⟨-, rfl⟩
    · exact ⟨_, Or.inl rfl⟩
    · exact ⟨_, Or.inr rfl⟩

/-! ## The report -/

/-- The mentions of a library, in order. -/
def mentionsOf (limits : Limits) (image : BinaryImage)
    (resolver : Option SymbolResolver) (library : Bytes) : List Mention :=
  (mentions limits image resolver).filter fun mention =>
    mention.library = library

theorem find?_analyze :
    (analyze limits image resolver).libraries.find? library =
      if mentionsOf limits image resolver library = [] then none
      else some ((mentionsOf limits image resolver library).foldl
        (fun node mention => mention.enter node) {}) := by
  have hnone : mentionsOf limits image resolver library = [] ↔
      ¬∃ mention ∈ mentions limits image resolver,
        mention.library = library := by
    simp [mentionsOf, List.filter_eq_nil_iff]
  rw [analyze_libraries, find?_gather]
  by_cases hsome : ∃ mention ∈ mentions limits image resolver,
      mention.library = library
  · have hsame : ((mentions limits image resolver).filter fun mention =>
        @decide (mention.library = library) (LinearOrder.toDecidableEq _ _)) =
        mentionsOf limits image resolver library :=
      List.filter_congr fun _ _ => decide_eq_decide.mpr Iff.rfl
    rw [if_pos hsome, if_neg (mt hnone.mp (not_not.mpr hsome)), hsame]
  · rw [if_neg hsome, if_pos (hnone.mpr hsome)]

theorem foldl_enter_library {mentions : List Mention} (node : DependencyNode)
    (hsome : mentions ≠ [])
    (hall : ∀ mention ∈ mentions, mention.library = library) :
    (mentions.foldl (fun node mention => mention.enter node) node).library =
      library := by
  rcases List.eq_nil_or_concat mentions with rfl | ⟨front, last, rfl⟩
  · contradiction
  · rw [List.concat_eq_append, List.foldl_append]
    exact hall last (by simp)

theorem mem_mentionsOf {mention : Mention} :
    mention ∈ mentionsOf limits image resolver library ↔
      mention ∈ mentions limits image resolver ∧
        mention.library = library := by
  rw [mentionsOf, List.mem_filter, decide_eq_true_eq]

theorem contains_analyze :
    (analyze limits image resolver).libraries.contains library = true ↔
      ∃ identity, Imports limits image library identity ∨
        Exports limits image library identity := by
  rw [contains_iff, find?_analyze]
  simp only [Option.ite_none_left_eq_some, exists_and_left,
    @imports_iff _ _ resolver, @exports_iff _ _ resolver]
  constructor
  · rintro ⟨hsome, -⟩
    obtain ⟨mention, hmention⟩ := List.exists_mem_of_ne_nil _ hsome
    obtain ⟨hmention, hlibrary⟩ := mem_mentionsOf.mp hmention
    obtain ⟨identity, hnamed⟩ := mention_names hmention
    exact ⟨identity, hnamed.imp
      (fun himported => ⟨mention, hmention, hlibrary, himported⟩)
      fun hexported => ⟨mention, hmention, hlibrary, hexported⟩⟩
  · rintro ⟨identity, ⟨mention, hmention, hlibrary, -⟩ |
      ⟨mention, hmention, hlibrary, -⟩⟩
    · exact ⟨List.ne_nil_of_mem (mem_mentionsOf.mpr ⟨hmention, hlibrary⟩),
        _, rfl⟩
    · exact ⟨List.ne_nil_of_mem (mem_mentionsOf.mpr ⟨hmention, hlibrary⟩),
        _, rfl⟩

/-- One of the sets of a node holds what its library's mentions name. -/
theorem holds_of_view {node : DependencyNode} {property : Bytes → Prop}
    (view : DependencyNode → NameSet) (name : Mention → Option Bytes)
    (hview : ∀ (mention : Mention) node,
      view (mention.enter node) = insertName (view node) (name mention))
    (hstart : view {} = empty)
    (hproperty : ∀ identity, property identity ↔
      ∃ mention ∈ mentions limits image resolver,
        mention.library = library ∧ name mention = some identity)
    (hnode : (analyze limits image resolver).libraries.find? library =
      some node) : Holds (view node) property := by
  intro identity
  rw [find?_analyze] at hnode
  obtain ⟨-, hnode⟩ := Option.ite_none_left_eq_some.mp hnode
  rw [← Option.some.inj hnode, foldl_enter view name hview,
    contains_foldl_insertName, hstart, hproperty]
  simp [mem_mentionsOf, contains, find?, empty, and_assoc]

/-- Whatever the image and the resolver, the report is exact. -/
theorem analyze_exact (limits : Limits) (image : BinaryImage)
    (resolver : Option SymbolResolver) :
    Exact limits image resolver (analyze limits image resolver) := by
  have hlength : (readImports limits image).length < 2 ^ 32 :=
    (List.length_take_le _ _).trans_lt limits.maxImports.toNat_lt
  obtain ⟨hresolved, hunresolved⟩ := @importLoop_counts resolver
    (readImports limits image) {} (by
      show 0 + 0 + _ < _
      omega)
  have hexports := @exportLoop_report (ownLibrary image)
    (readExports limits image)
    ((readImports limits image).foldl (noteImport resolver) {}, empty) []
    (by simp [contains, find?, empty])
  have hsymbols := symbolLoop_counts image.symbols
    ((readExports limits image).foldl (noteExport (ownLibrary image))
      ((readImports limits image).foldl (noteImport resolver) {}, empty)).1
  refine
    { listed := fun library => contains_analyze
      named := fun library node hnode => ?_
      imported := fun library node hnode =>
        holds_of_view DependencyNode.imports Mention.imported
          (fun _ _ => rfl) rfl (fun _ => imports_iff) hnode
      exported := fun library node hnode =>
        holds_of_view DependencyNode.exports Mention.exported
          (fun _ _ => rfl) rfl (fun _ => exports_iff) hnode
      missing := fun library node hnode =>
        holds_of_view DependencyNode.unresolved Mention.missing
          (fun _ _ => rfl) rfl (fun _ => misses_iff) hnode
      duplicates := ?_
      resolvedCount := ?_
      unresolvedCount := ?_ }
  · rw [find?_analyze] at hnode
    obtain ⟨hsome, hnode⟩ := Option.ite_none_left_eq_some.mp hnode
    rw [← Option.some.inj hnode]
    exact foldl_enter_library {} hsome fun mention hmention =>
      (mem_mentionsOf.mp hmention).2
  · refine hsymbols.1.trans (hexports.1.trans ?_)
    rw [importLoop_duplicates]
    rfl
  · refine (congrArg UInt32.toNat
      (hsymbols.2.1.trans hexports.2.1)).trans (hresolved.trans ?_)
    exact Nat.zero_add _
  · refine (congrArg UInt32.toNat
      (hsymbols.2.2.trans hexports.2.2)).trans (hunresolved.trans ?_)
    exact Nat.zero_add _

end DependencyAnalyzer
end BinForge
