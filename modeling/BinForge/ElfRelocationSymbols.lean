import BinForge.ElfFile
import BinForge.RelatedLists

/-!
# Symbols named by ELF relocations

A relocation record counts in the symbol table its section links to; the image
keeps the symbols of all tables in one list.  The stored index finds the right
symbol exactly when no symbols come ahead of the linked table's.
-/

namespace BinForge

open StatefulExcept
open ByteReader
open ElfFile

namespace ElfParser

variable {limits : Limits} {data : Bytes} {image : BinaryImage}

def symbolsAhead (data : Bytes) (link : ℕ) : ℕ :=
  (symbolEntries data ((sections data).take link)).length

/-- The symbol decoded from an entry of a section's symbol table. -/
def entrySymbol? (limits : Limits) (data : Bytes) (link k : ℕ) :
    Option Symbol :=
  match (sections data)[link]? with
  | none => none
  | some table =>
      if k < symbolCount data table then
        some (symbolOf limits data (table, k) (symbolsAhead data link + k))
      else none

/-! ## Places in the concatenation -/

theorem symbolEntries_getElem? {items : List RawSection} {link k : ℕ}
    {table : RawSection} (htable : items[link]? = some table)
    (hk : k < symbolCount data table) :
    (symbolEntries data items)[
      (symbolEntries data (items.take link)).length + k]? = some (table, k) := by
  obtain ⟨hlink, rfl⟩ := List.getElem?_eq_some_iff.mp htable
  have hsplit : symbolEntries data items =
      symbolEntries data (items.take link) ++
        ((List.range (symbolCount data items[link])).map fun j =>
          (items[link], j)) ++ symbolEntries data (items.drop (link + 1)) := by
    conv_lhs =>
      rw [← List.take_append_drop link items, List.drop_eq_getElem_cons hlink]
    rw [symbolEntries, List.flatMap_append, List.flatMap_cons,
      ← List.append_assoc]
    rfl
  rw [hsplit, List.append_assoc, List.getElem?_append_right
      (Nat.le_add_right _ _), Nat.add_sub_cancel_left,
    List.getElem?_append_left (by simpa using hk), List.getElem?_map,
    List.getElem?_range hk, Option.map_some]

theorem symbolsOf_getElem? (entries : List TableEntry) (k : ℕ) :
    (symbolsOf limits data entries)[k]? =
      entries[k]?.map fun entry => symbolOf limits data entry k := by
  rw [symbolsOf, List.getElem?_mapIdx]

/-! ## Named symbols -/

/-- Its symbol index finds the symbol decoded from the entry that the record
counts to in its section's linked table. -/
def Named (limits : Limits) (data : Bytes) (image : BinaryImage)
    (record : TableEntry) (relocation : Relocation) : Prop :=
  relocation.symbolIndex ≠ 0 →
    ∃ symbol, entrySymbol? limits data record.1.link.toNat
        relocation.symbolIndex.toNat = some symbol ∧
      image.symbol? relocation.symbolIndex = some symbol

/-- The linked section has the entry, and no symbols lie ahead of its own.  In
a file of 2 ^ 32 symbols or more, whose indices repeat, an equal symbol with
the same index may stand in its place. -/
def Leads (limits : Limits) (data : Bytes) (link k : ℕ) : Prop :=
  ∃ table, (sections data)[link]? = some table ∧ k < symbolCount data table ∧
    (symbolsAhead data link = 0 ∨
      2 ^ 32 ∣ symbolsAhead data link ∧
        ∃ other, (symbolEntries data (sections data))[k]? = some other ∧
          symbolOf limits data other k = symbolOf limits data (table, k) k)

theorem symbolOf_congr {entry : TableEntry} {first second : ℕ}
    (hsame : UInt32.ofNat first = UInt32.ofNat second) :
    symbolOf limits data entry first = symbolOf limits data entry second := by
  rw [symbolOf, SymbolEntry.toSymbol, hsame]
  rfl

theorem ofNat_eq_add_iff {ahead k : ℕ} :
    UInt32.ofNat k = UInt32.ofNat (ahead + k) ↔ 2 ^ 32 ∣ ahead := by
  rw [← UInt32.toNat_inj, UInt32.toNat_ofNat', UInt32.toNat_ofNat']
  omega

theorem Parsed.symbol?_eq (hparsed : Parsed limits data image)
    (index : UInt32) :
    image.symbol? index =
      (symbolEntries data (ElfFile.sections data))[index.toNat]?.map
        fun entry => symbolOf limits data entry index.toNat := by
  rw [BinaryImage.symbol?, hparsed.symbols, symbolsOf_getElem?]

theorem Parsed.named_iff (hparsed : Parsed limits data image)
    {record : TableEntry} {relocation : Relocation}
    (hstored : Stores data record relocation) :
    Named limits data image record relocation ↔
      (recordSymbol data record ≠ 0 →
        Leads limits data record.1.link.toNat
          (recordSymbol data record).toNat) := by
  unfold Named
  rw [hstored]
  refine imp_congr_right fun _ => ?_
  generalize recordSymbol data record = index
  generalize record.1.link.toNat = link
  rw [hparsed.symbol?_eq, entrySymbol?, Leads]
  cases htable : (ElfFile.sections data)[link]? with
  | none => simp
  | some table =>
      simp only [Option.some.injEq, exists_eq_left']
      by_cases hk : index.toNat < symbolCount data table
      · have hentry := symbolEntries_getElem? htable hk
        rw [if_pos hk]
        simp only [Option.some.injEq, exists_eq_left', hk, true_and,
          Option.map_eq_some_iff]
        rw [← symbolsAhead] at hentry
        constructor
        · rintro ⟨other, hother, hsame⟩
          have hrepeats := ofNat_eq_add_iff.mp (congrArg Symbol.index hsame)
          refine Or.inr ⟨hrepeats, other, hother, hsame.trans ?_⟩
          exact symbolOf_congr (ofNat_eq_add_iff.mpr hrepeats).symm
        · rintro (hnone | ⟨hrepeats, other, hother, hsame⟩)
          · rw [hnone, Nat.zero_add] at hentry ⊢
            exact ⟨_, hentry, rfl⟩
          · exact ⟨other, hother, hsame.trans
              (symbolOf_congr (ofNat_eq_add_iff.mpr hrepeats))⟩
      · rw [if_neg hk]
        simp [hk]

/-- In an accepted file every relocation with a symbol names the entry of its
section's linked table exactly when every such record leads to its entry. -/
theorem parse_relocations_named_iff (hrun : parse limits data = .ok image) :
    List.Forall₂ (Named limits data image)
        (relocationRecords data (sections data)) image.relocations ↔
      ∀ record ∈ relocationRecords data (sections data),
        recordSymbol data record ≠ 0 →
          Leads limits data record.1.link.toNat
            (recordSymbol data record).toNat := by
  have hparsed := parse_ok hrun
  exact RelatedLists.forall₂_iff hparsed.relocations.stored
    fun _ _ hstored => hparsed.named_iff hstored

def sectionWords (type offset size link entrySize : UInt32) : List UInt32 :=
  [0, type, 0, 0, offset, size, link, 0, 0, entrySize]

/-- Two symbol tables, of one symbol and of two, and a relocation by the second
symbol of the second table. -/
def twoTablesFile : Bytes :=
  ([0x464c457f, 0x101, 0, 0, 0x30002, 1, 0, 0, 108, 0, 52, 0x280000, 3] ++
    [0, 0x10, 0, 0x10000] ++ [0, 0x20, 0, 0x10000] ++ [0, 0x30, 0, 0x10000] ++
    [0x1000, 0x108] ++ sectionWords 2 52 16 0 16 ++ sectionWords 11 68 32 0 16 ++
    sectionWords 9 100 8 1 8).flatMap u32Bytes

theorem parse_relocations_named_iff_two_tables :
    ∃ image, parse {} twoTablesFile = .ok image ∧
      (List.Forall₂ (Named {} twoTablesFile image)
          (relocationRecords twoTablesFile (sections twoTablesFile))
          image.relocations ↔
        ∀ record ∈ relocationRecords twoTablesFile (sections twoTablesFile),
          recordSymbol twoTablesFile record ≠ 0 →
            Leads {} twoTablesFile record.1.link.toNat
              (recordSymbol twoTablesFile record).toNat) := by
  obtain ⟨image, hrun, _⟩ := toOption_bind_eq_some.mp (by decide +kernel :
    ((parse {} twoTablesFile).toOption.bind fun image =>
      image.symbols[1]?.map Symbol.value) = some 0x20)
  exact ⟨image, hrun, parse_relocations_named_iff hrun⟩

/-- The relocation finds the first symbol of the second table. -/
theorem parse_misnames_relocation :
    ¬∀ limits data image, parse limits data = .ok image →
      List.Forall₂ (Named limits data image)
        (relocationRecords data (sections data)) image.relocations := by
  intro hall
  obtain ⟨image, hrun, hview⟩ := toOption_bind_eq_some.mp (by decide +kernel :
    ((parse {} twoTablesFile).toOption.bind fun image =>
      some (image.relocations.map Relocation.symbolIndex,
        (image.symbol? 1).map Symbol.value)) = some ([1], some 0x20))
  simp only [Option.some.injEq, Prod.mk.injEq] at hview
  obtain ⟨hindex, hvalue⟩ := hview
  have hlinks : (relocationRecords twoTablesFile (sections twoTablesFile)).map
      (fun record => record.1.link) = [1] := by decide +kernel
  have hentry : (entrySymbol? {} twoTablesFile 1 1).map Symbol.value =
      some 0x30 := by decide +kernel
  have hnamed := hall _ _ _ hrun
  obtain ⟨relocation, hrelocations, hindex⟩ := List.map_eq_singleton_iff.mp hindex
  obtain ⟨record, hrecords, hlink⟩ := List.map_eq_singleton_iff.mp hlinks
  rw [hrelocations, hrecords, List.forall₂_cons] at hnamed
  have hone : relocation.symbolIndex ≠ 0 := by rw [hindex]; decide
  obtain ⟨symbol, hdecoded, hfound⟩ := hnamed.1 hone
  rw [hindex] at hdecoded hfound
  rw [hlink] at hdecoded
  rw [show (1 : UInt32).toNat = 1 from rfl] at hdecoded
  rw [hdecoded, Option.map_some] at hentry
  rw [hfound, Option.map_some, hentry] at hvalue
  exact absurd hvalue (by decide)

end ElfParser
end BinForge
