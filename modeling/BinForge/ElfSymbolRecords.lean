import BinForge.ElfSymbolBudget

/-!
# The records symbols are read from

A symbol table is divided by its own entry size, and a record is read from the
front of every entry without regard to where the entry or the table ends.
-/

namespace BinForge

open StatefulExcept
open ElfFile

namespace ElfParser

variable {limits : Limits} {data : Bytes}

/-- Where the record of a table entry begins. -/
def recordPlace (entry : TableEntry) : ℕ :=
  (entry.1.offset + UInt64.ofNat entry.2 * entry.1.entrySize).toNat

/-- The record of a table entry lies in its table. -/
def InTable (data : Bytes) (entry : TableEntry) : Prop :=
  entry.1.offset.toNat ≤ recordPlace entry ∧
    recordPlace entry + symbolBytes (wide data) ≤
      entry.1.offset.toNat + entry.1.size.toNat

instance (data : Bytes) (entry : TableEntry) : Decidable (InTable data entry) :=
  inferInstanceAs (Decidable (_ ∧ _))

/-- Two records share no byte. -/
def Apart (data : Bytes) (first second : TableEntry) : Prop :=
  recordPlace first + symbolBytes (wide data) ≤ recordPlace second ∨
    recordPlace second + symbolBytes (wide data) ≤ recordPlace first

/-- Every symbol of the image is read from a record inside its table, and the
records of a table do not overlap. -/
structure ReadInTables (limits : Limits) (data : Bytes) (image : BinaryImage) :
    Prop where
  symbols : image.symbols =
    symbolsOf limits data (symbolEntries data (sections data))
  inside : ∀ entry ∈ symbolEntries data (sections data), InTable data entry
  apart : ∀ table ∈ sections data, ∀ i < symbolCount data table,
    ∀ j < symbolCount data table, i ≠ j → Apart data (table, i) (table, j)

/-- A table whose entries are large enough for records: it has none, or they
are as long as records, or its only one is followed by enough of the table. -/
def Roomy (data : Bytes) (table : RawSection) : Prop :=
  symbolCount data table = 0 ∨
    symbolBytes (wide data) ≤ table.entrySize.toNat ∨
    symbolCount data table = 1 ∧ symbolBytes (wide data) ≤ table.size.toNat

instance (data : Bytes) (table : RawSection) : Decidable (Roomy data table) :=
  inferInstanceAs (Decidable (_ ∨ _ ∨ _))

theorem mem_symbolEntries {entry : TableEntry} {items : List RawSection} :
    entry ∈ symbolEntries data items ↔
      entry.1 ∈ items ∧ entry.2 < symbolCount data entry.1 := by
  obtain ⟨table, j⟩ := entry
  simp [symbolEntries]

/-- A section with entries is a stored symbol table. -/
theorem storedTable_of_count {table : RawSection} {j : ℕ}
    (hstored : StoredInside data table) (hj : j < symbolCount data table) :
    StoredTable data table := by
  apply storedTable hstored
  by_contra hnone
  rw [symbolCount, if_neg hnone] at hj
  exact Nat.not_lt_zero _ hj

section

variable (hlength : data.length < 2 ^ 64) {table : RawSection}
  (htable : StoredTable data table)
include hlength htable

theorem recordPlace_eq {j : ℕ} (hj : j < symbolCount data table) :
    recordPlace (table, j) =
      table.offset.toNat + j * table.entrySize.toNat :=
  (htable.place hlength hj).1

omit hlength in
theorem entries_le_size :
    symbolCount data table * table.entrySize.toNat ≤ table.size.toNat := by
  rw [← htable.count, UInt64.toNat_div]
  exact Nat.div_mul_le_self _ _

/-- The records of a table with large entries. -/
theorem records_of_stride
    (hstride : symbolBytes (wide data) ≤ table.entrySize.toNat) :
    (∀ j < symbolCount data table, InTable data (table, j)) ∧
      ∀ i < symbolCount data table, ∀ j < symbolCount data table, i < j →
        recordPlace (table, i) + symbolBytes (wide data) ≤
          recordPlace (table, j) := by
  have hsize := entries_le_size htable
  constructor
  · intro j hj
    have hentry : (j + 1) * table.entrySize.toNat ≤
        symbolCount data table * table.entrySize.toNat :=
      Nat.mul_le_mul_right _ hj
    rw [Nat.succ_mul] at hentry
    unfold InTable
    rw [recordPlace_eq hlength htable hj]
    dsimp only
    omega
  · intro i hi j hj hlt
    have hentry : (i + 1) * table.entrySize.toNat ≤
        j * table.entrySize.toNat := Nat.mul_le_mul_right _ hlt
    rw [Nat.succ_mul] at hentry
    rw [recordPlace_eq hlength htable hi, recordPlace_eq hlength htable hj]
    omega

/-- The first record alone. -/
theorem inTable_first_iff (hcount : 0 < symbolCount data table) :
    InTable data (table, 0) ↔
      symbolBytes (wide data) ≤ table.size.toNat := by
  unfold InTable
  rw [recordPlace_eq hlength htable hcount]
  dsimp only
  omega

/-- Two records that do not overlap leave room for one each. -/
theorem stride_of_apart (hcount : 1 < symbolCount data table)
    (hapart : Apart data (table, 0) (table, 1)) :
    symbolBytes (wide data) ≤ table.entrySize.toNat := by
  have hpositive : 0 < symbolBytes (wide data) := by
    unfold symbolBytes
    split_ifs <;> decide
  unfold Apart at hapart
  rw [recordPlace_eq hlength htable hcount,
    recordPlace_eq hlength htable (by omega)] at hapart
  omega

end

/-- The symbols of an accepted image come from records inside their tables
exactly when the entries of every table have room for them. -/
theorem read_in_tables_iff {image : BinaryImage}
    (hlength : data.length < 2 ^ 64)
    (hrun : parse limits data = .ok image) :
    ReadInTables limits data image ↔ ∀ table ∈ sections data, Roomy data table := by
  have hparsed := parse_ok hrun
  constructor
  · intro hread table hmem
    have hstored := hparsed.stored table hmem
    rcases Nat.lt_trichotomy (symbolCount data table) 1 with hnone | hone | hmore
    · exact .inl (Nat.lt_one_iff.mp hnone)
    · have htable := storedTable_of_count hstored (hone ▸ Nat.zero_lt_one)
      have hinside := hread.inside (table, 0)
        (mem_symbolEntries.mpr ⟨hmem, hone ▸ Nat.zero_lt_one⟩)
      rw [inTable_first_iff hlength htable (hone ▸ Nat.zero_lt_one)] at hinside
      exact .inr (.inr ⟨hone, hinside⟩)
    · have htable := storedTable_of_count hstored hmore
      exact .inr (.inl (stride_of_apart hlength htable hmore
        (hread.apart table hmem 0 (Nat.zero_lt_of_lt hmore) 1 hmore
          Nat.zero_ne_one)))
  · intro hroomy
    refine ⟨hparsed.symbols, ?_, ?_⟩
    · rintro ⟨table, j⟩ hentry
      obtain ⟨hmem, hj⟩ := mem_symbolEntries.mp hentry
      dsimp only at hmem hj
      have htable := storedTable_of_count (hparsed.stored table hmem) hj
      rcases hroomy table hmem with hnone | hstride | ⟨hone, hsize⟩
      · omega
      · exact (records_of_stride hlength htable hstride).1 j hj
      · have hfirst : j = 0 := by omega
        rw [hfirst]
        exact (inTable_first_iff hlength htable (by omega)).mpr hsize
    · intro table hmem i hi j hj hne
      have htable := storedTable_of_count (hparsed.stored table hmem) hj
      rcases hroomy table hmem with hnone | hstride | ⟨hone, -⟩
      · omega
      · have hrecords := (records_of_stride hlength htable hstride).2
        rcases Nat.lt_or_gt_of_ne hne with hlt | hgt
        · exact .inl (hrecords i hi j hj hlt)
        · exact .inr (hrecords j hj i hi hgt)
      · omega

theorem read_in_tables_iff_two_tables :
    ∃ image, parse {} twoTablesFile = .ok image ∧
      twoTablesFile.length < 2 ^ 64 ∧
      (ReadInTables {} twoTablesFile image ↔
        ∀ table ∈ sections twoTablesFile, Roomy twoTablesFile table) := by
  have hlength : twoTablesFile.length < 2 ^ 64 := by decide +kernel
  obtain ⟨image, hrun, -⟩ := toOption_bind_eq_some.mp (by decide +kernel :
    ((parse {} twoTablesFile).toOption.bind fun image =>
      some image.symbols.length) = some 3)
  exact ⟨image, hrun, hlength, read_in_tables_iff hlength hrun⟩

/-- One symbol table of 8 bytes, with entries of 8 bytes. -/
def shortEntryFile : Bytes :=
  ([0x464c457f, 0x101, 0, 0, 0x30002, 1, 0, 0, 52, 0, 52, 0x280000, 1] ++
    sectionWords 2 52 8 0 8).flatMap u32Bytes

/-- Its symbol is read from 16 bytes. -/
theorem shortEntryFile_read_outside :
    ∃ image, parse {} shortEntryFile = .ok image ∧
      image.symbols.length = 1 ∧ ¬ReadInTables {} shortEntryFile image := by
  obtain ⟨image, hrun, hcount⟩ := toOption_bind_eq_some.mp (by decide +kernel :
    ((parse {} shortEntryFile).toOption.bind fun image =>
      some image.symbols.length) = some 1)
  have houtside : ¬∀ entry ∈
      symbolEntries shortEntryFile (sections shortEntryFile),
        InTable shortEntryFile entry := by
    decide +kernel
  refine ⟨image, hrun, Option.some.inj hcount, ?_⟩
  intro hread
  exact houtside hread.inside

end ElfParser
end BinForge
