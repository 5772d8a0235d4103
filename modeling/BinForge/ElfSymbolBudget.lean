import BinForge.ElfAcceptance
import BinForge.ElfRelocationSymbols

/-!
# The symbols of all tables together

The limit on symbols is compared with the count of one table, while the symbols
of all tables go to one list.  What the list holds at any point is bounded by
what a walk over the tables finds, and some point reaches that number.
-/

namespace BinForge

open StatefulExcept
open ByteReader
open ElfFile

namespace ElfParser

variable {limits : Limits} {data : Bytes} {reader next : ByteReader}

/-! ## Points of the run -/

/-- The list of symbols at some point of a run of the parser: before the
tables, between two of them, or between two records of a table. -/
inductive SymbolPoint (limits : Limits) (data : Bytes) : List Symbol → Prop
  | start : SymbolPoint limits data []
  | between {wide order tables reader before after symbols middle}
      (hident : parseIdentification data = .ok (wide, order))
      (htables : readTables limits data wide order { data, order } =
        .ok tables reader)
      (hsplit : tables.raw = before ++ after)
      (hbefore : before.foldlM (readSymbolTable limits data wide tables.raw) []
        reader = .ok symbols middle) :
      SymbolPoint limits data symbols
  | inside {wide order tables reader before table after symbols middle j taken
      last}
      (hident : parseIdentification data = .ok (wide, order))
      (htables : readTables limits data wide order { data, order } =
        .ok tables reader)
      (hsplit : tables.raw = before ++ table :: after)
      (hbefore : before.foldlM (readSymbolTable limits data wide tables.raw) []
        reader = .ok symbols middle)
      (htable : table.isSymbolTable tables.raw)
      (hlimit : table.size / table.entrySize ≤ limits.maxSymbols.toUInt64)
      (hj : j ≤ (table.size / table.entrySize).toNat)
      (hrecords : (List.range j).foldlM (readSymbol limits data wide table
        (tables.raw.getD table.link.toNat {})) symbols middle = .ok taken last) :
      SymbolPoint limits data taken

/-! ## The walk over the tables -/

/-- The record of this number lies inside the file. -/
def recordInside (data : Bytes) (table : RawSection) (j : ℕ) : Prop :=
  table.offset.toNat + j * table.entrySize.toNat + symbolBytes (wide data) ≤
    data.length

instance (data : Bytes) (table : RawSection) (j : ℕ) :
    Decidable (recordInside data table j) :=
  inferInstanceAs (Decidable (_ ≤ _))

/-- The most records of a table, from the first on, that lie in the file. -/
def recordsInside (data : Bytes) (table : RawSection) : ℕ :=
  Nat.findGreatest (fun j => ∀ i < j, recordInside data table i)
    (symbolCount data table)

/-- The symbols that are read in all, up to the first table over the limit or
the first record that is not in the file. -/
def symbolsRead (limits : Limits) (data : Bytes) : List RawSection → ℕ
  | [] => 0
  | table :: tables =>
      if symbolCount data table > limits.maxSymbols.toNat then 0
      else if recordsInside data table < symbolCount data table then
        recordsInside data table
      else symbolCount data table + symbolsRead limits data tables

/-- A table that is read whole. -/
def ReadWhole (limits : Limits) (data : Bytes) (table : RawSection) : Prop :=
  symbolCount data table ≤ limits.maxSymbols.toNat ∧
    ∀ j < symbolCount data table, recordInside data table j

theorem recordsInside_le {table : RawSection} :
    recordsInside data table ≤ symbolCount data table :=
  Nat.findGreatest_le _

theorem recordInside_of_lt {table : RawSection} {j : ℕ}
    (hj : j < recordsInside data table) : recordInside data table j := by
  have hall : ∀ i < recordsInside data table, recordInside data table i :=
    Nat.findGreatest_spec (P := fun j => ∀ i < j, recordInside data table i)
      (Nat.zero_le _) nofun
  exact hall j hj

theorem le_recordsInside {table : RawSection} {j : ℕ}
    (hj : j ≤ symbolCount data table)
    (hall : ∀ i < j, recordInside data table i) :
    j ≤ recordsInside data table :=
  Nat.le_findGreatest hj hall

theorem ReadWhole.recordsInside_eq {table : RawSection}
    (hwhole : ReadWhole limits data table) :
    recordsInside data table = symbolCount data table :=
  le_antisymm recordsInside_le (le_recordsInside le_rfl hwhole.2)

theorem symbolsRead_append {before rest : List RawSection}
    (hwhole : ∀ table ∈ before, ReadWhole limits data table) :
    symbolsRead limits data (before ++ rest) =
      (symbolEntries data before).length + symbolsRead limits data rest := by
  induction before with
  | nil => simp [symbolEntries]
  | cons table before ih =>
      have htable := hwhole table List.mem_cons_self
      have hcount : ¬symbolCount data table > limits.maxSymbols.toNat :=
        not_lt.mpr htable.1
      have hrecords : ¬recordsInside data table < symbolCount data table := by
        rw [htable.recordsInside_eq]
        exact lt_irrefl _
      rw [List.cons_append, symbolsRead, if_neg hcount, if_neg hrecords,
        ih fun other hother => hwhole other (List.mem_cons_of_mem _ hother)]
      simp [symbolEntries, Nat.add_assoc]

/-! ## Single records -/

/-- An entry that is read lies inside the file. -/
theorem readSymbolEntry_inside (hreader : OnFile data reader)
    {entry : SymbolEntry}
    (hrun : readSymbolEntry (wide data) reader = .ok entry next) :
    reader.position + symbolBytes (wide data) ≤ data.length := by
  obtain ⟨-, rfl⟩ := hreader
  unfold readSymbolEntry at hrun
  unfold symbolBytes
  cases hwide : wide reader.data <;>
    simp only [hwide, Bool.false_eq_true, if_false, if_true, bind_eq_ok,
      readU64_at, readU32_at, readU16_at, readU8_at, pure_eq_ok, and_assoc,
      exists_and_left, exists_eq_left, movedTo_data, movedTo_order,
      movedTo_position, movedTo_movedTo, Nat.add_assoc, Nat.reduceAdd] at hrun ⊢
  all_goals omega

/-- A symbol table that is stored where the section table says. -/
structure StoredTable (data : Bytes) (table : RawSection) : Prop where
  symbols : table.isSymbolTable (sections data)
  inside : table.offset.toNat + table.size.toNat ≤ data.length

theorem storedTable {table : RawSection} (hstored : StoredInside data table)
    (hsymbols : table.isSymbolTable (sections data)) :
    StoredTable data table := by
  refine ⟨hsymbols, hstored ?_⟩
  rcases hsymbols.1 with htype | htype
  · rw [htype]
    decide
  · rw [htype]
    decide

theorem StoredTable.count {table : RawSection}
    (htable : StoredTable data table) :
    (table.size / table.entrySize).toNat = symbolCount data table := by
  rw [symbolCount, if_pos htable.symbols]

/-- The 64-bit sum that places a record does not wrap. -/
theorem StoredTable.place {table : RawSection}
    (htable : StoredTable data table) (hlength : data.length < 2 ^ 64) {j : ℕ}
    (hj : j < symbolCount data table) :
    (table.offset + UInt64.ofNat j * table.entrySize).toNat =
        table.offset.toNat + j * table.entrySize.toNat ∧
      table.offset.toNat + j * table.entrySize.toNat ≤ data.length := by
  have hinside := htable.inside
  rw [← htable.count, UInt64.toNat_div] at hj
  have hrecords : j * table.entrySize.toNat ≤ table.size.toNat :=
    Nat.mul_le_of_le_div _ _ _ hj.le
  have hsmall : j < 2 ^ 64 :=
    hj.trans (lt_of_le_of_lt (Nat.div_le_self _ _) table.size.toNat_lt)
  constructor
  · rw [UInt64.toNat_add, UInt64.toNat_mul, UInt64.toNat_ofNat',
      Nat.mod_eq_of_lt hsmall, Nat.mod_eq_of_lt (by omega),
      Nat.mod_eq_of_lt (by omega)]
  · omega

/-- A record that is read lies in the file. -/
theorem readSymbol_inside (hreader : OnFile data reader) {table : RawSection}
    (htable : StoredTable data table) (hlength : data.length < 2 ^ 64)
    {strings : RawSection} {symbols taken : List Symbol} {j : ℕ}
    (hj : j < symbolCount data table)
    (hrun : readSymbol limits data (wide data) table strings symbols j reader =
      .ok taken next) :
    recordInside data table j ∧ taken.length = symbols.length + 1 ∧
      OnFile data next := by
  obtain ⟨hplace, hfit⟩ := htable.place hlength hj
  unfold readSymbol truncatedAt at hrun
  obtain ⟨_, first, hmove, hrun⟩ := bind_eq_ok.mp hrun
  obtain rfl := attempt_seek_ok (by rw [hreader.data, hplace]; exact hfit) hmove
  obtain ⟨entry, second, hentry, hrun⟩ := bind_eq_ok.mp hrun
  have hread := adaptError_eq_ok.mp hentry
  have hinside := readSymbolEntry_inside (hreader.movedTo _) hread
  obtain ⟨-, hsecond⟩ := readSymbolEntry_ok (hreader.movedTo _) hread
  rw [pure_eq_ok] at hrun
  obtain ⟨rfl, rfl⟩ := hrun
  rw [movedTo_position, hplace] at hinside
  exact ⟨hinside, by simp, hsecond⟩

/-- A record in the file is read. -/
theorem readSymbol_succeeds (hreader : OnFile data reader) {table : RawSection}
    (htable : StoredTable data table) (hlength : data.length < 2 ^ 64)
    {strings : RawSection} {symbols : List Symbol} {j : ℕ}
    (hj : j < symbolCount data table) (hinside : recordInside data table j) :
    Returns (readSymbol limits data (wide data) table strings symbols j) reader
      fun taken last => taken.length = symbols.length + 1 ∧
        OnFile data last := by
  have hfit := hinside
  unfold recordInside at hfit
  rw [← (htable.place hlength hj).1] at hfit
  apply (readSymbol_returns hreader hfit).mono
  intro taken last hrun hlast
  exact ⟨(readSymbol_inside hreader htable hlength hj hrun).2.1, hlast⟩

/-! ## The records of a table -/

section

variable {table strings : RawSection} {symbols taken : List Symbol} {j : ℕ}
  (htable : StoredTable data table) (hlength : data.length < 2 ^ 64)
  (hj : j ≤ symbolCount data table)
include htable hlength hj

theorem readRecords_inside (hreader : OnFile data reader)
    (hrun : (List.range j).foldlM
      (readSymbol limits data (wide data) table strings) symbols reader =
        .ok taken next) :
    (∀ i < j, recordInside data table i) ∧
      taken.length = symbols.length + j ∧ OnFile data next := by
  have hloop := foldlM_ok_induction (fun done carried state =>
    (∀ i ∈ done, recordInside data table i) ∧
      carried.length = symbols.length + done.length ∧ OnFile data state) hrun
    ⟨nofun, rfl, hreader⟩ ?_
  · obtain ⟨hall, hcount, hnext⟩ := hloop
    rw [List.length_range] at hcount
    exact ⟨fun i hi => hall i (List.mem_range.mpr hi), hcount, hnext⟩
  · intro done i rest carried state passed after hsplit hdone hstep
    obtain ⟨hall, hcount, hstate⟩ := hdone
    have hi : i < j := by
      rw [← List.mem_range, hsplit]
      simp
    obtain ⟨hinside, hpassed, hafter⟩ :=
      readSymbol_inside hstate htable hlength (hi.trans_le hj) hstep
    refine ⟨?_, ?_, hafter⟩
    · intro other hother
      rcases List.mem_append.mp hother with hother | hother
      · exact hall other hother
      · rw [List.mem_singleton.mp hother]
        exact hinside
    · rw [hpassed, hcount, List.length_append, List.length_singleton,
        Nat.add_assoc]

theorem readRecords_succeeds (limits : Limits) (strings : RawSection)
    (symbols : List Symbol) (hreader : OnFile data reader)
    (hall : ∀ i < j, recordInside data table i) :
    Returns ((List.range j).foldlM
        (readSymbol limits data (wide data) table strings) symbols) reader
      fun taken last => taken.length = symbols.length + j ∧
        OnFile data last := by
  have hloop : Returns ((List.range j).foldlM
      (readSymbol limits data (wide data) table strings) symbols) reader
      (fun carried state =>
        carried.length = symbols.length + (List.range j).length ∧
          OnFile data state) := by
    apply Returns.foldlM (fun (done : List ℕ) (carried : List Symbol) state =>
      carried.length = symbols.length + done.length ∧ OnFile data state)
    · exact ⟨rfl, hreader⟩
    · intro done i rest carried state hsplit hdone
      have hi : i < j := by
        rw [← List.mem_range, hsplit]
        simp
      apply (readSymbol_succeeds hdone.2 htable hlength (hi.trans_le hj)
        (hall i hi)).mono
      intro passed last _ hpassed
      refine ⟨?_, hpassed.2⟩
      rw [hpassed.1, hdone.1, List.length_append, List.length_singleton,
        Nat.add_assoc]
  rw [List.length_range] at hloop
  exact hloop

end

/-! ## The tables -/

section

variable (hlength : data.length < 2 ^ 64)
include hlength

/-- A table that is passed is read whole. -/
theorem readSymbolTable_whole (hreader : OnFile data reader)
    {table : RawSection} (hstored : StoredInside data table)
    {symbols taken : List Symbol}
    (hrun : readSymbolTable limits data (wide data) (sections data) symbols
      table reader = .ok taken next) :
    ReadWhole limits data table ∧
      taken.length = symbols.length + symbolCount data table ∧
      OnFile data next := by
  unfold readSymbolTable at hrun
  by_cases hsymbols : table.isSymbolTable (sections data)
  · have htable := storedTable hstored hsymbols
    rw [if_pos hsymbols] at hrun
    obtain ⟨hlimit, hrun⟩ := rejectIf_bind_eq_ok.mp hrun
    rw [htable.count] at hrun
    obtain ⟨hall, hcount, hnext⟩ :=
      readRecords_inside htable hlength le_rfl hreader hrun
    rw [gt_iff_lt, not_lt, UInt64.le_iff_toNat_le, htable.count,
      UInt32.toNat_toUInt64] at hlimit
    exact ⟨⟨hlimit, hall⟩, hcount, hnext⟩
  · rw [if_neg hsymbols, pure_eq_ok] at hrun
    obtain ⟨rfl, rfl⟩ := hrun
    have hnone : symbolCount data table = 0 := if_neg hsymbols
    refine ⟨⟨?_, ?_⟩, ?_, hreader⟩
    · rw [hnone]
      exact Nat.zero_le _
    · rw [hnone]
      exact nofun
    · rw [hnone, Nat.add_zero]

/-- A table under the limit with its records in the file is passed. -/
theorem readSymbolTable_succeeds (symbols : List Symbol)
    (hreader : OnFile data reader) {table : RawSection}
    (hstored : StoredInside data table) (hwhole : ReadWhole limits data table) :
    Returns (readSymbolTable limits data (wide data) (sections data) symbols
      table) reader fun taken last =>
        taken.length = symbols.length + symbolCount data table ∧
          OnFile data last := by
  apply Returns.of_partial
  · intro taken last hrun
    exact (readSymbolTable_whole hlength hreader hstored hrun).2
  · unfold readSymbolTable
    by_cases hsymbols : table.isSymbolTable (sections data)
    · have htable := storedTable hstored hsymbols
      have hlimit : ¬table.size / table.entrySize >
          limits.maxSymbols.toUInt64 := by
        rw [gt_iff_lt, not_lt, UInt64.le_iff_toNat_le, htable.count,
          UInt32.toNat_toUInt64]
        exact hwhole.1
      obtain ⟨taken, last, hrun, -⟩ :=
        readRecords_succeeds htable hlength le_rfl limits
          ((sections data).getD table.link.toNat {}) symbols hreader hwhole.2
      rw [if_pos hsymbols]
      refine ⟨taken, last, rejectIf_bind_eq_ok.mpr ⟨hlimit, ?_⟩⟩
      rw [htable.count]
      exact hrun
    · rw [if_neg hsymbols]
      exact ⟨symbols, reader, rfl⟩

/-- The tables that are passed, and the symbols of all of them. -/
theorem readTablesBefore_whole (hreader : OnFile data reader)
    (hstored : ∀ item ∈ sections data, StoredInside data item)
    {before after : List RawSection} (hsplit : sections data = before ++ after)
    {symbols : List Symbol}
    (hrun : before.foldlM
      (readSymbolTable limits data (wide data) (sections data)) [] reader =
        .ok symbols next) :
    (∀ table ∈ before, ReadWhole limits data table) ∧
      symbols.length = (symbolEntries data before).length ∧
      OnFile data next := by
  apply foldlM_ok_induction (fun done carried state =>
    (∀ table ∈ done, ReadWhole limits data table) ∧
      carried.length = (symbolEntries data done).length ∧
      OnFile data state) hrun
  · exact ⟨nofun, rfl, hreader⟩
  · intro done table rest carried state passed after' hbefore hdone hstep
    obtain ⟨hall, hcount, hstate⟩ := hdone
    have hmem : table ∈ sections data := by simp [hsplit, hbefore]
    obtain ⟨hwhole, hpassed, hafter⟩ :=
      readSymbolTable_whole hlength hstate (hstored table hmem) hstep
    refine ⟨?_, ?_, hafter⟩
    · intro other hother
      rcases List.mem_append.mp hother with hother | hother
      · exact hall other hother
      · rw [List.mem_singleton.mp hother]
        exact hwhole
    · rw [hpassed, hcount]
      simp [symbolEntries]

end

/-! ## The budget -/

/-- The parser comes to the symbols. -/
def TablesAccepted (limits : Limits) (data : Bytes) : Prop :=
  ∃ wide order, parseIdentification data = .ok (wide, order) ∧
    ∃ tables reader, readTables limits data wide order { data, order } =
      .ok tables reader

variable {symbols : List Symbol}

/-- No point has more symbols than the walk finds. -/
theorem SymbolPoint.length_le (hlength : data.length < 2 ^ 64)
    (hpoint : SymbolPoint limits data symbols) :
    symbols = [] ∨ TablesAccepted limits data ∧
      symbols.length ≤ symbolsRead limits data (sections data) := by
  cases hpoint with
  | start => exact .inl rfl
  | @between wide order tables reader before after _ middle hident htables
      hsplit hbefore =>
      right
      have hfound := parseIdentification_ok hident
      cases hfound
      refine ⟨⟨_, _, hident, tables, reader, htables⟩, ?_⟩
      obtain ⟨hof, hreader⟩ := readTables_ok htables
      rw [hof.raw] at hsplit hbefore
      obtain ⟨hwhole, hcount, -⟩ := readTablesBefore_whole hlength hreader
        hof.stored hsplit hbefore
      rw [hsplit, symbolsRead_append hwhole, hcount]
      exact Nat.le_add_right _ _
  | @inside wide order tables reader before table after earlier middle j _ last
      hident htables hsplit hbefore htable hlimit hj hrecords =>
      right
      have hfound := parseIdentification_ok hident
      cases hfound
      refine ⟨⟨_, _, hident, tables, reader, htables⟩, ?_⟩
      obtain ⟨hof, hreader⟩ := readTables_ok htables
      rw [hof.raw] at hsplit hbefore htable hrecords
      obtain ⟨hwhole, hcount, hmiddle⟩ := readTablesBefore_whole hlength
        hreader hof.stored hsplit hbefore
      have hstored := storedTable
        (hof.stored table (by simp [hsplit])) htable
      rw [hstored.count] at hj
      rw [UInt64.le_iff_toNat_le, hstored.count, UInt32.toNat_toUInt64]
        at hlimit
      obtain ⟨hall, htaken, -⟩ :=
        readRecords_inside hstored hlength hj hmiddle hrecords
      have hrecordsInside := le_recordsInside hj hall
      rw [hsplit, symbolsRead_append hwhole, htaken, hcount, symbolsRead,
        if_neg (not_lt.mpr hlimit)]
      apply Nat.add_le_add_left
      split_ifs
      · exact hrecordsInside
      · exact hj.trans (Nat.le_add_right _ _)

/-- The walk over the rest of the tables leads to a point with as many symbols
as it finds. -/
theorem exists_point_from (hlength : data.length < 2 ^ 64)
    {tables : Tables} {reader middle : ByteReader}
    (hident : parseIdentification data = .ok (wide data, order data))
    (htables : readTables limits data (wide data) (order data)
      { data, order := order data } = .ok tables reader)
    {before rest : List RawSection} (hsplit : tables.raw = before ++ rest)
    (hbefore : before.foldlM
      (readSymbolTable limits data (wide data) tables.raw) [] reader =
        .ok symbols middle) :
    ∃ taken, SymbolPoint limits data taken ∧
      taken.length = symbols.length + symbolsRead limits data rest := by
  obtain ⟨hof, hreader⟩ := readTables_ok htables
  have hraw := hof.raw
  induction rest generalizing before symbols middle with
  | nil => exact ⟨symbols, .between hident htables hsplit hbefore, rfl⟩
  | cons table rest ih =>
      have hstored := hof.stored table (by simp [← hraw, hsplit])
      have hmiddle : OnFile data middle := by
        rw [hraw] at hsplit hbefore
        exact (readTablesBefore_whole hlength hreader hof.stored hsplit
          hbefore).2.2
      rw [symbolsRead]
      split_ifs with hcount hrecords
      · exact ⟨symbols, .between hident htables hsplit hbefore, rfl⟩
      · -- The table is cut off by its first record outside the file.
        have hsymbols : table.isSymbolTable (sections data) := by
          by_contra hnone
          rw [symbolCount, if_neg hnone] at hrecords
          exact Nat.not_lt_zero _ hrecords
        have htable := storedTable hstored hsymbols
        obtain ⟨taken, last, hrun, htaken, -⟩ :=
          readRecords_succeeds htable hlength recordsInside_le limits
            ((sections data).getD table.link.toNat {}) symbols hmiddle
            fun _ => recordInside_of_lt
        have hlimit : table.size / table.entrySize ≤
            limits.maxSymbols.toUInt64 := by
          rw [UInt64.le_iff_toNat_le, htable.count, UInt32.toNat_toUInt64]
          exact not_lt.mp hcount
        have hwithin : recordsInside data table ≤
            (table.size / table.entrySize).toNat := by
          rw [htable.count]
          exact recordsInside_le
        rw [← hraw] at hsymbols hrun
        exact ⟨taken, .inside hident htables hsplit hbefore hsymbols hlimit
          hwithin hrun, htaken⟩
      · have hwhole : ReadWhole limits data table := by
          refine ⟨not_lt.mp hcount, ?_⟩
          intro j hj
          exact recordInside_of_lt (hj.trans_le (not_lt.mp hrecords))
        obtain ⟨passed, last, hpass, hpassed, -⟩ :=
          readSymbolTable_succeeds hlength symbols hmiddle hstored hwhole
        rw [← hraw] at hpass
        have hgrown : (before ++ [table]).foldlM
            (readSymbolTable limits data (wide data) tables.raw) [] reader =
              .ok passed last := by
          rw [List.foldlM_append, bind_eq_ok]
          refine ⟨symbols, middle, hbefore, ?_⟩
          rw [List.foldlM_cons, bind_eq_ok]
          exact ⟨passed, last, hpass, rfl⟩
        obtain ⟨taken, hpoint, htaken⟩ := ih (by simp [hsplit]) hgrown
        refine ⟨taken, hpoint, ?_⟩
        rw [htaken, hpassed, Nat.add_assoc]

/-- The symbols stay within their limit at every point of a run exactly when
the walk over the tables finds no more of them. -/
theorem symbols_bounded_iff (limits : Limits) (data : Bytes)
    (hlength : data.length < 2 ^ 64) :
    (∀ symbols, SymbolPoint limits data symbols →
        symbols.length ≤ limits.maxSymbols.toNat) ↔
      (TablesAccepted limits data →
        symbolsRead limits data (sections data) ≤ limits.maxSymbols.toNat) := by
  constructor
  · rintro hbounded ⟨wide, order, hident, tables, reader, htables⟩
    cases parseIdentification_ok hident
    have hraw := (readTables_ok htables).1.raw
    obtain ⟨taken, hpoint, htaken⟩ :=
      exists_point_from hlength hident htables
        (List.nil_append tables.raw).symm rfl
    rw [List.length_nil, Nat.zero_add, hraw] at htaken
    rw [← htaken]
    exact hbounded taken hpoint
  · intro hwalk symbols hpoint
    rcases hpoint.length_le hlength with rfl | ⟨haccepted, hle⟩
    · exact Nat.zero_le _
    · exact hle.trans (hwalk haccepted)

/-- Room for two symbols. -/
def pairOfSymbols : Limits := { maxSymbols := 2 }

theorem symbols_bounded_iff_two_tables :
    twoTablesFile.length < 2 ^ 64 ∧
      ((∀ symbols, SymbolPoint pairOfSymbols twoTablesFile symbols →
          symbols.length ≤ pairOfSymbols.maxSymbols.toNat) ↔
        (TablesAccepted pairOfSymbols twoTablesFile →
          symbolsRead pairOfSymbols twoTablesFile (sections twoTablesFile) ≤
            pairOfSymbols.maxSymbols.toNat)) := by
  have hlength : twoTablesFile.length < 2 ^ 64 := by decide +kernel
  exact ⟨hlength, symbols_bounded_iff pairOfSymbols twoTablesFile hlength⟩

/-- The symbols of an accepted image are those of the last point. -/
theorem symbolPoint_of_parse {image : BinaryImage}
    (hrun : parse limits data = .ok image) :
    SymbolPoint limits data image.symbols := by
  obtain ⟨⟨wide, order⟩, hident, hrun⟩ := except_bind_eq_ok.mp hrun
  obtain ⟨last, hrun⟩ := evaluate_eq_ok.mp hrun
  rw [parseImage_eq] at hrun
  obtain ⟨tables, reader, htables, hrun⟩ := bind_eq_ok.mp hrun
  obtain ⟨symbols, middle, hsymbols, hrun⟩ := bind_eq_ok.mp hrun
  obtain ⟨relocations, final, -, hrun⟩ := bind_eq_ok.mp hrun
  rw [pure_eq_ok] at hrun
  obtain ⟨rfl, -⟩ := hrun
  exact .between hident htables (List.append_nil tables.raw).symm hsymbols

/-- Two tables within the limit bring three symbols into the image. -/
theorem twoTablesFile_over_limit :
    ¬∀ symbols, SymbolPoint pairOfSymbols twoTablesFile symbols →
      symbols.length ≤ pairOfSymbols.maxSymbols.toNat := by
  intro hbounded
  obtain ⟨image, hrun, hcount⟩ := toOption_bind_eq_some.mp (by decide +kernel :
    ((parse pairOfSymbols twoTablesFile).toOption.bind fun image =>
      some image.symbols.length) = some 3)
  have hthree : image.symbols.length = 3 := Option.some.inj hcount
  have htwo : pairOfSymbols.maxSymbols.toNat = 2 := rfl
  have hle := hbounded image.symbols (symbolPoint_of_parse hrun)
  omega

end ElfParser
end BinForge
