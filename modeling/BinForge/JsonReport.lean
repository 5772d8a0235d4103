import BinForge.IndexLoop
import BinForge.JsonReader
import BinForge.ReportWriter

/-!
# JSON reports read back

The two JSON formats of a report list its items one after the other.  Reading
the report back gives the first items that the options ask for, every name
byte for byte.
-/

namespace BinForge
namespace BinaryReportWriter

open StatefulExcept
open BinaryLoader
open Json

/-! ## What a report says

The reading side: names are taken byte for byte from code units. -/

def units (text : Bytes) : List UInt16 := text.map UInt8.toUInt16

/-- The item of an object under a name. -/
def itemNamed (name : Bytes) : Value → Option Value
  | .object members => members.lookup (units name)
  | _ => none

def asNatural : Value → Option ℕ
  | .number value => if value.den = 1 ∧ 0 ≤ value.num then some value.num.toNat
      else none
  | _ => none

def asBytes : Value → Option Bytes
  | .string units => units.mapM fun unit =>
      if unit < 256 then some unit.toUInt8 else none
  | _ => none

def readItem (value : Value) : Option ReportItem := do
  let type ← (itemNamed "type" value).bind asBytes
  let index ← (itemNamed "index" value).bind asNatural
  let name ← (itemNamed "name" value).bind asBytes
  let address ← (itemNamed "address" value).bind asNatural
  let size ← (itemNamed "size" value).bind asNatural
  return { type, index := UInt32.ofNat index, name
           address := UInt64.ofNat address, size := UInt64.ofNat size }

/-- The items of a report that is one value. -/
def readItems (value : Value) : Option (List ReportItem) :=
  match itemNamed "items" value with
  | some (.array items) => items.mapM readItem
  | _ => none

/-- The values of a text with one of them on each line. -/
def parseLines (text : Bytes) : Option (List Value) :=
  let lines := text.splitOn 0x0a
  if lines.getLast? = some [] then lines.dropLast.mapM Json.parse else none

/-! ## What a report should say -/

/-- The items of the tables the options include. -/
def includedItems (image : BinaryImage) (options : ReportOptions) :
    List ReportItem :=
  (if options.includeSections then image.sections.map sectionItem else []) ++
    (if options.includeSegments then image.segments.map segmentItem else []) ++
    (if options.includeSymbols then image.symbols.map symbolItem else []) ++
    (if options.includeImports then
      image.imports.mapIdx fun index imported =>
        importItem (UInt32.ofNat index) imported else []) ++
    (if options.includeExports then
      image.exports.mapIdx fun index exported =>
        exportItem (UInt32.ofNat index) exported else [])

def listedItems (image : BinaryImage) (options : ReportOptions) :
    List ReportItem :=
  (includedItems image options).take options.maximumItems.toNat

/-! ## Names and numbers -/

theorem digitChar_isDigit {digit : ℕ} (hdigit : digit < 10) :
    IsDigit (UInt8.ofNat digit.digitChar.toNat) ∧
      (UInt8.ofNat digit.digitChar.toNat).toNat - 0x30 = digit ∧
      (UInt8.ofNat digit.digitChar.toNat = 0x30 → digit = 0) := by
  revert digit
  decide

theorem decimal_of_lt {n : ℕ} (hn : n < 10) :
    decimal n = [UInt8.ofNat n.digitChar.toNat] := by
  rw [decimal, Nat.toDigits_of_lt_base hn, List.map_singleton]

theorem decimal_of_le {n : ℕ} (hn : 10 ≤ n) :
    decimal n =
      decimal (n / 10) ++ [UInt8.ofNat (n % 10).digitChar.toNat] := by
  rw [decimal, Nat.toDigits_of_base_le (by decide) hn, List.map_append,
    List.map_singleton, decimal]

theorem digits_decimal (n : ℕ) : Digits (decimal n) := by
  induction n using Nat.strongRecOn with
  | ind n ih =>
      by_cases hn : n < 10
      · rw [decimal_of_lt hn]
        refine ⟨List.cons_ne_nil _ _, fun byte hbyte => ?_⟩
        rw [List.mem_singleton.mp hbyte]
        exact (digitChar_isDigit hn).1
      · rw [decimal_of_le (not_lt.mp hn)]
        obtain ⟨-, hfront⟩ := ih (n / 10) (by omega)
        refine ⟨List.append_ne_nil_of_right_ne_nil _ (List.cons_ne_nil _ _),
          fun byte hbyte => ?_⟩
        rcases List.mem_append.mp hbyte with hbyte | hbyte
        · exact hfront byte hbyte
        · rw [List.mem_singleton.mp hbyte]
          exact (digitChar_isDigit (Nat.mod_lt n (by decide))).1

theorem digitsValue_append (front : Bytes) (digit : UInt8) :
    digitsValue (front ++ [digit]) =
      10 * digitsValue front + (digit.toNat - 0x30) := by
  rw [digitsValue, List.foldl_append]
  rfl

theorem digitsValue_decimal (n : ℕ) : digitsValue (decimal n) = n := by
  induction n using Nat.strongRecOn with
  | ind n ih =>
      by_cases hn : n < 10
      · rw [decimal_of_lt hn, ← List.nil_append [_], digitsValue_append,
          (digitChar_isDigit hn).2.1]
        exact Nat.zero_add n
      · rw [decimal_of_le (not_lt.mp hn), digitsValue_append,
          ih (n / 10) (by omega),
          (digitChar_isDigit (Nat.mod_lt n (by decide))).2.1]
        omega

/-- Only zero begins with a zero. -/
theorem decimal_leading {n : ℕ} (hzero : (decimal n).head? = some 0x30) :
    n = 0 := by
  induction n using Nat.strongRecOn with
  | ind n ih =>
      by_cases hn : n < 10
      · rw [decimal_of_lt hn, List.head?_cons, Option.some.injEq] at hzero
        exact (digitChar_isDigit hn).2.2 hzero
      · rw [decimal_of_le (not_lt.mp hn), List.head?_append_of_ne_nil _
          (digits_decimal (n / 10)).1] at hzero
        have hsmall := ih (n / 10) (by omega) hzero
        omega

theorem spells_decimal (n : ℕ) : Spells (decimal n) (.number n) := by
  have hspells := spells_digits (digits_decimal n) fun hzero => by
    rw [decimal_leading hzero]
    rfl
  rwa [digitsValue_decimal] at hspells

theorem codeUnit_control (byte : UInt8) : byte < 0x20 →
    codeUnit 0x30 0x30
        ((ascii "0123456789abcdef").getD (byte >>> 4).toNat 0)
        ((ascii "0123456789abcdef").getD (byte &&& 15).toNat 0) =
      some byte.toUInt16 := by
  intro hcontrol
  have hall : ∀ n < 32, codeUnit 0x30 0x30
      ((ascii "0123456789abcdef").getD (UInt8.ofNat n >>> 4).toNat 0)
      ((ascii "0123456789abcdef").getD (UInt8.ofNat n &&& 15).toNat 0) =
        some (UInt8.ofNat n).toUInt16 := by
    decide
  have hbyte := hall byte.toNat (UInt8.lt_iff_toNat_lt.mp hcontrol)
  rwa [UInt8.ofNat_toNat] at hbyte

/-- What is written for a byte stands for that byte. -/
theorem escapeByte_characters (byte : UInt8) {rest : Bytes}
    {units : List UInt16} (hrest : Characters rest units) :
    Characters (escapeByte byte ++ rest) (byte.toUInt16 :: units) := by
  have hshort : ∀ (text : Bytes) (letter : UInt8), text = [0x5c, letter] →
      escaped letter = some byte.toUInt16 →
      Characters (text ++ rest) (byte.toUInt16 :: units) := by
    rintro text letter rfl hletter
    exact Characters.short hletter hrest
  unfold escapeByte
  split_ifs with hquote hescape hb hf hn hr ht hcontrol
  · exact hshort _ 0x22 (by decide) (by rw [hquote]; decide)
  · exact hshort _ 0x5c (by decide) (by rw [hescape]; decide)
  · exact hshort _ 0x62 (by decide) (by rw [hb]; decide)
  · exact hshort _ 0x66 (by decide) (by rw [hf]; decide)
  · exact hshort _ 0x6e (by decide) (by rw [hn]; decide)
  · exact hshort _ 0x72 (by decide) (by rw [hr]; decide)
  · exact hshort _ 0x74 (by decide) (by rw [ht]; decide)
  · have hlead : ascii "\\u00" = [0x5c, 0x75, 0x30, 0x30] := by decide
    rw [hlead]
    exact Characters.code (codeUnit_control byte hcontrol) hrest
  · exact Characters.plain (UInt8.not_lt.mp hcontrol) hquote hescape hrest

theorem jsonEscape_characters (name : Bytes) :
    Characters (jsonEscape name) (units name) := by
  induction name with
  | nil => exact Characters.nil
  | cons byte rest ih => exact escapeByte_characters byte ih

/-- A literal that needs no escape. -/
theorem plain_characters {text : Bytes}
    (htext : ∀ byte ∈ text, 0x20 ≤ byte ∧ byte ≠ 0x22 ∧ byte ≠ 0x5c) :
    Characters text (units text) := by
  induction text with
  | nil => exact Characters.nil
  | cons byte rest ih =>
      obtain ⟨hcontrol, hquote, hescape⟩ := htext byte List.mem_cons_self
      exact Characters.plain hcontrol hquote hescape
        (ih fun other hother => htext other (List.mem_cons_of_mem _ hother))

/-! ## One item -/

/-- A member whose name is written without escapes. -/
def entry (name text : Bytes) (value : Value) : Entry :=
  { body := name, units := units name, text, value }

/-- A character that needs no escape. -/
def isPlain (byte : UInt8) : Bool :=
  0x20 ≤ byte && byte ≠ 0x22 && byte ≠ 0x5c

theorem entry_spelled {name text : Bytes} {value : Value}
    (hname : name.all isPlain = true) (htext : Spells text value) :
    (entry name text value).Spelled := by
  refine ⟨plain_characters fun byte hbyte => ?_, htext⟩
  have hplain := List.all_eq_true.mp hname byte hbyte
  simpa [isPlain, and_assoc] using hplain

def nameEntry (name value : Bytes) : Entry :=
  entry name (quoted (jsonEscape value)) (.string (units value))

def numberEntry (name : Bytes) (value : ℕ) : Entry :=
  entry name (decimal value) (.number value)

theorem nameEntry_spelled {name : Bytes} (value : Bytes)
    (hname : name.all isPlain = true) :
    (nameEntry name value).Spelled :=
  entry_spelled hname (spells_quoted (jsonEscape_characters value))

theorem numberEntry_spelled {name : Bytes} (value : ℕ)
    (hname : name.all isPlain = true) :
    (numberEntry name value).Spelled :=
  entry_spelled hname (spells_decimal value)

def objectText (entries : List Entry) : Bytes :=
  0x7b :: (separated (entries.map Entry.spelling) ++ [0x7d])

def objectValue (entries : List Entry) : Value :=
  .object (entries.map fun entry => (entry.units, entry.value))

def itemEntries (item : ReportItem) : List Entry :=
  [nameEntry "type" item.type, numberEntry "index" item.index.toNat,
    nameEntry "name" item.name, numberEntry "address" item.address.toNat,
    numberEntry "size" item.size.toNat]

def itemValue (item : ReportItem) : Value := objectValue (itemEntries item)

theorem itemText_eq (item : ReportItem) :
    itemText item = objectText (itemEntries item) := by
  have htype : ascii "\x7b\"type\":\"" =
      0x7b :: 0x22 :: (ascii "type" ++ [0x22, 0x3a, 0x22]) := by decide
  have hindex : ascii "\",\"index\":" =
      0x22 :: 0x2c :: 0x22 :: (ascii "index" ++ [0x22, 0x3a]) := by decide
  have hname : ascii ",\"name\":\"" =
      0x2c :: 0x22 :: (ascii "name" ++ [0x22, 0x3a, 0x22]) := by decide
  have haddress : ascii "\",\"address\":" =
      0x22 :: 0x2c :: 0x22 :: (ascii "address" ++ [0x22, 0x3a]) := by decide
  have hsize : ascii ",\"size\":" =
      0x2c :: 0x22 :: (ascii "size" ++ [0x22, 0x3a]) := by decide
  have hend : ascii "\x7d" = [0x7d] := by decide
  rw [itemText, htype, hindex, hname, haddress, hsize, hend]
  simp only [objectText, itemEntries, List.map_cons, List.map_nil,
    separated_cons_eq_flatMap, List.flatMap_cons, List.flatMap_nil,
    Entry.spelling, nameEntry, numberEntry, entry, quoted, List.append_assoc,
    List.cons_append, List.nil_append, List.append_nil]

theorem spells_item (item : ReportItem) :
    Spells (itemText item) (itemValue item) := by
  rw [itemText_eq]
  refine spells_object (List.cons_ne_nil _ _) ?_
  simp only [itemEntries, List.forall_mem_cons, List.not_mem_nil, false_imp_iff,
    implies_true, and_true]
  exact ⟨nameEntry_spelled _ rfl, numberEntry_spelled _ rfl,
    nameEntry_spelled _ rfl, numberEntry_spelled _ rfl,
    numberEntry_spelled _ rfl⟩

theorem asNatural_number (n : ℕ) : asNatural (.number n) = some n := by
  rw [asNatural, Rat.den_natCast, Rat.num_natCast, if_pos ⟨rfl, by omega⟩,
    Int.toNat_natCast]

theorem asBytes_string (name : Bytes) :
    asBytes (.string (units name)) = some name := by
  induction name with
  | nil => rfl
  | cons byte rest ih =>
      have hsmall : byte.toUInt16 < 256 := by
        rw [UInt16.lt_iff_toNat_lt, UInt8.toNat_toUInt16]
        exact byte.toNat_lt
      rw [asBytes] at ih ⊢
      rw [units, List.map_cons, List.mapM_cons, if_pos hsmall, ← units, ih,
        UInt8.toUInt8_toUInt16]
      rfl

theorem readItem_itemValue (item : ReportItem) :
    readItem (itemValue item) = some item := by
  have htype : itemNamed "type" (itemValue item) =
      some (.string (units item.type)) := rfl
  have hindex : itemNamed "index" (itemValue item) =
      some (.number item.index.toNat) := rfl
  have hname : itemNamed "name" (itemValue item) =
      some (.string (units item.name)) := rfl
  have haddress : itemNamed "address" (itemValue item) =
      some (.number item.address.toNat) := rfl
  have hsize : itemNamed "size" (itemValue item) =
      some (.number item.size.toNat) := rfl
  rw [readItem, htype, hindex, hname, haddress, hsize]
  simp only [Option.bind_eq_bind, Option.bind_some, asBytes_string,
    asNatural_number]
  rw [UInt32.ofNat_toNat, UInt64.ofNat_toNat, UInt64.ofNat_toNat]
  rfl

/-! ## The loops -/

variable {options : ReportOptions}

theorem emitIndexed_eq_indexLoop {α : Type} {item : UInt32 → α → ReportItem}
    {items : List α} (rounds : ℕ) (index : UInt32) (report : Report) :
    emitIndexed options item items rounds index report =
      indexLoop items (fun index found report =>
        emitJson options report (item index found)) rounds index report := by
  induction rounds generalizing index report with
  | zero => rfl
  | succ rounds ih =>
      rw [emitIndexed, indexLoop]
      cases items[index.toNat]? with
      | none => rfl
      | some found => exact ih _ _

theorem emitIndexedTable_eq_some {α : Type} {included : Bool}
    {item : UInt32 → α → ReportItem} {items : List α} {report last : Report}
    (hrun : emitIndexedTable options included item items report = some last) :
    last = (if included then items.mapIdx fun index found =>
      item (UInt32.ofNat index) found else []).foldl (emitJson options)
        report := by
  cases included with
  | false => exact (Option.some.inj hrun).symm
  | true =>
      rw [emitIndexedTable, if_pos rfl, emitIndexed_eq_indexLoop] at hrun
      rw [IndexLoop.eq_foldl_zero hrun, if_pos rfl, List.mapIdx_eq_zipIdx_map,
        List.foldl_map]
      rfl

theorem emitTable_eq {α : Type} (included : Bool) (item : α → ReportItem)
    (items : List α) (report : Report) :
    emitTable options included item items report =
      (if included then items.map item else []).foldl (emitJson options)
        report := by
  cases included with
  | false => rfl
  | true => exact List.foldl_map.symm

theorem emitTables_eq_some {image : BinaryImage} {report last : Report}
    (hrun : emitTables image options report = some last) :
    last = (includedItems image options).foldl (emitJson options) report := by
  simp only [emitTables, Option.bind_eq_bind, Option.bind_eq_some_iff] at hrun
  obtain ⟨middle, himports, hexports⟩ := hrun
  rw [emitTable_eq, emitTable_eq, emitTable_eq] at himports
  rw [includedItems, List.foldl_append, List.foldl_append, List.foldl_append,
    List.foldl_append, ← emitIndexedTable_eq_some himports,
    ← emitIndexedTable_eq_some hexports]

theorem available_iff {report : Report} :
    report.available options ↔
      report.emitted.toNat < options.maximumItems.toNat :=
  UInt32.lt_iff_toNat_lt

theorem emitted_add_one {report : Report}
    (havailable : report.available options) :
    (report.emitted + 1).toNat = report.emitted.toNat + 1 := by
  have hlimit := options.maximumItems.toNat_lt
  have hless := available_iff.mp havailable
  rw [UInt32.toNat_add, UInt32.toNat_one, Nat.mod_eq_of_lt (by omega)]

theorem emitted_succ {report : Report} (havailable : report.available options) :
    options.maximumItems.toNat - report.emitted.toNat =
      options.maximumItems.toNat - (report.emitted + 1).toNat + 1 := by
  have hless := available_iff.mp havailable
  rw [emitted_add_one havailable]
  omega

/-- Without room left nothing is written. -/
theorem foldl_emitJson_full {report : Report} (items : List ReportItem)
    (hfull : ¬report.available options) :
    items.foldl (emitJson options) report = report := by
  induction items with
  | nil => rfl
  | cons item rest ih => rw [List.foldl_cons, emitJson, if_neg hfull, ih]

theorem emitJson_emitted {report : Report} (item : ReportItem)
    (havailable : report.available options) :
    (emitJson options report item).emitted = report.emitted + 1 := by
  rw [emitJson, if_pos havailable]
  split <;> rfl

/-- The counter stops at the item limit. -/
theorem foldl_emitJson_emitted (items : List ReportItem) {report : Report}
    (hemitted : report.emitted ≤ options.maximumItems) :
    (items.foldl (emitJson options) report).emitted.toNat =
      min options.maximumItems.toNat
        (report.emitted.toNat + items.length) := by
  induction items generalizing report with
  | nil =>
      rw [List.foldl_nil, List.length_nil, Nat.add_zero]
      exact (min_eq_right (UInt32.le_iff_toNat_le.mp hemitted)).symm
  | cons item rest ih =>
      rw [List.length_cons]
      by_cases havailable : report.available options
      · have hless := available_iff.mp havailable
        have hcounted : (emitJson options report item).emitted.toNat =
            report.emitted.toNat + 1 := by
          rw [emitJson_emitted item havailable, emitted_add_one havailable]
        rw [List.foldl_cons, ih (by rw [UInt32.le_iff_toNat_le]; omega),
          hcounted]
        omega
      · have hfull := not_lt.mp (mt available_iff.mpr havailable)
        have hle := UInt32.le_iff_toNat_le.mp hemitted
        rw [foldl_emitJson_full _ havailable]
        omega

/-- Lines are written for the items there is room for. -/
theorem foldl_emitJson_lines (hformat : options.format = .jsonLines)
    (items : List ReportItem) (report : Report) :
    (items.foldl (emitJson options) report).output =
      report.output ++
        (items.take (options.maximumItems.toNat -
          report.emitted.toNat)).flatMap fun item =>
            itemText item ++ [0x0a] := by
  induction items generalizing report with
  | nil => rw [List.take_nil, List.flatMap_nil, List.append_nil, List.foldl_nil]
  | cons item rest ih =>
      by_cases havailable : report.available options
      · have hstep : emitJson options report item =
            { report.append (itemText item ++ [0x0a]) with
              emitted := report.emitted + 1 } := by
          rw [emitJson, if_pos havailable, if_pos hformat]
          rfl
        rw [emitted_succ havailable, List.take_succ_cons, List.flatMap_cons,
          List.foldl_cons, hstep, ih, ← List.append_assoc]
        rfl
      · rw [foldl_emitJson_full _ havailable, Nat.sub_eq_zero_of_le
          (not_lt.mp (mt available_iff.mpr havailable)), List.take_zero,
          List.flatMap_nil, List.append_nil]

/-- Values with commas between them are written for the items there is room
for. -/
theorem foldl_emitJson_values (hformat : options.format ≠ .jsonLines)
    (items : List ReportItem) (report : Report) :
    (items.foldl (emitJson options) report).output =
      report.output ++
        let texts := (items.take (options.maximumItems.toNat -
          report.emitted.toNat)).map itemText
        if report.first then separated texts
        else texts.flatMap fun text => 0x2c :: text := by
  induction items generalizing report with
  | nil =>
      rw [List.take_nil, List.foldl_nil]
      cases report.first <;> exact (List.append_nil _).symm
  | cons item rest ih =>
      by_cases havailable : report.available options
      · have hstep : emitJson options report item =
            { report.append ((if report.first then [] else [0x2c]) ++
                itemText item) with
              emitted := report.emitted + 1, first := false } := by
          rw [emitJson, if_pos havailable, if_neg hformat]
          rfl
        rw [emitted_succ havailable, List.take_succ_cons, List.map_cons,
          List.foldl_cons, hstep, ih]
        dsimp only
        rw [if_neg Bool.false_ne_true, separated_cons_eq_flatMap,
          List.flatMap_cons, Report.append]
        cases report.first with
        | true =>
            rw [if_pos rfl, if_pos rfl, List.nil_append, List.append_assoc]
        | false =>
            rw [if_neg Bool.false_ne_true, if_neg Bool.false_ne_true,
              List.append_assoc, List.append_assoc, List.cons_append,
              List.cons_append, List.nil_append]
      · rw [foldl_emitJson_full _ havailable, Nat.sub_eq_zero_of_le
          (not_lt.mp (mt available_iff.mpr havailable)), List.take_zero]
        cases report.first <;> exact (List.append_nil _).symm

/-! ## Reports of one value -/

def headerEntries (header : FileHeader) : List Entry :=
  [nameEntry "format" (formatName header.format),
    nameEntry "architecture" (architectureName header.architecture),
    numberEntry "entry_point" header.entryPoint.toNat,
    numberEntry "image_base" header.imageBase.toNat]

def metricsEntries (metrics : ImageMetrics) : List Entry :=
  [numberEntry "file_bytes" metrics.fileSize.toNat,
    numberEntry "memory_bytes" metrics.declaredMemoryBytes.toNat,
    numberEntry "executable_bytes" metrics.executableBytes.toNat]

def objectEntry (name : Bytes) (entries : List Entry) : Entry :=
  entry name (objectText entries) (objectValue entries)

def itemsEntry (items : List ReportItem) : Entry :=
  entry "items" (0x5b :: (separated (items.map itemText) ++ [0x5d]))
    (.array (items.map itemValue))

def truncatedEntry (truncated : Bool) : Entry :=
  entry "truncated" (booleanText truncated) (.boolean truncated)

/-- The members of a report before its items. -/
def leadingEntries (header : FileHeader) (metrics : Option ImageMetrics)
    (hardening : Option HardeningReport) : List Entry :=
  objectEntry "header" (headerEntries header) ::
    ((metrics.map fun metrics =>
        objectEntry "metrics" (metricsEntries metrics)).toList ++
      (hardening.map fun hardening =>
        numberEntry "hardening_score" hardening.score.toNat).toList)

def reportEntries (image : BinaryImage) (metrics : Option ImageMetrics)
    (hardening : Option HardeningReport) (items : List ReportItem)
    (truncated : Bool) : List Entry :=
  leadingEntries image.header metrics hardening ++
    [itemsEntry items, truncatedEntry truncated]

theorem objectEntry_spelled {name : Bytes} {entries : List Entry}
    (hname : name.all isPlain = true)
    (hnonempty : entries ≠ []) (hentries : ∀ found ∈ entries, found.Spelled) :
    (objectEntry name entries).Spelled :=
  entry_spelled hname (spells_object hnonempty hentries)

theorem headerEntries_spelled (header : FileHeader) :
    ∀ found ∈ headerEntries header, found.Spelled := by
  simp only [headerEntries, List.forall_mem_cons, List.not_mem_nil,
    false_imp_iff, implies_true, and_true]
  exact ⟨nameEntry_spelled _ rfl, nameEntry_spelled _ rfl,
    numberEntry_spelled _ rfl, numberEntry_spelled _ rfl⟩

theorem metricsEntries_spelled (metrics : ImageMetrics) :
    ∀ found ∈ metricsEntries metrics, found.Spelled := by
  simp only [metricsEntries, List.forall_mem_cons, List.not_mem_nil,
    false_imp_iff, implies_true, and_true]
  exact ⟨numberEntry_spelled _ rfl, numberEntry_spelled _ rfl,
    numberEntry_spelled _ rfl⟩

theorem itemsEntry_spelled (items : List ReportItem) :
    (itemsEntry items).Spelled := by
  refine entry_spelled rfl ?_
  have hspells := @spells_array
    (items.map fun item => (itemText item, itemValue item)) (by
      intro pair hpair
      obtain ⟨item, -, rfl⟩ := List.mem_map.mp hpair
      exact spells_item item)
  rw [List.map_map, List.map_map] at hspells
  exact hspells

theorem reportEntries_spelled (image : BinaryImage)
    (metrics : Option ImageMetrics) (hardening : Option HardeningReport)
    (items : List ReportItem) (truncated : Bool) :
    ∀ found ∈ reportEntries image metrics hardening items truncated,
      found.Spelled := by
  have hheader : (objectEntry "header" (headerEntries image.header)).Spelled :=
    objectEntry_spelled rfl (List.cons_ne_nil _ _) (headerEntries_spelled _)
  have hmetrics : ∀ metrics,
      (objectEntry "metrics" (metricsEntries metrics)).Spelled := fun metrics =>
    objectEntry_spelled rfl (List.cons_ne_nil _ _)
      (metricsEntries_spelled metrics)
  have hscore : ∀ score, (numberEntry "hardening_score" score).Spelled :=
    fun score => numberEntry_spelled score rfl
  have htruncated : (truncatedEntry truncated).Spelled :=
    entry_spelled rfl (Spells.boolean truncated)
  have hitems := itemsEntry_spelled items
  cases metrics <;> cases hardening <;>
    simp only [reportEntries, leadingEntries, Option.map_none, Option.map_some,
      Option.toList_none, Option.toList_some, List.nil_append, List.append_nil,
      List.cons_append, List.forall_mem_cons, List.not_mem_nil, false_imp_iff,
      implies_true, and_true] <;>
    simp only [hheader, hmetrics, hscore, hitems, htruncated, and_self]

/-- The text up to the bracket before the items. -/
theorem jsonHeader_eq (image : BinaryImage) (metrics : Option ImageMetrics)
    (hardening : Option HardeningReport) :
    jsonHeader image metrics hardening =
      0x7b :: (separated
        ((leadingEntries image.header metrics hardening).map Entry.spelling) ++
          0x2c :: (quoted "items" ++ [0x3a, 0x5b])) := by
  have hheader : ascii "\x7b\"header\":\x7b\"format\":\"" =
      0x7b :: 0x22 :: (ascii "header" ++ 0x22 :: 0x3a :: 0x7b :: 0x22 ::
        (ascii "format" ++ [0x22, 0x3a, 0x22])) := by decide
  have harchitecture : ascii "\",\"architecture\":\"" = 0x22 :: 0x2c ::
      0x22 :: (ascii "architecture" ++ [0x22, 0x3a, 0x22]) := by decide
  have hentry : ascii "\",\"entry_point\":" = 0x22 :: 0x2c :: 0x22 ::
      (ascii "entry_point" ++ [0x22, 0x3a]) := by decide
  have hbase : ascii ",\"image_base\":" =
      0x2c :: 0x22 :: (ascii "image_base" ++ [0x22, 0x3a]) := by decide
  have hmetrics : ascii ",\"metrics\":\x7b\"file_bytes\":" = 0x2c :: 0x22 ::
      (ascii "metrics" ++ 0x22 :: 0x3a :: 0x7b :: 0x22 ::
        (ascii "file_bytes" ++ [0x22, 0x3a])) := by decide
  have hmemory : ascii ",\"memory_bytes\":" =
      0x2c :: 0x22 :: (ascii "memory_bytes" ++ [0x22, 0x3a]) := by decide
  have hexecutable : ascii ",\"executable_bytes\":" =
      0x2c :: 0x22 :: (ascii "executable_bytes" ++ [0x22, 0x3a]) := by decide
  have hscore : ascii ",\"hardening_score\":" =
      0x2c :: 0x22 :: (ascii "hardening_score" ++ [0x22, 0x3a]) := by decide
  have hitems : ascii ",\"items\":[" =
      0x2c :: 0x22 :: (ascii "items" ++ [0x22, 0x3a, 0x5b]) := by decide
  have hend : ascii "\x7d" = [0x7d] := by decide
  unfold jsonHeader
  rw [hheader, harchitecture, hentry, hbase, hitems, hend]
  cases metrics <;> cases hardening <;>
    simp only [hmetrics, hmemory, hexecutable, hscore, leadingEntries,
      headerEntries, metricsEntries, objectEntry, objectText, nameEntry,
      numberEntry, entry, Entry.spelling, quoted, separated_cons_eq_flatMap,
      Option.map_none, Option.map_some, Option.toList_none, Option.toList_some,
      List.map_cons, List.map_nil, List.flatMap_cons,
      List.flatMap_nil, List.append_assoc, List.cons_append, List.nil_append,
      List.append_nil]

theorem separated_append {front back : List Bytes} (hfront : front ≠ [])
    (hback : back ≠ []) :
    separated (front ++ back) = separated front ++ 0x2c :: separated back := by
  obtain ⟨first, rest, rfl⟩ := List.exists_cons_of_ne_nil hfront
  obtain ⟨second, others, rfl⟩ := List.exists_cons_of_ne_nil hback
  rw [List.cons_append, separated_cons_eq_flatMap, separated_cons_eq_flatMap,
    separated_cons_eq_flatMap, List.flatMap_append, List.flatMap_cons,
    List.append_assoc, List.cons_append]

theorem writeJson_eq_some {image : BinaryImage} {metrics : Option ImageMetrics}
    {hardening : Option HardeningReport} {text : Bytes}
    (hformat : options.format ≠ .jsonLines)
    (hwrite : writeJson image options metrics hardening = some text) :
    text = objectText (reportEntries image metrics hardening
      (listedItems image options)
      (options.maximumItems.toNat ≤ (includedItems image options).length)) := by
  rw [writeJson, if_neg hformat] at hwrite
  simp only [Option.bind_eq_bind, Option.bind_eq_some_iff] at hwrite
  obtain ⟨report, hreport, htext⟩ := hwrite
  have hitems := emitTables_eq_some hreport
  have houtput := congrArg Report.output hitems
  rw [foldl_emitJson_values hformat] at houtput
  have htruncated : ascii "],\"truncated\":" =
      0x5d :: 0x2c :: 0x22 :: (ascii "truncated" ++ [0x22, 0x3a]) := by decide
  have hfalse : ascii "false" = booleanText false := by decide
  have htrue : ascii "true" = booleanText true := by decide
  have hend : ascii "\x7d" = [0x7d] := by decide
  have hemitted := @foldl_emitJson_emitted options
    (includedItems image options)
    { output := jsonHeader image metrics hardening } UInt32.zero_le
  rw [← hitems, UInt32.toNat_zero, Nat.zero_add] at hemitted
  have hflag : (if report.available options then booleanText false
      else booleanText true) =
        booleanText (decide (options.maximumItems.toNat ≤
          (includedItems image options).length)) := by
    by_cases hfull : options.maximumItems.toNat ≤
        (includedItems image options).length
    · rw [if_neg (by rw [available_iff, hemitted]; omega), decide_eq_true hfull]
    · rw [if_pos (by rw [available_iff, hemitted]; omega),
        decide_eq_false hfull]
  rw [← Option.some.inj htext, houtput, jsonHeader_eq, htruncated, hend, hfalse,
    htrue, objectText, reportEntries, List.map_append,
    separated_append (by simp [leadingEntries]) (by simp), List.map_cons,
    List.map_singleton, separated_cons_eq_flatMap, List.flatMap_singleton]
  rw [hflag]
  simp only [itemsEntry, truncatedEntry, entry, Entry.spelling, quoted,
    listedItems, UInt32.toNat_zero, Nat.sub_zero, if_true, List.append_assoc,
    List.cons_append, List.nil_append]

theorem mapM_readItem (items : List ReportItem) :
    (items.map itemValue).mapM readItem = some items := by
  induction items with
  | nil => rfl
  | cons item rest ih =>
      rw [List.map_cons, List.mapM_cons, readItem_itemValue, ih]
      rfl

theorem readItems_report (image : BinaryImage) (metrics : Option ImageMetrics)
    (hardening : Option HardeningReport) (items : List ReportItem)
    (truncated : Bool) :
    readItems (objectValue (reportEntries image metrics hardening items
      truncated)) = some items := by
  have hitems : itemNamed "items" (objectValue (reportEntries image metrics
      hardening items truncated)) = some (.array (items.map itemValue)) := by
    cases metrics <;> cases hardening <;> rfl
  rw [readItems, hitems]
  exact mapM_readItem items

/-! ## Reports of lines -/

theorem hexDigit_ne_newline (place : ℕ) :
    (ascii "0123456789abcdef").getD place 0 ≠ 0x0a := by
  have hdigits : (ascii "0123456789abcdef").all (· ≠ 0x0a) = true := rfl
  rw [List.getD_eq_getElem?_getD]
  cases hdigit : (ascii "0123456789abcdef")[place]? with
  | none => decide
  | some digit =>
      simpa using List.all_eq_true.mp hdigits digit
        (List.mem_of_getElem? hdigit)

theorem escapeByte_no_newline (byte : UInt8) : 0x0a ∉ escapeByte byte := by
  unfold escapeByte
  split_ifs with hquote hescape hb hf hn hr ht hcontrol
  iterate 7 · decide
  · simp only [List.mem_append, List.mem_cons, List.not_mem_nil, or_false,
      not_or]
    exact ⟨by decide, (hexDigit_ne_newline _).symm,
      (hexDigit_ne_newline _).symm⟩
  · simpa [eq_comm] using hn

theorem jsonEscape_no_newline (name : Bytes) : 0x0a ∉ jsonEscape name := by
  intro hnewline
  obtain ⟨byte, -, hbyte⟩ := List.mem_flatMap.mp hnewline
  exact escapeByte_no_newline byte hbyte

theorem decimal_no_newline (n : ℕ) : 0x0a ∉ decimal n := by
  intro hnewline
  exact absurd ((digits_decimal n).2 0x0a hnewline) (by decide)

theorem itemText_no_newline (item : ReportItem) : 0x0a ∉ itemText item := by
  simp only [itemText, List.mem_append, not_or]
  refine ⟨⟨⟨⟨⟨⟨⟨⟨⟨⟨?_, jsonEscape_no_newline _⟩, ?_⟩, decimal_no_newline _⟩, ?_⟩,
    jsonEscape_no_newline _⟩, ?_⟩, decimal_no_newline _⟩, ?_⟩,
    decimal_no_newline _⟩, ?_⟩
  all_goals decide

theorem splitOn_lines {lines : List Bytes}
    (hlines : ∀ line ∈ lines, 0x0a ∉ line) :
    (lines.flatMap fun line => line ++ [0x0a]).splitOn 0x0a =
      lines ++ [[]] := by
  have hjoined : (lines.flatMap fun line => line ++ [0x0a]) =
      [0x0a].intercalate (lines ++ [[]]) := by
    clear hlines
    induction lines with
    | nil => rfl
    | cons line rest ih =>
        rw [List.flatMap_cons, ih, List.cons_append,
          List.intercalate_cons_of_ne_nil (by simp)]
  rw [hjoined, List.splitOn_intercalate]
  · intro line hline
    rcases List.mem_append.mp hline with hline | hline
    · exact hlines line hline
    · rw [List.mem_singleton.mp hline]
      exact List.not_mem_nil
  · simp

theorem mapM_parse (items : List ReportItem) :
    (items.map itemText).mapM Json.parse = some (items.map itemValue) := by
  induction items with
  | nil => rfl
  | cons item rest ih =>
      rw [List.map_cons, List.mapM_cons,
        parse_of_isText (spells_item item).isText, ih]
      rfl

theorem parseLines_items (items : List ReportItem) :
    parseLines (items.flatMap fun item => itemText item ++ [0x0a]) =
      some (items.map itemValue) := by
  have hsplit := @splitOn_lines (items.map itemText) (by
    intro line hline
    obtain ⟨item, -, rfl⟩ := List.mem_map.mp hline
    exact itemText_no_newline item)
  rw [List.flatMap_map] at hsplit
  rw [parseLines, hsplit]
  rw [List.getLast?_concat, if_pos rfl, List.dropLast_concat]
  exact mapM_parse items

/-! ## The whole call -/

/-- The parts of a report that is written. -/
theorem write_ok {limits : Limits} {image : BinaryImage} {text : Bytes}
    (hwrite : write limits image options = .ok (some text)) :
    ∃ metrics hardening,
      includedPart options.includeMetrics (ImageAnalyzer.analyze limits image) =
        .ok metrics ∧
      includedPart options.includeHardening
        (HardeningAnalyzer.analyze limits image) = .ok hardening ∧
      if options.format = .text then
        text = writeText image options metrics hardening
      else writeJson image options metrics hardening = some text := by
  rw [write, rejectIf_except_bind_eq_ok] at hwrite
  obtain ⟨-, hwrite⟩ := hwrite
  rw [rejectIf_except_bind_eq_ok] at hwrite
  obtain ⟨-, hwrite⟩ := hwrite
  obtain ⟨metrics, hmetrics, hwrite⟩ := except_bind_eq_ok.mp hwrite
  obtain ⟨hardening, hhardening, hwrite⟩ := except_bind_eq_ok.mp hwrite
  refine ⟨metrics, hardening, hmetrics, hhardening, ?_⟩
  split
  next hformat =>
    rw [if_pos hformat] at hwrite
    exact (Option.some.inj (Except.ok.inj hwrite)).symm
  next hformat =>
    rw [if_neg hformat] at hwrite
    exact Except.ok.inj hwrite

theorem write_eq_ok {limits : Limits} {image : BinaryImage} {text : Bytes}
    (hformat : options.format ≠ .text)
    (hwrite : write limits image options = .ok (some text)) :
    ∃ metrics hardening,
      writeJson image options metrics hardening = some text := by
  obtain ⟨metrics, hardening, -, -, hjson⟩ := write_ok hwrite
  rw [if_neg hformat] at hjson
  exact ⟨metrics, hardening, hjson⟩

/-- A report in the JSON format is one value, and in both formats the items
that the options ask for are read back from it. -/
theorem write_reads_back {limits : Limits} {image : BinaryImage} {text : Bytes}
    (hwrite : write limits image options = .ok (some text)) :
    (options.format = .json →
      ∃ value, (∀ other, IsText text other ↔ other = value) ∧
        Json.parse text = some value ∧
        readItems value = some (listedItems image options)) ∧
      (options.format = .jsonLines →
        ∃ values, parseLines text = some values ∧
          values.mapM readItem = some (listedItems image options)) := by
  constructor
  · intro hformat
    obtain ⟨metrics, hardening, hjson⟩ := write_eq_ok (by rw [hformat]; decide)
      hwrite
    obtain rfl := writeJson_eq_some (by rw [hformat]; decide) hjson
    have htext := (spells_object (by simp [reportEntries, leadingEntries])
      (reportEntries_spelled image metrics hardening (listedItems image options)
        (options.maximumItems.toNat ≤
          (includedItems image options).length))).isText
    refine ⟨_, fun other => ⟨fun hother => hother.unique htext, ?_⟩,
      parse_of_isText htext, readItems_report _ _ _ _ _⟩
    rintro rfl
    exact htext
  · intro hformat
    obtain ⟨metrics, hardening, hjson⟩ := write_eq_ok (by rw [hformat]; decide)
      hwrite
    rw [writeJson, if_pos hformat, Option.map_eq_some_iff] at hjson
    obtain ⟨report, hreport, rfl⟩ := hjson
    rw [emitTables_eq_some hreport, foldl_emitJson_lines hformat]
    exact ⟨_, parseLines_items _, mapM_readItem _⟩

/-- A section whose name has a quote, a backslash, a control byte and a byte
beyond ASCII is listed; the import after it is not. -/
theorem write_reads_back_escapes :
    ∃ text value,
      write {} { sections := [{ name := [0x22, 0x5c, 0x01, 0xff]
                                kind := .noBits, virtualAddress := 0x1000 }]
                 imports := [{ library := "m", name := "pow" }]
                 fileData := some [] }
          { format := .json, includeMetrics := false, includeHardening := false
            maximumItems := 1 } = .ok (some text) ∧
        Json.parse text = some value ∧
        readItems value = some [{ type := "section", index := 0
                                  name := [0x22, 0x5c, 0x01, 0xff]
                                  address := 0x1000, size := 0 }] := by
  obtain ⟨found, hwrite, hfound⟩ := toOption_bind_eq_some.mp
    (by decide +kernel :
      (write {} { sections := [{ name := [0x22, 0x5c, 0x01, 0xff]
                                 kind := .noBits, virtualAddress := 0x1000 }]
                  imports := [{ library := "m", name := "pow" }]
                  fileData := some [] }
          { format := .json, includeMetrics := false, includeHardening := false
            maximumItems := 1 }).toOption.bind
        (Option.map fun _ => ()) = some ())
  obtain ⟨text, rfl, -⟩ := Option.map_eq_some_iff.mp hfound
  obtain ⟨value, -, hparse, hitems⟩ := (write_reads_back hwrite).1 rfl
  exact ⟨text, value, hwrite, hparse, hitems.trans (by decide +kernel)⟩

end BinaryReportWriter
end BinForge
