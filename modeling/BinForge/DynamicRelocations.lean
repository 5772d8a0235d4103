import BinForge.ElfDynamic
import BinForge.LastWrite

/-!
# The relocation table of a dynamic section

Two tables may be named in a dynamic section, and the report has room for one.
The address comes from the last address entry and the size from the last size
entry, which need not belong to the same table.
-/

namespace BinForge

open StatefulExcept
open ByteReader

namespace ElfDynamicParser

inductive RelocationTable
  | rela
  | rel
  deriving DecidableEq, Repr

namespace RelocationTable

def addressTag : RelocationTable → Int64
  | .rela => dynamicRelocation
  | .rel => dynamicRel

def sizeTag : RelocationTable → Int64
  | .rela => dynamicRelocationSize
  | .rel => dynamicRelSize

def other : RelocationTable → RelocationTable
  | .rela => .rel
  | .rel => .rela

theorem other_other (table : RelocationTable) : table.other.other = table := by
  cases table <;> rfl

theorem addressTag_ne_null (table : RelocationTable) :
    table.addressTag ≠ dynamicNull := by
  cases table <;> decide

theorem sizeTag_ne_null (table : RelocationTable) :
    table.sizeTag ≠ dynamicNull := by
  cases table <;> decide

/-- The size the entries give the table, zero when they give none. -/
def storedSize (table : RelocationTable) (entries : List DynamicEntry) :
    UInt64 :=
  ((entries.find? fun entry => entry.tag = table.sizeTag).map (·.value)).getD 0

/-- The other table's address does not follow with another value. -/
def Selected (table : RelocationTable) (entries : List DynamicEntry) : Prop :=
  ∃ (front : List DynamicEntry) (item : DynamicEntry)
      (back : List DynamicEntry), entries = front ++ item :: back ∧
    item.tag = table.addressTag ∧
    ∀ later ∈ back, later.tag = table.other.addressTag →
      later.value = item.value

/-- The other table's size is not followed by this table's, and differs. -/
def SizeReplaced (table : RelocationTable) (entries : List DynamicEntry) :
    Prop :=
  ∃ (front : List DynamicEntry) (item : DynamicEntry)
      (back : List DynamicEntry), entries = front ++ item :: back ∧
    item.tag = table.other.sizeTag ∧ item.value ≠ table.storedSize entries ∧
    ∀ later ∈ back, later.tag ≠ table.sizeTag

end RelocationTable

def AtMostOnce (tag : Int64) (entries : List DynamicEntry) : Prop :=
  entries.countP (fun entry => entry.tag = tag) ≤ 1

instance (tag : Int64) (entries : List DynamicEntry) :
    Decidable (AtMostOnce tag entries) :=
  inferInstanceAs (Decidable (_ ≤ 1))

def EachAtMostOnce (entries : List DynamicEntry) : Prop :=
  ∀ table : RelocationTable,
    AtMostOnce table.addressTag entries ∧ AtMostOnce table.sizeTag entries

/-- The reported size is that of every table with the reported address. -/
def DescribesOneTable (entries : List DynamicEntry) (report : DynamicReport) :
    Prop :=
  ∀ (table : RelocationTable), ∀ entry ∈ entries,
    entry.tag = table.addressTag → report.relocationAddress = entry.value →
      report.relocationSize = table.storedSize entries

/-! ## Values kept under two tags -/

section Kept

variable {tagOf : RelocationTable → Int64} {table : RelocationTable}
  {entries front back : List DynamicEntry} {item : DynamicEntry}

/-- What an entry writes to the field that both tables' tags set. -/
def valueAt (tagOf : RelocationTable → Int64) (entry : DynamicEntry) :
    Option UInt64 :=
  if entry.tag = tagOf .rela ∨ entry.tag = tagOf .rel then some entry.value
  else none

def kept (tagOf : RelocationTable → Int64) (entries : List DynamicEntry) :
    UInt64 :=
  lastWrite (valueAt tagOf) entries 0

theorem valueAt_of_tag (hitem : item.tag = tagOf table) :
    valueAt tagOf item = some item.value := by
  apply if_pos
  cases table with
  | rela => exact .inl hitem
  | rel => exact .inr hitem

theorem tag_of_valueAt {value : UInt64} (table : RelocationTable)
    (hwritten : valueAt tagOf item = some value) :
    (item.tag = tagOf table ∨ item.tag = tagOf table.other) ∧
      item.value = value := by
  rw [valueAt, Option.ite_none_right_eq_some, Option.some.injEq] at hwritten
  refine ⟨?_, hwritten.2⟩
  cases table with
  | rela => exact hwritten.1
  | rel => exact hwritten.1.symm

theorem tag_ne_of_valueAt (hsilent : valueAt tagOf item = none) :
    item.tag ≠ tagOf table := by
  intro htag
  rw [valueAt_of_tag htag] at hsilent
  contradiction

theorem AtMostOnce.apart {tag : Int64}
    (hone : AtMostOnce tag (front ++ item :: back)) (hitem : item.tag = tag) :
    (∀ earlier ∈ front, earlier.tag ≠ tag) ∧
      ∀ later ∈ back, later.tag ≠ tag := by
  rw [AtMostOnce, List.countP_append, List.countP_cons_of_pos (by simp [hitem])]
    at hone
  have hfront : front.countP (fun entry => entry.tag = tag) = 0 := by omega
  have hback : back.countP (fun entry => entry.tag = tag) = 0 := by omega
  simp only [List.countP_eq_zero, decide_eq_true_eq] at hfront hback
  exact ⟨hfront, hback⟩

/-- The field holds a table's value exactly when the other does not follow. -/
theorem kept_eq_iff
    (hone : ∀ table, AtMostOnce (tagOf table) (front ++ item :: back))
    (hitem : item.tag = tagOf table) :
    kept tagOf (front ++ item :: back) = item.value ↔
      ∀ later ∈ back, later.tag = tagOf table.other →
        later.value = item.value := by
  have hback := ((hone table).apart hitem).2
  constructor
  · intro hkept later hlater htag
    obtain ⟨middle, rest, rfl⟩ := List.append_of_mem hlater
    have hrest := ((by simpa using hone table.other :
      AtMostOnce (tagOf table.other)
        ((front ++ item :: middle) ++ later :: rest)).apart htag).2
    have hlast : kept tagOf ((front ++ item :: middle) ++ later :: rest) =
        later.value := by
      apply LastWrite.of_split (valueAt_of_tag htag)
      intro next hnext value hwritten
      rcases (tag_of_valueAt table hwritten).1 with hsame | hother
      · exact absurd hsame (hback next (by simp [hnext]))
      · exact absurd hother (hrest next hnext)
    rw [← hlast, ← hkept, List.append_assoc, List.cons_append]
  · intro hagrees
    apply LastWrite.of_split (valueAt_of_tag hitem)
    intro later hlater value hwritten
    obtain ⟨hsame | hother, rfl⟩ := tag_of_valueAt table hwritten
    · exact absurd hsame (hback later hlater)
    · exact hagrees later hlater hother

end Kept

/-! ## Addresses and sizes -/

section Tables

variable {entries : List DynamicEntry} {table : RelocationTable}

theorem storedSize_of_mem (hone : AtMostOnce table.sizeTag entries)
    {item : DynamicEntry} (hitem : item ∈ entries)
    (htag : item.tag = table.sizeTag) : table.storedSize entries = item.value := by
  obtain ⟨front, back, rfl⟩ := List.append_of_mem hitem
  have hfront : front.find? (fun entry => entry.tag = table.sizeTag) = none := by
    simpa using (hone.apart htag).1
  simp [RelocationTable.storedSize, List.find?_append, hfront, htag]

theorem storedSize_of_forall
    (hentries : ∀ entry ∈ entries, entry.tag ≠ table.sizeTag) :
    table.storedSize entries = 0 := by
  have hnone : entries.find? (fun entry => entry.tag = table.sizeTag) = none := by
    simpa using hentries
  rw [RelocationTable.storedSize, hnone]
  rfl

/-- The size kept is a table's own exactly when it is not replaced. -/
theorem kept_size_iff (hone : ∀ table : RelocationTable,
      AtMostOnce table.sizeTag entries) :
    kept RelocationTable.sizeTag entries = table.storedSize entries ↔
      ¬table.SizeReplaced entries := by
  constructor
  · rintro hkept ⟨front, item, back, rfl, hother, hdiffers, hback⟩
    have hlast : kept RelocationTable.sizeTag (front ++ item :: back) =
        item.value := by
      apply (kept_eq_iff hone hother).mpr
      intro later hlater hown
      rw [RelocationTable.other_other] at hown
      exact absurd hown (hback later hlater)
    exact hdiffers (hlast.symm.trans hkept)
  · intro hnot
    rcases LastWrite.silent_or_split (valueAt RelocationTable.sizeTag) entries
      with hsilent | ⟨front, item, back, value, rfl, hitem, hback⟩
    · rw [storedSize_of_forall fun entry hentry =>
        tag_ne_of_valueAt (hsilent entry hentry)]
      exact LastWrite.of_silent hsilent
    · have hkept : kept RelocationTable.sizeTag (front ++ item :: back) =
          value := by
        apply LastWrite.of_split hitem
        intro later hlater other hwritten
        rw [hback later hlater] at hwritten
        contradiction
      obtain ⟨hown | hother, rfl⟩ := tag_of_valueAt table hitem
      · rw [hkept, storedSize_of_mem (hone table) (by simp) hown]
      · by_contra hdiffers
        rw [hkept] at hdiffers
        exact hnot ⟨front, item, back, rfl, hother, hdiffers,
          fun later hlater => tag_ne_of_valueAt (hback later hlater)⟩

/-- The address kept is a table's own exactly when the table is selected. -/
theorem kept_address_iff (hone : ∀ table : RelocationTable,
      AtMostOnce table.addressTag entries) :
    (∃ entry ∈ entries, entry.tag = table.addressTag ∧
        kept RelocationTable.addressTag entries = entry.value) ↔
      table.Selected entries := by
  constructor
  · rintro ⟨item, hitem, htag, hkept⟩
    obtain ⟨front, back, rfl⟩ := List.append_of_mem hitem
    exact ⟨front, item, back, rfl, htag, (kept_eq_iff hone htag).mp hkept⟩
  · rintro ⟨front, item, back, rfl, htag, hback⟩
    exact ⟨item, by simp, htag, (kept_eq_iff hone htag).mpr hback⟩

end Tables

/-! ## What the parser keeps -/

/-- The entry at an index of the section. -/
def entryAt (image : BinaryImage) (dynamicSection : Section) (index : ℕ) :
    DynamicEntry :=
  let data := image.fileData.getD []
  let order := image.header.byteOrder
  let place := (entryPosition image dynamicSection index).toNat
  if isWide image then
    { tag := (u64At order data place).toInt64
      value := u64At order data (place + 8) }
  else
    { tag := (u32At order data place).toInt32.toInt64
      value := (u32At order data (place + 4)).toUInt64 }

def beforeNull (entries : List DynamicEntry) : List DynamicEntry :=
  entries.takeWhile fun entry => entry.tag ≠ dynamicNull

theorem beforeNull_cons {entry : DynamicEntry} {entries : List DynamicEntry}
    (hentry : entry.tag ≠ dynamicNull) :
    beforeNull (entry :: entries) = entry :: beforeNull entries :=
  List.takeWhile_cons_of_pos (by simpa using hentry)

/-- The entries of the section in front of the first null one. -/
def storedEntries (image : BinaryImage) (dynamicSection : Section) :
    List DynamicEntry :=
  beforeNull ((List.range (dynamicSection.fileSize /
    entryStride image dynamicSection).toNat).map (entryAt image dynamicSection))

section Parse

variable {limits : Limits} {image : BinaryImage} {dynamicSection : Section}
  {reader next : ByteReader}

/-- The reader walks the file in the image's byte order. -/
structure OnFile (image : BinaryImage) (reader : ByteReader) : Prop where
  data : reader.data = image.fileData.getD []
  order : reader.order = image.header.byteOrder

theorem readEntryAt_ok {index : ℕ} {entry : DynamicEntry}
    (hreader : OnFile image reader)
    (hrun : readEntryAt (isWide image)
      (entryPosition image dynamicSection index) reader = .ok entry next) :
    entry = entryAt image dynamicSection index ∧ OnFile image next := by
  obtain ⟨hdata, horder⟩ := hreader
  unfold readEntryAt at hrun
  obtain ⟨_, sought, hseek, hrun⟩ := bind_eq_ok.mp hrun
  unfold silently at hseek
  obtain ⟨_, rfl⟩ := seek_eq_ok.mp (adaptError_eq_ok.mp hseek)
  have hread := adaptError_eq_ok.mp hrun
  unfold readEntry at hread
  unfold entryAt
  generalize isWide image = wide at hread ⊢
  cases wide <;>
    simp only [if_true, Bool.false_eq_true, if_false, bind_eq_ok, readU64_at,
      readU32_at, readI64, readI32, pure_eq_ok, and_assoc, exists_and_left,
      exists_eq_left, exists_eq_left', movedTo_data, movedTo_order,
      movedTo_position, movedTo_movedTo, hdata, horder] at hread ⊢
  all_goals
    obtain ⟨_, _, rfl, rfl⟩ := hread
    exact ⟨rfl, hdata, horder⟩

theorem entryLoop_ok {rounds index : ℕ} {table final : DynamicTable}
    (hreader : OnFile image reader)
    (hrun : entryLoop image dynamicSection rounds index table reader =
      .ok final next) :
    ∃ ended, (∀ entry ∈ ended, entry.tag = dynamicNull) ∧
      final = (beforeNull ((List.range' index rounds).map
        (entryAt image dynamicSection)) ++ ended).foldl pushEntry table := by
  induction rounds generalizing index table reader with
  | zero =>
      rw [entryLoop, pure_eq_ok] at hrun
      exact ⟨[], by simp, hrun.1.symm⟩
  | succ rounds ih =>
      rw [entryLoop] at hrun
      obtain ⟨entry, moved, hentry, hrun⟩ := bind_eq_ok.mp hrun
      obtain ⟨rfl, hmoved⟩ := readEntryAt_ok hreader hentry
      rw [List.range'_succ, List.map_cons]
      by_cases hnull : (entryAt image dynamicSection index).tag = dynamicNull
      · rw [if_pos hnull, pure_eq_ok] at hrun
        refine ⟨[entryAt image dynamicSection index], by simpa using hnull, ?_⟩
        rw [beforeNull, List.takeWhile_cons_of_neg (by simpa using hnull)]
        exact hrun.1.symm
      · rw [if_neg hnull] at hrun
        obtain ⟨ended, hended, rfl⟩ := ih hmoved hrun
        refine ⟨ended, hended, ?_⟩
        rw [beforeNull_cons hnull]
        rfl

/-- Each of the two fields is written under the two tags for it. -/
theorem actOn_relocation (entry : DynamicEntry) (table : DynamicTable) :
    (actOn entry table).report.relocationAddress =
        (valueAt RelocationTable.addressTag entry).getD
          table.report.relocationAddress ∧
      (actOn entry table).report.relocationSize =
        (valueAt RelocationTable.sizeTag entry).getD
          table.report.relocationSize := by
  by_cases haddress : entry.tag = dynamicRelocation ∨ entry.tag = dynamicRel
  · rw [actOn, valueAt, valueAt]
    rcases haddress with htag | htag <;> rw [htag] <;> exact ⟨rfl, rfl⟩
  · by_cases hsize : entry.tag = dynamicRelocationSize ∨
        entry.tag = dynamicRelSize
    · rw [actOn, valueAt, valueAt]
      rcases hsize with htag | htag <;> rw [htag] <;> exact ⟨rfl, rfl⟩
    · have hnoAddress : valueAt RelocationTable.addressTag entry = none :=
        if_neg haddress
      have hnoSize : valueAt RelocationTable.sizeTag entry = none :=
        if_neg hsize
      rw [hnoAddress, hnoSize]
      fun_cases actOn entry table <;> first | exact ⟨rfl, rfl⟩ | contradiction

theorem pushEntries_relocationAddress (entries : List DynamicEntry)
    (table : DynamicTable) :
    (entries.foldl pushEntry table).report.relocationAddress =
      lastWrite (valueAt RelocationTable.addressTag) entries
        table.report.relocationAddress :=
  LastWrite.foldl_view pushEntry
    (fun table => table.report.relocationAddress)
    (fun _ entry => (actOn_relocation entry _).1) entries table

theorem pushEntries_relocationSize (entries : List DynamicEntry)
    (table : DynamicTable) :
    (entries.foldl pushEntry table).report.relocationSize =
      lastWrite (valueAt RelocationTable.sizeTag) entries
        table.report.relocationSize :=
  LastWrite.foldl_view pushEntry (fun table => table.report.relocationSize)
    (fun _ entry => (actOn_relocation entry _).2) entries table

/-- Null entries behind the others do not count. -/
theorem lastWrite_ended {tagOf : RelocationTable → Int64}
    (htags : ∀ table, tagOf table ≠ dynamicNull)
    {entries ended : List DynamicEntry}
    (hended : ∀ entry ∈ ended, entry.tag = dynamicNull) :
    lastWrite (valueAt tagOf) (entries ++ ended) 0 = kept tagOf entries := by
  rw [LastWrite.append]
  apply LastWrite.of_silent
  intro entry hentry
  rw [valueAt, hended entry hentry]
  simp [(htags .rela).symm, (htags .rel).symm]

theorem resolveStrings_ok {table : DynamicTable} {report : DynamicReport}
    (hrun : resolveStrings limits image dynamicSection table = .ok report) :
    report.relocationAddress = table.report.relocationAddress ∧
      report.relocationSize = table.report.relocationSize := by
  unfold resolveStrings at hrun
  obtain ⟨_, hrun⟩ := rejectIf_except_bind_eq_ok.mp hrun
  obtain ⟨_, hrun⟩ := rejectIf_except_bind_eq_ok.mp hrun
  obtain ⟨libraries, _, hrun⟩ := except_bind_eq_ok.mp hrun
  obtain ⟨soname, _, hrun⟩ := except_bind_eq_ok.mp hrun
  obtain ⟨runPath, _, hrun⟩ := except_bind_eq_ok.mp hrun
  obtain rfl := Except.ok.inj hrun
  exact ⟨rfl, rfl⟩

/-- The report keeps the last address and the last size. -/
theorem parse_kept {report : DynamicReport}
    (hrun : parse limits image dynamicSection = .ok report) :
    report.relocationAddress = kept RelocationTable.addressTag
        (storedEntries image dynamicSection) ∧
      report.relocationSize = kept RelocationTable.sizeTag
        (storedEntries image dynamicSection) := by
  unfold parse at hrun
  obtain ⟨_, hrun⟩ := rejectIf_except_bind_eq_ok.mp hrun
  obtain ⟨_, hrun⟩ := rejectIf_except_bind_eq_ok.mp hrun
  obtain ⟨_, hrun⟩ := rejectIf_except_bind_eq_ok.mp hrun
  obtain ⟨_, hrun⟩ := rejectIf_except_bind_eq_ok.mp hrun
  obtain ⟨table, hloop, hrun⟩ := except_bind_eq_ok.mp hrun
  obtain ⟨last, hloop⟩ := evaluate_eq_ok.mp hloop
  obtain ⟨ended, hended, rfl⟩ := entryLoop_ok ⟨rfl, rfl⟩ hloop
  obtain ⟨haddress, hsize⟩ := resolveStrings_ok hrun
  rw [← List.range_eq_range'] at haddress hsize
  constructor
  · rw [haddress, pushEntries_relocationAddress]
    exact lastWrite_ended RelocationTable.addressTag_ne_null hended
  · rw [hsize, pushEntries_relocationSize]
    exact lastWrite_ended RelocationTable.sizeTag_ne_null hended

/-- The address and the size are those of one table exactly when no table is
selected while its size is replaced. -/
theorem relocation_pair_iff {report : DynamicReport}
    (hrun : parse limits image dynamicSection = .ok report)
    (hone : EachAtMostOnce (storedEntries image dynamicSection)) :
    DescribesOneTable (storedEntries image dynamicSection) report ↔
      ∀ table : RelocationTable,
        table.Selected (storedEntries image dynamicSection) →
          ¬table.SizeReplaced (storedEntries image dynamicSection) := by
  obtain ⟨haddress, hsize⟩ := parse_kept hrun
  rw [DescribesOneTable, haddress, hsize]
  apply forall_congr'
  intro table
  rw [← kept_address_iff fun table => (hone table).1,
    ← kept_size_iff fun table => (hone table).2]
  simp

end Parse

/-- A narrow image whose entries name one table after the other. -/
theorem relocation_pair_in_order :
    let image : BinaryImage :=
      { header := { format := .elfLike, wordSize := .bits32 }
        fileData := some [17, 0, 0, 0, 0, 2, 0, 0, 18, 0, 0, 0, 16, 0, 0, 0,
          7, 0, 0, 0, 0, 1, 0, 0, 8, 0, 0, 0, 48, 0, 0, 0,
          0, 0, 0, 0, 0, 0, 0, 0] }
    ∃ report, parse {} image { fileSize := 40 } = .ok report ∧
      DescribesOneTable (storedEntries image { fileSize := 40 }) report := by
  intro image
  obtain ⟨report, hrun, -⟩ := toOption_bind_eq_some.mp
    (by decide +kernel : (parse {} image { fileSize := 40 }).toOption.bind
      (fun _ => some ()) = some ())
  have hentries : storedEntries image { fileSize := 40 } =
      [⟨17, 0x200⟩, ⟨18, 16⟩, ⟨7, 0x100⟩, ⟨8, 48⟩] := by
    decide +kernel
  have hone : EachAtMostOnce (storedEntries image { fileSize := 40 }) := by
    rw [hentries]
    intro table
    cases table <;> exact ⟨by decide +kernel, by decide +kernel⟩
  refine ⟨report, hrun, (relocation_pair_iff hrun hone).mpr ?_⟩
  rw [hentries] at hone ⊢
  intro table hselected
  cases table with
  | rela =>
      apply (kept_size_iff fun table => (hone table).2).mp
      decide +kernel
  | rel =>
      have haddress :=
        (kept_address_iff fun table => (hone table).1).mpr hselected
      exact absurd haddress (by decide +kernel)

/-- The second address comes last and the first size comes last. -/
theorem relocation_pair_crossed :
    let image : BinaryImage :=
      { header := { format := .elfLike, wordSize := .bits32 }
        fileData := some [18, 0, 0, 0, 16, 0, 0, 0, 7, 0, 0, 0, 0, 1, 0, 0,
          8, 0, 0, 0, 48, 0, 0, 0, 17, 0, 0, 0, 0, 2, 0, 0,
          0, 0, 0, 0, 0, 0, 0, 0] }
    ∃ report, parse {} image { fileSize := 40 } = .ok report ∧
      EachAtMostOnce (storedEntries image { fileSize := 40 }) ∧
      ¬DescribesOneTable (storedEntries image { fileSize := 40 }) report := by
  intro image
  have hentries : storedEntries image { fileSize := 40 } =
      [⟨18, 16⟩, ⟨7, 0x100⟩, ⟨8, 48⟩, ⟨17, 0x200⟩] := by
    decide +kernel
  have heval : (parse {} image { fileSize := 40 }).toOption.bind (fun report =>
      some (report.relocationAddress, report.relocationSize)) =
        some (0x200, 48) := by
    decide +kernel
  obtain ⟨report, hrun, hreport⟩ := toOption_bind_eq_some.mp heval
  obtain ⟨haddress, hsize⟩ := Prod.mk.inj (Option.some.inj hreport)
  rw [hentries]
  refine ⟨report, hrun, fun table => ?_, fun hdescribes => ?_⟩
  · cases table <;> exact ⟨by decide +kernel, by decide +kernel⟩
  · have hrel := hdescribes .rel ⟨17, 0x200⟩ (by decide) rfl haddress
    rw [hsize] at hrel
    exact absurd hrel (by decide +kernel)

end ElfDynamicParser
end BinForge
