import BinForge.PeImports
import BinForge.RelatedLists

/-!
# Complete import tables

The loop over a lookup table ends at a zero entry or after `max_imports`
rounds, and the parser does not tell the two apart.
-/

namespace BinForge

open StatefulExcept
open ByteReader

namespace PeImportExportParser

/-! ## Tables in the image -/

/-- The value at an index of a lookup table, when it can be read. -/
def lookupValue (image : BinaryImage) (options : ImportTableOptions)
    (tableRva : UInt64) (index : ℕ) : Option UInt64 := do
  let (_, entryRva) ← lookupAddress options tableRva index
  let file ← AddressTranslator.rvaToFile image entryRva (pointerWidth options)
  let data := image.fileData.getD []
  let wide := pointerWidth options == 8
  if file.fileOffset.toNat + fieldSize wide ≤ data.length then
    some (fieldAt wide .little data file.fileOffset.toNat)
  else none

def descriptorAt (image : BinaryImage) (start index : ℕ) : ImportDescriptor :=
  let data := image.fileData.getD []
  let place := start + 20 * index
  { lookupRva := u32At .little data place
    timestamp := u32At .little data (place + 4)
    forwarder := u32At .little data (place + 8)
    nameRva := u32At .little data (place + 12)
    addressRva := u32At .little data (place + 16) }

/-- The descriptors from an index up to the one that ends the directory. -/
def descriptorsFrom (image : BinaryImage) (start size index : ℕ) :
    List ImportDescriptor :=
  ((List.range' index (size / 20 - index)).map
    (descriptorAt image start)).takeWhile (· ≠ {})

def storedDescriptors (image : BinaryImage) (options : ImportTableOptions) :
    List ImportDescriptor :=
  match importDirectory image options with
  | none => []
  | some directory => descriptorsFrom image directory.fileOffset.toNat
      options.directorySize.toNat 0

def HasEntry (image : BinaryImage) (options : ImportTableOptions)
    (descriptor : ImportDescriptor) (index : ℕ) : Prop :=
  ∃ value, lookupValue image options descriptor.tableRva index = some value ∧
    value ≠ 0

/-- An element for the nonzero entry at an index. -/
structure StandsFor (image : BinaryImage) (options : ImportTableOptions)
    (descriptor : ImportDescriptor) (index : ℕ) (imported : Import) : Prop where
  entry : HasEntry image options descriptor index
  slot : imported.slotAddress.toNat = options.imageBase.toNat +
    descriptor.addressRva.toNat + index * (pointerWidth options).toNat

/-- The entries of a table are read up to and with the zero one.  The loop
reads an entry only when its index is below the limit. -/
structure ReadsTable (limits : Limits) (image : BinaryImage)
    (options : ImportTableOptions) (descriptor : ImportDescriptor)
    (imports : List Import) : Prop where
  elements : ∀ index imported, imports[index]? = some imported →
    StandsFor image options descriptor index imported
  ending : lookupValue image options descriptor.tableRva imports.length = some 0
  reached : imports.length < limits.maxImports.toNat

def ImportsComplete (limits : Limits) (image : BinaryImage)
    (options : ImportTableOptions) (imports : List Import) : Prop :=
  ∃ tables, List.Forall₂ (ReadsTable limits image options)
    (storedDescriptors image options) tables ∧ imports = tables.flatten

/-- The table begins with as many nonzero entries as there may be imports. -/
def FillsLimit (limits : Limits) (image : BinaryImage)
    (options : ImportTableOptions) (descriptor : ImportDescriptor) : Prop :=
  ∀ index < limits.maxImports.toNat, HasEntry image options descriptor index

section Loops

variable {limits : Limits} {image : BinaryImage} {options : ImportTableOptions}
  {descriptor : ImportDescriptor} {library : Bytes}
  {imports result : List Import} {reader next : ByteReader}

theorem ReadsTable.not_fillsLimit
    (hreads : ReadsTable limits image options descriptor imports) :
    ¬FillsLimit limits image options descriptor := by
  intro hfills
  obtain ⟨value, hvalue, hnonzero⟩ := hfills imports.length hreads.reached
  rw [hreads.ending] at hvalue
  exact hnonzero (Option.some.inj hvalue).symm

/-! ## The loop over a table -/

/-- The reader walks the file in little-endian order. -/
structure OnImage (image : BinaryImage) (reader : ByteReader) : Prop where
  data : reader.data = image.fileData.getD []
  order : reader.order = .little

theorem OnImage.movedTo (hreader : OnImage image reader) (position : ℕ) :
    OnImage image (reader.movedTo position) :=
  ⟨hreader.data, hreader.order⟩

theorem readLookup_ok {tableRva delta entryRva value : UInt64} {index : ℕ}
    (hreader : OnImage image reader)
    (haddress : lookupAddress options tableRva index = some (delta, entryRva))
    (hrun : readLookup image (pointerWidth options) entryRva reader =
      .ok value next) :
    lookupValue image options tableRva index = some value ∧
      OnImage image next := by
  unfold readLookup at hrun
  obtain ⟨file, hfile, hrun⟩ := demand_bind_eq_ok.mp hrun
  obtain ⟨_, sought, hseek, hrun⟩ := bind_eq_ok.mp hrun
  unfold silently at hseek hrun
  obtain ⟨_, rfl⟩ := seek_eq_ok.mp (adaptError_eq_ok.mp hseek)
  obtain ⟨hfit, rfl, rfl⟩ := readWord_at.mp (adaptError_eq_ok.mp hrun)
  refine ⟨?_, (hreader.movedTo _).movedTo _⟩
  rw [movedTo_position, movedTo_data, hreader.data] at hfit
  rw [movedTo_position, movedTo_data, movedTo_order, hreader.data,
    hreader.order]
  simp only [lookupValue, haddress, Option.bind_eq_bind, Option.bind_some, hfile]
  exact if_pos hfit

theorem lookupAddress_delta {tableRva delta entryRva : UInt64} {index : ℕ}
    (hindex : index < 2 ^ 64)
    (haddress : lookupAddress options tableRva index = some (delta, entryRva)) :
    delta.toNat = index * (pointerWidth options).toNat := by
  obtain ⟨product, hproduct, haddress⟩ := Option.bind_eq_some_iff.mp haddress
  obtain ⟨sum, _, haddress⟩ := Option.bind_eq_some_iff.mp haddress
  obtain ⟨rfl, rfl⟩ := Prod.mk.inj (Option.some.inj haddress)
  rw [checkedMultiply_toNat hproduct, UInt64.toNat_ofNat_of_lt' hindex]

theorem readImport_ok {addressRva delta value : UInt64} {imported : Import}
    (hreader : OnImage image reader)
    (hrun : readImport limits image options library addressRva delta value
      reader = .ok imported next) :
    imported.slotAddress.toNat =
        options.imageBase.toNat + addressRva.toNat + delta.toNat ∧
      OnImage image next := by
  unfold readImport at hrun
  obtain ⟨slotRva, hslot, hrun⟩ := demand_bind_eq_ok.mp hrun
  obtain ⟨slotAddress, haddress, hrun⟩ := demand_bind_eq_ok.mp hrun
  have hsum : slotAddress.toNat =
      options.imageBase.toNat + addressRva.toNat + delta.toNat := by
    rw [checkedAdd_toNat haddress, checkedAdd_toNat hslot, Nat.add_assoc]
  split at hrun
  · rw [pure_eq_ok] at hrun
    obtain ⟨rfl, rfl⟩ := hrun
    exact ⟨hsum, hreader⟩
  · obtain ⟨file, hfile, hrun⟩ := demand_bind_eq_ok.mp hrun
    obtain ⟨_, sought, hseek, hrun⟩ := bind_eq_ok.mp hrun
    unfold reporting at hseek hrun
    obtain ⟨_, rfl⟩ := seek_eq_ok.mp (adaptError_eq_ok.mp hseek)
    obtain ⟨hint, read, hhint, hrun⟩ := bind_eq_ok.mp hrun
    obtain ⟨_, _, rfl⟩ := readU16_at.mp (adaptError_eq_ok.mp hhint)
    rw [bind_of_ok (get_apply _)] at hrun
    obtain ⟨name, _, hrun⟩ := demand_bind_eq_ok.mp hrun
    rw [pure_eq_ok] at hrun
    obtain ⟨rfl, rfl⟩ := hrun
    exact ⟨hsum, (hreader.movedTo _).movedTo _⟩

/-- What some rounds of the loop append, from an index on. -/
structure WalksFrom (image : BinaryImage) (options : ImportTableOptions)
    (descriptor : ImportDescriptor) (index rounds : ℕ) (part : List Import) :
    Prop where
  elements : ∀ place imported, part[place]? = some imported →
    StandsFor image options descriptor (index + place) imported
  bounded : part.length ≤ rounds
  ending : part.length < rounds →
    lookupValue image options descriptor.tableRva (index + part.length) = some 0

theorem WalksFrom.cons {index rounds : ℕ} {imported : Import}
    {part : List Import}
    (hfirst : StandsFor image options descriptor index imported)
    (hrest : WalksFrom image options descriptor (index + 1) rounds part) :
    WalksFrom image options descriptor index (rounds + 1) (imported :: part) := by
  constructor
  · intro place found hfound
    cases place with
    | zero =>
        obtain rfl := Option.some.inj hfound
        exact hfirst
    | succ place =>
        have hplace := hrest.elements place found hfound
        rwa [Nat.add_right_comm] at hplace
  · exact Nat.succ_le_succ hrest.bounded
  · intro hshort
    have hending := hrest.ending (Nat.lt_of_succ_lt_succ hshort)
    rwa [Nat.add_right_comm] at hending

theorem lookupLoop_ok {index rounds : ℕ} (hreader : OnImage image reader)
    (hindex : index + rounds < 2 ^ 64)
    (hrun : lookupLoop limits image options library descriptor rounds index
      imports reader = .ok result next) :
    ∃ part, result = imports ++ part ∧ OnImage image next ∧
      WalksFrom image options descriptor index rounds part := by
  induction rounds generalizing index imports reader with
  | zero =>
      rw [lookupLoop, pure_eq_ok] at hrun
      obtain ⟨rfl, rfl⟩ := hrun
      exact ⟨[], by simp, hreader, by simp, le_rfl, by simp⟩
  | succ rounds ih =>
      rw [lookupLoop] at hrun
      obtain ⟨⟨delta, entryRva⟩, haddress, hrun⟩ := demand_bind_eq_ok.mp hrun
      obtain ⟨value, read, hvalue, hrun⟩ := bind_eq_ok.mp hrun
      obtain ⟨hlookup, hread⟩ := readLookup_ok hreader haddress hvalue
      by_cases hzero : value = 0
      · rw [if_pos hzero, pure_eq_ok] at hrun
        obtain ⟨rfl, rfl⟩ := hrun
        rw [hzero] at hlookup
        exact ⟨[], by simp, hread, by simp, Nat.zero_le _, fun _ => hlookup⟩
      · rw [if_neg hzero] at hrun
        obtain ⟨_, hrun⟩ := rejectIf_bind_eq_ok.mp hrun
        obtain ⟨imported, after, himport, hrun⟩ := bind_eq_ok.mp hrun
        obtain ⟨hslot, hafter⟩ := readImport_ok hread himport
        rw [lookupAddress_delta (by omega) haddress,
          UInt32.toNat_toUInt64] at hslot
        obtain ⟨part, rfl, hnext, hwalks⟩ := ih hafter (by omega) hrun
        have hfirst : StandsFor image options descriptor index imported :=
          ⟨⟨value, hlookup, hzero⟩, hslot⟩
        exact ⟨imported :: part, by simp, hnext, hwalks.cons hfirst⟩

/-- A table that ends below the limit is read to its end. -/
theorem WalksFrom.readsTable {part : List Import}
    (hwalks : WalksFrom image options descriptor 0 limits.maxImports.toNat part)
    (hends : ¬FillsLimit limits image options descriptor) :
    ReadsTable limits image options descriptor part := by
  have hreached : part.length < limits.maxImports.toNat := by
    apply lt_of_le_of_ne hwalks.bounded
    intro hfull
    apply hends
    intro index hindex
    have helement := hwalks.elements index _
      (List.getElem?_eq_getElem (hfull ▸ hindex))
    rw [Nat.zero_add] at helement
    exact helement.entry
  refine ⟨fun index imported hfound => ?_, ?_, hreached⟩
  · rw [← Nat.zero_add index]
    exact hwalks.elements index imported hfound
  · rw [← Nat.zero_add part.length]
    exact hwalks.ending hreached

/-! ## The loop over the descriptors -/

theorem readDescriptor_ok {start index : ℕ} (hreader : OnImage image reader)
    (hposition : reader.position = start + 20 * index)
    (hrun : readDescriptor reader = .ok descriptor next) :
    descriptor = descriptorAt image start index ∧ OnImage image next := by
  obtain ⟨hdata, horder⟩ := hreader
  simp only [readDescriptor, bind_eq_ok, readU32_at, pure_eq_ok, and_assoc,
    exists_and_left, exists_eq_left, movedTo_data, movedTo_order,
    movedTo_position, movedTo_movedTo, hdata, horder, hposition] at hrun
  obtain ⟨_, _, _, _, _, rfl, rfl⟩ := hrun
  exact ⟨rfl, hdata, horder⟩

theorem descriptorsFrom_eq {start size index : ℕ}
    (hfits : 20 * index + 20 ≤ size) :
    descriptorsFrom image start size index =
      if descriptorAt image start index = {} then []
      else descriptorAt image start index ::
        descriptorsFrom image start size (index + 1) := by
  have hcount : size / 20 - index = (size / 20 - (index + 1)) + 1 := by omega
  rw [descriptorsFrom, hcount, List.range'_succ, List.map_cons,
    List.takeWhile_cons]
  by_cases hends : descriptorAt image start index = {}
  · simp [hends]
  · simp [hends, descriptorsFrom]

theorem descriptorsFrom_nil {start size index : ℕ} (hpast : size ≤ 20 * index) :
    descriptorsFrom image start size index = [] := by
  have hcount : size / 20 - index = 0 := by omega
  rw [descriptorsFrom, hcount]
  rfl

/-- A pass inside the directory ends the loop at a zero descriptor and walks
the table of any other one. -/
theorem importLoop_pass_ok {stop cursor : UInt64} {start passes index : ℕ}
    (hinside : cursor < stop) (hcursor : cursor.toNat = start + 20 * index)
    (hreader : OnImage image reader)
    (hrun : importLoop limits image options stop (passes + 1) cursor imports
      reader = .ok result next) :
    start + 20 * index + 20 ≤ stop.toNat ∧
      (descriptorAt image start index = {} ∧ result = imports ∨
        descriptorAt image start index ≠ {} ∧
          ∃ library filled read after, OnImage image read ∧
            lookupLoop limits image options library
                (descriptorAt image start index) limits.maxImports.toNat 0
                imports read = .ok filled after ∧
            importLoop limits image options stop passes (cursor + 20) filled
                after = .ok result next) := by
  rw [importLoop, if_pos hinside] at hrun
  obtain ⟨hfits, hrun⟩ := rejectIf_bind_eq_ok.mp hrun
  obtain ⟨_, sought, hseek, hrun⟩ := bind_eq_ok.mp hrun
  unfold silently at hseek
  obtain ⟨_, rfl⟩ := seek_eq_ok.mp (adaptError_eq_ok.mp hseek)
  obtain ⟨descriptor, read, hdescriptor, hrun⟩ := bind_eq_ok.mp hrun
  unfold reporting at hdescriptor
  obtain ⟨rfl, hread⟩ := readDescriptor_ok (hreader.movedTo _) hcursor
    (adaptError_eq_ok.mp hdescriptor)
  rw [rangeInside_eq_false, not_not, hcursor] at hfits
  refine ⟨hfits, ?_⟩
  by_cases hlast : descriptorAt image start index = {}
  · rw [if_pos hlast, pure_eq_ok] at hrun
    exact Or.inl ⟨hlast, hrun.1.symm⟩
  · rw [if_neg hlast] at hrun
    obtain ⟨_, hrun⟩ := rejectIf_bind_eq_ok.mp hrun
    obtain ⟨library, _, hrun⟩ := demand_bind_eq_ok.mp hrun
    obtain ⟨filled, after, htable, hrun⟩ := bind_eq_ok.mp hrun
    exact Or.inr ⟨hlast, library, filled, read, after, hread, htable, hrun⟩

theorem importLoop_ok {start size cursor : UInt64} {passes index : ℕ}
    (hroom : start.toNat + size.toNat < 2 ^ 64)
    (hcursor : cursor.toNat = start.toNat + 20 * index)
    (hpasses : size.toNat ≤ 20 * index + passes)
    (hreader : OnImage image reader)
    (hends : ∀ descriptor ∈
      descriptorsFrom image start.toNat size.toNat index,
        ¬FillsLimit limits image options descriptor)
    (hrun : importLoop limits image options (start + size) passes cursor imports
      reader = .ok result next) :
    ∃ tables, List.Forall₂ (ReadsTable limits image options)
        (descriptorsFrom image start.toNat size.toNat index) tables ∧
      result = imports ++ tables.flatten := by
  have hend : (start + size).toNat = start.toNat + size.toNat :=
    toNat_add_of_fit hroom
  induction passes generalizing index cursor imports reader with
  | zero =>
      rw [importLoop, pure_eq_ok] at hrun
      rw [descriptorsFrom_nil hpasses]
      exact ⟨[], .nil, by simp [hrun.1]⟩
  | succ passes ih =>
      by_cases hinside : cursor < start + size
      · obtain ⟨hfits, hpass⟩ := importLoop_pass_ok hinside hcursor hreader hrun
        rw [descriptorsFrom_eq (by omega)] at hends ⊢
        rcases hpass with ⟨hlast, rfl⟩ |
          ⟨hmore, library, filled, read, after, hread, htable, hrun⟩
        · rw [if_pos hlast]
          exact ⟨[], .nil, by simp⟩
        · rw [if_neg hmore] at hends ⊢
          obtain ⟨hfirst, hrest⟩ := List.forall_mem_cons.mp hends
          have hlimit := limits.maxImports.toNat_lt
          obtain ⟨part, rfl, hafter, hwalks⟩ :=
            lookupLoop_ok hread (by omega) htable
          have hnext : (cursor + 20).toNat = start.toNat + 20 * (index + 1) := by
            have htwenty : (20 : UInt64).toNat = 20 := rfl
            rw [toNat_add_of_fit (by omega), htwenty]
            omega
          obtain ⟨tables, hall, rfl⟩ :=
            ih hnext (by omega) hafter hrest hrun
          exact ⟨part :: tables, .cons (hwalks.readsTable hfirst) hall,
            by simp⟩
      · have hpast : size.toNat ≤ 20 * index := by
          rw [UInt64.lt_iff_toNat_lt] at hinside
          omega
        rw [importLoop, if_neg hinside, pure_eq_ok] at hrun
        rw [descriptorsFrom_nil hpast]
        exact ⟨[], .nil, by simp [hrun.1]⟩

theorem storedDescriptors_nil (hsize : options.directorySize = 0) :
    storedDescriptors image options = [] := by
  unfold storedDescriptors
  cases importDirectory image options with
  | none => rfl
  | some directory => exact descriptorsFrom_nil (by simp [hsize])

/-- A parse into an empty vector has every import exactly when no table begins
with as many nonzero entries as there may be imports. -/
theorem parseImports_complete_iff
    (hrun : parseImports limits image options [] = .ok imports) :
    ImportsComplete limits image options imports ↔
      ∀ descriptor ∈ storedDescriptors image options,
        ¬FillsLimit limits image options descriptor := by
  constructor
  · rintro ⟨tables, hall, -⟩ descriptor hdescriptor
    obtain ⟨part, -, hreads⟩ := RelatedLists.exists_right hall hdescriptor
    exact hreads.not_fillsLimit
  · intro hends
    unfold parseImports at hrun
    obtain ⟨_, hrun⟩ := rejectIf_except_bind_eq_ok.mp hrun
    unfold ImportsComplete
    by_cases hsize : options.directorySize = 0
    · rw [if_pos hsize] at hrun
      rw [storedDescriptors_nil hsize]
      exact ⟨[], .nil, (Except.ok.inj hrun).symm⟩
    · rw [if_neg hsize] at hrun
      obtain ⟨directory, hdirectory, hrun⟩ := demand_except_bind_eq_ok.mp hrun
      obtain ⟨last, hloop⟩ := evaluate_eq_ok.mp hrun
      have hroom := (Option.filter_eq_some_iff.mp hdirectory).2
      rw [rangeInside_iff] at hroom
      rw [storedDescriptors, hdirectory] at hends ⊢
      exact importLoop_ok (hroom.trans_lt (UInt64.toNat_lt _)) (by simp)
        (by omega) ⟨rfl, rfl⟩ hends hloop

end Loops

theorem parseImports_complete_one_entry :
    let image : BinaryImage :=
      { header := { format := .peLike }
        sections := [{ fileSize := 52, memorySize := 52 }]
        fileData := some [44, 0, 0, 0, 0, 0, 0, 0, 0, 0, 0, 0, 40, 0, 0, 0,
          44, 0, 0, 0, 0, 0, 0, 0, 0, 0, 0, 0, 0, 0, 0, 0, 0, 0, 0, 0,
          0, 0, 0, 0, 97, 0, 0, 0, 1, 0, 0, 128, 0, 0, 0, 0] }
    let limits : Limits := { maxImports := 2 }
    let options : ImportTableOptions :=
      { directorySize := 40, wordSize := .bits32 }
    ∃ imports, parseImports limits image options [] = .ok imports ∧
      ImportsComplete limits image options imports := by
  intro image limits options
  obtain ⟨imports, hrun, -⟩ := toOption_bind_eq_some.mp
    (by decide +kernel : (parseImports limits image options []).toOption.bind
      (fun _ => some ()) = some ())
  refine ⟨imports, hrun, (parseImports_complete_iff hrun).mpr ?_⟩
  have hstored : storedDescriptors image options =
      [{ lookupRva := 44, nameRva := 40, addressRva := 44 }] := by
    decide +kernel
  rw [hstored, List.forall_mem_singleton]
  intro hfills
  obtain ⟨value, hvalue, hnonzero⟩ := hfills 1 (by decide)
  have hend : lookupValue image options 44 1 = some 0 := by decide +kernel
  exact hnonzero (Option.some.inj (hvalue.symm.trans hend))

/-- The second entry of the table is lost. -/
theorem parseImports_cut_at_limit :
    let image : BinaryImage :=
      { header := { format := .peLike }
        sections := [{ fileSize := 56, memorySize := 56 }]
        fileData := some [44, 0, 0, 0, 0, 0, 0, 0, 0, 0, 0, 0, 40, 0, 0, 0,
          44, 0, 0, 0, 0, 0, 0, 0, 0, 0, 0, 0, 0, 0, 0, 0, 0, 0, 0, 0,
          0, 0, 0, 0, 97, 0, 0, 0, 1, 0, 0, 128, 2, 0, 0, 128, 0, 0, 0, 0] }
    let limits : Limits := { maxImports := 1 }
    let options : ImportTableOptions :=
      { directorySize := 40, wordSize := .bits32 }
    let imports : List Import :=
      [{ library := "a", ordinal := 1, slotAddress := 44 }]
    parseImports limits image options [] = .ok imports ∧
      lookupValue image options 44 1 = some 0x80000002 ∧
      ¬ImportsComplete limits image options imports := by
  intro image limits options imports
  refine ⟨by decide +kernel, by decide +kernel, ?_⟩
  rintro ⟨tables, hall, -⟩
  have hstored : storedDescriptors image options =
      [{ lookupRva := 44, nameRva := 40, addressRva := 44 }] := by
    decide +kernel
  rw [hstored] at hall
  obtain ⟨part, -, hreads⟩ :=
    RelatedLists.exists_right hall (List.mem_singleton.mpr rfl)
  apply hreads.not_fillsLimit
  intro index hindex
  obtain rfl : index = 0 := Nat.lt_one_iff.mp hindex
  exact ⟨0x80000001, by decide +kernel, by decide⟩

end PeImportExportParser
end BinForge
