import BinForge.BinaryParser
import BinForge.LoadedSegment
import BinForge.MonotoneDrift
import BinForge.PeFile

/-!
# PE images in memory

The parser keeps sections and segments at their relative addresses and puts the
image base into the header alone; the loader takes the image base, or else the
lowest address, for the place the image was linked at.  Sections are therefore
loaded below their place, except when an image was linked at zero.
-/

namespace BinForge

open StatefulExcept
open AddressSpace
open Alignment
open PeParser

/-! ## A condition on the file -/

namespace PeFile

/-- What the loader takes for the original base: the image base or, without
one, the lowest relative address of a section. -/
def origin (data : Bytes) : UInt64 :=
  if imageBase data ≠ 0 then imageBase data
  else (((sections data).map SectionHeader.rva).min?.getD 0).toUInt64

def base (data : Bytes) (options : LoadOptions) : UInt64 :=
  if options.preferredBase ≠ 0 then options.preferredBase else origin data

/-- The distance from its relative address at which a section is loaded. -/
def bias (data : Bytes) (options : LoadOptions) : UInt64 :=
  base data options - origin data

/-- The address lies on a page of a loaded section. -/
def Paged (limits : Limits) (data : Bytes) (options : LoadOptions)
    (address : ℕ) : Prop :=
  ∃ header ∈ sections data, header.memorySize ≠ 0 ∧
    roundDown (header.rva.toNat + (bias data options).toNat)
      limits.pageSize.toNat ≤ address ∧
    address < roundUp (header.rva.toNat + (bias data options).toNat +
      header.memorySize.toNat) limits.pageSize.toNat

def EntryInside (data : Bytes) : Prop :=
  ∃ header ∈ sections data, header.rva.toNat ≤ (entry data).toNat ∧
    (entry data).toNat < header.rva.toNat + header.memorySize.toNat

/-- The file is loaded by its relative addresses: it was linked at zero and is
not moved or has no entry point to move, or else it stores nothing but zeros,
on pages that other sections happen to be loaded to. -/
def LoadsByRva (limits : Limits) (data : Bytes) (options : LoadOptions) :
    Prop :=
  if origin data = 0 then options.preferredBase = 0 ∨ ¬EntryInside data
  else
    (∀ header ∈ sections data, ∀ i < header.rawSize.toNat,
      data[header.rawOffset.toNat + i]? = some 0 ∧
        Paged limits data options
          ((base data options).toNat + header.rva.toNat + i)) ∧
    (EntryInside data → imageBase data ≠ 0 ∧
      (imageBase data).toNat + (entry data).toNat < 2 ^ 64 ∧
      Paged limits data options
        ((base data options).toNat + (entry data).toNat))

end PeFile

open PeFile

namespace BinaryLoader

variable {limits parserLimits : Limits} {image : BinaryImage}
  {options : LoadOptions} {data : Bytes} {memory next : AddressSpace}

/-! ## The addresses of the loader -/

theorem min_toUInt64 (first second : UInt32) :
    (if second.toUInt64 < first.toUInt64 then second.toUInt64
      else first.toUInt64) = (min first second).toUInt64 := by
  have hmin : min first second = if first ≤ second then first else second := rfl
  rw [hmin]
  by_cases hle : first ≤ second
  · rw [if_pos hle, if_neg]
    rw [UInt64.not_lt, UInt64.le_iff_toNat_le, UInt32.toNat_toUInt64,
      UInt32.toNat_toUInt64]
    exact UInt32.le_iff_toNat_le.mp hle
  · rw [if_neg hle, if_pos]
    rw [UInt64.lt_iff_toNat_lt, UInt32.toNat_toUInt64, UInt32.toNat_toUInt64]
    exact UInt32.lt_iff_toNat_lt.mp (UInt32.not_le.mp hle)

theorem foldl_least {rest : List Segment} {rvas : List UInt32} (least : UInt32)
    (hrest : rest.map Segment.virtualAddress = rvas.map UInt32.toUInt64) :
    rest.foldl (fun least segment =>
        if segment.virtualAddress < least then segment.virtualAddress
        else least) least.toUInt64 = (rvas.foldl min least).toUInt64 := by
  induction rvas generalizing least rest with
  | nil =>
      rw [List.map_nil, List.map_eq_nil_iff] at hrest
      rw [hrest]
      rfl
  | cons rva rvas ih =>
      obtain ⟨segment, rest, rfl, hsegment, hrest⟩ :=
        List.map_eq_cons_iff.mp hrest
      rw [List.foldl_cons, List.foldl_cons, hsegment, min_toUInt64]
      exact ih _ hrest

theorem originalBase_eq (hparsed : Parsed parserLimits data image) :
    originalBase image = origin data := by
  have haddresses : image.segments.map Segment.virtualAddress =
      ((sections data).map SectionHeader.rva).map UInt32.toUInt64 := by
    rw [hparsed.segments, hparsed.sections, PeFile.sections, List.map_map,
      List.map_map, List.map_map, List.map_map]
    rfl
  unfold originalBase origin
  rw [hparsed.imageBase]
  congr 1
  cases hsegments : image.segments with
  | nil =>
      rw [hsegments, List.map_nil, eq_comm, List.map_eq_nil_iff] at haddresses
      rw [haddresses]
      rfl
  | cons first rest =>
      rw [hsegments, List.map_cons, eq_comm, List.map_eq_cons_iff] at haddresses
      obtain ⟨rva, rvas, hrvas, hfirst, hrest⟩ := haddresses
      rw [hrvas, List.min?_cons', Option.getD_some]
      show leastAddress first rest = _
      rw [leastAddress, ← hfirst]
      exact foldl_least rva hrest.symm

theorem loadBase_eq (hparsed : Parsed parserLimits data image) :
    loadBase image options = base data options := by
  rw [loadBase, originalBase_eq hparsed]
  rfl

theorem loadBias_eq (hparsed : Parsed parserLimits data image) :
    loadBias image options = bias data options := by
  rw [loadBias, loadBase_eq hparsed, originalBase_eq hparsed]
  rfl

/-- Modulo 2 ^ 64 the base is the origin moved by the bias. -/
theorem bias_add_origin (data : Bytes) (options : LoadOptions) :
    ((bias data options).toNat + (origin data).toNat) % 2 ^ 64 =
      (base data options).toNat := by
  rw [← UInt64.toNat_add, bias, sub_add_cancel]

/-- Without an image base every section lies at the origin or above. -/
theorem origin_le_rva (hbase : imageBase data = 0) {header : SectionHeader}
    (hheader : header ∈ sections data) :
    (origin data).toNat ≤ header.rva.toNat := by
  have hmem : header.rva ∈ (sections data).map SectionHeader.rva :=
    List.mem_map_of_mem hheader
  cases hmin : ((sections data).map SectionHeader.rva).min? with
  | none =>
      rw [List.min?_eq_none_iff.mp hmin] at hmem
      contradiction
  | some least =>
      have hle := (List.min?_eq_some_iff.mp hmin).2 _ hmem
      rw [origin, if_neg (not_not.mpr hbase), hmin, Option.getD_some,
        UInt32.toNat_toUInt64]
      exact UInt32.le_iff_toNat_le.mp hle

/-! ## Loaded sections -/

/-- A section's stored bytes at its load address, and zeros in the rest of its
pages. -/
structure HeaderLoaded (limits : Limits) (data : Bytes) (options : LoadOptions)
    (memory : AddressSpace) (header : SectionHeader) : Prop where
  stored : ∀ i < header.rawSize.toNat,
    header.rawOffset.toNat + i < data.length ∧
      memory.contents (header.rva.toNat + (bias data options).toNat + i) =
        data[header.rawOffset.toNat + i]?
  rest : ∀ address,
    roundDown (header.rva.toNat + (bias data options).toNat)
      limits.pageSize.toNat ≤ address →
    address < roundUp (header.rva.toNat + (bias data options).toNat +
      header.memorySize.toNat) limits.pageSize.toNat →
    (∃ i < header.rawSize.toNat,
      address = header.rva.toNat + (bias data options).toNat + i) ∨
      memory.contents address = some 0

/-- The image is loaded from the file into an empty address space. -/
structure FileLoaded (limits : Limits) (data : Bytes) (options : LoadOptions)
    (memory : AddressSpace) : Prop where
  headers : ∀ header ∈ sections data, header.memorySize ≠ 0 →
    0 < limits.pageSize.toNat ∧
      header.rva.toNat + (bias data options).toNat < 2 ^ 64 ∧
      HeaderLoaded limits data options memory header
  paged : ∀ address byte, memory.contents address = some byte →
    Paged limits data options address

theorem headerLoaded_of_segmentLoaded {header : SectionHeader} {index : ℕ}
    {alignment : UInt32}
    (hloaded : SegmentLoaded limits (bias data options) data
      (segmentOf (header.toSection index alignment)) memory) :
    HeaderLoaded limits data options memory header := by
  obtain ⟨hinside, hbytes, hpadding, _⟩ := hloaded
  simp only [segmentOf, SectionHeader.toSection, UInt32.toNat_toUInt64]
    at hinside hbytes hpadding
  have hsize := rawSize_le_memorySize header
  refine ⟨fun i hi => ⟨by omega, ?_⟩, fun address hlow hhigh => ?_⟩
  · rw [hbytes i (by omega), if_pos hi]
  · by_cases hbefore : address < header.rva.toNat + (bias data options).toNat
    · exact Or.inr (hpadding address hlow hhigh (Or.inl hbefore))
    · obtain ⟨i, rfl⟩ := Nat.exists_eq_add_of_le (not_lt.mp hbefore)
      by_cases hi : i < header.rawSize.toNat
      · exact Or.inl ⟨i, hi, rfl⟩
      · by_cases hsegment : i < header.memorySize.toNat
        · rw [hbytes i hsegment, if_neg hi]
          exact Or.inr rfl
        · exact Or.inr (hpadding _ hlow hhigh (Or.inr (by omega)))

theorem mem_segments (hparsed : Parsed parserLimits data image)
    {segment : Segment} :
    segment ∈ image.segments ↔ ∃ index < (sectionCount data).toNat,
      segment = segmentOf ((sectionHeader data index).toSection index
        (sectionAlignment data)) := by
  rw [hparsed.segments, hparsed.sections, List.map_map, List.mem_map]
  simp only [List.mem_range, eq_comm]
  rfl

theorem mem_sections {header : SectionHeader} :
    header ∈ sections data ↔
      ∃ index < (sectionCount data).toNat, header = sectionHeader data index := by
  simp [PeFile.sections, eq_comm]

/-- The region of a section's segment covers addresses on the section's pages
only. -/
theorem paged_of_segmentRegion {index : ℕ}
    (hindex : index < (sectionCount data).toNat) {region : MemoryRegion}
    (hregion : segmentRegion limits options data (bias data options)
      (segmentOf ((sectionHeader data index).toSection index
        (sectionAlignment data))) = some region)
    {address : ℕ} (hcovers : region.Covers address) :
    Paged limits data options address := by
  unfold segmentRegion at hregion
  split at hregion
  · contradiction
  · next hnonempty =>
      split at hregion
      · contradiction
      · next start base size hpage =>
          obtain rfl := Option.some.inj hregion
          have hplace := segmentPages_ok hpage
          have hrounded := hplace.rounded
          have hstop := hplace.stop_eq
          rw [hplace.shifted] at hrounded hstop
          simp only [segmentOf, SectionHeader.toSection,
            UInt32.toNat_toUInt64] at hrounded hstop
          refine ⟨_, mem_sections.mpr ⟨index, hindex, rfl⟩, hnonempty, ?_, ?_⟩
          · rw [← hrounded]
            exact hcovers.1
          · rw [← hstop]
            exact hcovers.2

theorem fileLoaded_of_load {resolver : Option SymbolResolver}
    {result : LoadResult} (hparsed : Parsed parserLimits data image)
    (hmemory : memory.WellFormed) (hempty : memory.regions.entries = [])
    (hrelocate : options.applyRelocations = false)
    (hresolve : options.resolveImports = false)
    (hrun : load limits image options resolver memory = .ok result next) :
    FileLoaded limits data options next := by
  obtain ⟨_, hdata, hvalid, _, hsegments, hsame⟩ := load_ok hrun
  obtain rfl := hsame hrelocate hresolve
  rw [hparsed.fileData] at hdata
  obtain rfl := Option.some.inj hdata
  rw [loadBias_eq hparsed] at hsegments
  obtain ⟨hextends, _, hpages⟩ :=
    loadSegments_ok hmemory hparsed.fileData hvalid.segments hsegments
  constructor
  · intro header hheader hnonempty
    obtain ⟨index, hindex, rfl⟩ := mem_sections.mp hheader
    have hsegment := (mem_segments hparsed).mpr ⟨index, hindex, rfl⟩
    obtain ⟨address, start, size, hpage⟩ := hpages _ hsegment hnonempty
    have hplace := segmentPages_ok hpage
    have hshifted := hplace.shifted
    simp only [segmentOf, SectionHeader.toSection, UInt32.toNat_toUInt64]
      at hshifted
    refine ⟨hplace.page_pos, hshifted ▸ address.toNat_lt,
      headerLoaded_of_segmentLoaded (segmentLoaded_of_loadSegments hmemory
        hparsed.fileData hvalid.segments hsegments hsegment hnonempty)⟩
  · intro address byte hbyte
    have hcovered : ∃ entry ∈ next.regions.entries,
        entry.2.Covers address := by
      by_contra huncovered
      rw [contents_eq_none_of_uncovered (by simpa using huncovered)] at hbyte
      contradiction
    obtain ⟨entry, hentry, hcovers⟩ := hcovered
    rw [hextends.entries.mem_iff, hempty, List.nil_append, List.mem_map] at hentry
    obtain ⟨region, hregion, rfl⟩ := hentry
    obtain ⟨segment, hsegment, hregion⟩ := List.mem_filterMap.mp hregion
    obtain ⟨index, hindex, rfl⟩ := (mem_segments hparsed).mp hsegment
    exact paged_of_segmentRegion hindex hregion hcovers

namespace FileLoaded

def Stored (data : Bytes) (options : LoadOptions) (address : ℕ) : Prop :=
  ∃ header ∈ sections data, ∃ i < header.rawSize.toNat,
    address = header.rva.toNat + (bias data options).toNat + i

theorem header (hloaded : FileLoaded limits data options memory)
    {header : SectionHeader} (hheader : header ∈ sections data) {i : ℕ}
    (hi : i < header.rawSize.toNat) :
    header.rva.toNat + (bias data options).toNat < 2 ^ 64 ∧
      ∃ byte, data[header.rawOffset.toNat + i]? = some byte ∧
        memory.contents (header.rva.toNat + (bias data options).toNat + i) =
          some byte := by
  have hsize := rawSize_le_memorySize header
  have hnonempty : header.memorySize ≠ 0 := by
    intro hzero
    rw [hzero, UInt64.toNat_zero] at hsize
    omega
  obtain ⟨_, hfit, hplaced⟩ := hloaded.headers header hheader hnonempty
  obtain ⟨hinside, hbyte⟩ := hplaced.stored i hi
  rw [List.getElem?_eq_getElem hinside] at hbyte ⊢
  exact ⟨hfit, _, rfl, hbyte⟩

theorem isSome_iff (hloaded : FileLoaded limits data options memory)
    {address : ℕ} :
    (memory.contents address).isSome ↔ Paged limits data options address := by
  constructor
  · intro hsome
    obtain ⟨byte, hbyte⟩ := Option.isSome_iff_exists.mp hsome
    exact hloaded.paged address byte hbyte
  · rintro ⟨header, hheader, hnonempty, hlow, hhigh⟩
    obtain ⟨_, _, hplaced⟩ := hloaded.headers header hheader hnonempty
    rcases hplaced.rest address hlow hhigh with ⟨i, hi, rfl⟩ | hzero
    · obtain ⟨_, byte, _, hbyte⟩ := hloaded.header hheader hi
      rw [hbyte]
      rfl
    · rw [hzero]
      rfl

theorem eq_zero_of_not_stored (hloaded : FileLoaded limits data options memory)
    {address : ℕ} (hnot : ¬Stored data options address) :
    (memory.contents address).getD 0 = 0 := by
  cases hbyte : memory.contents address with
  | none => rfl
  | some byte =>
      obtain ⟨header, hheader, hnonempty, hlow, hhigh⟩ :=
        hloaded.paged address byte hbyte
      obtain ⟨_, _, hplaced⟩ := hloaded.headers header hheader hnonempty
      rcases hplaced.rest address hlow hhigh with ⟨i, hi, hsame⟩ | hzero
      · exact absurd ⟨header, hheader, i, hi, hsame⟩ hnot
      · rw [← hbyte, hzero]
        rfl

/-- The stored bytes show at a base other than the bias exactly when they are
zeros on loaded pages. -/
theorem bytes_iff_of_moved (hloaded : FileLoaded limits data options memory)
    {place : ℕ} (hmoved : (bias data options).toNat ≠ place) :
    (∀ header ∈ sections data, ∀ i < header.rawSize.toNat,
      memory.contents (place + header.rva.toNat + i) =
        data[header.rawOffset.toNat + i]?) ↔
    ∀ header ∈ sections data, ∀ i < header.rawSize.toNat,
      data[header.rawOffset.toNat + i]? = some 0 ∧
        Paged limits data options (place + header.rva.toNat + i) := by
  constructor
  · intro hbytes header hheader i hi
    obtain ⟨_, byte, hstored, hshown⟩ := hloaded.header hheader hi
    have hbound : ∀ x, Stored data options x → x < 2 ^ 65 := by
      rintro _ ⟨other, hother, j, hj, rfl⟩
      obtain ⟨hfit, _⟩ := hloaded.header hother hj
      have hsize := other.rawSize.toNat_lt
      omega
    have hreach : ∀ x, Stored data options x →
        (bias data options).toNat ≤ x + place := by
      rintro _ ⟨other, hother, j, hj, rfl⟩
      omega
    have hkeep : ∀ x, Stored data options x →
        ∀ y, y + (bias data options).toNat = x + place →
          (memory.contents y).getD 0 = (memory.contents x).getD 0 := by
      rintro _ ⟨other, hother, j, hj, rfl⟩ y hy
      obtain ⟨_, found, hdata, hfound⟩ := hloaded.header hother hj
      have hplace : y = place + other.rva.toNat + j := by omega
      rw [hplace, hbytes other hother j hj, hdata, hfound]
    have hzero := MonotoneDrift.eq_rest_of_shift hmoved hbound hreach hkeep
      (fun _ => hloaded.eq_zero_of_not_stored) ⟨header, hheader, i, hi, rfl⟩
    rw [hshown, Option.getD_some] at hzero
    rw [hzero] at hstored
    refine ⟨hstored, hloaded.isSome_iff.mp ?_⟩
    rw [hbytes header hheader i hi, hstored]
    rfl
  · intro hzeros header hheader i hi
    obtain ⟨hzero, hpaged⟩ := hzeros header hheader i hi
    obtain ⟨byte, hbyte⟩ :=
      Option.isSome_iff_exists.mp (hloaded.isSome_iff.mpr hpaged)
    rw [hzero, hbyte, Option.some.injEq]
    by_cases hstored : Stored data options (place + header.rva.toNat + i)
    · obtain ⟨other, hother, j, hj, hsame⟩ := hstored
      obtain ⟨_, found, hdata, hfound⟩ := hloaded.header hother hj
      rw [(hzeros other hother j hj).1, Option.some.injEq] at hdata
      rw [hsame, hfound, Option.some.injEq, ← hdata] at hbyte
      exact hbyte.symm
    · have hrest := hloaded.eq_zero_of_not_stored hstored
      rwa [hbyte, Option.getD_some] at hrest

end FileLoaded

/-! ## The entry point -/

theorem load_loadBase {resolver : Option SymbolResolver} {result : LoadResult}
    (hrun : load limits image options resolver memory = .ok result next) :
    result.loadBase = loadBase image options := by
  unfold load at hrun
  obtain ⟨_, hrun⟩ := rejectIf_bind_eq_ok.mp hrun
  obtain ⟨_, _, _, hrun⟩ := bind_eq_ok.mp hrun
  obtain ⟨_, _, _, hrun⟩ := bind_eq_ok.mp hrun
  obtain ⟨_, _, _, hrun⟩ := bind_eq_ok.mp hrun
  obtain ⟨_, _, hrun⟩ := liftExcept_bind_eq_ok.mp hrun
  rw [pure_eq_ok] at hrun
  rw [← hrun.1]

theorem entryPoint_of_origin_zero (hparsed : Parsed parserLimits data image)
    (horigin : origin data = 0) {found : UInt64}
    (hentry : entryPoint image (bias data options) = .ok found) :
    found.toNat = (entry data).toNat := by
  have hbase : imageBase data = 0 := by
    by_contra hbase
    rw [origin, if_pos hbase] at horigin
    exact hbase horigin
  have hsame := entryPoint_kept
    (fun hguard => hguard.1 ((originalBase_eq hparsed).trans horigin)) hentry
  rw [hsame, hparsed.entryPoint, hbase, zero_add, UInt32.toNat_toUInt64]

theorem entryPoint_of_le (hparsed : Parsed parserLimits data image)
    (horigin : origin data ≠ 0)
    (hlow : origin data ≤ imageBase data + (entry data).toUInt64)
    {found : UInt64} (hentry : entryPoint image (bias data options) = .ok found) :
    found.toNat < 2 ^ 64 ∧
      found.toNat = (imageBase data + (entry data).toUInt64).toNat +
        (bias data options).toNat := by
  have horiginal := originalBase_eq hparsed
  have hmoved := entryPoint_moved (by rwa [horiginal])
    (by rwa [horiginal, hparsed.entryPoint]) hentry
  rw [hparsed.entryPoint] at hmoved
  exact ⟨found.toNat_lt, hmoved⟩

/-- An entry point inside a section is moved to its relative address exactly
when the image base is nonzero and the entry address has not wrapped. -/
theorem entryPoint_iff_of_moved (hparsed : Parsed parserLimits data image)
    (horigin : origin data ≠ 0) (hinside : EntryInside data) {found : UInt64}
    (hentry : entryPoint image (bias data options) = .ok found) :
    found.toNat = (base data options).toNat + (entry data).toNat ↔
      imageBase data ≠ 0 ∧
        (imageBase data).toNat + (entry data).toNat < 2 ^ 64 := by
  have hbias := bias_add_origin data options
  have hpositive : 0 < (origin data).toNat := size_pos_of_ne_zero horigin
  have hsum : (imageBase data + (entry data).toUInt64).toNat =
      ((imageBase data).toNat + (entry data).toNat) % 2 ^ 64 := by
    rw [UInt64.toNat_add, UInt32.toNat_toUInt64]
  have hentryLt := (entry data).toNat_lt
  have horiginLt := (origin data).toNat_lt
  by_cases hbase : imageBase data = 0
  · -- Moved by the bias, which is not the base.
    have hlow : origin data ≤ imageBase data + (entry data).toUInt64 := by
      obtain ⟨header, hheader, hlow, _⟩ := hinside
      have hrva := origin_le_rva hbase hheader
      rw [UInt64.le_iff_toNat_le, hsum, hbase, UInt64.toNat_zero]
      omega
    obtain ⟨_, hmoved⟩ := entryPoint_of_le hparsed horigin hlow hentry
    rw [hsum, hbase, UInt64.toNat_zero] at hmoved
    simp only [hbase, ne_eq, not_true, false_and, iff_false]
    omega
  · have hsame : origin data = imageBase data := by
      rw [origin, if_pos hbase]
    simp only [hbase, ne_eq, not_false_iff, true_and]
    by_cases hfit : (imageBase data).toNat + (entry data).toNat < 2 ^ 64
    · have hlow : origin data ≤ imageBase data + (entry data).toUInt64 := by
        rw [UInt64.le_iff_toNat_le, hsum, hsame]
        omega
      obtain ⟨hfound, hmoved⟩ := entryPoint_of_le hparsed horigin hlow hentry
      rw [hsum] at hmoved
      rw [hsame] at hbias
      omega
    · -- The wrapped entry lies below the image base and is not moved.
      have hbaseLt := (imageBase data).toNat_lt
      have hguard : ¬(originalBase image ≠ 0 ∧
          originalBase image ≤ image.header.entryPoint) := by
        rintro ⟨_, hlow⟩
        rw [originalBase_eq hparsed, hparsed.entryPoint,
          UInt64.le_iff_toNat_le, hsum, hsame] at hlow
        omega
      rw [entryPoint_kept hguard hentry, hparsed.entryPoint, hsum]
      omega

/-! ## The whole file -/

/-- Every section shows its stored bytes at its relative address from the load
base, and an entry point inside a section is moved there too. -/
structure LoadedByRva (data : Bytes) (image : BinaryImage) (result : LoadResult)
    (memory : AddressSpace) : Prop where
  bytes : ∀ item ∈ image.sections, ∀ i < item.fileSize.toNat,
    memory.contents
        (result.loadBase.toNat + item.virtualAddress.toNat + i) =
      data[item.fileOffset.toNat + i]?
  entry : (∃ item ∈ image.sections,
      item.virtualAddress.toNat ≤ (PeFile.entry data).toNat ∧
        (PeFile.entry data).toNat <
          item.virtualAddress.toNat + item.memorySize.toNat) →
    result.entryPoint.toNat =
        result.loadBase.toNat + (PeFile.entry data).toNat ∧
      (memory.contents result.entryPoint.toNat).isSome

theorem mem_imageSections (hparsed : Parsed parserLimits data image)
    {item : Section} :
    item ∈ image.sections ↔ ∃ index < (sectionCount data).toNat,
      item = (sectionHeader data index).toSection index
        (sectionAlignment data) := by
  rw [hparsed.sections, List.mem_map]
  simp only [List.mem_range, eq_comm]
  rfl

theorem bytes_iff_headers (hparsed : Parsed parserLimits data image)
    {place : ℕ} :
    (∀ item ∈ image.sections, ∀ i < item.fileSize.toNat,
      memory.contents (place + item.virtualAddress.toNat + i) =
        data[item.fileOffset.toNat + i]?) ↔
    ∀ header ∈ sections data, ∀ i < header.rawSize.toNat,
      memory.contents (place + header.rva.toNat + i) =
        data[header.rawOffset.toNat + i]? := by
  constructor
  · intro hall header hheader i hi
    obtain ⟨index, hindex, rfl⟩ := mem_sections.mp hheader
    have hbyte := hall _ ((mem_imageSections hparsed).mpr ⟨index, hindex, rfl⟩)
      i (by simpa [SectionHeader.toSection] using hi)
    simpa [SectionHeader.toSection] using hbyte
  · intro hall item hitem i hi
    obtain ⟨index, hindex, rfl⟩ := (mem_imageSections hparsed).mp hitem
    have hbyte := hall _ (mem_sections.mpr ⟨index, hindex, rfl⟩) i
      (by simpa [SectionHeader.toSection] using hi)
    simpa [SectionHeader.toSection] using hbyte

theorem entryInside_iff (hparsed : Parsed parserLimits data image) :
    (∃ item ∈ image.sections,
      item.virtualAddress.toNat ≤ (PeFile.entry data).toNat ∧
        (PeFile.entry data).toNat <
          item.virtualAddress.toNat + item.memorySize.toNat) ↔
      EntryInside data := by
  constructor
  · rintro ⟨item, hitem, hinside⟩
    obtain ⟨index, hindex, rfl⟩ := (mem_imageSections hparsed).mp hitem
    exact ⟨_, mem_sections.mpr ⟨index, hindex, rfl⟩,
      by simpa [SectionHeader.toSection] using hinside⟩
  · rintro ⟨header, hheader, hinside⟩
    obtain ⟨index, hindex, rfl⟩ := mem_sections.mp hheader
    exact ⟨_, (mem_imageSections hparsed).mpr ⟨index, hindex, rfl⟩,
      by simpa [SectionHeader.toSection] using hinside⟩

/-- `LoadedByRva` on the file's own headers. -/
def ByRva (limits : Limits) (data : Bytes) (options : LoadOptions)
    (memory : AddressSpace) (found : UInt64) : Prop :=
  (∀ header ∈ sections data, ∀ i < header.rawSize.toNat,
    memory.contents ((base data options).toNat + header.rva.toNat + i) =
      data[header.rawOffset.toNat + i]?) ∧
  (EntryInside data →
    found.toNat = (base data options).toNat + (entry data).toNat ∧
      Paged limits data options found.toNat)

theorem byRva_iff_of_origin_zero (hloaded : FileLoaded limits data options memory)
    (horigin : origin data = 0) {found : UInt64}
    (hfound : found.toNat = (entry data).toNat) :
    ByRva limits data options memory found ↔
      options.preferredBase = 0 ∨ ¬EntryInside data := by
  have hbias : bias data options = base data options := by
    rw [bias, horigin, sub_zero]
  constructor
  · rintro ⟨_, hentry⟩
    by_cases hinside : EntryInside data
    · refine Or.inl ?_
      obtain ⟨hplace, _⟩ := hentry hinside
      by_contra hpreferred
      have hmoved := size_pos_of_ne_zero hpreferred
      rw [hfound, base, if_pos hpreferred] at hplace
      omega
    · exact Or.inr hinside
  · intro hcase
    refine ⟨fun header hheader i hi => ?_, fun hinside => ?_⟩
    · obtain ⟨_, byte, hdata, hbyte⟩ := hloaded.header hheader hi
      rw [hdata, ← hbyte, hbias, Nat.add_comm (base data options).toNat]
    · obtain hpreferred := hcase.resolve_right (not_not.mpr hinside)
      have hzero : (base data options).toNat = 0 := by
        rw [base, if_neg (not_not.mpr hpreferred), horigin, UInt64.toNat_zero]
      obtain ⟨header, hheader, hlow, hhigh⟩ := hinside
      have hnonempty : header.memorySize ≠ 0 := by
        intro hempty
        rw [hempty, UInt64.toNat_zero] at hhigh
        omega
      obtain ⟨hpage, _, _⟩ := hloaded.headers header hheader hnonempty
      refine ⟨by omega, header, hheader, hnonempty, ?_, ?_⟩
      · rw [hbias, hzero, hfound]
        exact (roundDown_le _ _).trans hlow
      · rw [hbias, hzero, hfound]
        exact hhigh.trans_le (le_roundUp hpage)

theorem byRva_iff_of_moved (hparsed : Parsed parserLimits data image)
    (hloaded : FileLoaded limits data options memory)
    (horigin : origin data ≠ 0) {found : UInt64}
    (hentry : entryPoint image (bias data options) = .ok found) :
    ByRva limits data options memory found ↔
      (∀ header ∈ sections data, ∀ i < header.rawSize.toNat,
        data[header.rawOffset.toNat + i]? = some 0 ∧
          Paged limits data options
            ((base data options).toNat + header.rva.toNat + i)) ∧
      (EntryInside data → imageBase data ≠ 0 ∧
        (imageBase data).toNat + (entry data).toNat < 2 ^ 64 ∧
        Paged limits data options
          ((base data options).toNat + (entry data).toNat)) := by
  have hmoved : (bias data options).toNat ≠ (base data options).toNat := by
    have hbias := bias_add_origin data options
    have hpositive := size_pos_of_ne_zero horigin
    have horiginLt := (origin data).toNat_lt
    have hbiasLt := (bias data options).toNat_lt
    omega
  unfold ByRva
  rw [hloaded.bytes_iff_of_moved hmoved]
  refine and_congr_right fun _ => forall_congr' fun hinside => ?_
  rw [← and_assoc, ← entryPoint_iff_of_moved hparsed horigin hinside hentry]
  exact and_congr_right fun hfound => by rw [hfound]

/-- A PE file loaded into an empty address space is loaded by its relative
addresses exactly when it was linked at zero and needs no move of its entry
point, or stores zeros only on pages that are loaded anyway. -/
theorem load_by_rva_iff {resolver : Option SymbolResolver} {result : LoadResult}
    (hdetect : BinaryParser.detect data = .peLike)
    (hparse : BinaryParser.parse parserLimits data = .ok image)
    (hreachable : memory.Reachable) (hempty : memory.regions.entries = [])
    (hrelocate : options.applyRelocations = false)
    (hresolve : options.resolveImports = false)
    (hrun : load limits image options resolver memory = .ok result next) :
    LoadedByRva data image result next ↔ LoadsByRva limits data options := by
  have hparsed : Parsed parserLimits data image := by
    have haccepted := (BinaryParser.parse_ok hparse).2
    rw [hdetect] at haccepted
    exact PeParser.parse_ok haccepted
  have hloaded := fileLoaded_of_load hparsed hreachable.wellFormed hempty
    hrelocate hresolve hrun
  have hbase : result.loadBase = base data options := by
    rw [load_loadBase hrun, loadBase_eq hparsed]
  obtain ⟨_, _, _, _, _, _, hentry⟩ := load_eq_ok hrun
  rw [loadBias_eq hparsed] at hentry
  have hview : LoadedByRva data image result next ↔
      ByRva limits data options next result.entryPoint := by
    rw [ByRva, ← bytes_iff_headers hparsed, ← entryInside_iff hparsed, ← hbase,
      ← hloaded.isSome_iff]
    exact ⟨fun h => ⟨h.bytes, h.entry⟩, fun h => ⟨h.1, h.2⟩⟩
  rw [hview, LoadsByRva]
  by_cases horigin : origin data = 0
  · rw [if_pos horigin]
    exact byRva_iff_of_origin_zero hloaded horigin
      (entryPoint_of_origin_zero hparsed horigin hentry)
  · rw [if_neg horigin]
    exact byRva_iff_of_moved hparsed hloaded horigin hentry

/-- A file with one section that stores one byte, the first of its code. -/
def oneByteFile (imageBase : UInt64) : Bytes :=
  [0x4d, 0x5a] ++ List.replicate 58 0 ++ u32Bytes 64 ++
    [0x50, 0x45, 0, 0, 0x64, 0x86, 1, 0] ++ List.replicate 12 0 ++
    [40, 0, 0, 0] ++ [0x0b, 0x02] ++ List.replicate 14 0 ++ u32Bytes 0x1000 ++
    u32Bytes 0 ++ u64Bytes imageBase ++ u32Bytes 0x1000 ++ u32Bytes 0x200 ++
    ascii ".text" ++ List.replicate 3 0 ++
    [1, 0x1000, 1, 168, 0, 0, 0, 0, 0x60000090].flatMap u32Bytes

def quietOptions : LoadOptions :=
  { applyRelocations := false, resolveImports := false }

theorem load_by_rva_iff_linked_at_zero :
    ∃ image, BinaryParser.parse {} (oneByteFile 0) = .ok image ∧
      ∃ result next, load smallPages image quietOptions none
          (AddressSpace.new {}) = .ok result next ∧
        (LoadedByRva (oneByteFile 0) image result next ↔
          LoadsByRva smallPages (oneByteFile 0) quietOptions) := by
  obtain ⟨image, hparse, hload⟩ := toOption_bind_eq_some.mp (by decide +kernel :
    (BinaryParser.parse {} (oneByteFile 0)).toOption.bind (fun image =>
      some (succeeded (load smallPages image quietOptions none
        (AddressSpace.new {})))) = some true)
  obtain ⟨result, next, hrun⟩ := succeeded_iff.mp (Option.some.inj hload)
  exact ⟨image, hparse, result, next, hrun, load_by_rva_iff
    (by decide +kernel) hparse ⟨{}, [], rfl⟩ rfl rfl rfl hrun⟩

/-- With an image base the section stays at its relative address. -/
theorem load_leaves_section_below_base :
    ¬∀ parserLimits limits data image options resolver
        (memory next : AddressSpace) result,
      BinaryParser.detect data = .peLike →
      BinaryParser.parse parserLimits data = .ok image →
      memory.Reachable → memory.regions.entries = [] →
      options.applyRelocations = false → options.resolveImports = false →
      load limits image options resolver memory = .ok result next →
      LoadedByRva data image result next := by
  intro hall
  obtain ⟨image, hparse, hview⟩ := toOption_bind_eq_some.mp (by decide +kernel :
    (BinaryParser.parse {} (oneByteFile 0x400000)).toOption.bind (fun image =>
      let run := load smallPages image quietOptions none (AddressSpace.new {})
      some (succeeded run, image.sections.map fun item =>
          (item.virtualAddress, item.fileOffset, item.fileSize),
        (evaluate (load smallPages image quietOptions none) (AddressSpace.new {}))
          |>.toOption.map LoadResult.loadBase,
        (finalState run).contents 0x401000)) =
      some (true, [(0x1000, 168, 1)], some 0x400000, none))
  simp only [Option.some.injEq, Prod.mk.injEq] at hview
  obtain ⟨hsucceeded, hsections, hbase, hbyte⟩ := hview
  obtain ⟨result, next, hrun⟩ := succeeded_iff.mp hsucceeded
  rw [evaluate_of_ok hrun] at hbase
  rw [hrun, finalState_ok] at hbyte
  obtain ⟨item, hitem, hfields⟩ := List.map_eq_singleton_iff.mp hsections
  simp only [Prod.mk.injEq] at hfields
  obtain ⟨haddress, hoffset, hsize⟩ := hfields
  have hplaced := (hall _ _ _ _ _ _ _ _ _ (by decide +kernel) hparse
    ⟨{}, [], rfl⟩ rfl rfl rfl hrun).bytes item (by simp [hitem]) 0
    (by rw [hsize]; decide)
  rw [haddress, hoffset, Option.some.inj hbase] at hplaced
  have hstored : (oneByteFile 0x400000)[(168 : UInt64).toNat + 0]? = some 0x90 := by
    decide +kernel
  rw [hstored] at hplaced
  exact absurd (hbyte.symm.trans hplaced) (by decide)

end BinaryLoader
end BinForge
