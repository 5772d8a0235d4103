import BinForge.BuiltImage
import BinForge.RangeOrder

/-!
# Placement by the builder

Over the whole layout the sections are aligned, follow one another in the file
and in memory, and leave only zeros between them; a successful build has its
sections there.  The positions of the collected symbols and relocations are
their indices after any calls.
-/

namespace BinForge

open StatefulExcept
open MachineInteger
open Alignment
open RangeOrder

namespace Spot

/-- Aligned as the options and the section ask. -/
structure Aligned (options : BuilderOptions) (spot : Spot) : Prop where
  file : (max options.fileAlignment spot.source.alignment).toNat ∣ spot.file
  memory :
    (max options.memoryAlignment spot.source.alignment).toNat ∣ spot.memory

end Spot

/-! ## The whole layout -/

namespace SectionLayout

variable {options : BuilderOptions} {layout : SectionLayout}

/-- The spots are aligned, in order and before the cursors, and the file holds
their data and zeros. -/
structure Spaced (options : BuilderOptions) (layout : SectionLayout) :
    Prop where
  ordered : layout.spots.Pairwise Spot.Before
  behind : ∀ spot ∈ layout.spots,
    spot.fileEnd ≤ layout.file.length ∧ spot.memoryEnd ≤ layout.memoryCursor
  aligned : ∀ spot ∈ layout.spots, spot.Aligned options
  cursor : options.imageBase.toNat ≤ layout.memoryCursor
  based : ∀ spot ∈ layout.spots, options.imageBase.toNat ≤ spot.memory
  stored : ∀ spot ∈ layout.spots, ∀ i < spot.source.data.length,
    layout.file[spot.file + i]? = spot.source.data[i]?
  padded : ∀ x < layout.file.length,
    (∃ spot ∈ layout.spots, spot.file ≤ x ∧ x < spot.fileEnd) ∨
      layout.file[x]? = some 0

theorem spotFor_aligned (options : BuilderOptions) (layout : SectionLayout)
    (source : BuilderSection) :
    (spotFor options layout source).Aligned options :=
  ⟨Dvd.intro_left _ rfl, Dvd.intro_left _ rfl⟩

theorem add_getElem? (source : BuilderSection) {x : ℕ}
    (hx : x < layout.file.length) :
    (add options layout source).file[x]? = layout.file[x]? := by
  rw [add, List.append_assoc, List.getElem?_append_left hx]

theorem add_spaced (hfile : options.fileAlignment ≠ 0)
    (hmemory : options.memoryAlignment ≠ 0) (hspaced : layout.Spaced options)
    (source : BuilderSection) : (add options layout source).Spaced options := by
  obtain ⟨hfileLe, hmemoryLe⟩ :=
    @le_spotFor options layout source hfile hmemory
  obtain ⟨hlength, hdata, hgap⟩ := add_file hfileLe
  have hcursor : (add options layout source).memoryCursor =
      (spotFor options layout source).memoryEnd := rfl
  have hmem : ∀ spot, spot ∈ (add options layout source).spots ↔
      spot ∈ layout.spots ∨ spot = spotFor options layout source := by
    intro spot
    rw [add_spots, List.mem_append, List.mem_singleton]
  refine ⟨?_, ?_, ?_, ?_, ?_, ?_, ?_⟩
  · rw [add_spots, List.pairwise_append]
    refine ⟨hspaced.ordered, List.pairwise_singleton _ _, ?_⟩
    intro spot hspot
    obtain ⟨hfileEnd, hmemoryEnd⟩ := hspaced.behind spot hspot
    simp only [List.forall_mem_singleton]
    exact ⟨hfileEnd.trans hfileLe, hmemoryEnd.trans hmemoryLe⟩
  · intro spot hspot
    rw [hlength, hcursor]
    rcases (hmem spot).mp hspot with hold | rfl
    · obtain ⟨hfileEnd, hmemoryEnd⟩ := hspaced.behind spot hold
      unfold Spot.fileEnd Spot.memoryEnd at *
      omega
    · exact ⟨le_refl _, le_refl _⟩
  · intro spot hspot
    rcases (hmem spot).mp hspot with hold | rfl
    · exact hspaced.aligned spot hold
    · exact spotFor_aligned options layout source
  · have hbase := hspaced.cursor
    rw [hcursor]
    unfold Spot.memoryEnd
    omega
  · intro spot hspot
    rcases (hmem spot).mp hspot with hold | rfl
    · exact hspaced.based spot hold
    · exact hspaced.cursor.trans hmemoryLe
  · intro spot hspot i hi
    rcases (hmem spot).mp hspot with hold | rfl
    · have hend := (hspaced.behind spot hold).1
      unfold Spot.fileEnd at hend
      rw [add_getElem? source (by omega)]
      exact hspaced.stored spot hold i hi
    · exact hdata i hi
  · intro x hx
    by_cases hold : x < layout.file.length
    · rw [add_getElem? source hold]
      apply (hspaced.padded x hold).imp_left
      rintro ⟨spot, hspot, hinside⟩
      exact ⟨spot, (hmem spot).mpr (Or.inl hspot), hinside⟩
    · by_cases hbefore : x < (spotFor options layout source).file
      · exact Or.inr (hgap x (Nat.le_of_not_lt hold) hbefore)
      · refine Or.inl ⟨_, (hmem _).mpr (Or.inr rfl), ?_, ?_⟩
        · exact Nat.le_of_not_lt hbefore
        · rwa [hlength] at hx

theorem ofSections_spaced (hfile : options.fileAlignment ≠ 0)
    (hmemory : options.memoryAlignment ≠ 0) (sections : List BuilderSection) :
    (ofSections options sections).Spaced options := by
  induction sections using List.reverseRecOn with
  | nil =>
      exact ⟨.nil, by simp [ofSections, spots], by simp [ofSections, spots],
        le_refl _, by simp [ofSections, spots], by simp [ofSections, spots],
        by simp [ofSections]⟩
  | append_singleton sections source ih =>
      rw [ofSections_append]
      exact add_spaced hfile hmemory ih source

end SectionLayout

namespace BinaryImageBuilder

variable {limits : Limits} {options : BuilderOptions}
  {builder : BinaryImageBuilder} {state next : BuildState} {image : BinaryImage}

/-! ## Collected records -/

/-- Symbols and relocations carry their positions. -/
structure Numbered (builder : BinaryImageBuilder) : Prop where
  symbols : BinaryValidator.Indexed Symbol.index builder.symbols
  relocations : BinaryValidator.Indexed Relocation.index builder.relocations

theorem new_numbered (limits : Limits) : (new limits).Numbered :=
  ⟨BinaryValidator.indexed_nil, BinaryValidator.indexed_nil⟩

theorem Numbered.of_same {other : BinaryImageBuilder}
    (hbuilder : builder.Numbered) (hsymbols : other.symbols = builder.symbols)
    (hrelocations : other.relocations = builder.relocations) :
    other.Numbered :=
  ⟨hsymbols ▸ hbuilder.symbols, hrelocations ▸ hbuilder.relocations⟩

/-- A position below a limit is its own index. -/
theorem toNat_ofNat_position {position : ℕ} {limit : UInt32}
    (hroom : ¬position ≥ limit.toNat) :
    (UInt32.ofNat position).toNat = position := by
  have hlimit := limit.toNat_lt
  exact UInt32.toNat_ofNat_of_lt' (by rw [UInt32.size]; omega)

theorem call_numbered (hbuilder : builder.Numbered) (command : Command) :
    (finalState (command.call builder)).Numbered := by
  cases command with
  | addSection item =>
      apply finalState_rejectIf_bind Numbered hbuilder
      intro _
      apply finalState_rejectIf_bind Numbered hbuilder
      intro _
      exact hbuilder.of_same rfl rfl
  | addSymbol symbol =>
      apply finalState_rejectIf_bind Numbered hbuilder
      intro hroom
      refine ⟨?_, hbuilder.relocations⟩
      apply BinaryValidator.indexed_append hbuilder.symbols
      exact toNat_ofNat_position fun hfull => hroom (Or.inl hfull)
  | addImport imported =>
      apply finalState_rejectIf_bind Numbered hbuilder
      intro _
      exact hbuilder.of_same rfl rfl
  | addExport exported =>
      apply finalState_rejectIf_bind Numbered hbuilder
      intro _
      exact hbuilder.of_same rfl rfl
  | addRelocation relocation =>
      apply finalState_rejectIf_bind Numbered hbuilder
      intro hroom
      refine ⟨hbuilder.symbols, ?_⟩
      apply BinaryValidator.indexed_append hbuilder.relocations
      exact toNat_ofNat_position hroom
  | clear => exact new_numbered builder.limits

theorem run_numbered (hbuilder : builder.Numbered) (commands : List Command) :
    (builder.run commands).Numbered := by
  induction commands generalizing builder with
  | nil => exact hbuilder
  | cons command commands ih => exact ih (call_numbered hbuilder command)

/-! ## The built sections -/

/-- What a section takes over from the builder's. -/
structure Copies (source : BuilderSection) (item : Section) : Prop where
  name : item.name = source.name
  kind : item.kind = source.kind
  alignment : item.alignment = source.alignment
  permissions : item.permissions = source.permissions

theorem placeSection_copies {source : BuilderSection × ℕ}
    (hrun : placeSection limits options state source = .ok next) :
    ∃ placed, next.sections = state.sections ++ [placed] ∧
      Copies source.1 placed := by
  obtain ⟨source, index⟩ := source
  simp only [placeSection, demand_except_bind_eq_ok,
    rejectIf_except_bind_eq_ok] at hrun
  obtain ⟨_, _, _, _, _, _, _, hrun⟩ := hrun
  obtain ⟨_, _, hrun⟩ := except_bind_eq_ok.mp hrun
  simp only [demand_except_bind_eq_ok] at hrun
  obtain ⟨_, _, _, _, hrun⟩ := hrun
  obtain rfl := Except.ok.inj hrun
  exact ⟨_, rfl, rfl, rfl, rfl, rfl⟩

theorem placeSections_copies {sections : List BuilderSection} {start : BuildState}
    (hstart : start.sections = [])
    (hrun : sections.zipIdx.foldlM (placeSection limits options) start =
      .ok state) :
    List.Forall₂ Copies sections state.sections := by
  have hall := foldlM_except_induction (fun done state =>
    List.Forall₂ Copies (done.map Prod.fst) state.sections) hrun ?_ ?_
  · rwa [List.zipIdx_map_fst] at hall
  · rw [hstart]
    exact .nil
  · intro done item rest carried passed _ hdone hstep
    obtain ⟨placed, hsections, hcopies⟩ := placeSection_copies hstep
    rw [List.map_append, List.map_singleton, hsections]
    exact List.rel_append hdone (.cons hcopies .nil)

/-! ## The whole build -/

/-- The section is the builder section's, at an aligned place that holds its
data. -/
structure PlacedAt (options : BuilderOptions) (file : Bytes)
    (source : BuilderSection) (position : ℕ) (item : Section) : Prop where
  index : item.index.toNat = position
  copies : Copies source item
  fileOffset :
    (max options.fileAlignment item.alignment).toNat ∣ item.fileOffset.toNat
  virtualAddress : (max options.memoryAlignment item.alignment).toNat ∣
    item.virtualAddress.toNat
  base : options.imageBase ≤ item.virtualAddress
  data : (file.drop item.fileOffset.toNat).take item.fileSize.toNat =
    source.data

/-- What the image of a successful build looks like. -/
structure SoundlyPlaced (builder : BinaryImageBuilder)
    (options : BuilderOptions) (image : BinaryImage) (file : Bytes) : Prop where
  fileData : image.fileData = some file
  count : image.sections.length = builder.sections.length
  sections : ∀ position item, image.sections[position]? = some item →
    ∃ source, builder.sections[position]? = some source ∧
      PlacedAt options file source position item
  fileOrder : image.sections.Pairwise
    (Before (fun item => item.fileOffset.toNat)
      fun item => item.fileOffset.toNat + item.fileSize.toNat)
  memoryOrder : image.sections.Pairwise
    (Before (fun item => item.virtualAddress.toNat)
      fun item => item.virtualAddress.toNat + item.memorySize.toNat)
  padding : ∀ x < file.length, (∀ item ∈ image.sections,
      ¬(item.fileOffset.toNat ≤ x ∧
        x < item.fileOffset.toNat + item.fileSize.toNat)) →
    file[x]? = some 0
  symbols : BinaryValidator.Indexed Symbol.index image.symbols
  relocations : BinaryValidator.Indexed Relocation.index image.relocations

theorem IsAt.fileSize {spot : Spot} {item : Section} (hitem : IsAt spot item) :
    item.fileSize.toNat = spot.source.data.length :=
  Nat.add_left_cancel hitem.fileEnd

theorem placedAt_of_spot {layout : SectionLayout} {spot : Spot}
    {item : Section} {position : ℕ} (hspaced : layout.Spaced options)
    (hspot : spot ∈ layout.spots) (hitem : IsAt spot item)
    (hindex : item.index.toNat = position) (hcopies : Copies spot.source item) :
    PlacedAt options layout.file spot.source position item := by
  have haligned := hspaced.aligned spot hspot
  refine ⟨hindex, hcopies, ?_, ?_, ?_, ?_⟩
  · rw [hitem.file, hcopies.alignment]
    exact haligned.file
  · rw [hitem.memory, hcopies.alignment]
    exact haligned.memory
  · rw [UInt64.le_iff_toNat_le, hitem.memory]
    exact hspaced.based spot hspot
  · have hend := (hspaced.behind spot hspot).1
    unfold Spot.fileEnd at hend
    apply List.ext_getElem?
    intro i
    rw [hitem.file, hitem.fileSize, List.getElem?_take]
    split
    next hi => rw [List.getElem?_drop, hspaced.stored spot hspot i hi]
    next hi => rw [List.getElem?_eq_none (Nat.le_of_not_lt hi)]

/-- After any calls to a new builder, a successful build places its sections in
order, aligned and with their data, and numbers symbols and relocations. -/
theorem build_soundlyPlaced {commands : List Command}
    (hbuild : build ((new limits).run commands) options = .ok image) :
    ∃ file, SoundlyPlaced ((new limits).run commands) options image file := by
  have hnumbered := run_numbered (new_numbered limits) commands
  generalize (new limits).run commands = builder at hbuild hnumbered
  obtain ⟨⟨hfile, hmemory⟩, haccepted, state, hsections, rfl⟩ :=
    build_eq_ok hbuild
  obtain ⟨data, _, hvalid⟩ := BinaryValidator.validate_valid_iff.mp haccepted
  have hspaced := SectionLayout.ofSections_spaced hfile hmemory builder.sections
  have hfollows := placeSections_ok hfile hmemory
    ⟨rfl, rfl, rfl, .nil, .nil⟩ hsections
  have hcopies := placeSections_copies rfl hsections
  have hsources := @SectionLayout.ofSections_sources options
    builder.sections
  generalize SectionLayout.ofSections options builder.sections = layout
    at hspaced hfollows hsources
  have hplaced : ∀ (position : ℕ) item, state.sections[position]? = some item →
      ∃ spot ∈ layout.spots, IsAt spot item ∧
        builder.sections[position]? = some spot.source := by
    intro position item hitem
    obtain ⟨spot, hspot, hat⟩ :=
      RelatedLists.exists_getElem? hfollows.sections hitem
    refine ⟨spot, List.mem_of_getElem? hspot, hat, ?_⟩
    rw [← hsources, List.getElem?_map, hspot, Option.map_some]
  refine ⟨layout.file, ?_, ?_, ?_, ?_, ?_, ?_, hnumbered.symbols,
    hnumbered.relocations⟩
  · rw [← hfollows.storage]
    rfl
  · exact hcopies.length_eq.symm
  · intro position item hitem
    obtain ⟨spot, hspot, hat, hsource⟩ := hplaced position item hitem
    obtain ⟨source, hsame, hcopied⟩ := RelatedLists.exists_getElem? hcopies hitem
    obtain rfl := Option.some.inj (hsame.symm.trans hsource)
    exact ⟨spot.source, hsource, placedAt_of_spot hspaced hspot hat
      (hvalid.sectionIndex position item hitem) hcopied⟩
  · apply RelatedLists.pairwise hfollows.sections _ hspaced.ordered
    intro spot item hitem spot' item' hitem' hbefore
    unfold Before
    dsimp only
    rw [hitem.file, hitem.fileEnd, hitem'.file]
    exact hbefore.file
  · apply RelatedLists.pairwise hfollows.sections _ hspaced.ordered
    intro spot item hitem spot' item' hitem' hbefore
    unfold Before
    dsimp only
    rw [hitem.memory, hitem.memoryEnd, hitem'.memory]
    exact hbefore.memory
  · intro x hx houtside
    rcases hspaced.padded x hx with ⟨spot, hspot, hlow, hhigh⟩ | hzero
    · obtain ⟨item, hitem, hat⟩ :=
        RelatedLists.exists_right hfollows.sections hspot
      exact absurd ⟨hat.file ▸ hlow, by rwa [hat.file, hat.fileEnd]⟩
        (houtside item hitem)
    · exact hzero

/-- Two sections with alignments of their own. -/
theorem build_soundlyPlaced_two_sections :
    ∃ image file, build ((new {}).run
        [.addSection { name := ascii "a", data := [1], alignment := 64 },
          .addSymbol {},
          .addSection { name := ascii "b", data := [2], zeroFill := 3 }]) {} =
        .ok image ∧
      image.sections.map Section.fileOffset = [0, 16] ∧
      SoundlyPlaced ((new {}).run
        [.addSection { name := ascii "a", data := [1], alignment := 64 },
          .addSymbol {},
          .addSection { name := ascii "b", data := [2], zeroFill := 3 }])
        {} image file := by
  obtain ⟨image, hbuild, hoffsets⟩ := toOption_bind_eq_some.mp
    (by decide +kernel : (build ((new {}).run
      [.addSection { name := ascii "a", data := [1], alignment := 64 },
        .addSymbol {},
        .addSection { name := ascii "b", data := [2], zeroFill := 3 }])
      {}).toOption.bind (fun image =>
        some (image.sections.map Section.fileOffset)) = some [0, 16])
  obtain ⟨file, hplaced⟩ := build_soundlyPlaced hbuild
  exact ⟨image, file, hbuild, Option.some.inj hoffsets, hplaced⟩

end BinaryImageBuilder
end BinForge
