import BinForge.ManifestRoundTrip

/-!
# Manifests with tables left out

The decoder validates what it has read.  Of the tables that `ManifestOptions`
can leave out only the relocations refer to another one, so a manifest without
some tables reads back unless its relocations name symbols it does not hold.
-/

namespace BinForge

open StatefulExcept

namespace ImageManifestCodec

variable {limits : Limits} {image : BinaryImage} {options : ManifestOptions}

/-- A relocation that is written and the symbol it names are both written. -/
def ReferencesKept (options : ManifestOptions) (image : BinaryImage) : Prop :=
  options.includeSymbols = true ∨ options.includeRelocations = false ∨
    ∀ relocation ∈ image.relocations, relocation.symbolIndex = 0

instance (options : ManifestOptions) (image : BinaryImage) :
    Decidable (ReferencesKept options image) :=
  inferInstanceAs (Decidable (_ ∨ _ ∨ _))

theorem referencesKept_iff {data : Bytes}
    (hvalid : BinaryValidator.Valid limits image data) :
    ReferencesKept options image ↔
      ∀ relocation ∈ included options.includeRelocations image.relocations,
        BinaryValidator.RelocationValid
          (included options.includeSymbols image.symbols).length relocation := by
  have hrelocations := hvalid.relocations
  unfold ReferencesKept BinaryValidator.RelocationValid at *
  cases options.includeSymbols <;> cases options.includeRelocations <;>
    simp_all [included]

/-- The manifest is readable exactly when its references are kept. -/
theorem decode_selected_iff {data encoded : Bytes}
    (hdata : image.fileData = some data)
    (hvalid : BinaryValidator.Valid limits image data)
    (hfits : Encodable limits image)
    (hencode : encode limits image options = .ok encoded)
    (hlength : encoded.length ≤ (limits.maxFileSize * 2).toNat)
    {decoded : BinaryImage} :
    decode limits encoded = .ok decoded ↔
      ReferencesKept options image ∧
        decoded = manifestImage (selectedImage options image) data := by
  obtain rfl := Except.ok.inj ((encode_ok hdata hvalid options).symm.trans
    hencode)
  rw [decode_sealContainer options hvalid hfits hlength,
    validate_selectedImage options hvalid, referencesKept_iff hvalid]

/-- A manifest whose references are kept returns the tables selected as they
were and the others empty; of a debug unit it holds the summary. -/
theorem decode_encode_selected
    (haccepted : (BinaryValidator.validate limits image).valid = true)
    (hfits : Encodable limits image) (hkept : ReferencesKept options image)
    {encoded : Bytes} (hencode : encode limits image options = .ok encoded)
    (hlength : encoded.length ≤ (limits.maxFileSize * 2).toNat) :
    ∃ decoded, decode limits encoded = .ok decoded ∧
      decoded.header = image.header ∧
      decoded.fileData = image.fileData ∧
      decoded.sections = image.sections ∧
      decoded.segments = image.segments ∧
      decoded.symbols =
        (if options.includeSymbols then image.symbols else []) ∧
      decoded.relocations =
        (if options.includeRelocations then image.relocations else []) ∧
      decoded.imports =
        (if options.includeImports then image.imports else []) ∧
      decoded.exports =
        (if options.includeExports then image.exports else []) ∧
      decoded.debugUnits =
        (if options.includeDebugSummary then image.debugUnits.map fun unit =>
            { offset := unit.offset
              length := unit.length
              version := unit.version
              addressSize := unit.addressSize }
          else []) := by
  obtain ⟨data, hdata, hvalid⟩ :=
    BinaryValidator.validate_valid_iff.mp haccepted
  refine ⟨_, (decode_selected_iff hdata hvalid hfits hencode hlength).mpr
    ⟨hkept, rfl⟩, rfl, hdata.symm, rfl, rfl, rfl, rfl, rfl, rfl, ?_⟩
  show (included options.includeDebugSummary image.debugUnits).map debugSummary =
    _
  cases options.includeDebugSummary <;> rfl

theorem decode_encode_selected_imports :
    let image : BinaryImage :=
      { symbols := [{ name := "main" }]
        relocations := [{ kind := .relative64, width := 8 }]
        imports := [{ library := "libc", name := "puts" }]
        fileData := some [0x7f] }
    let options : ManifestOptions :=
      { includeSymbols := false, includeExports := false }
    ∃ encoded decoded, encode {} image options = .ok encoded ∧
      decode {} encoded = .ok decoded ∧ decoded.symbols = [] ∧
      decoded.relocations = image.relocations ∧
      decoded.imports = image.imports := by
  intro image options
  obtain ⟨encoded, hencode, hsize⟩ := toOption_bind_eq_some.mp
    (by decide +kernel : (encode {} image options).toOption.bind
      (fun encoded => some (decide (encoded.length ≤ 2 ^ 20))) = some true)
  have hlength : encoded.length ≤ 2 ^ 20 := by simpa using hsize
  obtain ⟨decoded, hdecode, _, _, _, _, hsymbols, hrelocations, himports, _⟩ :=
    decode_encode_selected
      (by decide +kernel : (BinaryValidator.validate {} image).valid = true)
      ⟨by decide +kernel, by decide +kernel, by decide +kernel,
        by decide +kernel, fun segment hsegment => absurd hsegment (by simp [image])⟩
      (by decide +kernel) hencode (hlength.trans (by decide +kernel))
  exact ⟨encoded, decoded, hencode, hdecode, hsymbols, hrelocations, himports⟩

/-- A relocation that names a symbol left out makes the manifest unreadable,
and the lists of a debug unit are not written even when its table is. -/
theorem decode_selected_differs :
    (let image : BinaryImage :=
      { symbols := [{ name := "a" }, { index := 1, name := "b" }]
        relocations := [{ kind := .relative64, symbolIndex := 1, width := 8 }]
        fileData := some [0x7f] }
    (BinaryValidator.validate {} image).valid = true ∧
      ∃ encoded, encode {} image { includeSymbols := false } = .ok encoded ∧
        (decode {} encoded).isOk = false) ∧
    (let image : BinaryImage :=
      { debugUnits := [{ length := 7, files := ["main.c"] }]
        fileData := some [0x7f] }
    (BinaryValidator.validate {} image).valid = true ∧
      ∃ encoded decoded, encode {} image {} = .ok encoded ∧
        decode {} encoded = .ok decoded ∧
        decoded.debugUnits ≠ image.debugUnits) := by
  refine ⟨⟨by decide +kernel, ?_⟩, ⟨by decide +kernel, ?_⟩⟩
  · obtain ⟨encoded, hencode, hrefused⟩ := toOption_bind_eq_some.mp
      (by decide +kernel : (encode {}
          { symbols := [{ name := "a" }, { index := 1, name := "b" }]
            relocations := [{ kind := .relative64, symbolIndex := 1, width := 8 }]
            fileData := some [0x7f] }
          { includeSymbols := false }).toOption.bind
        (fun encoded => some (decode {} encoded).isOk) = some false)
    exact ⟨encoded, hencode, Option.some.inj hrefused⟩
  · obtain ⟨encoded, hencode, hread⟩ := toOption_bind_eq_some.mp
      (by decide +kernel : (encode {}
          { debugUnits := [{ length := 7, files := ["main.c"] }]
            fileData := some [0x7f] } {}).toOption.bind
        (fun encoded => (decode {} encoded).toOption.bind
          fun decoded => some (decoded.debugUnits.map DebugUnit.files)) =
        some [[]])
    obtain ⟨decoded, hdecode, hfiles⟩ := toOption_bind_eq_some.mp hread
    refine ⟨encoded, decoded, hencode, hdecode, fun hsame => ?_⟩
    rw [hsame] at hfiles
    exact absurd hfiles (by decide)

end ImageManifestCodec
end BinForge
