import BinForge.ManifestRoundTrip

/-!
# The normal form of a manifest

The decoder accepts more containers than the encoder writes: any flags word,
absent section checksums, any nonzero boolean, wide version words and debug
counts.  What it returns for one is an image the encoder writes in as many
bytes, and which the decoder then returns again.
-/

namespace BinForge

open StatefulExcept
open StreamCodec
open ListSplice
open ByteReader

namespace ImageManifestCodec

variable {limits : Limits}

/-! ## Fields and records -/

theorem readText_yields :
    Yields LittleAhead (readText limits.maxStringBytes) fun value taken =>
      TextFits limits value ∧ taken.length = (text value).length := by
  refine readU32_yields.bind fun size _ hsize => Yields.rejectIf fun hlimit =>
    Yields.rejectIf_state ((readBytes_yields _).imp fun value taken hbytes => ?_)
  rw [gt_iff_lt, UInt64.lt_iff_toNat_lt, UInt32.toNat_toUInt64,
    not_lt] at hlimit
  obtain ⟨rfl, hlength⟩ := hbytes
  refine ⟨⟨hlength.trans_le hlimit, hlength.trans_lt size.toNat_lt⟩, ?_⟩
  simp [hsize, text]

theorem readI64_yields :
    Yields LittleAhead readI64 fun _ taken => taken.length = 8 :=
  readU64_yields.bind fun value _ hvalue => Yields.pure (by simp [hvalue])

theorem decodeHeader_yields :
    Yields LittleAhead decodeHeader fun header taken =>
      taken.length = (encodeHeader header).length := by
  refine readU8_yields.bind fun format _ hformat => ?_
  refine readU8_yields.bind fun word _ hword => ?_
  refine readU8_yields.bind fun order _ horder => ?_
  refine readU8_yields.bind fun kind _ hkind => ?_
  refine readU8_yields.bind fun architecture _ harchitecture => ?_
  refine readU64_yields.bind fun entryPoint _ hentryPoint => ?_
  refine readU64_yields.bind fun imageBase _ himageBase => ?_
  refine readU64_yields.bind fun sectionTableOffset _ hsectionTable => ?_
  refine readU64_yields.bind fun segmentTableOffset _ hsegmentTable => ?_
  refine readU32_yields.bind fun sectionCount _ hsectionCount => ?_
  refine readU32_yields.bind fun segmentCount _ hsegmentCount => ?_
  refine readU32_yields.bind fun flags _ hflags => ?_
  refine Yields.demand fun _ _ => Yields.demand fun _ _ =>
    Yields.demand fun _ _ => Yields.pure ?_
  simp [encodeHeader, hformat, hword, horder, hkind, harchitecture, hentryPoint,
    himageBase, hsectionTable, hsegmentTable, hsectionCount, hsegmentCount,
    hflags]

theorem decodeSectionFields_yields (options : ManifestOptions) (data : Bytes) :
    Yields LittleAhead (decodeSectionFields limits) fun fields taken =>
      TextFits limits fields.1.name ∧
        taken.length = (encodeSection options data fields.1).length := by
  refine readU32_yields.bind fun index _ hindex => ?_
  refine readText_yields.bind fun name _ hname => ?_
  refine readU8_yields.bind fun kind _ hkind => ?_
  refine readU64_yields.bind fun fileOffset _ hfileOffset => ?_
  refine readU64_yields.bind fun fileSize _ hfileSize => ?_
  refine readU64_yields.bind fun virtualAddress _ hvirtualAddress => ?_
  refine readU64_yields.bind fun memorySize _ hmemorySize => ?_
  refine readU64_yields.bind fun alignment _ halignment => ?_
  refine readU64_yields.bind fun entrySize _ hentrySize => ?_
  refine readU32_yields.bind fun link _ hlink => ?_
  refine readU32_yields.bind fun info _ hinfo => ?_
  refine readU8_yields.bind fun permissions _ hpermissions => ?_
  refine readU32_yields.bind fun checksum _ hchecksum => Yields.pure ⟨hname.1, ?_⟩
  simp [encodeSection, hindex, hname.2, hkind, hfileOffset, hfileSize,
    hvirtualAddress, hmemorySize, halignment, hentrySize, hlink, hinfo,
    hpermissions, hchecksum]

theorem decodeSection_yields (options : ManifestOptions) (data : Bytes) :
    Yields LittleAhead (decodeSection limits data) fun item taken =>
      TextFits limits item.name ∧
        taken.length = (encodeSection options data item).length := by
  refine ((decodeSectionFields_yields options data).adaptError _).bind
    fun fields front hfields => Yields.rejectIf fun _ => Yields.pure ?_
  rwa [List.append_nil]

theorem decodeSectionReference_yields (sectionCount : ℕ) :
    Yields LittleAhead (decodeSectionReference sectionCount)
      fun value taken => value.toNat < sectionCount ∧
        taken.length = (u32Bytes value).length := by
  refine readU32_yields.bind fun value _ hvalue => Yields.rejectIf fun hinside =>
    Yields.pure ⟨not_le.mp hinside, ?_⟩
  rw [List.append_nil, hvalue]

theorem decodeSegment_yields (sectionCount : ℕ) :
    Yields LittleAhead (decodeSegment limits sectionCount) fun segment taken =>
      SegmentFits limits sectionCount segment ∧
        taken.length = (encodeSegment segment).length := by
  refine readU32_yields.bind fun index _ hindex => ?_
  refine readU64_yields.bind fun fileOffset _ hfileOffset => ?_
  refine readU64_yields.bind fun fileSize _ hfileSize => ?_
  refine readU64_yields.bind fun virtualAddress _ hvirtualAddress => ?_
  refine readU64_yields.bind fun memorySize _ hmemorySize => ?_
  refine readU64_yields.bind fun alignment _ halignment => ?_
  refine readU8_yields.bind fun permissions _ hpermissions => ?_
  refine readU32_yields.bind fun count _ hcount => Yields.rejectIf fun hlimit => ?_
  refine ((decodeSectionReference_yields sectionCount).collect_length _).bind
    fun sections _ hsections => Yields.pure ⟨⟨?_, hsections.1⟩, ?_⟩
  · show sections.length ≤ _
    rw [hsections.2.1]
    exact UInt32.le_iff_toNat_le.mp (UInt32.not_lt.mp hlimit)
  · simp [encodeSegment, hindex, hfileOffset, hfileSize, hvirtualAddress,
      hmemorySize, halignment, hpermissions, hcount, hsections.2.2]

theorem decodeSymbol_yields :
    Yields LittleAhead (decodeSymbol limits) fun symbol taken =>
      (TextFits limits symbol.name ∧ TextFits limits symbol.library) ∧
        taken.length = (encodeSymbol symbol).length := by
  refine readU32_yields.bind fun index _ hindex => ?_
  refine readText_yields.bind fun name _ hname => ?_
  refine readU8_yields.bind fun binding _ hbinding => ?_
  refine readU8_yields.bind fun kind _ hkind => ?_
  refine readU32_yields.bind fun sectionIndex _ hsectionIndex => ?_
  refine readU64_yields.bind fun value _ hvalue => ?_
  refine readU64_yields.bind fun size _ hsize => ?_
  refine readU8_yields.bind fun visibility _ hvisibility => ?_
  refine readText_yields.bind fun library _ hlibrary =>
    Yields.pure ⟨⟨hname.1, hlibrary.1⟩, ?_⟩
  simp [encodeSymbol, hindex, hname.2, hbinding, hkind, hsectionIndex, hvalue,
    hsize, hvisibility, hlibrary.2]

theorem decodeRelocation_yields :
    Yields LittleAhead decodeRelocation fun relocation taken =>
      taken.length = (encodeRelocation relocation).length := by
  refine readU32_yields.bind fun index _ hindex => ?_
  refine readU8_yields.bind fun kind _ hkind => ?_
  refine readU32_yields.bind fun targetSection _ htargetSection => ?_
  refine readU32_yields.bind fun symbolIndex _ hsymbolIndex => ?_
  refine readU64_yields.bind fun offset _ hoffset => ?_
  refine readI64_yields.bind fun addend _ haddend => ?_
  refine readU8_yields.bind fun width _ hwidth => Yields.pure ?_
  simp [encodeRelocation, hindex, hkind, htargetSection, hsymbolIndex, hoffset,
    haddend, hwidth]

theorem decodeImport_yields :
    Yields LittleAhead (decodeImport limits) fun imported taken =>
      (TextFits limits imported.library ∧ TextFits limits imported.name) ∧
        taken.length = (encodeImport imported).length := by
  refine readText_yields.bind fun library _ hlibrary => ?_
  refine readText_yields.bind fun name _ hname => ?_
  refine readU64_yields.bind fun ordinal _ hordinal => ?_
  refine readU64_yields.bind fun slotAddress _ hslotAddress => ?_
  refine readU8_yields.bind fun weak _ hweak =>
    Yields.pure ⟨⟨hlibrary.1, hname.1⟩, ?_⟩
  simp [encodeImport, hlibrary.2, hname.2, hordinal, hslotAddress, hweak]

theorem decodeExport_yields :
    Yields LittleAhead (decodeExport limits) fun exported taken =>
      (TextFits limits exported.name ∧
          TextFits limits exported.forwardTarget) ∧
        taken.length = (encodeExport exported).length := by
  refine readText_yields.bind fun name _ hname => ?_
  refine readU64_yields.bind fun address _ haddress => ?_
  refine readU64_yields.bind fun ordinal _ hordinal => ?_
  refine readU8_yields.bind fun forwarded _ hforwarded => ?_
  refine readText_yields.bind fun target _ htarget =>
    Yields.pure ⟨⟨hname.1, htarget.1⟩, ?_⟩
  simp [encodeExport, hname.2, haddress, hordinal, hforwarded, htarget.2]

/-- The decoder drops the three counts, so what it returns is a summary. -/
theorem decodeDebugUnit_yields :
    Yields LittleAhead decodeDebugUnit fun unit taken =>
      debugSummary unit = unit ∧
        taken.length = (encodeDebugUnit unit).length := by
  refine readU64_yields.bind fun offset _ hoffset => ?_
  refine readU64_yields.bind fun length _ hlength => ?_
  refine readU32_yields.bind fun version _ hversion => ?_
  refine readU8_yields.bind fun addressSize _ haddressSize => ?_
  refine readU32_yields.bind fun files _ hfiles => ?_
  refine readU32_yields.bind fun lines _ hlines => ?_
  refine readU32_yields.bind fun entries _ hentries => Yields.pure ⟨rfl, ?_⟩
  simp [encodeDebugUnit, hoffset, hlength, hversion, haddressSize, hfiles,
    hlines, hentries]

/-! ## Tables and the body -/

theorem decodeTable_yields {α : Type} {limit : UInt32} {record : DecodeCall α}
    {write : α → Bytes} {good : α → Prop}
    (hrecord : Yields LittleAhead record fun value taken =>
      good value ∧ taken.length = (write value).length) :
    Yields LittleAhead (decodeTable limit record) fun values taken =>
      (values.length ≤ limit.toNat ∧ ∀ value ∈ values, good value) ∧
        taken.length = (encodeTable write values).length := by
  have hcount : Yields LittleAhead (silently do
      let count ← ByteReader.readU32
      rejectIf (count > limit) ()
      return count : DecodeCall UInt32) fun count taken =>
        count.toNat ≤ limit.toNat ∧ taken.length = 4 := by
    refine Yields.adaptError _ (readU32_yields.bind fun count _ hcount =>
      Yields.rejectIf fun hlimit => Yields.pure ⟨?_, by simp [hcount]⟩)
    exact UInt32.le_iff_toNat_le.mp (UInt32.not_lt.mp hlimit)
  refine hcount.bind fun count front hfront =>
    (hrecord.collect_length _).imp fun values taken htable => ?_
  obtain ⟨hgood, hlength, htaken⟩ := htable
  refine ⟨⟨hlength.trans_le hfront.1, hgood⟩, ?_⟩
  rw [encodeTable, List.length_append, List.length_append, hfront.2, htaken,
    u32Bytes_length]

theorem decodePreamble_yields :
    Yields LittleAhead decodePreamble fun header taken =>
      taken.length = 8 + (encodeHeader header).length := by
  refine Yields.adaptError _ (readU32_yields.bind fun version _ hversion =>
    Yields.rejectIf fun _ => readU32_yields.bind fun flags _ hflags =>
      decodeHeader_yields.imp fun header taken hheader => ?_)
  simp only [List.length_append, hversion, hflags, u32Bytes_length, hheader]
  omega

theorem decodeFile_yields :
    Yields LittleAhead (decodeFile limits) fun data taken =>
      taken.length = 8 + data.length := by
  have hsize : Yields LittleAhead (adaptError
      (reportAt .resourceLimit "manifest backing-file size is invalid") (do
        let fileSize ← ByteReader.readU64
        rejectIf (fileSize > limits.maxFileSize) ()
        let reader ← get
        rejectIf (fileSize.toNat > reader.remaining) ()
        return fileSize) : DecodeCall UInt64) fun _ taken => taken.length = 8 :=
    Yields.adaptError _ (readU64_yields.bind fun size _ hsize =>
      Yields.rejectIf fun _ => Yields.rejectIf_state
        (Yields.pure (by simp [hsize])))
  refine hsize.bind fun size front hfront =>
    ((readBytes_yields _).adaptError _).imp fun data taken hdata => ?_
  rw [List.length_append, hfront, hdata.1]

/-- What the decoder makes of a body it accepts: an image the format has room
for, nothing in it that the format does not keep, in as many bytes. -/
theorem decodeBody_yields :
    Yields LittleAhead (decodeBody limits) fun image taken =>
      ∃ data, image = manifestImage image data ∧ Encodable limits image ∧
        taken.length = (encodeBody {} image data).length := by
  have hrelocation : Yields LittleAhead decodeRelocation
      fun relocation taken =>
        True ∧ taken.length = (encodeRelocation relocation).length :=
    decodeRelocation_yields.imp fun _ _ hlength => ⟨trivial, hlength⟩
  refine decodePreamble_yields.bind fun header _ hheader => ?_
  refine decodeFile_yields.bind fun data _ hdata => ?_
  refine (decodeTable_yields (decodeSection_yields {} data)).bind
    fun sections _ hsections => ?_
  refine (decodeTable_yields ((decodeSegment_yields _).adaptError _)).bind
    fun segments _ hsegments => ?_
  refine (decodeTable_yields (decodeSymbol_yields.adaptError _)).bind
    fun symbols _ hsymbols => ?_
  refine (decodeTable_yields (hrelocation.adaptError _)).bind
    fun relocations _ hrelocations => ?_
  refine (decodeTable_yields (decodeImport_yields.adaptError _)).bind
    fun imports _ himports => ?_
  refine (decodeTable_yields (decodeExport_yields.adaptError _)).bind
    fun exports _ hexports => ?_
  refine (decodeTable_yields (decodeDebugUnit_yields.adaptError _)).bind
    fun debugUnits _ hdebugUnits => Yields.pure ⟨data, ?_, ⟨?_, himports.1.1,
      hexports.1.1, hdebugUnits.1.1, hsegments.1.2⟩, ?_⟩
  · have hsummaries : debugUnits.map debugSummary = debugUnits := by
      conv_rhs => rw [← List.map_id debugUnits]
      exact List.map_congr_left hdebugUnits.1.2
    rw [manifestImage, hsummaries]
  · simp only [imageTexts, List.forall_mem_append, List.forall_mem_map,
      List.forall_mem_flatMap, List.forall_mem_cons]
    exact ⟨⟨⟨hsections.1.2, fun symbol hsymbol =>
      ⟨(hsymbols.1.2 symbol hsymbol).1, (hsymbols.1.2 symbol hsymbol).2,
        by simp⟩⟩, fun imported himported =>
      ⟨(himports.1.2 imported himported).1, (himports.1.2 imported himported).2,
        by simp⟩⟩, fun exported hexported =>
      ⟨(hexports.1.2 exported hexported).1, (hexports.1.2 exported hexported).2,
        by simp⟩⟩
  · simp only [encodeBody, included, if_true, List.length_append,
      List.length_nil, hheader, hdata, hsections.2, hsegments.2, hsymbols.2,
      hrelocations.2, himports.2, hexports.2, hdebugUnits.2, u32Bytes_length,
      u64Bytes_length]
    omega

/-! ## The container -/

theorem decode_sound {bytes : Bytes} {image : BinaryImage}
    (hrun : decode limits bytes = .ok image) :
    ∃ data, image = manifestImage image data ∧
      BinaryValidator.Valid limits image data ∧ Encodable limits image ∧
      bytes.length ≤ (limits.maxFileSize * 2).toNat ∧
      (sealContainer "BFMF" (encodeBody {} image data)).length =
        bytes.length := by
  obtain ⟨hsize, hrun⟩ := rejectIf_except_bind_eq_ok.mp hrun
  obtain ⟨-, hrun⟩ := rejectIf_except_bind_eq_ok.mp hrun
  obtain ⟨-, hrun⟩ := rejectIf_except_bind_eq_ok.mp hrun
  obtain ⟨found, hbody, hrun⟩ := except_bind_eq_ok.mp hrun
  obtain ⟨haccepted, hsame⟩ := rejectIf_except_bind_eq_ok.mp hrun
  obtain rfl := Except.ok.inj hsame
  rw [not_or, not_lt, not_lt] at hsize
  obtain ⟨last, hbody⟩ := evaluate_eq_ok.mp hbody
  obtain ⟨read, middle, hread, hbody⟩ := bind_eq_ok.mp hbody
  rw [bind_of_ok (get_apply middle)] at hbody
  obtain ⟨hdone, hbody⟩ := rejectIf_bind_eq_ok.mp hbody
  rw [pure_eq_ok] at hbody
  obtain ⟨rfl, rfl⟩ := hbody
  have hstart : LittleAhead { data := slice bytes 4 (bytes.length - 8) }
      (slice bytes 4 (bytes.length - 8)) := ⟨rfl, Nat.zero_le _, rfl⟩
  obtain ⟨taken, tail, hitems, hlast, data, hnormal, hfits, hlength⟩ :=
    decodeBody_yields _ _ _ _ hstart hread
  rw [not_not, hlast.remaining] at hdone
  obtain rfl := List.eq_nil_of_length_eq_zero hdone
  obtain ⟨other, hother, hvalid⟩ :=
    BinaryValidator.validate_valid_iff.mp (by simpa using haccepted)
  have hdata : read.fileData = some data := by rw [hnormal]; rfl
  obtain rfl := Option.some.inj (hother.symm.trans hdata)
  refine ⟨other, hnormal, hvalid, hfits, hsize.2, ?_⟩
  have hslice : (slice bytes 4 (bytes.length - 8)).length = bytes.length - 8 :=
    slice_length (by omega)
  rw [hitems, List.append_nil, hlength] at hslice
  rw [sealContainer_length rfl, hslice]
  omega

/-- Whatever an accepted manifest looked like, the image read from it is
written in as many bytes and read back unchanged. -/
theorem decode_normal_form {bytes : Bytes} {image : BinaryImage}
    (hrun : decode limits bytes = .ok image) :
    ∃ encoded, encode limits image {} = .ok encoded ∧
      encoded.length = bytes.length ∧ decode limits encoded = .ok image := by
  obtain ⟨data, hnormal, hvalid, hfits, hsize, hlength⟩ := decode_sound hrun
  have hdata : image.fileData = some data := by rw [hnormal]; rfl
  refine ⟨_, encode_ok hdata hvalid {}, hlength, ?_⟩
  exact (decode_sealContainer {} hvalid hfits (by rw [hlength]; exact hsize)).mpr
    ⟨(validate_selectedImage {} hvalid).mpr hvalid.relocations, hnormal⟩

/-- Unknown flags, a boolean of seven, a version beyond sixteen bits and debug
counts without their lists. -/
theorem decode_normal_form_loose :
    let bytes := sealContainer "BFMF" (u32Bytes 1 ++ u32Bytes 0xffff ++
      encodeHeader {} ++ u64Bytes 0 ++ u32Bytes 0 ++ u32Bytes 0 ++ u32Bytes 0 ++
      u32Bytes 0 ++ u32Bytes 1 ++ text "c" ++ text "puts" ++ u64Bytes 0 ++
      u64Bytes 0x2000 ++ [7] ++ u32Bytes 0 ++ u32Bytes 1 ++ u64Bytes 0 ++
      u64Bytes 12 ++ u32Bytes 0x10005 ++ [8] ++ u32Bytes 3 ++ u32Bytes 2 ++
      u32Bytes 1)
    ∃ image encoded, decode {} bytes = .ok image ∧
      encode {} image {} = .ok encoded ∧ encoded.length = bytes.length ∧
        decode {} encoded = .ok image := by
  intro bytes
  obtain ⟨image, hrun, -⟩ := toOption_bind_eq_some.mp
    (by decide +kernel : (decode {} bytes).toOption.bind
      (fun image => some image.imports.length) = some 1)
  obtain ⟨encoded, hencode, hlength, hdecode⟩ := decode_normal_form hrun
  exact ⟨image, encoded, hrun, hencode, hlength, hdecode⟩

end ImageManifestCodec
end BinForge
