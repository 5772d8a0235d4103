import BinForge.MemoryInvariant
import BinForge.Snapshot

/-!
# The snapshot pipeline is lossless

A snapshot container is read back field by field, and the regions of a
well-formed address space can be mapped and written again one after the other,
because each starts where the ones before it have ended.
-/

namespace BinForge

open StatefulExcept
open StreamCodec
open ListSplice
open ByteReader

namespace MemorySnapshotCodec

/-! ## Reading a container back -/

/-- The sizes the container's fields and the decoder's limits have room for. -/
structure Encodable (limits : Limits) (region : SnapshotRegion) : Prop where
  name : region.name.length ≤ limits.maxStringBytes.toNat
  nameWord : region.name.length < 2 ^ 32
  bytes : region.bytes.length ≤ limits.maxMappedBytes.toNat

theorem nameSize_toNat {limits : Limits} {region : SnapshotRegion}
    (hregion : Encodable limits region) :
    (UInt32.ofNat region.name.length).toNat = region.name.length :=
  UInt32.toNat_ofNat_of_lt' hregion.nameWord

theorem byteSize_toNat {limits : Limits} {region : SnapshotRegion}
    (hregion : Encodable limits region) :
    (UInt64.ofNat region.bytes.length).toNat = region.bytes.length := by
  have hlimit := limits.maxMappedBytes.toNat_lt
  have hbytes := hregion.bytes
  have hlt : region.bytes.length < 2 ^ 64 := by omega
  exact UInt64.toNat_ofNat_of_lt' hlt

theorem decodeRegionHeader_consumes {limits : Limits} {region : SnapshotRegion}
    (hregion : Encodable limits region) :
    Consumes LittleAhead region.name.length (decodeRegionHeader limits)
      (u64Bytes region.base ++ (u64Bytes region.size ++ ([region.permissions] ++
        u32Bytes (UInt32.ofNat region.name.length))))
      (region.base, region.size, region.permissions,
        UInt32.ofNat region.name.length) := by
  have hname := nameSize_toNat hregion
  refine Consumes.adaptError _ ?_
  refine (readU64_consumes _).bind ((readU64_consumes _).bind
    ((readU8_consumes _).bind ?_))
  rw [← List.append_nil (u32Bytes _)]
  refine (readU32_consumes _).bind (Consumes.rejectIf ?_ ?_)
  · rw [gt_iff_lt, UInt64.lt_iff_toNat_lt, UInt32.toNat_toUInt64, hname]
    exact not_lt.mpr hregion.name
  · refine Consumes.rejectIf_state ?_ (Consumes.pure _)
    intro cursor tail htail hahead
    rw [hahead.remaining, hname]
    exact not_lt.mpr htail

theorem decodeRegionData_consumes {limits : Limits} {region : SnapshotRegion}
    (hregion : Encodable limits region) :
    Consumes LittleAhead region.bytes.length
      (decodeRegionData limits (UInt32.ofNat region.name.length))
      (region.name ++ (u32Bytes region.checksum ++
        u64Bytes (UInt64.ofNat region.bytes.length)))
      (region.name, region.checksum, UInt64.ofNat region.bytes.length) := by
  have hbytes := byteSize_toNat hregion
  refine Consumes.adaptError _ ?_
  rw [nameSize_toNat hregion]
  refine (readBytes_consumes _).bind ((readU32_consumes _).bind ?_)
  rw [← List.append_nil (u64Bytes _)]
  refine (readU64_consumes _).bind (Consumes.rejectIf ?_ ?_)
  · rw [gt_iff_lt, UInt64.lt_iff_toNat_lt, hbytes]
    exact not_lt.mpr hregion.bytes
  · refine Consumes.rejectIf_state ?_ (Consumes.pure _)
    intro cursor tail htail hahead
    rw [hahead.remaining, hbytes]
    exact not_lt.mpr htail

theorem decodeRegion_consumes {limits : Limits} {region : SnapshotRegion}
    (hregion : Encodable limits region) :
    Consumes LittleAhead 0 (decodeRegion limits) (regionRecord region)
      region := by
  have hbytes : Consumes LittleAhead 0 (adaptError (fun _ _ => Failure.silent)
      (readBytes (UInt64.ofNat region.bytes.length).toNat)) region.bytes
      region.bytes := by
    rw [byteSize_toNat hregion]
    exact (readBytes_consumes _).adaptError _
  have hrecord : regionRecord region =
      (u64Bytes region.base ++ (u64Bytes region.size ++ ([region.permissions] ++
        u32Bytes (UInt32.ofNat region.name.length)))) ++
        ((region.name ++ (u32Bytes region.checksum ++
          u64Bytes (UInt64.ofNat region.bytes.length))) ++ region.bytes) := by
    simp [regionRecord]
  rw [hrecord]
  refine (decodeRegionHeader_consumes hregion).bind_room _ ?_
    ((decodeRegionData_consumes hregion).bind_room _ le_rfl
      (hbytes.bind_last (Consumes.pure _)))
  simp only [List.length_append]
  omega

theorem decodeHeader_consumes {limits : Limits} {snapshot : MemorySnapshot}
    (hversion : snapshot.version = 1)
    (hcount : snapshot.regions.length ≤ limits.maxSegments.toNat)
    (hmapped : snapshot.mappedBytes ≤ limits.maxMappedBytes) :
    Consumes LittleAhead 0 (decodeHeader limits) (headerRecord snapshot)
      (snapshot.version, snapshot.mappedBytes,
        UInt32.ofNat snapshot.regions.length) := by
  refine Consumes.adaptError _ ?_
  refine (readU32_consumes _).bind ((readU64_consumes _).bind
    ((readU32_consumes _).bind_last ?_))
  refine Consumes.rejectIf (not_not.mpr hversion) (Consumes.rejectIf ?_
    (Consumes.rejectIf (UInt64.not_lt.mpr hmapped) (Consumes.pure _)))
  have hlimit := limits.maxSegments.toNat_lt
  have hlt : snapshot.regions.length < 2 ^ 32 := by omega
  rw [gt_iff_lt, UInt32.lt_iff_toNat_lt, UInt32.toNat_ofNat_of_lt' hlt]
  exact not_lt.mpr hcount

/-- The body of the container: everything between signature and checksum. -/
def bodyRecord (snapshot : MemorySnapshot) : Bytes :=
  headerRecord snapshot ++ snapshot.regions.flatMap regionRecord

theorem decodeBody_bodyRecord {limits : Limits} {snapshot : MemorySnapshot}
    (hversion : snapshot.version = 1)
    (hcount : snapshot.regions.length ≤ limits.maxSegments.toNat)
    (hmapped : snapshot.mappedBytes ≤ limits.maxMappedBytes)
    (hregions : ∀ region ∈ snapshot.regions, Encodable limits region) :
    evaluate (decodeBody limits) { data := bodyRecord snapshot } =
      .ok snapshot := by
  have hlimit := limits.maxSegments.toNat_lt
  have hlt : snapshot.regions.length < 2 ^ 32 := by omega
  have hstart : LittleAhead { data := bodyRecord snapshot }
      (headerRecord snapshot ++ snapshot.regions.flatMap regionRecord) :=
    ⟨rfl, Nat.zero_le _, rfl⟩
  obtain ⟨afterHeader, hheader, hahead⟩ :=
    decodeHeader_consumes hversion hcount hmapped _ _ (Nat.zero_le _) hstart
  have htable := Consumes.collect id fun region hregion =>
    decodeRegion_consumes (hregions region hregion)
  rw [List.map_id] at htable
  rw [← List.append_nil (snapshot.regions.flatMap _)] at hahead
  obtain ⟨last, hrun, hlast⟩ := htable _ _ (Nat.zero_le _) hahead
  refine evaluate_of_ok (?_ : _ = EStateM.Result.ok _ last)
  unfold decodeBody
  rw [bind_of_ok hheader]
  dsimp only
  rw [UInt32.toNat_ofNat_of_lt' hlt, bind_of_ok hrun,
    bind_of_ok (get_apply last),
    rejectIf_bind_of_not (by rw [hlast.remaining]; simp), pure_apply]

def container (snapshot : MemorySnapshot) : Bytes :=
  sealContainer "BFSN" (bodyRecord snapshot)

theorem encodeRegions_ok {limits : Limits} {regions : List SnapshotRegion}
    (output : Bytes)
    (hregions : ∀ region ∈ regions, Encodable limits region) :
    encodeRegions limits output regions =
      .ok (output ++ regions.flatMap regionRecord) := by
  induction regions generalizing output with
  | nil => simp [encodeRegions]
  | cons region regions ih =>
      have hregion := hregions region List.mem_cons_self
      have htail := ih (output ++ regionRecord region) fun other hother =>
        hregions other (List.mem_cons_of_mem _ hother)
      refine rejectIf_except_bind_eq_ok.mpr ⟨?_, ?_⟩
      · exact not_or.mpr ⟨not_lt.mpr hregion.name, not_lt.mpr hregion.bytes⟩
      · rw [htail, List.flatMap_cons, List.append_assoc]

theorem encode_ok {limits : Limits} {snapshot : MemorySnapshot}
    (hcount : snapshot.regions.length ≤ limits.maxSegments.toNat)
    (hmapped : snapshot.mappedBytes ≤ limits.maxMappedBytes)
    (hregions : ∀ region ∈ snapshot.regions, Encodable limits region) :
    encode limits snapshot = .ok (container snapshot) := by
  refine rejectIf_except_bind_eq_ok.mpr ⟨?_, ?_⟩
  · exact not_or.mpr ⟨not_lt.mpr hcount, UInt64.not_lt.mpr hmapped⟩
  · rw [encodeRegions_ok _ hregions, List.append_assoc]
    rfl

theorem decode_container {limits : Limits} {snapshot : MemorySnapshot}
    (hversion : snapshot.version = 1)
    (hcount : snapshot.regions.length ≤ limits.maxSegments.toNat)
    (hmapped : snapshot.mappedBytes ≤ limits.maxMappedBytes)
    (hregions : ∀ region ∈ snapshot.regions, Encodable limits region)
    (hsize : (container snapshot).length ≤
      (limits.maxMappedBytes + limits.maxFileSize).toNat) :
    decode limits (container snapshot) = .ok snapshot := by
  have hsignature : (ascii "BFSN").length = 4 := rfl
  have hheader : (headerRecord snapshot).length = 16 := by simp [headerRecord]
  have hlength : (sealContainer "BFSN" (bodyRecord snapshot)).length =
      8 + (bodyRecord snapshot).length := sealContainer_length hsignature
  rw [bodyRecord, List.length_append, hheader] at hlength
  refine rejectIf_except_bind_eq_ok.mpr ⟨?_,
    rejectIf_except_bind_eq_ok.mpr ⟨?_, ?_⟩⟩
  · refine not_or.mpr ⟨?_, not_or.mpr ⟨?_, not_lt.mpr hsize⟩⟩
    · rw [container, bodyRecord, hlength]
      omega
    · exact not_not.mpr (sealContainer_signature hsignature)
  · exact not_not.mpr (sealContainer_checksum hsignature)
  · rw [container, sealContainer_body hsignature]
    exact decodeBody_bodyRecord hversion hcount hmapped hregions

/-! ## Rebuilding the regions -/

open AddressSpace

variable {memory staged : AddressSpace}

theorem restoreRegions_cons {limits : Limits} (hstaged : staged.WellFormed)
    (hlimits : staged.limits = limits) {region : MemoryRegion}
    (hpositive : 0 < region.size.toNat)
    (hstored : region.bytes.length = region.size.toNat)
    (hbounded : region.stop < 2 ^ 64)
    (hname : region.name.length ≤ limits.maxStringBytes.toNat)
    (hbefore : ∀ entry ∈ staged.regions.entries,
      entry.2.stop ≤ region.base.toNat)
    (hbudget : staged.mappedBytes.toNat + region.size.toNat ≤
      limits.maxMappedBytes.toNat) (rest : List SnapshotRegion) :
    restoreRegions limits staged.mappedBytes
        (captureRegion true region :: rest) staged =
      restoreRegions limits (staged.withRegion region).mappedBytes rest
        (staged.withRegion region) := by
  have hlimit := limits.maxMappedBytes.toNat_lt
  have hsize : region.size ≠ 0 := by
    rintro hzero
    rw [hzero, UInt64.toNat_zero] at hpositive
    omega
  have hbytes : region.bytes ≠ [] := by
    intro hnil
    rw [hnil, List.length_nil] at hstored
    omega
  have hsum : (staged.mappedBytes + region.size).toNat =
      staged.mappedBytes.toNat + region.size.toNat :=
    toNat_add_of_fit (by omega)
  have hroom : staged.mappedBytes + region.size ≤ limits.maxMappedBytes := by
    rw [UInt64.le_iff_toNat_le, hsum]
    exact hbudget
  have hmap := map_succeeds hstaged region.permissions region.name hsize
    hbounded (fun entry hentry => Or.inr (hbefore entry hentry))
    (by omega) (by rw [hlimits]; exact hroom)
  have hwrite := write_fresh_whole hstaged hmap hstored
  have hvalid : ¬(region.size = 0 ∨ region.size > limits.maxMappedBytes ∨
      region.name.length > limits.maxStringBytes.toNat ∨
      (region.bytes ≠ [] ∧ region.bytes.length ≠ region.size.toNat)) := by
    rw [gt_iff_lt, UInt64.lt_iff_toNat_lt]
    simp only [not_or, not_and, not_not]
    exact ⟨hsize, by omega, by omega, fun _ => hstored⟩
  rw [restoreRegions]
  simp only [captureRegion, if_true]
  rw [rejectIf_bind_of_not hvalid, checkedAdd_of_fit (by omega)]
  show (rejectIf (staged.mappedBytes + region.size > limits.maxMappedBytes) _ >>=
    _ : MemoryCall UInt64) staged = _
  rw [rejectIf_bind_of_not (UInt64.not_lt.mpr hroom), bind_of_ok hmap,
    if_pos hbytes, rejectIf_bind_of_not (not_not.mpr rfl), bind_of_ok hwrite]
  rfl

theorem restoreRegions_rest {limits : Limits} (hmemory : memory.WellFormed)
    (hbudget : memory.mappedBytes ≤ limits.maxMappedBytes)
    (hnames : ∀ entry ∈ memory.regions.entries,
      entry.2.name.length ≤ limits.maxStringBytes.toNat)
    {done rest : List (UInt64 × MemoryRegion)}
    (hsplit : memory.regions.entries = done ++ rest)
    (hstaged : staged.WellFormed) (hlimits : staged.limits = limits)
    (hdone : staged.regions.entries = done) :
    ∃ last, restoreRegions limits staged.mappedBytes
        (rest.map fun item => captureRegion true item.2) staged =
          .ok last.mappedBytes last ∧
      last.WellFormed ∧ last.regions.entries = memory.regions.entries := by
  induction rest generalizing staged done with
  | nil =>
      refine ⟨staged, rfl, hstaged, ?_⟩
      rw [hdone, hsplit, List.append_nil]
  | cons item rest ih =>
      obtain ⟨key, region⟩ := item
      have hmem : (key, region) ∈ memory.regions.entries := by
        rw [hsplit]
        simp
      have hkey : key = region.base := hmemory.region_keyed hmem
      subst hkey
      have hsorted := memory.regions.sorted
      have hseparated := hmemory.separated
      unfold OrderedMap.Separated at hseparated
      rw [hsplit] at hsorted hseparated
      have hbelow : ∀ entry ∈ staged.regions.entries,
          entry.1 < region.base := by
        rw [hdone]
        exact fun entry hentry => (List.pairwise_append.mp hsorted).2.2 entry
          hentry _ List.mem_cons_self
      have hbefore : ∀ entry ∈ staged.regions.entries,
          entry.2.stop ≤ region.base.toNat := by
        rw [hdone]
        exact fun entry hentry => (List.pairwise_append.mp hseparated).2.2 entry
          hentry _ List.mem_cons_self
      have htotal : staged.mappedBytes.toNat + region.size.toNat ≤
          limits.maxMappedBytes.toNat := by
        have hcounted := hmemory.counted
        rw [hsplit, List.map_append, List.sum_append, List.map_cons,
          List.sum_cons, ← hdone, ← hstaged.counted] at hcounted
        have hmapped := UInt64.le_iff_toNat_le.mp hbudget
        dsimp only at hcounted
        omega
      have hlimit := limits.maxMappedBytes.toNat_lt
      have hpositive : 0 < region.size.toNat := hmemory.nonempty _ hmem
      have hstored : region.bytes.length = region.size.toNat :=
        hmemory.stored _ hmem
      have hbounded : region.stop < 2 ^ 64 := hmemory.bounded _ hmem
      have hnext := hstaged.withRegion hpositive hstored hbounded
        (fun entry hentry => Or.inr (hbefore entry hentry)) (by omega) (by
          rw [hlimits, UInt64.le_iff_toNat_le, toNat_add_of_fit (by omega)]
          exact htotal)
      have hmoved : memory.regions.entries =
          (done ++ [(region.base, region)]) ++ rest := by
        rw [hsplit, List.append_assoc]
        rfl
      obtain ⟨last, hrun, hlast, hentries⟩ := ih hmoved hnext hlimits
        (by rw [AddressSpace.withRegion,
              OrderedMap.emplace_entries_of_lt region hbelow, hdone])
      refine ⟨last, ?_, hlast, hentries⟩
      rw [List.map_cons, restoreRegions_cons hstaged hlimits hpositive hstored
        hbounded (hnames _ hmem) hbefore htotal, hrun]

theorem stage_capture {limits : Limits} (hmemory : memory.WellFormed)
    (hbudget : memory.mappedBytes ≤ limits.maxMappedBytes)
    (hnames : ∀ entry ∈ memory.regions.entries,
      entry.2.name.length ≤ limits.maxStringBytes.toNat) :
    ∃ staged, stage limits
        { mappedBytes := memory.mappedBytes
          regions := memory.regions.entries.map fun item =>
            captureRegion true item.2 } = .ok staged ∧
      staged.regions = memory.regions ∧
      staged.mappedBytes = memory.mappedBytes := by
  obtain ⟨last, hrun, hlast, hentries⟩ := restoreRegions_rest hmemory hbudget
    hnames (List.nil_append memory.regions.entries).symm (new_wellFormed limits)
    rfl rfl
  have htotal : last.mappedBytes = memory.mappedBytes := by
    apply UInt64.toNat_inj.mp
    rw [hlast.counted, hmemory.counted, hentries]
  refine ⟨last, ?_, OrderedMap.ext hentries, htotal⟩
  refine evaluate_of_ok (?_ : _ = EStateM.Result.ok _ last)
  rw [bind_of_ok (show restoreRegions limits 0 _ (new limits) = _ from hrun),
    rejectIf_bind_of_not (not_not.mpr htotal.symm), get_apply]

/-- A captured region is no larger than the bytes mapped. -/
theorem captureRegion_encodable {limits : Limits}
    (hmemory : memory.WellFormed)
    (hmapped : memory.mappedBytes ≤ limits.maxMappedBytes)
    {entry : UInt64 × MemoryRegion}
    (hentry : entry ∈ memory.regions.entries)
    (hname : entry.2.name.length ≤ limits.maxStringBytes.toNat ∧
      entry.2.name.length < 2 ^ 32) :
    Encodable limits (captureRegion true entry.2) := by
  refine ⟨hname.1, hname.2, ?_⟩
  have hsize := List.single_le_sum (fun _ _ => Nat.zero_le _) _
    (List.mem_map_of_mem (f := fun entry : UInt64 × MemoryRegion =>
      entry.2.size.toNat) hentry)
  rw [← hmemory.counted] at hsize
  have hle := UInt64.le_iff_toNat_le.mp hmapped
  show entry.2.bytes.length ≤ _
  rw [hmemory.stored entry hentry]
  omega

/-- Capturing, encoding, decoding and restoring reproduces every region and
the byte total, whatever the target held. -/
theorem pipeline_lossless {limits : Limits} (hreachable : memory.Reachable)
    (hmapped : memory.mappedBytes ≤ limits.maxMappedBytes)
    (hcount : memory.regions.entries.length ≤ limits.maxSegments.toNat)
    (hnames : ∀ entry ∈ memory.regions.entries,
      entry.2.name.length ≤ limits.maxStringBytes.toNat ∧
        entry.2.name.length < 2 ^ 32)
    (hnowrap : limits.maxMappedBytes.toNat + limits.maxFileSize.toNat < 2 ^ 64)
    (hlength : ∀ encoded,
      encode limits (capture limits memory true).1 = .ok encoded →
        encoded.length ≤
          limits.maxMappedBytes.toNat + limits.maxFileSize.toNat)
    (target : AddressSpace) :
    ∃ snapshot encoded final,
      capture limits memory true = (snapshot, none) ∧
        encode limits snapshot = .ok encoded ∧
        decode limits encoded = .ok snapshot ∧
        restore limits snapshot target = .ok () final ∧
        final.regions = memory.regions ∧
        final.mappedBytes = memory.mappedBytes := by
  have hmemory := hreachable.wellFormed
  have hcapture : capture limits memory true =
      ({ mappedBytes := memory.mappedBytes
         regions := memory.regions.entries.map fun item =>
          captureRegion true item.2 }, none) := by
    rw [capture, if_neg]
    exact not_or.mpr ⟨UInt64.not_lt.mpr hmapped, not_lt.mpr hcount⟩
  rw [hcapture] at hlength
  obtain ⟨staged, hstage, hregions, htotal⟩ := stage_capture hmemory hmapped
    fun entry hentry => (hnames entry hentry).1
  have hsegments : (memory.regions.entries.map fun item =>
      captureRegion true item.2).length ≤ limits.maxSegments.toNat := by
    rwa [List.length_map]
  have hencodable : ∀ region ∈ memory.regions.entries.map fun item =>
      captureRegion true item.2, Encodable limits region := by
    intro region hregion
    obtain ⟨entry, hentry, rfl⟩ := List.mem_map.mp hregion
    exact captureRegion_encodable hmemory hmapped hentry (hnames entry hentry)
  have hencode : encode limits
      { mappedBytes := memory.mappedBytes
        regions := memory.regions.entries.map fun item =>
          captureRegion true item.2 } = .ok (container _) :=
    encode_ok hsegments hmapped hencodable
  refine ⟨_, _, staged, hcapture, hencode, ?_, ?_, hregions, htotal⟩
  · refine decode_container rfl hsegments hmapped hencodable ?_
    rw [toNat_add_of_fit hnowrap]
    exact hlength _ hencode
  · refine rejectIf_bind_eq_ok.mpr ⟨?_, ?_⟩
    · exact not_or.mpr ⟨not_not.mpr rfl,
        not_or.mpr ⟨UInt64.not_lt.mpr hmapped, not_lt.mpr hsegments⟩⟩
    · rw [liftExcept_bind_of_ok hstage, set_apply]

theorem pipeline_lossless_two_regions :
    let memory := (new {}).run
      [.map 0x1000 16 permissionRead "text", .map 0x2000 4 permissionWrite "data",
        .write 0x1002 [1, 2, 3] true]
    ∃ snapshot encoded final,
      capture {} memory true = (snapshot, none) ∧
        encode {} snapshot = .ok encoded ∧
        decode {} encoded = .ok snapshot ∧
        restore {} snapshot (new {}) = .ok () final ∧
        final.regions = memory.regions ∧
        final.mappedBytes = memory.mappedBytes := by
  intro memory
  refine pipeline_lossless (⟨_, _, rfl⟩ : memory.Reachable) (by decide +kernel)
    (by decide +kernel) (by decide +kernel) (by decide +kernel) ?_ (new {})
  intro encoded hencode
  have hlength : (encode {} (capture {} memory true).1).toOption.all
      (fun encoded => encoded.length ≤ 2 ^ 20) = true := by
    decide +kernel
  rw [hencode] at hlength
  have hsmall : encoded.length ≤ 2 ^ 20 := by simpa [Except.toOption] using hlength
  exact hsmall.trans (by decide +kernel)

end MemorySnapshotCodec
end BinForge
