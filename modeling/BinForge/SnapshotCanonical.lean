import BinForge.SnapshotPipeline

/-!
# The snapshot format is a bijection

A decoder that accepts a container has taken exactly the records the encoder
writes, so encoding what was decoded gives the container back; the other
direction is the round trip of the encoder's output.
-/

namespace BinForge

open StatefulExcept
open StreamCodec
open ListSplice
open ByteReader

namespace MemorySnapshotCodec

variable {limits : Limits} {data : Bytes} {snapshot : MemorySnapshot}

theorem decodeHeader_yields :
    Yields LittleAhead (decodeHeader limits) fun fields taken =>
      (fields.1 = 1 ∧ fields.2.2 ≤ limits.maxSegments ∧
        fields.2.1 ≤ limits.maxMappedBytes) ∧
      taken = u32Bytes fields.1 ++ (u64Bytes fields.2.1 ++
        u32Bytes fields.2.2) := by
  refine Yields.adaptError _ ?_
  refine readU32_yields.bind fun version _ hversion => ?_
  refine readU64_yields.bind fun mappedBytes _ hmapped => ?_
  refine readU32_yields.bind fun count _ hcount => ?_
  refine Yields.rejectIf fun hone => Yields.rejectIf fun hsegments =>
    Yields.rejectIf fun hbytes => Yields.pure ⟨⟨?_, ?_, ?_⟩, ?_⟩
  · exact not_not.mp hone
  · exact UInt32.not_lt.mp hsegments
  · exact UInt64.not_lt.mp hbytes
  · rw [hversion, hmapped, hcount, List.append_nil]

theorem decodeRegionHeader_yields :
    Yields LittleAhead (decodeRegionHeader limits) fun fields taken =>
      fields.2.2.2.toNat ≤ limits.maxStringBytes.toNat ∧
      taken = u64Bytes fields.1 ++ (u64Bytes fields.2.1 ++
        (fields.2.2.1 :: u32Bytes fields.2.2.2)) := by
  refine Yields.adaptError _ ?_
  refine readU64_yields.bind fun base _ hbase => ?_
  refine readU64_yields.bind fun size _ hsize => ?_
  refine readU8_yields.bind fun permissions _ hpermissions => ?_
  refine readU32_yields.bind fun nameSize _ hnameSize => ?_
  refine Yields.rejectIf fun hlimit => Yields.rejectIf_state
    (Yields.pure ⟨?_, ?_⟩)
  · rwa [gt_iff_lt, UInt64.lt_iff_toNat_lt, UInt32.toNat_toUInt64,
      not_lt] at hlimit
  · rw [hbase, hsize, hpermissions, hnameSize, List.append_nil,
      List.singleton_append]

theorem decodeRegionData_yields (nameSize : UInt32) :
    Yields LittleAhead (decodeRegionData limits nameSize) fun fields taken =>
      (fields.1.length = nameSize.toNat ∧
        fields.2.2.toNat ≤ limits.maxMappedBytes.toNat) ∧
      taken = fields.1 ++ (u32Bytes fields.2.1 ++ u64Bytes fields.2.2) := by
  refine Yields.adaptError _ ?_
  refine (readBytes_yields _).bind fun name _ hname => ?_
  refine readU32_yields.bind fun checksum _ hchecksum => ?_
  refine readU64_yields.bind fun byteSize _ hbyteSize => ?_
  refine Yields.rejectIf fun hlimit => Yields.rejectIf_state
    (Yields.pure ⟨⟨?_, ?_⟩, ?_⟩)
  · rw [hname.1, hname.2]
  · exact UInt64.le_iff_toNat_le.mp (UInt64.not_lt.mp hlimit)
  · rw [hname.1, hchecksum, hbyteSize, List.append_nil]

/-- An accepted region is one the encoder writes as the bytes it was read
from. -/
theorem decodeRegion_yields :
    Yields LittleAhead (decodeRegion limits) fun region taken =>
      Encodable limits region ∧ taken = regionRecord region := by
  refine decodeRegionHeader_yields.bind fun header _ hheader => ?_
  obtain ⟨base, size, permissions, nameSize⟩ := header
  refine (decodeRegionData_yields nameSize).bind fun fields _ hfields => ?_
  obtain ⟨name, checksum, byteSize⟩ := fields
  refine ((readBytes_yields _).adaptError _).bind fun bytes _ hbytes => ?_
  obtain ⟨hnameLimit, hheader⟩ := hheader
  obtain ⟨⟨hname, hbyteLimit⟩, hfields⟩ := hfields
  obtain ⟨rfl, hlength⟩ := hbytes
  dsimp only at hname hbyteLimit hheader hfields hnameLimit
  refine Yields.pure ⟨⟨?_, ?_, ?_⟩, ?_⟩
  · exact hname.trans_le hnameLimit
  · exact hname.trans_lt nameSize.toNat_lt
  · exact hlength.trans_le hbyteLimit
  · rw [regionRecord, hheader, hfields]
    dsimp only
    rw [hname, hlength, UInt32.ofNat_toNat, UInt64.ofNat_toNat]
    simp only [List.append_assoc, List.cons_append, List.append_nil]

theorem decodeBody_sound
    (hrun : evaluate (decodeBody limits) { data := data } = .ok snapshot) :
    data = bodyRecord snapshot ∧ snapshot.version = 1 ∧
      snapshot.regions.length ≤ limits.maxSegments.toNat ∧
      snapshot.mappedBytes ≤ limits.maxMappedBytes ∧
      ∀ region ∈ snapshot.regions, Encodable limits region := by
  obtain ⟨last, hrun⟩ := evaluate_eq_ok.mp hrun
  have hstart : LittleAhead { data := data } data :=
    ⟨rfl, Nat.zero_le _, rfl⟩
  unfold decodeBody at hrun
  obtain ⟨⟨version, mappedBytes, count⟩, afterHeader, hheader, hrun⟩ :=
    bind_eq_ok.mp hrun
  obtain ⟨regions, afterRegions, hregions, hrun⟩ := bind_eq_ok.mp hrun
  rw [bind_of_ok (get_apply afterRegions)] at hrun
  obtain ⟨hdone, hrun⟩ := rejectIf_bind_eq_ok.mp hrun
  rw [pure_eq_ok] at hrun
  obtain ⟨rfl, rfl⟩ := hrun
  obtain ⟨front, between, hitems, hmiddle, hfields, hfront⟩ :=
    decodeHeader_yields _ _ _ _ hstart hheader
  obtain ⟨table, tail, rfl, hlast, hencodable, hcount, htable⟩ :=
    decodeRegion_yields.collect _ _ _ _ _ hmiddle hregions
  rw [not_not, hlast.remaining] at hdone
  obtain rfl := List.eq_nil_of_length_eq_zero hdone
  refine ⟨?_, hfields.1, ?_, hfields.2.2, hencodable⟩
  · rw [hitems, bodyRecord, headerRecord, hfront, htable, List.append_nil,
      hcount, UInt32.ofNat_toNat]
  · rw [hcount]
    exact UInt32.le_iff_toNat_le.mp hfields.2.1

theorem encode_of_decode (hrun : decode limits data = .ok snapshot) :
    encode limits snapshot = .ok data := by
  obtain ⟨hcontainer, hrun⟩ := rejectIf_except_bind_eq_ok.mp hrun
  obtain ⟨hchecksum, hrun⟩ := rejectIf_except_bind_eq_ok.mp hrun
  rw [not_or, not_or, not_not, not_lt] at hcontainer
  obtain ⟨hbody, _, hcount, hmapped, hregions⟩ := decodeBody_sound hrun
  rw [encode_ok hcount hmapped hregions, container, ← hbody,
    ← sealContainer_of_checked (by omega) hcontainer.2.1 (not_not.mp hchecksum)]

/-- An accepted container is what its snapshot encodes to, and a snapshot
within the limits is what its container decodes to. -/
theorem format_bijective (hstring : limits.maxStringBytes.toNat < 2 ^ 32) :
    (∀ data snapshot, decode limits data = .ok snapshot →
      encode limits snapshot = .ok data) ∧
    ∀ snapshot : MemorySnapshot, snapshot.version = 1 →
      snapshot.mappedBytes ≤ limits.maxMappedBytes →
      snapshot.regions.length ≤ limits.maxSegments.toNat →
      (∀ region ∈ snapshot.regions,
        region.name.length ≤ limits.maxStringBytes.toNat ∧
          region.bytes.length ≤ limits.maxMappedBytes.toNat) →
      limits.maxMappedBytes.toNat + limits.maxFileSize.toNat < 2 ^ 64 →
      ∃ data, encode limits snapshot = .ok data ∧
        (data.length ≤
            limits.maxMappedBytes.toNat + limits.maxFileSize.toNat →
          decode limits data = .ok snapshot) := by
  refine ⟨fun data snapshot => encode_of_decode, ?_⟩
  intro snapshot hversion hmapped hcount hregions hnowrap
  have hencodable : ∀ region ∈ snapshot.regions, Encodable limits region :=
    fun region hregion =>
      ⟨(hregions region hregion).1,
        (hregions region hregion).1.trans_lt hstring,
        (hregions region hregion).2⟩
  refine ⟨container snapshot, encode_ok hcount hmapped hencodable, ?_⟩
  intro hsize
  refine decode_container hversion hcount hmapped hencodable ?_
  rwa [toNat_add_of_fit hnowrap]

theorem format_bijective_default :
    (∀ data snapshot, decode {} data = .ok snapshot →
      encode {} snapshot = .ok data) ∧
    ∀ snapshot : MemorySnapshot, snapshot.version = 1 →
      snapshot.mappedBytes ≤ ({} : Limits).maxMappedBytes →
      snapshot.regions.length ≤ ({} : Limits).maxSegments.toNat →
      (∀ region ∈ snapshot.regions,
        region.name.length ≤ ({} : Limits).maxStringBytes.toNat ∧
          region.bytes.length ≤ ({} : Limits).maxMappedBytes.toNat) →
      ({} : Limits).maxMappedBytes.toNat + ({} : Limits).maxFileSize.toNat <
        2 ^ 64 →
      ∃ data, encode {} snapshot = .ok data ∧
        (data.length ≤ ({} : Limits).maxMappedBytes.toNat +
            ({} : Limits).maxFileSize.toNat →
          decode {} data = .ok snapshot) :=
  format_bijective (by decide +kernel)

end MemorySnapshotCodec
end BinForge
