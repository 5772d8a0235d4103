import BinForge.Manifest
import BinForge.PatchCodec
import BinForge.ShiftRegister
import BinForge.Snapshot

/-!
# Corrupted containers are rejected

`crc32` runs a feedback shift register over the bytes, so a change of at most
four consecutive bytes always changes it.  Every decoder compares the trailer
with the checksum of what stands before it, and so rejects a container that
differs from an accepted one within four bytes on one side of the trailer.
-/

namespace BinForge

open StatefulExcept
open ShiftRegister
open ListSplice

/-! ## The checksum as a register -/

theorem crc32Bit_toBitVec (value : UInt32) :
    (crc32Bit value).toBitVec = step 0xedb88320#32 value.toBitVec := by
  have hparity : (value &&& 1).toNat = value.toNat % 2 := by
    rw [UInt32.toNat_and]
    exact Nat.and_one_is_mod _
  have hlow : value.toBitVec.getLsbD 0 = decide (value.toNat % 2 = 1) :=
    Nat.testBit_zero _
  unfold crc32Bit step
  rcases Nat.mod_two_eq_zero_or_one value.toNat with heven | hodd
  · have hzero : value &&& 1 = 0 := UInt32.toNat_inj.mp (hparity.trans heven)
    rw [hzero, hlow, heven]
    simp
  · have hone : value &&& 1 = 1 := UInt32.toNat_inj.mp (hparity.trans hodd)
    rw [hone, hlow, hodd]
    simp

theorem iterate_crc32Bit_toBitVec (n : ℕ) (value : UInt32) :
    (crc32Bit^[n] value).toBitVec =
      (step 0xedb88320#32)^[n] value.toBitVec := by
  induction n generalizing value with
  | zero => rfl
  | succ n ih =>
      rw [Function.iterate_succ_apply, ih, crc32Bit_toBitVec]
      rfl

/-- A byte as a block of the register. -/
def blockOf (byte : UInt8) : BitVec 32 := byte.toUInt32.toBitVec

theorem blockOf_lt (byte : UInt8) : (blockOf byte).toNat < 2 ^ 8 := by
  show byte.toUInt32.toNat < 2 ^ 8
  rw [UInt8.toNat_toUInt32]
  exact byte.toNat_lt

theorem blockOf_injective : Function.Injective blockOf := by
  intro left right hsame
  have hword := UInt32.toBitVec_inj.mp hsame
  have hnat := congrArg UInt32.toNat hword
  rw [UInt8.toNat_toUInt32, UInt8.toNat_toUInt32] at hnat
  exact UInt8.toNat_inj.mp hnat

theorem crc32Byte_toBitVec (value : UInt32) (byte : UInt8) :
    (crc32Byte value byte).toBitVec =
      absorb 0xedb88320#32 8 value.toBitVec (blockOf byte) := by
  show (crc32Bit^[8] (value ^^^ byte.toUInt32)).toBitVec = _
  rw [iterate_crc32Bit_toBitVec, UInt32.toBitVec_xor]
  rfl

theorem foldl_crc32Byte_toBitVec (bytes : Bytes) (value : UInt32) :
    (bytes.foldl crc32Byte value).toBitVec =
      (bytes.map blockOf).foldl (absorb 0xedb88320#32 8) value.toBitVec := by
  induction bytes generalizing value with
  | nil => rfl
  | cons byte bytes ih =>
      rw [List.foldl_cons, ih, crc32Byte_toBitVec]
      rfl

/-- A change of at most four consecutive bytes changes the checksum. -/
theorem crc32_burst {front left right back : Bytes}
    (hlength : left.length = right.length) (hshort : left.length ≤ 4)
    (hsame : crc32 (front ++ left ++ back) = crc32 (front ++ right ++ back)) :
    left = right := by
  have hstates := congrArg UInt32.toBitVec (UInt32.not_inj.mp hsame)
  rw [foldl_crc32Byte_toBitVec, foldl_crc32Byte_toBitVec] at hstates
  simp only [List.map_append] at hstates
  have hblocks := burst_detected (k := 8) (by decide)
    (by simpa using fun byte _ => blockOf_lt byte)
    (by simpa using fun byte _ => blockOf_lt byte)
    (by simpa using hlength) (by simpa using by omega) hstates
  exact blockOf_injective.list_map hblocks

/-! ## Changes within a window -/

/-- Equal checksums leave no room for a difference within four bytes. -/
theorem eq_of_crc32_eq {first second : Bytes} {start size : ℕ}
    (hlength : second.length = first.length) (hsize : size ≤ 4)
    (hfit : start + size ≤ first.length)
    (houtside : ∀ i, ¬(start ≤ i ∧ i < start + size) → second[i]? = first[i]?)
    (hsame : crc32 second = crc32 first) : second = first := by
  have hfront : second.take start = first.take start :=
    take_congr fun i hi => houtside i (by omega)
  have hback : second.drop (start + size) = first.drop (start + size) :=
    drop_congr fun i hi => houtside i (by omega)
  have hfirst := slice_length hfit
  have hsecond := slice_length (by rw [hlength]; exact hfit)
  rw [← take_slice_drop second start size, ← take_slice_drop first start size,
    hfront, hback] at hsame ⊢
  rw [crc32_burst (hsecond.trans hfirst.symm) (hsecond.trans_le hsize) hsame]

/-- The second container has the length of the first and differs from it, but
only within at most four consecutive bytes on one side of the trailer. -/
structure Corrupted (data other : Bytes) : Prop where
  length : other.length = data.length
  differs : other ≠ data
  window : ∃ start size, size ≤ 4 ∧
    (start + size ≤ data.length - 4 ∨
      data.length - 4 ≤ start ∧ start + size ≤ data.length) ∧
    ∀ i, ¬(start ≤ i ∧ i < start + size) → other[i]? = data[i]?

/-- A corrupted container does not carry its own checksum. -/
theorem Corrupted.checksum_ne {data other : Bytes}
    (hcorrupted : Corrupted data other) (hlong : 4 ≤ data.length)
    (hvalid : trailerWord data = crc32 (data.take (data.length - 4))) :
    trailerWord other ≠ crc32 (other.take (other.length - 4)) := by
  intro hother
  obtain ⟨hlength, hdiffers, start, size, hsize, hplace, houtside⟩ := hcorrupted
  have htrailer := u32Bytes_trailerWord hlong
  have hotherTrailer := u32Bytes_trailerWord (hlength ▸ hlong)
  rw [hlength] at hother hotherTrailer
  have hrejoin : other.take (data.length - 4) = data.take (data.length - 4) →
      other.drop (data.length - 4) = data.drop (data.length - 4) →
        other = data := by
    intro htake hdrop
    rw [← List.take_append_drop (data.length - 4) other, htake, hdrop,
      List.take_append_drop]
  apply hdiffers
  rcases hplace with hbefore | ⟨hinside, _⟩
  · -- The trailer is the same, so the two checksums are.
    have hdrop : other.drop (data.length - 4) = data.drop (data.length - 4) :=
      drop_congr fun i hi => houtside i (by omega)
    have hwords : trailerWord other = trailerWord data := by
      rw [← ByteReader.joinU32_u32Bytes (trailerWord other), hotherTrailer,
        hdrop, ← htrailer, ByteReader.joinU32_u32Bytes]
    have hagree : ∀ i, ¬(start ≤ i ∧ i < start + size) →
        (other.take (data.length - 4))[i]? =
          (data.take (data.length - 4))[i]? := by
      intro i hi
      rw [List.getElem?_take, List.getElem?_take, houtside i hi]
    have hfit : start + size ≤ (data.take (data.length - 4)).length := by
      rw [List.length_take]
      omega
    exact hrejoin (eq_of_crc32_eq (by simp [hlength]) hsize hfit hagree
      (hother.symm.trans (hwords.trans hvalid))) hdrop
  · -- The summed part is the same, so the two trailers are.
    have htake : other.take (data.length - 4) = data.take (data.length - 4) :=
      take_congr fun i hi => houtside i (by omega)
    refine hrejoin htake ?_
    rw [← htrailer, ← hotherTrailer, hother, htake, ← hvalid]

/-! ## The three decoders -/

theorem ImageManifestCodec.decode_checked {limits : Limits} {data : Bytes}
    {image : BinaryImage} (hrun : decode limits data = .ok image) :
    4 ≤ data.length ∧
      trailerWord data = crc32 (data.take (data.length - 4)) := by
  obtain ⟨hsize, hrun⟩ := rejectIf_except_bind_eq_ok.mp hrun
  obtain ⟨_, hrun⟩ := rejectIf_except_bind_eq_ok.mp hrun
  obtain ⟨hchecksum, _⟩ := rejectIf_except_bind_eq_ok.mp hrun
  rw [not_or] at hsize
  exact ⟨by omega, (not_not.mp hchecksum).symm⟩

theorem MemorySnapshotCodec.decode_checked {limits : Limits} {data : Bytes}
    {snapshot : MemorySnapshot} (hrun : decode limits data = .ok snapshot) :
    4 ≤ data.length ∧
      trailerWord data = crc32 (data.take (data.length - 4)) := by
  obtain ⟨hsize, hrun⟩ := rejectIf_except_bind_eq_ok.mp hrun
  obtain ⟨hchecksum, _⟩ := rejectIf_except_bind_eq_ok.mp hrun
  rw [not_or] at hsize
  exact ⟨by omega, not_not.mp hchecksum⟩

theorem PatchEngine.decode_checked {limits : Limits} {data : Bytes}
    {plan : PatchPlan} (hrun : decode limits data = .ok plan) :
    4 ≤ data.length ∧
      trailerWord data = crc32 (data.take (data.length - 4)) := by
  obtain ⟨hsize, hrun⟩ := rejectIf_except_bind_eq_ok.mp hrun
  obtain ⟨hchecksum, _⟩ := rejectIf_except_bind_eq_ok.mp hrun
  rw [not_or] at hsize
  exact ⟨by omega, not_not.mp hchecksum⟩

/-- A decoder that accepts checked containers only rejects every corruption of
one it accepts. -/
theorem Corrupted.rejected {α : Type} {decode : Bytes → Except Failure α}
    (hdecode : ∀ data value, decode data = .ok value → 4 ≤ data.length ∧
      trailerWord data = crc32 (data.take (data.length - 4)))
    {data other : Bytes} {value : α} (hcorrupted : Corrupted data other)
    (hrun : decode data = .ok value) : ∃ why, decode other = .error why := by
  obtain ⟨hlong, hvalid⟩ := hdecode data value hrun
  cases hother : decode other with
  | error why => exact ⟨why, rfl⟩
  | ok found =>
      exact absurd (hdecode other found hother).2
        (hcorrupted.checksum_ne hlong hvalid)

/-- Each of the three decoders rejects every corruption of a container it
accepts. -/
theorem decode_corrupted (limits : Limits) {data other : Bytes}
    (hcorrupted : Corrupted data other) :
    (∀ image, ImageManifestCodec.decode limits data = .ok image →
      ∃ why, ImageManifestCodec.decode limits other = .error why) ∧
    (∀ snapshot, MemorySnapshotCodec.decode limits data = .ok snapshot →
      ∃ why, MemorySnapshotCodec.decode limits other = .error why) ∧
    ∀ plan, PatchEngine.decode limits data = .ok plan →
      ∃ why, PatchEngine.decode limits other = .error why :=
  ⟨fun _ => hcorrupted.rejected fun _ _ => ImageManifestCodec.decode_checked,
    fun _ => hcorrupted.rejected fun _ _ => MemorySnapshotCodec.decode_checked,
    fun _ => hcorrupted.rejected fun _ _ => PatchEngine.decode_checked⟩

/-- The container of the empty snapshot, and the same with its version
changed. -/
theorem decode_corrupted_empty_snapshot :
    let data := sealContainer "BFSN" (u32Bytes 1 ++ (u64Bytes 0 ++ u32Bytes 0))
    MemorySnapshotCodec.decode {} data = .ok {} ∧
      (∀ image, ImageManifestCodec.decode {} data = .ok image →
        ∃ why, ImageManifestCodec.decode {} (data.set 4 2) = .error why) ∧
      (∀ snapshot, MemorySnapshotCodec.decode {} data = .ok snapshot →
        ∃ why, MemorySnapshotCodec.decode {} (data.set 4 2) = .error why) ∧
      ∀ plan, PatchEngine.decode {} data = .ok plan →
        ∃ why, PatchEngine.decode {} (data.set 4 2) = .error why := by
  intro data
  refine ⟨by decide +kernel, decode_corrupted {} ⟨by simp, by decide +kernel,
    4, 1, by decide, Or.inl (by decide +kernel), fun i hi => ?_⟩⟩
  exact List.getElem?_set_ne (by omega)

end BinForge
