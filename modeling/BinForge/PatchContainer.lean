import BinForge.PatchCodec

/-!
# Patch containers, both ways

What the decoder accepts is exactly what the encoder writes for the decoded
plan.  The converse fails at the limits only: the encoder compares the size
with the file limit after each operation but not after the trailer, and never
compares a payload with the section limit.
-/

namespace BinForge

open StatefulExcept
open StreamCodec
open ListSplice
open ByteReader

theorem PatchOperationKind.ofByte_toByte (kind : PatchOperationKind) :
    ofByte kind.toByte = kind := by
  cases kind <;> rfl

theorem PatchOperationKind.toByte_le (kind : PatchOperationKind) :
    kind.toByte ≤ assertBytes.toByte := by
  cases kind <;> decide

theorem PatchOperationKind.toByte_ofByte {byte : UInt8}
    (hbyte : byte ≤ assertBytes.toByte) : (ofByte byte).toByte = byte := by
  have hcases : ∀ n < 5, (ofByte (UInt8.ofNat n)).toByte = UInt8.ofNat n := by
    decide
  have hlt : byte.toNat < 5 :=
    Nat.lt_succ_of_le (UInt8.le_iff_toNat_le.mp hbyte)
  rw [← UInt8.ofNat_toNat (x := byte)]
  exact hcases _ hlt

theorem ByteOrder.ofByte_toByte (order : ByteOrder) :
    ofByte order.toByte = order := by
  cases order <;> rfl

theorem ByteOrder.toByte_le (order : ByteOrder) : order.toByte ≤ big.toByte := by
  cases order <;> decide

theorem ByteOrder.toByte_ofByte {byte : UInt8} (hbyte : byte ≤ big.toByte) :
    (ofByte byte).toByte = byte := by
  have hcases : ∀ n < 2, (ofByte (UInt8.ofNat n)).toByte = UInt8.ofNat n := by
    decide
  have hlt : byte.toNat < 2 :=
    Nat.lt_succ_of_le (UInt8.le_iff_toNat_le.mp hbyte)
  rw [← UInt8.ofNat_toNat (x := byte)]
  exact hcases _ hlt

namespace PatchEngine

variable {limits : Limits} {data : Bytes} {plan : PatchPlan}

/-! ## What the decoder has room for -/

structure OperationFits (limits : Limits) (operation : PatchOperation) :
    Prop where
  word : operation.bytes.length < 2 ^ 32
  limit : operation.bytes.length ≤ limits.maxSectionBytes.toNat

structure PlanFits (limits : Limits) (plan : PatchPlan) : Prop where
  name : plan.name.length ≤ limits.maxStringBytes.toNat
  nameWord : plan.name.length < 2 ^ 32
  count : plan.operations.length ≤ limits.maxRelocations.toNat
  operations : ∀ operation ∈ plan.operations, OperationFits limits operation

/-- The body of the container: everything between signature and checksum. -/
def bodyRecord (plan : PatchPlan) : Bytes :=
  planRecord plan ++ plan.operations.flatMap operationRecord

def container (plan : PatchPlan) : Bytes :=
  sealContainer "BFPT" (bodyRecord plan)

/-- The number of bytes a plan takes up in its container. -/
def encodedSize (plan : PatchPlan) : ℕ :=
  32 + plan.name.length +
    (plan.operations.map fun operation => 40 + operation.bytes.length).sum

theorem container_length (plan : PatchPlan) :
    (container plan).length = encodedSize plan := by
  have hrecord : ∀ operation, (operationRecord operation).length =
      40 + operation.bytes.length := by
    intro operation
    simp only [operationRecord, List.length_cons, List.length_append,
      u64Bytes_length, u32Bytes_length]
    omega
  rw [container, sealContainer_length rfl, bodyRecord, List.length_append,
    List.length_flatMap, encodedSize, funext hrecord]
  simp only [planRecord, List.length_append, u32Bytes_length, u64Bytes_length]
  omega

/-! ## Reading back what was written -/

def storedFields (operation : PatchOperation) : OperationFields :=
  { kind := operation.kind.toByte
    address := operation.address
    sourceAddress := operation.sourceAddress
    length := operation.length
    integer := operation.integer
    width := operation.width
    fill := operation.fill
    order := operation.byteOrder.toByte
    byteCount := UInt32.ofNat operation.bytes.length }

def fieldsRecord (fields : OperationFields) : Bytes :=
  [fields.kind] ++ (u64Bytes fields.address ++ (u64Bytes fields.sourceAddress ++
    (u64Bytes fields.length ++ (u64Bytes fields.integer ++ ([fields.width] ++
      ([fields.fill] ++ ([fields.order] ++ u32Bytes fields.byteCount)))))))

theorem operationRecord_eq (operation : PatchOperation) :
    operationRecord operation =
      fieldsRecord (storedFields operation) ++ operation.bytes := by
  simp only [operationRecord, fieldsRecord, storedFields, List.append_assoc,
    List.cons_append, List.nil_append]

theorem storedFields_operation (operation : PatchOperation) :
    (storedFields operation).operation operation.bytes = operation := by
  rw [OperationFields.operation, storedFields,
    PatchOperationKind.ofByte_toByte, ByteOrder.ofByte_toByte]

theorem decodeOperationFields_consumes {fields : OperationFields}
    (hlimit : fields.byteCount.toNat ≤ limits.maxSectionBytes.toNat) :
    Consumes LittleAhead fields.byteCount.toNat (decodeOperationFields limits)
      (fieldsRecord fields) fields := by
  refine Consumes.adaptError _ ?_
  refine (readU8_consumes _).bind ((readU64_consumes _).bind
    ((readU64_consumes _).bind ((readU64_consumes _).bind
    ((readU64_consumes _).bind ((readU8_consumes _).bind
    ((readU8_consumes _).bind ((readU8_consumes _).bind ?_)))))))
  rw [← List.append_nil (u32Bytes _)]
  refine (readU32_consumes _).bind (Consumes.rejectIf ?_ ?_)
  · rw [gt_iff_lt, UInt64.lt_iff_toNat_lt, UInt32.toNat_toUInt64]
    exact not_lt.mpr hlimit
  · refine Consumes.rejectIf_state ?_ (Consumes.pure _)
    intro cursor tail htail hahead
    rw [hahead.remaining]
    exact not_lt.mpr htail

theorem byteCount_toNat {operation : PatchOperation}
    (hfits : OperationFits limits operation) :
    (storedFields operation).byteCount.toNat = operation.bytes.length :=
  UInt32.toNat_ofNat_of_lt' hfits.word

theorem decodeOperation_consumes {operation : PatchOperation}
    (hfits : OperationFits limits operation) :
    Consumes LittleAhead 0 (decodeOperation limits) (operationRecord operation)
      operation := by
  have hcount := byteCount_toNat hfits
  have hbytes : Consumes LittleAhead 0
      (silently (readBytes (storedFields operation).byteCount.toNat))
      operation.bytes operation.bytes := by
    rw [hcount]
    exact (readBytes_consumes _).adaptError _
  rw [operationRecord_eq]
  refine (decodeOperationFields_consumes (by rw [hcount]; exact hfits.limit)
    ).bind_room _ hcount.le ?_
  refine Consumes.rejectIf_state ?_ (hbytes.bind_last ?_)
  · intro cursor tail _ _
    exact not_or.mpr ⟨UInt8.not_lt.mpr operation.kind.toByte_le,
      UInt8.not_lt.mpr operation.byteOrder.toByte_le⟩
  · rw [storedFields_operation]
    exact Consumes.pure operation

theorem decodeNameSize_consumes {nameSize : UInt32}
    (hlimit : nameSize.toNat ≤ limits.maxStringBytes.toNat) :
    Consumes LittleAhead nameSize.toNat (decodeNameSize limits)
      (u32Bytes 1 ++ u32Bytes nameSize) nameSize := by
  refine Consumes.adaptError _ ?_
  refine (readU32_consumes _).bind (Consumes.rejectIf (not_not.mpr rfl) ?_)
  rw [← List.append_nil (u32Bytes nameSize)]
  refine (readU32_consumes _).bind (Consumes.rejectIf ?_ ?_)
  · rw [gt_iff_lt, UInt64.lt_iff_toNat_lt, UInt32.toNat_toUInt64]
    exact not_lt.mpr hlimit
  · refine Consumes.rejectIf_state ?_ (Consumes.pure _)
    intro cursor tail htail hahead
    rw [hahead.remaining]
    exact not_lt.mpr htail

theorem decodeCounts_consumes {expectedChecksum count : UInt32}
    {bytesWritten : UInt64} (hcount : count ≤ limits.maxRelocations) :
    Consumes LittleAhead 0 (decodeCounts limits)
      (u32Bytes expectedChecksum ++ (u64Bytes bytesWritten ++ u32Bytes count))
      (expectedChecksum, bytesWritten, count) := by
  refine Consumes.adaptError _ ?_
  refine (readU32_consumes _).bind ((readU64_consumes _).bind
    ((readU32_consumes _).bind_last ?_))
  exact Consumes.rejectIf (UInt32.not_lt.mpr hcount) (Consumes.pure _)

theorem decodeBody_bodyRecord (hfits : PlanFits limits plan) :
    evaluate (decodeBody limits) { data := bodyRecord plan } = .ok plan := by
  have hname : (UInt32.ofNat plan.name.length).toNat = plan.name.length :=
    UInt32.toNat_ofNat_of_lt' hfits.nameWord
  have hlimit := limits.maxRelocations.toNat_lt
  have hcount : (UInt32.ofNat plan.operations.length).toNat =
      plan.operations.length :=
    UInt32.toNat_ofNat_of_lt' (hfits.count.trans_lt hlimit)
  have htable := Consumes.collect id fun operation hoperation =>
    decodeOperation_consumes (hfits.operations operation hoperation)
  rw [List.map_id] at htable
  have hnameBytes : Consumes LittleAhead 0
      (silently (readBytes (UInt32.ofNat plan.name.length).toNat))
      plan.name plan.name := by
    rw [hname]
    exact (readBytes_consumes _).adaptError _
  have hcounts : Consumes LittleAhead 0 (decodeCounts limits) _
      (plan.expectedChecksum, plan.bytesWritten,
        UInt32.ofNat plan.operations.length) :=
    decodeCounts_consumes (by
      rw [UInt32.le_iff_toNat_le, hcount]
      exact hfits.count)
  have hstart : LittleAhead { data := bodyRecord plan }
      ((u32Bytes 1 ++ u32Bytes (UInt32.ofNat plan.name.length)) ++
        (plan.name ++ ((u32Bytes plan.expectedChecksum ++
          (u64Bytes plan.bytesWritten ++
            u32Bytes (UInt32.ofNat plan.operations.length))) ++
          (plan.operations.flatMap operationRecord ++ [])))) := by
    refine ⟨rfl, Nat.zero_le _, ?_⟩
    simp only [bodyRecord, planRecord, List.append_assoc, List.append_nil,
      List.drop_zero]
  obtain ⟨first, hfirst, hahead⟩ := decodeNameSize_consumes
    (by rw [hname]; exact hfits.name) _ _
    (by rw [hname, List.length_append]; omega) hstart
  obtain ⟨second, hsecond, hahead⟩ := hnameBytes _ _ (Nat.zero_le _) hahead
  obtain ⟨third, hthird, hahead⟩ := hcounts _ _ (Nat.zero_le _) hahead
  obtain ⟨last, hlast, hahead⟩ := htable _ _ (Nat.zero_le _) hahead
  refine evaluate_of_ok (?_ : _ = EStateM.Result.ok _ last)
  unfold decodeBody
  rw [bind_of_ok hfirst, bind_of_ok hsecond, bind_of_ok hthird]
  dsimp only
  rw [hcount, bind_of_ok hlast, bind_of_ok (get_apply last),
    rejectIf_bind_of_not (by rw [hahead.remaining]; simp), pure_apply]

theorem decode_container (hfits : PlanFits limits plan)
    (hsize : encodedSize plan ≤ limits.maxFileSize.toNat) :
    decode limits (container plan) = .ok plan := by
  have hsignature : (ascii "BFPT").length = 4 := rfl
  have hlength := container_length plan
  have hlong : 32 ≤ encodedSize plan := by
    unfold encodedSize
    omega
  refine rejectIf_except_bind_eq_ok.mpr ⟨?_,
    rejectIf_except_bind_eq_ok.mpr ⟨?_, ?_⟩⟩
  · refine not_or.mpr ⟨by omega, not_or.mpr ⟨by omega, ?_⟩⟩
    exact not_not.mpr (sealContainer_signature hsignature)
  · exact not_not.mpr (sealContainer_checksum hsignature)
  · rw [container, sealContainer_body hsignature]
    exact decodeBody_bodyRecord hfits

/-! ## What the decoder has accepted -/

theorem decodeOperationFields_yields :
    Yields LittleAhead (decodeOperationFields limits) fun fields taken =>
      fields.byteCount.toNat ≤ limits.maxSectionBytes.toNat ∧
        taken = fieldsRecord fields := by
  refine Yields.adaptError _ ?_
  refine readU8_yields.bind fun kind _ hkind => ?_
  refine readU64_yields.bind fun address _ haddress => ?_
  refine readU64_yields.bind fun sourceAddress _ hsource => ?_
  refine readU64_yields.bind fun length _ hlength => ?_
  refine readU64_yields.bind fun integer _ hinteger => ?_
  refine readU8_yields.bind fun width _ hwidth => ?_
  refine readU8_yields.bind fun fill _ hfill => ?_
  refine readU8_yields.bind fun order _ horder => ?_
  refine readU32_yields.bind fun byteCount _ hcount => ?_
  refine Yields.rejectIf fun hlimit => Yields.rejectIf_state
    (Yields.pure ⟨?_, ?_⟩)
  · rwa [gt_iff_lt, UInt64.lt_iff_toNat_lt, UInt32.toNat_toUInt64,
      not_lt] at hlimit
  · rw [hkind, haddress, hsource, hlength, hinteger, hwidth, hfill, horder,
      hcount, List.append_nil]
    rfl

theorem storedFields_of_operation {fields : OperationFields} {bytes : Bytes}
    (hkind : fields.kind ≤ PatchOperationKind.assertBytes.toByte)
    (horder : fields.order ≤ ByteOrder.big.toByte)
    (hcount : bytes.length = fields.byteCount.toNat) :
    storedFields (fields.operation bytes) = fields := by
  simp only [storedFields, OperationFields.operation,
    PatchOperationKind.toByte_ofByte hkind, ByteOrder.toByte_ofByte horder,
    hcount, UInt32.ofNat_toNat]

/-- An accepted operation is one the encoder writes as the bytes it was read
from. -/
theorem decodeOperation_yields :
    Yields LittleAhead (decodeOperation limits) fun operation taken =>
      OperationFits limits operation ∧ taken = operationRecord operation := by
  refine decodeOperationFields_yields.bind fun fields _ hfields => ?_
  obtain ⟨hlimit, hfields⟩ := hfields
  refine Yields.rejectIf_at fun henums => ?_
  refine ((readBytes_yields _).adaptError _).bind fun bytes _ hbytes => ?_
  rw [not_or] at henums
  obtain ⟨rfl, hlength⟩ := hbytes
  refine Yields.pure ⟨⟨hlength.trans_lt fields.byteCount.toNat_lt,
    hlength.trans_le hlimit⟩, ?_⟩
  rw [operationRecord_eq, storedFields_of_operation
    (UInt8.not_lt.mp henums.1) (UInt8.not_lt.mp henums.2) hlength, hfields,
    List.append_nil]
  rfl

theorem decodeNameSize_yields :
    Yields LittleAhead (decodeNameSize limits) fun nameSize taken =>
      nameSize.toNat ≤ limits.maxStringBytes.toNat ∧
        taken = u32Bytes 1 ++ u32Bytes nameSize := by
  refine Yields.adaptError _ ?_
  refine readU32_yields.bind fun version _ hversion => ?_
  refine Yields.rejectIf fun hone => ?_
  refine readU32_yields.bind fun nameSize _ hnameSize => ?_
  refine Yields.rejectIf fun hlimit => Yields.rejectIf_state
    (Yields.pure ⟨?_, ?_⟩)
  · rwa [gt_iff_lt, UInt64.lt_iff_toNat_lt, UInt32.toNat_toUInt64,
      not_lt] at hlimit
  · rw [hversion, not_not.mp hone, hnameSize, List.append_nil]

theorem decodeCounts_yields :
    Yields LittleAhead (decodeCounts limits) fun counts taken =>
      counts.2.2 ≤ limits.maxRelocations ∧
        taken = u32Bytes counts.1 ++ (u64Bytes counts.2.1 ++
          u32Bytes counts.2.2) := by
  refine Yields.adaptError _ ?_
  refine readU32_yields.bind fun expectedChecksum _ hexpected => ?_
  refine readU64_yields.bind fun bytesWritten _ hwritten => ?_
  refine readU32_yields.bind fun count _ hcount => ?_
  refine Yields.rejectIf fun hlimit => Yields.pure ⟨?_, ?_⟩
  · exact UInt32.not_lt.mp hlimit
  · rw [hexpected, hwritten, hcount, List.append_nil]

/-- The decoded plan's record is the whole body. -/
theorem decodeBody_sound
    (hrun : evaluate (decodeBody limits) { data := data } = .ok plan) :
    data = bodyRecord plan ∧ PlanFits limits plan := by
  obtain ⟨last, hrun⟩ := evaluate_eq_ok.mp hrun
  have hstart : LittleAhead { data := data } data := ⟨rfl, Nat.zero_le _, rfl⟩
  unfold decodeBody at hrun
  obtain ⟨nameSize, afterSize, hnameSize, hrun⟩ := bind_eq_ok.mp hrun
  obtain ⟨name, afterName, hname, hrun⟩ := bind_eq_ok.mp hrun
  obtain ⟨⟨expectedChecksum, bytesWritten, count⟩, afterCounts, hcounts, hrun⟩ :=
    bind_eq_ok.mp hrun
  obtain ⟨operations, afterTable, htable, hrun⟩ := bind_eq_ok.mp hrun
  rw [bind_of_ok (get_apply afterTable)] at hrun
  obtain ⟨hdone, hrun⟩ := rejectIf_bind_eq_ok.mp hrun
  rw [pure_eq_ok] at hrun
  obtain ⟨rfl, rfl⟩ := hrun
  obtain ⟨sizeBytes, _, hitems, hafterSize, hlimit, hsize⟩ :=
    decodeNameSize_yields _ _ _ _ hstart hnameSize
  obtain ⟨_, _, rfl, hafterName, rfl, hlength⟩ :=
    (readBytes_yields _).adaptError _ _ _ _ _ hafterSize hname
  obtain ⟨countBytes, _, rfl, hafterCounts, hcount, hcountBytes⟩ :=
    decodeCounts_yields _ _ _ _ hafterName hcounts
  obtain ⟨table, tail, rfl, hafterTable, hfits, hnumber, rfl⟩ :=
    decodeOperation_yields.collect _ _ _ _ _ hafterCounts htable
  rw [not_not, hafterTable.remaining] at hdone
  obtain rfl := List.eq_nil_of_length_eq_zero hdone
  refine ⟨?_, ?_, ?_, ?_, hfits⟩
  · rw [hitems, hsize, hcountBytes, bodyRecord, planRecord]
    dsimp only
    rw [hlength, hnumber, UInt32.ofNat_toNat, UInt32.ofNat_toNat]
    simp only [List.append_assoc, List.append_nil]
  · exact hlength.trans_le hlimit
  · exact hlength.trans_lt nameSize.toNat_lt
  · exact hnumber.trans_le (UInt32.le_iff_toNat_le.mp hcount)

/-- An accepted container is that of the decoded plan, and the plan fits. -/
theorem decode_sound (hrun : decode limits data = .ok plan) :
    data = container plan ∧ PlanFits limits plan ∧
      data.length ≤ limits.maxFileSize.toNat := by
  obtain ⟨hcontainer, hrun⟩ := rejectIf_except_bind_eq_ok.mp hrun
  obtain ⟨hchecksum, hrun⟩ := rejectIf_except_bind_eq_ok.mp hrun
  rw [not_or, not_or, not_not, not_lt, not_lt] at hcontainer
  obtain ⟨hbody, hfits⟩ := decodeBody_sound hrun
  refine ⟨?_, hfits, hcontainer.2.1⟩
  rw [container, ← hbody]
  exact sealContainer_of_checked (by omega) hcontainer.2.2
    (not_not.mp hchecksum)

/-! ## What the encoder writes -/

theorem encodeOperations_ok {operations : List PatchOperation} (output : Bytes)
    (hsize : (output ++ operations.flatMap operationRecord).length ≤
      limits.maxFileSize.toNat) :
    encodeOperations limits output operations =
      .ok (output ++ operations.flatMap operationRecord) := by
  induction operations generalizing output with
  | nil => simp [encodeOperations]
  | cons operation operations ih =>
      rw [List.flatMap_cons, ← List.append_assoc] at hsize ⊢
      refine rejectIf_except_bind_eq_ok.mpr ⟨?_, ih _ hsize⟩
      rw [List.length_append] at hsize
      omega

theorem encodeOperations_eq_ok {operations : List PatchOperation}
    {output result : Bytes}
    (hrun : encodeOperations limits output operations = .ok result) :
    result = output ++ operations.flatMap operationRecord := by
  induction operations generalizing output with
  | nil =>
      rw [List.flatMap_nil, List.append_nil]
      exact (Except.ok.inj hrun).symm
  | cons operation operations ih =>
      obtain ⟨_, hrun⟩ := rejectIf_except_bind_eq_ok.mp hrun
      rw [ih hrun, List.flatMap_cons, List.append_assoc]

theorem encode_eq_ok (hrun : encode limits plan = .ok data) :
    plan.name.length ≤ limits.maxStringBytes.toNat ∧
      plan.operations.length ≤ limits.maxRelocations.toNat ∧
      data = container plan := by
  obtain ⟨hlimits, hrun⟩ := rejectIf_except_bind_eq_ok.mp hrun
  rw [not_or, not_lt, not_lt] at hlimits
  cases hoperations : encodeOperations limits (ascii "BFPT" ++ planRecord plan)
      plan.operations with
  | error why =>
      rw [hoperations] at hrun
      contradiction
  | ok output =>
      rw [hoperations] at hrun
      obtain rfl := Except.ok.inj hrun
      refine ⟨hlimits.1, hlimits.2, ?_⟩
      rw [encodeOperations_eq_ok hoperations, container, sealContainer,
        bodyRecord, ← List.append_assoc]

theorem encode_ok (hfits : PlanFits limits plan)
    (hsize : encodedSize plan ≤ limits.maxFileSize.toNat) :
    encode limits plan = .ok (container plan) := by
  rw [← container_length, container, sealContainer, bodyRecord,
    ← List.append_assoc, List.length_append] at hsize
  refine rejectIf_except_bind_eq_ok.mpr ⟨?_, ?_⟩
  · exact not_or.mpr ⟨not_lt.mpr hfits.name, not_lt.mpr hfits.count⟩
  · rw [encodeOperations_ok _ (by omega), container, sealContainer, bodyRecord,
      ← List.append_assoc]
    rfl

/-- Decoding gives an encoded plan back exactly when the whole container is
within the file limit and the sizes fit their fields and the section limit. -/
theorem decode_encode_iff (hencode : encode limits plan = .ok data) :
    decode limits data = .ok plan ↔
      encodedSize plan ≤ limits.maxFileSize.toNat ∧
        plan.name.length < 2 ^ 32 ∧
        ∀ operation ∈ plan.operations,
          operation.bytes.length < 2 ^ 32 ∧
            operation.bytes.length ≤ limits.maxSectionBytes.toNat := by
  obtain ⟨hname, hcount, rfl⟩ := encode_eq_ok hencode
  constructor
  · intro hdecode
    obtain ⟨_, hfits, hsize⟩ := decode_sound hdecode
    rw [container_length] at hsize
    exact ⟨hsize, hfits.nameWord, fun operation hoperation =>
      ⟨(hfits.operations operation hoperation).word,
        (hfits.operations operation hoperation).limit⟩⟩
  · rintro ⟨hsize, hword, hoperations⟩
    refine decode_container ⟨hname, hword, hcount, ?_⟩ hsize
    exact fun operation hoperation => ⟨(hoperations operation hoperation).1,
      (hoperations operation hoperation).2⟩

theorem decode_encode_iff_empty_plan :
    ∃ data, encode {} {} = .ok data ∧
      (decode {} data = .ok {} ↔
        encodedSize {} ≤ ({} : Limits).maxFileSize.toNat ∧
          ({} : PatchPlan).name.length < 2 ^ 32 ∧
          ∀ operation ∈ ({} : PatchPlan).operations,
            operation.bytes.length < 2 ^ 32 ∧
              operation.bytes.length ≤ ({} : Limits).maxSectionBytes.toNat) := by
  have hencode : encode {} {} = .ok (container {}) := by
    decide +kernel
  exact ⟨_, hencode, decode_encode_iff hencode⟩

/-- A plan without operations is written past the file limit. -/
theorem encode_exceeds_file_limit :
    ¬∀ limits plan data, encode limits plan = .ok data →
      decode limits data = .ok plan := by
  intro hall
  have hencode : encode { maxFileSize := 31 } {} = .ok (container {}) := by
    decide +kernel
  have hdecode : decode { maxFileSize := 31 } (container {}) ≠ .ok {} := by
    decide +kernel
  exact hdecode (hall _ _ _ hencode)

/-- What the decoder accepts, the encoder writes again, so no two accepted
containers hold the same plan. -/
theorem decode_canonical (limits : Limits) :
    (∀ data plan, decode limits data = .ok plan →
      encode limits plan = .ok data) ∧
    ∀ first second plan, decode limits first = .ok plan →
      decode limits second = .ok plan → first = second := by
  refine ⟨fun data plan hrun => ?_, fun first second plan hfirst hsecond => ?_⟩
  · obtain ⟨rfl, hfits, hsize⟩ := decode_sound hrun
    rw [container_length] at hsize
    exact encode_ok hfits hsize
  · rw [(decode_sound hfirst).1, (decode_sound hsecond).1]

end PatchEngine
end BinForge
