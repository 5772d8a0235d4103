import BinForge.MemoryHistory
import BinForge.StoredInteger
import BinForge.Reader

/-!
# One integer, three readers

`write_integer`, `read_integer` and the file reader give the same significance
to the same byte, in both orders and for every width.
-/

namespace BinForge

open StatefulExcept
open MachineInteger

/-! ## Bytes in the other order -/

/-- The number whose `width` bytes are those of `value` the other way round. -/
def reversedBytes (width value : ℕ) : ℕ :=
  littleValue (littleBytes width value).reverse

namespace ByteReader

/-! ## The file reader -/

/-- The read of an integer with this many bytes. -/
def readWidth (width : UInt8) : ReaderCall UInt64 :=
  if width = 1 then do return (← readU8).toUInt64
  else if width = 2 then do return (← readU16).toUInt64
  else if width = 4 then do return (← readU32).toUInt64
  else readU64

theorem joinU16_toNat (order : ByteOrder) {bytes : Bytes}
    (hlength : bytes.length = 2) :
    (joinU16 order bytes).toNat =
      littleValue (AddressSpace.lowFirst order bytes) := by
  obtain ⟨first, second, rfl⟩ := List.length_eq_two.mp hlength
  cases order with
  | little =>
      have hjoin := joinBytes_toNat first second
      simp only [AddressSpace.lowFirst, littleValue_cons, littleValue_nil]
      rw [Nat.mul_zero, Nat.add_zero, Nat.add_comm]
      exact hjoin
  | big =>
      have hjoin := joinBytes_toNat second first
      rw [UInt16.or_comm] at hjoin
      simp only [AddressSpace.lowFirst, List.reverse_cons, List.reverse_nil,
        List.nil_append, List.singleton_append, littleValue_cons,
        littleValue_nil]
      rw [Nat.mul_zero, Nat.add_zero, Nat.add_comm]
      exact hjoin

theorem joinU32_toNat (order : ByteOrder) {bytes : Bytes}
    (hlength : bytes.length = 4) :
    (joinU32 order bytes).toNat =
      littleValue (AddressSpace.lowFirst order bytes) := by
  cases order with
  | little => exact foldr_shiftIn32_toNat hlength.le
  | big =>
      rw [joinU32, ← List.foldr_reverse]
      exact foldr_shiftIn32_toNat (by rw [List.length_reverse]; exact hlength.le)

theorem take_ahead (front bytes tail : Bytes) (order : ByteOrder) :
    take bytes.length ⟨front ++ (bytes ++ tail), front.length, order⟩ =
      .ok bytes ⟨front ++ (bytes ++ tail), front.length + bytes.length,
        order⟩ := by
  refine take_eq_ok.mpr ⟨?_, ?_, rfl⟩
  · simp
  · rw [ListSplice.slice, List.drop_left, List.take_left]

/-- Whatever the width, the file reader sees the number that memory sees. -/
theorem readWidth_ahead {width : UInt8} {bytes : Bytes}
    (hwidth : AddressSpace.integerWidth width = true)
    (hlength : bytes.length = width.toNat) (front tail : Bytes)
    (order : ByteOrder) :
    readWidth width ⟨front ++ (bytes ++ tail), front.length, order⟩ =
      .ok (AddressSpace.integerValue order bytes)
        ⟨front ++ (bytes ++ tail), front.length + width.toNat, order⟩ := by
  have htake := take_ahead front bytes tail order
  rw [hlength] at htake
  have hvalue := @AddressSpace.integerValue_toNat order bytes
    (by rw [hlength]; exact AddressSpace.integerWidth_le hwidth)
  simp only [AddressSpace.integerWidth, Bool.or_eq_true, beq_iff_eq] at hwidth
  rcases hwidth with ((rfl | rfl) | rfl) | rfl
  · obtain ⟨byte, rfl⟩ := List.length_eq_one_iff.mp hlength
    have hread : readU8 ⟨front ++ ([byte] ++ tail), front.length, order⟩ =
        .ok byte ⟨front ++ ([byte] ++ tail), front.length + 1, order⟩ := by
      refine readU8_eq_ok.mpr ⟨by simp, ?_, rfl⟩
      simp
    rw [readWidth, if_pos rfl, bind_of_ok hread, pure_apply]
    congr 1
    rw [← UInt64.toNat_inj, hvalue, UInt8.toNat_toUInt64]
    cases order <;> simp [AddressSpace.lowFirst]
  · have hread : readU16 ⟨front ++ (bytes ++ tail), front.length, order⟩ =
        .ok (joinU16 order bytes)
          ⟨front ++ (bytes ++ tail), front.length + 2, order⟩ :=
      take_join_eq_ok.mpr ⟨bytes, htake, rfl⟩
    rw [readWidth, if_neg (by decide), if_pos rfl, bind_of_ok hread, pure_apply]
    congr 1
    rw [← UInt64.toNat_inj, hvalue, UInt16.toNat_toUInt64,
      joinU16_toNat order hlength]
  · have hread : readU32 ⟨front ++ (bytes ++ tail), front.length, order⟩ =
        .ok (joinU32 order bytes)
          ⟨front ++ (bytes ++ tail), front.length + 4, order⟩ :=
      take_join_eq_ok.mpr ⟨bytes, htake, rfl⟩
    rw [readWidth, if_neg (by decide), if_neg (by decide), if_pos rfl,
      bind_of_ok hread, pure_apply]
    congr 1
    rw [← UInt64.toNat_inj, hvalue, UInt32.toNat_toUInt64,
      joinU32_toNat order hlength]
  · exact take_join_eq_ok.mpr ⟨bytes, htake, rfl⟩

end ByteReader

namespace AddressSpace

variable {memory next : AddressSpace}

/-! ## Memory -/

theorem pow_width (width : ℕ) : 256 ^ width = 2 ^ (8 * width) := by
  rw [pow_mul]
  rfl

theorem integerValue_stored (order : ByteOrder) {width : UInt8}
    (hwidth : width.toNat ≤ 8) (value : UInt64) :
    integerValue order (integerBytes order width value) =
      UInt64.ofNat (value.toNat % 2 ^ (8 * width.toNat)) := by
  have hsmall : value.toNat % 2 ^ (8 * width.toNat) < 2 ^ 64 :=
    (Nat.mod_le _ _).trans_lt value.toNat_lt
  rw [← UInt64.toNat_inj, UInt64.toNat_ofNat_of_lt' hsmall,
    integerValue_toNat (by rw [integerBytes_length]; exact hwidth),
    lowFirst_integerBytes order hwidth, littleValue_littleBytes, pow_width]

theorem lowFirst_other {order other : ByteOrder} (hother : other ≠ order)
    (bytes : Bytes) : lowFirst other bytes = (lowFirst order bytes).reverse := by
  cases order <;> cases other
  · contradiction
  · rfl
  · exact (List.reverse_reverse bytes).symm
  · contradiction

theorem integerValue_stored_other {order other : ByteOrder} {width : UInt8}
    (hother : other ≠ order) (hwidth : width.toNat ≤ 8) (value : UInt64) :
    integerValue other (integerBytes order width value) =
      UInt64.ofNat (reversedBytes width.toNat value.toNat) := by
  have hlength := integerBytes_length order width value
  have hnumber : (integerValue other (integerBytes order width value)).toNat =
      reversedBytes width.toNat value.toNat := by
    rw [integerValue_toNat (by rw [hlength]; exact hwidth),
      lowFirst_other hother, lowFirst_integerBytes order hwidth]
    rfl
  rw [← hnumber, UInt64.ofNat_toNat]

theorem readInteger_of_read {address : UInt64} {width : UInt8}
    {bytes : Bytes} (order : ByteOrder) (hwidth : integerWidth width = true)
    (hread : read address width.toNat memory = .ok bytes memory) :
    readInteger address width order memory =
      .ok (integerValue order bytes) memory := by
  unfold readInteger
  rw [rejectIf_bind_of_not (by simpa using hwidth), bind_of_ok hread,
    pure_apply]

theorem read_of_inside (hmemory : memory.WellFormed) {address : UInt64}
    {size : ℕ} (hinside : memory.Inside address size
      fun permissions => hasPermission permissions permissionRead) :
    read address size memory =
      .ok (memory.contents.load address.toNat size) memory := by
  obtain ⟨bytes, last, hrun⟩ := succeeded_iff.mp
    ((read_succeeded_iff hmemory address size).mpr (Or.inr hinside))
  obtain ⟨rfl, rfl⟩ := read_ok_contents hmemory hrun
  exact hrun

/-- The integer a write stores is the one that both readers find again, and a
memory read in the other order sees its bytes reversed. -/
theorem integer_access_round_trips (limits : Limits) (commands : List Command)
    {address : UInt64} {width : UInt8} {order : ByteOrder} {value : UInt64}
    {ignorePermissions : Bool} {next : AddressSpace}
    (hwrite : writeInteger address width order value ignorePermissions
      ((new limits).run commands) = .ok () next) :
    ∃ stored : Bytes, stored.length = width.toNat ∧
      next.contents.load address.toNat width.toNat = stored ∧
      (∀ front tail,
        ByteReader.readWidth width
            ⟨front ++ (stored ++ tail), front.length, order⟩ =
          .ok (UInt64.ofNat (value.toNat % 2 ^ (8 * width.toNat)))
            ⟨front ++ (stored ++ tail), front.length + width.toNat, order⟩) ∧
      (next.Inside address width.toNat
          (fun permissions => hasPermission permissions permissionRead) →
        read address width.toNat next = .ok stored next ∧
        readInteger address width order next =
          .ok (UInt64.ofNat (value.toNat % 2 ^ (8 * width.toNat))) next ∧
        ∀ other, other ≠ order → readInteger address width other next =
          .ok (UInt64.ofNat (reversedBytes width.toNat value.toNat)) next) := by
  have hmemory : ((new limits).run commands).WellFormed :=
    run_wellFormed (new_wellFormed limits) commands
  obtain ⟨hwidth, hwrite⟩ := writeInteger_ok_write.mp hwrite
  have hle := integerWidth_le hwidth
  have hlength := integerBytes_length order width value
  have hload : next.contents.load address.toNat width.toNat =
      integerBytes order width value := by
    rw [write_ok_contents hmemory hwrite, ← hlength]
    exact CellMemory.load_store_self _ _ _
  refine ⟨integerBytes order width value, hlength, hload, ?_, ?_⟩
  · intro front tail
    rw [ByteReader.readWidth_ahead hwidth hlength, integerValue_stored order hle]
  · intro hinside
    have hread := read_of_inside (write_ok_wellFormed hmemory hwrite) hinside
    rw [hload] at hread
    refine ⟨hread, ?_, fun other hother => ?_⟩
    · rw [readInteger_of_read order hwidth hread, integerValue_stored order hle]
    · rw [readInteger_of_read other hwidth hread,
        integerValue_stored_other hother hle]

theorem integer_access_little_word :
    let memory := (new {}).run [.map 4096 4 3 [],
      .writeInteger 4096 2 .little 0x1122 false]
    readInteger 4096 2 .little memory = .ok 0x1122 memory ∧
      readInteger 4096 2 .big memory = .ok 0x2211 memory := by
  intro memory
  obtain ⟨_, next, hwrite⟩ := succeeded_iff.mp (by decide +kernel : succeeded
    (writeInteger 4096 2 .little 0x1122 false
      ((new {}).run [.map 4096 4 3 []])) = true)
  obtain rfl : memory = next := congrArg finalState hwrite
  obtain ⟨stored, -, -, -, hread⟩ :=
    integer_access_round_trips {} [.map 4096 4 3 []] hwrite
  have hinside : memory.Inside 4096 2
      fun permissions => hasPermission permissions permissionRead :=
    ((readInteger_succeeded_iff (run_wellFormed (new_wellFormed {}) _) 4096 2
      .little).mp (by decide +kernel)).2
  obtain ⟨-, hsame, hother⟩ := hread hinside
  exact ⟨hsame, hother .big (by decide)⟩

end AddressSpace
end BinForge
