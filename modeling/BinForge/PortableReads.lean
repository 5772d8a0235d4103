import BinForge.InstructionStream
import BinForge.Leb128

/-!
# Reads that do not depend on their place

What the byte reader returns is determined by the bytes it takes and by its
byte order: every read below is portable.
-/

namespace BinForge

open StatefulExcept
open StreamCodec
open InstructionStream

namespace ByteReader

/-- A reader of this byte order with exactly these bytes ahead of it.  Its
input is one that memory can hold, so that no position wraps. -/
structure AheadIn (order : ByteOrder) (reader : ByteReader) (bytes : Bytes) :
    Prop where
  order : reader.order = order
  inside : reader.position ≤ reader.data.length
  bytes : reader.data.drop reader.position = bytes
  addressable : reader.data.length < 2 ^ 64

section AheadIn

variable {order : ByteOrder} {reader : ByteReader} {bytes front back : Bytes}

theorem aheadIn_start (order : ByteOrder) (hsmall : bytes.length < 2 ^ 64) :
    AheadIn order { data := bytes, order } bytes :=
  ⟨rfl, Nat.zero_le _, List.drop_zero, hsmall⟩

theorem AheadIn.length (hahead : AheadIn order reader bytes) :
    reader.position + bytes.length = reader.data.length := by
  have hinside := hahead.inside
  rw [← hahead.bytes, List.length_drop]
  omega

theorem AheadIn.remaining (hahead : AheadIn order reader bytes) :
    reader.remaining = bytes.length := by
  rw [remaining_eq, ← hahead.bytes, List.length_drop]

theorem AheadIn.slice (hahead : AheadIn order reader bytes) (count : ℕ) :
    ListSplice.slice reader.data reader.position count = bytes.take count := by
  rw [ListSplice.slice, hahead.bytes]

/-- The reader behind the bytes in front. -/
theorem AheadIn.moved (hahead : AheadIn order reader (front ++ back)) :
    AheadIn order (reader.movedTo (reader.position + front.length)) back := by
  have hlength := hahead.length
  rw [List.length_append] at hlength
  refine ⟨hahead.order, ?_, ?_, hahead.addressable⟩
  · show reader.position + front.length ≤ reader.data.length
    omega
  · show reader.data.drop (reader.position + front.length) = back
    rw [← List.drop_drop, hahead.bytes, List.drop_left]

/-- A read is portable when its success and its value depend only on how many
bytes it takes, on these bytes and on the byte order. -/
theorem portable_of_eq_ok {α : Type} {count : ℕ} {action : ReaderCall α}
    (value : Bytes → α)
    (hok : ∀ reader found next, reader.order = order →
      reader.position ≤ reader.data.length → reader.data.length < 2 ^ 64 →
      (action reader = .ok found next ↔
        reader.position + count ≤ reader.data.length ∧
          found = value (ListSplice.slice reader.data reader.position count) ∧
          next = reader.movedTo (reader.position + count))) :
    Portable (AheadIn order) count action := by
  intro reader bytes found next hahead hrun
  have hlength := hahead.length
  obtain ⟨hfit, rfl, rfl⟩ := (hok reader found next hahead.order hahead.inside
    hahead.addressable).mp hrun
  have htaken : (bytes.take count).length = count := by
    rw [List.length_take]
    omega
  have hmoved : AheadIn order (reader.movedTo (reader.position + count))
      (bytes.drop count) := by
    rw [← List.take_append_drop count bytes] at hahead
    have hnext := hahead.moved
    rwa [htaken] at hnext
  refine ⟨bytes.take count, bytes.drop count,
    (List.take_append_drop count bytes).symm, hmoved, htaken.ge, ?_⟩
  intro other tail _ hother
  have hroom := hother.length
  rw [List.length_append, htaken] at hroom
  have hagain := hother.moved
  rw [htaken] at hagain
  refine ⟨other.movedTo (other.position + count), ?_, hagain⟩
  apply (hok other _ _ hother.order hother.inside hother.addressable).mpr
  refine ⟨by omega, ?_, rfl⟩
  rw [hahead.slice, hother.slice, List.take_append_of_le_length htaken.ge,
    List.take_take, Nat.min_self]

end AheadIn

/-! ## The reads -/

section Reads

variable {order : ByteOrder}

theorem readU8_portable : Portable (AheadIn order) 1 readU8 := by
  apply portable_of_eq_ok fun bytes => bytes.getD 0 0
  intro reader found next _ _ _
  rw [readU8_at, u8At, ListSplice.slice]
  simp only [List.getD_eq_getElem?_getD, List.getElem?_take, List.getElem?_drop,
    Nat.zero_lt_one, if_true, Nat.add_zero]

theorem readU8_consumes_in (value : UInt8) :
    Consumes (AheadIn order) 0 readU8 [value] value := by
  intro reader tail _ hahead
  have hlength := hahead.length
  rw [List.length_append, List.length_singleton] at hlength
  have hbyte : reader.data.getD reader.position 0 = value := by
    have hhead := congrArg (fun bytes => bytes.getD 0 0) hahead.bytes
    simpa [List.getD_eq_getElem?_getD] using hhead
  refine ⟨reader.movedTo (reader.position + 1), ?_, hahead.moved⟩
  exact readU8_at.mpr ⟨by omega, hbyte.symm, rfl⟩

theorem readU32_portable : Portable (AheadIn order) 4 readU32 := by
  apply portable_of_eq_ok fun bytes => joinU32 order bytes
  intro reader found next horder _ _
  rw [readU32_at, u32At, horder]

theorem readU64_portable : Portable (AheadIn order) 8 readU64 := by
  apply portable_of_eq_ok fun bytes => joinU64 order bytes
  intro reader found next horder _ _
  rw [readU64_at, u64At, horder]

theorem skip_eq_ok {amount : UInt64} {reader next : ByteReader} {value : Unit}
    (hinside : reader.position ≤ reader.data.length)
    (hsmall : reader.data.length < 2 ^ 64) :
    skip amount reader = .ok value next ↔
      reader.position + amount.toNat ≤ reader.data.length ∧
        next = reader.movedTo (reader.position + amount.toNat) := by
  have hposition : (UInt64.ofNat reader.position).toNat = reader.position :=
    UInt64.toNat_ofNat_of_lt' (hinside.trans_lt hsmall)
  unfold skip
  rw [bind_of_ok (get_apply reader), demand_bind_eq_ok]
  constructor
  · intro hrun
    obtain ⟨sum, hsum, hseek⟩ := hrun
    rw [seek_eq_ok, checkedAdd_toNat hsum, hposition] at hseek
    exact hseek
  · intro hfit
    obtain ⟨hfit, rfl⟩ := hfit
    have hsum : checkedAdd (UInt64.ofNat reader.position) amount =
        some (UInt64.ofNat reader.position + amount) :=
      checkedAdd_of_fit (by omega)
    refine ⟨_, hsum, ?_⟩
    rw [seek_eq_ok, checkedAdd_toNat hsum, hposition]
    exact ⟨hfit, rfl⟩

theorem skip_portable (amount : UInt64) :
    Portable (AheadIn order) amount.toNat (skip amount) := by
  apply portable_of_eq_ok fun _ => ()
  intro reader found next _ hinside hsmall
  rw [skip_eq_ok hinside hsmall]
  exact and_congr_right fun _ => ⟨fun hnext => ⟨rfl, hnext⟩, And.right⟩

theorem readUlebFrom_portable (rounds : ℕ) (shift value : UInt64) :
    Portable (AheadIn order) 1 (readUlebFrom rounds shift value) := by
  induction rounds generalizing shift value with
  | zero => exact Portable.throw ()
  | succ rounds ih =>
      apply Portable.bind_rest readU8_portable
      intro byte
      apply Portable.rejectIf
      dsimp only
      split
      · exact Portable.pure _
      · exact (ih _ _).weaken (Nat.zero_le 1)

theorem readUleb128_portable : Portable (AheadIn order) 1 readUleb128 :=
  readUlebFrom_portable 10 0 0

theorem readSlebFrom_portable (rounds : ℕ) (shift raw : UInt64) :
    Portable (AheadIn order) 1 (readSlebFrom rounds shift raw) := by
  induction rounds generalizing shift raw with
  | zero => exact Portable.throw ()
  | succ rounds ih =>
      apply Portable.bind_rest readU8_portable
      intro byte
      dsimp only
      split
      · exact (ih _ _).weaken (Nat.zero_le 1)
      · split
        · exact Portable.pure _
        · exact Portable.pure _

theorem readSleb128_portable : Portable (AheadIn order) 1 readSleb128 :=
  readSlebFrom_portable 10 0 0

end Reads

end ByteReader
end BinForge
