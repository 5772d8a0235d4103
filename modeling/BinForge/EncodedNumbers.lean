import BinForge.ElfEncoding
import BinForge.NoteRoundTrip
import BinForge.UnsignedLeb

/-!
# Encoded numbers ahead of a reader

The bytes of a number in either byte order, or in groups of seven bits, are
what the reader takes for it, and nothing more.
-/

namespace BinForge

open StatefulExcept
open StreamCodec
open RecordLayout

namespace ByteReader

open ElfEncoding

variable {order : ByteOrder} {data front back : Bytes} {reader : ByteReader}

theorem AheadIn.holds (hahead : AheadIn order reader (front ++ back)) :
    Holds reader.data reader.position front := by
  rw [Holds, hahead.slice, List.take_left]

theorem readU8_consumes_of (value : UInt8) :
    Consumes (AheadOf order data) 0 readU8 [value] value := by
  intro reader tail _ hahead
  have hlength := hahead.1.length
  rw [List.length_append, List.length_singleton] at hlength
  exact ⟨_, readU8_at.mpr ⟨by omega, (u8At_of_holds hahead.1.holds).symm, rfl⟩,
    hahead.moved⟩

theorem readU16_consumes_of (value : UInt16) :
    Consumes (AheadOf order data) 0 readU16 (half order value) value := by
  intro reader tail _ hahead
  have hlength := hahead.1.length
  have hmoved := hahead.moved
  rw [List.length_append, half_length] at hlength
  rw [half_length] at hmoved
  refine ⟨_, readU16_at.mpr ⟨by omega, ?_, rfl⟩, hmoved⟩
  rw [hahead.1.order]
  exact (u16At_of_holds hahead.1.holds).symm

theorem readWord32_consumes_of (value : UInt32) :
    Consumes (AheadOf order data) 0 readU32 (word order value) value := by
  intro reader tail _ hahead
  have hlength := hahead.1.length
  have hmoved := hahead.moved
  rw [List.length_append, word_length] at hlength
  rw [word_length] at hmoved
  refine ⟨_, readU32_at.mpr ⟨by omega, ?_, rfl⟩, hmoved⟩
  rw [hahead.1.order]
  exact (u32At_of_holds hahead.1.holds).symm

theorem readWord_consumes_of {wide : Bool} {value : UInt64}
    (hfits : FitsField wide value) :
    Consumes (AheadOf order data) 0 (readWord wide) (address wide order value)
      value := by
  intro reader tail _ hahead
  have hlength := hahead.1.length
  have hmoved := hahead.moved
  rw [List.length_append, address_length] at hlength
  rw [address_length] at hmoved
  refine ⟨_, readWord_at.mpr ⟨by omega, ?_, rfl⟩, hmoved⟩
  rw [hahead.1.order]
  exact (fieldAt_of_holds hfits hahead.1.holds).symm

theorem fitsField_wide (value : UInt64) : FitsField true value :=
  value.toNat_lt

theorem readU64_consumes_of (value : UInt64) :
    Consumes (AheadOf order data) 0 readU64 (address true order value) value :=
  readWord_consumes_of (fitsField_wide value)

theorem readUleb128_consumes_of (value : UInt64) :
    Consumes (AheadOf order data) 0 readUleb128 (ulebBytes value) value := by
  intro reader tail _ hahead
  obtain ⟨hgroups, hvalue⟩ := ulebBytes_groups value
  refine ⟨reader.movedTo (reader.position + (ulebBytes value).length),
    (readUleb128_eq_ok_iff _ _ _).mpr ⟨ulebBytes value, ?_,
      unsignedLeb_length_le 10 _, hgroups, hvalue, rfl⟩, hahead.moved⟩
  rw [hahead.1.bytes]
  exact List.prefix_append _ _

end ByteReader

end BinForge
