import BinForge.IntegerAccess
import BinForge.NoteParser
import BinForge.PortableReads

/-!
# Notes read back

The serialised records of any notes within the limits are read back in order,
each at the place where it starts.
-/

namespace BinForge

open StatefulExcept
open StreamCodec
open MachineInteger
open AddressSpace (lowFirst lowFirst_lowFirst)

/-! ## Exact positions -/

namespace ByteReader

/-- A reader over this input with exactly these bytes ahead of it. -/
def AheadOf (order : ByteOrder) (data : Bytes) (reader : ByteReader)
    (bytes : Bytes) : Prop :=
  AheadIn order reader bytes ∧ reader.data = data

variable {order : ByteOrder} {data front back : Bytes}
  {reader next : ByteReader}

theorem AheadOf.moved (hahead : AheadOf order data reader (front ++ back)) :
    AheadOf order data (reader.movedTo (reader.position + front.length)) back :=
  ⟨hahead.1.moved, hahead.2⟩

/-- What is left tells where the reader has come to. -/
theorem AheadOf.eq_movedTo (hahead : AheadOf order data reader (front ++ back))
    (hnext : AheadOf order data next back) :
    next = reader.movedTo (reader.position + front.length) := by
  have hbefore := hahead.1.length
  have hafter := hnext.1.length
  rw [List.length_append, hahead.2] at hbefore
  rw [hnext.2] at hafter
  have hposition : next.position = reader.position + front.length := by omega
  rw [ByteReader.mk.injEq]
  exact ⟨hnext.2.trans hahead.2.symm, hposition,
    hnext.1.order.trans hahead.1.order.symm⟩

theorem readBytes_consumes_of (bytes : Bytes) :
    Consumes (AheadOf order data) 0 (readBytes bytes.length) bytes bytes := by
  intro reader tail _ hahead
  have hlength := hahead.1.length
  rw [List.length_append] at hlength
  refine ⟨_, take_eq_ok.mpr ⟨by omega, ?_, rfl⟩, hahead.moved⟩
  rw [hahead.1.slice, List.take_left]

/-- The four bytes of a word in this order. -/
def u32In (order : ByteOrder) (value : UInt32) : Bytes :=
  lowFirst order (u32Bytes value)

@[simp] theorem u32In_length (order : ByteOrder) (value : UInt32) :
    (u32In order value).length = 4 := by
  simp [u32In]

theorem joinU32_u32In (order : ByteOrder) (value : UInt32) :
    joinU32 order (u32In order value) = value := by
  rw [← UInt32.toNat_inj, joinU32_toNat order (u32In_length order value), u32In,
    lowFirst_lowFirst, u32Bytes_eq,
    littleValue_littleBytes_of_lt value.toNat_lt]

theorem readU32_consumes_of (value : UInt32) :
    Consumes (AheadOf order data) 0 readU32 (u32In order value) value := by
  intro reader tail _ hahead
  have hlength := hahead.1.length
  have hmoved := hahead.moved
  rw [List.length_append, u32In_length] at hlength
  rw [u32In_length] at hmoved
  refine ⟨_, readU32_at.mpr ⟨by omega, ?_, rfl⟩, hmoved⟩
  have hfield : (u32In order value ++ tail).take 4 = u32In order value := by
    rw [List.take_append_of_le_length (u32In_length order value).ge,
      List.take_of_length_le (u32In_length order value).le]
  rw [u32At, hahead.1.slice, hfield, hahead.1.order, joinU32_u32In]

end ByteReader

namespace NoteParser

open ByteReader

variable {limits : Limits} {order : ByteOrder} {data : Bytes}

/-! ## Serialisation -/

structure Note where
  owner : Bytes
  type : UInt32
  descriptor : Bytes
  deriving DecidableEq, Repr

/-- Zeros up to the next multiple of four. -/
def padding (length : ℕ) : Bytes :=
  List.replicate (Alignment.roundUp length 4 - length) 0

def padded (bytes : Bytes) : Bytes := bytes ++ padding bytes.length

def noteBytes (order : ByteOrder) (note : Note) : Bytes :=
  (u32In order (UInt32.ofNat note.owner.length) ++
    (u32In order (UInt32.ofNat note.descriptor.length) ++
      u32In order note.type)) ++
    (padded note.owner ++ padded note.descriptor)

/-- The owner is text that does not end in a zero, and both lengths have a
place in the record. -/
structure Note.Fits (limits : Limits) (note : Note) : Prop where
  text : noteText note.owner = true
  ended : note.owner.getLast? ≠ some 0
  short : note.owner.length ≤ limits.maxStringBytes.toNat
  owner_word : note.owner.length < 2 ^ 32
  descriptor_word : note.descriptor.length < 2 ^ 32

/-! ## What is read -/

def noteValue (order : ByteOrder) (note : Note) : NoteValueKind × NoteValue :=
  if note.descriptor.length ≤ 8 ∧
      (note.owner = ascii "GNU" ∨ note.owner = ascii "CORE") then
    (.integer, .integer
      (UInt64.ofNat (littleValue (lowFirst order note.descriptor))))
  else if noteText note.descriptor then
    (.text, .text (note.descriptor.rdropWhile (· = 0)))
  else (.bytes, .bytes note.descriptor)

/-- The notes of the records that start at this offset. -/
def parsedNotes (order : ByteOrder) : ℕ → List Note → List BinaryNote
  | _, [] => []
  | offset, note :: rest =>
      { owner := note.owner, type := note.type
        valueKind := (noteValue order note).1
        value := (noteValue order note).2
        fileOffset := UInt64.ofNat offset } ::
      parsedNotes order (offset + (noteBytes order note).length) rest

/-! ## Numbers -/

theorem foldl_gather_toNat (bytes : Bytes) {start : ℕ} {gathered : UInt64}
    (hlength : start + bytes.length ≤ 8)
    (hgathered : gathered.toNat < 2 ^ (start * 8)) :
    ((bytes.zipIdx start).foldl (fun integer entry =>
      integer ||| (entry.1.toUInt64 <<< UInt64.ofNat (entry.2 * 8)))
        gathered).toNat =
      gathered.toNat + littleValue bytes * 2 ^ (start * 8) := by
  induction bytes generalizing start gathered with
  | nil => simp
  | cons byte rest ih =>
      rw [List.length_cons] at hlength
      have hshift : (UInt64.ofNat (start * 8)).toNat = start * 8 :=
        UInt64.toNat_ofNat_of_lt' (by show _ < 2 ^ 64; omega)
      have hbyte := byte.toNat_lt
      have hpow : 2 ^ ((start + 1) * 8) = 256 * 2 ^ (start * 8) := by ring
      have hbits : byte.toNat * 2 ^ (start * 8) ≤ 255 * 2 ^ (start * 8) :=
        Nat.mul_le_mul_right _ (by omega)
      have hwide : 2 ^ ((start + 1) * 8) ≤ 2 ^ 64 :=
        Nat.pow_le_pow_right (by decide) (by omega)
      have hnext := @or_shiftLeft_toNat gathered byte.toUInt64
        (UInt64.ofNat (start * 8)) (by omega) (by rw [hshift]; exact hgathered)
      rw [hshift, UInt8.toNat_toUInt64, Nat.mod_eq_of_lt (by omega)] at hnext
      rw [List.zipIdx_cons, List.foldl_cons]
      dsimp only
      rw [ih (by omega) (by omega), hnext, hpow, littleValue_cons]
      ring

theorem integerOf_eq (order : ByteOrder) {descriptor : Bytes}
    (hlength : descriptor.length ≤ 8) :
    integerOf order descriptor =
      UInt64.ofNat (littleValue (lowFirst order descriptor)) := by
  have hnumber : (integerOf order descriptor).toNat =
      littleValue (lowFirst order descriptor) := by
    cases order with
    | little =>
        have hgather := @foldl_gather_toNat descriptor 0 0 (by omega)
          (by decide)
        rw [UInt64.toNat_zero, Nat.zero_mul, pow_zero, Nat.zero_add,
          Nat.mul_one] at hgather
        exact hgather
    | big =>
        rw [integerOf, ← List.foldr_reverse]
        exact foldr_shiftIn64_toNat (by rw [List.length_reverse]; exact hlength)
  rw [← hnumber, UInt64.ofNat_toNat]

theorem noteOf_eq (order : ByteOrder) (offset : UInt64) (note : Note) :
    noteOf order offset note.owner note.type note.descriptor =
      { owner := note.owner, type := note.type
        valueKind := (noteValue order note).1
        value := (noteValue order note).2, fileOffset := offset } := by
  unfold noteOf noteValue
  split
  next hnumber => rw [integerOf_eq order hnumber.1]
  next =>
    split
    · rfl
    · rfl

/-! ## One record -/

theorem le_roundUp_four (length : ℕ) : length ≤ Alignment.roundUp length 4 :=
  Alignment.le_roundUp (by decide)

theorem alignedAdvance_consumes {size : UInt32} {length : ℕ}
    (hsize : size.toNat = length) :
    Consumes (AheadOf order data) 0 (alignedAdvance size.toUInt64 4)
      (padding length) () := by
  intro reader tail _ hahead
  have hsmall := size.toNat_lt
  have hwide : size.toUInt64.toNat = length := by
    rw [UInt32.toNat_toUInt64, hsize]
  have hround : Alignment.roundUp length 4 < 2 ^ 64 := by
    unfold Alignment.roundUp
    omega
  have haligned : checkedAlignUp size.toUInt64 4 =
      some (UInt64.ofNat (Alignment.roundUp length 4)) := by
    refine checkedAlignUp_eq_some.mpr ⟨⟨2, rfl⟩, ?_, ?_⟩
    · rw [hwide]
      show length + 3 < 2 ^ 64
      omega
    · rw [hwide, UInt64.toNat_ofNat_of_lt' hround]
      rfl
  have hamount : (UInt64.ofNat (Alignment.roundUp length 4) -
      size.toUInt64).toNat = (padding length).length := by
    have hle := le_roundUp_four length
    rw [UInt64.toNat_sub_of_le _ _ (by
      rw [UInt64.le_iff_toNat_le, hwide, UInt64.toNat_ofNat_of_lt' hround]
      exact hle), hwide, UInt64.toNat_ofNat_of_lt' hround, padding,
      List.length_replicate]
  have hlength := hahead.1.length
  rw [List.length_append] at hlength
  refine ⟨_, ?_, hahead.moved⟩
  unfold alignedAdvance
  rw [demand_bind_of_some haligned, skip_eq_ok hahead.1.inside
    hahead.1.addressable, hamount]
  exact ⟨by omega, rfl⟩

theorem readPadded_consumes {size : UInt32} {bytes : Bytes}
    (hsize : size.toNat = bytes.length) :
    Consumes (AheadOf order data) 0 (readPadded size) (padded bytes)
      bytes := by
  unfold readPadded
  rw [hsize]
  exact (readBytes_consumes_of bytes).bind
    ((alignedAdvance_consumes hsize).bind_last (Consumes.pure _))

theorem readNoteHeader_consumes (nameSize descriptorSize type : UInt32) :
    Consumes (AheadOf order data) 0 readNoteHeader
      (u32In order nameSize ++ (u32In order descriptorSize ++ u32In order type))
      (nameSize, descriptorSize, type) :=
  (readU32_consumes_of nameSize).bind
    ((readU32_consumes_of descriptorSize).bind
      ((readU32_consumes_of type).bind_last (Consumes.pure _)))

theorem dropZeros_of_ended {bytes : Bytes} (hended : bytes.getLast? ≠ some 0) :
    dropZeros bytes = bytes := by
  unfold dropZeros
  rw [List.rdropWhile_eq_self_iff]
  intro hne hzero
  rw [List.getLast?_eq_getLast_of_ne_nil hne, of_decide_eq_true hzero] at hended
  exact hended rfl

/-- A record within the limits is read to its note. -/
theorem readNoteAt_consumes {note : Note} (hfits : note.Fits limits)
    {count : ℕ} (hcount : count < limits.maxDebugUnits.toNat)
    (hdescriptor : note.descriptor.length ≤ limits.maxDebugBytes.toNat)
    (offset : UInt64) :
    Consumes (AheadOf order data) 0 (readNoteAt limits order count offset)
      (noteBytes order note)
      { owner := note.owner, type := note.type
        valueKind := (noteValue order note).1
        value := (noteValue order note).2, fileOffset := offset } := by
  have howner : (UInt32.ofNat note.owner.length).toNat = note.owner.length :=
    UInt32.toNat_ofNat_of_lt' hfits.owner_word
  have hsize : (UInt32.ofNat note.descriptor.length).toNat =
      note.descriptor.length :=
    UInt32.toNat_ofNat_of_lt' hfits.descriptor_word
  have hremaining : ∀ (reader : ByteReader) (bytes tail : Bytes),
      AheadOf order data reader (padded bytes ++ tail) →
      bytes.length ≤ reader.remaining := by
    intro reader bytes tail hahead
    rw [hahead.1.remaining, padded, List.length_append, List.length_append]
    omega
  unfold readNoteAt noteBytes reporting
  refine ((readNoteHeader_consumes _ _ _).adaptError _).bind ?_
  dsimp only
  refine Consumes.rejectIf_state ?_ ?_
  · intro reader tail _ hahead
    rw [List.append_assoc] at hahead
    have hfirst := hremaining reader note.owner _ hahead
    have hname := hfits.short
    simp only [gt_iff_lt, UInt64.lt_iff_toNat_lt, UInt32.toNat_toUInt64, howner,
      hsize]
    omega
  refine ((readPadded_consumes howner).adaptError _).bind ?_
  rw [dropZeros_of_ended hfits.ended]
  refine Consumes.rejectIf (by rw [hfits.text]; decide) ?_
  refine Consumes.rejectIf_state ?_ ?_
  · intro reader tail _ hahead
    have hsecond := hremaining reader note.descriptor _ hahead
    rw [hsize]
    omega
  refine ((readPadded_consumes hsize).adaptError _).bind_last ?_
  refine Consumes.rejectIf (by omega) ?_
  rw [noteOf_eq]
  exact Consumes.pure _

/-! ## The loop -/

theorem noteBytes_length (order : ByteOrder) (note : Note) :
    12 ≤ (noteBytes order note).length := by
  simp only [noteBytes, List.length_append, u32In_length]
  omega

theorem noteLoop_notes {notes : List Note} {known : List BinaryNote}
    {reader : ByteReader} {rounds : ℕ}
    (hfits : ∀ note ∈ notes, note.Fits limits)
    (hdescriptors : ∀ note ∈ notes,
      note.descriptor.length ≤ limits.maxDebugBytes.toNat)
    (hcount : known.length + notes.length ≤ limits.maxDebugUnits.toNat)
    (hahead : AheadIn order reader (notes.flatMap (noteBytes order)))
    (hrounds : notes.length < rounds) :
    noteLoop limits order rounds reader known =
      .ok () (known ++ parsedNotes order reader.position notes) := by
  induction notes generalizing known reader rounds with
  | nil =>
      obtain ⟨rounds, rfl⟩ := Nat.exists_eq_add_one_of_ne_zero hrounds.ne'
      have hdone : reader.remaining = 0 := hahead.remaining
      rw [noteLoop, bind_of_ok (get_apply known), if_pos hdone, parsedNotes,
        List.append_nil, pure_apply]
  | cons note rest ih =>
      obtain ⟨rounds, rfl⟩ := Nat.exists_eq_add_one_of_ne_zero
        (Nat.ne_zero_of_lt hrounds)
      rw [List.length_cons] at hcount hrounds
      rw [List.flatMap_cons] at hahead
      have hmore : reader.remaining ≠ 0 := by
        have hheader := noteBytes_length order note
        rw [hahead.remaining, List.length_append]
        omega
      obtain ⟨hfirst, hothers⟩ := List.forall_mem_cons.mp hfits
      obtain ⟨hsmall, hsmalls⟩ := List.forall_mem_cons.mp hdescriptors
      have hplaced : AheadOf order reader.data reader
          (noteBytes order note ++ rest.flatMap (noteBytes order)) :=
        ⟨hahead, rfl⟩
      obtain ⟨next, hrun, hnext⟩ := readNoteAt_consumes hfirst
        (by omega : known.length < limits.maxDebugUnits.toNat) hsmall
        (UInt64.ofNat reader.position) reader _ (Nat.zero_le _) hplaced
      obtain rfl := hplaced.eq_movedTo hnext
      rw [noteLoop, bind_of_ok (get_apply known), if_neg hmore, hrun]
      dsimp only
      rw [bind_of_ok (set_apply _ known), ih hothers hsmalls (by
          rw [List.length_append, List.length_singleton]
          omega) hahead.moved (by omega), parsedNotes, List.append_assoc]
      rfl

theorem length_le_flatMap {notes : List Note} {note : Note}
    (hnote : note ∈ notes) :
    note.descriptor.length ≤ (notes.flatMap (noteBytes order)).length := by
  obtain ⟨front, back, rfl⟩ := List.append_of_mem hnote
  simp only [List.flatMap_append, List.flatMap_cons, List.length_append,
    noteBytes, padded]
  omega

/-- Any notes within the limits are read back from their records, in order and
each at the place where its record starts. -/
theorem parseElf_notes {notes : List Note} {known : List BinaryNote}
    (order : ByteOrder) (hfits : ∀ note ∈ notes, note.Fits limits)
    (hcount : known.length + notes.length ≤ limits.maxDebugUnits.toNat)
    (hsize : (notes.flatMap (noteBytes order)).length ≤
      limits.maxDebugBytes.toNat) :
    parseElf limits (notes.flatMap (noteBytes order)) order known =
      .ok () (known ++ parsedNotes order 0 notes) := by
  have hrecords : notes.length ≤ (notes.flatMap (noteBytes order)).length := by
    clear hfits hcount hsize
    induction notes with
    | nil => exact Nat.zero_le _
    | cons note rest ih =>
        have hheader := noteBytes_length order note
        rw [List.flatMap_cons, List.length_append, List.length_cons]
        omega
  unfold parseElf
  rw [rejectIf_bind_of_not (not_lt.mpr hsize)]
  exact noteLoop_notes hfits
    (fun note hnote => (length_le_flatMap hnote).trans hsize) hcount
    (aheadIn_start order (hsize.trans_lt limits.maxDebugBytes.toNat_lt))
    (Nat.lt_succ_of_le hrecords)

/-- A number, a text that loses its zeros, and bytes, in big-endian order. -/
theorem parseElf_notes_three_kinds :
    parseElf {} (List.flatMap (noteBytes .big)
        [⟨ascii "GNU", 1, [0x12, 0x34]⟩, ⟨ascii "a", 2, [0x62, 0x63, 0x00]⟩,
          ⟨ascii "a", 3, [0xff]⟩]) .big [] =
      .ok () [{ owner := "GNU", type := 1, valueKind := .integer
                value := .integer 0x1234, fileOffset := 0 },
              { owner := "a", type := 2, valueKind := .text
                value := .text [0x62, 0x63], fileOffset := 20 },
              { owner := "a", type := 3, valueKind := .bytes
                value := .bytes [0xff], fileOffset := 40 }] := by
  have hfits : ∀ note ∈ ([⟨ascii "GNU", 1, [0x12, 0x34]⟩,
      ⟨ascii "a", 2, [0x62, 0x63, 0x00]⟩, ⟨ascii "a", 3, [0xff]⟩] : List Note),
      note.Fits {} := by
    simp only [List.forall_mem_cons, List.not_mem_nil, false_imp_iff,
      implies_true, and_true]
    exact ⟨⟨by decide, by decide, by decide, by decide, by decide⟩,
      ⟨by decide, by decide, by decide, by decide, by decide⟩,
      ⟨by decide, by decide, by decide, by decide, by decide⟩⟩
  have hparsed := @parseElf_notes {} _ [] .big hfits (by decide) (by decide)
  rw [hparsed]
  refine congrArg (EStateM.Result.ok ()) ?_
  decide +kernel

end NoteParser
end BinForge
