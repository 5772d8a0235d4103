import BinForge.AsciiPieces
import BinForge.Utf8Codec

/-!
# The UTF-8 strings of a file

A string reported as UTF-8 was decoded character by character from the place
it is reported at.  It is the bytes of the file there, the encoding of as many
characters as the scanner counted.  Its length is stored in 32 bits, which a
string of `2 ^ 30` characters can just exceed.
-/

namespace BinForge

open StatefulExcept
open ListSplice

namespace StringScanner

/-- The encoding of characters one after the other. -/
def encoded (characters : List Char) : Bytes :=
  characters.flatMap String.utf8EncodeChar

theorem encoded_cons (character : Char) (rest : List Char) :
    encoded (character :: rest) =
      String.utf8EncodeChar character ++ encoded rest :=
  List.flatMap_cons

variable {bytes : Bytes} {options : StringScanOptions} {image : BinaryImage}

/-- From one state of a text to another the bytes between the two cursors were
read, and they are these characters. -/
structure Spells (bytes : Bytes) (run stop : TextRun)
    (characters : List Char) : Prop where
  value : stop.value = run.value ++ encoded characters
  count : stop.characters = run.characters + characters.length
  cursor : stop.cursor = run.cursor + (encoded characters).length
  read : slice bytes run.cursor (encoded characters).length =
    encoded characters

theorem Spells.refl (bytes : Bytes) (run : TextRun) :
    Spells bytes run run [] where
  value := (List.append_nil _).symm
  count := rfl
  cursor := rfl
  read := rfl

theorem Spells.cons {run stop : TextRun} {character : Char}
    {characters : List Char} {value : Bytes}
    (htake : slice bytes run.cursor (String.utf8EncodeChar character).length =
      String.utf8EncodeChar character)
    (hvalue : value = run.value ++ String.utf8EncodeChar character)
    (hrest : Spells bytes
      { cursor := run.cursor + (String.utf8EncodeChar character).length
        characters := run.characters + 1, value } stop characters) :
    Spells bytes run stop (character :: characters) where
  value := by
    rw [hrest.value, hvalue, encoded_cons, List.append_assoc]
  count := by
    rw [hrest.count, List.length_cons, Nat.add_assoc, Nat.add_comm 1]
  cursor := by
    rw [hrest.cursor, encoded_cons, List.length_append, Nat.add_assoc]
  read := by
    have hread := hrest.read
    rw [encoded_cons, List.length_append, slice, List.take_add,
      List.drop_drop]
    rw [slice] at htake hread
    rw [htake, hread]

theorem utf8Run_spells (room : ℕ) (run : TextRun) :
    ∃ characters : List Char, characters.length ≤ room ∧
      Spells bytes run (utf8Run bytes room run) characters := by
  induction room generalizing run with
  | zero => exact ⟨[], le_refl 0, Spells.refl bytes run⟩
  | succ room ih =>
      by_cases hinside : run.cursor < bytes.length
      · cases hsequence : utf8Sequence (bytes.drop run.cursor) with
        | none =>
            rw [utf8Run, if_pos hinside, hsequence]
            exact ⟨[], Nat.zero_le _, Spells.refl bytes run⟩
        | some read =>
            obtain ⟨length, point⟩ := read
            obtain ⟨character, hlength, htake, happend⟩ :=
              exists_character hsequence
            have hsize : length = (String.utf8EncodeChar character).length := by
              rw [← htake, List.length_take, min_eq_left hlength]
            obtain ⟨rest, hroom, hrest⟩ := ih
              { cursor := run.cursor + length, characters := run.characters + 1
                value := appendUtf8 run.value point }
            rw [utf8Run, if_pos hinside, hsequence]
            subst hsize
            exact ⟨character :: rest, Nat.succ_le_succ hroom,
              Spells.cons htake (happend _) hrest⟩
      · rw [utf8Run, if_neg hinside]
        exact ⟨[], Nat.zero_le _, Spells.refl bytes run⟩

/-- A character takes at most four bytes. -/
theorem length_encoded_le (characters : List Char) :
    (encoded characters).length ≤ 4 * characters.length := by
  induction characters with
  | nil => exact le_refl _
  | cons character rest ih =>
      have hsize := character.utf8Size_le_four
      rw [encoded_cons, List.length_append, String.length_utf8EncodeChar,
        List.length_cons]
      omega

/-! ## The strings reported -/

/-- A string is the encoding of as many characters as the options ask for, and
it is in the file where it is reported, as long as its length can be. -/
structure OwnBytes (bytes : Bytes) (options : StringScanOptions)
    (result : ExtractedString) : Prop where
  wellFormed : ∃ characters : List Char, result.value = encoded characters ∧
    options.minimumCharacters.toNat ≤ characters.length ∧
      characters.length ≤ options.maximumCharacters.toNat
  own : result.value.length < 2 ^ 32 →
    result.value =
      slice bytes result.fileOffset.toNat result.byteLength.toNat

theorem utf8Sweep_found {place : ℕ} {result : ExtractedString} :
    (utf8Sweep image options bytes).found place = some result ↔
      (¬bytes.getD place 0 < 0x80 ∧
        longEnough options (utf8Text options bytes place).characters
          (utf8Terminated options bytes place) = true) ∧
        decodedString image .utf8 place (utf8Text options bytes place) =
          result := by
  simp only [utf8Sweep]
  split_ifs with hreported
  · rw [Option.some_inj]
    exact (and_iff_right hreported).symm
  · exact iff_of_false not_false fun hboth => hreported hboth.1

theorem minimum_le_of_longEnough {characters : ℕ} {terminated : Bool}
    (hlong : longEnough options characters terminated = true) :
    options.minimumCharacters.toNat ≤ characters := by
  rw [longEnough, decide_eq_true_iff] at hlong
  exact hlong.1

theorem toNat_place {place : ℕ} (hsize : bytes.length < 2 ^ 64)
    (hplace : place < bytes.length) : (UInt64.ofNat place).toNat = place := by
  rw [UInt64.toNat_ofNat']
  exact Nat.mod_eq_of_lt (hplace.trans hsize)

theorem ownBytes_of_found {place : ℕ} {result : ExtractedString}
    (hsize : bytes.length < 2 ^ 64) (hplace : place < bytes.length)
    (hfound : (utf8Sweep image options bytes).found place = some result) :
    OwnBytes bytes options result := by
  obtain ⟨⟨-, hlong⟩, rfl⟩ := utf8Sweep_found.mp hfound
  obtain ⟨characters, hroom, hspells⟩ := @utf8Run_spells bytes
    options.maximumCharacters.toNat { cursor := place }
  have hvalue : (utf8Text options bytes place).value = encoded characters :=
    hspells.value
  have hcount : (utf8Text options bytes place).characters =
      characters.length := hspells.count.trans (Nat.zero_add _)
  have hcursor : (utf8Text options bytes place).cursor =
      place + (encoded characters).length := hspells.cursor
  constructor
  · rw [decodedString_value]
    refine ⟨characters, hvalue, ?_, hroom⟩
    rw [← hcount]
    exact minimum_le_of_longEnough hlong
  · intro hshort
    rw [decodedString_value, hvalue] at hshort
    have hlength : (UInt32.ofNat ((utf8Text options bytes place).cursor -
        place)).toNat = (encoded characters).length := by
      rw [hcursor, Nat.add_sub_cancel_left, UInt32.toNat_ofNat']
      exact Nat.mod_eq_of_lt hshort
    rw [decodedString_value, decodedString_fileOffset,
      decodedString_byteLength, toNat_place hsize hplace, hlength, hvalue]
    exact hspells.read.symm

/-- With fewer than `2 ^ 30` characters the length can always be stored. -/
theorem OwnBytes.length_lt {result : ExtractedString}
    (hown : OwnBytes bytes options result)
    (hfewer : options.maximumCharacters.toNat < 2 ^ 30) :
    result.value.length < 2 ^ 32 := by
  obtain ⟨characters, hvalue, -, hmaximum⟩ := hown.wellFormed
  have hlength := length_encoded_le characters
  rw [hvalue]
  omega

/-! ## The encodings of the results -/

theorem encoding_of_ascii {result : ExtractedString}
    (hresult : result ∈ asciiFinds image options bytes) :
    result.encoding = .ascii := by
  unfold asciiFinds at hresult
  split_ifs at hresult
  · obtain ⟨place, -, hfound⟩ := List.mem_filterMap.mp hresult
    simp only [asciiSweep] at hfound
    split_ifs at hfound
    obtain rfl := Option.some.inj hfound
    simp [asciiString]
  · contradiction

theorem encoding_of_utf16 {little : Bool} {result : ExtractedString}
    (hresult : result ∈ utf16Finds image options bytes little) :
    result.encoding = utf16Encoding little := by
  unfold utf16Finds at hresult
  split_ifs at hresult
  · obtain ⟨place, -, hfound⟩ := List.mem_filterMap.mp hresult
    simp only [utf16Sweep] at hfound
    split_ifs at hfound
    obtain rfl := Option.some.inj hfound
    exact decodedString_encoding _ _ _ _
  · contradiction

theorem mem_utf8Finds {result : ExtractedString}
    (hresult : result ∈ allFinds image options bytes)
    (hencoding : result.encoding = .utf8) :
    result ∈ utf8Finds image options bytes := by
  simp only [allFinds, List.mem_append] at hresult
  rcases hresult with ((hascii | hutf8) | hlittle) | hbig
  · rw [encoding_of_ascii hascii] at hencoding
    contradiction
  · exact hutf8
  · rw [encoding_of_utf16 hlittle] at hencoding
    contradiction
  · rw [encoding_of_utf16 hbig] at hencoding
    contradiction

/-- Every string reported as UTF-8 is well formed, and it is the bytes of the
file it is reported at if its length is below `2 ^ 32`, as it is whenever fewer
than `2 ^ 30` characters are asked for. -/
theorem utf8_own_bytes (limits : Limits) (image : BinaryImage)
    (options : StringScanOptions) (bytes : Bytes)
    (found : List ExtractedString) (hdata : image.fileData = some bytes)
    (hsize : bytes.length < 2 ^ 64)
    (hscan : scan limits image options = .ok found) :
    ∀ result ∈ found, result.encoding = .utf8 →
      OwnBytes bytes options result ∧
        (options.maximumCharacters.toNat < 2 ^ 30 →
          result.value.length < 2 ^ 32) := by
  obtain ⟨data, hfile, -, rfl⟩ := (scan_eq_ok image options).mp hscan
  obtain rfl := Option.some.inj (hdata.symm.trans hfile)
  intro result hresult hencoding
  have hfinds := mem_utf8Finds (List.mem_of_mem_take hresult) hencoding
  unfold utf8Finds at hfinds
  split_ifs at hfinds
  · obtain ⟨place, hplace, hfound⟩ := List.mem_filterMap.mp hfinds
    have hown := ownBytes_of_found hsize
      (Sweep.le_of_mem_places hplace).2 hfound
    exact ⟨hown, hown.length_lt⟩
  · contradiction

/-- A file of one accented letter, and the scan that reports it. -/
def accentFile : Bytes := [0xc3, 0xa9]

def singleLetters : StringScanOptions :=
  { minimumCharacters := 1, ascii := false, utf16Little := false }

def accentString : ExtractedString :=
  { fileOffset := 0, encoding := .utf8, value := accentFile, byteLength := 2 }

theorem utf8_own_bytes_accentFile :
    OwnBytes accentFile singleLetters accentString ∧
      (singleLetters.maximumCharacters.toNat < 2 ^ 30 →
        accentString.value.length < 2 ^ 32) :=
  utf8_own_bytes {} { fileData := some accentFile } singleLetters accentFile
    [accentString] rfl (by decide) (by decide +kernel) accentString
    List.mem_cons_self rfl

/-! ## A length that cannot be stored -/

/-- A character of four bytes, and files of nothing else. -/
def astral : Bytes := [0xf0, 0x90, 0x80, 0x80]

def astralFile (count : ℕ) : Bytes := (List.replicate count astral).flatten

theorem length_astralFile (count : ℕ) :
    (astralFile count).length = 4 * count := by
  simp [astralFile, astral, Nat.mul_comm]

theorem astralFile_succ (count : ℕ) :
    astralFile (count + 1) = astral ++ astralFile count := by
  rw [astralFile, List.replicate_succ, List.flatten_cons]
  rfl

theorem drop_astralFile {count skipped : ℕ} (hskipped : skipped ≤ count) :
    (astralFile count).drop (4 * skipped) = astralFile (count - skipped) := by
  induction skipped generalizing count with
  | zero => rfl
  | succ skipped ih =>
      obtain ⟨count, rfl⟩ : ∃ fewer, count = fewer + 1 := ⟨count - 1, by omega⟩
      have hsplit : 4 * (skipped + 1) = astral.length + 4 * skipped := by
        rw [Nat.mul_succ, Nat.add_comm]
        rfl
      rw [astralFile_succ, hsplit, ← List.drop_drop, List.drop_left,
        ih (Nat.le_of_succ_le_succ hskipped), Nat.succ_sub_succ]

theorem utf8Sequence_astral (rest : Bytes) :
    utf8Sequence (astral ++ rest) = some (4, 0x10000) := by
  have hlead : utf8Lead 0xf0 = some (4, 0) := by decide
  have hfirst : ¬(0xf0 : UInt8) < 0x80 := by decide
  have hrest : slice (astral ++ rest) 1 3 = [0x90, 0x80, 0x80] := rfl
  have hlong : ¬4 > (astral ++ rest).length := by
    rw [List.length_append]
    exact not_lt.mpr (Nat.le_add_right 4 _)
  have hbyte : (astral ++ rest).getD 0 0 = 0xf0 := rfl
  simp only [utf8Sequence, hbyte, hfirst, hlead, hrest, hlong, if_false]
  decide

theorem utf8Run_astral {count room start : ℕ} (hfits : start + room ≤ count)
    (characters : ℕ) (value : Bytes) :
    (utf8Run (astralFile count) room
        { cursor := 4 * start, characters, value }).cursor =
          4 * (start + room) ∧
      (utf8Run (astralFile count) room
        { cursor := 4 * start, characters, value }).characters =
          characters + room := by
  induction room generalizing start characters value with
  | zero => exact ⟨rfl, rfl⟩
  | succ room ih =>
      have hinside : 4 * start < (astralFile count).length := by
        rw [length_astralFile]
        omega
      have hleft : count - start = count - (start + 1) + 1 := by omega
      have hsequence : utf8Sequence ((astralFile count).drop (4 * start)) =
          some (4, 0x10000) := by
        rw [drop_astralFile (by omega), hleft, astralFile_succ,
          utf8Sequence_astral]
      have hfewer : start + 1 + room ≤ count := by omega
      have hnext := ih hfewer (characters + 1) (appendUtf8 value 0x10000)
      rw [utf8Run, if_pos hinside, hsequence]
      rw [Nat.add_assoc, Nat.add_comm 1, Nat.add_assoc, Nat.add_comm 1] at hnext
      exact hnext

/-- The whole of such a file is a string, if one may be that long. -/
theorem astralFile_found (image : BinaryImage) {count : ℕ}
    (hcount : options.maximumCharacters.toNat = count) (hpositive : 0 < count)
    (hlong : ∀ terminated, longEnough options count terminated = true) :
    ∃ result, (utf8Sweep image options (astralFile count)).found 0 =
        some result ∧
      result.encoding = .utf8 ∧ result.value.length = 4 * count ∧
        result.byteLength = UInt32.ofNat (4 * count) := by
  have hlead : ¬(astralFile count).getD 0 0 < 0x80 := by
    obtain ⟨fewer, rfl⟩ : ∃ fewer, count = fewer + 1 := ⟨count - 1, by omega⟩
    rw [astralFile_succ]
    exact not_lt.mpr (by decide : (0x80 : UInt8) ≤ 0xf0)
  obtain ⟨hcursor, hcharacters⟩ := @utf8Run_astral count count 0
    (le_of_eq (Nat.zero_add _)) 0 []
  rw [Nat.zero_add] at hcursor hcharacters
  have hrun : utf8Text options (astralFile count) 0 =
      utf8Run (astralFile count) count { cursor := 4 * 0 } := by
    rw [utf8Text, hcount]
  obtain ⟨characters, -, hspells⟩ := @utf8Run_spells (astralFile count) count
    { cursor := 4 * 0 }
  have hvalue := hspells.value
  have hend : (utf8Run (astralFile count) count { cursor := 4 * 0 }).cursor =
      4 * 0 + (encoded characters).length := hspells.cursor
  rw [hcursor] at hend
  have hreported : ¬(astralFile count).getD 0 0 < 0x80 ∧
      longEnough options (utf8Text options (astralFile count) 0).characters
        (utf8Terminated options (astralFile count) 0) = true := by
    rw [hrun, hcharacters]
    exact ⟨hlead, hlong _⟩
  refine ⟨_, utf8Sweep_found.mpr ⟨hreported, rfl⟩, ?_, ?_, ?_⟩
  · exact decodedString_encoding _ _ _ _
  · rw [decodedString_value, hrun, hvalue, List.nil_append]
    omega
  · rw [decodedString_byteLength, hrun, hcursor, Nat.sub_zero]

/-- The largest options with at most `2 ^ 30` characters. -/
def longStrings : StringScanOptions :=
  { minimumCharacters := 1, maximumCharacters := 0x40000000
    maximumResults := 1, ascii := false, utf16Little := false }

theorem longStrings_finds (image : BinaryImage) (bytes : Bytes) :
    allFinds image longStrings bytes =
      findsUpTo bytes.length (utf8Sweep image longStrings bytes) := by
  simp [allFinds, asciiFinds, utf8Finds, utf16Finds, utf16Enabled, longStrings]

/-- The one string of a file of `2 ^ 32` bytes is reported with no length. -/
theorem astralFile_misreported :
    ∃ found, scan { maxStringBytes := 0x40000000 }
        { fileData := some (astralFile (2 ^ 30)) } longStrings = .ok found ∧
      ∃ result ∈ found, result.encoding = .utf8 ∧
        result.value ≠ slice (astralFile (2 ^ 30)) result.fileOffset.toNat
          result.byteLength.toNat := by
  have hmaximum : longStrings.maximumCharacters.toNat = 2 ^ 30 := by decide
  have hlong : ∀ terminated,
      longEnough longStrings (2 ^ 30) terminated = true := by decide
  generalize hcount : 2 ^ 30 = count at hmaximum hlong ⊢
  have hpositive : 0 < count := by
    rw [← hcount]
    exact Nat.two_pow_pos 30
  obtain ⟨result, hfound, hencoding, hlength, hbyteLength⟩ :=
    astralFile_found { fileData := some (astralFile count) } hmaximum hpositive
      hlong
  have hinside : 0 < (astralFile count).length := by
    rw [length_astralFile]
    omega
  refine ⟨_, (scan_eq_ok _ _).mpr ⟨astralFile count, rfl, by decide, rfl⟩,
    result, ?_, hencoding, ?_⟩
  · rw [longStrings_finds, findsUpTo, Sweep.places_of_lt hinside,
      List.filterMap_cons, hfound]
    exact List.mem_cons_self
  · have hzero : result.byteLength.toNat = 0 := by
      rw [hbyteLength, ← hcount]
      decide
    have hempty : slice (astralFile count) result.fileOffset.toNat 0 = [] :=
      List.take_zero
    rw [hzero, hempty]
    intro hvalue
    rw [hvalue] at hlength
    have hnothing : 0 = 4 * count := hlength
    omega

end StringScanner
end BinForge
