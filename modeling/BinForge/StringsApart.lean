import BinForge.Utf8Text

/-!
# Strings reported once

The loops over ASCII text and over code units go on behind a string they
report.  The loop over UTF-8 goes on one byte behind its start, so that the
rest of a text is reported again from each later character it may start with.
-/

namespace BinForge

open ListSplice

namespace StringScanner

/-- The bytes of the file a result stands for. -/
def Covers (result : ExtractedString) (position : ℕ) : Prop :=
  result.fileOffset.toNat ≤ position ∧
    position < result.fileOffset.toNat + result.byteLength.toNat

/-- Of two strings of one encoding the second starts later, and no byte is in
both. -/
def Apart (first second : ExtractedString) : Prop :=
  first.encoding = second.encoding →
    first.fileOffset < second.fileOffset ∧
      ∀ position, ¬(Covers first position ∧ Covers second position)

variable {image : BinaryImage} {options : StringScanOptions} {bytes : Bytes}

theorem apart_of_end_le {first second : ExtractedString}
    (hbefore : first.fileOffset < second.fileOffset)
    (hend : first.fileOffset.toNat + first.byteLength.toNat ≤
      second.fileOffset.toNat) :
    Apart first second := by
  intro _
  refine ⟨hbefore, ?_⟩
  intro position hboth
  have hfirst := hboth.1.2
  have hsecond := hboth.2.1
  omega

/-- Strings of different encodings may be where they like. -/
theorem pairwise_append_iff {earlier later : List ExtractedString}
    (hencodings : ∀ first ∈ earlier, ∀ second ∈ later,
      first.encoding ≠ second.encoding) :
    (earlier ++ later).Pairwise Apart ↔
      earlier.Pairwise Apart ∧ later.Pairwise Apart := by
  rw [List.pairwise_append]
  apply and_congr_right
  intro _
  apply and_iff_left
  intro first hfirst second hsecond hsame
  exact absurd hsame (hencodings first hfirst second hsecond)

/-! ## ASCII text and code units -/

theorem place_lt_place {first second : ℕ} (hsize : bytes.length < 2 ^ 64)
    (hinside : second < bytes.length) (hbefore : first < second) :
    UInt64.ofNat first < UInt64.ofNat second := by
  rw [UInt64.lt_iff_toNat_lt, toNat_place hsize (hbefore.trans hinside),
    toNat_place hsize hinside]
  exact hbefore

theorem toNat_length_le (length : ℕ) :
    (UInt32.ofNat length).toNat ≤ length := by
  rw [UInt32.toNat_ofNat']
  exact Nat.mod_le _ _

/-- The results of a sweep that goes on behind each of them are apart. -/
theorem pairwise_findsUpTo {limit : ℕ} {sweep : Sweep ExtractedString}
    (hsize : bytes.length < 2 ^ 64) (hlimit : limit ≤ bytes.length)
    (hfound : ∀ place result, sweep.found place = some result →
      result.fileOffset = UInt64.ofNat place ∧
        place + result.byteLength.toNat ≤ sweep.next place) :
    (findsUpTo limit sweep).Pairwise Apart := by
  apply List.pairwise_filterMap.mpr
  apply (Sweep.places_pairwise 0).imp_of_mem
  intro first second _ hsecond hnext left hleft right hright
  have hinside : second < bytes.length :=
    (Sweep.le_of_mem_places hsecond).2.trans_le hlimit
  have hbefore : first < second := (sweep.ahead first).trans_le hnext
  obtain ⟨hstart, hend⟩ := hfound first left hleft
  obtain ⟨hlater, -⟩ := hfound second right hright
  apply apart_of_end_le
  · rw [hstart, hlater]
    exact place_lt_place hsize hinside hbefore
  · rw [hstart, hlater, toNat_place hsize (hbefore.trans hinside),
      toNat_place hsize hinside]
    exact hend.trans hnext

theorem asciiFinds_pairwise (hsize : bytes.length < 2 ^ 64) :
    (asciiFinds image options bytes).Pairwise Apart := by
  unfold asciiFinds
  split_ifs
  · apply pairwise_findsUpTo hsize (le_refl _)
    intro place result hfound
    simp only [asciiSweep] at hfound ⊢
    split_ifs at hfound with htext
    obtain rfl := Option.some.inj hfound
    have hstop : place ≤ asciiStop options bytes place := le_asciiEnd
    have hlength := toNat_length_le (asciiStop options bytes place - place)
    have hcharacter : ¬asciiCharacter (bytes.getD place 0) = false := by
      rw [htext.1]
      exact Bool.noConfusion
    rw [if_neg hcharacter]
    simp only [asciiString, populateLocation_fileOffset,
      populateLocation_byteLength, true_and]
    split_ifs <;> omega
  · exact List.Pairwise.nil

theorem utf16Finds_pairwise (hsize : bytes.length < 2 ^ 64) (little : Bool) :
    (utf16Finds image options bytes little).Pairwise Apart := by
  unfold utf16Finds
  split_ifs
  · apply pairwise_findsUpTo hsize (Nat.sub_le _ _)
    intro place result hfound
    simp only [utf16Sweep] at hfound ⊢
    split_ifs at hfound with hlong
    obtain rfl := Option.some.inj hfound
    have hcursor := @utf16Text_cursor options bytes little place
    have hlength := toNat_length_le
      ((utf16Text options bytes little place).cursor - place)
    rw [if_pos hlong]
    simp only [decodedString_fileOffset, decodedString_byteLength, true_and]
    split_ifs <;> omega
  · exact List.Pairwise.nil

/-! ## UTF-8 -/

variable (options bytes) in
/-- At this place starts a character that is not ASCII, and with it a text
that is long enough. -/
def StartsText (place : ℕ) : Prop :=
  ¬bytes.getD place 0 < 0x80 ∧
    longEnough options (utf8Text options bytes place).characters
      (utf8Terminated options bytes place) = true

instance (place : ℕ) : Decidable (StartsText options bytes place) :=
  inferInstanceAs (Decidable (_ ∧ _))

variable (options bytes) in
/-- The bytes of the text at a place, as many as 32 bits can count. -/
def textLength (place : ℕ) : ℕ :=
  ((utf8Text options bytes place).cursor - place) % 2 ^ 32

variable (image options bytes) in
/-- Where the UTF-8 texts start that there is room for behind the ASCII
strings. -/
def textStarts : List ℕ :=
  if options.utf8 then
    ((List.range bytes.length).filter fun place =>
      StartsText options bytes place).take
        (options.maximumResults.toNat -
          (asciiFinds image options bytes).length)
  else []

variable (options bytes) in
/-- A text starts inside an earlier one. -/
def StartsInside (place later : ℕ) : Prop :=
  later < place + textLength options bytes place ∧
    0 < textLength options bytes later

variable (image options bytes) in
def utf8String (place : ℕ) : ExtractedString :=
  decodedString image .utf8 place (utf8Text options bytes place)

theorem utf8String_byteLength (place : ℕ) :
    (utf8String image options bytes place).byteLength.toNat =
      textLength options bytes place := by
  rw [utf8String, decodedString_byteLength, UInt32.toNat_ofNat', textLength]

theorem utf8Sweep_places (start : ℕ) :
    (utf8Sweep image options bytes).places bytes.length start =
      List.range' start (bytes.length - start) := by
  induction start using Sweep.places_induction
      (utf8Sweep image options bytes) bytes.length with
  | hend start hend =>
      rw [Sweep.places_of_ge hend, Nat.sub_eq_zero_of_le hend]
      rfl
  | hpass start hstart ih =>
      have hleft : bytes.length - start = bytes.length - (start + 1) + 1 := by
        omega
      have hnext : (utf8Sweep image options bytes).next start = start + 1 := rfl
      rw [Sweep.places_of_lt hstart, ih, hnext, hleft, List.range'_succ]

theorem utf8Sweep_filterMap (places : List ℕ) :
    places.filterMap (utf8Sweep image options bytes).found =
      (places.filter fun place => StartsText options bytes place).map
        (utf8String image options bytes) := by
  induction places with
  | nil => rfl
  | cons place places ih =>
      by_cases hstarts : StartsText options bytes place
      · have hfound : (utf8Sweep image options bytes).found place =
            some (utf8String image options bytes place) := if_pos hstarts
        simp [hfound, hstarts, ih]
      · have hfound : (utf8Sweep image options bytes).found place = none :=
          if_neg hstarts
        simp [hfound, hstarts, ih]

theorem take_utf8Finds :
    (utf8Finds image options bytes).take (options.maximumResults.toNat -
        (asciiFinds image options bytes).length) =
      (textStarts image options bytes).map (utf8String image options bytes) := by
  unfold utf8Finds textStarts
  split_ifs
  · rw [findsUpTo, utf8Sweep_places, utf8Sweep_filterMap, List.map_take,
      Nat.sub_zero, List.range_eq_range']
  · simp

theorem textStarts_sublist :
    (textStarts image options bytes).Sublist (List.range bytes.length) := by
  unfold textStarts
  split_ifs
  · exact (List.take_sublist _ _).trans List.filter_sublist
  · exact List.nil_sublist _

/-- Two texts are apart exactly when the second does not start inside the
first. -/
theorem utf8String_apart {place later : ℕ} (hsize : bytes.length < 2 ^ 64)
    (hinside : later < bytes.length) (hbefore : place < later) :
    Apart (utf8String image options bytes place)
        (utf8String image options bytes later) ↔
      ¬StartsInside options bytes place later := by
  have hplace : (utf8String image options bytes place).fileOffset =
      UInt64.ofNat place := decodedString_fileOffset _ _ _ _
  have hlater : (utf8String image options bytes later).fileOffset =
      UInt64.ofNat later := decodedString_fileOffset _ _ _ _
  have hsame : (utf8String image options bytes place).encoding =
      (utf8String image options bytes later).encoding := by
    simp [utf8String]
  have hoffsets := place_lt_place hsize hinside hbefore
  simp only [Apart, hsame, true_implies, Covers, utf8String_byteLength,
    hplace, hlater, hoffsets, true_and,
    toNat_place hsize (hbefore.trans hinside), toNat_place hsize hinside]
  constructor
  · intro hnone hstarts
    obtain ⟨hreaches, hlength⟩ := hstarts
    apply hnone later
    omega
  · intro hapart position hboth
    apply hapart
    constructor <;> omega

/-! ## The results of a scan -/

theorem utf8Finds_encoding {result : ExtractedString}
    (hresult : result ∈ utf8Finds image options bytes) :
    result.encoding = .utf8 := by
  unfold utf8Finds at hresult
  split_ifs at hresult
  · obtain ⟨place, -, hfound⟩ := List.mem_filterMap.mp hresult
    obtain ⟨-, rfl⟩ := utf8Sweep_found.mp hfound
    exact decodedString_encoding _ _ _ _
  · contradiction

/-- Strings of four encodings are apart when those of each are. -/
theorem pairwise_encodings_iff {ascii utf8 little big : List ExtractedString}
    (hascii : ∀ result ∈ ascii, result.encoding = .ascii)
    (hutf8 : ∀ result ∈ utf8, result.encoding = .utf8)
    (hlittle : ∀ result ∈ little, result.encoding = .utf16Little)
    (hbig : ∀ result ∈ big, result.encoding = .utf16Big) :
    (ascii ++ utf8 ++ little ++ big).Pairwise Apart ↔
      ascii.Pairwise Apart ∧ utf8.Pairwise Apart ∧ little.Pairwise Apart ∧
        big.Pairwise Apart := by
  have hfirst : (ascii ++ utf8).Pairwise Apart ↔
      ascii.Pairwise Apart ∧ utf8.Pairwise Apart := by
    apply pairwise_append_iff
    intro first hfirst second hsecond
    simp [hascii first hfirst, hutf8 second hsecond]
  have hsecond : (ascii ++ utf8 ++ little).Pairwise Apart ↔
      (ascii ++ utf8).Pairwise Apart ∧ little.Pairwise Apart := by
    apply pairwise_append_iff
    intro first hfirst second hsecond
    rcases List.mem_append.mp hfirst with hfirst | hfirst
    · simp [hascii first hfirst, hlittle second hsecond]
    · simp [hutf8 first hfirst, hlittle second hsecond]
  rw [pairwise_append_iff, hsecond, hfirst, and_assoc, and_assoc]
  intro first hfirst second hsecond
  simp only [List.mem_append] at hfirst
  rcases hfirst with (hfirst | hfirst) | hfirst
  · simp [hascii first hfirst, hbig second hsecond]
  · simp [hutf8 first hfirst, hbig second hsecond]
  · simp [hlittle first hfirst, hbig second hsecond]

theorem take_pairwise_iff (hsize : bytes.length < 2 ^ 64) :
    ((allFinds image options bytes).take
        options.maximumResults.toNat).Pairwise Apart ↔
      ((utf8Finds image options bytes).take (options.maximumResults.toNat -
        (asciiFinds image options bytes).length)).Pairwise Apart := by
  have hlittle : ∀ result ∈ utf16Finds image options bytes true,
      result.encoding = .utf16Little := fun _ hresult =>
    encoding_of_utf16 hresult
  have hbig : ∀ result ∈ utf16Finds image options bytes false,
      result.encoding = .utf16Big := fun _ hresult =>
    encoding_of_utf16 hresult
  rw [allFinds, List.take_append, List.take_append, List.take_append,
    pairwise_encodings_iff
      (fun _ hresult => encoding_of_ascii (List.mem_of_mem_take hresult))
      (fun _ hresult => utf8Finds_encoding (List.mem_of_mem_take hresult))
      (fun _ hresult => hlittle _ (List.mem_of_mem_take hresult))
      (fun _ hresult => hbig _ (List.mem_of_mem_take hresult))]
  constructor
  · intro hpairwise
    exact hpairwise.2.1
  · intro hutf8
    refine ⟨?_, hutf8, ?_, ?_⟩
    · exact (asciiFinds_pairwise hsize).sublist (List.take_sublist _ _)
    · exact (utf16Finds_pairwise hsize true).sublist (List.take_sublist _ _)
    · exact (utf16Finds_pairwise hsize false).sublist (List.take_sublist _ _)

/-- No text is reported twice exactly when no UTF-8 text, of those there is
room for, starts inside an earlier one. -/
theorem reported_once_iff (limits : Limits) (image : BinaryImage)
    (options : StringScanOptions) (bytes : Bytes)
    (found : List ExtractedString) (hdata : image.fileData = some bytes)
    (hsize : bytes.length < 2 ^ 64)
    (hscan : scan limits image options = .ok found) :
    found.Pairwise Apart ↔
      (textStarts image options bytes).Pairwise fun place later =>
        ¬StartsInside options bytes place later := by
  obtain ⟨data, hfile, -, rfl⟩ := (scan_eq_ok image options).mp hscan
  obtain rfl := Option.some.inj (hdata.symm.trans hfile)
  have hordered : (textStarts image options bytes).Pairwise (· < ·) :=
    List.pairwise_lt_range.sublist textStarts_sublist
  rw [take_pairwise_iff hsize, take_utf8Finds, List.pairwise_map]
  constructor
  · intro hapart
    apply (hapart.and hordered).imp_of_mem
    intro place later _ hlater hboth
    have hinside := List.mem_range.mp (textStarts_sublist.subset hlater)
    exact (utf8String_apart hsize hinside hboth.2).mp hboth.1
  · intro houtside
    apply (houtside.and hordered).imp_of_mem
    intro place later _ hlater hboth
    have hinside := List.mem_range.mp (textStarts_sublist.subset hlater)
    exact (utf8String_apart hsize hinside hboth.2).mpr hboth.1

theorem reported_once_iff_accentFile :
    ((allFinds { fileData := some accentFile } singleLetters
        accentFile).take 100000).Pairwise Apart ↔
      (textStarts { fileData := some accentFile } singleLetters
        accentFile).Pairwise fun place later =>
          ¬StartsInside singleLetters accentFile place later :=
  reported_once_iff {} { fileData := some accentFile } singleLetters accentFile
    _ rfl (by decide)
    ((scan_eq_ok _ _).mpr ⟨accentFile, rfl, by decide, rfl⟩)

def twoAccents : Bytes := [0xc3, 0xa9, 0xc3, 0xa9]

/-- The second letter is reported twice, the first time as part of both. -/
theorem twoAccents_reported_twice :
    ∃ found, scan {} { fileData := some twoAccents } singleLetters = .ok found ∧
      ¬found.Pairwise Apart := by
  refine ⟨[utf8String { fileData := some twoAccents } singleLetters twoAccents 0,
    utf8String { fileData := some twoAccents } singleLetters twoAccents 2],
    by decide +kernel, ?_⟩
  intro hpairwise
  have hapart := List.pairwise_pair.mp hpairwise
  obtain ⟨-, hnone⟩ := hapart (by decide)
  apply hnone 2
  constructor
  · exact ⟨by decide, by decide⟩
  · exact ⟨by decide, by decide⟩

end StringScanner
end BinForge
