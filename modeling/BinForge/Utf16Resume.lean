import BinForge.StringScan

/-!
# Long runs of code units

A run of code units that is longer than a string may be could be reported as
one string after the other.  The loop over code units leaves the byte behind
every string it reports, whatever ended the string.
-/

namespace BinForge

open StatefulExcept
open ListSplice

namespace StringScanner

variable {image : BinaryImage} {options : StringScanOptions} {bytes : Bytes}
  {little : Bool}

/-! ## Runs of code units -/

/-- There is no more of a text. -/
def Stopped (little : Bool) (bytes : Bytes) (run : TextRun) : Prop :=
  ¬(run.cursor + 1 < bytes.length ∧
    endsUtf16 (utf16Unit little bytes run.cursor) = false)

theorem utf16Run_of_stopped {run : TextRun}
    (hstopped : Stopped little bytes run) (room : ℕ) :
    utf16Run little bytes room run = run := by
  cases room with
  | zero => rfl
  | succ room => exact if_neg hstopped

/-- A text that is not as long as it could be has come to an end. -/
theorem utf16Run_stopped {room : ℕ} {run : TextRun}
    (hshort : (utf16Run little bytes room run).characters ≠
      run.characters + room) :
    Stopped little bytes (utf16Run little bytes room run) := by
  induction room generalizing run with
  | zero => exact absurd rfl hshort
  | succ room ih =>
      rw [utf16Run] at hshort ⊢
      split_ifs at hshort ⊢ with hunit
      · apply ih
        intro hlength
        apply hshort
        rw [hlength, Nat.add_assoc, Nat.add_comm 1]
      · exact hunit

theorem utf16Run_add (room more : ℕ) (run : TextRun) :
    utf16Run little bytes (room + more) run =
      utf16Run little bytes more (utf16Run little bytes room run) := by
  induction room generalizing run with
  | zero => rw [Nat.zero_add, utf16Run]
  | succ room ih =>
      rw [Nat.succ_add, utf16Run, utf16Run]
      split_ifs with hunit
      · exact ih _
      · exact (utf16Run_of_stopped hunit more).symm

theorem appendUtf8_append (output : Bytes) (point : UInt32) :
    appendUtf8 output point = output ++ appendUtf8 [] point := by
  unfold appendUtf8
  split_ifs <;> rfl

theorem utf16Run_value (room : ℕ) (run : TextRun) :
    (utf16Run little bytes room run).value =
      run.value ++ (utf16Run little bytes room
        { cursor := run.cursor }).value := by
  induction room generalizing run with
  | zero => exact (List.append_nil _).symm
  | succ room ih =>
      rw [utf16Run, utf16Run]
      split_ifs with hunit
      · have hrest := ih
          { cursor := run.cursor + 2, characters := run.characters + 1
            value := appendUtf8 run.value
              (utf16Unit little bytes run.cursor).toUInt32 }
        have hplain := ih
          { cursor := run.cursor + 2, characters := 0 + 1
            value := appendUtf8 []
              (utf16Unit little bytes run.cursor).toUInt32 }
        rw [hrest, hplain, appendUtf8_append, List.append_assoc]
      · exact (List.append_nil _).symm

/-- All units from a place on up to the first that is not text. -/
def wholeRun (little : Bool) (bytes : Bytes) (place : ℕ) : TextRun :=
  utf16Run little bytes bytes.length { cursor := place }

theorem wholeRun_stopped (place : ℕ) :
    Stopped little bytes (wholeRun little bytes place) := by
  have hcursor : (wholeRun little bytes place).cursor + 2 * 0 =
      place + 2 * (wholeRun little bytes place).characters := utf16Run_cursor
  by_cases hshort : (wholeRun little bytes place).characters = bytes.length
  · rintro ⟨hinside, -⟩
    omega
  · apply utf16Run_stopped
    rw [Nat.zero_add]
    exact hshort

theorem wholeRun_value (place : ℕ) :
    (wholeRun little bytes place).value =
      (utf16Text options bytes little place).value ++
        (wholeRun little bytes
          (utf16Text options bytes little place).cursor).value := by
  have hwhole : utf16Run little bytes options.maximumCharacters.toNat
      (wholeRun little bytes place) = wholeRun little bytes place :=
    utf16Run_of_stopped (wholeRun_stopped place) _
  rw [← hwhole, wholeRun, ← utf16Run_add, Nat.add_comm, utf16Run_add,
    utf16Run_value, wholeRun]
  rfl

theorem wholeRun_of_stopped {place : ℕ}
    (hstopped : Stopped little bytes { cursor := place }) :
    wholeRun little bytes place = { cursor := place } :=
  utf16Run_of_stopped hstopped _

/-- Where a text is shorter than it could be, the next one is empty. -/
theorem stopped_cursor {place : ℕ}
    (hshort : (utf16Text options bytes little place).characters ≠
      options.maximumCharacters.toNat) :
    Stopped little bytes
      { cursor := (utf16Text options bytes little place).cursor } := by
  apply @utf16Run_stopped _ _ _ { cursor := place }
  rw [Nat.zero_add]
  exact hshort

theorem utf16Text_of_stopped {place : ℕ}
    (hstopped : Stopped little bytes { cursor := place }) :
    utf16Text options bytes little place = { cursor := place } :=
  utf16Run_of_stopped hstopped _

/-! ## Pieces of a run -/

variable (image options bytes little)

def utf16String (place : ℕ) : ExtractedString :=
  decodedString image (utf16Encoding little) place
    (utf16Text options bytes little place)

/-- The text at a place is as long as a string may be. -/
def CutShort (place : ℕ) : Prop :=
  (utf16Text options bytes little place).characters =
    options.maximumCharacters.toNat

instance (place : ℕ) : Decidable (CutShort options bytes little place) :=
  inferInstanceAs (Decidable (_ = _))

/-- These strings are the run at a place, one after the other at the distance
of full strings, except for an end that is too short to be reported. -/
structure Chunked (place : ℕ) (pieces : List ExtractedString) : Prop where
  aligned : ∀ index piece, pieces[index]? = some piece →
    piece.fileOffset = UInt64.ofNat
      (place + index * (2 * options.maximumCharacters.toNat))
  value : ∃ stop, (utf16Text options bytes little stop).characters <
      options.minimumCharacters.toNat ∧
    (wholeRun little bytes place).value =
      pieces.flatMap (·.value) ++ (utf16Text options bytes little stop).value

/-- The strings from a place on when each starts where the one before ends. -/
def pieces : ℕ → ℕ → List ExtractedString
  | 0, _ => []
  | passes + 1, place =>
      let text := utf16Text options bytes little place
      if text.characters < options.minimumCharacters.toNat then []
      else utf16String image options bytes little place ::
        if CutShort options bytes little place then pieces passes text.cursor
        else []

variable {image options bytes little}

theorem Chunked.nil {place : ℕ}
    (hlimits : options.minimumCharacters.toNat ≤
      options.maximumCharacters.toNat)
    (hshort : (utf16Text options bytes little place).characters <
      options.minimumCharacters.toNat) :
    Chunked options bytes little place [] where
  aligned _ _ hpiece := by simp at hpiece
  value := by
    have hstopped := stopped_cursor (hshort.trans_le hlimits).ne
    refine ⟨place, hshort, ?_⟩
    rw [wholeRun_value, wholeRun_of_stopped hstopped, List.append_nil]
    rfl

theorem Chunked.cons {place : ℕ} {rest : List ExtractedString}
    (hcut : CutShort options bytes little place)
    (hrest : Chunked options bytes little
      (utf16Text options bytes little place).cursor rest) :
    Chunked options bytes little place
      (utf16String image options bytes little place :: rest) where
  aligned index piece hpiece := by
    cases index with
    | zero =>
        obtain rfl := Option.some.inj hpiece
        simp [utf16String]
    | succ index =>
        have hcursor := @utf16Text_cursor options bytes little place
        rw [hrest.aligned index piece hpiece, hcursor, hcut, Nat.succ_mul index,
          Nat.add_comm (index * _), Nat.add_assoc]
  value := by
    obtain ⟨stop, hshort, hvalue⟩ := hrest.value
    refine ⟨stop, hshort, ?_⟩
    rw [wholeRun_value, hvalue, List.flatMap_cons, utf16String,
      decodedString_value, List.append_assoc]

theorem Chunked.single {place : ℕ}
    (hpositive : 0 < options.minimumCharacters.toNat)
    (hend : ¬CutShort options bytes little place) :
    Chunked options bytes little place
      [utf16String image options bytes little place] where
  aligned index piece hpiece := by
    cases index with
    | zero =>
        obtain rfl := Option.some.inj hpiece
        simp [utf16String]
    | succ index => simp at hpiece
  value := by
    have hstopped := stopped_cursor hend
    refine ⟨(utf16Text options bytes little place).cursor, ?_, ?_⟩
    · rw [utf16Text_of_stopped hstopped]
      exact hpositive
    · rw [wholeRun_value, wholeRun_of_stopped hstopped,
        utf16Text_of_stopped hstopped, List.flatMap_singleton, utf16String,
        decodedString_value]

theorem chunked_pieces (hpositive : 0 < options.minimumCharacters.toNat)
    (hlimits : options.minimumCharacters.toNat ≤
      options.maximumCharacters.toNat)
    {passes place : ℕ} (hpasses : bytes.length ≤ place + passes) :
    Chunked options bytes little place
      (pieces image options bytes little passes place) := by
  induction passes generalizing place with
  | zero =>
      have hstopped : Stopped little bytes { cursor := place } := by
        intro hboth
        have hinside : place + 1 < bytes.length := hboth.1
        omega
      apply Chunked.nil hlimits
      rw [utf16Text_of_stopped hstopped]
      exact hpositive
  | succ passes ih =>
      simp only [pieces]
      split_ifs with hshort hcut
      · exact Chunked.nil hlimits hshort
      · apply Chunked.cons hcut
        apply ih
        have hcursor := @utf16Text_cursor options bytes little place
        have hcharacters : (utf16Text options bytes little place).characters =
          options.maximumCharacters.toNat := hcut
        omega
      · exact Chunked.single hpositive hcut

/-! ## The loop -/

variable (image options bytes little)

/-- The loop over code units, started with the strings of earlier loops, comes
to look for a string at a place. -/
def Examines (earlier : List ExtractedString) (place : ℕ)
    (result : List ExtractedString) : Prop :=
  (utf16Sweep image options bytes little).Reaches (bytes.length - 1)
      options.maximumResults.toNat 0 earlier place result ∧
    goesOn options bytes (place + 1) result = true

/-- After a string that ends only because it may not be longer, the loop looks
at the place it ends at, and it reports the run as pieces of full length as
far as there is room. -/
structure Resumes (earlier : List ExtractedString) (place : ℕ)
    (result : List ExtractedString) : Prop where
  next : goesOn options bytes
      ((utf16Text options bytes little place).cursor + 1)
      (result ++ [utf16String image options bytes little place]) = true →
    Examines image options bytes little earlier
      (utf16Text options bytes little place).cursor
      (result ++ [utf16String image options bytes little place])
  chunks : ∃ pieces, Chunked options bytes little place pieces ∧
    (result ++ pieces).take options.maximumResults.toNat <+:
      utf16Loop image options bytes little bytes.length 0 earlier

variable {image options bytes little}

theorem goesOn_eq_true {place : ℕ} {result : List ExtractedString} :
    goesOn options bytes place result = true ↔
      place < bytes.length ∧ result.length < options.maximumResults.toNat := by
  rw [goesOn, decide_eq_true_iff]

theorem longEnough_of_cutShort {place : ℕ} {terminated : Bool}
    (hlimits : options.minimumCharacters.toNat ≤
      options.maximumCharacters.toNat)
    (hterminator : options.requireTerminator = false)
    (hcut : CutShort options bytes little place) :
    longEnough options (utf16Text options bytes little place).characters
      terminated = true := by
  rw [longEnough, decide_eq_true_iff]
  refine ⟨?_, Or.inl hterminator⟩
  rw [hcut]
  exact hlimits

theorem found_of_cutShort {place : ℕ}
    (hlimits : options.minimumCharacters.toNat ≤
      options.maximumCharacters.toNat)
    (hterminator : options.requireTerminator = false)
    (hcut : CutShort options bytes little place) :
    (utf16Sweep image options bytes little).found place =
      some (utf16String image options bytes little place) :=
  if_pos (longEnough_of_cutShort hlimits hterminator hcut)

/-- Behind a string the loop always leaves a byte out. -/
theorem cursor_lt_next {place : ℕ}
    (hlimits : options.minimumCharacters.toNat ≤
      options.maximumCharacters.toNat)
    (hterminator : options.requireTerminator = false)
    (hcut : CutShort options bytes little place) :
    (utf16Text options bytes little place).cursor <
      (utf16Sweep image options bytes little).next place := by
  have hnext : (utf16Sweep image options bytes little).next place =
      (utf16Text options bytes little place).cursor +
        (if utf16Terminated options bytes little place then 1 else 0) + 1 :=
    if_pos (longEnough_of_cutShort hlimits hterminator hcut)
  rw [hnext]
  split_ifs <;> omega

theorem not_examines_cursor {earlier result longer : List ExtractedString}
    {place : ℕ}
    (hlimits : options.minimumCharacters.toNat ≤
      options.maximumCharacters.toNat)
    (hterminator : options.requireTerminator = false)
    (hpositive : 0 < options.maximumCharacters.toNat)
    (hexamines : Examines image options bytes little earlier place result)
    (hcut : CutShort options bytes little place) :
    ¬Examines image options bytes little earlier
      (utf16Text options bytes little place).cursor longer := by
  intro hresumes
  have hplace := (goesOn_eq_true.mp hexamines.2).1
  have hcursor := (goesOn_eq_true.mp hresumes.2).1
  have hlength := @utf16Text_cursor options bytes little place
  rw [hcut] at hlength
  have hnext := Sweep.next_le_of_mem_places
    (hexamines.1.mem_places (by omega)) (hresumes.1.mem_places (by omega))
    (by omega)
  exact absurd hnext
    (not_le.mpr (cursor_lt_next hlimits hterminator hcut))

theorem prefix_utf16Loop {earlier result : List ExtractedString} {place : ℕ}
    (hlimits : options.minimumCharacters.toNat ≤
      options.maximumCharacters.toNat)
    (hterminator : options.requireTerminator = false)
    (hexamines : Examines image options bytes little earlier place result)
    (hcut : CutShort options bytes little place) :
    result ++ [utf16String image options bytes little place] <+:
      utf16Loop image options bytes little bytes.length 0 earlier := by
  obtain ⟨hplace, hroom⟩ := goesOn_eq_true.mp hexamines.2
  have hinside : place < bytes.length - 1 := by omega
  have hleft : options.maximumResults.toNat - result.length =
      options.maximumResults.toNat - result.length - 1 + 1 := by omega
  have hrun := hexamines.1.run_eq
  rw [Sweep.run_eq _ (le_refl _)] at hrun
  rw [utf16Loop_eq_run, Sweep.run_eq _ (by omega), hrun,
    Sweep.run_eq _ (le_refl _), Sweep.places_of_lt hinside,
    List.filterMap_cons, found_of_cutShort hlimits hterminator hcut, hleft,
    List.take_succ_cons]
  exact ⟨_, (List.append_cons _ _ _).symm⟩

variable (image options bytes little) in
/-- No string that may not be longer leaves two bytes of the file behind it
and room for another result. -/
def EndsThere (earlier : List ExtractedString) : Prop :=
  ∀ place result,
    Examines image options bytes little earlier place result →
      CutShort options bytes little place →
        ¬((utf16Text options bytes little place).cursor + 1 < bytes.length ∧
          result.length + 1 < options.maximumResults.toNat)

theorem resumes_of_end {earlier result : List ExtractedString} {place : ℕ}
    (hpositive : 0 < options.minimumCharacters.toNat)
    (hlimits : options.minimumCharacters.toNat ≤
      options.maximumCharacters.toNat)
    (hterminator : options.requireTerminator = false)
    (hexamines : Examines image options bytes little earlier place result)
    (hcut : CutShort options bytes little place)
    (hend : ¬((utf16Text options bytes little place).cursor + 1 <
        bytes.length ∧ result.length + 1 < options.maximumResults.toNat)) :
    Resumes image options bytes little earlier place result := by
  have hkept := prefix_utf16Loop hlimits hterminator hexamines hcut
  obtain ⟨-, hroom⟩ := goesOn_eq_true.mp hexamines.2
  constructor
  · intro hgoes
    obtain ⟨hinside, hmore⟩ := goesOn_eq_true.mp hgoes
    rw [List.length_append, List.length_singleton] at hmore
    exact absurd ⟨hinside, hmore⟩ hend
  · by_cases hinside :
        (utf16Text options bytes little place).cursor + 1 < bytes.length
    · -- no room for a second piece
      have hfull : options.maximumResults.toNat = result.length + 1 := by
        omega
      have hmore := @chunked_pieces image options bytes little hpositive
        hlimits _ _ (Nat.le_add_left bytes.length
          (utf16Text options bytes little place).cursor)
      refine ⟨utf16String image options bytes little place :: _,
        Chunked.cons hcut hmore, ?_⟩
      rw [hfull, List.take_length_add_append, List.take_succ_cons,
        List.take_zero]
      exact hkept
    · -- no bytes for a second piece
      have hstopped : Stopped little bytes
          { cursor := (utf16Text options bytes little place).cursor } :=
        fun hboth => hinside hboth.1
      have hnothing : Chunked options bytes little
          (utf16Text options bytes little place).cursor [] := by
        apply Chunked.nil hlimits
        rw [utf16Text_of_stopped hstopped]
        exact hpositive
      refine ⟨[utf16String image options bytes little place],
        Chunked.cons hcut hnothing, ?_⟩
      exact (List.take_prefix _ _).trans hkept

/-- The loop over code units goes on where each string ends exactly when it
never goes on behind a string that may not be longer. -/
theorem resumes_iff (limits : Limits) (image : BinaryImage)
    (options : StringScanOptions) (bytes : Bytes) (little : Bool)
    (earlier : List ExtractedString)
    (haccepted : badOptions limits options = false)
    (hterminator : options.requireTerminator = false) :
    (∀ place result,
      Examines image options bytes little earlier place result →
        CutShort options bytes little place →
          Resumes image options bytes little earlier place result) ↔
      EndsThere image options bytes little earlier := by
  obtain ⟨hpositive, hlimits⟩ := bounds_of_accepted haccepted
  constructor
  · intro hresumes place result hexamines hcut hgoes
    have hnext := (hresumes place result hexamines hcut).next
    apply not_examines_cursor hlimits hterminator (hpositive.trans_le hlimits)
      hexamines hcut
    apply hnext
    rw [goesOn_eq_true, List.length_append]
    exact hgoes
  · intro hends place result hexamines hcut
    exact resumes_of_end hpositive hlimits hterminator hexamines hcut
      (hends place result hexamines hcut)

/-- Three letters in code units of two bytes, one letter to a string. -/
def threeLetters : Bytes := [0x61, 0x00, 0x62, 0x00, 0x63, 0x00]

def oneLetterStrings : StringScanOptions :=
  { minimumCharacters := 1, maximumCharacters := 1, ascii := false
    utf8 := false }

theorem resumes_iff_threeLetters :
    (∀ place result,
      Examines {} oneLetterStrings threeLetters true [] place result →
        CutShort oneLetterStrings threeLetters true place →
          Resumes {} oneLetterStrings threeLetters true [] place result) ↔
      EndsThere {} oneLetterStrings threeLetters true [] :=
  resumes_iff {} {} oneLetterStrings threeLetters true [] (by decide) rfl

/-- Behind the first letter the loop goes on in the middle of the second. -/
theorem threeLetters_misaligned :
    ¬∀ place result,
      Examines { fileData := some threeLetters } oneLetterStrings threeLetters
          true [] place result →
        CutShort oneLetterStrings threeLetters true place →
          Resumes { fileData := some threeLetters } oneLetterStrings
            threeLetters true [] place result := by
  intro hresumes
  have hexamines : Examines { fileData := some threeLetters } oneLetterStrings
      threeLetters true [] 0 [] := ⟨.refl 0 [], by decide⟩
  have hnext := (hresumes 0 [] hexamines (by decide)).next (by decide)
  exact not_examines_cursor (by decide) rfl (by decide) hexamines (by decide)
    hnext

end StringScanner
end BinForge
