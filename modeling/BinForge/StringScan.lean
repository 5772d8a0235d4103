import BinForge.Scanners
import BinForge.Sweep

/-!
# The loops of the string scanner

Each of the three loops is a sweep over the file: at a place it reports at most
one string, and it goes on behind the place.  The scan as a whole reports the
first strings of those that its loops find one after the other.
-/

namespace BinForge

open StatefulExcept
open ListSplice

namespace StringScanner

variable (image : BinaryImage) (options : StringScanOptions) (bytes : Bytes)

/-! ## Where texts end -/

def asciiStop (start : ℕ) : ℕ :=
  asciiEnd bytes options.maximumCharacters.toNat start

def asciiTerminated (start : ℕ) : Bool :=
  asciiStop options bytes start < bytes.length ∧
    bytes.getD (asciiStop options bytes start) 0 = 0

def utf8Text (start : ℕ) : TextRun :=
  utf8Run bytes options.maximumCharacters.toNat { cursor := start }

def utf8Terminated (start : ℕ) : Bool :=
  (utf8Text options bytes start).cursor < bytes.length ∧
    bytes.getD (utf8Text options bytes start).cursor 0 = 0

def utf16Text (little : Bool) (start : ℕ) : TextRun :=
  utf16Run little bytes options.maximumCharacters.toNat { cursor := start }

def utf16Terminated (little : Bool) (start : ℕ) : Bool :=
  let stop := (utf16Text options bytes little start).cursor
  stop + 1 < bytes.length ∧ bytes.getD stop 0 = 0 ∧
    bytes.getD (stop + 1) 0 = 0

variable {options bytes}

theorem le_asciiEnd {room cursor : ℕ} :
    cursor ≤ asciiEnd bytes room cursor := by
  induction room generalizing cursor with
  | zero => exact le_refl _
  | succ room ih =>
      rw [asciiEnd]
      split_ifs
      · exact (Nat.le_succ cursor).trans ih
      · exact le_refl _

/-- Every unit is two bytes long. -/
theorem utf16Run_cursor {little : Bool} {room : ℕ} {run : TextRun} :
    (utf16Run little bytes room run).cursor + 2 * run.characters =
      run.cursor + 2 * (utf16Run little bytes room run).characters := by
  induction room generalizing run with
  | zero => rfl
  | succ room ih =>
      rw [utf16Run]
      split_ifs
      · have hrest := @ih
          { cursor := run.cursor + 2, characters := run.characters + 1
            value := appendUtf8 run.value
              (utf16Unit little bytes run.cursor).toUInt32 }
        simp only at hrest ⊢
        omega
      · rfl

theorem utf16Text_cursor {little : Bool} {start : ℕ} :
    (utf16Text options bytes little start).cursor =
      start + 2 * (utf16Text options bytes little start).characters := by
  have hcursor : (utf16Text options bytes little start).cursor + 2 * 0 =
      start + 2 * (utf16Text options bytes little start).characters :=
    utf16Run_cursor
  omega

/-! ## The loops as sweeps -/

variable (options bytes)

/-- The string of ASCII text between two places. -/
def asciiString (start stop : ℕ) : ExtractedString :=
  populateLocation image
    { fileOffset := UInt64.ofNat start, encoding := .ascii
      value := slice bytes start (stop - start)
      byteLength := UInt32.ofNat (stop - start) }

/-- The string of a text that was decoded from a place on. -/
def decodedString (encoding : StringEncoding) (start : ℕ) (run : TextRun) :
    ExtractedString :=
  populateLocation image
    { fileOffset := UInt64.ofNat start, encoding, value := run.value
      byteLength := UInt32.ofNat (run.cursor - start) }

@[simp] theorem decodedString_fileOffset (encoding : StringEncoding)
    (start : ℕ) (run : TextRun) :
    (decodedString image encoding start run).fileOffset =
      UInt64.ofNat start := by
  simp [decodedString]

@[simp] theorem decodedString_encoding (encoding : StringEncoding)
    (start : ℕ) (run : TextRun) :
    (decodedString image encoding start run).encoding =
      encoding := by
  simp [decodedString]

@[simp] theorem decodedString_value (encoding : StringEncoding)
    (start : ℕ) (run : TextRun) :
    (decodedString image encoding start run).value =
      run.value := by
  simp [decodedString]

@[simp] theorem decodedString_byteLength (encoding : StringEncoding)
    (start : ℕ) (run : TextRun) :
    (decodedString image encoding start run).byteLength =
      UInt32.ofNat (run.cursor - start) := by
  simp [decodedString]

def utf16Encoding (little : Bool) : StringEncoding :=
  if little then .utf16Little else .utf16Big

def asciiSweep : Sweep ExtractedString where
  found start :=
    if asciiCharacter (bytes.getD start 0) = true ∧
        longEnough options (asciiStop options bytes start - start)
          (asciiTerminated options bytes start) = true then
      some (asciiString image bytes start (asciiStop options bytes start))
    else none
  next start :=
    if asciiCharacter (bytes.getD start 0) = false then start + 1
    else if asciiStop options bytes start = start then start + 1
    else asciiStop options bytes start +
      if asciiTerminated options bytes start then 1 else 0
  ahead start := by
    have hstop : start ≤ asciiStop options bytes start := le_asciiEnd
    split_ifs <;> omega

def utf8Sweep : Sweep ExtractedString where
  found start :=
    if ¬bytes.getD start 0 < 0x80 ∧
        longEnough options (utf8Text options bytes start).characters
          (utf8Terminated options bytes start) = true then
      some (decodedString image .utf8 start (utf8Text options bytes start))
    else none
  next start := start + 1
  ahead start := Nat.lt_succ_self start

def utf16Sweep (little : Bool) : Sweep ExtractedString where
  found start :=
    if longEnough options (utf16Text options bytes little start).characters
        (utf16Terminated options bytes little start) = true then
      some (decodedString image (utf16Encoding little) start
        (utf16Text options bytes little start))
    else none
  next start :=
    if longEnough options (utf16Text options bytes little start).characters
        (utf16Terminated options bytes little start) = true then
      (utf16Text options bytes little start).cursor +
        (if utf16Terminated options bytes little start then 1 else 0) + 1
    else start + 1
  ahead start := by
    have hcursor := @utf16Text_cursor options bytes little start
    split_ifs <;> omega

theorem goesOn_iff {place : ℕ} {result : List ExtractedString} :
    goesOn options bytes place result = false ↔
      ¬(place < bytes.length ∧
        result.length < options.maximumResults.toNat) := by
  rw [goesOn, decide_eq_false_iff_not]

/-- A loop whose passes are those of a sweep is the sweep. -/
theorem eq_run_of_pass {loop : ℕ → ℕ → List ExtractedString →
      List ExtractedString} {sweep : Sweep ExtractedString} {limit maximum : ℕ}
    (hzero : ∀ start result, loop 0 start result = result)
    (hpass : ∀ passes start result, loop (passes + 1) start result =
      if start < limit ∧ result.length < maximum then
        loop passes (sweep.next start) (result ++ (sweep.found start).toList)
      else result)
    (passes start : ℕ) (result : List ExtractedString) :
    loop passes start result = sweep.run limit maximum passes start result := by
  induction passes generalizing start result with
  | zero => exact hzero start result
  | succ passes ih => rw [hpass, Sweep.run, ih]

theorem asciiLoop_eq_run (passes start : ℕ) (result : List ExtractedString) :
    asciiLoop image options bytes passes start result =
      (asciiSweep image options bytes).run bytes.length
        options.maximumResults.toNat passes start result := by
  apply eq_run_of_pass
  · intro start result
    rfl
  · intro passes start result
    rw [asciiLoop]
    by_cases hgoes : start < bytes.length ∧
        result.length < options.maximumResults.toNat
    · rw [if_neg (mt (goesOn_iff options bytes).mp (not_not.mpr hgoes)),
        if_pos hgoes]
      by_cases htext : asciiCharacter (bytes.getD start 0) = false
      · have hfound : (asciiSweep image options bytes).found start = none := by
          apply if_neg
          intro hboth
          rw [htext] at hboth
          exact Bool.false_ne_true hboth.1
        have hnext : (asciiSweep image options bytes).next start = start + 1 :=
          if_pos htext
        rw [if_pos htext, hfound, hnext, Option.toList_none, List.append_nil]
      · have hnext : (asciiSweep image options bytes).next start =
            if asciiStop options bytes start = start then start + 1
            else asciiStop options bytes start +
              if asciiTerminated options bytes start then 1 else 0 :=
          if_neg htext
        rw [if_neg htext, hnext]
        by_cases hlong : longEnough options
            (asciiStop options bytes start - start)
            (asciiTerminated options bytes start) = true
        · have hfound : (asciiSweep image options bytes).found start =
              some (asciiString image bytes start
                (asciiStop options bytes start)) :=
            if_pos ⟨Bool.not_eq_false _ ▸ htext, hlong⟩
          rw [hfound]
          exact if_pos hlong
        · have hfound : (asciiSweep image options bytes).found start = none :=
            if_neg fun hboth => hlong hboth.2
          rw [hfound, Option.toList_none, List.append_nil]
          exact if_neg hlong
    · rw [if_pos ((goesOn_iff options bytes).mpr hgoes), if_neg hgoes]

theorem utf8Loop_eq_run (passes start : ℕ) (result : List ExtractedString) :
    utf8Loop image options bytes passes start result =
      (utf8Sweep image options bytes).run bytes.length
        options.maximumResults.toNat passes start result := by
  apply eq_run_of_pass
  · intro start result
    rfl
  · intro passes start result
    have hnext : (utf8Sweep image options bytes).next start = start + 1 := rfl
    rw [utf8Loop, hnext]
    by_cases hgoes : start < bytes.length ∧
        result.length < options.maximumResults.toNat
    · rw [if_neg (mt (goesOn_iff options bytes).mp (not_not.mpr hgoes)),
        if_pos hgoes]
      by_cases hlead : bytes.getD start 0 < 0x80
      · have hfound : (utf8Sweep image options bytes).found start = none :=
          if_neg fun hboth => hboth.1 hlead
        rw [if_pos hlead, hfound, Option.toList_none, List.append_nil]
      · rw [if_neg hlead]
        by_cases hlong : longEnough options
            (utf8Text options bytes start).characters
            (utf8Terminated options bytes start) = true
        · have hfound : (utf8Sweep image options bytes).found start =
              some (decodedString image .utf8 start
                (utf8Text options bytes start)) := if_pos ⟨hlead, hlong⟩
          rw [hfound]
          exact if_pos hlong
        · have hfound : (utf8Sweep image options bytes).found start = none :=
            if_neg fun hboth => hlong hboth.2
          rw [hfound, Option.toList_none, List.append_nil]
          exact if_neg hlong
    · rw [if_pos ((goesOn_iff options bytes).mpr hgoes), if_neg hgoes]

/-- The loop over code units stops a byte before the end. -/
theorem utf16Loop_eq_run (little : Bool) (passes start : ℕ)
    (result : List ExtractedString) :
    utf16Loop image options bytes little passes start result =
      (utf16Sweep image options bytes little).run (bytes.length - 1)
        options.maximumResults.toNat passes start result := by
  apply eq_run_of_pass
  · intro start result
    rfl
  · intro passes start result
    have hlimit : start < bytes.length - 1 ↔ start + 1 < bytes.length := by
      omega
    rw [utf16Loop]
    by_cases hgoes : start < bytes.length - 1 ∧
        result.length < options.maximumResults.toNat
    · have hroom : start + 1 < bytes.length ∧
          result.length < options.maximumResults.toNat :=
        ⟨hlimit.mp hgoes.1, hgoes.2⟩
      rw [if_neg (mt (goesOn_iff options bytes).mp (not_not.mpr hroom)),
        if_pos hgoes]
      by_cases hlong : longEnough options
          (utf16Text options bytes little start).characters
          (utf16Terminated options bytes little start) = true
      · have hfound : (utf16Sweep image options bytes little).found start =
            some (decodedString image (utf16Encoding little) start
              (utf16Text options bytes little start)) := if_pos hlong
        have hnext : (utf16Sweep image options bytes little).next start =
            (utf16Text options bytes little start).cursor +
              (if utf16Terminated options bytes little start then 1
                else 0) + 1 := if_pos hlong
        rw [hfound, hnext]
        exact if_pos hlong
      · have hfound : (utf16Sweep image options bytes little).found start =
            none := if_neg hlong
        have hnext : (utf16Sweep image options bytes little).next start =
            start + 1 := if_neg hlong
        rw [hfound, hnext, Option.toList_none, List.append_nil]
        exact if_neg hlong
    · have hstop : goesOn options bytes (start + 1) result = false := by
        apply (goesOn_iff options bytes).mpr
        rintro ⟨hplace, hroom⟩
        exact hgoes ⟨hlimit.mpr hplace, hroom⟩
      rw [if_pos hstop, if_neg hgoes]

/-! ## The ends of the loops

A loop may run out of passes as well as come to its end.  With a pass for each
byte it never runs out: its result is that of the run without any bound. -/

variable {image options bytes}

theorem asciiLoop_ends_iff {passes start : ℕ}
    {result final : List ExtractedString}
    (hpasses : bytes.length - start ≤ passes) :
    (asciiSweep image options bytes).Returns bytes.length
        options.maximumResults.toNat start result final ↔
      asciiLoop image options bytes passes start result = final := by
  rw [asciiLoop_eq_run]
  exact Sweep.returns_iff hpasses

theorem utf8Loop_ends_iff {passes start : ℕ}
    {result final : List ExtractedString}
    (hpasses : bytes.length - start ≤ passes) :
    (utf8Sweep image options bytes).Returns bytes.length
        options.maximumResults.toNat start result final ↔
      utf8Loop image options bytes passes start result = final := by
  rw [utf8Loop_eq_run]
  exact Sweep.returns_iff hpasses

theorem utf16Loop_ends_iff {little : Bool} {passes start : ℕ}
    {result final : List ExtractedString}
    (hpasses : bytes.length - 1 - start ≤ passes) :
    (utf16Sweep image options bytes little).Returns (bytes.length - 1)
        options.maximumResults.toNat start result final ↔
      utf16Loop image options bytes little passes start result = final := by
  rw [utf16Loop_eq_run]
  exact Sweep.returns_iff hpasses

/-! ## The scan -/

variable (image options bytes)

theorem bounds_of_accepted {limits : Limits} {options : StringScanOptions}
    (haccepted : badOptions limits options = false) :
    0 < options.minimumCharacters.toNat ∧
      options.minimumCharacters.toNat ≤ options.maximumCharacters.toNat := by
  rw [badOptions, decide_eq_false_iff_not, not_or, not_or] at haccepted
  obtain ⟨hminimum, horder, -⟩ := haccepted
  constructor
  · apply Nat.pos_of_ne_zero
    intro hzero
    exact hminimum (UInt32.toNat_inj.mp hzero)
  · exact UInt32.le_iff_toNat_le.mp (UInt32.not_lt.mp horder)

/-- The strings a sweep finds from the start of the file up to a limit. -/
def findsUpTo (limit : ℕ) (sweep : Sweep ExtractedString) :
    List ExtractedString :=
  (sweep.places limit 0).filterMap sweep.found

def asciiFinds : List ExtractedString :=
  if options.ascii then findsUpTo bytes.length (asciiSweep image options bytes)
  else []

def utf8Finds : List ExtractedString :=
  if options.utf8 then findsUpTo bytes.length (utf8Sweep image options bytes)
  else []

def utf16Enabled (little : Bool) : Bool :=
  if little then options.utf16Little else options.utf16Big

def utf16Finds (little : Bool) : List ExtractedString :=
  if utf16Enabled options little then
    findsUpTo (bytes.length - 1) (utf16Sweep image options bytes little)
  else []

/-- All strings of a file, one encoding after the other. -/
def allFinds : List ExtractedString :=
  asciiFinds image options bytes ++ utf8Finds image options bytes ++
    utf16Finds image options bytes true ++ utf16Finds image options bytes false

theorem take_append_take {maximum : ℕ} (first second : List ExtractedString) :
    first.take maximum ++ second.take (maximum - (first.take maximum).length) =
      (first ++ second).take maximum := by
  rw [List.take_append, List.length_take]
  by_cases hroom : maximum ≤ first.length
  · rw [min_eq_left hroom, Nat.sub_self, Nat.sub_eq_zero_of_le hroom]
  · rw [min_eq_right (not_le.mp hroom).le]

theorem run_after {limit : ℕ} (sweep : Sweep ExtractedString)
    (hlimit : limit ≤ bytes.length) (earlier : List ExtractedString) :
    sweep.run limit options.maximumResults.toNat bytes.length 0
        (earlier.take options.maximumResults.toNat) =
      (earlier ++ findsUpTo limit sweep).take options.maximumResults.toNat := by
  rw [Sweep.run_eq _ (by omega), take_append_take]
  rfl

theorem ite_enabled {more : List ExtractedString} {enabled : Bool}
    (earlier : List ExtractedString) :
    (if enabled = true then
      (earlier ++ more).take options.maximumResults.toNat
    else earlier.take options.maximumResults.toNat) =
      (earlier ++ if enabled = true then more else []).take
        options.maximumResults.toNat := by
  cases enabled <;> simp

/-- Without room a loop adds nothing, so whether it is started then makes no
difference. -/
theorem ite_room {more : List ExtractedString} {enabled : Bool}
    (earlier : List ExtractedString) :
    (if enabled = true ∧
        decide ((earlier.take options.maximumResults.toNat).length <
          options.maximumResults.toNat) = true then
      (earlier ++ more).take options.maximumResults.toNat
    else earlier.take options.maximumResults.toNat) =
      (earlier ++ if enabled = true then more else []).take
        options.maximumResults.toNat := by
  rw [← ite_enabled]
  by_cases hroom : earlier.length < options.maximumResults.toNat
  · have hfree : decide ((earlier.take options.maximumResults.toNat).length <
        options.maximumResults.toNat) = true := by
      rw [List.length_take]
      exact decide_eq_true (by omega)
    simp only [hfree, and_true]
  · rw [List.take_append_of_le_length (not_lt.mp hroom)]
    simp

theorem ite_eq_iff_ite {α : Type} {enabled : Prop} [Decidable enabled]
    {found earlier later : α} :
    (if enabled then found else earlier) = later ↔
      if enabled then found = later else earlier = later := by
  split <;> rfl

theorem scanBytes_eq : scanBytes image options bytes =
    (allFinds image options bytes).take options.maximumResults.toNat := by
  have hascii : (if options.ascii = true then
      asciiLoop image options bytes bytes.length 0 [] else []) =
        (asciiFinds image options bytes).take options.maximumResults.toNat := by
    have hrun := run_after options bytes (asciiSweep image options bytes)
      (le_refl bytes.length) []
    have hstage := @ite_enabled options (findsUpTo bytes.length
      (asciiSweep image options bytes)) options.ascii []
    simp only [List.take_nil, List.nil_append] at hrun hstage
    rw [asciiLoop_eq_run, hrun, hstage]
    rfl
  unfold scanBytes
  simp only [hascii, utf8Loop_eq_run, utf16Loop_eq_run]
  rw [run_after options bytes _ (le_refl bytes.length), ite_room]
  rw [run_after options bytes _ (Nat.sub_le _ _), ite_enabled]
  rw [run_after options bytes _ (Nat.sub_le _ _), ite_room]
  rfl

/-- A loop over the file comes to its end, if it is entered at all. -/
def EndsIf (entered : Prop) [Decidable entered] (limit : ℕ)
    (sweep : Sweep ExtractedString) (earlier later : List ExtractedString) :
    Prop :=
  if entered then
    sweep.Returns limit options.maximumResults.toNat 0 earlier later
  else earlier = later

/-- The four scans of one file, by loops without a bound on their passes. -/
def ScansTo (strings : List ExtractedString) : Prop :=
  let room (result : List ExtractedString) : Prop :=
    result.length < options.maximumResults.toNat
  ∃ first, EndsIf options options.ascii bytes.length
      (asciiSweep image options bytes) [] first ∧
    ∃ second, EndsIf options (options.utf8 ∧ room first) bytes.length
        (utf8Sweep image options bytes) first second ∧
      ∃ third, EndsIf options options.utf16Little (bytes.length - 1)
          (utf16Sweep image options bytes true) second third ∧
        EndsIf options (options.utf16Big ∧ room third) (bytes.length - 1)
          (utf16Sweep image options bytes false) third strings

theorem scansTo_iff {strings : List ExtractedString} :
    ScansTo image options bytes strings ↔
      scanBytes image options bytes = strings := by
  have hbytes : bytes.length - 0 ≤ bytes.length := Nat.sub_le _ _
  have hunits : bytes.length - 1 - 0 ≤ bytes.length := by omega
  unfold ScansTo EndsIf scanBytes
  simp only [asciiLoop_ends_iff hbytes, utf8Loop_ends_iff hbytes,
    utf16Loop_ends_iff hunits, ← ite_eq_iff_ite, exists_eq_left',
    decide_eq_true_eq]

theorem scan_eq_ok {limits : Limits} {found : List ExtractedString} :
    scan limits image options = .ok found ↔
      ∃ bytes, image.fileData = some bytes ∧
        badOptions limits options = false ∧
          found = (allFinds image options bytes).take
            options.maximumResults.toNat := by
  unfold scan
  rw [demand_except_bind_eq_ok]
  apply exists_congr
  intro bytes
  rw [rejectIf_except_bind_eq_ok, Bool.not_eq_true, scanBytes_eq]
  apply and_congr_right
  intro _
  apply and_congr_right
  intro _
  exact ⟨fun hfound => (Except.ok.inj hfound).symm,
    fun hfound => congrArg Except.ok hfound.symm⟩

end StringScanner
end BinForge
