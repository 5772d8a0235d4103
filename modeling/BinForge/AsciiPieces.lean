import BinForge.StringScan

/-!
# ASCII strings are pieces of runs

The bytes of ASCII text form maximal runs.  The cursor of the loop is always
between runs or a multiple of the maximal length behind the start of one, so
the strings it looks at are the pieces that the runs are cut into.
-/

namespace BinForge

open StatefulExcept
open ListSplice

namespace StringScanner

/-! ## Runs and pieces -/

/-- A byte of ASCII text. -/
def IsText (bytes : Bytes) (place : ℕ) : Prop :=
  place < bytes.length ∧ asciiCharacter (bytes.getD place 0) = true

/-- A maximal run of ASCII text. -/
structure IsRun (bytes : Bytes) (start stop : ℕ) : Prop where
  nonempty : start < stop
  text : ∀ place, start ≤ place → place < stop → IsText bytes place
  before : start = 0 ∨ ¬IsText bytes (start - 1)
  after : ¬IsText bytes stop

/-- The piece is one of those a run is cut into from its start. -/
def IsPiece (options : StringScanOptions) (bytes : Bytes) (piece : ℕ × ℕ) :
    Prop :=
  ∃ start stop, IsRun bytes start stop ∧ piece.1 < stop ∧
    (∃ count, piece.1 = start + count * options.maximumCharacters.toNat) ∧
      piece.2 = min (piece.1 + options.maximumCharacters.toNat) stop

/-- The piece is long enough, and followed by a zero where one is asked for. -/
def isKept (options : StringScanOptions) (bytes : Bytes) (piece : ℕ × ℕ) :
    Bool :=
  options.minimumCharacters.toNat ≤ piece.2 - piece.1 ∧
    (options.requireTerminator = true →
      piece.2 < bytes.length ∧ bytes.getD piece.2 0 = 0)

variable {bytes : Bytes} {options : StringScanOptions}
  {start stop place : ℕ}

theorem IsRun.start_le (hrun : IsRun bytes start stop)
    (hbetween : ∀ other, place ≤ other → other < start → IsText bytes other) :
    start ≤ place := by
  by_contra hbelow
  rcases hrun.before with hzero | hbefore
  · omega
  · exact hbefore (hbetween (start - 1) (by omega) (by omega))

/-- Two runs that have a byte in common are one. -/
theorem IsRun.unique {otherStart otherStop : ℕ} (hrun : IsRun bytes start stop)
    (hother : IsRun bytes otherStart otherStop)
    (hplace : start ≤ place ∧ place < stop)
    (hotherPlace : otherStart ≤ place ∧ place < otherStop) :
    start = otherStart ∧ stop = otherStop := by
  have hstarts : start ≤ otherStart := by
    apply hrun.start_le
    intro between hlower hupper
    exact hother.text between hlower (by omega)
  have hothers : otherStart ≤ start := by
    apply hother.start_le
    intro between hlower hupper
    exact hrun.text between hlower (by omega)
  have hstops : stop ≤ otherStop := by
    by_contra hbeyond
    exact hother.after (hrun.text otherStop (by omega) (by omega))
  have hotherStops : otherStop ≤ stop := by
    by_contra hbeyond
    exact hrun.after (hother.text stop (by omega) (by omega))
  omega

/-- Every byte of text is in a run. -/
theorem exists_run (htext : IsText bytes place) :
    ∃ start stop, IsRun bytes start stop ∧ start ≤ place ∧ place < stop := by
  have hstart : ∃ start ≤ place,
      (∀ other, start ≤ other → other ≤ place → IsText bytes other) ∧
        (start = 0 ∨ ¬IsText bytes (start - 1)) := by
    induction place with
    | zero =>
        refine ⟨0, le_refl 0, ?_, Or.inl rfl⟩
        intro other _ hother
        rwa [Nat.le_zero.mp hother]
    | succ place ih =>
        by_cases hprevious : IsText bytes place
        · obtain ⟨start, hle, hall, hbefore⟩ := ih hprevious
          refine ⟨start, hle.trans (Nat.le_succ place), ?_, hbefore⟩
          intro other hlower hupper
          rcases Nat.le_succ_iff.mp hupper with hupper | rfl
          · exact hall other hlower hupper
          · exact htext
        · refine ⟨place + 1, le_refl _, ?_, Or.inr hprevious⟩
          intro other hlower hupper
          rwa [le_antisymm hupper hlower]
  have hend : ∃ stop, place ≤ stop ∧ ¬IsText bytes stop :=
    ⟨bytes.length, htext.1.le, fun hpast => lt_irrefl _ hpast.1⟩
  classical
  obtain ⟨hafter, hstop⟩ := Nat.find_spec hend
  have hinside : place < Nat.find hend := by
    rcases hafter.lt_or_eq with hlt | heq
    · exact hlt
    · rw [← heq] at hstop
      exact absurd htext hstop
  obtain ⟨start, hle, hall, hbefore⟩ := hstart
  refine ⟨start, Nat.find hend, ⟨by omega, ?_, hbefore, hstop⟩, hle, hinside⟩
  intro other hlower hupper
  rcases Nat.lt_or_ge place other with hbeyond | hbefore
  · by_contra hnot
    exact Nat.find_min hend hupper ⟨hbeyond.le, hnot⟩
  · exact hall other hlower hbefore

/-! ## Where the loop ends a text -/

theorem asciiEnd_le {room cursor : ℕ} :
    asciiEnd bytes room cursor ≤ cursor + room := by
  induction room generalizing cursor with
  | zero => exact le_refl _
  | succ room ih =>
      rw [asciiEnd]
      split_ifs
      · have hrest := @ih (cursor + 1)
        omega
      · omega

theorem isText_of_lt_asciiEnd {room cursor : ℕ} (hplace : cursor ≤ place)
    (hbefore : place < asciiEnd bytes room cursor) : IsText bytes place := by
  induction room generalizing cursor with
  | zero =>
      rw [asciiEnd] at hbefore
      omega
  | succ room ih =>
      rw [asciiEnd] at hbefore
      split_ifs at hbefore with htext
      · rcases hplace.lt_or_eq with hlt | rfl
        · exact ih hlt hbefore
        · exact htext
      · omega

theorem not_isText_asciiEnd {room cursor : ℕ}
    (hearly : asciiEnd bytes room cursor < cursor + room) :
    ¬IsText bytes (asciiEnd bytes room cursor) := by
  induction room generalizing cursor with
  | zero =>
      rw [asciiEnd] at hearly
      omega
  | succ room ih =>
      rw [asciiEnd] at hearly ⊢
      split_ifs at hearly ⊢ with htext
      · exact ih (by omega)
      · exact htext

/-- In a run the loop stops at its end, or when the piece is full. -/
theorem IsRun.asciiStop_eq (hrun : IsRun bytes start stop)
    (hplace : start ≤ place ∧ place < stop) :
    asciiStop options bytes place =
      min (place + options.maximumCharacters.toNat) stop := by
  have hlower : place ≤ asciiStop options bytes place := le_asciiEnd
  have hupper : asciiStop options bytes place ≤
      place + options.maximumCharacters.toNat := asciiEnd_le
  have hinside : asciiStop options bytes place ≤ stop := by
    by_contra hbeyond
    exact hrun.after (isText_of_lt_asciiEnd hplace.2.le (not_le.mp hbeyond))
  by_cases hfull : asciiStop options bytes place =
      place + options.maximumCharacters.toNat
  · omega
  · have hnot : ¬IsText bytes (asciiStop options bytes place) :=
      not_isText_asciiEnd (lt_of_le_of_ne hupper hfull)
    have hstop : stop ≤ asciiStop options bytes place := by
      by_contra hbefore
      exact hnot (hrun.text _ (by omega) (not_le.mp hbefore))
    omega

/-! ## Where the cursor is -/

/-- The place is not inside a piece: in a run it is a multiple of the maximal
length behind the start. -/
def IsBoundary (options : StringScanOptions) (bytes : Bytes) (place : ℕ) :
    Prop :=
  ∀ start stop, IsRun bytes start stop → start ≤ place → place < stop →
    options.maximumCharacters.toNat ∣ place - start

theorem isBoundary_zero : IsBoundary options bytes 0 := by
  intro start stop _ hstart _
  rw [Nat.le_zero.mp hstart]
  exact dvd_zero _

/-- Behind a byte that is not text a run can only begin. -/
theorem isBoundary_succ (hnot : ¬IsText bytes place) :
    IsBoundary options bytes (place + 1) := by
  intro start stop hrun hstart hstop
  have hbegins : start = place + 1 := by
    by_contra hbefore
    exact hnot (hrun.text place (by omega) (by omega))
  rw [hbegins, Nat.sub_self]
  exact dvd_zero _

theorem asciiTerminated_iff : asciiTerminated options bytes place = true ↔
    asciiStop options bytes place < bytes.length ∧
      bytes.getD (asciiStop options bytes place) 0 = 0 := by
  rw [asciiTerminated, decide_eq_true_iff]

theorem not_isText_of_zero (hzero : bytes.getD place 0 = 0) :
    ¬IsText bytes place := by
  rintro ⟨-, htext⟩
  rw [hzero] at htext
  exact absurd htext (by decide)

theorem asciiSweep_next_of_not (image : BinaryImage)
    (hinside : place < bytes.length) (htext : ¬IsText bytes place) :
    (asciiSweep image options bytes).next place = place + 1 := by
  have hnot : asciiCharacter (bytes.getD place 0) = false := by
    apply Bool.eq_false_iff.mpr
    intro hcharacter
    exact htext ⟨hinside, hcharacter⟩
  exact if_pos hnot

/-- From a byte of text in a run the cursor goes to the end of the piece, or
past the zero that ends it. -/
theorem asciiSweep_next (image : BinaryImage) (hmaximum :
      0 < options.maximumCharacters.toNat) (hrun : IsRun bytes start stop)
    (hplace : start ≤ place ∧ place < stop) :
    (asciiSweep image options bytes).next place =
      min (place + options.maximumCharacters.toNat) stop +
        if asciiTerminated options bytes place then 1 else 0 := by
  have htext := hrun.text place hplace.1 hplace.2
  have hstop : asciiStop options bytes place =
      min (place + options.maximumCharacters.toNat) stop :=
    hrun.asciiStop_eq hplace
  have hnot : ¬asciiCharacter (bytes.getD place 0) = false := by
    rw [htext.2]
    decide
  have hmoves : asciiStop options bytes place ≠ place := by omega
  rw [← hstop]
  exact (if_neg hnot).trans (if_neg hmoves)

theorem isBoundary_next (image : BinaryImage)
    (hmaximum : 0 < options.maximumCharacters.toNat)
    (hboundary : IsBoundary options bytes place) (hinside : place < bytes.length) :
    IsBoundary options bytes ((asciiSweep image options bytes).next place) := by
  by_cases htext : IsText bytes place
  · obtain ⟨start, stop, hrun, hplace⟩ := exists_run htext
    rw [asciiSweep_next image hmaximum hrun hplace]
    by_cases hterminated : asciiTerminated options bytes place = true
    · rw [if_pos hterminated, ← hrun.asciiStop_eq hplace]
      apply isBoundary_succ
      exact not_isText_of_zero (asciiTerminated_iff.mp hterminated).2
    · rw [if_neg hterminated, Nat.add_zero]
      intro otherStart otherStop hother hlower hupper
      -- the end of the run is not text, so the piece is full
      have hnext := hother.text _ hlower hupper
      have hfull : place + options.maximumCharacters.toNat < stop := by
        by_contra hend
        rw [min_eq_right (not_lt.mp hend)] at hnext
        exact hrun.after hnext
      rw [min_eq_left hfull.le] at hlower hupper ⊢
      obtain ⟨rfl, -⟩ := hrun.unique hother ⟨by omega, hfull⟩ ⟨hlower, hupper⟩
      have hsplit : place + options.maximumCharacters.toNat - start =
          place - start + options.maximumCharacters.toNat := by omega
      rw [hsplit]
      exact Nat.dvd_add (hboundary start stop hrun hplace.1 hplace.2)
        (dvd_refl _)
  · rw [asciiSweep_next_of_not image hinside htext]
    exact isBoundary_succ htext

/-- Between two places of the cursor no piece begins. -/
theorem not_piece_between (image : BinaryImage)
    (hmaximum : 0 < options.maximumCharacters.toNat) {skipped : ℕ}
    (hboundary : IsBoundary options bytes place) (hinside : place < bytes.length)
    (hlower : place < skipped)
    (hupper : skipped < (asciiSweep image options bytes).next place) :
    ¬(IsText bytes skipped ∧ IsBoundary options bytes skipped) := by
  rintro ⟨htextSkipped, hboundarySkipped⟩
  by_cases htext : IsText bytes place
  · obtain ⟨start, stop, hrun, hplace⟩ := exists_run htext
    rw [asciiSweep_next image hmaximum hrun hplace] at hupper
    have hinside : skipped <
        min (place + options.maximumCharacters.toNat) stop := by
      split_ifs at hupper with hterminated
      · by_contra hbeyond
        have hsame : skipped = asciiStop options bytes place := by
          rw [hrun.asciiStop_eq hplace]
          omega
        rw [hsame] at htextSkipped
        exact not_isText_of_zero (asciiTerminated_iff.mp hterminated).2
          htextSkipped
      · exact hupper
    have hfirst := hboundary start stop hrun hplace.1 hplace.2
    have hsecond := hboundarySkipped start stop hrun (by omega) (by omega)
    have hgap := Nat.le_of_dvd (by omega) (Nat.dvd_sub hsecond hfirst)
    omega
  · rw [asciiSweep_next_of_not image hinside htext] at hupper
    omega

theorem isPiece_iff {piece : ℕ × ℕ} : IsPiece options bytes piece ↔
    IsText bytes piece.1 ∧ IsBoundary options bytes piece.1 ∧
      piece.2 = asciiStop options bytes piece.1 := by
  constructor
  · rintro ⟨start, stop, hrun, hinside, ⟨count, hcount⟩, hend⟩
    have hplace : start ≤ piece.1 ∧ piece.1 < stop := ⟨by omega, hinside⟩
    refine ⟨hrun.text _ hplace.1 hplace.2, ?_, ?_⟩
    · intro otherStart otherStop hother hlower hupper
      obtain ⟨rfl, -⟩ := hrun.unique hother hplace ⟨hlower, hupper⟩
      rw [hcount, Nat.add_sub_cancel_left]
      exact Nat.dvd_mul_left _ _
    · rw [hend, hrun.asciiStop_eq hplace]
  · rintro ⟨htext, hboundary, hend⟩
    obtain ⟨start, stop, hrun, hplace⟩ := exists_run htext
    obtain ⟨count, hcount⟩ := hboundary start stop hrun hplace.1 hplace.2
    refine ⟨start, stop, hrun, hplace.2, ⟨count, ?_⟩, ?_⟩
    · rw [Nat.mul_comm] at hcount
      omega
    · rw [hend, hrun.asciiStop_eq hplace]

theorem longEnough_iff (place : ℕ) :
    longEnough options (asciiStop options bytes place - place)
        (asciiTerminated options bytes place) =
      isKept options bytes (place, asciiStop options bytes place) := by
  rw [longEnough, isKept, decide_eq_decide, asciiTerminated_iff]
  cases options.requireTerminator <;> simp

/-- The pieces of a file in order, and the strings that the loop finds. -/
theorem exists_pieces (image : BinaryImage) (options : StringScanOptions)
    (bytes : Bytes) (hmaximum : 0 < options.maximumCharacters.toNat) :
    ∃ pieces : List (ℕ × ℕ),
      (pieces.Pairwise fun first second => first.1 < second.1) ∧
        (∀ piece, piece ∈ pieces ↔ IsPiece options bytes piece) ∧
          findsUpTo bytes.length (asciiSweep image options bytes) =
            (pieces.filter (isKept options bytes)).map fun piece =>
              asciiString image bytes piece.1 piece.2 := by
  classical
  let begins : ℕ → Prop := fun place =>
    IsText bytes place ∧ IsBoundary options bytes place
  let spec : ℕ → Option ExtractedString := fun place =>
    if begins place ∧
        isKept options bytes (place, asciiStop options bytes place) = true then
      some (asciiString image bytes place (asciiStop options bytes place))
    else none
  refine ⟨((List.range bytes.length).filter fun place => begins place).map
    fun place => (place, asciiStop options bytes place), ?_, ?_, ?_⟩
  · apply List.pairwise_map.mpr
    exact List.pairwise_lt_range.filter _
  · rintro ⟨first, second⟩
    rw [isPiece_iff]
    simp only [List.mem_map, List.mem_filter, List.mem_range,
      decide_eq_true_iff, Prod.mk.injEq]
    constructor
    · rintro ⟨place, ⟨-, htext, hboundary⟩, rfl, rfl⟩
      exact ⟨htext, hboundary, rfl⟩
    · rintro ⟨htext, hboundary, hend⟩
      exact ⟨first, ⟨htext.1, htext, hboundary⟩, rfl, hend.symm⟩
  · have hplaces : findsUpTo bytes.length (asciiSweep image options bytes) =
        (List.range' 0 (bytes.length - 0)).filterMap spec := by
      apply Sweep.filterMap_places spec (IsBoundary options bytes)
      · intro place hinside hboundary
        exact isBoundary_next image hmaximum hboundary hinside
      · intro place hinside hboundary
        simp only [asciiSweep, spec, begins, IsText, hinside, hboundary,
          longEnough_iff, true_and, and_true]
      · intro place skipped hboundary hlower hupper hinside
        apply if_neg
        intro hpiece
        exact not_piece_between image hmaximum hboundary
          (hlower.trans hinside) hlower hupper hpiece.1
      · exact isBoundary_zero
    rw [hplaces, Nat.sub_zero, ← List.range_eq_range', List.filter_map,
      List.map_map, List.filter_filter, ← List.filterMap_eq_map,
      List.filterMap_filter]
    apply List.filterMap_congr
    intro place _
    simp only [spec, Function.comp_apply, Bool.and_eq_true,
      decide_eq_true_iff, and_comm]

/-- Only the loop over ASCII text is on. -/
structure OnlyAscii (options : StringScanOptions) : Prop where
  ascii : options.ascii = true
  utf8 : options.utf8 = false
  utf16Little : options.utf16Little = false
  utf16Big : options.utf16Big = false

/-- The scan for ASCII text comes to an end on every file, and reports the
first of the pieces of its runs that are to be kept. -/
theorem ascii_exact (limits : Limits) (image : BinaryImage)
    (options : StringScanOptions) (bytes : Bytes)
    (hdata : image.fileData = some bytes)
    (haccepted : badOptions limits options = false)
    (honly : OnlyAscii options) :
    ∃ pieces : List (ℕ × ℕ),
      (pieces.Pairwise fun first second => first.1 < second.1) ∧
        (∀ piece, piece ∈ pieces ↔ IsPiece options bytes piece) ∧
          let strings := ((pieces.filter (isKept options bytes)).map
            fun piece => asciiString image bytes piece.1 piece.2).take
              options.maximumResults.toNat
          scan limits image options = .ok strings ∧
            (asciiSweep image options bytes).Returns bytes.length
              options.maximumResults.toNat 0 [] strings := by
  obtain ⟨hminimum, horder⟩ := bounds_of_accepted haccepted
  obtain ⟨pieces, hsorted, hmem, hfinds⟩ :=
    exists_pieces image options bytes (by omega)
  refine ⟨pieces, hsorted, hmem, ?_, ?_⟩
  · apply (scan_eq_ok image options).mpr
    refine ⟨bytes, hdata, haccepted, ?_⟩
    rw [← hfinds]
    simp [allFinds, asciiFinds, utf8Finds, utf16Finds, utf16Enabled,
      honly.ascii, honly.utf8, honly.utf16Little, honly.utf16Big]
  · have hreturns : (asciiSweep image options bytes).Returns bytes.length
        options.maximumResults.toNat 0 [] _ :=
      (asciiLoop_ends_iff (le_refl (bytes.length - 0))).mpr rfl
    rw [asciiLoop_eq_run, Sweep.run_eq _ (le_refl _)] at hreturns
    rw [← hfinds]
    exact hreturns

/-- A run of seven letters cut into pieces of three. -/
def lettersFile : Bytes := "abcdefg"

def shortPieces : StringScanOptions :=
  { minimumCharacters := 2, maximumCharacters := 3, utf8 := false
    utf16Little := false }

theorem ascii_exact_lettersFile :
    ∃ pieces : List (ℕ × ℕ),
      (pieces.Pairwise fun first second => first.1 < second.1) ∧
        (∀ piece, piece ∈ pieces ↔ IsPiece shortPieces lettersFile piece) ∧
          let strings := ((pieces.filter (isKept shortPieces lettersFile)).map
            fun piece => asciiString { fileData := some lettersFile }
              lettersFile piece.1 piece.2).take 100000
          scan {} { fileData := some lettersFile } shortPieces = .ok strings ∧
            (asciiSweep { fileData := some lettersFile } shortPieces
              lettersFile).Returns 7 100000 0 [] strings :=
  ascii_exact {} { fileData := some lettersFile } shortPieces lettersFile rfl
    (by decide) ⟨rfl, rfl, rfl, rfl⟩

example : (scan {} { fileData := some lettersFile } shortPieces).toOption.map
    (fun strings => strings.map ExtractedString.value) =
      some [ascii "abc", ascii "def"] := by decide

end StringScanner
end BinForge
