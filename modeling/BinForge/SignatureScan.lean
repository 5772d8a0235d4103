import BinForge.Scanners
import BinForge.Sweep

/-!
# Signatures and where they occur

The loop over the offsets visits the multiples of the alignment and nothing
else, so it finds every occurrence of a pattern.  Leaving the scan in the
middle is the same as taking the first matches of all patterns.
-/

namespace BinForge

open StatefulExcept

namespace SignatureScanner

/-! ## Occurrences -/

/-- The mask as it was given: an empty one compares whole bytes. -/
def maskAt (pattern : BytePattern) (index : ℕ) : UInt8 :=
  if pattern.mask = [] then 0xff else pattern.mask.getD index 0

structure OccursAt (data : Bytes) (pattern : BytePattern) (offset : ℕ) :
    Prop where
  aligned : pattern.alignment.toNat ∣ offset
  inside : offset + pattern.bytes.length ≤ data.length
  equal : ∀ index < pattern.bytes.length,
    data.getD (offset + index) 0 &&& maskAt pattern index =
      pattern.bytes.getD index 0 &&& maskAt pattern index

theorem occursAt_iff {data : Bytes} {pattern : BytePattern} {offset : ℕ} :
    OccursAt data pattern offset ↔
      pattern.alignment.toNat ∣ offset ∧
        offset + pattern.bytes.length ≤ data.length ∧
          ∀ index < pattern.bytes.length,
            data.getD (offset + index) 0 &&& maskAt pattern index =
              pattern.bytes.getD index 0 &&& maskAt pattern index :=
  ⟨fun hoccurs => ⟨hoccurs.aligned, hoccurs.inside, hoccurs.equal⟩,
    fun hall => ⟨hall.1, hall.2.1, hall.2.2⟩⟩

instance (data : Bytes) (pattern : BytePattern) (offset : ℕ) :
    Decidable (OccursAt data pattern offset) :=
  decidable_of_iff _ occursAt_iff.symm

/-- The offsets of a pattern in a file, in increasing order. -/
def occurrences (data : Bytes) (pattern : BytePattern) : List ℕ :=
  (List.range (data.length + 1)).filter fun offset =>
    OccursAt data pattern offset

def reported (image : BinaryImage) (pattern : BytePattern) (offset : ℕ) :
    PatternMatch :=
  populateMatchLocation image
    { pattern := pattern.name, fileOffset := UInt64.ofNat offset }

/-! ## The patterns of a scanner -/

variable {limits : Limits} {image : BinaryImage} {data : Bytes}
  {pattern : BytePattern}

/-- The scanner after accepted calls holds what they were given, masked. -/
theorem patterns_of_added {patterns : List BytePattern}
    {start scanner : SignatureScanner}
    (hadded : patterns.foldlM add start = .ok scanner) :
    scanner.limits = start.limits ∧
      scanner.patterns = start.patterns ++ patterns.map masked ∧
        ∀ pattern ∈ patterns, badPattern start.limits pattern = false := by
  induction patterns generalizing start with
  | nil =>
      cases hadded
      simp
  | cons pattern rest ih =>
      rw [List.foldlM_cons] at hadded
      obtain ⟨next, hadd, hrest⟩ := except_bind_eq_ok.mp hadded
      obtain ⟨hgood, -, rfl⟩ := add_eq_ok.mp hadd
      obtain ⟨hlimits, hpatterns, hall⟩ := ih hrest
      refine ⟨hlimits, by simp [hpatterns], ?_⟩
      intro other hother
      rcases List.mem_cons.mp hother with rfl | hother
      · exact hgood
      · exact hall other hother

theorem alignment_pos (hgood : badPattern limits pattern = false) :
    0 < pattern.alignment.toNat := by
  by_contra hzero
  have halignment : pattern.alignment = 0 := by
    apply UInt64.toNat_inj.mp
    simpa using hzero
  simp [badPattern, halignment] at hgood

theorem masked_mask {index : ℕ} (hindex : index < pattern.bytes.length) :
    (masked pattern).mask.getD index 0 = maskAt pattern index := by
  unfold masked maskAt
  split_ifs
  · simp [hindex]
  · rfl

theorem equalAt_masked (offset : ℕ) :
    equalAt data (masked pattern) offset = true ↔
      ∀ index < pattern.bytes.length,
        data.getD (offset + index) 0 &&& maskAt pattern index =
          pattern.bytes.getD index 0 &&& maskAt pattern index := by
  rw [equalAt, masked_bytes, List.all_eq_true]
  simp only [List.mem_range, beq_iff_eq]
  apply forall₂_congr
  intro index hindex
  rw [masked_mask hindex]

/-! ## One pattern -/

/-- The loop over the offsets of a pattern. -/
def offsets (image : BinaryImage) (data : Bytes) (pattern : BytePattern)
    (halignment : 0 < pattern.alignment.toNat) : Sweep PatternMatch where
  found offset :=
    if offset % pattern.alignment.toNat = 0 ∧ equalAt data pattern offset then
      some (reported image pattern offset)
    else none
  next offset :=
    if offset % pattern.alignment.toNat ≠ 0 then
      offset + (pattern.alignment.toNat - offset % pattern.alignment.toNat)
    else offset + max 1 pattern.alignment.toNat
  ahead offset := by
    have hrest := Nat.mod_lt offset halignment
    split_ifs <;> omega

/-- From a multiple of the alignment the loop goes to the next one. -/
theorem offsets_next (image : BinaryImage) (data : Bytes)
    (halignment : 0 < pattern.alignment.toNat) {offset : ℕ}
    (hdivides : pattern.alignment.toNat ∣ offset) :
    (offsets image data pattern halignment).next offset =
      offset + pattern.alignment.toNat := by
  have haligned := Nat.mod_eq_zero_of_dvd hdivides
  have hstep : max 1 pattern.alignment.toNat = pattern.alignment.toNat :=
    max_eq_right halignment
  simp only [offsets, haligned, hstep, ne_eq, not_true, if_false]

/-- All of them, or the first ones on the way out of the scan. -/
def cut (maximum : ℕ) (found : List PatternMatch) :
    Except (List PatternMatch) (List PatternMatch) :=
  if found.length ≥ maximum then .error (found.take maximum) else .ok found

theorem cut_of_lt {maximum : ℕ} {found : List PatternMatch}
    (hroom : found.length < maximum) : cut maximum found = .ok found :=
  if_neg (not_le.mpr hroom)

theorem cut_append_of_ge {maximum : ℕ} {found more : List PatternMatch}
    (hfull : found.length = maximum) :
    cut maximum (found ++ more) = .error found := by
  subst hfull
  simp [cut]

theorem scanPattern_succ (halignment : 0 < pattern.alignment.toNat)
    (passes offset : ℕ) (found : List PatternMatch) :
    scanPattern limits image data pattern (passes + 1) offset found =
      if offset > data.length - pattern.bytes.length then .ok found
      else
        match (offsets image data pattern halignment).found offset with
        | none => scanPattern limits image data pattern passes
            ((offsets image data pattern halignment).next offset) found
        | some result =>
            if (found ++ [result]).length ≥ limits.maxSymbols.toNat then
              .error (found ++ [result])
            else scanPattern limits image data pattern passes
              ((offsets image data pattern halignment).next offset)
              (found ++ [result]) := by
  rw [scanPattern]
  by_cases haligned : offset % pattern.alignment.toNat = 0
  · by_cases hequal : equalAt data pattern offset = true
    · simp [offsets, haligned, hequal, reported]
    · simp [offsets, haligned, hequal]
  · simp [offsets, haligned]

theorem scanPattern_eq (halignment : 0 < pattern.alignment.toNat)
    {passes offset : ℕ} {found : List PatternMatch}
    (hroom : found.length < limits.maxSymbols.toNat)
    (hpasses : data.length - pattern.bytes.length + 1 - offset ≤ passes) :
    scanPattern limits image data pattern passes offset found =
      cut limits.maxSymbols.toNat (found ++
        ((offsets image data pattern halignment).places
          (data.length - pattern.bytes.length + 1) offset).filterMap
            (offsets image data pattern halignment).found) := by
  induction passes generalizing offset found with
  | zero =>
      have hend : data.length - pattern.bytes.length + 1 ≤ offset := by omega
      rw [Sweep.places_of_ge hend, List.filterMap_nil, List.append_nil,
        cut_of_lt hroom]
      rfl
  | succ passes ih =>
      rw [scanPattern_succ halignment]
      by_cases hend : offset > data.length - pattern.bytes.length
      · rw [if_pos hend, Sweep.places_of_ge (by omega), List.filterMap_nil,
          List.append_nil, cut_of_lt hroom]
      · have hahead := (offsets image data pattern halignment).ahead offset
        have hfewer : data.length - pattern.bytes.length + 1 -
            (offsets image data pattern halignment).next offset ≤ passes := by
          omega
        rw [if_neg hend, Sweep.places_of_lt (by omega), List.filterMap_cons]
        cases (offsets image data pattern halignment).found offset with
        | none => exact ih hroom hfewer
        | some result =>
            simp only
            rw [List.append_cons found result (List.filterMap _ _)]
            split_ifs with hfull
            · have hexact : (found ++ [result]).length =
                  limits.maxSymbols.toNat := by
                rw [List.length_append, List.length_singleton] at hfull ⊢
                omega
              rw [cut_append_of_ge hexact]
            · exact ih (not_le.mp hfull) hfewer

/-- The loop of one pattern never runs out of passes: it leaves the scan with
the results of the run without any bound, or goes on to the next pattern. -/
theorem scanPattern_ends_iff (halignment : 0 < pattern.alignment.toNat)
    {passes offset : ℕ} {found : List PatternMatch}
    {outcome : Except (List PatternMatch) (List PatternMatch)}
    (hroom : found.length < limits.maxSymbols.toNat)
    (hpasses : data.length - pattern.bytes.length + 1 - offset ≤ passes) :
    (∃ final, (offsets image data pattern halignment).Returns
        (data.length - pattern.bytes.length + 1) limits.maxSymbols.toNat offset
        found final ∧
      outcome = if final.length ≥ limits.maxSymbols.toNat then .error final
        else .ok final) ↔
      scanPattern limits image data pattern passes offset found = outcome := by
  simp only [Sweep.returns_iff hpasses, exists_eq_left']
  rw [scanPattern_eq halignment hroom hpasses, Sweep.run_eq _ hpasses, eq_comm]
  generalize ((offsets image data pattern halignment).places
    (data.length - pattern.bytes.length + 1) offset).filterMap
      (offsets image data pattern halignment).found = more
  have htake : found ++ more.take (limits.maxSymbols.toNat - found.length) =
      (found ++ more).take limits.maxSymbols.toNat := by
    rw [List.take_append, List.take_of_length_le hroom.le]
  rw [htake, List.length_take]
  by_cases hfull : (found ++ more).length ≥ limits.maxSymbols.toNat
  · rw [cut, if_pos hfull, min_eq_left hfull, if_pos (le_refl _)]
  · have hshort := (not_le.mp hfull).le
    rw [cut_of_lt (not_le.mp hfull), min_eq_right hshort, if_neg hfull,
      List.take_of_length_le hshort]

/-- Between two multiples of the alignment there is no occurrence, and behind
the last place for the pattern there is none either. -/
theorem filterMap_offsets (image : BinaryImage) (data : Bytes)
    (halignment : 0 < (masked pattern).alignment.toNat)
    (hfits : pattern.bytes.length ≤ data.length) :
    ((offsets image data (masked pattern) halignment).places
      (data.length - pattern.bytes.length + 1) 0).filterMap
        (offsets image data (masked pattern) halignment).found =
      (occurrences data pattern).map (reported image pattern) := by
  let spec : ℕ → Option PatternMatch := fun offset =>
    if OccursAt data pattern offset then some (reported image pattern offset)
    else none
  have hspec : (List.range (data.length + 1)).filterMap spec =
      (occurrences data pattern).map (reported image pattern) := by
    rw [occurrences, ← List.filterMap_eq_map, List.filterMap_filter]
    apply List.filterMap_congr
    intro offset _
    simp [spec]
  have hlast : data.length + 1 =
      data.length - pattern.bytes.length + 1 + pattern.bytes.length := by omega
  have hbehind : (List.range' (0 + (data.length - pattern.bytes.length + 1))
      pattern.bytes.length).filterMap spec = [] := by
    apply Sweep.filterMap_eq_nil
    intro offset hlower _
    apply if_neg
    intro hoccurs
    have hinside := hoccurs.inside
    omega
  rw [← hspec, List.range_eq_range', hlast, ← List.range'_append_1,
    List.filterMap_append, hbehind, List.append_nil]
  apply Sweep.filterMap_places spec fun offset =>
    (masked pattern).alignment.toNat ∣ offset
  · intro offset _ hdivides
    rw [offsets_next image data halignment hdivides]
    exact Nat.dvd_add hdivides (dvd_refl _)
  · intro offset hbelow hdivides
    have haligned := Nat.mod_eq_zero_of_dvd hdivides
    have hinside : offset + pattern.bytes.length ≤ data.length := by omega
    have hoccurs : OccursAt data pattern offset ↔
        equalAt data (masked pattern) offset = true := by
      rw [masked_alignment] at hdivides
      rw [occursAt_iff, equalAt_masked]
      simp only [hdivides, hinside, true_and]
    simp only [offsets, spec, haligned, hoccurs, true_and, reported,
      masked_name]
  · intro offset skipped hdivides hlower hupper _
    rw [offsets_next image data halignment hdivides] at hupper
    apply if_neg
    intro hoccurs
    have hskipped := hoccurs.aligned
    rw [← masked_alignment] at hskipped
    have hgap := Nat.le_of_dvd (by omega) (Nat.dvd_sub hskipped hdivides)
    omega
  · exact dvd_zero _

theorem occurrences_eq_nil (hlong : data.length < pattern.bytes.length) :
    occurrences data pattern = [] := by
  apply List.filter_eq_nil_iff.mpr
  intro offset _ hoccurs
  have hinside := (of_decide_eq_true hoccurs).inside
  omega

/-! ## All patterns -/

theorem scanNext_eq (hgood : badPattern limits pattern = false)
    {found : List PatternMatch}
    (hroom : found.length < limits.maxSymbols.toNat) :
    scanNext limits image data found (masked pattern) =
      cut limits.maxSymbols.toNat
        (found ++ (occurrences data pattern).map (reported image pattern)) := by
  have halignment : 0 < (masked pattern).alignment.toNat := by
    rw [masked_alignment]
    exact alignment_pos hgood
  rw [scanNext, masked_bytes]
  by_cases hlong : pattern.bytes.length > data.length
  · rw [if_pos hlong, occurrences_eq_nil hlong, List.map_nil, List.append_nil,
      cut_of_lt hroom]
  · have hpasses : data.length - (masked pattern).bytes.length + 1 - 0 ≤
        data.length + 1 := by omega
    rw [if_neg hlong, scanPattern_eq halignment hroom hpasses, masked_bytes,
      filterMap_offsets image data halignment (not_lt.mp hlong)]

/-- Whether the scan is left in the middle or not, later matches come after. -/
theorem foldlM_scanNext (image : BinaryImage) (data : Bytes)
    {patterns : List BytePattern}
    (hgood : ∀ pattern ∈ patterns, badPattern limits pattern = false)
    (found : List PatternMatch)
    (hroom : found.length < limits.maxSymbols.toNat) :
    returned ((patterns.map masked).foldlM (scanNext limits image data)
      found) =
      (found ++ patterns.flatMap fun pattern =>
        (occurrences data pattern).map (reported image pattern)).take
          limits.maxSymbols.toNat := by
  induction patterns generalizing found with
  | nil =>
      rw [List.map_nil, List.foldlM_nil, List.flatMap_nil, List.append_nil,
        List.take_of_length_le hroom.le]
      rfl
  | cons pattern rest ih =>
      have hfirst := hgood pattern List.mem_cons_self
      have hrest := fun other hother =>
        hgood other (List.mem_cons_of_mem _ hother)
      rw [List.map_cons, List.foldlM_cons, scanNext_eq hfirst hroom,
        List.flatMap_cons, ← List.append_assoc]
      by_cases hfull : (found ++ (occurrences data pattern).map
          (reported image pattern)).length ≥ limits.maxSymbols.toNat
      · rw [cut, if_pos hfull, List.take_append_of_le_length hfull]
        rfl
      · rw [cut, if_neg hfull]
        exact ih hrest _ (not_le.mp hfull)

/-- The scan finds all occurrences of the patterns it was given, in order and
up to its limit, and nothing else. -/
theorem scan_exact (limits : Limits) (patterns : List BytePattern)
    (scanner : SignatureScanner) (image : BinaryImage) (data : Bytes)
    (hadded : patterns.foldlM add { limits } = .ok scanner)
    (hdata : image.fileData = some data)
    (hroom : 1 ≤ limits.maxSymbols.toNat) :
    scan scanner image = .ok ((patterns.flatMap fun pattern =>
      (occurrences data pattern).map (reported image pattern)).take
        limits.maxSymbols.toNat) := by
  obtain ⟨hlimits, hpatterns, hgood⟩ := patterns_of_added hadded
  have hfound := foldlM_scanNext image data hgood [] hroom
  rw [scan, hdata, hlimits, hpatterns]
  exact congrArg Except.ok hfound

/-- A pattern of one byte at even offsets, and a file with three of them. -/
def nopPattern : BytePattern :=
  { name := "nop", bytes := [0x90], alignment := 2 }

def nopFile : Bytes := [0x90, 0x90, 0x90, 0xc3]

theorem scan_exact_nopFile :
    scan { patterns := [masked nopPattern] } { fileData := some nopFile } =
      .ok (([nopPattern].flatMap fun pattern =>
        (occurrences nopFile pattern).map
          (reported { fileData := some nopFile } pattern)).take 1000000) :=
  scan_exact {} [nopPattern] { patterns := [masked nopPattern] }
    { fileData := some nopFile } nopFile rfl rfl (by decide)

example : occurrences nopFile nopPattern = [0, 2] := by decide

end SignatureScanner
end BinForge
