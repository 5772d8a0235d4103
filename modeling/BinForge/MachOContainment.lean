import BinForge.MachOFile

/-!
# Load commands and section records against their containers

A Mach-O file declares the size of its command area, of every command and the
number of section records of every segment command.  The parser holds each of
them against the end of the file only.  The places it reads from are those of
its own loops, stopped early; this file compares them with the declared
containers.
-/

namespace BinForge

open StatefulExcept
open ByteReader
open MachOFile

namespace MachOParser

variable {limits : Limits} {data : Bytes} {image : BinaryImage}
  {reader next : ByteReader}

/-! ## The parser stopped early -/

def freshReader (data : Bytes) : ByteReader :=
  { data, order := order (magic data) }

/-- The parser after its header and the first `count` load commands. -/
def walkCommands (limits : Limits) (data : Bytes) (count : ℕ) :
    DecodeCall CommandState := do
  let header ← reporting (failure .truncated 0 "Mach-O header truncated")
    (readMachHeader (wide (magic data)))
  (List.range count).foldlM
    (readLoadCommand limits data (imageHeader (magic data) header))
    (commandsOffset (magic data), {})

/-- The parser inside the segment command at `cursor`, after the first `count`
section records: it stands at the next one. -/
def walkSections (limits : Limits) (data : Bytes) (cursor : UInt64)
    (collected : Collected) (count : ℕ) : DecodeCall Collected := do
  let _ ← attempt (seek cursor)
  let (command, _) ← silently readCommand
  let _ ← silently (readSegmentRange (command == 0x19))
  let (initprot, _) ← silently readSegmentTail
  (List.range count).foldlM
    (readSection limits data (imageHeader (magic data) (header data))
      (command == 0x19) (machoProtection initprot)) collected

/-! ## The containers -/

def areaStart (data : Bytes) : ℕ := (commandsOffset (magic data)).toNat

def areaStop (data : Bytes) : ℕ :=
  areaStart data + (header data).commandBytes.toNat

def commandCount (data : Bytes) : ℕ := (header data).commandCount.toNat

def commandSize (data : Bytes) (offset : ℕ) : ℕ :=
  (word data (offset + 4)).toNat

def IsSegment (data : Bytes) (offset : ℕ) : Prop :=
  word data offset = 1 ∨ word data offset = 0x19

/-- Every command walked is inside the command area, every section record read
inside its command. -/
structure Contained (limits : Limits) (data : Bytes) : Prop where
  commands : ∀ n < commandCount data, ∀ cursor collected reader,
    walkCommands limits data n (freshReader data) =
        .ok (cursor, collected) reader →
      areaStart data ≤ cursor.toNat ∧
        cursor.toNat + commandSize data cursor.toNat ≤ areaStop data
  sections : ∀ n < commandCount data, ∀ cursor collected reader,
    walkCommands limits data n (freshReader data) =
        .ok (cursor, collected) reader →
      IsSegment data cursor.toNat →
      ∀ j < (sectionCount data cursor.toNat).toNat, ∀ grown before raw after,
        walkSections limits data cursor collected j reader = .ok grown before →
        readRawSection (segmentWide data cursor.toNat) before = .ok raw after →
        cursor.toNat ≤ before.position ∧
          after.position ≤ cursor.toNat + commandSize data cursor.toNat

/-- The bytes of a segment command before its section records. -/
def fixedBytes (wide : Bool) : ℕ := if wide then 72 else 56

/-- The commands' sizes add up to no more than the declared size, and a
segment command with section records is large enough for all of them. -/
structure SizesAddUp (data : Bytes) : Prop where
  commands : ((List.range (commandCount data)).map fun n =>
    commandSize data (commandOffset data n).toNat).sum ≤
      (header data).commandBytes.toNat
  sections : ∀ offset ∈ segments data, sectionCount data offset ≠ 0 →
    fixedBytes (segmentWide data offset) +
        (sectionCount data offset).toNat *
          sectionBytes (segmentWide data offset) ≤
      commandSize data offset

/-! ## Where the stopped parser stands -/

theorem sectionOffset_eq (offset j : ℕ) :
    sectionOffset data (offset, j) =
      offset + fixedBytes (segmentWide data offset) +
        j * sectionBytes (segmentWide data offset) := by
  have hfixed : 24 + 4 * fieldSize (segmentWide data offset) + 16 =
      fixedBytes (segmentWide data offset) := by
    cases segmentWide data offset <;> rfl
  simp only [sectionOffset, tailOffset, wordBytes]
  omega

theorem freshReader_at : At data 0 (freshReader data) := ⟨rfl, rfl, rfl⟩

/-- The stopped command loop, with the header the file has. -/
theorem walkCommands_eq_ok {count : ℕ} {state : CommandState} :
    walkCommands limits data count (freshReader data) = .ok state next ↔
      ∃ first, reporting (failure .truncated 0 "Mach-O header truncated")
          (readMachHeader (wide (magic data))) (freshReader data) =
            .ok (header data) first ∧
        (List.range count).foldlM (readLoadCommand limits data
          (imageHeader (magic data) (header data)))
          (commandsOffset (magic data), {}) first = .ok state next := by
  unfold walkCommands
  rw [bind_eq_ok]
  constructor
  · rintro ⟨fields, first, hheader, hloop⟩
    obtain ⟨rfl, -⟩ := readMachHeader_ok freshReader_at
      (adaptError_eq_ok.mp hheader)
    exact ⟨first, hheader, hloop⟩
  · rintro ⟨first, hheader, hloop⟩
    exact ⟨_, first, hheader, hloop⟩

theorem walkCommands_ok (hstart : areaStart data ≤ data.length) {n : ℕ}
    {state : CommandState}
    (hrun : walkCommands limits data n (freshReader data) = .ok state next) :
    state.1 = commandOffset data n ∧
      (commandOffset data n).toNat ≤ data.length ∧
      Walked limits data (segmentOffsets data (List.range n)) state.2 ∧
      ∃ position, At data position next := by
  obtain ⟨first, hheader, hloop⟩ := walkCommands_eq_ok.mp hrun
  obtain ⟨-, _, hfirst⟩ := readMachHeader_ok freshReader_at
    (adaptError_eq_ok.mp hheader)
  exact readLoadCommands_ok rfl hfirst hstart hloop

/-- The stopped section loop stands at its next section record. -/
theorem walkSections_ok {cursor : UInt64} {position j : ℕ}
    {offsets : List ℕ} {collected grown : Collected}
    (hfit : cursor.toNat ≤ data.length) (hreader : At data position reader)
    (hcollected : Walked limits data offsets collected)
    (hrun : walkSections limits data cursor collected j reader =
      .ok grown next) :
    At data (sectionOffset data (cursor.toNat, j)) next := by
  obtain ⟨horder, hdata, -⟩ := hreader
  unfold walkSections silently at hrun
  obtain ⟨_, first, hmove, hrun⟩ := bind_eq_ok.mp hrun
  obtain rfl := attempt_seek_ok (by rw [hdata]; exact hfit) hmove
  obtain ⟨⟨command, size⟩, second, hcommand, hrun⟩ := bind_eq_ok.mp hrun
  obtain ⟨hpair, hsecond⟩ := @readCommand_ok _
    (reader.movedTo cursor.toNat) _ cursor.toNat
    ⟨horder, hdata, rfl⟩ _ (adaptError_eq_ok.mp hcommand)
  obtain ⟨rfl, rfl⟩ := Prod.mk.inj hpair
  obtain ⟨range, third, hrange, hrun⟩ := bind_eq_ok.mp hrun
  obtain ⟨-, hthird⟩ := readSegmentRange_ok hsecond
    (adaptError_eq_ok.mp hrange)
  obtain ⟨⟨initprot, nsects⟩, fourth, htail, hrun⟩ := bind_eq_ok.mp hrun
  obtain ⟨hpair, hfourth⟩ := readSegmentTail_ok hthird
    (adaptError_eq_ok.mp htail)
  obtain ⟨rfl, rfl⟩ := Prod.mk.inj hpair
  exact (readSections_ok rfl cursor.toNat hfourth hcollected.gathered hrun).2.2

/-- A segment command that is read has all its section records read. -/
theorem readLoadCommand_reads {cursor : UInt64} {position j n : ℕ}
    {collected : Collected} {state : CommandState}
    (hfit : cursor.toNat ≤ data.length) (hreader : At data position reader)
    (hsegment : IsSegment data cursor.toNat)
    (hj : j < (sectionCount data cursor.toNat).toNat)
    (hrun : readLoadCommand limits data (imageHeader (magic data) (header data))
      (cursor, collected) n reader = .ok state next) :
    ∃ grown before raw after,
      walkSections limits data cursor collected j reader = .ok grown before ∧
      readRawSection (segmentWide data cursor.toNat) before =
        .ok raw after := by
  obtain ⟨horder, hdata, -⟩ := hreader
  unfold readLoadCommand reporting at hrun
  dsimp only at hrun
  obtain ⟨_, first, hmove, hrun⟩ := bind_eq_ok.mp hrun
  obtain rfl := attempt_seek_ok (by rw [hdata]; exact hfit) hmove
  obtain ⟨⟨command, size⟩, second, hcommand, hrun⟩ := bind_eq_ok.mp hrun
  have hcommand := adaptError_eq_ok.mp hcommand
  obtain ⟨hpair, hsecond⟩ := @readCommand_ok _
    (reader.movedTo cursor.toNat) _ cursor.toNat
    ⟨horder, hdata, rfl⟩ _ hcommand
  obtain ⟨rfl, rfl⟩ := Prod.mk.inj hpair
  obtain ⟨-, hrun⟩ := rejectIf_bind_eq_ok.mp hrun
  unfold IsSegment at hsegment
  dsimp only at hrun
  rw [if_pos hsegment] at hrun
  obtain ⟨after, _, hread, -⟩ := bind_eq_ok.mp hrun
  unfold readSegment silently at hread
  obtain ⟨range, third, hrange, hread⟩ := bind_eq_ok.mp hread
  have hrange := adaptError_eq_ok.mp hrange
  obtain ⟨-, hthird⟩ := readSegmentRange_ok hsecond hrange
  obtain ⟨⟨initprot, nsects⟩, fourth, htail, hread⟩ := bind_eq_ok.mp hread
  have htail := adaptError_eq_ok.mp htail
  obtain ⟨hpair, -⟩ := readSegmentTail_ok hthird htail
  obtain ⟨rfl, rfl⟩ := Prod.mk.inj hpair
  obtain ⟨-, hread⟩ := rejectIf_bind_eq_ok.mp hread
  obtain ⟨_, _, hloop, -⟩ := bind_eq_ok.mp hread
  obtain ⟨grown, before, _, _, hdone, hstep⟩ := foldlM_range_round hj hloop
  unfold readSection silently at hstep
  obtain ⟨raw, behind, hraw, -⟩ := bind_eq_ok.mp hstep
  refine ⟨grown, before, raw, behind, ?_, adaptError_eq_ok.mp hraw⟩
  unfold walkSections silently
  rw [bind_of_ok hmove, bind_of_ok (adaptError_eq_ok.mpr hcommand)]
  dsimp only
  rw [bind_of_ok (adaptError_eq_ok.mpr hrange),
    bind_of_ok (adaptError_eq_ok.mpr htail)]
  exact hdone

/-! ## Accepted files -/

/-- In an accepted file the containers can be compared at the places the file
itself gives. -/
structure ContainedAt (data : Bytes) : Prop where
  commands : ∀ n < commandCount data,
    areaStart data ≤ (commandOffset data n).toNat ∧
      (commandOffset data n).toNat +
          commandSize data (commandOffset data n).toNat ≤ areaStop data
  sections : ∀ n < commandCount data,
    IsSegment data (commandOffset data n).toNat →
      ∀ j < (sectionCount data (commandOffset data n).toNat).toNat,
        sectionOffset data ((commandOffset data n).toNat, j) +
            sectionBytes (segmentWide data (commandOffset data n).toNat) ≤
          (commandOffset data n).toNat +
            commandSize data (commandOffset data n).toNat

theorem parse_walks (hrun : parse limits data = .ok image) :
    areaStop data ≤ data.length ∧ ∃ state last,
      walkCommands limits data (commandCount data) (freshReader data) =
        .ok state last := by
  unfold parse at hrun
  obtain ⟨_, hrun⟩ := rejectIf_except_bind_eq_ok.mp hrun
  obtain ⟨_, hrun⟩ := rejectIf_except_bind_eq_ok.mp hrun
  obtain ⟨last, hrun⟩ := evaluate_eq_ok.mp hrun
  unfold parseImage at hrun
  obtain ⟨fields, first, hheader, hrun⟩ := bind_eq_ok.mp hrun
  obtain ⟨rfl, -⟩ := readMachHeader_ok freshReader_at
    (adaptError_eq_ok.mp hheader)
  obtain ⟨hchecks, hrun⟩ := rejectIf_bind_eq_ok.mp hrun
  rw [not_or, rangeInside_eq_false, not_not] at hchecks
  obtain ⟨state, second, hloop, -⟩ := bind_eq_ok.mp hrun
  exact ⟨hchecks.2, state, second, walkCommands_eq_ok.mpr ⟨first, hheader, hloop⟩⟩

theorem contained_iff (hrun : parse limits data = .ok image) :
    Contained limits data ↔ ContainedAt data := by
  obtain ⟨hstop, state, last, hwalk⟩ := parse_walks hrun
  have hstart : areaStart data ≤ data.length :=
    (Nat.le_add_right _ _).trans hstop
  have hround : ∀ n < commandCount data, ∃ cursor collected reader after next,
      walkCommands limits data n (freshReader data) =
          .ok (cursor, collected) reader ∧
        readLoadCommand limits data (imageHeader (magic data) (header data))
          (cursor, collected) n reader = .ok after next := by
    intro n hn
    obtain ⟨first, hheader, hloop⟩ := walkCommands_eq_ok.mp hwalk
    obtain ⟨⟨cursor, collected⟩, reader, after, next, hdone, hstep⟩ :=
      foldlM_range_round hn hloop
    exact ⟨cursor, collected, reader, after, next,
      walkCommands_eq_ok.mpr ⟨first, hheader, hdone⟩, hstep⟩
  constructor
  · intro hcontained
    constructor
    · intro n hn
      obtain ⟨cursor, collected, reader, _, _, hwalk, -⟩ := hround n hn
      obtain ⟨rfl, -⟩ := walkCommands_ok hstart hwalk
      exact hcontained.commands n hn _ _ _ hwalk
    · intro n hn hsegment j hj
      obtain ⟨cursor, collected, reader, after, next, hwalk, hstep⟩ :=
        hround n hn
      obtain ⟨rfl, hfit, hwalked, position, hreader⟩ :=
        walkCommands_ok hstart hwalk
      obtain ⟨grown, before, raw, behind, hsections, hraw⟩ :=
        readLoadCommand_reads hfit hreader hsegment hj hstep
      have hbefore := walkSections_ok hfit hreader hwalked hsections
      have hbehind := (readRawSection_ok hbefore hraw).2
      rw [← hbehind.position]
      exact (hcontained.sections n hn _ _ _ hwalk hsegment j hj _ _ _ _
        hsections hraw).2
  · intro hcontained
    constructor
    · intro n hn cursor collected reader hwalk
      obtain ⟨rfl, -⟩ := walkCommands_ok hstart hwalk
      exact hcontained.commands n hn
    · intro n hn cursor collected reader hwalk hsegment j hj grown before raw
        behind hsections hraw
      obtain ⟨rfl, hfit, hwalked, position, hreader⟩ :=
        walkCommands_ok hstart hwalk
      have hbefore := walkSections_ok hfit hreader hwalked hsections
      have hbehind := (readRawSection_ok hbefore hraw).2
      rw [hbehind.position, hbefore.position]
      refine ⟨?_, hcontained.sections n hn hsegment j hj⟩
      rw [sectionOffset_eq, Nat.add_assoc]
      exact Nat.le_add_right _ _

/-! ## The sums -/

/-- The sizes of the first `n` commands. -/
def sizesBefore (data : Bytes) (n : ℕ) : ℕ :=
  ((List.range n).map fun i =>
    commandSize data (commandOffset data i).toNat).sum

theorem sizesBefore_succ (data : Bytes) (n : ℕ) :
    sizesBefore data (n + 1) =
      sizesBefore data n + commandSize data (commandOffset data n).toNat := by
  unfold sizesBefore
  rw [List.range_succ, List.map_append, List.sum_append, List.map_singleton,
    List.sum_singleton]

theorem sizesBefore_mono (data : Bytes) : Monotone (sizesBefore data) :=
  monotone_nat_of_le_succ fun n => by
    rw [sizesBefore_succ]
    exact Nat.le_add_right _ _

/-- The commands follow each other as long as the cursor does not wrap. -/
theorem commandOffset_of_sum (data : Bytes) (n : ℕ)
    (hfit : areaStart data + sizesBefore data n < 2 ^ 64) :
    (commandOffset data n).toNat = areaStart data + sizesBefore data n := by
  induction n with
  | zero => rfl
  | succ n ih =>
      rw [sizesBefore_succ] at hfit ⊢
      have hlast := ih (by omega)
      have hstep : commandOffset data (n + 1) = commandOffset data n +
          (word data ((commandOffset data n).toNat + 4)).toUInt64 := rfl
      have hsize : (word data
          ((commandOffset data n).toNat + 4)).toUInt64.toNat =
            commandSize data (commandOffset data n).toNat :=
        UInt32.toNat_toUInt64 _
      rw [hstep, toNat_add_of_fit (by omega)]
      omega

theorem areaStop_lt (data : Bytes) : areaStop data < 2 ^ 64 := by
  have hbytes := (header data).commandBytes.toNat_lt
  have hstart : areaStart data ≤ 32 := by
    unfold areaStart commandsOffset
    split <;> decide
  unfold areaStop
  omega

theorem commands_iff :
    (∀ n < commandCount data, areaStart data ≤ (commandOffset data n).toNat ∧
        (commandOffset data n).toNat +
          commandSize data (commandOffset data n).toNat ≤ areaStop data) ↔
      sizesBefore data (commandCount data) ≤
        (header data).commandBytes.toNat := by
  have hstop := areaStop_lt data
  unfold areaStop at *
  constructor
  · intro hinside
    have hsteps : ∀ n ≤ commandCount data,
        sizesBefore data n ≤ (header data).commandBytes.toNat := by
      intro n
      induction n with
      | zero => exact fun _ => Nat.zero_le _
      | succ n ih =>
          intro hn
          have hbefore := ih (by omega)
          have hend := (hinside n hn).2
          rw [commandOffset_of_sum data n (by omega)] at hend
          rw [sizesBefore_succ, commandOffset_of_sum data n (by omega)]
          omega
    exact hsteps _ le_rfl
  · intro htotal n hn
    have hbefore := sizesBefore_mono data (Nat.succ_le_of_lt hn)
    rw [Nat.succ_eq_add_one, sizesBefore_succ] at hbefore
    have hoffset := commandOffset_of_sum data n (by omega)
    omega

/-- The last section record decides for all of them. -/
theorem records_iff (offset : ℕ) :
    (∀ j < (sectionCount data offset).toNat,
      sectionOffset data (offset, j) +
          sectionBytes (segmentWide data offset) ≤
        offset + commandSize data offset) ↔
      (sectionCount data offset ≠ 0 →
        fixedBytes (segmentWide data offset) +
            (sectionCount data offset).toNat *
              sectionBytes (segmentWide data offset) ≤
          commandSize data offset) := by
  simp only [sectionOffset_eq]
  rw [ne_eq, ← UInt32.toNat_inj, UInt32.toNat_zero]
  generalize (sectionCount data offset).toNat = count
  generalize sectionBytes (segmentWide data offset) = bytes
  constructor
  · intro hall hcount
    obtain ⟨last, rfl⟩ := Nat.exists_eq_succ_of_ne_zero hcount
    have hend := hall last (Nat.lt_succ_self last)
    rw [Nat.succ_mul]
    omega
  · intro hfit j hj
    have hlast : (j + 1) * bytes ≤ count * bytes :=
      Nat.mul_le_mul_right bytes hj
    have hend := hfit (by omega)
    rw [Nat.succ_mul] at hlast
    omega

theorem mem_segments {offset : ℕ} :
    offset ∈ segments data ↔ ∃ n < commandCount data,
      (commandOffset data n).toNat = offset ∧ IsSegment data offset := by
  simp only [segments, segmentOffsets, List.mem_filter, List.mem_map,
    List.mem_range, decide_eq_true_eq, IsSegment, commandCount]
  constructor
  · rintro ⟨⟨n, hn, hoffset⟩, hsegment⟩
    exact ⟨n, hn, hoffset, hsegment⟩
  · rintro ⟨n, hn, hoffset, hsegment⟩
    exact ⟨⟨n, hn, hoffset⟩, hsegment⟩

/-- An accepted file keeps its commands inside the command area and its
section records inside their commands exactly when the sizes it declares add
up. -/
theorem parse_contained_iff (hrun : parse limits data = .ok image) :
    Contained limits data ↔ SizesAddUp data := by
  rw [contained_iff hrun]
  constructor
  · rintro ⟨hcommands, hsections⟩
    refine ⟨commands_iff.mp hcommands, fun offset hoffset => ?_⟩
    obtain ⟨n, hn, rfl, hsegment⟩ := mem_segments.mp hoffset
    exact (records_iff _).mp (hsections n hn hsegment)
  · rintro ⟨hcommands, hsections⟩
    refine ⟨commands_iff.mpr hcommands, fun n hn hsegment => ?_⟩
    exact (records_iff _).mpr
      (hsections _ (mem_segments.mpr ⟨n, hn, rfl, hsegment⟩))

/-- One 32-bit segment command with one section record, and the sizes it
declares for the command area and the command. -/
def oneSectionFile (areaBytes commandBytes : UInt8) : Bytes :=
  [0xce, 0xfa, 0xed, 0xfe, 7, 0, 0, 0, 0, 0, 0, 0, 2, 0, 0, 0, 1, 0, 0, 0,
    areaBytes, 0, 0, 0, 0, 0, 0, 0] ++
  [1, 0, 0, 0, commandBytes, 0, 0, 0] ++ List.replicate 40 0 ++
  [1, 0, 0, 0, 0, 0, 0, 0] ++ List.replicate 68 0

theorem parse_contained_iff_one_section :
    (∃ image, parse {} (oneSectionFile 124 124) = .ok image) ∧
      Contained {} (oneSectionFile 124 124) := by
  obtain ⟨image, hrun, -⟩ := toOption_bind_eq_some.mp (by decide +kernel :
    (parse {} (oneSectionFile 124 124)).toOption.bind (fun _ => some ()) =
      some ())
  exact ⟨⟨image, hrun⟩, (parse_contained_iff hrun).mpr
    ⟨by decide +kernel, by decide +kernel⟩⟩

/-- The command is outside the area of no bytes, the record outside its
command of eight. -/
theorem parse_accepts_uncontained :
    ¬∀ limits data image, parse limits data = .ok image →
      Contained limits data := by
  intro hall
  obtain ⟨image, hrun, -⟩ := toOption_bind_eq_some.mp (by decide +kernel :
    (parse {} (oneSectionFile 0 8)).toOption.bind (fun _ => some ()) =
      some ())
  have hcontained := (contained_iff hrun).mp (hall _ _ _ hrun)
  have hsections := hcontained.sections 0 (by decide +kernel)
    (by decide +kernel : word _ _ = 1 ∨ word _ _ = 0x19) 0 (by decide +kernel)
  exact absurd hsections (by decide +kernel)

end MachOParser
end BinForge
