import BinForge.Builder
import BinForge.MonotoneDrift

/-!
# Where built sections go

The builder's arithmetic in natural numbers.  Sections follow one another in
the file and, with alignments of its own, in memory; consecutive sections share
a segment until the permissions change.  A segment is loaded as one block, so
all sections of a run arrive exactly when those that hold anything but zeros
are displaced like the run's first section.
-/

namespace BinForge

open Alignment

/-- A section with its places in the file and in memory. -/
structure Spot where
  source : BuilderSection
  file : ℕ
  memory : ℕ

namespace Spot

def fileEnd (spot : Spot) : ℕ := spot.file + spot.source.data.length

def memoryEnd (spot : Spot) : ℕ :=
  spot.memory + spot.source.data.length + spot.source.zeroFill.toNat

/-- The first spot ends before the second one starts. -/
structure Before (first second : Spot) : Prop where
  file : first.fileEnd ≤ second.file
  memory : first.memoryEnd ≤ second.memory

/-- Memory shows the section's data at its place and zeros behind it. -/
structure Loaded (contents : ℕ → Option UInt8) (spot : Spot) : Prop where
  data : ∀ i < spot.source.data.length,
    contents (spot.memory + i) = spot.source.data[i]?
  zeros : ∀ i < spot.source.zeroFill.toNat,
    contents (spot.memory + spot.source.data.length + i) = some 0

end Spot

/-- The sections of one segment. -/
structure SegmentRun where
  first : Spot
  rest : List Spot := []

namespace SegmentRun

def members (run : SegmentRun) : List Spot := run.first :: run.rest

def last (run : SegmentRun) : Spot := (run.members).getLast (List.cons_ne_nil _ _)

def join (run : SegmentRun) (spot : Spot) : SegmentRun :=
  { run with rest := run.rest ++ [spot] }

/-- Every section that does not hold zeros only is displaced like the first. -/
def InStep (run : SegmentRun) : Prop :=
  ∀ spot ∈ run.members, (∃ byte ∈ spot.source.data, byte ≠ 0) →
    spot.file + run.first.memory = spot.memory + run.first.file

end SegmentRun

/-- The file so far, the memory cursor and the runs, the current one first. -/
structure SectionLayout where
  file : Bytes := []
  memoryCursor : ℕ
  runs : List SegmentRun := []

namespace SectionLayout

def spotFor (options : BuilderOptions) (layout : SectionLayout)
    (source : BuilderSection) : Spot :=
  { source
    file := roundUp layout.file.length
      (max options.fileAlignment source.alignment).toNat
    memory := roundUp layout.memoryCursor
      (max options.memoryAlignment source.alignment).toNat }

def addSpot (options : BuilderOptions) (spot : Spot) :
    List SegmentRun → List SegmentRun
  | [] => [{ first := spot }]
  | run :: runs =>
      if options.separatePermissions &&
          run.first.source.permissions != spot.source.permissions then
        { first := spot } :: run :: runs
      else run.join spot :: runs

def add (options : BuilderOptions) (layout : SectionLayout)
    (source : BuilderSection) : SectionLayout :=
  let spot := spotFor options layout source
  { file := layout.file ++
      List.replicate (spot.file - layout.file.length) 0 ++ source.data
    memoryCursor := spot.memoryEnd
    runs := addSpot options spot layout.runs }

def ofSections (options : BuilderOptions) (sections : List BuilderSection) :
    SectionLayout :=
  sections.foldl (add options) { memoryCursor := options.imageBase.toNat }

def spots (layout : SectionLayout) : List Spot :=
  layout.runs.reverse.flatMap SegmentRun.members

def InStep (layout : SectionLayout) : Prop :=
  ∀ run ∈ layout.runs, run.InStep

end SectionLayout

/-! ## One run -/

namespace SegmentRun

variable {file : Bytes} {contents : ℕ → Option UInt8} {run : SegmentRun}
  {spot : Spot}

theorem first_mem (run : SegmentRun) : run.first ∈ run.members :=
  List.mem_cons_self

theorem join_members (run : SegmentRun) (spot : Spot) :
    (run.join spot).members = run.members ++ [spot] := rfl

@[simp] theorem join_first (run : SegmentRun) (spot : Spot) :
    (run.join spot).first = run.first := rfl

@[simp] theorem join_last (run : SegmentRun) (spot : Spot) :
    (run.join spot).last = spot := by
  simp [last, join_members]

/-- The members follow one another, and from the first to the last the file
holds their data and zeros between. -/
structure Laid (file : Bytes) (run : SegmentRun) : Prop where
  ordered : run.members.Pairwise Spot.Before
  stored : ∀ spot ∈ run.members, ∀ i < spot.source.data.length,
    file[spot.file + i]? = spot.source.data[i]?
  padded : ∀ x, run.first.file ≤ x → x < run.last.fileEnd →
    (∃ spot ∈ run.members, spot.file ≤ x ∧ x < spot.fileEnd) ∨
      file[x]? = some 0

theorem Laid.first_le (hlaid : run.Laid file) (hspot : spot ∈ run.members) :
    run.first.file ≤ spot.file ∧ run.first.memory ≤ spot.memory := by
  rcases List.mem_cons.mp hspot with rfl | hrest
  · exact ⟨le_rfl, le_rfl⟩
  · have hbefore := (List.pairwise_cons.mp hlaid.ordered).1 spot hrest
    have hfile := hbefore.file
    have hmemory := hbefore.memory
    unfold Spot.fileEnd at hfile
    unfold Spot.memoryEnd at hmemory
    omega

theorem Laid.le_last (hlaid : run.Laid file) (hspot : spot ∈ run.members) :
    spot.fileEnd ≤ run.last.fileEnd ∧ spot.memoryEnd ≤ run.last.memoryEnd := by
  have hsplit : run.members.dropLast ++ [run.last] = run.members :=
    List.dropLast_append_getLast _
  have hordered := hlaid.ordered
  rw [← hsplit] at hspot hordered
  rcases List.mem_append.mp hspot with hfront | hlast
  · have hbefore := (List.pairwise_append.mp hordered).2.2 spot hfront run.last
      List.mem_cons_self
    have hfile := hbefore.file
    have hmemory := hbefore.memory
    simp only [Spot.fileEnd, Spot.memoryEnd] at hfile hmemory ⊢
    omega
  · rw [List.mem_singleton.mp hlast]
    exact ⟨le_rfl, le_rfl⟩

theorem Laid.trichotomy (hlaid : run.Laid file) {left right : Spot}
    (hleft : left ∈ run.members) (hright : right ∈ run.members) :
    left = right ∨ left.Before right ∨ right.Before left := by
  by_cases hsame : left = right
  · exact Or.inl hsame
  · have : Std.Symm fun a b : Spot => a.Before b ∨ b.Before a :=
      ⟨fun _ _ => Or.symm⟩
    have hordered : run.members.Pairwise fun a b => a.Before b ∨ b.Before a :=
      hlaid.ordered.imp Or.inl
    exact Or.inr (hordered.forall hleft hright hsame)

/-- What the run's segment holds at a distance from its start: the file bytes
of the segment, then zeros. -/
def block (file : Bytes) (run : SegmentRun) (x : ℕ) : Option UInt8 :=
  if run.first.file + x < run.last.fileEnd then file[run.first.file + x]?
  else some 0

/-- Memory shows the segment as one block. -/
def BlockLoaded (file : Bytes) (contents : ℕ → Option UInt8)
    (run : SegmentRun) : Prop :=
  ∀ x, run.first.memory + x < run.last.memoryEnd →
    contents (run.first.memory + x) = run.block file x

theorem Laid.block_data (hlaid : run.Laid file) (hspot : spot ∈ run.members)
    {i : ℕ} (hi : i < spot.source.data.length) :
    run.block file (spot.file + i - run.first.file) =
      spot.source.data[i]? := by
  have hfirst := (hlaid.first_le hspot).1
  have hlast := (hlaid.le_last hspot).1
  unfold Spot.fileEnd at hlast
  rw [block, Nat.add_sub_cancel' (by omega),
    if_pos (by unfold Spot.fileEnd; omega)]
  exact hlaid.stored spot hspot i hi

theorem Laid.block_eq (hlaid : run.Laid file) (x : ℕ) :
    (∃ spot ∈ run.members, ∃ i < spot.source.data.length,
        run.first.file + x = spot.file + i ∧
          run.block file x = spot.source.data[i]?) ∨
      run.block file x = some 0 := by
  by_cases hx : run.first.file + x < run.last.fileEnd
  · rcases hlaid.padded _ (Nat.le_add_right _ x) hx with
      ⟨spot, hspot, hlow, hhigh⟩ | hzero
    · unfold Spot.fileEnd at hhigh
      refine Or.inl ⟨spot, hspot, run.first.file + x - spot.file, by omega,
        by omega, ?_⟩
      rw [← hlaid.block_data hspot (by omega)]
      congr 1
      omega
    · rw [block, if_pos hx]
      exact Or.inr hzero
  · rw [block, if_neg hx]
    exact Or.inr rfl

theorem Laid.data_of_displaced (hlaid : run.Laid file)
    (hloaded : run.BlockLoaded file contents) (hspot : spot ∈ run.members)
    (hstep : spot.file + run.first.memory = spot.memory + run.first.file)
    {i : ℕ} (hi : i < spot.source.data.length) :
    contents (spot.memory + i) = spot.source.data[i]? := by
  have hfirst := hlaid.first_le hspot
  have hlast := (hlaid.le_last hspot).2
  unfold Spot.memoryEnd at hlast
  have hplace : spot.memory + i =
      run.first.memory + (spot.file + i - run.first.file) := by omega
  rw [hplace, hloaded _ (by unfold Spot.memoryEnd; omega)]
  exact hlaid.block_data hspot hi

/-- Behind the data of a member in step, and all over a member of zeros, the
run's block is zero: data reaching there would belong to a member in step, and
so to this one. -/
theorem Laid.zero_of_inStep (hlaid : run.Laid file)
    (hloaded : run.BlockLoaded file contents) (hstep : run.InStep)
    (hspot : spot ∈ run.members) {y : ℕ} (hlow : spot.memory ≤ y)
    (hhigh : y < spot.memoryEnd)
    (hzero : (∀ byte ∈ spot.source.data, byte = 0) ∨
      spot.memory + spot.source.data.length ≤ y) : contents y = some 0 := by
  have hfirst := (hlaid.first_le hspot).2
  have hlast := (hlaid.le_last hspot).2
  obtain ⟨x, rfl⟩ := Nat.exists_eq_add_of_le (hfirst.trans hlow)
  rw [hloaded x (hhigh.trans_le hlast)]
  rcases hlaid.block_eq x with ⟨other, hother, i, hi, hx, hvalue⟩ | hblank
  · rw [hvalue, List.getElem?_eq_getElem hi]
    by_contra hnonzero
    have hbyte := List.getElem_mem hi
    rw [Option.some.injEq] at hnonzero
    have hdisplaced := hstep other hother ⟨_, hbyte, hnonzero⟩
    have hsame : spot = other := by
      rcases hlaid.trichotomy hspot hother with hsame | hbefore | hafter
      · exact hsame
      · have := hbefore.memory
        omega
      · have := hafter.memory
        unfold Spot.memoryEnd at this
        omega
    subst hsame
    rcases hzero with hall | hbehind
    · exact hnonzero (hall _ hbyte)
    · omega
  · exact hblank

theorem Laid.loaded_of_inStep (hlaid : run.Laid file)
    (hloaded : run.BlockLoaded file contents) (hstep : run.InStep)
    (hspot : spot ∈ run.members) : spot.Loaded contents := by
  constructor
  · intro i hi
    by_cases hdata : ∃ byte ∈ spot.source.data, byte ≠ 0
    · exact hlaid.data_of_displaced hloaded hspot (hstep spot hspot hdata) hi
    · simp only [not_exists, not_and, not_not] at hdata
      rw [hlaid.zero_of_inStep hloaded hstep hspot (Nat.le_add_right _ i)
        (by unfold Spot.memoryEnd; omega) (Or.inl hdata),
        List.getElem?_eq_getElem hi, hdata _ (List.getElem_mem hi)]
  · intro i hi
    exact hlaid.zero_of_inStep hloaded hstep hspot (by omega)
      (by unfold Spot.memoryEnd; omega) (Or.inr (by omega))

/-- The displacement of the members' bytes, both places counted from the start
of the segment. -/
def Moves (run : SegmentRun) (x y : ℕ) : Prop :=
  ∃ spot ∈ run.members, ∃ i < spot.source.data.length,
    run.first.file + x = spot.file + i ∧
      run.first.memory + y = spot.memory + i

theorem Laid.moves_monotone (hlaid : run.Laid file) :
    MonotoneDrift.Monotone run.Moves := by
  rintro x y x' y' ⟨spot, hspot, i, hi, hx, hy⟩ ⟨spot', hspot', i', hi', hx', hy'⟩
    hless
  rcases hlaid.trichotomy hspot hspot' with rfl | hbefore | hafter
  · omega
  · have := hbefore.memory
    unfold Spot.memoryEnd at this
    omega
  · have := hafter.file
    unfold Spot.fileEnd at this
    omega

theorem Laid.moves_keep (hlaid : run.Laid file)
    (hloaded : run.BlockLoaded file contents)
    (hall : ∀ spot ∈ run.members, spot.Loaded contents) {x y : ℕ}
    (hmoves : run.Moves x y) : run.block file y = run.block file x := by
  obtain ⟨spot, hspot, i, hi, hx, hy⟩ := hmoves
  have hend := (hlaid.le_last hspot).2
  unfold Spot.memoryEnd at hend
  rw [← hloaded y (by unfold Spot.memoryEnd; omega), hy,
    (hall spot hspot).data i hi, ← hlaid.block_data hspot hi]
  congr 1
  omega

theorem Laid.block_of_still (hlaid : run.Laid file) {x : ℕ}
    (hstill : ∀ y, ¬run.Moves x y) : run.block file x = some 0 := by
  rcases hlaid.block_eq x with ⟨spot, hspot, i, hi, hx, _⟩ | hzero
  · have hfirst := (hlaid.first_le hspot).2
    exact absurd ⟨spot, hspot, i, hi, hx, by omega⟩
      (hstill (spot.memory + i - run.first.memory))
  · exact hzero

theorem Laid.inStep_of_loaded (hlaid : run.Laid file)
    (hloaded : run.BlockLoaded file contents)
    (hall : ∀ spot ∈ run.members, spot.Loaded contents) : run.InStep := by
  rintro spot hspot ⟨byte, hbyte, hnonzero⟩
  obtain ⟨i, hi, rfl⟩ := List.mem_iff_getElem.mp hbyte
  have hfirst := hlaid.first_le hspot
  have hbound : ∀ x y, run.Moves x y → x < run.last.fileEnd := by
    rintro x y ⟨other, hother, j, hj, hx, _⟩
    have hend := (hlaid.le_last hother).1
    unfold Spot.fileEnd at hend ⊢
    omega
  by_contra hdisplaced
  have hmoves : run.Moves (spot.file + i - run.first.file)
      (spot.memory + i - run.first.memory) :=
    ⟨spot, hspot, i, hi, by omega, by omega⟩
  -- The byte does not stay in place, so it shows the value of the padding.
  have hzero := MonotoneDrift.eq_rest_of_moves hlaid.moves_monotone hbound
    (fun _ _ => hlaid.moves_keep hloaded hall)
    (fun _ => hlaid.block_of_still) hmoves (by omega)
  rw [hlaid.block_data hspot hi, List.getElem?_eq_getElem hi,
    Option.some.injEq] at hzero
  exact hnonzero hzero

/-- Loaded as one block, a run's sections all arrive exactly when they are in
step. -/
theorem Laid.loaded_iff_inStep (hlaid : run.Laid file)
    (hloaded : run.BlockLoaded file contents) :
    (∀ spot ∈ run.members, spot.Loaded contents) ↔ run.InStep :=
  ⟨hlaid.inStep_of_loaded hloaded, fun hstep _ hspot =>
    hlaid.loaded_of_inStep hloaded hstep hspot⟩

theorem getElem?_append_of_eq_some {front : Bytes} {x : ℕ} {byte : UInt8}
    (hbyte : front[x]? = some byte) (back : Bytes) :
    (front ++ back)[x]? = some byte := by
  obtain ⟨hx, _⟩ := List.getElem?_eq_some_iff.mp hbyte
  rw [List.getElem?_append_left hx, hbyte]

theorem Laid.append (hlaid : run.Laid file) (more : Bytes) :
    run.Laid (file ++ more) := by
  refine ⟨hlaid.ordered, fun spot hspot i hi => ?_, fun x hlow hhigh => ?_⟩
  · have hstored := hlaid.stored spot hspot i hi
    rw [List.getElem?_eq_getElem hi] at hstored ⊢
    exact getElem?_append_of_eq_some hstored more
  · exact (hlaid.padded x hlow hhigh).imp_right fun hzero =>
      getElem?_append_of_eq_some hzero more

end SegmentRun

/-! ## All runs -/

namespace SectionLayout

variable {options : BuilderOptions} {layout : SectionLayout}
  {source : BuilderSection} {sections : List BuilderSection}

/-- All runs are laid, and the current one ends at the cursors. -/
structure Sound (layout : SectionLayout) : Prop where
  runs : ∀ run ∈ layout.runs, run.Laid layout.file
  current : ∀ run ∈ layout.runs.head?,
    run.last.fileEnd = layout.file.length ∧
      run.last.memoryEnd = layout.memoryCursor

theorem le_spotFor (hfile : options.fileAlignment ≠ 0)
    (hmemory : options.memoryAlignment ≠ 0) :
    layout.file.length ≤ (spotFor options layout source).file ∧
      layout.memoryCursor ≤ (spotFor options layout source).memory := by
  have hpositive : ∀ alignment : UInt64, alignment ≠ 0 →
      0 < (max alignment source.alignment).toNat := by
    intro alignment hnonzero
    have hle := UInt64.le_iff_toNat_le.mp
      (le_max_left alignment source.alignment)
    have hzero := mt UInt64.toNat_inj.mp hnonzero
    rw [UInt64.toNat_zero] at hzero
    omega
  exact ⟨le_roundUp (hpositive _ hfile), le_roundUp (hpositive _ hmemory)⟩

theorem add_file (hle : layout.file.length ≤
      (spotFor options layout source).file) :
    (add options layout source).file.length =
        (spotFor options layout source).fileEnd ∧
      (∀ i < source.data.length, (add options layout source).file[
        (spotFor options layout source).file + i]? = source.data[i]?) ∧
      ∀ x, layout.file.length ≤ x → x < (spotFor options layout source).file →
        (add options layout source).file[x]? = some 0 := by
  have hgap : (layout.file ++ List.replicate
      ((spotFor options layout source).file - layout.file.length)
        (0 : UInt8)).length = (spotFor options layout source).file := by
    rw [List.length_append, List.length_replicate, Nat.add_sub_cancel' hle]
  refine ⟨?_, fun i hi => ?_, fun x hlow hhigh => ?_⟩
  · rw [add, List.length_append, hgap]
    rfl
  · rw [add, List.getElem?_append_right (by omega), hgap,
      Nat.add_sub_cancel_left]
  · rw [add, List.getElem?_append_left (by omega),
      List.getElem?_append_right hlow, List.getElem?_replicate,
      if_pos (by omega)]

theorem laid_single (hle : layout.file.length ≤
      (spotFor options layout source).file) :
    SegmentRun.Laid (add options layout source).file
      { first := spotFor options layout source } := by
  refine ⟨List.pairwise_singleton _ _, fun spot hspot => ?_,
    fun x hlow hhigh => Or.inl ⟨_, List.mem_cons_self, hlow, hhigh⟩⟩
  rw [List.mem_singleton.mp hspot]
  exact (add_file hle).2.1

theorem laid_join (hsound : layout.Sound) {run : SegmentRun}
    {runs : List SegmentRun} (hruns : layout.runs = run :: runs)
    (hfile : layout.file.length ≤ (spotFor options layout source).file)
    (hmemory : layout.memoryCursor ≤ (spotFor options layout source).memory) :
    SegmentRun.Laid (add options layout source).file
      (run.join (spotFor options layout source)) := by
  have hlaid := hsound.runs run (hruns ▸ List.mem_cons_self)
  obtain ⟨hfileEnd, hmemoryEnd⟩ := hsound.current run (by rw [hruns]; rfl)
  have hgrown : run.Laid (add options layout source).file := by
    rw [add, List.append_assoc]
    exact hlaid.append _
  refine ⟨?_, fun spot hspot => ?_, fun x hlow hhigh => ?_⟩
  · rw [SegmentRun.join_members, List.pairwise_append]
    refine ⟨hlaid.ordered, List.pairwise_singleton _ _, fun spot hspot => ?_⟩
    obtain ⟨hspotFile, hspotMemory⟩ := hlaid.le_last hspot
    simp only [List.forall_mem_singleton]
    exact ⟨by omega, by omega⟩
  · rw [SegmentRun.join_members] at hspot
    rcases List.mem_append.mp hspot with hold | hnew
    · exact hgrown.stored spot hold
    · rw [List.mem_singleton.mp hnew]
      exact (add_file hfile).2.1
  · rw [SegmentRun.join_last] at hhigh
    rw [SegmentRun.join_first] at hlow
    rw [SegmentRun.join_members]
    by_cases hinside : x < run.last.fileEnd
    · refine (hgrown.padded x hlow hinside).imp_left ?_
      rintro ⟨spot, hspot, hx⟩
      exact ⟨spot, List.mem_append_left _ hspot, hx⟩
    · by_cases hgap : x < (spotFor options layout source).file
      · exact Or.inr ((add_file hfile).2.2 x (by omega) hgap)
      · exact Or.inl ⟨_, List.mem_append_right _ List.mem_cons_self,
          not_lt.mp hgap, hhigh⟩

theorem sound_of_runs {next : SectionLayout} {run : SegmentRun}
    {runs : List SegmentRun} (hruns : next.runs = run :: runs)
    (hrun : run.Laid next.file) (hrest : ∀ other ∈ runs, other.Laid next.file)
    (hfile : run.last.fileEnd = next.file.length)
    (hmemory : run.last.memoryEnd = next.memoryCursor) : next.Sound := by
  refine ⟨fun other hother => ?_, fun other hother => ?_⟩
  · rw [hruns] at hother
    rcases List.mem_cons.mp hother with rfl | hother
    · exact hrun
    · exact hrest other hother
  · rw [hruns, List.head?_cons, Option.mem_some_iff] at hother
    exact hother ▸ ⟨hfile, hmemory⟩

theorem add_sound (hfile : options.fileAlignment ≠ 0)
    (hmemory : options.memoryAlignment ≠ 0) (hsound : layout.Sound)
    (source : BuilderSection) : (add options layout source).Sound := by
  obtain ⟨hfileLe, hmemoryLe⟩ :=
    @le_spotFor options layout source hfile hmemory
  have hold : ∀ run ∈ layout.runs,
      run.Laid (add options layout source).file := by
    intro run hrun
    rw [add, List.append_assoc]
    exact (hsound.runs run hrun).append _
  have hlength := (add_file hfileLe).1
  have hsingle := laid_single hfileLe
  have hruns : (add options layout source).runs =
      addSpot options (spotFor options layout source) layout.runs := rfl
  cases hlayout : layout.runs with
  | nil =>
      rw [hlayout, addSpot] at hruns
      exact sound_of_runs hruns hsingle (by simp) hlength.symm rfl
  | cons last runs =>
      rw [hlayout, addSpot] at hruns
      rw [hlayout] at hold
      split at hruns
      · exact sound_of_runs hruns hsingle hold hlength.symm rfl
      · exact sound_of_runs hruns (laid_join hsound hlayout hfileLe hmemoryLe)
          (fun run hrun => hold run (List.mem_cons_of_mem _ hrun))
          (by rw [SegmentRun.join_last, hlength])
          (by rw [SegmentRun.join_last]; rfl)

theorem ofSections_append (sections : List BuilderSection)
    (source : BuilderSection) :
    ofSections options (sections ++ [source]) =
      add options (ofSections options sections) source := by
  rw [ofSections, ofSections, List.foldl_append, List.foldl_cons,
    List.foldl_nil]

theorem ofSections_sound (hfile : options.fileAlignment ≠ 0)
    (hmemory : options.memoryAlignment ≠ 0) (sections : List BuilderSection) :
    (ofSections options sections).Sound := by
  induction sections using List.reverseRecOn with
  | nil => exact ⟨by simp [ofSections], by simp [ofSections]⟩
  | append_singleton sections source ih =>
      rw [ofSections_append]
      exact add_sound hfile hmemory ih source

theorem add_spots (layout : SectionLayout) (source : BuilderSection) :
    (add options layout source).spots =
      layout.spots ++ [spotFor options layout source] := by
  unfold spots add
  dsimp only
  cases layout.runs with
  | nil => rfl
  | cons run runs =>
      rw [addSpot]
      split
      · simp [SegmentRun.members]
      · simp [SegmentRun.join_members]

theorem ofSections_sources (sections : List BuilderSection) :
    (ofSections options sections).spots.map Spot.source = sections := by
  induction sections using List.reverseRecOn with
  | nil => rfl
  | append_singleton sections source ih =>
      rw [ofSections_append, add_spots, List.map_append, ih]
      rfl

theorem mem_spots {spot : Spot} :
    spot ∈ layout.spots ↔ ∃ run ∈ layout.runs, spot ∈ run.members := by
  simp [spots, List.mem_flatMap]

/-- Loaded run by run, all sections arrive exactly when the layout is in
step. -/
theorem loaded_iff_inStep (hsound : layout.Sound)
    {contents : ℕ → Option UInt8}
    (hloaded : ∀ run ∈ layout.runs, run.BlockLoaded layout.file contents) :
    (∀ spot ∈ layout.spots, spot.Loaded contents) ↔ layout.InStep := by
  have hrun : ∀ run ∈ layout.runs,
      ((∀ spot ∈ run.members, spot.Loaded contents) ↔ run.InStep) :=
    fun run hmem => (hsound.runs run hmem).loaded_iff_inStep (hloaded run hmem)
  constructor
  · intro hall run hmem
    exact (hrun run hmem).mp fun spot hspot =>
      hall spot (mem_spots.mpr ⟨run, hmem, hspot⟩)
  · intro hstep spot hspot
    obtain ⟨run, hmem, hmember⟩ := mem_spots.mp hspot
    exact (hrun run hmem).mpr (hstep run hmem) spot hmember

end SectionLayout
end BinForge
