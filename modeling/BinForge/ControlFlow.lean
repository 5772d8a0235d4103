import BinForge.BasicBlocks

/-!
# Blocks and the flow of control

Control enters the first instruction, every target, and whatever lies behind an
instruction it may pass.  As long as no target lies inside an instruction, the
instructions in blocks are exactly these; what lies behind the end of the flow
and is no target is in none.
-/

namespace BinForge

open StatefulExcept
open BinaryLoader
open Tiling

namespace DisassemblyAnalyzer

/-- Where control may go, read from the instructions alone. -/
inductive Entered (instructions : List Instruction) : Instruction → Prop
  | first {instruction} (hfirst : instructions.head? = some instruction) :
      Entered instructions instruction
  | target {instruction other} (hmem : instruction ∈ instructions)
      (hother : other ∈ instructions)
      (htarget : other.target = some instruction.address) :
      Entered instructions instruction
  | behindBranch {before after previous instruction}
      (hsplit : instructions = before ++ previous :: instruction :: after)
      (hbranch : previous.branch = true)
      (hterminal : ¬previous.terminal = true) :
      Entered instructions instruction
  | straight {before after previous instruction}
      (hsplit : instructions = before ++ previous :: instruction :: after)
      (hprevious : Entered instructions previous)
      (hterminal : ¬previous.terminal = true) :
      Entered instructions instruction

/-- The bytes of the instruction lie in a block. -/
def Covered (blocks : List BasicBlockInfo) (instruction : Instruction) : Prop :=
  ∃ block ∈ blocks, block.first ≤ instruction.address ∧
    behind instruction ≤ block.last

/-- The address lies inside the instruction. -/
def inside (instruction : Instruction) (address : UInt64) : Bool :=
  instruction.address < address && address < behind instruction

/-- No target lies inside an instruction. -/
def TargetsAtInstructions (instructions : List Instruction) : Prop :=
  ∀ instruction ∈ instructions, ∀ other ∈ instructions,
    instruction.target.any (inside other) = false

instance (blocks : List BasicBlockInfo) (instruction : Instruction) :
    Decidable (Covered blocks instruction) :=
  inferInstanceAs (Decidable (∃ block ∈ blocks, _ ∧ _))

instance (instructions : List Instruction) :
    Decidable (TargetsAtInstructions instructions) :=
  inferInstanceAs (Decidable (∀ instruction ∈ instructions, _))

variable {start last address nextLeader leader : UInt64}
  {instructions run rest : List Instruction}
  {instruction previous : Instruction} {block : BasicBlockInfo}
  {leaders : List UInt64} {blocks : List BasicBlockInfo}

/-! ## What is in a block is entered -/

theorem Entered.along {before : List Instruction}
    (hrun : Run nextLeader run rest)
    (hsplit : instructions = before ++ (run ++ rest))
    (hhead : ∀ head ∈ run.head?, Entered instructions head) :
    ∀ instruction ∈ run, Entered instructions instruction := by
  induction hrun generalizing before with
  | stop hrest => exact nofun
  | ends hbefore hends =>
      intro instruction hmem
      rw [List.mem_singleton.mp hmem]
      exact hhead _ rfl
  | @next head run rest hbefore hplain hrun ih =>
      intro instruction hmem
      rcases List.mem_cons.mp hmem with rfl | hmem
      · exact hhead _ rfl
      · have hnext : instructions = (before ++ [head]) ++ (run ++ rest) := by
          simpa using hsplit
        apply ih hnext _ instruction hmem
        intro second hsecond
        cases run with
        | nil => contradiction
        | cons other run =>
            cases hsecond
            exact .straight hsplit (hhead _ rfl) fun hterminal =>
              hplain (.inr hterminal)

section

variable (htiles : InstructionsTile start.toNat instructions last.toNat)
include htiles

theorem toNat_address_next {before after : List Instruction}
    (hsplit : instructions = before ++ previous :: instruction :: after) :
    instruction.address = behind previous := by
  have hmem : previous ∈ instructions := by simp [hsplit]
  apply UInt64.toNat_inj.mp
  rw [toNat_behind_of_mem htiles hmem]
  rw [hsplit] at htiles
  exact htiles.first_next

/-- An instruction at a leader is entered. -/
theorem entered_of_leads (hmem : instruction ∈ instructions)
    (hleads : Leads start last instructions instruction.address) :
    Entered instructions instruction := by
  rcases hleads with hstart | ⟨other, hother, htarget, -⟩ |
      ⟨other, hother, hbranch, hterminal, hbehind⟩
  · cases instructions with
    | nil => contradiction
    | cons head instructions =>
        have hsame : head = instruction :=
          htiles.eq_of_first List.mem_cons_self hmem
            (by rw [hstart]; exact htiles.first_head)
        exact .first (congrArg some hsame)
  · exact .target hmem hother htarget
  · obtain ⟨before, after, hsplit⟩ :=
      htiles.next_of_first hother hmem (toNat_behind hbehind)
    exact .behindBranch hsplit hbranch hterminal

/-- The instructions in the range of a block are its own. -/
theorem mem_run_of_covered
    (hcut : CutAt instructions leader nextLeader run)
    (hmem : instruction ∈ instructions)
    (hfirst : leader ≤ instruction.address)
    (hlast : instruction.address < (blockOf leader nextLeader run).last) :
    instruction ∈ run := by
  obtain ⟨before, rest, rfl, -, hbefore, -, hrest⟩ := hcut.tiles htiles
  rw [UInt64.le_iff_toNat_le] at hfirst
  rw [UInt64.lt_iff_toNat_lt] at hlast
  rcases List.mem_append.mp hmem with hmem | hmem
  · have hwithin := hbefore.within hmem
    omega
  · rcases List.mem_append.mp hmem with hmem | hmem
    · exact hmem
    · have hwithin := hrest.within hmem
      omega

/-! ## What is entered is in a block -/

/-- The instruction is one of the run of a block. -/
def InRun (last : UInt64) (instructions : List Instruction)
    (leaders : List UInt64) (blocks : List BasicBlockInfo)
    (instruction : Instruction) : Prop :=
  ∃ earlier leader later run, leaders = earlier ++ leader :: later ∧
    CutAt instructions leader (nextOf last later) run ∧
    blockOf leader (nextOf last later) run ∈ blocks ∧ instruction ∈ run

/-- No leader lies inside an instruction when no target does. -/
theorem not_leads_inside (htargets : TargetsAtInstructions instructions)
    (hleads : Leads start last instructions leader)
    (hmem : instruction ∈ instructions) :
    ¬(instruction.address < leader ∧ leader < behind instruction) := by
  intro hinside
  rcases hleads with rfl | ⟨other, hother, htarget, -⟩ |
      ⟨other, hother, -, -, hbehind⟩
  · have hwithin := htiles.within hmem
    have hbefore := hinside.1
    rw [UInt64.lt_iff_toNat_lt] at hbefore
    omega
  · have hnone := htargets other hother instruction hmem
    rw [htarget] at hnone
    simp [inside, hinside] at hnone
  · rw [UInt64.lt_iff_toNat_lt, UInt64.lt_iff_toNat_lt,
      toNat_behind_of_mem htiles hmem, toNat_behind hbehind] at hinside
    exact htiles.not_inside hmem hother hinside

/-- A run that ends with a plain instruction stops there because the next
leader does not lie behind it. -/
theorem CutAt.nextLeader_le {before after : List Instruction}
    (hcut : CutAt instructions leader nextLeader run)
    (hsplit : instructions = before ++ previous :: instruction :: after)
    (hprevious : previous ∈ run) (hplain : ¬previous.Ends)
    (houtside : instruction ∉ run) :
    previous.address < nextLeader ∧ nextLeader ≤ instruction.address := by
  have hmem : instruction ∈ instructions := by simp [hsplit]
  have hpreviousMem : previous ∈ instructions := by simp [hsplit]
  have hnext : instruction.address.toNat =
      previous.address.toNat + previous.size.toNat := by
    rw [toNat_address_next htiles hsplit, toNat_behind_of_mem htiles hpreviousMem]
  obtain ⟨cutBefore, rest, hcutSplit, hrun, hbefore, hruns, hrest⟩ :=
    hcut.tiles htiles
  have hnonempty : run ≠ [] := List.ne_nil_of_mem hprevious
  have hwithin := hruns.within hprevious
  have hbehind : instruction ∈ rest := by
    rw [hcutSplit] at hmem
    rcases List.mem_append.mp hmem with hmem | hmem
    · have hearlier := hbefore.within hmem
      omega
    · exact (List.mem_append.mp hmem).resolve_left houtside
  have hpast := (hrest.within hbehind).1
  have hends : previous.address.toNat + previous.size.toNat =
      (blockOf leader nextLeader run).last.toNat := by omega
  refine ⟨hrun.before hprevious, ?_⟩
  have hplainRun : ∀ item ∈ run, ¬item.Ends := by
    intro item hitem
    rw [← List.dropLast_append_getLast hnonempty] at hitem
    rcases List.mem_append.mp hitem with hitem | hitem
    · exact hrun.plain hitem
    · rw [List.mem_singleton.mp hitem,
        ← hruns.eq_getLast hnonempty hprevious hends]
      exact hplain
  cases rest with
  | nil => contradiction
  | cons head rest =>
      have hstop := hrun.stops hplainRun head rfl
      have hhead : head.address.toNat =
          (blockOf leader nextLeader run).last.toNat := hrest.first_head
      have hsame : head.address = instruction.address := by
        apply UInt64.toNat_inj.mp
        omega
      rw [← hsame]
      exact hstop

theorem covered_iff_inRun
    (hblocks : BlocksOf last instructions leaders blocks)
    (hmem : instruction ∈ instructions) :
    Covered blocks instruction ↔
      InRun last instructions leaders blocks instruction := by
  have hbehind := toNat_behind_of_mem htiles hmem
  have hpositive := (htiles.within hmem).2.1
  constructor
  · rintro ⟨block, hblock, hfirst, hlast⟩
    obtain ⟨earlier, leader, later, run, hsplit, hcut, rfl⟩ :=
      hblocks.sound block hblock
    rw [blockOf_first] at hfirst
    refine ⟨earlier, leader, later, run, hsplit, hcut, hblock, ?_⟩
    apply mem_run_of_covered htiles hcut hmem hfirst
    rw [UInt64.le_iff_toNat_le] at hlast
    rw [UInt64.lt_iff_toNat_lt]
    omega
  · rintro ⟨earlier, leader, later, run, -, hcut, hblock, hin⟩
    obtain ⟨-, -, -, -, -, hruns, -⟩ := hcut.tiles htiles
    have hwithin := hruns.within hin
    refine ⟨_, hblock, ?_, ?_⟩
    · rw [blockOf_first, UInt64.le_iff_toNat_le]
      exact hwithin.1
    · rw [UInt64.le_iff_toNat_le, hbehind]
      exact hwithin.2.2

variable (hleaders : ∀ leader, leader ∈ leaders ↔
    Leads start last instructions leader)
include hleaders

theorem entered_of_inRun
    (hin : InRun last instructions leaders blocks instruction) :
    Entered instructions instruction := by
  obtain ⟨earlier, leader, later, run, hleader, hcut, -, hin⟩ := hin
  obtain ⟨⟨before, rest, hsplit, hrun⟩, head, hhead, haddress⟩ := hcut
  apply Entered.along hrun hsplit _ instruction hin
  intro other hother
  rw [hhead] at hother
  cases hother
  have hmem : head ∈ instructions := by
    rw [hsplit]
    exact List.mem_append_right _
      (List.mem_append_left _ (List.mem_of_mem_head? hhead))
  apply entered_of_leads htiles hmem
  rw [← hleaders, haddress, hleader]
  simp

variable (hblocks : BlocksOf last instructions leaders blocks)
include hblocks

/-- A leader begins the run of its block. -/
theorem inRun_of_leads (hmem : instruction ∈ instructions)
    (hleads : Leads start last instructions instruction.address) :
    InRun last instructions leaders blocks instruction := by
  obtain ⟨earlier, later, hsplit⟩ :=
    List.append_of_mem ((hleaders _).mpr hleads)
  obtain ⟨run, hcut, hblock⟩ :=
    hblocks.found earlier instruction.address later hsplit
      ⟨instruction, hmem, rfl⟩
  refine ⟨earlier, instruction.address, later, run, hsplit, hcut, hblock, ?_⟩
  obtain ⟨⟨before, rest, hrun, -⟩, head, hhead, haddress⟩ := hcut
  have hheadRun : head ∈ run := List.mem_of_mem_head? hhead
  have hheadMem : head ∈ instructions := by
    rw [hrun]
    exact List.mem_append_right _ (List.mem_append_left _ hheadRun)
  rw [htiles.eq_of_first hmem hheadMem (congrArg UInt64.toNat haddress.symm)]
  exact hheadRun

/-- A run goes on to the instruction behind a plain one, or that one is a
leader. -/
theorem inRun_next {before after : List Instruction}
    (htargets : TargetsAtInstructions instructions)
    (hsplit : instructions = before ++ previous :: instruction :: after)
    (hprevious : InRun last instructions leaders blocks previous)
    (hplain : ¬previous.Ends) :
    InRun last instructions leaders blocks instruction := by
  have hmem : instruction ∈ instructions := by simp [hsplit]
  have hpreviousMem : previous ∈ instructions := by simp [hsplit]
  have haddress := toNat_address_next htiles hsplit
  obtain ⟨earlier, leader, later, run, hleader, hcut, hblock, hin⟩ := hprevious
  by_cases hinside : instruction ∈ run
  · exact ⟨earlier, leader, later, run, hleader, hcut, hblock, hinside⟩
  · obtain ⟨hafter, hle⟩ :=
      hcut.nextLeader_le htiles hsplit hin hplain hinside
    cases later with
    | nil =>
        have hwithin := htiles.within hmem
        rw [nextOf, List.headD_nil, UInt64.le_iff_toNat_le] at hle
        omega
    | cons next later =>
        have hnext : Leads start last instructions next := by
          rw [← hleaders, hleader]
          simp
        have hnotInside :=
          not_leads_inside htiles htargets hnext hpreviousMem
        have hsame : next = instruction.address := by
          apply le_antisymm hle
          rw [haddress]
          exact not_lt.mp fun hlt => hnotInside ⟨hafter, hlt⟩
        rw [hsame] at hnext
        exact inRun_of_leads htiles hleaders hblocks hmem hnext

theorem inRun_of_entered (htargets : TargetsAtInstructions instructions)
    (hentered : Entered instructions instruction) :
    InRun last instructions leaders blocks instruction := by
  induction hentered with
  | @first instruction hfirst =>
      have hmem : instruction ∈ instructions := List.mem_of_mem_head? hfirst
      apply inRun_of_leads htiles hleaders hblocks hmem
      left
      cases instructions with
      | nil => contradiction
      | cons head instructions =>
          cases hfirst
          exact UInt64.toNat_inj.mp htiles.first_head
  | target hmem hother htarget =>
      apply inRun_of_leads htiles hleaders hblocks hmem
      have hwithin := htiles.within hmem
      refine .inr (.inl ⟨_, hother, htarget, ?_, ?_⟩)
      · rw [UInt64.le_iff_toNat_le]
        exact hwithin.1
      · rw [UInt64.lt_iff_toNat_lt]
        omega
  | @behindBranch before after previous instruction hsplit hbranch hterminal =>
      have hprevious : previous ∈ instructions := by simp [hsplit]
      obtain ⟨found, hfound, -, -⟩ := behind_of_tile htiles hprevious
      have haddress := toNat_address_next htiles hsplit
      rw [← behind_eq hfound] at haddress
      apply inRun_of_leads htiles hleaders hblocks (by simp [hsplit])
      rw [haddress]
      exact .inr (.inr ⟨previous, hprevious, hbranch, hterminal, hfound⟩)
  | @straight before after previous instruction hsplit hentered hterminal ih =>
      by_cases hbranch : previous.branch = true
      · have hprevious : previous ∈ instructions := by simp [hsplit]
        obtain ⟨found, hfound, -, -⟩ := behind_of_tile htiles hprevious
        have haddress := toNat_address_next htiles hsplit
        rw [← behind_eq hfound] at haddress
        apply inRun_of_leads htiles hleaders hblocks (by simp [hsplit])
        rw [haddress]
        exact .inr (.inr ⟨previous, hprevious, hbranch, hterminal, hfound⟩)
      · apply inRun_next htiles hleaders hblocks htargets hsplit ih
        rintro (hends | hends)
        · exact hbranch hends
        · exact hterminal hends

end

/-! ## The instructions in blocks -/

section

variable {limits : Limits} {decoder : Disassembler} {data : Bytes}
  {report : DisassemblyReport}

/-- An instruction is in a block exactly when control may enter it. -/
theorem covered_iff_entered (hdecoder : BuiltIn decoder)
    (hreport : analyze limits data address decoder = .ok report)
    (htargets : TargetsAtInstructions report.instructions) :
    ∀ instruction ∈ report.instructions,
      (Covered report.blocks instruction ↔
        Entered report.instructions instruction) := by
  obtain ⟨htiles, -, leaders, -, hleaders, hblocks⟩ :=
    analyze_blocks hdecoder hreport
  intro instruction hmem
  rw [covered_iff_inRun htiles hblocks hmem]
  constructor
  · intro hin
    exact entered_of_inRun htiles hleaders hin
  · intro hentered
    exact inRun_of_entered htiles hleaders hblocks htargets hentered

theorem branchCode_covered :
    ∃ report, analyze {} branchCode 0x4000 X86Disassembler.decode =
        .ok report ∧ TargetsAtInstructions report.instructions ∧
      ∀ instruction ∈ report.instructions,
        (Covered report.blocks instruction ↔
          Entered report.instructions instruction) := by
  have hany : (analyze {} branchCode 0x4000
      X86Disassembler.decode).toOption.any fun report =>
        TargetsAtInstructions report.instructions := by
    decide +kernel
  obtain ⟨report, hreport, htargets⟩ := exists_ok_of_any hany
  exact ⟨report, hreport, htargets,
    covered_iff_entered .x86 hreport htargets⟩

/-- What lies behind a return and is no target is in no block. -/
def returnCode : Bytes := [0xc3, 0x90]

theorem returnCode_uncovered :
    ∃ report, analyze {} returnCode 0x4000 X86Disassembler.decode =
        .ok report ∧
      ∃ instruction ∈ report.instructions,
        ¬Covered report.blocks instruction := by
  have hany : (analyze {} returnCode 0x4000
      X86Disassembler.decode).toOption.any fun report =>
        ∃ instruction ∈ report.instructions,
          ¬Covered report.blocks instruction := by
    decide +kernel
  exact exists_ok_of_any hany

end

end DisassemblyAnalyzer
end BinForge
