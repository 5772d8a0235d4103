import BinForge.ControlFlowEdges
import BinForge.Contraction

/-!
# Execution and the control-flow graph

Execution goes from an instruction to its target, and past it unless it is
terminal.  The blocks contract this flow along straight lines: from the first
instruction on, execution reaches exactly the instructions of the blocks that
the edges reach from the first block.
-/

namespace BinForge

open StatefulExcept
open BinaryLoader
open Tiling
open Relation

/-! ## Calls come back -/

/-- A call is not the end of the flow. -/
def Instruction.Returns (instruction : Instruction) : Prop :=
  instruction.call = true → ¬instruction.terminal = true

theorem Instruction.Returns.ite {condition : Prop} [Decidable condition]
    {first second : Instruction} (hfirst : first.Returns)
    (hsecond : second.Returns) :
    (if condition then first else second).Returns := by
  split_ifs
  · exact hfirst
  · exact hsecond

theorem Instruction.returns_of_not_call {instruction : Instruction}
    (hcall : instruction.call = false) : instruction.Returns := by
  intro htaken
  rw [hcall] at htaken
  contradiction

section

variable {data : Bytes} {address : UInt64} {instruction : Instruction}

theorem X86Disassembler.ite_returns {condition : Prop} [Decidable condition]
    {first second : Except Failure Instruction}
    (hfirst : ∀ found, first = .ok found → found.Returns)
    (hsecond : ∀ found, second = .ok found → found.Returns) :
    ∀ found, (if condition then first else second) = .ok found →
      found.Returns := by
  split_ifs
  · exact hfirst
  · exact hsecond

theorem X86Disassembler.rel8_call {name : Bytes}
    (hdecode : rel8 data address name = .ok instruction) :
    instruction.call = false := by
  obtain ⟨-, hdecode⟩ := rejectIf_except_bind_eq_ok.mp hdecode
  cases hdecode
  rfl

theorem X86Disassembler.rel32_returns {call : Bool}
    (hdecode : rel32 data address call = .ok instruction) :
    instruction.Returns := by
  obtain ⟨-, hdecode⟩ := rejectIf_except_bind_eq_ok.mp hdecode
  cases hdecode
  intro hcall
  simp_all

theorem X86Disassembler.decode_returns
    (hdecode : decode data address = .ok instruction) :
    instruction.Returns := by
  cases data with
  | nil => cases hdecode
  | cons opcode rest =>
      have hsingle : ∀ single : Instruction, single.call = false →
          ∀ found, Except.ok single = (.ok found : Except Failure Instruction) →
            found.Returns := by
        intro single hcall found hfound
        obtain rfl := Except.ok.inj hfound
        exact Instruction.returns_of_not_call hcall
      have hjump : ∀ found, (do
            let jump ← rel8 (opcode :: rest) address "jmp"
            return { jump with terminal := true }) = .ok found →
          found.Returns := by
        intro found hfound
        obtain ⟨jump, hjump, hfound⟩ := except_bind_eq_ok.mp hfound
        cases hfound
        have hcall : jump.call = false := rel8_call hjump
        exact Instruction.returns_of_not_call hcall
      revert instruction
      rw [decode]
      dsimp only
      iterate 3
        apply ite_returns
        · apply hsingle
          rfl
      apply ite_returns hjump
      iterate 2
        apply ite_returns
        · intro found hfound
          exact Instruction.returns_of_not_call (rel8_call hfound)
      apply ite_returns
      · intro found hfound
        exact rel32_returns hfound
      iterate 2
        apply ite_returns
        · apply hsingle
          rfl
      apply hsingle
      rfl

theorem Arm64Disassembler.decodeWord_returns (word : UInt32)
    {plain : Instruction} (hplain : plain.call = false)
    (hterminal : plain.terminal = false) :
    (decodeWord word plain).Returns := by
  unfold decodeWord
  dsimp only
  repeat' apply Instruction.Returns.ite
  all_goals
    intro hcall
    simp_all [Arm64Disassembler.branchTo]

theorem RiscVDisassembler.decodeHalf_returns (half : UInt16)
    {plain : Instruction} (hplain : plain.call = false) :
    (decodeHalf half plain).Returns := by
  unfold decodeHalf
  dsimp only
  repeat' apply Instruction.Returns.ite
  all_goals
    intro hcall
    simp_all [RiscVDisassembler.branchTo]

theorem RiscVDisassembler.decodeWord_returns (word : UInt32)
    {plain : Instruction} (hplain : plain.call = false)
    (hterminal : plain.terminal = false) :
    (decodeWord word plain).Returns := by
  unfold decodeWord
  dsimp only
  repeat' apply Instruction.Returns.ite
  all_goals
    intro hcall
    simp_all [RiscVDisassembler.branchTo]

theorem BuiltIn.returns {decoder : Disassembler} (hdecoder : BuiltIn decoder)
    (hdecode : decoder data address = .ok instruction) :
    instruction.Returns := by
  cases hdecoder with
  | x86 => exact X86Disassembler.decode_returns hdecode
  | arm64 =>
      obtain ⟨-, hdecode⟩ := rejectIf_except_bind_eq_ok.mp hdecode
      cases hdecode
      exact Arm64Disassembler.decodeWord_returns _ rfl rfl
  | riscV compressed =>
      obtain ⟨-, hdecode⟩ := rejectIf_except_bind_eq_ok.mp hdecode
      dsimp only at hdecode
      split_ifs at hdecode
      · obtain ⟨-, hdecode⟩ := rejectIf_except_bind_eq_ok.mp hdecode
        cases hdecode
        exact RiscVDisassembler.decodeHalf_returns _ rfl
      · obtain ⟨-, hdecode⟩ := rejectIf_except_bind_eq_ok.mp hdecode
        cases hdecode
        exact RiscVDisassembler.decodeWord_returns _ rfl rfl

end

namespace DisassemblyAnalyzer

/-! ## Steps of the execution and edges of the graph -/

/-- Execution may go from the one instruction to the other. -/
def Flows (instructions : List Instruction)
    (instruction next : Instruction) : Prop :=
  next ∈ instructions ∧
    (instruction.target = some next.address ∨
      ¬instruction.terminal = true ∧ next.address = behind instruction)

/-- An edge of the one block goes to where the other begins. -/
def Linked (blocks : List BasicBlockInfo) (block other : BasicBlockInfo) :
    Prop :=
  block ∈ blocks ∧ other ∈ blocks ∧
    ∃ edge ∈ block.outgoing, edge.target = other.first

/-- The block begins with the instruction. -/
def BeginsWith (instructions : List Instruction)
    (blocks : List BasicBlockInfo) (block : BasicBlockInfo)
    (instruction : Instruction) : Prop :=
  block ∈ blocks ∧ instruction ∈ instructions ∧
    instruction.address = block.first

/-- The instruction lies in the block. -/
def LiesWithin (instructions : List Instruction)
    (blocks : List BasicBlockInfo) (block : BasicBlockInfo)
    (instruction : Instruction) : Prop :=
  block ∈ blocks ∧ instruction ∈ instructions ∧
    block.first ≤ instruction.address ∧ behind instruction ≤ block.last

variable {start last address nextLeader leader : UInt64}
  {instructions run rest : List Instruction}
  {instruction previous next : Instruction}
  {block other : BasicBlockInfo} {edge : ControlFlowEdge}
  {leaders : List UInt64} {blocks : List BasicBlockInfo}

/-- An edge of an instruction goes where execution may go. -/
theorem flow_of_instructionEdges (hreturns : instruction.Returns)
    (hedge : edge ∈ instructionEdges instruction address) :
    instruction.target = some edge.target ∨
      ¬instruction.terminal = true ∧ edge.target = address := by
  rcases List.mem_append.mp hedge with hedge | hedge
  · cases htarget : instruction.target with
    | none =>
        rw [htarget] at hedge
        contradiction
    | some target =>
        rw [htarget] at hedge
        rw [List.mem_singleton.mp hedge]
        exact .inl rfl
  · split_ifs at hedge with hends
    · rw [List.mem_singleton.mp hedge]
      refine .inr ⟨?_, rfl⟩
      rcases hends.2 with ⟨hterminal, -⟩ | hcall
      · exact hterminal
      · exact hreturns hcall
    · contradiction

theorem targetEdge_mem {target : UInt64}
    (htarget : instruction.target = some target) :
    ∃ edge ∈ instructionEdges instruction address, edge.target = target := by
  unfold instructionEdges
  rw [htarget]
  exact ⟨_, List.mem_append_left _ List.mem_cons_self, rfl⟩

theorem fallthroughEdge_mem (hbranch : instruction.branch = true)
    (hterminal : ¬instruction.terminal = true) :
    ∃ edge ∈ instructionEdges instruction address, edge.target = address := by
  have hpasses : (instruction.branch ∨ instruction.terminal) ∧
      (¬instruction.terminal ∧ ¬instruction.call ∨ instruction.call) := by
    by_cases hcall : instruction.call = true
    · exact ⟨.inl hbranch, .inr hcall⟩
    · exact ⟨.inl hbranch, .inl ⟨hterminal, hcall⟩⟩
  unfold instructionEdges
  rw [if_pos hpasses]
  exact ⟨_, List.mem_append_right _ List.mem_cons_self, rfl⟩

section

variable (htiles : InstructionsTile start.toNat instructions last.toNat)
include htiles

/-! ## Inside a block -/

/-- Execution runs down a block from its first instruction. -/
theorem flows_along {before : List Instruction} {head : Instruction}
    (hrun : Run nextLeader run rest)
    (hsplit : instructions = before ++ (run ++ rest))
    (hhead : run.head? = some head) :
    ∀ instruction ∈ run,
      ReflTransGen (Flows instructions) head instruction := by
  induction hrun generalizing before head with
  | stop hrest => exact nofun
  | ends hbefore hends =>
      cases hhead
      intro instruction hmem
      rw [List.mem_singleton.mp hmem]
  | @next first run rest hbefore hplain hrun ih =>
      cases hhead
      intro instruction hmem
      rcases List.mem_cons.mp hmem with rfl | hmem
      · exact .refl
      · have hnext : instructions = (before ++ [first]) ++ (run ++ rest) := by
          simpa using hsplit
        cases run with
        | nil => contradiction
        | cons second run =>
            have hflows : Flows instructions first second := by
              refine ⟨by simp [hsplit], .inr ⟨fun hterminal =>
                hplain (.inr hterminal), ?_⟩⟩
              exact toNat_address_next htiles hsplit
            exact (ReflTransGen.single hflows).trans
              (ih hnext rfl instruction hmem)

/-- A plain instruction whose successor is not in the block is the last of
it. -/
theorem CutAt.closes_behind {before after : List Instruction}
    (hcut : CutAt instructions leader nextLeader run)
    (hsplit : instructions = before ++ previous :: instruction :: after)
    (hprevious : previous ∈ run) (hplain : ¬previous.Ends)
    (houtside : instruction ∉ run) :
    (∀ item ∈ run, ¬item.Ends) ∧
      (blockOf leader nextLeader run).last = behind previous := by
  obtain ⟨⟨cutBefore, rest, hcutSplit, hrun⟩, -⟩ := hcut
  obtain ⟨front, back, rfl⟩ := List.append_of_mem hprevious
  cases back with
  | nil =>
      constructor
      · intro item hitem
        rcases List.mem_append.mp hitem with hitem | hitem
        · apply hrun.plain
          rw [List.dropLast_concat]
          exact hitem
        · rw [List.mem_singleton.mp hitem]
          exact hplain
      · rw [blockOf_last (by simp)]
        simp
  | cons second back =>
      have hsecond : instructions =
          (cutBefore ++ front) ++ previous :: second :: (back ++ rest) := by
        simpa using hcutSplit
      have haddress : second.address = instruction.address := by
        rw [toNat_address_next htiles hsecond,
          toNat_address_next htiles hsplit]
      have hsame : second = instruction :=
        htiles.eq_of_first (by simp [hsecond]) (by simp [hsplit])
          (congrArg UInt64.toNat haddress)
      exact absurd (by simp [hsame]) houtside

/-- What lies in a block is its run. -/
theorem liesWithin_iff_mem (hcut : CutAt instructions leader nextLeader run)
    (hblock : blockOf leader nextLeader run ∈ blocks) :
    LiesWithin instructions blocks (blockOf leader nextLeader run)
        instruction ↔ instruction ∈ run := by
  obtain ⟨before, rest, hsplit, -, -, hruns, -⟩ := hcut.tiles htiles
  constructor
  · rintro ⟨-, hmem, hfirst, hlast⟩
    have hbehind := toNat_behind_of_mem htiles hmem
    have hpositive := (htiles.within hmem).2.1
    rw [blockOf_first] at hfirst
    apply mem_run_of_covered htiles hcut hmem hfirst
    rw [UInt64.le_iff_toNat_le] at hlast
    rw [UInt64.lt_iff_toNat_lt]
    omega
  · intro hin
    have hmem : instruction ∈ instructions := by
      rw [hsplit]
      exact List.mem_append_right _ (List.mem_append_left _ hin)
    have hbehind := toNat_behind_of_mem htiles hmem
    have hwithin := hruns.within hin
    refine ⟨hblock, hmem, ?_, ?_⟩
    · rw [blockOf_first, UInt64.le_iff_toNat_le]
      exact hwithin.1
    · rw [UInt64.le_iff_toNat_le, hbehind]
      exact hwithin.2.2

/-- A block begins with the head of its run. -/
theorem head?_of_beginsWith (hcut : CutAt instructions leader nextLeader run)
    (hbegins : BeginsWith instructions blocks (blockOf leader nextLeader run)
      instruction) : run.head? = some instruction := by
  obtain ⟨-, hmem, haddress⟩ := hbegins
  obtain ⟨⟨before, rest, hsplit, -⟩, head, hhead, hleader⟩ := hcut
  have hheadMem : head ∈ instructions := by
    rw [hsplit]
    exact List.mem_append_right _
      (List.mem_append_left _ (List.mem_of_mem_head? hhead))
  rw [blockOf_first, ← hleader] at haddress
  rw [hhead, htiles.eq_of_first hheadMem hmem
    (congrArg UInt64.toNat haddress.symm)]

variable (hblocks : BlocksOf last instructions leaders blocks)
include hblocks

theorem liesWithin_of_beginsWith
    (hbegins : BeginsWith instructions blocks block instruction) :
    LiesWithin instructions blocks block instruction := by
  obtain ⟨earlier, leader, later, run, -, hcut, rfl⟩ :=
    hblocks.sound block hbegins.1
  rw [liesWithin_iff_mem htiles hcut hbegins.1]
  exact List.mem_of_mem_head? (head?_of_beginsWith htiles hcut hbegins)

/-- Execution reaches all of a block from its first instruction. -/
theorem flows_within
    (hbegins : BeginsWith instructions blocks block previous)
    (hlies : LiesWithin instructions blocks block instruction) :
    ReflTransGen (Flows instructions) previous instruction := by
  obtain ⟨earlier, leader, later, run, -, hcut, rfl⟩ :=
    hblocks.sound block hbegins.1
  rw [liesWithin_iff_mem htiles hcut hbegins.1] at hlies
  obtain ⟨before, rest, hsplit, hrun⟩ := hcut.cut
  exact flows_along htiles hrun hsplit
    (head?_of_beginsWith htiles hcut hbegins) instruction hlies

/-! ## Out of a block -/

/-- An edge is a step of the execution out of the block. -/
theorem edge_realised
    (hreturns : ∀ instruction ∈ instructions, instruction.Returns)
    (hlinked : Linked blocks block other) :
    ∃ instruction next, LiesWithin instructions blocks block instruction ∧
      Flows instructions instruction next ∧
        BeginsWith instructions blocks other next := by
  obtain ⟨hblock, hother, edge, hedge, htarget⟩ := hlinked
  obtain ⟨_, otherLeader, _, otherRun, -, hotherCut, hotherBlock⟩ :=
    hblocks.sound other hother
  obtain ⟨earlier, leader, later, run, -, hcut, rfl⟩ :=
    hblocks.sound block hblock
  obtain ⟨before, rest, hsplit, -, -, hruns, -⟩ := hcut.tiles htiles
  have hinside : ∀ item ∈ run, item ∈ instructions := fun item hitem => by
    rw [hsplit]
    exact List.mem_append_right _ (List.mem_append_left _ hitem)
  obtain ⟨next, hnext, haddress⟩ : ∃ next ∈ instructions,
      next.address = other.first := by
    obtain ⟨⟨otherBefore, otherRest, hotherSplit, -⟩, head, hhead, hfirst⟩ :=
      hotherCut
    refine ⟨head, ?_, ?_⟩
    · rw [hotherSplit]
      exact List.mem_append_right _
        (List.mem_append_left _ (List.mem_of_mem_head? hhead))
    · rw [hfirst, hotherBlock, blockOf_first]
  suffices hstep : ∃ item ∈ run, item.target = some edge.target ∨
      ¬item.terminal = true ∧ edge.target = behind item by
    obtain ⟨item, hitem, hflows⟩ := hstep
    rw [htarget, ← haddress] at hflows
    exact ⟨item, next, (liesWithin_iff_mem htiles hcut hblock).mpr hitem,
      ⟨hnext, hflows⟩, hother, hnext, haddress⟩
  rcases mem_outgoing.mp hedge with hedge | ⟨hplain, hlast, rfl⟩
  · obtain ⟨item, hitem, hedge⟩ := List.mem_flatMap.mp hedge
    exact ⟨item, hitem,
      flow_of_instructionEdges (hreturns item (hinside item hitem)) hedge⟩
  · obtain ⟨-, head, hhead, -⟩ := hcut
    have hnonempty : run ≠ [] :=
      List.ne_nil_of_mem (List.mem_of_mem_head? hhead)
    refine ⟨run.getLast hnonempty, List.getLast_mem hnonempty, .inr ⟨?_, ?_⟩⟩
    · intro hterminal
      exact hplain _ (List.getLast_mem hnonempty) (.inr hterminal)
    · rw [← blockOf_last hnonempty, hlast]
      rfl

variable (hleaders : ∀ leader, leader ∈ leaders ↔
    Leads start last instructions leader)
include hleaders

omit htiles in
/-- A block begins at every leader that is the address of an instruction. -/
theorem exists_beginsWith (hmem : instruction ∈ instructions)
    (hleads : Leads start last instructions instruction.address) :
    ∃ block, BeginsWith instructions blocks block instruction := by
  obtain ⟨earlier, later, hsplit⟩ :=
    List.append_of_mem ((hleaders _).mpr hleads)
  obtain ⟨run, -, hblock⟩ := hblocks.found earlier instruction.address later
    hsplit ⟨instruction, hmem, rfl⟩
  exact ⟨_, hblock, hmem, blockOf_first.symm⟩

/-- A step of the execution stays in the block or goes along an edge. -/
theorem follows_edge (htargets : TargetsAtInstructions instructions)
    (hlies : LiesWithin instructions blocks block instruction)
    (hflows : Flows instructions instruction next) :
    LiesWithin instructions blocks block next ∨
      ∃ other, Linked blocks block other ∧
        BeginsWith instructions blocks other next := by
  have hblock := hlies.1
  have hmem := hlies.2.1
  obtain ⟨earlier, leader, later, run, hsplit, hcut, rfl⟩ :=
    hblocks.sound block hblock
  rw [liesWithin_iff_mem htiles hcut hblock] at hlies ⊢
  obtain ⟨hnext, hflows⟩ := hflows
  -- An edge to a leader goes to where its block begins.
  have hedge : Leads start last instructions next.address →
      (∃ edge ∈ (blockOf leader (nextOf last later) run).outgoing,
        edge.target = next.address) →
      ∃ other, Linked blocks (blockOf leader (nextOf last later) run) other ∧
        BeginsWith instructions blocks other next := by
    intro hleads ⟨edge, hedge, htarget⟩
    obtain ⟨other, hbegins⟩ := exists_beginsWith hblocks hleaders hnext hleads
    exact ⟨other, ⟨hblock, hbegins.1, edge, hedge,
      htarget.trans hbegins.2.2⟩, hbegins⟩
  have hown : (∃ edge ∈ instructionEdges instruction (behind instruction),
        edge.target = next.address) →
      ∃ edge ∈ (blockOf leader (nextOf last later) run).outgoing,
        edge.target = next.address := by
    intro ⟨edge, hedge, htarget⟩
    exact ⟨edge, mem_outgoing.mpr
      (.inl (List.mem_flatMap.mpr ⟨instruction, hlies, hedge⟩)), htarget⟩
  rcases hflows with htarget | ⟨hterminal, haddress⟩
  · right
    have hwithin := htiles.within hnext
    apply hedge
    · refine .inr (.inl ⟨instruction, hmem, htarget, ?_, ?_⟩)
      · rw [UInt64.le_iff_toNat_le]
        exact hwithin.1
      · rw [UInt64.lt_iff_toNat_lt]
        omega
    · exact hown (targetEdge_mem htarget)
  · by_cases hbranch : instruction.branch = true
    · right
      obtain ⟨found, hfound, -, -⟩ := behind_of_tile htiles hmem
      have hbehind : Instruction.behind? instruction = some next.address := by
        rw [haddress, ← behind_eq hfound]
        exact hfound
      apply hedge
      · exact .inr (.inr ⟨instruction, hmem, hbranch, hterminal, hbehind⟩)
      · rw [haddress] at hown ⊢
        exact hown (fallthroughEdge_mem hbranch hterminal)
    · by_cases hin : next ∈ run
      · exact .inl hin
      · right
        have hplain : ¬instruction.Ends := by
          rintro (hends | hends)
          · exact hbranch hends
          · exact hterminal hends
        have htoNat : next.address.toNat =
            instruction.address.toNat + instruction.size.toNat := by
          rw [haddress, toNat_behind_of_mem htiles hmem]
        obtain ⟨before, after, hlist⟩ :=
          htiles.next_of_first hmem hnext htoNat
        obtain ⟨hafter, hle⟩ :=
          hcut.nextLeader_le htiles hlist hlies hplain hin
        obtain ⟨hall, hlast⟩ :=
          hcut.closes_behind htiles hlist hlies hplain hin
        cases later with
        | nil =>
            have hwithin := htiles.within hnext
            rw [nextOf, List.headD_nil, UInt64.le_iff_toNat_le] at hle
            omega
        | cons upcoming later =>
            have hleads : Leads start last instructions upcoming := by
              rw [← hleaders, hsplit]
              simp
            have hnotInside := not_leads_inside htiles htargets hleads hmem
            have hsame : upcoming = next.address := by
              apply le_antisymm hle
              rw [haddress]
              exact not_lt.mp fun hlt => hnotInside ⟨hafter, hlt⟩
            rw [hsame] at hleads
            apply hedge hleads
            refine ⟨closingEdge _ _, mem_outgoing.mpr
              (.inr ⟨hall, ?_, rfl⟩), hsame⟩
            rw [hlast, ← haddress]
            exact hsame.symm

end

/-! ## Runs of the execution -/

section

variable {limits : Limits} {decoder : Disassembler} {data : Bytes}
  {report : DisassemblyReport} {first : Instruction}

theorem report_returns (hdecoder : BuiltIn decoder)
    (hreport : analyze limits data address decoder = .ok report) :
    ∀ instruction ∈ report.instructions, instruction.Returns := by
  intro instruction hmem
  have hplaces := (analyze_tilesInput hdecoder hreport).places
  exact hdecoder.returns (hplaces instruction hmem).decoded

/-- The blocks and the edges of a report contract its flow. -/
theorem report_contracts (hdecoder : BuiltIn decoder)
    (hreport : analyze limits data address decoder = .ok report)
    (htargets : TargetsAtInstructions report.instructions) :
    Contraction (Flows report.instructions) (Linked report.blocks)
      (BeginsWith report.instructions report.blocks)
      (LiesWithin report.instructions report.blocks) := by
  obtain ⟨htiles, -, leaders, -, hleaders, hblocks⟩ :=
    analyze_blocks hdecoder hreport
  constructor
  · intro block instruction hbegins
    exact liesWithin_of_beginsWith htiles hblocks hbegins
  · intro block head instruction hbegins hlies
    exact flows_within htiles hblocks hbegins hlies
  · intro block instruction next hlies hflows
    exact follows_edge htiles hblocks hleaders htargets hlies hflows
  · intro block other hlinked
    exact edge_realised htiles hblocks (report_returns hdecoder hreport)
      hlinked

/-- Execution from the first instruction reaches an instruction exactly when
the edges lead from the first block to one that the instruction lies in. -/
theorem executed_iff_reached (hdecoder : BuiltIn decoder)
    (hreport : analyze limits data address decoder = .ok report)
    (htargets : TargetsAtInstructions report.instructions)
    (hfirst : report.instructions.head? = some first) :
    ∃ entry ∈ report.blocks, entry.first = report.start ∧
      ∀ instruction,
        ReflTransGen (Flows report.instructions) first instruction ↔
          ∃ block, ReflTransGen (Linked report.blocks) entry block ∧
            LiesWithin report.instructions report.blocks block
              instruction := by
  obtain ⟨htiles, -, leaders, -, hleaders, hblocks⟩ :=
    analyze_blocks hdecoder hreport
  have hmem : first ∈ report.instructions := List.mem_of_mem_head? hfirst
  have hstart : first.address = report.start := by
    obtain ⟨rest, hrest⟩ : ∃ rest, report.instructions = first :: rest :=
      List.head?_eq_some_iff.mp hfirst
    rw [hrest] at htiles
    exact UInt64.toNat_inj.mp htiles.first_head
  obtain ⟨entry, hbegins⟩ :=
    exists_beginsWith hblocks hleaders hmem (.inl hstart)
  refine ⟨entry, hbegins.1, hbegins.2.2.symm.trans hstart, ?_⟩
  intro instruction
  exact (report_contracts hdecoder hreport htargets).reached_iff hbegins

theorem executed_iff_reached_branchCode :
    ∃ report first, analyze {} branchCode 0x4000 X86Disassembler.decode =
        .ok report ∧ report.instructions.head? = some first ∧
      ∃ entry ∈ report.blocks, entry.first = report.start ∧
        ∀ instruction,
          ReflTransGen (Flows report.instructions) first instruction ↔
            ∃ block, ReflTransGen (Linked report.blocks) entry block ∧
              LiesWithin report.instructions report.blocks block
                instruction := by
  have hany : (analyze {} branchCode 0x4000
      X86Disassembler.decode).toOption.any fun report =>
        TargetsAtInstructions report.instructions ∧
          report.instructions.head?.isSome := by
    decide +kernel
  obtain ⟨report, hreport, htargets, hsome⟩ := exists_ok_of_any hany
  obtain ⟨first, hfirst⟩ := Option.isSome_iff_exists.mp hsome
  exact ⟨report, first, hreport, hfirst,
    executed_iff_reached .x86 hreport htargets hfirst⟩

end

end DisassemblyAnalyzer
end BinForge
