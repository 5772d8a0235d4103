import BinForge.ControlFlow

/-!
# Edges and the blocks they leave

The edges an instruction adds leave from its address.  The edge a block gets
because it runs into the next leader leaves from the end of the block, which is
the address of none of its instructions.
-/

namespace BinForge

open StatefulExcept
open BinaryLoader
open Tiling

namespace DisassemblyAnalyzer

/-- The edge leaves from an instruction of the block and goes to the end of the
block, or to the target of the instruction. -/
def LeavesFrom (instructions : List Instruction) (block : BasicBlockInfo)
    (edge : ControlFlowEdge) : Prop :=
  ∃ instruction ∈ instructions, edge.source = instruction.address ∧
    block.first ≤ instruction.address ∧ instruction.address < block.last ∧
    (edge.fallthrough = true → edge.target = block.last) ∧
    (edge.fallthrough = false → instruction.target = some edge.target)

/-- Plain instructions lead from a leader to the next one, or to the end of
what is decoded. -/
structure Joins (start last : UInt64) (instructions run : List Instruction)
    (first stop : UInt64) : Prop where
  inside : ∃ before rest, instructions = before ++ (run ++ rest)
  nonempty : run ≠ []
  plain : ∀ instruction ∈ run, ¬instruction.Ends
  tiles : InstructionsTile first.toNat run stop.toNat
  leads : Leads start last instructions first
  stops : Leads start last instructions stop ∨ stop = last
  between : ∀ leader, Leads start last instructions leader →
    ¬(first < leader ∧ leader < stop)

variable {start last address nextLeader leader : UInt64}
  {instructions run rest : List Instruction} {instruction : Instruction}
  {block : BasicBlockInfo} {edge : ControlFlowEdge}
  {leaders : List UInt64} {blocks : List BasicBlockInfo}

/-! ## The edges of a block -/

theorem mem_instructionEdges
    (hedge : edge ∈ instructionEdges instruction address) :
    edge.source = instruction.address ∧
      (edge.fallthrough = false ∧ instruction.target = some edge.target ∨
        edge.fallthrough = true ∧ edge.target = address ∧
          instruction.Ends) := by
  rcases List.mem_append.mp hedge with hedge | hedge
  · cases htarget : instruction.target with
    | none =>
        rw [htarget] at hedge
        contradiction
    | some target =>
        rw [htarget] at hedge
        rw [List.mem_singleton.mp hedge]
        exact ⟨rfl, .inl ⟨rfl, rfl⟩⟩
  · split_ifs at hedge with hends
    · rw [List.mem_singleton.mp hedge]
      exact ⟨rfl, .inr ⟨rfl, rfl, hends.1⟩⟩
    · contradiction

/-- The edge of a block that runs into the next leader. -/
def closingEdge (nextLeader : UInt64) (block : BasicBlockInfo) :
    ControlFlowEdge :=
  { source := block.last, target := nextLeader, fallthrough := true }

theorem complete_eq_false (leader : UInt64) :
    (extended { first := leader } run).complete = false ↔
      ∀ instruction ∈ run, ¬instruction.Ends := by
  simp [extended]

theorem blockOf_last_eq : (blockOf leader nextLeader run).last =
    (extended { first := leader } run).last := by
  unfold blockOf closeBlock
  split_ifs
  · rfl
  · rfl

theorem mem_outgoing :
    edge ∈ (blockOf leader nextLeader run).outgoing ↔
      edge ∈ edgesOf run ∨
        (∀ instruction ∈ run, ¬instruction.Ends) ∧
          (blockOf leader nextLeader run).last = nextLeader ∧
          edge = closingEdge nextLeader (blockOf leader nextLeader run) := by
  rw [← complete_eq_false leader, blockOf_last_eq, closingEdge,
    blockOf_last_eq]
  unfold blockOf closeBlock
  have hedges : (extended { first := leader } run).outgoing = edgesOf run := by
    simp [extended]
  split_ifs with hclose
  · simp only [hedges, List.mem_append, List.mem_singleton, hclose, true_and]
  · rw [hedges]
    tauto

/-- The edge into the next leader does not. -/
theorem not_leavesFrom_closingEdge :
    ¬LeavesFrom instructions block (closingEdge nextLeader block) := by
  rintro ⟨instruction, -, hsource, -, hlast, -⟩
  rw [← hsource] at hlast
  exact lt_irrefl _ hlast

/-- The instructions begin with the one at the leader. -/
theorem Joins.exists_first {first stop : UInt64}
    (hjoins : Joins start last instructions run first stop) :
    ∃ instruction ∈ instructions, instruction.address = first := by
  obtain ⟨before, rest, hinside⟩ := hjoins.inside
  have htiles := hjoins.tiles
  cases hrun : run with
  | nil => exact absurd hrun hjoins.nonempty
  | cons head run =>
      rw [hrun] at htiles hinside
      exact ⟨head, by simp [hinside], UInt64.toNat_inj.mp htiles.first_head⟩

section

variable (htiles : InstructionsTile start.toNat instructions last.toNat)
include htiles

/-- The edges of the instructions leave from the block. -/
theorem leavesFrom_of_mem
    (hcut : CutAt instructions leader nextLeader run)
    (hedge : edge ∈ edgesOf run) :
    LeavesFrom instructions (blockOf leader nextLeader run) edge := by
  obtain ⟨before, rest, hsplit, hrun, -, hruns, -⟩ := hcut.tiles htiles
  obtain ⟨instruction, hin, hedge⟩ := List.mem_flatMap.mp hedge
  obtain ⟨hsource, hkind⟩ := mem_instructionEdges hedge
  have hmem : instruction ∈ instructions := by
    rw [hsplit]
    exact List.mem_append_right _ (List.mem_append_left _ hin)
  have hwithin := hruns.within hin
  refine ⟨instruction, hmem, hsource, ?_, ?_, ?_, ?_⟩
  · rw [blockOf_first, UInt64.le_iff_toNat_le]
    exact hwithin.1
  · rw [UInt64.lt_iff_toNat_lt]
    omega
  · intro hfallthrough
    rcases hkind with ⟨hplain, -⟩ | ⟨-, htarget, hends⟩
    · rw [hplain] at hfallthrough
      contradiction
    · -- Only the last instruction of a run ends it.
      have hnonempty : run ≠ [] := List.ne_nil_of_mem hin
      have hgetLast : instruction = run.getLast hnonempty := by
        rw [← List.dropLast_append_getLast hnonempty] at hin
        rcases List.mem_append.mp hin with hin | hin
        · exact absurd hends (hrun.plain hin)
        · exact List.mem_singleton.mp hin
      rw [htarget, blockOf_last hnonempty, ← hgetLast]
  · intro hfallthrough
    rcases hkind with ⟨-, htarget⟩ | ⟨htaken, -⟩
    · exact htarget
    · rw [htaken] at hfallthrough
      contradiction

theorem Leads.le_last (hleads : Leads start last instructions leader) :
    leader ≤ last := by
  rcases hleads with rfl | ⟨other, -, -, -, hlast⟩ | ⟨other, hother, -, -, hbehind⟩
  · rw [UInt64.le_iff_toNat_le]
    exact htiles.le
  · exact hlast.le
  · have hwithin := htiles.within hother
    rw [UInt64.le_iff_toNat_le, toNat_behind hbehind]
    exact hwithin.2.2

theorem Joins.stop_le_last {first stop : UInt64}
    (hjoins : Joins start last instructions run first stop) : stop ≤ last := by
  rcases hjoins.stops with hleads | rfl
  · exact Leads.le_last htiles hleads
  · exact le_rfl

/-- The block from the leader is made of the instructions that join it. -/
theorem Joins.closes {first stop : UInt64} {taken : List Instruction}
    (hjoins : Joins start last instructions run first stop)
    (hcut : CutAt instructions first stop taken) :
    (∀ instruction ∈ taken, ¬instruction.Ends) ∧
      (blockOf first stop taken).last = stop := by
  obtain ⟨cutBefore, rest, hsplit, htaken, -, htakenTiles, hrest⟩ :=
    hcut.tiles htiles
  obtain ⟨before, after, hinside⟩ := hjoins.inside
  have hsubset : ∀ instruction ∈ taken, instruction ∈ run := by
    intro instruction hin
    have hmem : instruction ∈ before ++ (run ++ after) := by
      rw [← hinside, hsplit]
      exact List.mem_append_right _ (List.mem_append_left _ hin)
    have hbefore := htaken.before hin
    rw [UInt64.lt_iff_toNat_lt] at hbefore
    rw [hinside] at htiles
    exact htiles.mem_middle hjoins.tiles hjoins.nonempty hmem
      (htakenTiles.within hin).1 hbefore
  have hplain : ∀ instruction ∈ taken, ¬instruction.Ends := fun instruction hin =>
    hjoins.plain instruction (hsubset instruction hin)
  refine ⟨hplain, ?_⟩
  obtain ⟨-, head, hhead, -⟩ := hcut
  have hnonempty : taken ≠ [] :=
    List.ne_nil_of_mem (List.mem_of_mem_head? hhead)
  apply le_antisymm
  · have hend := htakenTiles.stop_eq_getLast hnonempty
    have hwithin := hjoins.tiles.within
      (hsubset _ (List.getLast_mem hnonempty))
    rw [UInt64.le_iff_toNat_le]
    omega
  · rw [UInt64.le_iff_toNat_le]
    cases rest with
    | nil =>
        have hstop := hjoins.stop_le_last htiles
        have hlast : (blockOf first stop taken).last.toNat = last.toNat :=
          hrest
        rw [hlast]
        exact hstop
    | cons next rest =>
        have hpast := htaken.stops hplain next rfl
        have hnext : next.address.toNat =
            (blockOf first stop taken).last.toNat := hrest.first_head
        rw [UInt64.le_iff_toNat_le] at hpast
        omega

variable (hleaders : ∀ leader, leader ∈ leaders ↔
    Leads start last instructions leader)
  (hsorted : leaders.Pairwise (· < ·))
include hleaders hsorted

/-- A block with an edge into the next leader joins the two. -/
theorem joins_of_plain {earlier later : List UInt64}
    (hsplit : leaders = earlier ++ leader :: later)
    (hcut : CutAt instructions leader (nextOf last later) run)
    (hplain : ∀ instruction ∈ run, ¬instruction.Ends)
    (hlast : (blockOf leader (nextOf last later) run).last =
      nextOf last later) :
    Joins start last instructions run leader (nextOf last later) := by
  obtain ⟨before, rest, hinside, -, -, hruns, -⟩ := hcut.tiles htiles
  obtain ⟨-, head, hhead, -⟩ := hcut
  constructor
  · exact ⟨before, rest, hinside⟩
  · exact List.ne_nil_of_mem (List.mem_of_mem_head? hhead)
  · exact hplain
  · rw [hlast] at hruns
    exact hruns
  · rw [← hleaders, hsplit]
    simp
  · cases later with
    | nil => exact .inr rfl
    | cons next later =>
        left
        rw [← hleaders, hsplit]
        simp [nextOf]
  · intro other hother hbetween
    rw [← hleaders] at hother
    rw [hsplit] at hother hsorted
    have hle := (nextOf_le last hsorted hother hbetween.1).2
    exact absurd hbetween.2 (not_lt.mpr hle)

/-- The next leader is where the instructions join it. -/
theorem Joins.nextOf_eq {earlier later : List UInt64} {first stop : UInt64}
    (hjoins : Joins start last instructions run first stop)
    (hsplit : leaders = earlier ++ first :: later) :
    nextOf last later = stop := by
  have hlt : first < stop := by
    rw [UInt64.lt_iff_toNat_lt]
    exact hjoins.tiles.lt_of_ne_nil hjoins.nonempty
  have hstop := hjoins.stop_le_last htiles
  rw [hsplit] at hsorted
  apply le_antisymm
  · rcases hjoins.stops with hleads | rfl
    · rw [← hleaders, hsplit] at hleads
      exact (nextOf_le last hsorted hleads hlt).2
    · cases later with
      | nil => exact le_rfl
      | cons next later =>
          apply Leads.le_last htiles
          rw [← hleaders, hsplit]
          simp [nextOf]
  · cases later with
    | nil => exact hstop
    | cons next later =>
        have hnext : Leads start last instructions next := by
          rw [← hleaders, hsplit]
          simp
        obtain ⟨-, hbehind, -⟩ := List.pairwise_append.mp hsorted
        have hafter : first < next :=
          (List.pairwise_cons.mp hbehind).1 next List.mem_cons_self
        exact not_lt.mp fun hbefore => hjoins.between next hnext
          ⟨hafter, hbefore⟩

end

/-! ## Edges of a report -/

section

variable {limits : Limits} {decoder : Disassembler} {data : Bytes}
  {report : DisassemblyReport}

/-- Where the linear sweep of the input ends. -/
def decodedEnd (limits : Limits) (data : Bytes) (address : UInt64)
    (decoder : Disassembler) : UInt64 :=
  address + UInt64.ofNat (bytesOf (decodedBy limits data address decoder))

/-- Plain instructions of the input lead from a leader to the next one or to
the end. -/
def RunsOn (limits : Limits) (data : Bytes) (address : UInt64)
    (decoder : Disassembler) : Prop :=
  ∃ run first stop, Joins address (decodedEnd limits data address decoder)
    (decodedBy limits data address decoder) run first stop

/-- All edges leave from instructions of their blocks exactly when no plain
instructions run into a leader or into the end. -/
theorem edges_leave_iff (hdecoder : BuiltIn decoder)
    (hreport : analyze limits data address decoder = .ok report) :
    (∀ block ∈ report.blocks, ∀ edge ∈ block.outgoing,
        LeavesFrom report.instructions block edge) ↔
      ¬RunsOn limits data address decoder := by
  obtain ⟨-, hinstructions, hstart, hbytes, hlast, -⟩ :=
    analyze_ok hdecoder hreport
  obtain ⟨htiles, -, leaders, hsorted, hleaders, hblocks⟩ :=
    analyze_blocks hdecoder hreport
  have hend : decodedEnd limits data address decoder = report.last := by
    rw [decodedEnd, ← hinstructions, ← hbytes, hlast]
  rw [RunsOn, hend, ← hinstructions, ← hstart]
  constructor
  · rintro hleave ⟨run, first, stop, hjoins⟩
    obtain ⟨earlier, later, hsplit⟩ :=
      List.append_of_mem ((hleaders first).mpr hjoins.leads)
    have hnext := hjoins.nextOf_eq htiles hleaders hsorted hsplit
    obtain ⟨taken, hcut, hblock⟩ :=
      hblocks.found earlier first later hsplit hjoins.exists_first
    rw [hnext] at hcut hblock
    obtain ⟨hplain, hblockLast⟩ := hjoins.closes htiles hcut
    exact not_leavesFrom_closingEdge
      (hleave _ hblock _ (mem_outgoing.mpr (.inr ⟨hplain, hblockLast, rfl⟩)))
  · intro hnone block hblock edge hedge
    obtain ⟨earlier, leader, later, run, hsplit, hcut, rfl⟩ :=
      hblocks.sound block hblock
    rcases mem_outgoing.mp hedge with hedge | ⟨hplain, hblockLast, -⟩
    · exact leavesFrom_of_mem htiles hcut hedge
    · exact absurd ⟨run, leader, nextOf report.last later,
        joins_of_plain htiles hleaders hsorted hsplit hcut hplain hblockLast⟩
        hnone

theorem branchCode_edges :
    ∃ report, analyze {} branchCode 0x4000 X86Disassembler.decode =
        .ok report ∧
      ((∀ block ∈ report.blocks, ∀ edge ∈ block.outgoing,
          LeavesFrom report.instructions block edge) ↔
        ¬RunsOn {} branchCode 0x4000 X86Disassembler.decode) := by
  obtain ⟨report, hreport⟩ := branchCode_analyzed
  exact ⟨report, hreport, edges_leave_iff .x86 hreport⟩

/-- The instruction that is jumped over runs into the return behind it. -/
theorem branchCode_edge_leaves_behind :
    ∃ report, analyze {} branchCode 0x4000 X86Disassembler.decode =
        .ok report ∧
      ∃ block ∈ report.blocks, ∃ edge ∈ block.outgoing,
        ¬LeavesFrom report.instructions block edge := by
  have hany : (analyze {} branchCode 0x4000
      X86Disassembler.decode).toOption.any fun report =>
        ∃ block ∈ report.blocks, ∃ edge ∈ block.outgoing,
          ∀ instruction ∈ report.instructions,
            edge.source = instruction.address →
              block.last ≤ instruction.address := by
    decide +kernel
  obtain ⟨report, hreport, block, hblock, edge, hedge, hbehind⟩ :=
    exists_ok_of_any hany
  refine ⟨report, hreport, block, hblock, edge, hedge, ?_⟩
  rintro ⟨instruction, hmem, hsource, -, hlast, -⟩
  exact absurd hlast (not_lt.mpr (hbehind instruction hmem hsource))

end

end DisassemblyAnalyzer
end BinForge
