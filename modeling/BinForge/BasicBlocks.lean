import BinForge.Leaders

/-!
# Basic blocks

A block is a run of instructions that lie one behind the other.  It begins at a
leader, ends in front of the next leader or with the instruction that leaves
the straight line, and so no two blocks share an instruction.
-/

namespace BinForge

open StatefulExcept
open BinaryLoader
open Tiling

/-- The instruction leaves the straight line. -/
def Instruction.Ends (instruction : Instruction) : Prop :=
  instruction.branch = true ∨ instruction.terminal = true

instance (instruction : Instruction) : Decidable instruction.Ends :=
  inferInstanceAs (Decidable (_ ∨ _))

namespace DisassemblyAnalyzer

/-! ## Runs -/

/-- The instructions a block takes of those ahead, and the ones it leaves. -/
inductive Run (nextLeader : UInt64) :
    List Instruction → List Instruction → Prop
  | stop {rest} (hrest : ∀ next ∈ rest.head?, nextLeader ≤ next.address) :
      Run nextLeader [] rest
  | ends {instruction rest} (hbefore : instruction.address < nextLeader)
      (hends : instruction.Ends) : Run nextLeader [instruction] rest
  | next {instruction run rest} (hbefore : instruction.address < nextLeader)
      (hplain : ¬instruction.Ends) (hrun : Run nextLeader run rest) :
      Run nextLeader (instruction :: run) rest

variable {start last address nextLeader leader : UInt64}
  {instructions run rest : List Instruction} {instruction : Instruction}
  {block result : BasicBlockInfo}

theorem Run.before (hrun : Run nextLeader run rest)
    (hmem : instruction ∈ run) : instruction.address < nextLeader := by
  induction hrun with
  | stop hrest => contradiction
  | ends hbefore hends =>
      rw [List.mem_singleton.mp hmem]
      exact hbefore
  | next hbefore hplain hrun ih =>
      rcases List.mem_cons.mp hmem with rfl | hmem
      · exact hbefore
      · exact ih hmem

theorem Run.plain (hrun : Run nextLeader run rest)
    (hmem : instruction ∈ run.dropLast) : ¬instruction.Ends := by
  induction hrun with
  | stop hrest => contradiction
  | ends hbefore hends => contradiction
  | @next head run rest hbefore hplain hrun ih =>
      cases run with
      | nil => contradiction
      | cons second run =>
          rcases List.mem_cons.mp hmem with rfl | hmem
          · exact hplain
          · exact ih hmem

/-- A run without an end stops in front of the next leader. -/
theorem Run.stops (hrun : Run nextLeader run rest)
    (hplain : ∀ instruction ∈ run, ¬instruction.Ends) :
    ∀ next ∈ rest.head?, nextLeader ≤ next.address := by
  induction hrun with
  | stop hrest => exact hrest
  | ends hbefore hends =>
      exact absurd hends (hplain _ List.mem_cons_self)
  | next hbefore hhead hrun ih =>
      apply ih
      intro instruction hmem
      exact hplain instruction (List.mem_cons_of_mem _ hmem)

/-! ## The loop over the instructions -/

/-- The address behind an instruction that does not wrap. -/
def behind (instruction : Instruction) : UInt64 :=
  instruction.address + instruction.size.toUInt64

/-- The edges of the instructions of a block. -/
def edgesOf (run : List Instruction) : List ControlFlowEdge :=
  run.flatMap fun instruction =>
    instructionEdges instruction (behind instruction)

/-- The block with these instructions added to it. -/
def extended (block : BasicBlockInfo) (run : List Instruction) :
    BasicBlockInfo where
  first := block.first
  last := run.foldl (fun _ instruction => behind instruction) block.last
  instructionCount := block.instructionCount + UInt32.ofNat run.length
  complete := block.complete || run.any fun instruction => instruction.Ends
  outgoing := block.outgoing ++ edgesOf run

theorem extended_nil : extended block [] = block := by
  simp [extended, edgesOf]

theorem behind_eq {found : UInt64}
    (hbehind : Instruction.behind? instruction = some found) :
    found = behind instruction :=
  (checkedAdd_eq_some.mp hbehind).2

theorem blockLoop_run (hcomplete : block.complete = false)
    (hcount : block.instructionCount.toNat + instructions.length < 2 ^ 32)
    (hfirst : block.instructionCount = 0 →
      ∀ next ∈ instructions.head?, next.address < nextLeader)
    (hloop : blockLoop nextLeader instructions block = .ok result) :
    ∃ run rest, instructions = run ++ rest ∧ Run nextLeader run rest ∧
      result = extended block run := by
  induction instructions generalizing block with
  | nil =>
      cases hloop
      exact ⟨[], [], rfl, .stop nofun, extended_nil.symm⟩
  | cons instruction instructions ih =>
      rw [blockLoop] at hloop
      by_cases hstop : instruction.address ≥ nextLeader ∧
          block.instructionCount ≠ 0
      · rw [if_pos hstop] at hloop
        cases hloop
        refine ⟨[], _, rfl, .stop ?_, extended_nil.symm⟩
        intro next hnext
        cases hnext
        exact hstop.1
      · rw [if_neg hstop] at hloop
        obtain ⟨found, hfound, hloop⟩ := demand_except_bind_eq_ok.mp hloop
        rw [behind_eq hfound] at hloop
        dsimp only at hloop
        have hbefore : instruction.address < nextLeader := by
          by_cases hzero : block.instructionCount = 0
          · exact hfirst hzero instruction rfl
          · exact not_le.mp fun hge => hstop ⟨hge, hzero⟩
        split_ifs at hloop with hends
        · cases hloop
          replace hends : instruction.Ends := hends
          refine ⟨[instruction], instructions, rfl, .ends hbefore hends, ?_⟩
          simp [extended, edgesOf, hends]
        · replace hends : ¬instruction.Ends := hends
          rw [List.length_cons] at hcount
          have hmore : (block.instructionCount + 1).toNat =
              block.instructionCount.toNat + 1 := by
            rw [UInt32.toNat_add, UInt32.toNat_one, Nat.mod_eq_of_lt]
            omega
          obtain ⟨run, rest, rfl, hrun, rfl⟩ := ih (by exact hcomplete)
            (by simp only [hmore]; omega)
            (by
              intro hzero
              have hsame := congrArg UInt32.toNat hzero
              simp only [hmore] at hsame
              exact absurd hsame (Nat.succ_ne_zero _)) hloop
          refine ⟨instruction :: run, rest, rfl, .next hbefore hends hrun, ?_⟩
          simp [extended, edgesOf, hends, UInt32.ofNat_add, UInt32.add_assoc,
            UInt32.add_comm 1]

/-! ## The loop over the leaders -/

/-- The block from a leader to the next one. -/
def blockOf (leader nextLeader : UInt64) (run : List Instruction) :
    BasicBlockInfo :=
  closeBlock nextLeader (extended { first := leader } run)

/-- The instructions of a block inside the report. -/
structure CutAt (instructions : List Instruction) (leader nextLeader : UInt64)
    (run : List Instruction) : Prop where
  cut : ∃ before rest, instructions = before ++ (run ++ rest) ∧
    Run nextLeader run rest
  head : ∃ instruction, run.head? = some instruction ∧
    instruction.address = leader

/-- The leader behind another one, or the end of the report. -/
def nextOf (last : UInt64) (later : List UInt64) : UInt64 :=
  later.headD last

theorem foldl_behind {fallback : UInt64} (hrun : run ≠ []) :
    run.foldl (fun _ instruction => behind instruction) fallback =
      behind (run.getLast hrun) := by
  induction run generalizing fallback with
  | nil => contradiction
  | cons instruction run ih =>
      cases run with
      | nil => rfl
      | cons second run =>
          rw [List.foldl_cons, ih (List.cons_ne_nil _ _)]
          rfl

/-- The blocks of the leaders that are addresses of instructions, in the order
of the leaders. -/
structure BlocksOf (last : UInt64) (instructions : List Instruction)
    (leaders : List UInt64) (blocks : List BasicBlockInfo) : Prop where
  sound : ∀ block ∈ blocks, ∃ earlier leader later run,
    leaders = earlier ++ leader :: later ∧
      CutAt instructions leader (nextOf last later) run ∧
      block = blockOf leader (nextOf last later) run
  found : ∀ earlier leader later, leaders = earlier ++ leader :: later →
    (∃ instruction ∈ instructions, instruction.address = leader) →
      ∃ run, CutAt instructions leader (nextOf last later) run ∧
        blockOf leader (nextOf last later) run ∈ blocks
  ordered : (blocks.map BasicBlockInfo.first).Sublist leaders

theorem blockOf_first : (blockOf leader nextLeader run).first = leader := by
  unfold blockOf closeBlock
  split_ifs <;> rfl

theorem BlocksOf.sound_cons {leaders : List UInt64}
    {blocks : List BasicBlockInfo}
    (hrest : BlocksOf last instructions leaders blocks)
    (hmem : block ∈ blocks) : ∃ earlier other later run,
      leader :: leaders = earlier ++ other :: later ∧
        CutAt instructions other (nextOf last later) run ∧
        block = blockOf other (nextOf last later) run := by
  obtain ⟨earlier, other, later, run, rfl, hcut, hblock⟩ :=
    hrest.sound block hmem
  exact ⟨leader :: earlier, other, later, run, rfl, hcut, hblock⟩

/-- A leader at no instruction has no block. -/
theorem BlocksOf.skip {leaders : List UInt64} {blocks : List BasicBlockInfo}
    (hrest : BlocksOf last instructions leaders blocks)
    (habsent : ∀ instruction ∈ instructions, instruction.address ≠ leader) :
    BlocksOf last instructions (leader :: leaders) blocks where
  sound := by
    intro block hmem
    exact hrest.sound_cons hmem
  found := by
    intro earlier other later hsplit hother
    cases earlier with
    | nil =>
        cases hsplit
        obtain ⟨instruction, hmem, haddress⟩ := hother
        exact absurd haddress (habsent instruction hmem)
    | cons head earlier =>
        cases hsplit
        exact hrest.found earlier other later rfl hother
  ordered := hrest.ordered.cons leader

theorem BlocksOf.take {leaders : List UInt64} {blocks : List BasicBlockInfo}
    (hrest : BlocksOf last instructions leaders blocks)
    (hcut : CutAt instructions leader (nextOf last leaders) run) :
    BlocksOf last instructions (leader :: leaders)
      (blockOf leader (nextOf last leaders) run :: blocks) where
  sound := by
    intro block hmem
    rcases List.mem_cons.mp hmem with rfl | hmem
    · exact ⟨[], leader, leaders, run, rfl, hcut, rfl⟩
    · exact hrest.sound_cons hmem
  found := by
    intro earlier other later hsplit hother
    cases earlier with
    | nil =>
        cases hsplit
        exact ⟨run, hcut, List.mem_cons_self⟩
    | cons head earlier =>
        cases hsplit
        obtain ⟨run, hcut, hmem⟩ := hrest.found earlier other later rfl hother
        exact ⟨run, hcut, List.mem_cons_of_mem _ hmem⟩
  ordered := by
    rw [List.map_cons, blockOf_first]
    exact hrest.ordered.cons_cons leader

section

variable {instructionAt : OrderedMap UInt64 ℕ} {leaders : List UInt64}
  {blocks : List BasicBlockInfo}
  (hplaces : ∀ {address : UInt64} {index : ℕ},
    instructionAt.find? address = some index ↔
      ∃ instruction, instructions[index]? = some instruction ∧
        instruction.address = address)
  (hcount : instructions.length < 2 ^ 32)
include hplaces hcount

theorem blockLoop_cutAt {index : ℕ}
    (hfind : instructionAt.find? leader = some index)
    (hnext : leader < nextLeader)
    (hloop : blockLoop nextLeader (instructions.drop index)
      { first := leader } = .ok block) :
    ∃ run, CutAt instructions leader nextLeader run ∧
      closeBlock nextLeader block = blockOf leader nextLeader run := by
  obtain ⟨instruction, hinstruction, haddress⟩ := hplaces.mp hfind
  have hhead : (instructions.drop index).head? = some instruction := by
    rw [List.head?_drop]
    exact hinstruction
  have hshort : (instructions.drop index).length < 2 ^ 32 := by
    rw [List.length_drop]
    omega
  have hfirst : ∀ next ∈ (instructions.drop index).head?,
      next.address < nextLeader := by
    intro next hmem
    rw [hhead] at hmem
    cases hmem
    rw [haddress]
    exact hnext
  obtain ⟨run, rest, hsplit, hrun, rfl⟩ :=
    blockLoop_run rfl (by simpa using hshort) (fun _ => hfirst) hloop
  refine ⟨run, ⟨⟨instructions.take index, rest, ?_, hrun⟩, instruction, ?_,
    haddress⟩, rfl⟩
  · rw [← hsplit, List.take_append_drop]
  · -- The run is not empty: its leader lies in front of the next one.
    cases run with
    | nil =>
        rw [List.nil_append] at hsplit
        rw [hsplit] at hhead
        have hpast := hrun.stops nofun instruction hhead
        rw [haddress] at hpast
        exact absurd hpast (not_le.mpr hnext)
    | cons first run =>
        rw [hsplit] at hhead
        exact hhead

theorem blocksFrom_ok
    (hinside : ∀ instruction ∈ instructions, instruction.address < last)
    (hsorted : leaders.Pairwise (· < ·))
    (hblocks : blocksFrom last instructions instructionAt leaders =
      .ok blocks) : BlocksOf last instructions leaders blocks := by
  induction leaders generalizing blocks with
  | nil =>
      cases hblocks
      refine ⟨nofun, ?_, List.Sublist.slnil⟩
      intro earlier leader later hsplit
      simp at hsplit
  | cons leader leaders ih =>
      obtain ⟨hleast, hsorted⟩ := List.pairwise_cons.mp hsorted
      rw [blocksFrom] at hblocks
      cases hfind : instructionAt.find? leader with
      | none =>
          rw [hfind] at hblocks
          apply (ih hsorted hblocks).skip
          intro instruction hmem haddress
          obtain ⟨index, hindex⟩ := List.getElem?_of_mem hmem
          rw [hplaces.mpr ⟨instruction, hindex, haddress⟩] at hfind
          contradiction
      | some index =>
          rw [hfind] at hblocks
          obtain ⟨block, hloop, hblocks⟩ := except_bind_eq_ok.mp hblocks
          obtain ⟨more, hmore, hblocks⟩ := except_bind_eq_ok.mp hblocks
          cases hblocks
          have hnext : leader < nextOf last leaders := by
            cases leaders with
            | nil =>
                obtain ⟨instruction, hinstruction, rfl⟩ := hplaces.mp hfind
                exact hinside instruction (List.mem_of_getElem? hinstruction)
            | cons second leaders => exact hleast second List.mem_cons_self
          obtain ⟨run, hcut, hclosed⟩ :=
            blockLoop_cutAt hplaces hcount hfind hnext hloop
          have hblock : closeBlock (leaders.headD last) block =
              blockOf leader (nextOf last leaders) run := hclosed
          rw [hblock]
          exact (ih hsorted hmore).take hcut

end

/-! ## The blocks of a report -/

/-- The block is a run of instructions none of which leaves the straight line
but the last. -/
def StraightLine (instructions : List Instruction) (block : BasicBlockInfo) :
    Prop :=
  ∃ before run rest, instructions = before ++ (run ++ rest) ∧
    run.length = block.instructionCount.toNat ∧ 1 ≤ run.length ∧
    InstructionsTile block.first.toNat run block.last.toNat ∧
    ∀ instruction ∈ run.dropLast, ¬instruction.Ends

theorem blockOf_last (hrun : run ≠ []) :
    (blockOf leader nextLeader run).last = behind (run.getLast hrun) := by
  have hlast : (extended { first := leader } run).last =
      behind (run.getLast hrun) := foldl_behind hrun
  unfold blockOf closeBlock
  split_ifs
  · exact hlast
  · exact hlast

section

variable (htiles : InstructionsTile start.toNat instructions last.toNat)
include htiles

theorem toNat_behind_of_mem (hmem : instruction ∈ instructions) :
    (behind instruction).toNat =
      instruction.address.toNat + instruction.size.toNat := by
  obtain ⟨found, hfound, -, -⟩ := behind_of_tile htiles hmem
  rw [← behind_eq hfound]
  exact toNat_behind hfound

/-- A block covers the range from its leader to the end of its last
instruction, and what it leaves lies behind. -/
theorem CutAt.tiles (hcut : CutAt instructions leader nextLeader run) :
    ∃ before rest, instructions = before ++ (run ++ rest) ∧
      Run nextLeader run rest ∧
      InstructionsTile start.toNat before leader.toNat ∧
      InstructionsTile leader.toNat run
        (blockOf leader nextLeader run).last.toNat ∧
      InstructionsTile (blockOf leader nextLeader run).last.toNat rest
        last.toNat := by
  obtain ⟨⟨before, rest, rfl, hrun⟩, first, hhead, hfirst⟩ := hcut
  have hnonempty : run ≠ [] := by
    intro hnil
    rw [hnil] at hhead
    contradiction
  have hmem : run.getLast hnonempty ∈ before ++ (run ++ rest) :=
    List.mem_append_right _
      (List.mem_append_left _ (List.getLast_mem hnonempty))
  have hlast := toNat_behind_of_mem htiles hmem
  obtain ⟨middle, hbefore, hbehind⟩ := Tiles.append_iff.mp htiles
  obtain ⟨stop, hruns, hrest⟩ := Tiles.append_iff.mp hbehind
  have hfrom : leader.toNat = middle := by
    cases run with
    | nil => contradiction
    | cons head run =>
        cases hhead
        rw [← hfirst]
        exact hruns.first_head
  have hto : (blockOf leader nextLeader run).last.toNat = stop := by
    rw [blockOf_last hnonempty, hlast]
    exact (hruns.stop_eq_getLast hnonempty).symm
  rw [hfrom, hto]
  exact ⟨before, rest, rfl, hrun, hbefore, hruns, hrest⟩

/-- An instruction from the next leader on lies behind the block. -/
theorem CutAt.last_le (hcut : CutAt instructions leader nextLeader run)
    (hnext : leader ≤ nextLeader) (hmem : instruction ∈ instructions)
    (hpast : nextLeader ≤ instruction.address) :
    (blockOf leader nextLeader run).last ≤ instruction.address := by
  obtain ⟨before, rest, rfl, hrun, hbefore, -, hrest⟩ := hcut.tiles htiles
  rw [UInt64.le_iff_toNat_le] at hnext hpast ⊢
  rcases List.mem_append.mp hmem with hmem | hmem
  · have hwithin := hbefore.within hmem
    omega
  · rcases List.mem_append.mp hmem with hmem | hmem
    · have hearlier := hrun.before hmem
      rw [UInt64.lt_iff_toNat_lt] at hearlier
      omega
    · exact (hrest.within hmem).1

theorem CutAt.straightLine
    (hcount : instructions.length < 2 ^ 32)
    (hcut : CutAt instructions leader nextLeader run) :
    StraightLine instructions (blockOf leader nextLeader run) := by
  obtain ⟨before, rest, hsplit, hrun, -, hruns, -⟩ := hcut.tiles htiles
  obtain ⟨-, head, hhead, -⟩ := hcut
  have hlength : run.length < 2 ^ 32 := by
    rw [hsplit, List.length_append, List.length_append] at hcount
    omega
  have hcounted : (blockOf leader nextLeader run).instructionCount.toNat =
      run.length := by
    have hextended :
        (extended { first := leader } run).instructionCount.toNat =
          run.length := by
      simp only [extended, UInt32.zero_add]
      rw [UInt32.toNat_ofNat', Nat.mod_eq_of_lt hlength]
    unfold blockOf closeBlock
    split_ifs
    · exact hextended
    · exact hextended
  refine ⟨before, run, rest, hsplit, hcounted.symm, ?_, ?_, ?_⟩
  · exact List.length_pos_of_mem (List.mem_of_mem_head? hhead)
  · rw [blockOf_first]
    exact hruns
  · intro instruction hmem
    exact hrun.plain hmem

end

/-! ## Disjointness -/

variable {limits : Limits} {decoder : Disassembler} {data : Bytes}
  {report : DisassemblyReport}

/-- The instructions and the blocks of a report. -/
theorem analyze_blocks (hdecoder : BuiltIn decoder)
    (hreport : analyze limits data address decoder = .ok report) :
    InstructionsTile report.start.toNat report.instructions
        report.last.toNat ∧
      report.instructions.length < 2 ^ 32 ∧
      ∃ leaders : List UInt64, leaders.Pairwise (· < ·) ∧
        (∀ leader, leader ∈ leaders ↔
          Leads report.start report.last report.instructions leader) ∧
        BlocksOf report.last report.instructions leaders report.blocks := by
  obtain ⟨-, hinstructions, hstart, -, -, hblocks⟩ :=
    analyze_ok hdecoder hreport
  have htiles := (analyze_tilesInput hdecoder hreport).contiguous
  have hcount : report.instructions.length < 2 ^ 32 := by
    have hle := length_linearSweep_le decoder
      limits.maxDisassemblyInstructions.toNat data address
    have hlimit := limits.maxDisassemblyInstructions.toNat_lt
    rw [← decodedBy, ← hinstructions] at hle
    omega
  rw [← hstart] at hblocks
  have hsorted : (keysOf (marksOf report.start report.last
      report.instructions).leaders).Pairwise (· < ·) :=
    List.pairwise_map.mpr (OrderedMap.sorted _)
  have hinside : ∀ instruction ∈ report.instructions,
      instruction.address < report.last := by
    intro instruction hmem
    have hwithin := htiles.within hmem
    rw [UInt64.lt_iff_toNat_lt]
    omega
  exact ⟨htiles, hcount, _, hsorted, fun leader => mem_leaders htiles,
    blocksFrom_ok (marksOf_find? htiles) hcount hinside hsorted hblocks⟩

/-- A later leader is no earlier than the next one. -/
theorem nextOf_le (last : UInt64) {earlier later : List UInt64}
    (hsorted : (earlier ++ leader :: later).Pairwise (· < ·))
    (hmem : address ∈ earlier ++ leader :: later) (hlater : leader < address) :
    leader < nextOf last later ∧ nextOf last later ≤ address := by
  obtain ⟨-, hbehind, hbefore⟩ := List.pairwise_append.mp hsorted
  obtain ⟨hleast, hsorted⟩ := List.pairwise_cons.mp hbehind
  have hin : address ∈ later := by
    rcases List.mem_append.mp hmem with hmem | hmem
    · exact absurd (hbefore address hmem leader List.mem_cons_self)
        hlater.asymm
    · rcases List.mem_cons.mp hmem with rfl | hmem
      · exact absurd hlater (lt_irrefl address)
      · exact hmem
  cases later with
  | nil => contradiction
  | cons next later =>
      refine ⟨hleast next List.mem_cons_self, ?_⟩
      rcases List.mem_cons.mp hin with rfl | hin
      · exact le_rfl
      · exact ((List.pairwise_cons.mp hsorted).1 address hin).le

/-- A block ends before a later one begins. -/
theorem BlocksOf.last_le_first {leaders : List UInt64}
    {blocks : List BasicBlockInfo} {other : BasicBlockInfo}
    (hblocks : BlocksOf last instructions leaders blocks)
    (htiles : InstructionsTile start.toNat instructions last.toNat)
    (hsorted : leaders.Pairwise (· < ·)) (hblock : block ∈ blocks)
    (hother : other ∈ blocks) (hlater : block.first < other.first) :
    block.last ≤ other.first := by
  have hmem : other.first ∈ leaders :=
    hblocks.ordered.subset (List.mem_map_of_mem hother)
  obtain ⟨_, otherLeader, _, otherRun, -, hotherCut, hotherBlock⟩ :=
    hblocks.sound other hother
  obtain ⟨earlier, leader, later, run, rfl, hcut, hthisBlock⟩ :=
    hblocks.sound block hblock
  rw [hthisBlock, hotherBlock, blockOf_first, blockOf_first] at hlater
  rw [hotherBlock, blockOf_first] at hmem ⊢
  rw [hthisBlock]
  obtain ⟨hnext, hle⟩ := nextOf_le last hsorted hmem hlater
  obtain ⟨⟨before, rest, hsplit, -⟩, head, hhead, rfl⟩ := hotherCut
  have hhead : head ∈ instructions := by
    rw [hsplit]
    exact List.mem_append_right _
      (List.mem_append_left _ (List.mem_of_mem_head? hhead))
  exact hcut.last_le htiles hnext.le hhead hle

/-- Basic blocks are disjoint straight lines. -/
theorem blocks_straight (hdecoder : BuiltIn decoder)
    (hreport : analyze limits data address decoder = .ok report) :
    (∀ block ∈ report.blocks, StraightLine report.instructions block) ∧
      (∀ block ∈ report.blocks, ∀ other ∈ report.blocks,
        ¬(block.first < other.first ∧ other.first < block.last)) ∧
      report.blocks.Pairwise fun block other => block.last ≤ other.first := by
  obtain ⟨htiles, hcount, leaders, hsorted, -, hblocks⟩ :=
    analyze_blocks hdecoder hreport
  refine ⟨?_, ?_, ?_⟩
  · intro block hblock
    obtain ⟨_, leader, _, run, -, hcut, hthisBlock⟩ :=
      hblocks.sound block hblock
    rw [hthisBlock]
    exact hcut.straightLine htiles hcount
  · intro block hblock other hother ⟨hlater, hinside⟩
    have hle := hblocks.last_le_first htiles hsorted hblock hother hlater
    exact absurd hinside (not_lt.mpr hle)
  · have hfirsts : report.blocks.Pairwise fun block other =>
        block.first < other.first :=
      List.pairwise_map.mp (hsorted.sublist hblocks.ordered)
    apply hfirsts.imp_of_mem
    intro block other hblock hother hlater
    exact hblocks.last_le_first htiles hsorted hblock hother hlater

theorem branchCode_straight :
    ∃ report, analyze {} branchCode 0x4000 X86Disassembler.decode =
        .ok report ∧
      (∀ block ∈ report.blocks, StraightLine report.instructions block) ∧
      (∀ block ∈ report.blocks, ∀ other ∈ report.blocks,
        ¬(block.first < other.first ∧ other.first < block.last)) ∧
      report.blocks.Pairwise fun block other => block.last ≤ other.first := by
  obtain ⟨report, hreport⟩ := branchCode_analyzed
  exact ⟨report, hreport, blocks_straight .x86 hreport⟩

end DisassemblyAnalyzer
end BinForge
