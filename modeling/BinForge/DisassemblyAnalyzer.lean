import BinForge.Disassembler
import BinForge.OrderedMap

/-!
# Linear sweep and basic blocks

`DisassemblyAnalyzer` decodes one instruction behind the other.  It then
collects the leaders: the start, the targets inside the decoded range and the
addresses behind branches that may fall through.  From every leader that is the
address of an instruction a block runs to the next leader, or to an instruction
that branches or ends the flow.
-/

namespace BinForge

open StatefulExcept
open BinaryLoader

structure ControlFlowEdge where
  source : UInt64 := 0
  target : UInt64 := 0
  conditional : Bool := false
  call : Bool := false
  fallthrough : Bool := false
  deriving DecidableEq, Repr

/-- `begin` and `end` of the source are `first` and `last`. -/
structure BasicBlockInfo where
  first : UInt64 := 0
  last : UInt64 := 0
  instructionCount : UInt32 := 0
  complete : Bool := false
  outgoing : List ControlFlowEdge := []
  deriving DecidableEq, Repr

/-- `end` of the source is `last`. -/
structure DisassemblyReport where
  start : UInt64 := 0
  last : UInt64 := 0
  bytesDecoded : UInt64 := 0
  instructions : List Instruction := []
  blocks : List BasicBlockInfo := []
  warnings : List Bytes := []
  deriving DecidableEq, Repr

namespace DisassemblyAnalyzer

/-! ## The sweep -/

structure Sweep where
  offset : ℕ := 0
  instructions : List Instruction := []
  warnings : List Bytes := []
  deriving DecidableEq, Repr

def stopWarning (address : UInt64) (why : Failure) : Bytes :=
  ascii "decode stopped at " ++ decimal address.toNat ++ ascii ": " ++
    (why.errorAfter {}).message

/-- The loop with this many rounds left; every round takes a byte. -/
def sweepLoop (limits : Limits) (data : Bytes) (address : UInt64)
    (decoder : Disassembler) : ℕ → Sweep → Except Failure Sweep
  | 0, sweep => .ok sweep
  | rounds + 1, sweep =>
      if sweep.offset < data.length ∧
          sweep.instructions.length < limits.maxDisassemblyInstructions.toNat
      then do
        let instructionAddress ← demand
          (checkedAdd address (UInt64.ofNat sweep.offset))
          (failure .addressOverflow address "instruction address overflows")
        match decoder (data.drop sweep.offset) instructionAddress with
        | .error why =>
            .ok { sweep with
              warnings := sweep.warnings ++
                [stopWarning instructionAddress why] }
        | .ok instruction => do
            rejectIf (instruction.size = 0 ∨
                instruction.size.toNat > data.length - sweep.offset ∨
                instruction.size > 16)
              (failure .invalidOffset instructionAddress
                "decoder returned an invalid instruction length")
            sweepLoop limits data address decoder rounds
              { sweep with
                offset := sweep.offset + instruction.size.toNat
                instructions := sweep.instructions ++ [instruction] }
      else .ok sweep

def limitWarnings (limits : Limits) (data : Bytes) (sweep : Sweep) :
    List Bytes :=
  if sweep.instructions.length ≥ limits.maxDisassemblyInstructions.toNat ∧
      sweep.offset < data.length then
    [ascii "instruction limit reached"]
  else []

/-! ## The leaders -/

structure Marks where
  leaders : OrderedMap UInt64 Unit
  instructionAt : OrderedMap UInt64 ℕ

/-- The address behind an instruction. -/
def Instruction.behind? (instruction : Instruction) : Option UInt64 :=
  checkedAdd instruction.address instruction.size.toUInt64

def insertLeader (leaders : OrderedMap UInt64 Unit) (address : UInt64) :
    OrderedMap UInt64 Unit :=
  leaders.emplace address ()

/-- The target of an instruction, when it is one of the instructions seen. -/
def noteSeenTarget (instructionAt : OrderedMap UInt64 ℕ)
    (leaders : OrderedMap UInt64 Unit) (instruction : Instruction) :
    OrderedMap UInt64 Unit :=
  match instruction.target with
  | some target =>
      if instructionAt.contains target then insertLeader leaders target
      else leaders
  | none => leaders

def noteFallthrough (leaders : OrderedMap UInt64 Unit)
    (instruction : Instruction) (fallthrough : UInt64) :
    OrderedMap UInt64 Unit :=
  if instruction.branch ∧ ¬instruction.terminal then
    insertLeader leaders fallthrough
  else leaders

/-- The body of the first loop over the instructions. -/
def noteInstruction (marks : Marks) (entry : Instruction × ℕ) : Marks :=
  let (instruction, index) := entry
  let instructionAt := marks.instructionAt.assign instruction.address index
  -- Nothing is noted of an instruction that ends behind the last address.
  let leaders := (Instruction.behind? instruction).elim marks.leaders
    (noteFallthrough (noteSeenTarget instructionAt marks.leaders instruction)
      instruction)
  { leaders, instructionAt }

/-- The body of the second. -/
def noteTarget (start last : UInt64) (leaders : OrderedMap UInt64 Unit)
    (instruction : Instruction) : OrderedMap UInt64 Unit :=
  match instruction.target with
  | some target =>
      if target ≥ start ∧ target < last then insertLeader leaders target
      else leaders
  | none => leaders

def marksOf (start last : UInt64) (instructions : List Instruction) : Marks :=
  let marks := instructions.zipIdx.foldl noteInstruction
    { leaders := insertLeader OrderedMap.empty start
      instructionAt := OrderedMap.empty }
  { marks with
    leaders := instructions.foldl (noteTarget start last) marks.leaders }

/-! ## The blocks -/

/-- The edges an instruction of a block adds, given the block's end. -/
def instructionEdges (instruction : Instruction) (last : UInt64) :
    List ControlFlowEdge :=
  (match instruction.target with
    | some target =>
        [{ source := instruction.address, target
           conditional := instruction.branch && !instruction.terminal &&
             !instruction.call
           call := instruction.call }]
    | none => []) ++
  if (instruction.branch ∨ instruction.terminal) ∧
      (¬instruction.terminal ∧ ¬instruction.call ∨ instruction.call) then
    [{ source := instruction.address, target := last, fallthrough := true }]
  else []

/-- The loop over the instructions from the leader on. -/
def blockLoop (nextLeader : UInt64) :
    List Instruction → BasicBlockInfo → Except Failure BasicBlockInfo
  | [], block => .ok block
  | instruction :: rest, block =>
      if instruction.address ≥ nextLeader ∧ block.instructionCount ≠ 0 then
        .ok block
      else do
        let last ← demand (Instruction.behind? instruction)
          (failure .addressOverflow instruction.address
            "basic-block end overflows")
        let block := { block with
          last
          instructionCount := block.instructionCount + 1
          outgoing := block.outgoing ++ instructionEdges instruction last }
        if instruction.branch ∨ instruction.terminal then
          .ok { block with complete := true }
        else blockLoop nextLeader rest block

/-- The edge into the next leader. -/
def closeBlock (nextLeader : UInt64) (block : BasicBlockInfo) :
    BasicBlockInfo :=
  if block.complete = false ∧ block.last = nextLeader then
    { block with
      outgoing := block.outgoing ++
        [{ source := block.last, target := nextLeader, fallthrough := true }] }
  else block

/-- The loop over the leaders in order. -/
def blocksFrom (last : UInt64) (instructions : List Instruction)
    (instructionAt : OrderedMap UInt64 ℕ) :
    List UInt64 → Except Failure (List BasicBlockInfo)
  | [] => .ok []
  | leader :: leaders =>
      match instructionAt.find? leader with
      | none => blocksFrom last instructions instructionAt leaders
      | some index => do
          let nextLeader := leaders.headD last
          let block ← blockLoop nextLeader (instructions.drop index)
            { first := leader }
          let blocks ← blocksFrom last instructions instructionAt leaders
          return closeBlock nextLeader block :: blocks

def analyze (limits : Limits) (data : Bytes) (address : UInt64)
    (decoder : Disassembler) : Except Failure DisassemblyReport := do
  let sweep ← sweepLoop limits data address decoder data.length {}
  let bytesDecoded := UInt64.ofNat sweep.offset
  let last ← demand (checkedAdd address bytesDecoded)
    (failure .addressOverflow address "disassembly end address overflows")
  let marks := marksOf address last sweep.instructions
  let blocks ← blocksFrom last sweep.instructions marks.instructionAt
    (marks.leaders.entries.map Prod.fst)
  return { start := address, last, bytesDecoded
           instructions := sweep.instructions, blocks
           warnings := sweep.warnings ++ limitWarnings limits data sweep }

end DisassemblyAnalyzer
end BinForge
