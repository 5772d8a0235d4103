import BinForge.LineInstructions

/-!
# The rows of a line program

The loop carries out the instructions that its bytes spell, one after the
other, until it runs out of them, until one of them fails, or until the table
of rows is full.  The call succeeds when every instruction has been carried out
and the table still has room.
-/

namespace BinForge

open StatefulExcept
open StreamCodec
open InstructionStream
open ByteReader

namespace DebugInfoParser

/-- The instructions that these bytes spell. -/
def lineInstructions (order : ByteOrder) (opcodeBase addressSize : UInt8)
    (bytes : Bytes) : Program LineInstruction :=
  readProgram remaining (readInstruction opcodeBase addressSize) bytes.length
    { data := bytes, order }

/-- The rows behind these instructions, and whether the loop ends without an
error; `whole` tells whether the bytes behind them are a further one. -/
def runInstructions (header : LineHeader) (limit : ℕ) (whole : Bool) :
    LineRegisters → List DebugLineRow → List LineInstruction →
      List DebugLineRow × Bool
  | _, lines, [] => (lines, whole || decide (limit ≤ lines.length))
  | registers, lines, instruction :: rest =>
      if lines.length < limit then
        match execute header registers instruction with
        | none => (lines, false)
        | some (after, rows) =>
            runInstructions header limit whole after (lines ++ rows) rest
      else (lines, true)

/-- The rows of a program all of whose instructions can be carried out. -/
def executeAll (header : LineHeader) :
    LineRegisters → List LineInstruction → Option (List DebugLineRow)
  | _, [] => some []
  | registers, instruction :: rest => do
      let (after, rows) ← execute header registers instruction
      let more ← executeAll header after rest
      return rows ++ more

/-! ## Instructions and bytes -/

section Instructions

variable {order : ByteOrder} {opcodeBase addressSize : UInt8}
variable {front back bytes : Bytes}

theorem lineInstructions_eq {rounds : ℕ} {reader : ByteReader}
    (hsize : addressSize = 4 ∨ addressSize = 8)
    (hahead : AheadIn order reader bytes) (hrounds : bytes.length ≤ rounds) :
    readProgram remaining (readInstruction opcodeBase addressSize) rounds
      reader = lineInstructions order opcodeBase addressSize bytes := by
  have hlength := hahead.length
  have hsmall := hahead.addressable
  apply (readInstruction_readable order opcodeBase hsize).readProgram_congr
    hahead (aheadIn_start order _) hrounds (Nat.le_refl _)
  omega

/-- Behind whole instructions the bytes are read as if they stood alone. -/
theorem lineInstructions_append (hsize : addressSize = 4 ∨ addressSize = 8)
    (hwhole : (lineInstructions order opcodeBase addressSize front).whole = true)
    (hsmall : (front ++ back).length < 2 ^ 64) :
    lineInstructions order opcodeBase addressSize (front ++ back) =
      (lineInstructions order opcodeBase addressSize back).after
        (lineInstructions order opcodeBase addressSize front).instructions := by
  have hlengths : (front ++ back).length = front.length + back.length :=
    List.length_append
  have hfront : front.length < 2 ^ 64 := by omega
  have hback : back.length < 2 ^ 64 := by omega
  exact (readInstruction_readable order opcodeBase hsize).readProgram_append
    (aheadIn_start order hfront) hwhole (aheadIn_start order hsmall)
    (aheadIn_start order hback) (Nat.le_refl _) (Nat.le_refl _)

/-- One instruction in front. -/
theorem lineInstructions_cons {instruction : LineInstruction}
    (hsize : addressSize = 4 ∨ addressSize = 8) (hfront : front ≠ [])
    (hconsumes : Consumes (AheadIn order) 0
      (readInstruction opcodeBase addressSize) front instruction)
    (hsmall : (front ++ back).length < 2 ^ 64) :
    lineInstructions order opcodeBase addressSize (front ++ back) =
      (lineInstructions order opcodeBase addressSize back).after
        [instruction] := by
  have hlengths : (front ++ back).length = front.length + back.length :=
    List.length_append
  have hback : back.length < 2 ^ 64 := by omega
  exact (readInstruction_readable order opcodeBase hsize).readProgram_cons
    hfront hconsumes (aheadIn_start order hsmall) (aheadIn_start order hback)
    (Nat.le_refl _) (Nat.le_refl _)

end Instructions

/-! ## The loop -/

section Loop

variable {limits : Limits} {header : LineHeader} {addressSize : UInt8}
variable {order : ByteOrder}

/-- A full table ends the run without an error. -/
theorem runInstructions_full {limit : ℕ} {whole : Bool}
    {registers : LineRegisters} {lines : List DebugLineRow}
    (instructions : List LineInstruction) (hfull : limit ≤ lines.length) :
    runInstructions header limit whole registers lines instructions =
      (lines, true) := by
  cases instructions with
  | nil => simp [runInstructions, hfull]
  | cons instruction rest => rw [runInstructions, if_neg (not_lt.mpr hfull)]

/-- The loop leaves these rows and ends in this way. -/
def EndsWith (result : EStateM.Result Failure LineState Unit)
    (unit : DebugUnit) (outcome : List DebugLineRow × Bool) : Prop :=
  succeeded result = outcome.2 ∧
    (finalState result).unit = { unit with lines := outcome.1 }

theorem endsWith_ok {state : LineState} :
    EndsWith (.ok () state) state.unit (state.unit.lines, true) := ⟨rfl, rfl⟩

theorem endsWith_error {why : Failure} {last state : LineState}
    (hunit : last.unit = state.unit) :
    EndsWith (.error why last) state.unit (state.unit.lines, false) :=
  ⟨rfl, hunit⟩

theorem lineLoop_full {rounds : ℕ} {registers : LineRegisters}
    {state : LineState}
    (hfull : ¬(state.reader.remaining ≠ 0 ∧
      state.unit.lines.length < limits.maxLineRows.toNat)) :
    lineLoop limits header addressSize rounds registers state =
      .ok () state := by
  cases rounds with
  | zero => rfl
  | succ rounds =>
      rw [lineLoop, bind_of_ok (get_apply state), if_neg hfull, pure_apply]

theorem lineLoop_readProgram {rounds : ℕ} {registers : LineRegisters}
    {state : LineState} {bytes : Bytes}
    (hsize : addressSize = 4 ∨ addressSize = 8)
    (hahead : AheadIn order state.reader bytes)
    (hrounds : bytes.length ≤ rounds) :
    EndsWith (lineLoop limits header addressSize rounds registers state)
      state.unit
      (runInstructions header limits.maxLineRows.toNat
        (readProgram remaining (readInstruction header.opcodeBase addressSize)
          rounds state.reader).whole registers state.unit.lines
        (readProgram remaining (readInstruction header.opcodeBase addressSize)
          rounds state.reader).instructions) := by
  have hread := readInstruction_readable order header.opcodeBase hsize
  have hremaining := hahead.remaining
  induction rounds generalizing registers state bytes with
  | zero =>
      have hdone : state.reader.remaining = 0 := by omega
      rw [readProgram_done hdone, lineLoop_full (fun hmore => hmore.1 hdone)]
      exact endsWith_ok
  | succ rounds ih =>
      by_cases hdone : state.reader.remaining = 0
      · rw [readProgram_done hdone, lineLoop_full (fun hmore => hmore.1 hdone)]
        exact endsWith_ok
      by_cases hroom : state.unit.lines.length < limits.maxLineRows.toNat
      · have hround : CarriesOut header registers
            (lineRound header addressSize registers)
            (readInstruction header.opcodeBase addressSize) state :=
          lineRound_carriesOut hahead
        rw [lineLoop, bind_of_ok (get_apply state), if_pos ⟨hdone, hroom⟩,
          readProgram, if_neg hdone]
        cases hinstruction : readInstruction header.opcodeBase addressSize
            state.reader with
        | error why next =>
            obtain ⟨why', last, hcall, hunit⟩ := hround.failed
              fun instruction next hok => by
                rw [hinstruction] at hok
                contradiction
            rw [bind_apply, hcall]
            have hempty : runInstructions header limits.maxLineRows.toNat false
                registers state.unit.lines [] = (state.unit.lines, false) := by
              simp [runInstructions, hroom]
            rw [hempty]
            exact endsWith_error hunit
        | ok instruction next =>
            dsimp only [Program.after, List.singleton_append]
            rw [runInstructions, if_pos hroom]
            cases hexecute : execute header registers instruction with
            | none =>
                obtain ⟨why', last, hcall, hunit⟩ := hround.failed
                  fun found next' hok => by
                    rw [hinstruction, EStateM.Result.ok.injEq] at hok
                    rw [← hok.1, hexecute]
                rw [bind_apply, hcall]
                exact endsWith_error hunit
            | some found =>
                obtain ⟨after, rows⟩ := found
                obtain ⟨taken, tail, rfl, hnext, hleast, _⟩ :=
                  hread.portable state.reader bytes _ _ hahead hinstruction
                rw [List.length_append] at hrounds
                rw [bind_of_ok (hround.done _ _ _ _ hinstruction hexecute)]
                exact ih hnext (by omega) hnext.remaining
      · rw [lineLoop_full (fun hmore => hroom hmore.2),
          runInstructions_full _ (not_lt.mp hroom)]
        exact endsWith_ok

/-- The rows are a function of the bytes ahead. -/
theorem lineLoop_endsWith {rounds : ℕ} {registers : LineRegisters}
    {state : LineState} {bytes : Bytes}
    (hsize : addressSize = 4 ∨ addressSize = 8)
    (hahead : AheadIn order state.reader bytes)
    (hrounds : bytes.length ≤ rounds) :
    EndsWith (lineLoop limits header addressSize rounds registers state)
      state.unit
      (runInstructions header limits.maxLineRows.toNat
        (lineInstructions order header.opcodeBase addressSize bytes).whole
        registers state.unit.lines
        (lineInstructions order header.opcodeBase addressSize
          bytes).instructions) := by
  rw [← lineInstructions_eq hsize hahead hrounds]
  exact lineLoop_readProgram hsize hahead hrounds

theorem executeAll_cons {registers : LineRegisters}
    {instruction : LineInstruction} {rest : List LineInstruction}
    {rows : List DebugLineRow} :
    executeAll header registers (instruction :: rest) = some rows ↔
      ∃ after pushed later,
        execute header registers instruction = some (after, pushed) ∧
          executeAll header after rest = some later ∧
          rows = pushed ++ later := by
  rw [executeAll]
  cases execute header registers instruction with
  | none => simp
  | some found =>
      obtain ⟨after, pushed⟩ := found
      cases hlater : executeAll header after rest with
      | none => simp [hlater]
      | some later => simp [hlater, eq_comm]

/-- A run that ends with room left has carried every instruction out. -/
theorem runInstructions_eq_iff {limit : ℕ} {whole : Bool}
    {registers : LineRegisters} {lines all : List DebugLineRow}
    {instructions : List LineInstruction} (hroom : all.length < limit) :
    runInstructions header limit whole registers lines instructions =
        (all, true) ↔
      whole = true ∧ ∃ rows,
        executeAll header registers instructions = some rows ∧
          all = lines ++ rows := by
  induction instructions generalizing registers lines with
  | nil =>
      simp only [runInstructions, executeAll, Prod.mk.injEq, Bool.or_eq_true,
        decide_eq_true_eq, Option.some.injEq, exists_eq_left', List.append_nil]
      constructor
      · rintro ⟨rfl, hdone⟩
        exact ⟨hdone.resolve_right (by omega), rfl⟩
      · rintro ⟨hwhole, rfl⟩
        exact ⟨rfl, .inl hwhole⟩
  | cons instruction rest ih =>
      rw [runInstructions]
      simp only [executeAll_cons]
      split_ifs with hlines
      · cases hexecute : execute header registers instruction with
        | none => simp
        | some found =>
            obtain ⟨after, pushed⟩ := found
            dsimp only
            rw [ih]
            apply and_congr_right
            intro _
            constructor
            · rintro ⟨later, hlater, rfl⟩
              refine ⟨pushed ++ later, ?_, List.append_assoc ..⟩
              exact ⟨after, pushed, later, rfl, hlater, rfl⟩
            · rintro ⟨_, ⟨_, _, later, hsame, hlater, rfl⟩, rfl⟩
              rw [Option.some.injEq, Prod.mk.injEq] at hsame
              obtain ⟨rfl, rfl⟩ := hsame
              exact ⟨later, hlater, (List.append_assoc ..).symm⟩
      · constructor
        · intro hsame
          rw [Prod.mk.injEq] at hsame
          rw [hsame.1] at hlines
          contradiction
        · rintro ⟨_, rows, _, rfl⟩
          rw [List.length_append] at hroom
          omega

end Loop

end DebugInfoParser
end BinForge
