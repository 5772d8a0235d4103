import BinForge.LineInputs

/-!
# Where a line unit ends

The header declares how long the unit is, and the call checks that so many
bytes are there, but it runs the program to the end of the input.  A byte
behind the unit is one more instruction: it changes the rows unless there is no
admissible input with such a byte.
-/

namespace BinForge

open StatefulExcept
open StreamCodec
open InstructionStream
open ByteReader

namespace DebugInfoParser

/-- The verdict, the files, the rows and the version. -/
def lineVerdict (result : EStateM.Result Failure DebugUnit Unit) :
    Bool × List Bytes × List DebugLineRow × UInt16 :=
  (succeeded result, (finalState result).files, (finalState result).lines,
    (finalState result).version)

/-- Of the admissible inputs, those that begin with the unit have the verdict
and the rows that this one has. -/
def UnitConfined (limits : Limits) (order : ByteOrder) (addressSize : UInt8)
    (data : Bytes) (unit : DebugUnit) : Prop :=
  ∀ other : Bytes, other.length ≤ limits.maxDebugBytes.toNat →
    other.take (4 + (u32At order data 0).toNat) =
      data.take (4 + (u32At order data 0).toNat) →
    lineVerdict (parseLineProgram limits (some other) order addressSize unit) =
      lineVerdict (parseLineProgram limits (some data) order addressSize unit)

section Units

variable {limits : Limits} {order : ByteOrder} {addressSize : UInt8}
variable {front back : Bytes} {unit produced : DebugUnit}

/-! ## One more byte -/

theorem u8At_append {offset : ℕ} (hfit : offset < front.length) :
    u8At (front ++ back) offset = u8At front offset := by
  rw [u8At, u8At, List.getD_append _ _ _ _ hfit]

/-- The header lies in front. -/
theorem lineHeaderAt_append (hfit : 15 ≤ front.length) :
    lineHeaderAt order (front ++ back) = lineHeaderAt order front := by
  have hword : ∀ offset, offset + 4 ≤ 15 →
      u32At order (front ++ back) offset = u32At order front offset := by
    intro offset hoffset
    rw [u32At, u32At, ListSplice.slice_append_left (hoffset.trans hfit)]
  have hbyte : ∀ offset, offset < 15 →
      u8At (front ++ back) offset = u8At front offset := by
    intro offset hoffset
    exact u8At_append (hoffset.trans_le hfit)
  have hversion : u16At order (front ++ back) 4 = u16At order front 4 := by
    rw [u16At, u16At, ListSplice.slice_append_left (by omega)]
  rw [lineHeaderAt, lineHeaderAt, hversion, hword 0 (by decide),
    hword 6 (by decide), hbyte 10 (by decide), hbyte 11 (by decide),
    hbyte 12 (by decide), hbyte 13 (by decide), hbyte 14 (by decide)]

/-- The instruction that the byte 1 is. -/
def rowInstruction (opcodeBase : UInt8) : LineInstruction :=
  if 1 < opcodeBase then .copy else .special 1

theorem rowInstruction_consumes (opcodeBase : UInt8) :
    Consumes (AheadIn order) 0 (readInstruction opcodeBase addressSize) [1]
      (rowInstruction opcodeBase) := by
  apply readInstruction_consumes_byte (by decide)
  · intro hbase
    rw [rowInstruction, if_pos hbase]
    rfl
  · intro hbase
    rw [rowInstruction, if_neg hbase]

theorem executeAll_append {header : LineHeader} {registers : LineRegisters}
    {instructions : List LineInstruction} {last : LineInstruction}
    {rows : List DebugLineRow}
    (hall : executeAll header registers (instructions ++ [last]) = some rows) :
    ∃ before behind after more,
      executeAll header registers instructions = some before ∧
        execute header behind last = some (after, more) ∧
        rows = before ++ more := by
  induction instructions generalizing registers rows with
  | nil =>
      obtain ⟨after, pushed, later, hlast, hlater, rfl⟩ :=
        executeAll_cons.mp hall
      rw [executeAll, Option.some.injEq] at hlater
      refine ⟨[], registers, after, pushed, rfl, hlast, ?_⟩
      rw [← hlater, List.append_nil, List.nil_append]
  | cons instruction rest ih =>
      obtain ⟨middle, pushed, later, hexecute, hlater, rfl⟩ :=
        executeAll_cons.mp hall
      obtain ⟨before, behind, after, more, hbefore, hlast, rfl⟩ := ih hlater
      refine ⟨pushed ++ before, behind, after, more, ?_, hlast,
        (List.append_assoc ..).symm⟩
      exact executeAll_cons.mpr ⟨middle, pushed, before, hexecute, hbefore, rfl⟩

/-- It pushes a row or fails. -/
theorem rowInstruction_row {header : LineHeader} {opcodeBase : UInt8}
    {registers after : LineRegisters} {rows : List DebugLineRow}
    (hexecute : execute header registers (rowInstruction opcodeBase) =
      some (after, rows)) : rows.length = 1 := by
  rw [rowInstruction] at hexecute
  split_ifs at hexecute
  · simp only [execute, Option.some.injEq, Prod.mk.injEq] at hexecute
    rw [← hexecute.2, List.length_singleton]
  · simp only [execute, Option.bind_eq_bind, Option.bind_eq_some_iff,
      Option.pure_def, Option.some.injEq, Prod.mk.injEq] at hexecute
    obtain ⟨further, _, moved, _, _, rfl⟩ := hexecute
    exact List.length_singleton

/-! ## The unit and a byte behind it -/

/-- An accepted input whose rows are not those of the same input with a byte
more. -/
theorem accepted_append_ne {more : DebugUnit}
    (hfront : Accepted limits order addressSize front unit produced)
    (hmore : Accepted limits order addressSize (front ++ [1]) unit more) :
    more.lines ≠ produced.lines := by
  have hfit : 15 ≤ front.length :=
    (Nat.le_add_right 15 _).trans hfront.header.lengths
  have hsmall := hmore.input.small
  have hview := @lineHeaderAt_append order front [1] hfit
  have hprogram : programAt order addressSize (front ++ [1]) =
      (lineInstructions order (lineHeaderAt order front).opcodeBase addressSize
        [1]).after (programAt order addressSize front).instructions := by
    rw [programAt, hview, List.drop_append_of_le_length hfront.header.program]
    apply lineInstructions_append hfront.input.size hfront.whole
    rw [← List.drop_append_of_le_length hfront.header.program,
      List.length_drop]
    omega
  have hone : lineInstructions order (lineHeaderAt order front).opcodeBase
      addressSize [1] =
        (lineInstructions order (lineHeaderAt order front).opcodeBase
          addressSize []).after
          [rowInstruction (lineHeaderAt order front).opcodeBase] := by
    apply lineInstructions_cons hfront.input.size (List.cons_ne_nil 1 [])
      (rowInstruction_consumes _)
    decide
  obtain ⟨rows, hrows, hlines⟩ := hfront.rows
  obtain ⟨all, hall, hmoreLines⟩ := hmore.rows
  rw [hview, hprogram, hone] at hall
  obtain ⟨before, behind, after, last, hbefore, hlast, rfl⟩ :=
    executeAll_append hall
  rw [hrows, Option.some.injEq] at hbefore
  intro hsame
  rw [hlines, hmoreLines, ← hbefore] at hsame
  have hlengths := congrArg List.length hsame
  simp only [List.length_append, rowInstruction_row hlast] at hlengths
  omega

theorem ok_of_lineVerdict {result : EStateM.Result Failure DebugUnit Unit}
    (hverdict : lineVerdict result = lineVerdict (.ok () produced)) :
    ∃ last, result = .ok () last ∧ last.lines = produced.lines := by
  rw [lineVerdict, lineVerdict, Prod.mk.injEq, Prod.mk.injEq,
    Prod.mk.injEq] at hverdict
  obtain ⟨hok, _, hlines, _⟩ := hverdict
  obtain ⟨value, last, rfl⟩ := succeeded_iff.mp hok
  exact ⟨last, rfl, hlines⟩

/-- The result of an accepted input depends on its unit alone exactly when the
unit is as long as an input may be. -/
theorem unit_confined_iff {data : Bytes}
    (haccepts : parseLineProgram limits (some data) order addressSize unit =
      .ok () produced) :
    UnitConfined limits order addressSize data unit ↔
      4 + (u32At order data 0).toNat = limits.maxDebugBytes.toNat := by
  have haccepted := accepted_of_ok haccepts
  have hunit : 4 + (u32At order data 0).toNat ≤ data.length :=
    haccepted.header.unit
  have hmost := haccepted.input.most
  constructor
  · intro hconfined
    by_contra hroom
    rw [UnitConfined, haccepts] at hconfined
    generalize 4 + (u32At order data 0).toNat = stop at *
    have hlength : (data.take stop).length = stop := by
      rw [List.length_take]
      omega
    obtain ⟨first, hfirst, hlines⟩ :=
      ok_of_lineVerdict (hconfined (data.take stop) (by omega) (by
        rw [List.take_take, Nat.min_self]))
    have hmoreLength : (data.take stop ++ [1]).length = stop + 1 := by
      rw [List.length_append, hlength, List.length_singleton]
    obtain ⟨second, hsecond, hsame⟩ :=
      ok_of_lineVerdict (hconfined (data.take stop ++ [1]) (by omega) (by
        rw [List.take_append_of_le_length hlength.ge, List.take_take,
          Nat.min_self]))
    apply accepted_append_ne (accepted_of_ok hfirst) (accepted_of_ok hsecond)
    rw [hsame, hlines]
  · intro hfull other hother hprefix
    have hlength : data.length = 4 + (u32At order data 0).toNat := by omega
    have hlengths := congrArg List.length hprefix
    rw [List.length_take, List.length_take] at hlengths
    have hsame : other = data := by
      rw [List.take_of_length_le (by omega),
        List.take_of_length_le (by omega)] at hprefix
      exact hprefix
    rw [hsame]

end Units

/-- An input that may not be longer is its unit. -/
theorem unit_confined_full :
    UnitConfined { maxDebugBytes := 21 } .little 8 (unitOf [1]) {} := by
  have haccepts : succeeded (parseLineProgram { maxDebugBytes := 21 }
      (some (unitOf [1])) .little 8 {}) = true := by decide +kernel
  obtain ⟨_, produced, hok⟩ := succeeded_iff.mp haccepts
  exact (unit_confined_iff hok).mpr (by decide +kernel)

/-- Two units, one behind the other: the header of the second is run as opcodes
of the first. -/
theorem unit_not_confined :
    succeeded (parseLineProgram {} (some (unitOf [1])) .little 8 {}) = true ∧
      ¬UnitConfined {} .little 8 (unitOf [1]) {} := by
  constructor
  · decide +kernel
  · intro hconfined
    have hsame := hconfined (unitOf [1] ++ unitOf [1]) (by decide +kernel)
      (by decide +kernel)
    revert hsame
    decide +kernel

end DebugInfoParser
end BinForge
