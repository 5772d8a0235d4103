import BinForge.FailureReports
import BinForge.NoteParser
import BinForge.Tiling

/-!
# Notes in load commands

`parse_macho_commands` walks load commands that lie one behind the other.  A
note command names its owner and a range of the same bytes, which becomes the
value of the note.  The walk ends behind the last command or at the first one
that is not sound, with the notes before it in the vector.
-/

namespace BinForge

open StatefulExcept
open ByteReader
open Checklist
open ListSplice
open Tiling

namespace NoteParser

/-! ## One command -/

/-- A command and its size. -/
def readCommandHeader : ReaderCall (UInt32 × UInt32) := do
  let command ← readU32
  let commandSize ← readU32
  return (command, commandSize)

/-- Where the payload of a note begins, and its size. -/
def readPayloadRange : ReaderCall (UInt64 × UInt64) := do
  let fileOffset ← readU64
  let noteSize ← readU64
  return (fileOffset, noteSize)

/-- The fields of a note command behind its header. -/
def readNoteCommand (limits : Limits) (commandOffset : ℕ)
    (commandSize : UInt32) : DecodeCall BinaryNote := do
  rejectIf (commandSize < 40)
    (failure .truncated (UInt64.ofNat commandOffset)
      "Mach-O note command is truncated")
  let owner ← silently (readFixedString 16)
  let (fileOffset, noteSize) ← reporting
    (failure .invalidOffset (UInt64.ofNat commandOffset)
      "Mach-O note payload range is invalid") readPayloadRange
  let reader ← get
  rejectIf (rangeInside fileOffset.toNat noteSize.toNat reader.data.length =
        false ∨ noteSize > limits.maxDebugBytes)
    (failure .invalidOffset (UInt64.ofNat commandOffset)
      "Mach-O note payload range is invalid")
  return { owner, type := 0x31, fileOffset := UInt64.ofNat commandOffset
           valueKind := .bytes
           value := .bytes
             (slice reader.data fileOffset.toNat noteSize.toNat) }

/-- The size of the command at the reader, and the note it holds if it is a
note command. -/
def readCommand (limits : Limits) (commandOffset : ℕ) :
    DecodeCall (UInt32 × List BinaryNote) := do
  let (command, commandSize) ← reporting
    (failure .invalidHeader (UInt64.ofNat commandOffset)
      "Mach-O load command is invalid") readCommandHeader
  let reader ← get
  rejectIf (commandSize < 8 ∨
      commandSize.toNat > reader.data.length - commandOffset)
    (failure .invalidHeader (UInt64.ofNat commandOffset)
      "Mach-O load command is invalid")
  if command = 0x31 then
    let note ← readNoteCommand limits commandOffset commandSize
    return (commandSize, [note])
  else return (commandSize, [])

/-! ## The loop -/

/-- The loop with this many rounds left; every round takes a header.  A note is
in the vector before the reader is moved behind its command. -/
def commandLoop (limits : Limits) :
    ℕ → ByteReader → EStateM Failure (List BinaryNote) Unit
  | 0, _ => pure ()
  | rounds + 1, reader =>
      if reader.remaining = 0 then pure ()
      else
        match readCommand limits reader.position reader with
        | .error why _ => throw why
        | .ok (commandSize, found) next => do
            modify (· ++ found)
            match seek (UInt64.ofNat (reader.position + commandSize.toNat))
                next with
            | .error _ _ => throw Failure.silent
            | .ok _ next => commandLoop limits rounds next

def parseMachoCommands (limits : Limits) (data : Bytes) (order : ByteOrder) :
    EStateM Failure (List BinaryNote) Unit := do
  rejectIf (data.length > limits.maxDebugBytes.toNat)
    (failure .resourceLimit 0 "Mach-O note commands exceed limit")
  commandLoop limits (data.length + 1) { data, order }

/-! ## Sound commands -/

/-- The command whose header begins at `offset`. -/
structure MachOCommand where
  offset : ℕ
  command : UInt32
  size : UInt32
  deriving DecidableEq, Repr

def commandAt (order : ByteOrder) (data : Bytes) (offset : ℕ) :
    MachOCommand :=
  { offset, command := u32At order data offset
    size := u32At order data (offset + 4) }

namespace MachOCommand

def length (command : MachOCommand) : ℕ := command.size.toNat

/-- The range of a note command has room in the data and the limit. -/
structure HasPayload (limits : Limits) (order : ByteOrder) (data : Bytes)
    (command : MachOCommand) : Prop where
  fields : 40 ≤ command.length
  inside : (u64At order data (command.offset + 24)).toNat +
    (u64At order data (command.offset + 32)).toNat ≤ data.length
  small : u64At order data (command.offset + 32) ≤ limits.maxDebugBytes

/-- The header is read from the data, the command lies in it, and a note has
its payload there. -/
structure Sound (limits : Limits) (order : ByteOrder) (data : Bytes)
    (command : MachOCommand) : Prop where
  read : command = commandAt order data command.offset
  header : 8 ≤ command.length
  inside : command.offset + command.length ≤ data.length
  payload : command.command = 0x31 → command.HasPayload limits order data

/-- The note that a note command holds. -/
def note (order : ByteOrder) (data : Bytes) (command : MachOCommand) :
    BinaryNote :=
  { owner := fixedStringAt data (command.offset + 8) 16
    type := 0x31
    valueKind := .bytes
    value := .bytes (slice data
      (u64At order data (command.offset + 24)).toNat
      (u64At order data (command.offset + 32)).toNat)
    fileOffset := UInt64.ofNat command.offset }

end MachOCommand

/-- The notes of the note commands, in order. -/
def commandNotes (order : ByteOrder) (data : Bytes)
    (commands : List MachOCommand) : List BinaryNote :=
  (commands.filter fun command => command.command = 0x31).map
    (MachOCommand.note order data)

section Notes

variable {order : ByteOrder} {data : Bytes} {command : MachOCommand}
  {commands : List MachOCommand}

theorem commandNotes_cons_of_note (hkind : command.command = 0x31) :
    commandNotes order data (command :: commands) =
      command.note order data :: commandNotes order data commands := by
  rw [commandNotes, List.filter_cons, if_pos (decide_eq_true hkind)]
  rfl

theorem commandNotes_cons_of_other (hkind : command.command ≠ 0x31) :
    commandNotes order data (command :: commands) =
      commandNotes order data commands := by
  rw [commandNotes, List.filter_cons, if_neg (mt of_decide_eq_true hkind)]
  rfl

theorem commandNotes_cons :
    commandNotes order data (command :: commands) =
      commandNotes order data [command] ++
        commandNotes order data commands := by
  rw [commandNotes, ← List.singleton_append, List.filter_append,
    List.map_append]
  rfl

end Notes

/-- The failure is an error reported at this offset. -/
def ReportedAt (offset : ℕ) (why : Failure) : Prop :=
  ∃ code message, code ≠ ErrorCode.none ∧
    why = failure code (UInt64.ofNat offset) message

/-! ## Reading one command -/

variable {limits : Limits} {order : ByteOrder} {data : Bytes}
  {reader next : ByteReader} {offset : ℕ}

theorem readCommandHeader_at {header : UInt32 × UInt32} :
    readCommandHeader reader = .ok header next ↔
      reader.position + 8 ≤ reader.data.length ∧
        header = (u32At reader.order reader.data reader.position,
          u32At reader.order reader.data (reader.position + 4)) ∧
        next = reader.movedTo (reader.position + 8) := by
  simp only [readCommandHeader, bind_eq_ok, readU32_at, pure_eq_ok]
  constructor
  · rintro ⟨_, _, ⟨_, rfl, rfl⟩, _, _, ⟨hfit, rfl, rfl⟩, rfl, rfl⟩
    exact ⟨hfit, rfl, rfl⟩
  · rintro ⟨hfit, rfl, rfl⟩
    exact ⟨_, _, ⟨by omega, rfl, rfl⟩, _, _, ⟨hfit, rfl, rfl⟩, rfl, rfl⟩

theorem readPayloadRange_at {range : UInt64 × UInt64} :
    readPayloadRange reader = .ok range next ↔
      reader.position + 16 ≤ reader.data.length ∧
        range = (u64At reader.order reader.data reader.position,
          u64At reader.order reader.data (reader.position + 8)) ∧
        next = reader.movedTo (reader.position + 16) := by
  simp only [readPayloadRange, bind_eq_ok, readU64_at, pure_eq_ok]
  constructor
  · rintro ⟨_, _, ⟨_, rfl, rfl⟩, _, _, ⟨hfit, rfl, rfl⟩, rfl, rfl⟩
    exact ⟨hfit, rfl, rfl⟩
  · rintro ⟨hfit, rfl, rfl⟩
    exact ⟨_, _, ⟨by omega, rfl, rfl⟩, _, _, ⟨hfit, rfl, rfl⟩, rfl, rfl⟩

/-- Behind its header, a note command with a payload is read to its note. -/
theorem readNoteCommand_eq_ok {command : MachOCommand} {note : BinaryNote}
    (hinside : command.offset + command.length ≤ reader.data.length) :
    readNoteCommand limits command.offset command.size
        (reader.movedTo (command.offset + 8)) = .ok note next ↔
      command.HasPayload limits reader.order reader.data ∧
        note = command.note reader.order reader.data ∧
        next = reader.movedTo (command.offset + 40) := by
  unfold readNoteCommand silently reporting
  rw [rejectIf_bind_eq_ok, UInt32.not_lt, UInt32.le_iff_toNat_le]
  constructor
  · rintro ⟨hfields, hrun⟩
    obtain ⟨owner, _, howner, hrun⟩ := bind_eq_ok.mp hrun
    obtain ⟨_, rfl, rfl⟩ := readFixedString_at.mp (adaptError_eq_ok.mp howner)
    obtain ⟨_, _, hrange, hrun⟩ := bind_eq_ok.mp hrun
    obtain ⟨_, rfl, rfl⟩ := readPayloadRange_at.mp (adaptError_eq_ok.mp hrange)
    dsimp only at hrun
    rw [bind_of_ok (get_apply _)] at hrun
    obtain ⟨hpayload, hrun⟩ := rejectIf_bind_eq_ok.mp hrun
    rw [pure_eq_ok] at hrun
    obtain ⟨rfl, rfl⟩ := hrun
    rw [not_or, Bool.not_eq_false, rangeInside_iff, UInt64.not_lt] at hpayload
    exact ⟨⟨hfields, hpayload.1, hpayload.2⟩, rfl, rfl⟩
  · rintro ⟨hpayload, rfl, rfl⟩
    have hfields : 40 ≤ command.size.toNat := hpayload.fields
    have hroom : command.offset + command.size.toNat ≤ reader.data.length :=
      hinside
    refine ⟨hfields, ?_⟩
    rw [bind_of_ok (adaptError_eq_ok.mpr (readFixedString_at.mpr
        ⟨by rw [movedTo_position, movedTo_data]; omega, rfl, rfl⟩)),
      bind_of_ok (adaptError_eq_ok.mpr (readPayloadRange_at.mpr
        ⟨by simp only [movedTo_position, movedTo_data]; omega, rfl, rfl⟩))]
    dsimp only
    rw [bind_of_ok (get_apply _), rejectIf_bind_of_not]
    · rfl
    · rw [not_or, Bool.not_eq_false, rangeInside_iff, UInt64.not_lt]
      exact ⟨hpayload.inside, hpayload.small⟩

/-- What is read of a command is its size and its note, and only of a sound
one. -/
theorem readCommand_ok {result : UInt32 × List BinaryNote}
    (hrun : readCommand limits reader.position reader = .ok result next) :
    let command := commandAt reader.order reader.data reader.position
    command.Sound limits reader.order reader.data ∧
      result = (command.size,
        commandNotes reader.order reader.data [command]) ∧
      next.data = reader.data ∧ next.order = reader.order := by
  intro command
  unfold readCommand reporting at hrun
  obtain ⟨_, _, hheader, hrun⟩ := bind_eq_ok.mp hrun
  obtain ⟨hfit, rfl, rfl⟩ :=
    readCommandHeader_at.mp (adaptError_eq_ok.mp hheader)
  dsimp only at hrun
  rw [bind_of_ok (get_apply _)] at hrun
  obtain ⟨hsize, hrun⟩ := rejectIf_bind_eq_ok.mp hrun
  rw [not_or, UInt32.not_lt, not_lt, UInt32.le_iff_toNat_le, movedTo_data] at hsize
  have hinside : command.offset + command.length ≤ reader.data.length := by
    have hbehind : command.length ≤ reader.data.length - reader.position :=
      hsize.2
    show reader.position + command.length ≤ _
    omega
  by_cases hkind : u32At reader.order reader.data reader.position = 0x31
  · rw [if_pos hkind] at hrun
    obtain ⟨note, middle, hnote, hrun⟩ := bind_eq_ok.mp hrun
    obtain ⟨hpayload, rfl, rfl⟩ := (@readNoteCommand_eq_ok limits reader _
      command note hinside).mp hnote
    rw [pure_eq_ok] at hrun
    obtain ⟨rfl, rfl⟩ := hrun
    refine ⟨⟨rfl, hsize.1, hinside, fun _ => hpayload⟩, ?_, rfl, rfl⟩
    rw [commandNotes_cons_of_note hkind]
    rfl
  · rw [if_neg hkind, pure_eq_ok] at hrun
    obtain ⟨rfl, rfl⟩ := hrun
    refine ⟨⟨rfl, hsize.1, hinside, fun h => absurd h hkind⟩, ?_, rfl, rfl⟩
    rw [commandNotes_cons_of_other hkind]
    rfl

/-- A sound command is read. -/
theorem readCommand_of_sound
    (hsound : (commandAt reader.order reader.data reader.position).Sound
      limits reader.order reader.data) :
    ∃ result next,
      readCommand limits reader.position reader = .ok result next := by
  obtain ⟨_, hheader, hinside, hpayload⟩ := hsound
  have hsize : 8 ≤ (commandAt reader.order reader.data
    reader.position).size.toNat := hheader
  have hroom : reader.position + (commandAt reader.order reader.data
    reader.position).size.toNat ≤ reader.data.length := hinside
  unfold readCommand reporting
  rw [bind_of_ok (adaptError_eq_ok.mpr (readCommandHeader_at.mpr
    ⟨by omega, rfl, rfl⟩))]
  dsimp only
  rw [bind_of_ok (get_apply _), rejectIf_bind_of_not]
  · by_cases hkind : u32At reader.order reader.data reader.position = 0x31
    · rw [if_pos hkind]
      exact ⟨_, _, bind_eq_ok.mpr ⟨_, _, (@readNoteCommand_eq_ok limits reader _
        (commandAt reader.order reader.data reader.position) _
        hinside).mpr ⟨hpayload hkind, rfl, rfl⟩, rfl⟩⟩
    · rw [if_neg hkind]
      exact ⟨_, _, rfl⟩
  · rw [not_or, UInt32.not_lt, not_lt, UInt32.le_iff_toNat_le, movedTo_data]
    refine ⟨hsize, ?_⟩
    show (commandAt reader.order reader.data reader.position).size.toNat ≤ _
    omega

theorem reportedAt_failure {code : ErrorCode} {message : Bytes}
    (hcode : code ≠ .none) :
    ReportedAt offset (failure code (UInt64.ofNat offset) message) :=
  ⟨code, message, hcode, rfl⟩

/-- Whatever is wrong with a command is reported at its offset. -/
theorem readCommand_reported :
    Reported (ReportedAt reader.position)
      (evaluate (readCommand limits reader.position) reader) := by
  unfold readCommand reporting
  refine (Reported.adaptError fun _ _ =>
    reportedAt_failure (by decide)).bind fun _ next hheader => ?_
  obtain ⟨_, rfl, rfl⟩ := readCommandHeader_at.mp (adaptError_eq_ok.mp hheader)
  refine (Reported.ok _).bind fun _ _ hreader => ?_
  obtain ⟨rfl, rfl⟩ := EStateM.Result.ok.inj hreader
  refine Reported.guard (reportedAt_failure (by decide)) fun hsize => ?_
  rw [not_or, UInt32.not_lt, not_lt, UInt32.le_iff_toNat_le,
    movedTo_data] at hsize
  split
  · refine Reported.bind ?_ fun _ _ _ => Reported.pure _
    unfold readNoteCommand silently reporting
    refine Reported.guard (reportedAt_failure (by decide)) fun hfields => ?_
    have hfields : 40 ≤ (u32At reader.order reader.data
        (reader.position + 4)).toNat :=
      UInt32.le_iff_toNat_le.mp (UInt32.not_lt.mp hfields)
    -- The owner has room in the command, so its read cannot fail silently.
    have howner : readFixedString 16 (reader.movedTo (reader.position + 8)) =
        .ok _ _ := readFixedString_at.mpr
      ⟨by simp only [movedTo_position, movedTo_data]; omega, rfl, rfl⟩
    refine Reported.bind ?_ fun _ _ _ => ?_
    · rw [evaluate_of_ok (adaptError_eq_ok.mpr howner)]
      exact Reported.ok _
    refine (Reported.adaptError fun _ _ =>
      reportedAt_failure (by decide)).bind fun _ behind _ => ?_
    refine (Reported.ok behind).bind fun _ _ _ => ?_
    exact Reported.guard (reportedAt_failure (by decide)) fun _ =>
      Reported.pure _
  · exact Reported.pure _

/-! ## The walk -/

/-- What has been walked: sound commands one behind the other, whose notes are
in the vector, up to the end or to a command that is not sound. -/
structure Walked (limits : Limits) (order : ByteOrder) (data : Bytes)
    (start : ℕ) (known : List BinaryNote)
    (outcome : EStateM.Result Failure (List BinaryNote) Unit)
    (commands : List MachOCommand) (stop : ℕ) : Prop where
  tiles : Tiles MachOCommand.offset MachOCommand.length start commands stop
  sound : ∀ command ∈ commands, command.Sound limits order data
  inside : stop ≤ data.length
  notes : finalState outcome = known ++ commandNotes order data commands
  succeeds : succeeded outcome = true ↔ stop = data.length
  unsound : stop ≠ data.length →
    ¬(commandAt order data stop).Sound limits order data
  reported : ∀ why last, outcome = .error why last → ReportedAt stop why

theorem commandLoop_walked {known : List BinaryNote} {rounds : ℕ}
    (hlength : reader.data.length < 2 ^ 64)
    (hinside : reader.position ≤ reader.data.length)
    (hrounds : reader.data.length - reader.position < rounds) :
    ∃ commands stop, Walked limits reader.order reader.data reader.position
      known (commandLoop limits rounds reader known) commands stop := by
  induction rounds generalizing reader known with
  | zero => contradiction
  | succ rounds ih =>
      rw [commandLoop]
      by_cases hdone : reader.remaining = 0
      · rw [if_pos hdone, pure_apply]
        rw [remaining_eq] at hdone
        refine ⟨[], reader.position, rfl, by simp, hinside, ?_, ?_, ?_, ?_⟩
        · exact (List.append_nil known).symm
        · exact iff_of_true rfl (by omega)
        · intro hmore
          omega
        · intro why last hfailed
          contradiction
      rw [if_neg hdone]
      rw [remaining_eq] at hdone
      cases hrun : readCommand limits reader.position reader with
      | error why last =>
          have hreported := @readCommand_reported limits reader
          refine ⟨[], reader.position, rfl, by simp, hinside, ?_, ?_, ?_, ?_⟩
          · exact (List.append_nil known).symm
          · exact iff_of_false Bool.false_ne_true (by omega)
          · intro _ hsound
            obtain ⟨result, next, hread⟩ := readCommand_of_sound hsound
            rw [hrun] at hread
            contradiction
          · intro why' last' hfailed
            obtain ⟨rfl, -⟩ := EStateM.Result.error.inj hfailed
            refine hreported why ?_
            rw [evaluate, hrun]
      | ok result next =>
          obtain ⟨hsound, rfl, hdata, horder⟩ := readCommand_ok hrun
          have hbehind := hsound.inside
          have hheader := hsound.header
          set command := commandAt reader.order reader.data reader.position
            with hcommand
          have hstart : command.offset = reader.position := rfl
          have hstop : (UInt64.ofNat
              (reader.position + command.size.toNat)).toNat =
              reader.position + command.length :=
            UInt64.toNat_ofNat_of_lt' (hbehind.trans_lt hlength)
          have hseek := @seek_of_le next
            (UInt64.ofNat (reader.position + command.size.toNat))
            (by rw [hdata, hstop]; exact hbehind)
          rw [hstop] at hseek
          dsimp only
          rw [bind_of_ok (modify_apply _ known), hseek]
          dsimp only
          obtain ⟨commands, stop, hwalked⟩ := @ih
            (next.movedTo (reader.position + command.length))
            (known ++ commandNotes reader.order reader.data [command])
            (by rw [movedTo_data, hdata]; exact hlength)
            (by rw [movedTo_data, movedTo_position, hdata]; omega)
            (by rw [movedTo_data, movedTo_position, hdata]; omega)
          rw [movedTo_order, movedTo_data, movedTo_position, hdata,
            horder] at hwalked
          refine ⟨command :: commands, stop, ⟨hstart, by omega, ?_⟩, ?_,
            hwalked.inside, ?_, hwalked.succeeds, hwalked.unsound,
            hwalked.reported⟩
          · exact hwalked.tiles
          · exact List.forall_mem_cons.mpr ⟨hsound, hwalked.sound⟩
          · rw [hwalked.notes, List.append_assoc, ← commandNotes_cons]

/-- The walk over load commands keeps exactly the notes of the sound commands
it passes.  It succeeds when they fill the data, and otherwise reports an error
at the first command that is not sound. -/
theorem parseMachoCommands_walked (limits : Limits) (order : ByteOrder)
    {data : Bytes} (known : List BinaryNote)
    (hsize : data.length ≤ limits.maxDebugBytes.toNat) :
    ∃ commands stop, Walked limits order data 0 known
      (parseMachoCommands limits data order known) commands stop := by
  unfold parseMachoCommands
  rw [rejectIf_bind_of_not (not_lt.mpr hsize)]
  exact @commandLoop_walked limits { data, order } known _
    (hsize.trans_lt limits.maxDebugBytes.toNat_lt) (Nat.zero_le _)
    (Nat.lt_succ_self _)

/-- An empty command, a note of the four bytes behind its fields, and a command
that is too long. -/
def threeCommands : Bytes :=
  [1, 0, 0, 0, 8, 0, 0, 0] ++
    ([0x31, 0, 0, 0, 44, 0, 0, 0] ++ ascii "own" ++ List.replicate 13 0 ++
      [48, 0, 0, 0, 0, 0, 0, 0] ++ [4, 0, 0, 0, 0, 0, 0, 0] ++
      [0xde, 0xad, 0xbe, 0xef]) ++
    [1, 0, 0, 0, 9, 0, 0, 0]

theorem parseMachoCommands_walked_three :
    (∃ commands stop, Walked {} .little threeCommands 0 []
      (parseMachoCommands {} threeCommands .little []) commands stop) ∧
      finalState (parseMachoCommands {} threeCommands .little []) =
        [{ owner := "own", type := 0x31, fileOffset := 8
           value := .bytes [0xde, 0xad, 0xbe, 0xef] }] :=
  ⟨parseMachoCommands_walked {} .little [] (by decide), by decide +kernel⟩

end NoteParser
end BinForge
