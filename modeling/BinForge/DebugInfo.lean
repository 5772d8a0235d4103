import BinForge.Image
import BinForge.Leb128
import BinForge.RoundLoop

/-!
# Debug entries

`parse_entries` reads a tree of entries written in pre-order.  It keeps a stack
of the child lists it is inside of and appends to the innermost one.  Every
round of its loop reads a tag, so the bytes bound the rounds.
-/

namespace BinForge

open StatefulExcept
open ByteReader

namespace DebugInfoParser

/-! ## One entry -/

def readAttributeValue (limits : Limits) (form : UInt64) :
    DecodeCall DebugValue :=
  if form = 1 then do
    let value ← silently readUleb128
    return .unsigned value
  else if form = 2 then do
    let value ← silently readSleb128
    return .signed value
  else if form = 3 then
    silently do
      let length ← readUleb128
      let reader ← get
      rejectIf (length.toNat > reader.remaining ∨
        length > limits.maxStringBytes) ()
      let bytes ← readBytes length.toNat
      return .text bytes
  else do
    let reader ← get
    throw (failure .invalidDebugInfo (UInt64.ofNat reader.position)
      "unknown debug attribute form")

def readAttribute (limits : Limits) : DecodeCall DebugAttribute := do
  let (name, form) ← adaptError
    (reportAt .truncated "debug attribute truncated") do
      let name ← readUleb128
      let form ← readUleb128
      return (name, form)
  let value ← readAttributeValue limits form
  return { name := name.toUInt32, form := form.toUInt32, value }

def readEntryHeader : ReaderCall (UInt8 × UInt8) := do
  let children ← readU8
  let attributes ← readU8
  return (children, attributes)

/-- What follows a tag; the entry has no children yet. -/
def readEntry (limits : Limits) (tag : UInt64) : DecodeCall DebugEntry := do
  let (children, attributes) ← adaptError
    (reportAt .truncated "debug entry header truncated") readEntryHeader
  let reader ← get
  let values ← collect (readAttribute limits) attributes.toNat
  return { offset := UInt64.ofNat reader.position, tag := tag.toUInt32
           hasChildren := children != 0, attributes := values }

/-! ## The tree under construction -/

/-- Append to the list that lies this many child lists deep.

Each pointer of the source's stack after the first is the child list of the
last entry of the list before it, and a list is appended to only while it is
innermost, so the depth tells which list is meant. -/
def appendAt : ℕ → List DebugEntry → DebugEntry → List DebugEntry
  | 0, entries, entry => entries ++ [entry]
  | depth + 1, entries, entry =>
      match entries.getLast? with
      | none => entries
      | some last =>
          entries.dropLast ++
            [{ last with children := appendAt depth last.children entry }]

/-- The reader, the entries of the unit and the size of the stack. -/
structure EntryState where
  reader : ByteReader
  entries : List DebugEntry
  levels : ℕ

abbrev EntryCall := EStateM Failure EntryState

/-- A call of the reader inside the loop. -/
def reading {α : Type} (action : DecodeCall α) : EntryCall α := fun state =>
  match action state.reader with
  | .ok value reader => .ok value { state with reader }
  | .error why reader => .error why { state with reader }

/-- Append to the innermost list, and enter the child list of what was
appended. -/
def EntryState.push (state : EntryState) (entry : DebugEntry) : EntryState :=
  { state with
    entries := appendAt (state.levels - 1) state.entries entry
    levels := if entry.hasChildren then state.levels + 1 else state.levels }

def EntryState.pop (state : EntryState) : EntryState :=
  { state with levels := state.levels - 1 }

/-! ## The loop -/

/-- What a round does with its tag; `again` is the rest of the loop. -/
def entryRound (limits : Limits) (again : EntryCall Unit) (tag : UInt64) :
    EntryCall Unit := do
  let state ← get
  if tag = 0 then
    if state.levels = 1 then pure ()
    else do
      set state.pop
      again
  else do
    rejectIf (state.levels > limits.maxDebugDepth.toNat)
      (failure .resourceLimit (UInt64.ofNat state.reader.position)
        "debug nesting limit")
    let entry ← reading (readEntry limits tag)
    modify fun state => state.push entry
    again

/-- The loop with this many rounds left; every round takes a byte. -/
def entryLoop (limits : Limits) : ℕ → EntryCall Unit
  | 0 => pure ()
  | rounds + 1 => do
      let state ← get
      if state.reader.remaining = 0 then pure ()
      else do
        let tag ← reading (adaptError
          (reportAt .truncated "debug tag truncated") readUleb128)
        entryRound limits (entryLoop limits rounds) tag

/-! ## The rounds suffice -/

section Rounds

open RoundLoop

variable {limits : Limits}

/-- What a round does with its tag, and whether the loop goes on. -/
def entryStep (limits : Limits) (tag : UInt64) :
    EntryCall (ForInStep Unit) := do
  let state ← get
  if tag = 0 then
    if state.levels = 1 then return .done ()
    else do
      set state.pop
      return .yield ()
  else do
    rejectIf (state.levels > limits.maxDebugDepth.toNat)
      (failure .resourceLimit (UInt64.ofNat state.reader.position)
        "debug nesting limit")
    let entry ← reading (readEntry limits tag)
    modify fun state => state.push entry
    return .yield ()

/-- The body of the loop as it stands in the source. -/
def entryBody (limits : Limits) : Body Failure EntryState Unit := fun _ => do
  let state ← get
  if state.reader.remaining = 0 then return .done ()
  else do
    let tag ← reading (adaptError
      (reportAt .truncated "debug tag truncated") readUleb128)
    entryStep limits tag

theorem entryRound_eq (again : Unit → EntryCall Unit) (tag : UInt64) :
    entryRound limits (again ()) tag = (do
      match ← entryStep limits tag with
      | .done last => pure last
      | .yield passed => again passed) := by
  unfold entryRound entryStep
  rw [bind_assoc]
  refine bind_congr fun state => ?_
  split_ifs
  · rfl
  · simp only [bind_assoc, pure_bind]
  · simp only [bind_assoc, pure_bind]

theorem entryLoop_eq_loop (rounds : ℕ) :
    entryLoop limits rounds = loop (entryBody limits) rounds () := by
  induction rounds with
  | zero => rfl
  | succ rounds ih =>
      rw [entryLoop, loop, entryBody, bind_assoc, ih]
      refine bind_congr fun state => ?_
      split_ifs
      · rfl
      · rw [bind_assoc]
        refine bind_congr fun tag => (entryRound_eq _ tag).trans
          (bind_congr fun step => ?_)
        cases step <;> rfl

theorem readAttributeValue_forward (form : UInt64) :
    Forward 0 (readAttributeValue limits form) := by
  unfold readAttributeValue
  split_ifs
  · exact ((silently_forward readUleb128_forward).after fun _ =>
      forward_pure _).weaken (Nat.zero_le _)
  · exact ((silently_forward readSleb128_forward).after fun _ =>
      forward_pure _).weaken (Nat.zero_le _)
  · refine silently_forward ((readUleb128_forward.after fun length =>
      Forward.get_bind fun reader => (forward_rejectIf _ _).after fun _ =>
        ?_).weaken (Nat.zero_le _))
    exact ((take_forward _).after fun _ => forward_pure _).weaken
      (Nat.zero_le _)
  · exact Forward.get_bind fun _ => forward_throw _

theorem readAttribute_forward : Forward 0 (readAttribute limits) := by
  unfold readAttribute
  refine (Forward.adaptError _ ?_).after fun names =>
    (readAttributeValue_forward _).after fun _ => forward_pure _
  exact (readUleb128_forward.after fun _ =>
    (readUleb128_forward.weaken (Nat.zero_le _)).after fun _ =>
      forward_pure _).weaken (Nat.zero_le _)

theorem readEntry_forward (tag : UInt64) : Forward 0 (readEntry limits tag) := by
  unfold readEntry
  refine (Forward.adaptError _ ?_).after fun header =>
    Forward.get_bind fun _ => (readAttribute_forward.collect _).after fun _ =>
      forward_pure _
  exact (readU8_forward.after fun _ =>
    (readU8_forward.weaken (Nat.zero_le _)).after fun _ =>
      forward_pure _).weaken (Nat.zero_le _)

theorem reading_eq_ok {α : Type} {action : DecodeCall α}
    {state next : EntryState} {value : α} :
    reading action state = .ok value next ↔
      ∃ reader, action state.reader = .ok value reader ∧
        next = { state with reader } := by
  unfold reading
  cases action state.reader with
  | ok found reader =>
      constructor
      · rintro ⟨⟩
        exact ⟨_, rfl, rfl⟩
      · rintro ⟨_, ⟨⟩, rfl⟩
        rfl
  | error why reader =>
      constructor
      · rintro ⟨⟩
      · rintro ⟨_, ⟨⟩, _⟩

theorem reading_of_ok {α : Type} {action : DecodeCall α} {state : EntryState}
    {value : α} {next : ByteReader}
    (hrun : action state.reader = .ok value next) :
    reading action state = .ok value { state with reader := next } :=
  reading_eq_ok.mpr ⟨next, hrun, rfl⟩

/-- No byte is put back. -/
theorem entryStep_takes {tag : UInt64} {step : ForInStep Unit}
    {state next : EntryState}
    (hrun : entryStep limits tag state = .ok step next) :
    next.reader.remaining ≤ state.reader.remaining := by
  rw [entryStep, bind_of_ok (get_apply state)] at hrun
  split_ifs at hrun
  · obtain ⟨-, rfl⟩ := pure_eq_ok.mp hrun
    exact Nat.le_refl _
  · rw [bind_of_ok (set_apply _ state)] at hrun
    obtain ⟨-, rfl⟩ := pure_eq_ok.mp hrun
    exact Nat.le_refl _
  · obtain ⟨-, hentry⟩ := rejectIf_bind_eq_ok.mp hrun
    obtain ⟨entry, middle, hread, hpushed⟩ := bind_eq_ok.mp hentry
    obtain ⟨reader, hreader, rfl⟩ := reading_eq_ok.mp hread
    rw [bind_of_ok (modify_apply _ _)] at hpushed
    obtain ⟨-, rfl⟩ := pure_eq_ok.mp hpushed
    exact (readEntry_forward tag).takes hreader

/-- A round that goes on has read a tag. -/
theorem entryBody_takes {here there : Unit × EntryState}
    (hround : Continues (entryBody limits) here there) :
    there.2.reader.remaining < here.2.reader.remaining := by
  rw [Continues, entryBody, bind_of_ok (get_apply _)] at hround
  split_ifs at hround
  · cases hround
  · obtain ⟨tag, middle, htag, hstep⟩ := bind_eq_ok.mp hround
    obtain ⟨reader, hreader, rfl⟩ := reading_eq_ok.mp htag
    have htaken := readUleb128_forward.takes (adaptError_eq_ok.mp hreader)
    exact (entryStep_takes hstep).trans_lt (Nat.lt_of_succ_le htaken)

theorem entryBody_done {state : EntryState}
    (hdone : state.reader.remaining = 0) :
    entryBody limits () state = .ok (.done ()) state := by
  rw [entryBody, bind_of_ok (get_apply _), if_pos hdone, pure_apply]

/-- The loop ends with the bytes. -/
theorem entryLoop_done {rounds : ℕ} {state : EntryState}
    (hdone : state.reader.remaining = 0) :
    entryLoop limits rounds state = .ok () state := by
  rw [entryLoop_eq_loop]
  cases rounds with
  | zero => rfl
  | succ rounds => exact loop_of_done (entryBody_done hdone)

/-- A loop with a round for every byte left never stops for want of rounds. -/
theorem entryRuns_iff {rounds : ℕ} {state : EntryState}
    {outcome : EStateM.Result Failure EntryState Unit}
    (hrounds : state.reader.remaining ≤ rounds) :
    Runs (entryBody limits) ((), state) outcome ↔
      entryLoop limits rounds state = outcome := by
  rw [entryLoop_eq_loop]
  exact runs_iff_loop_of_still (fun here => here.2.reader.remaining)
    entryBody_takes entryBody_done hrounds

end Rounds

/-! ## The call -/

/-- The data is a pointer, which may be null; the entries read before a failure
stay in the unit. -/
def parseEntries (limits : Limits) (data : Option Bytes) (order : ByteOrder)
    (_addressSize : UInt8) : EStateM Failure DebugUnit Unit := fun unit =>
  let limit := failure .resourceLimit 0 "debug entry input limit"
  match data with
  | none => .error limit unit
  | some data =>
      if data.length > limits.maxDebugBytes.toNat then .error limit unit
      else
        match entryLoop limits data.length
            { reader := { data, order }, entries := unit.entries,
              levels := 1 } with
        | .ok _ state => .ok () { unit with entries := state.entries }
        | .error why state => .error why { unit with entries := state.entries }

/-- What is in the unit after the loop. -/
def unitAfter (unit : DebugUnit) :
    EStateM.Result Failure EntryState Unit →
      EStateM.Result Failure DebugUnit Unit
  | .ok _ state => .ok () { unit with entries := state.entries }
  | .error why state => .error why { unit with entries := state.entries }

/-- Data within the limit is read by the loop of the source, which has no bound
on its rounds. -/
theorem parseEntries_runs_iff {limits : Limits} {data : Bytes}
    {order : ByteOrder} {addressSize : UInt8} {unit : DebugUnit}
    (hlimit : data.length ≤ limits.maxDebugBytes.toNat)
    {outcome : EStateM.Result Failure DebugUnit Unit} :
    (∃ result, RoundLoop.Runs (entryBody limits)
        ((), { reader := { data, order }, entries := unit.entries, levels := 1 })
        result ∧ unitAfter unit result = outcome) ↔
      parseEntries limits (some data) order addressSize unit = outcome := by
  have hrounds : ({ data, order } : ByteReader).remaining ≤ data.length :=
    (remaining_eq _).trans_le (Nat.sub_le _ _)
  have hruns (result : EStateM.Result Failure EntryState Unit) :=
    @entryRuns_iff limits data.length
      { reader := { data, order }, entries := unit.entries, levels := 1 } result
      hrounds
  simp only [hruns, exists_eq_left']
  rw [parseEntries, if_neg (not_lt.mpr hlimit)]
  rfl

end DebugInfoParser
end BinForge
