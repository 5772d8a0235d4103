import BinForge.DisassemblyAnalyzer
import BinForge.Tiling

/-!
# What the linear sweep covers

The decoders return the bytes they decoded, at the address they were given.
The instructions of a report then lie one behind the other from its start, and
the sweep ends where the input does, where the limit is reached, or where
nothing can be decoded.
-/

namespace BinForge

open StatefulExcept
open BinaryLoader
open Disassembler
open Tiling

/-! ## Single instructions -/

/-- The decoders of the library. -/
inductive BuiltIn : Disassembler → Prop
  | x86 : BuiltIn X86Disassembler.decode
  | arm64 : BuiltIn Arm64Disassembler.decode
  | riscV (compressed : Bool) : BuiltIn (RiscVDisassembler.decode compressed)

/-- The instruction is made of the bytes ahead of the decoder. -/
structure DecodedFrom (data : Bytes) (address : UInt64)
    (instruction : Instruction) : Prop where
  address : instruction.address = address
  positive : 0 < instruction.size.toNat
  small : instruction.size.toNat ≤ 16
  inside : instruction.size.toNat ≤ data.length
  bytes : instruction.bytes.toList.take instruction.size.toNat =
    data.take instruction.size.toNat

namespace Disassembler

variable {data : Bytes} {address : UInt64} {instruction plain : Instruction}

theorem copied_take {bytes : Bytes} (hsmall : bytes.length ≤ 16) :
    (copied bytes).toList.take bytes.length = bytes := by
  apply List.ext_getElem
  · simp [copied, hsmall]
  · intro i hleft hright
    simp [copied, hright]

/-- An instruction of the first bytes, none of them past the end. -/
theorem decodedFrom_of_copied (size : UInt8) (hsize : instruction.size = size)
    (haddress : instruction.address = address)
    (hbytes : instruction.bytes = copied (data.take size.toNat))
    (hpositive : 0 < size.toNat) (hsmall : size.toNat ≤ 16)
    (hinside : size.toNat ≤ data.length) :
    DecodedFrom data address instruction where
  address := haddress
  positive := by rw [hsize]; exact hpositive
  small := by rw [hsize]; exact hsmall
  inside := by rw [hsize]; exact hinside
  bytes := by
    have hlength : (data.take size.toNat).length = size.toNat :=
      List.length_take_of_le hinside
    have hsmallTake : (data.take size.toNat).length ≤ 16 := by omega
    have htake := copied_take hsmallTake
    rw [hlength] at htake
    rw [hsize, hbytes, htake]

end Disassembler

namespace X86Disassembler

variable {data : Bytes} {address : UInt64} {instruction : Instruction}

theorem rel8_decodedFrom {name : Bytes}
    (hdecode : rel8 data address name = .ok instruction) :
    DecodedFrom data address instruction := by
  obtain ⟨hlength, hdecode⟩ := rejectIf_except_bind_eq_ok.mp hdecode
  cases hdecode
  exact decodedFrom_of_copied 2 rfl rfl rfl (by decide) (by decide)
    (not_lt.mp hlength)

theorem rel32_decodedFrom {call : Bool}
    (hdecode : rel32 data address call = .ok instruction) :
    DecodedFrom data address instruction := by
  obtain ⟨hlength, hdecode⟩ := rejectIf_except_bind_eq_ok.mp hdecode
  cases hdecode
  exact decodedFrom_of_copied 5 rfl rfl rfl (by decide) (by decide)
    (not_lt.mp hlength)

theorem ite_decodedFrom {condition : Prop} [Decidable condition]
    {first second : Except Failure Instruction}
    (hfirst : ∀ found, first = .ok found → DecodedFrom data address found)
    (hsecond : ∀ found, second = .ok found → DecodedFrom data address found) :
    ∀ found, (if condition then first else second) = .ok found →
      DecodedFrom data address found := by
  split
  · exact hfirst
  · exact hsecond

theorem decode_decodedFrom (hdecode : decode data address = .ok instruction) :
    DecodedFrom data address instruction := by
  cases data with
  | nil => cases hdecode
  | cons opcode rest =>
      have hsingle : ∀ single : Instruction, single.size = 1 →
          single.address = address → single.bytes = copied [opcode] →
          ∀ found, Except.ok single = (.ok found : Except Failure Instruction) →
            DecodedFrom (opcode :: rest) address found := by
        intro single hsize haddress hbytes found hfound
        obtain rfl := Except.ok.inj hfound
        exact decodedFrom_of_copied 1 hsize haddress hbytes (by decide)
          (by decide) (Nat.succ_le_succ (Nat.zero_le _))
      have hjump : ∀ found, (do
            let jump ← rel8 (opcode :: rest) address "jmp"
            return { jump with terminal := true }) = .ok found →
          DecodedFrom (opcode :: rest) address found := by
        intro found hfound
        obtain ⟨jump, hjump, hfound⟩ := except_bind_eq_ok.mp hfound
        cases hfound
        have hdecoded := rel8_decodedFrom hjump
        exact ⟨hdecoded.address, hdecoded.positive, hdecoded.small,
          hdecoded.inside, hdecoded.bytes⟩
      revert instruction
      rw [decode]
      dsimp only
      iterate 3
        apply ite_decodedFrom
        · apply hsingle <;> rfl
      apply ite_decodedFrom hjump
      iterate 2
        apply ite_decodedFrom
        · intro found hfound
          exact rel8_decodedFrom hfound
      apply ite_decodedFrom
      · intro found hfound
        exact rel32_decodedFrom hfound
      iterate 2
        apply ite_decodedFrom
        · apply hsingle <;> rfl
      apply hsingle <;> rfl

end X86Disassembler

/-- The address, size and bytes of an instruction, which the chains of tests
of the other decoders leave alone. -/
def SamePlace (instruction plain : Instruction) : Prop :=
  instruction.address = plain.address ∧ instruction.size = plain.size ∧
    instruction.bytes = plain.bytes

theorem SamePlace.ite {condition : Prop} [Decidable condition]
    {first second plain : Instruction} (hfirst : SamePlace first plain)
    (hsecond : SamePlace second plain) :
    SamePlace (if condition then first else second) plain := by
  split_ifs
  · exact hfirst
  · exact hsecond

theorem SamePlace.decodedFrom {data : Bytes} {address : UInt64}
    {instruction : Instruction} (size : UInt8)
    (hplace : SamePlace instruction
      { address, size, bytes := copied (data.take size.toNat) })
    (hpositive : 0 < size.toNat) (hsmall : size.toNat ≤ 16)
    (hinside : size.toNat ≤ data.length) :
    DecodedFrom data address instruction := by
  obtain ⟨haddress, hsize, hbytes⟩ := hplace
  exact decodedFrom_of_copied size hsize haddress hbytes hpositive hsmall
    hinside

theorem Arm64Disassembler.decodeWord_place (word : UInt32)
    (plain : Instruction) : SamePlace (decodeWord word plain) plain := by
  unfold decodeWord
  dsimp only
  repeat' apply SamePlace.ite
  all_goals exact ⟨rfl, rfl, rfl⟩

theorem Arm64Disassembler.decode_decodedFrom {data : Bytes} {address : UInt64}
    {instruction : Instruction} (hdecode : decode data address = .ok instruction) :
    DecodedFrom data address instruction := by
  obtain ⟨hlength, hdecode⟩ := rejectIf_except_bind_eq_ok.mp hdecode
  cases hdecode
  exact (decodeWord_place _ _).decodedFrom 4 (by decide) (by decide)
    (not_lt.mp hlength)

theorem RiscVDisassembler.decodeHalf_place (half : UInt16)
    (plain : Instruction) : SamePlace (decodeHalf half plain) plain := by
  unfold decodeHalf
  dsimp only
  repeat' apply SamePlace.ite
  all_goals exact ⟨rfl, rfl, rfl⟩

theorem RiscVDisassembler.decodeWord_place (word : UInt32)
    (plain : Instruction) : SamePlace (decodeWord word plain) plain := by
  unfold decodeWord
  dsimp only
  repeat' apply SamePlace.ite
  all_goals exact ⟨rfl, rfl, rfl⟩

theorem RiscVDisassembler.decode_decodedFrom {compressed : Bool} {data : Bytes}
    {address : UInt64} {instruction : Instruction}
    (hdecode : decode compressed data address = .ok instruction) :
    DecodedFrom data address instruction := by
  obtain ⟨hlength, hdecode⟩ := rejectIf_except_bind_eq_ok.mp hdecode
  dsimp only at hdecode
  split_ifs at hdecode
  · obtain ⟨-, hdecode⟩ := rejectIf_except_bind_eq_ok.mp hdecode
    cases hdecode
    exact (decodeHalf_place _ _).decodedFrom 2 (by decide) (by decide)
      (not_lt.mp hlength)
  · obtain ⟨hlong, hdecode⟩ := rejectIf_except_bind_eq_ok.mp hdecode
    cases hdecode
    exact (decodeWord_place _ _).decodedFrom 4 (by decide) (by decide)
      (not_lt.mp hlong)

theorem BuiltIn.decodedFrom {decoder : Disassembler} (hdecoder : BuiltIn decoder)
    {data : Bytes} {address : UInt64} {instruction : Instruction}
    (hdecode : decoder data address = .ok instruction) :
    DecodedFrom data address instruction := by
  cases hdecoder with
  | x86 => exact X86Disassembler.decode_decodedFrom hdecode
  | arm64 => exact Arm64Disassembler.decode_decodedFrom hdecode
  | riscV compressed => exact RiscVDisassembler.decode_decodedFrom hdecode

/-! ## The sweep -/

/-- The instructions one behind the other, at most `left` of them. -/
def linearSweep (decoder : Disassembler) :
    ℕ → Bytes → UInt64 → List Instruction
  | 0, _, _ => []
  | left + 1, data, address =>
      if data = [] then []
      else match decoder data address with
        | .error _ => []
        | .ok instruction =>
            instruction :: linearSweep decoder left
              (data.drop instruction.size.toNat)
              (address + instruction.size.toUInt64)

/-- The bytes of some instructions. -/
def bytesOf (instructions : List Instruction) : ℕ :=
  (instructions.map fun instruction => instruction.size.toNat).sum

@[simp] theorem bytesOf_nil : bytesOf [] = 0 := rfl

@[simp] theorem bytesOf_cons (instruction : Instruction)
    (instructions : List Instruction) :
    bytesOf (instruction :: instructions) =
      instruction.size.toNat + bytesOf instructions := by
  simp [bytesOf]

/-- The instructions lie one behind the other. -/
abbrev InstructionsTile (start : ℕ) (instructions : List Instruction)
    (stop : ℕ) : Prop :=
  Tiles (fun instruction : Instruction => instruction.address.toNat)
    (fun instruction => instruction.size.toNat) start instructions stop

section

variable {limits : Limits} {decoder : Disassembler} {data : Bytes}
  {address : UInt64} {instruction : Instruction} {left : ℕ}

@[simp] theorem linearSweep_nil : linearSweep decoder left [] address = [] := by
  cases left with
  | zero => rfl
  | succ left => simp [linearSweep]

theorem linearSweep_succ (hdata : data ≠ [])
    (hdecode : decoder data address = .ok instruction) :
    linearSweep decoder (left + 1) data address =
      instruction :: linearSweep decoder left
        (data.drop instruction.size.toNat)
        (address + instruction.size.toUInt64) := by
  simp only [linearSweep]
  rw [if_neg hdata, hdecode]

theorem linearSweep_of_error {why : Failure}
    (hdecode : decoder data address = .error why) :
    linearSweep decoder left data address = [] := by
  cases left with
  | zero => rfl
  | succ left => simp [linearSweep, hdecode]

/-- A sweep stops, or takes the instruction ahead and goes on behind it. -/
theorem linearSweep_induction (decoder : Disassembler)
    {motive : ℕ → Bytes → UInt64 → Prop}
    (stop : ∀ left data address, linearSweep decoder left data address = [] →
      motive left data address)
    (step : ∀ left data address instruction,
      decoder data address = .ok instruction →
      linearSweep decoder (left + 1) data address =
        instruction :: linearSweep decoder left
          (data.drop instruction.size.toNat)
          (address + instruction.size.toUInt64) →
      motive left (data.drop instruction.size.toNat)
        (address + instruction.size.toUInt64) →
      motive (left + 1) data address)
    (left : ℕ) (data : Bytes) (address : UInt64) : motive left data address := by
  induction left generalizing data address with
  | zero => exact stop 0 data address rfl
  | succ left ih =>
      by_cases hdata : data = []
      · exact stop _ data address (by rw [hdata, linearSweep_nil])
      · cases hdecode : decoder data address with
        | error why => exact stop _ data address (linearSweep_of_error hdecode)
        | ok instruction =>
            exact step left data address instruction hdecode
              (linearSweep_succ hdata hdecode) (ih _ _)

theorem toNat_add_size (address : UInt64) (instruction : Instruction)
    (hfit : address.toNat + instruction.size.toNat < 2 ^ 64) :
    (address + instruction.size.toUInt64).toNat =
      address.toNat + instruction.size.toNat := by
  rw [UInt64.toNat_add, UInt8.toNat_toUInt64, Nat.mod_eq_of_lt hfit]

/-- The instructions lie one behind the other as long as no address wraps. -/
theorem linearSweep_tiles (hdecoder : BuiltIn decoder) (left : ℕ)
    (data : Bytes) (address : UInt64)
    (hfit : address.toNat + bytesOf (linearSweep decoder left data address) <
      2 ^ 64) :
    InstructionsTile address.toNat (linearSweep decoder left data address)
      (address.toNat + bytesOf (linearSweep decoder left data address)) := by
  induction left, data, address using linearSweep_induction decoder with
  | stop left data address hstop =>
      rw [hstop]
      rfl
  | step left data address instruction hdecode hsweep ih =>
      have hdecoded := hdecoder.decodedFrom hdecode
      rw [hsweep, bytesOf_cons] at hfit ⊢
      have haddress := toNat_add_size address instruction (by omega)
      rw [haddress] at ih
      refine ⟨congrArg UInt64.toNat hdecoded.address, hdecoded.positive, ?_⟩
      rw [← Nat.add_assoc]
      exact ih (by omega)

/-- Every instruction is what the decoder finds at its address. -/
theorem linearSweep_decoded (hdecoder : BuiltIn decoder)
    (hfit : address.toNat + bytesOf (linearSweep decoder left data address) <
      2 ^ 64)
    (hmem : instruction ∈ linearSweep decoder left data address) :
    decoder (data.drop (instruction.address.toNat - address.toNat))
      instruction.address = .ok instruction := by
  induction left, data, address using linearSweep_induction decoder with
  | stop left data address hstop =>
      rw [hstop] at hmem
      contradiction
  | step left data address head hdecode hsweep ih =>
      have hdecoded := hdecoder.decodedFrom hdecode
      rw [hsweep, bytesOf_cons] at hfit
      rw [hsweep] at hmem
      have haddress := toNat_add_size address head (by omega)
      rw [haddress] at ih
      rcases List.mem_cons.mp hmem with rfl | hmem
      · rw [hdecoded.address, Nat.sub_self]
        exact hdecode
      · have htiles := linearSweep_tiles hdecoder left
          (data.drop head.size.toNat) (address + head.size.toUInt64) (by omega)
        have hbehind := (htiles.within hmem).1
        have hfound := ih (by omega) hmem
        rw [List.drop_drop] at hfound
        rw [haddress] at hbehind
        have hoffset : head.size.toNat +
            (instruction.address.toNat -
              (address.toNat + head.size.toNat)) =
            instruction.address.toNat - address.toNat := by omega
        rw [← hoffset]
        exact hfound

theorem length_linearSweep_le (decoder : Disassembler) (left : ℕ)
    (data : Bytes) (address : UInt64) :
    (linearSweep decoder left data address).length ≤ left := by
  induction left, data, address using linearSweep_induction decoder with
  | stop left data address hstop =>
      rw [hstop]
      exact Nat.zero_le _
  | step left data address instruction hdecode hsweep ih =>
      rw [hsweep]
      exact Nat.succ_le_succ ih

theorem bytesOf_linearSweep_le (hdecoder : BuiltIn decoder) (left : ℕ)
    (data : Bytes) (address : UInt64) :
    bytesOf (linearSweep decoder left data address) ≤ 16 * left := by
  induction left, data, address using linearSweep_induction decoder with
  | stop left data address hstop =>
      rw [hstop]
      exact Nat.zero_le _
  | step left data address instruction hdecode hsweep ih =>
      have hsmall := (hdecoder.decodedFrom hdecode).small
      rw [hsweep, bytesOf_cons]
      omega

theorem bytesOf_linearSweep_inside (hdecoder : BuiltIn decoder) (left : ℕ)
    (data : Bytes) (address : UInt64) :
    bytesOf (linearSweep decoder left data address) ≤ data.length := by
  induction left, data, address using linearSweep_induction decoder with
  | stop left data address hstop =>
      rw [hstop]
      exact Nat.zero_le _
  | step left data address instruction hdecode hsweep ih =>
      have hinside := (hdecoder.decodedFrom hdecode).inside
      rw [List.length_drop] at ih
      rw [hsweep, bytesOf_cons]
      omega

theorem add_size_add (n : ℕ) :
    address + instruction.size.toUInt64 + UInt64.ofNat n =
      address + UInt64.ofNat (instruction.size.toNat + n) := by
  rw [UInt64.ofNat_add, UInt64.ofNat_uInt8ToNat, UInt64.add_assoc]

/-- The instructions end where the limit, the input or the decoder says. -/
theorem linearSweep_stopped (decoder : Disassembler) (left : ℕ) (data : Bytes)
    (address : UInt64) :
    (linearSweep decoder left data address).length = left ∨
      data.drop (bytesOf (linearSweep decoder left data address)) = [] ∨
      ∃ why, decoder
        (data.drop (bytesOf (linearSweep decoder left data address)))
        (address + UInt64.ofNat
          (bytesOf (linearSweep decoder left data address))) = .error why := by
  fun_induction linearSweep decoder left data address with
  | case1 => exact .inl rfl
  | case2 => exact .inr (.inl rfl)
  | case3 left data address hdata why hdecode =>
      refine .inr (.inr ⟨why, ?_⟩)
      simpa using hdecode
  | case4 left data address hdata instruction hdecode ih =>
      rw [List.drop_drop, add_size_add] at ih
      simpa only [bytesOf_cons, List.length_cons, Nat.succ_eq_add_one,
        Nat.add_right_cancel_iff] using ih

namespace DisassemblyAnalyzer

/-- The loop of the analyzer is the linear sweep from its offset on. -/
theorem sweepLoop_eq (hdecoder : BuiltIn decoder) {rounds : ℕ}
    {sweep final : Sweep} (hrounds : data.length ≤ sweep.offset + rounds)
    (hsweep : sweepLoop limits data address decoder rounds sweep = .ok final) :
    final.instructions = sweep.instructions ++
        linearSweep decoder
          (limits.maxDisassemblyInstructions.toNat - sweep.instructions.length)
          (data.drop sweep.offset) (address + UInt64.ofNat sweep.offset) ∧
      final.offset = sweep.offset + bytesOf
        (linearSweep decoder
          (limits.maxDisassemblyInstructions.toNat - sweep.instructions.length)
          (data.drop sweep.offset) (address + UInt64.ofNat sweep.offset)) := by
  induction rounds generalizing sweep with
  | zero =>
      cases hsweep
      rw [List.drop_of_length_le (by omega)]
      simp
  | succ rounds ih =>
      rw [sweepLoop] at hsweep
      split_ifs at hsweep with hmore
      · obtain ⟨hoffset, hcount⟩ := hmore
        obtain ⟨instructionAddress, haddress, hsweep⟩ :=
          demand_except_bind_eq_ok.mp hsweep
        obtain ⟨-, rfl⟩ := checkedAdd_eq_some.mp haddress
        split at hsweep
        next why hdecode =>
          cases hsweep
          rw [linearSweep_of_error hdecode]
          simp
        next instruction hdecode =>
          obtain ⟨-, hsweep⟩ := rejectIf_except_bind_eq_ok.mp hsweep
          have hdecoded := hdecoder.decodedFrom hdecode
          have hdata : data.drop sweep.offset ≠ [] := by
            rw [ne_eq, List.drop_eq_nil_iff]
            omega
          have hpositive := hdecoded.positive
          obtain ⟨hinstructions, hend⟩ := ih (by simp only; omega) hsweep
          have hleft : limits.maxDisassemblyInstructions.toNat -
              sweep.instructions.length =
            limits.maxDisassemblyInstructions.toNat -
              (sweep.instructions.length + 1) + 1 := by omega
          rw [hleft, linearSweep_succ hdata hdecode]
          simp only [List.length_append, List.length_singleton,
            ← List.drop_drop] at hinstructions hend
          rw [UInt64.ofNat_add, UInt64.ofNat_uInt8ToNat,
            ← UInt64.add_assoc] at hinstructions hend
          rw [hinstructions, hend]
          simp [Nat.add_assoc]
      · cases hsweep
        rcases not_and_or.mp hmore with hoffset | hcount
        · rw [List.drop_of_length_le (by omega)]
          simp
        · have hleft : limits.maxDisassemblyInstructions.toNat -
              final.instructions.length = 0 := by omega
          rw [hleft]
          simp [linearSweep]

/-! ## The report -/

/-- The instructions of the linear sweep of the input. -/
def decodedBy (limits : Limits) (data : Bytes) (address : UInt64)
    (decoder : Disassembler) : List Instruction :=
  linearSweep decoder limits.maxDisassemblyInstructions.toNat data address

/-- An instruction lies at its place in the input. -/
structure LiesIn (data : Bytes) (start : UInt64) (decoder : Disassembler)
    (instruction : Instruction) : Prop where
  positive : 1 ≤ instruction.size.toNat
  inside : instruction.size.toNat ≤
    data.length - (instruction.address.toNat - start.toNat)
  bytes : instruction.bytes.toList.take instruction.size.toNat =
    (data.drop (instruction.address.toNat - start.toNat)).take
      instruction.size.toNat
  decoded : decoder (data.drop (instruction.address.toNat - start.toNat))
    instruction.address = .ok instruction

/-- The instructions of the report tile the input as far as it is decoded. -/
structure TilesInput (limits : Limits) (data : Bytes) (address : UInt64)
    (decoder : Disassembler) (report : DisassemblyReport) : Prop where
  start : report.start = address
  contiguous : InstructionsTile report.start.toNat report.instructions
    report.last.toNat
  places : ∀ instruction ∈ report.instructions,
    LiesIn data address decoder instruction
  bytesDecoded : report.bytesDecoded = report.last - report.start
  sizes : report.bytesDecoded.toNat =
    (report.instructions.map fun instruction => instruction.size.toNat).sum
  stopped : report.bytesDecoded.toNat = data.length ∨
    report.instructions.length = limits.maxDisassemblyInstructions.toNat ∨
    ∃ why, decoder (data.drop report.bytesDecoded.toNat) report.last =
      .error why

variable {report : DisassemblyReport}

/-- What the stages of `analyze` hand on. -/
theorem analyze_ok (hdecoder : BuiltIn decoder)
    (hreport : analyze limits data address decoder = .ok report) :
    address.toNat + bytesOf report.instructions < 2 ^ 64 ∧
      report.instructions = decodedBy limits data address decoder ∧
      report.start = address ∧
      report.bytesDecoded = UInt64.ofNat (bytesOf report.instructions) ∧
      report.last = address + report.bytesDecoded ∧
      blocksFrom report.last report.instructions
          (marksOf address report.last report.instructions).instructionAt
          ((marksOf address report.last
            report.instructions).leaders.entries.map Prod.fst) =
        .ok report.blocks := by
  obtain ⟨sweep, hsweep, hreport⟩ := except_bind_eq_ok.mp hreport
  obtain ⟨last, hlast, hreport⟩ := demand_except_bind_eq_ok.mp hreport
  obtain ⟨blocks, hblocks, hreport⟩ := except_bind_eq_ok.mp hreport
  cases hreport
  obtain ⟨hinstructions, hoffset⟩ :=
    sweepLoop_eq hdecoder (Nat.le_add_left _ _) hsweep
  have hfirst : address + UInt64.ofNat 0 = address := by simp
  simp only [List.length_nil, Nat.sub_zero, List.drop_zero, List.nil_append,
    hfirst, Nat.zero_add] at hinstructions hoffset
  have hsmall : sweep.offset < 2 ^ 64 := by
    have hbytes := bytesOf_linearSweep_le hdecoder
      limits.maxDisassemblyInstructions.toNat data address
    have hlimit := limits.maxDisassemblyInstructions.toNat_lt
    omega
  obtain ⟨hfit, rfl⟩ := checkedAdd_eq_some.mp hlast
  rw [UInt64.toNat_ofNat', Nat.mod_eq_of_lt hsmall] at hfit
  rw [← hinstructions] at hoffset
  exact ⟨by rw [← hoffset]; exact hfit, hinstructions, rfl,
    by rw [← hoffset], rfl, hblocks⟩

/-- The linear sweep tiles the input. -/
theorem analyze_tilesInput (hdecoder : BuiltIn decoder)
    (hreport : analyze limits data address decoder = .ok report) :
    TilesInput limits data address decoder report := by
  obtain ⟨hfit, hinstructions, hstart, hbytes, hlast, -⟩ :=
    analyze_ok hdecoder hreport
  have hcount : report.bytesDecoded.toNat = bytesOf report.instructions := by
    rw [hbytes, UInt64.toNat_ofNat', Nat.mod_eq_of_lt (by omega)]
  have hend : report.last.toNat =
      address.toNat + bytesOf report.instructions := by
    rw [hlast, toNat_add_of_fit (by omega), hcount]
  have htiles : InstructionsTile address.toNat report.instructions
      report.last.toNat := by
    rw [hend, hinstructions]
    apply linearSweep_tiles hdecoder
    rw [← decodedBy, ← hinstructions]
    exact hfit
  constructor
  · exact hstart
  · rw [hstart]
    exact htiles
  · intro instruction hmem
    have hdecode : decoder
        (data.drop (instruction.address.toNat - address.toNat))
        instruction.address = .ok instruction := by
      rw [hinstructions] at hfit hmem
      exact linearSweep_decoded hdecoder hfit hmem
    have hdecoded := hdecoder.decodedFrom hdecode
    have hinside := hdecoded.inside
    rw [List.length_drop] at hinside
    exact ⟨hdecoded.positive, hinside, hdecoded.bytes, hdecode⟩
  · rw [hstart, hlast, UInt64.add_comm, UInt64.add_sub_cancel]
  · exact hcount
  · have hstop := linearSweep_stopped decoder
      limits.maxDisassemblyInstructions.toNat data address
    rw [← decodedBy, ← hinstructions, ← hbytes, ← hlast, ← hcount] at hstop
    rcases hstop with hlimit | hempty | herror
    · exact .inr (.inl hlimit)
    · have hinside := bytesOf_linearSweep_inside hdecoder
        limits.maxDisassemblyInstructions.toNat data address
      rw [← decodedBy, ← hinstructions, ← hcount] at hinside
      rw [List.drop_eq_nil_iff] at hempty
      exact .inl (le_antisymm hinside hempty)
    · exact .inr (.inr herror)

/-- A conditional jump over one instruction. -/
def branchCode : Bytes := [0x90, 0x74, 0x01, 0x90, 0xc3]

theorem branchCode_analyzed :
    ∃ report, analyze {} branchCode 0x4000 X86Disassembler.decode =
      .ok report := by
  have hany : (analyze {} branchCode 0x4000
      X86Disassembler.decode).toOption.any fun _ => True := by
    decide +kernel
  obtain ⟨report, hreport, -⟩ := exists_ok_of_any hany
  exact ⟨report, hreport⟩

theorem branchCode_tilesInput :
    ∃ report, analyze {} branchCode 0x4000 X86Disassembler.decode =
        .ok report ∧
      TilesInput {} branchCode 0x4000 X86Disassembler.decode report := by
  obtain ⟨report, hreport⟩ := branchCode_analyzed
  exact ⟨report, hreport, analyze_tilesInput .x86 hreport⟩

end DisassemblyAnalyzer

end

end BinForge
