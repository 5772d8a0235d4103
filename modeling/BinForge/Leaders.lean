import BinForge.LinearSweep

/-!
# The leaders

The leaders of a report are its start, the targets of its instructions inside
the decoded range, and the addresses behind branches that may fall through.
The analyzer collects them in two loops, together with the places of the
instructions, which lie at increasing addresses.
-/

namespace OrderedMap

variable {κ α : Type} [LinearOrder κ] {map : OrderedMap κ α}

theorem mem_keys_emplace {key other : κ} {value : α} :
    other ∈ (map.emplace key value).entries.map Prod.fst ↔
      other = key ∨ other ∈ map.entries.map Prod.fst := by
  by_cases habsent : ∀ entry ∈ map.entries, entry.1 ≠ key
  · rw [((emplace_perm value habsent).map Prod.fst).mem_iff, List.map_cons,
      List.mem_cons]
  · rw [emplace, dif_neg habsent]
    push Not at habsent
    obtain ⟨entry, hentry, hkey⟩ := habsent
    constructor
    · exact .inr
    · rintro (rfl | hother)
      · exact List.mem_map.mpr ⟨entry, hentry, hkey⟩
      · exact hother

/-- Assigning to a new key adds an entry. -/
theorem mem_assign {key : κ} {value : α} {entry : κ × α}
    (habsent : ∀ entry ∈ map.entries, entry.1 ≠ key) :
    entry ∈ (map.assign key value).entries ↔
      entry = (key, value) ∨ entry ∈ map.entries := by
  rw [assign, mem_adjust]
  simp only [mem_emplace habsent]
  constructor
  · rintro (⟨rfl | hmem, hkey⟩ | ⟨-, -, rfl⟩)
    · exact absurd rfl hkey
    · exact .inr hmem
    · exact .inl rfl
  · rintro (rfl | hmem)
    · exact .inr ⟨value, .inl rfl, rfl⟩
    · exact .inl ⟨.inr hmem, habsent entry hmem⟩

end OrderedMap

namespace BinForge

open StatefulExcept
open BinaryLoader
open Tiling

namespace DisassemblyAnalyzer

/-- The addresses of the leaders in order. -/
abbrev keysOf (leaders : OrderedMap UInt64 Unit) : List UInt64 :=
  leaders.entries.map Prod.fst

/-- Where a block may begin. -/
def Leads (start last : UInt64) (instructions : List Instruction)
    (address : UInt64) : Prop :=
  address = start ∨
    (∃ instruction ∈ instructions, instruction.target = some address ∧
      start ≤ address ∧ address < last) ∨
    ∃ instruction ∈ instructions, instruction.branch = true ∧
      ¬instruction.terminal = true ∧
      Instruction.behind? instruction = some address

variable {start last address : UInt64} {instructions : List Instruction}
  {instruction : Instruction}

theorem mem_insertLeader {leaders : OrderedMap UInt64 Unit}
    {leader : UInt64} :
    address ∈ keysOf (insertLeader leaders leader) ↔
      address = leader ∨ address ∈ keysOf leaders :=
  OrderedMap.mem_keys_emplace

theorem mem_insertIf {leaders : OrderedMap UInt64 Unit} {leader : UInt64}
    {condition : Prop} [Decidable condition] :
    address ∈ keysOf
        (if condition then insertLeader leaders leader else leaders) ↔
      address ∈ keysOf leaders ∨ condition ∧ address = leader := by
  split_ifs with hcondition
  · rw [mem_insertLeader]
    simp only [hcondition, true_and]
    exact or_comm
  · simp only [hcondition, false_and, or_false]

/-! ## Instructions in a row -/

theorem toNat_behind {behind : UInt64}
    (hbehind : Instruction.behind? instruction = some behind) :
    behind.toNat = instruction.address.toNat + instruction.size.toNat := by
  rw [checkedAdd_toNat hbehind, UInt8.toNat_toUInt64]

theorem behind_of_tile
    (htiles : InstructionsTile start.toNat instructions last.toNat)
    (hmem : instruction ∈ instructions) :
    ∃ behind, Instruction.behind? instruction = some behind ∧
      start < behind ∧ behind ≤ last := by
  obtain ⟨hstart, hpositive, hlast⟩ := htiles.within hmem
  have hfit : instruction.address.toNat +
      instruction.size.toUInt64.toNat < 2 ^ 64 := by
    have hbound := last.toNat_lt
    rw [UInt8.toNat_toUInt64]
    omega
  refine ⟨_, checkedAdd_of_fit hfit, ?_⟩
  have hsum := toNat_behind (checkedAdd_of_fit hfit)
  rw [UInt64.lt_iff_toNat_lt, UInt64.le_iff_toNat_le]
  omega

/-! ## The first loop -/

/-- What the loop has collected: a leader is one of the leaders, and no
fallthrough of the instructions behind it is missing. -/
structure Collected (start last : UInt64) (instructions seen : List Instruction)
    (marks : Marks) : Prop where
  sound : ∀ address ∈ keysOf marks.leaders,
    Leads start last instructions address
  start : start ∈ keysOf marks.leaders
  behind : ∀ instruction ∈ seen, instruction.branch = true →
    ¬instruction.terminal = true → ∀ address,
      Instruction.behind? instruction = some address →
        address ∈ keysOf marks.leaders
  places : ∀ entry, entry ∈ marks.instructionAt.entries ↔
    ∃ instruction, seen[entry.2]? = some instruction ∧
      instruction.address = entry.1

theorem getElem?_concat_iff {seen : List Instruction} {index : ℕ}
    {found : Instruction} :
    (seen ++ [instruction])[index]? = some found ↔
      seen[index]? = some found ∨
        index = seen.length ∧ instruction = found := by
  rcases lt_trichotomy index seen.length with hlt | rfl | hgt
  · rw [List.getElem?_append_left hlt]
    simp [hlt.ne]
  · simp
  · have hpast : seen.length + 1 ≤ index := hgt
    simp [List.getElem?_eq_none, hpast, hgt.le, hgt.ne']

theorem mem_noteSeenTarget {instructionAt : OrderedMap UInt64 ℕ}
    {leaders : OrderedMap UInt64 Unit} :
    address ∈ keysOf (noteSeenTarget instructionAt leaders instruction) ↔
      address ∈ keysOf leaders ∨
        instruction.target = some address ∧
          instructionAt.contains address = true := by
  unfold noteSeenTarget
  cases instruction.target with
  | none => simp
  | some target =>
      simp only [Option.some.injEq]
      apply mem_insertIf.trans
      constructor
      · rintro (hmem | ⟨hcontains, rfl⟩)
        · exact .inl hmem
        · exact .inr ⟨rfl, hcontains⟩
      · rintro (hmem | ⟨rfl, hcontains⟩)
        · exact .inl hmem
        · exact .inr ⟨hcontains, rfl⟩

/-- What a round does to the leaders. -/
theorem mem_noteInstruction {marks : Marks} {index : ℕ}
    {fallthrough : UInt64}
    (hbehind : Instruction.behind? instruction = some fallthrough) :
    address ∈ keysOf (noteInstruction marks (instruction, index)).leaders ↔
      (address ∈ keysOf marks.leaders ∨
        instruction.target = some address ∧
          (marks.instructionAt.assign instruction.address index).contains
            address = true) ∨
      (instruction.branch = true ∧ ¬instruction.terminal = true) ∧
        address = fallthrough := by
  simp only [noteInstruction, hbehind, Option.elim_some, noteFallthrough]
  apply mem_insertIf.trans
  exact or_congr_left mem_noteSeenTarget

/-- Later instructions start behind the ones seen so far. -/
theorem Collected.address_ne {seen rest : List Instruction} {marks : Marks}
    (hseen : Collected start last instructions seen marks)
    (htiles : InstructionsTile start.toNat instructions last.toNat)
    (hsplit : instructions = seen ++ instruction :: rest) :
    ∀ entry ∈ marks.instructionAt.entries,
      entry.1 ≠ instruction.address := by
  intro entry hentry hsame
  obtain ⟨earlier, hearlier, haddress⟩ := (hseen.places entry).mp hentry
  have hbefore : earlier ∈ seen := List.mem_of_getElem? hearlier
  rw [hsplit] at htiles
  have hwithin := htiles.around.1.within hbefore
  rw [haddress, hsame] at hwithin
  omega

/-- What a round does to the places. -/
theorem Collected.places_assign {seen : List Instruction} {marks : Marks}
    (hseen : Collected start last instructions seen marks)
    (hnew : ∀ entry ∈ marks.instructionAt.entries,
      entry.1 ≠ instruction.address) (entry : UInt64 × ℕ) :
    entry ∈ (marks.instructionAt.assign instruction.address
        seen.length).entries ↔
      ∃ found, (seen ++ [instruction])[entry.2]? = some found ∧
        found.address = entry.1 := by
  rw [OrderedMap.mem_assign hnew, hseen.places]
  simp only [getElem?_concat_iff]
  constructor
  · rintro (rfl | ⟨found, hfound, haddress⟩)
    · exact ⟨instruction, .inr ⟨rfl, rfl⟩, rfl⟩
    · exact ⟨found, .inl hfound, haddress⟩
  · rintro ⟨found, hfound | ⟨hindex, rfl⟩, haddress⟩
    · exact .inr ⟨found, hfound, haddress⟩
    · exact .inl (Prod.ext haddress.symm hindex)

theorem Collected.step {seen rest : List Instruction} {marks : Marks}
    (hseen : Collected start last instructions seen marks)
    (htiles : InstructionsTile start.toNat instructions last.toNat)
    (hsplit : instructions = seen ++ instruction :: rest) :
    Collected start last instructions (seen ++ [instruction])
      (noteInstruction marks (instruction, seen.length)) := by
  have hmem : instruction ∈ instructions := by
    rw [hsplit]
    exact List.mem_append_right _ List.mem_cons_self
  obtain ⟨fallthrough, hbehind, -, hinside⟩ := behind_of_tile htiles hmem
  have hplaces := hseen.places_assign (hseen.address_ne htiles hsplit)
  constructor
  · intro address haddress
    rcases (mem_noteInstruction hbehind).mp haddress with
      (hmem | ⟨htarget, hcontains⟩) | ⟨⟨hbranch, hterminal⟩, rfl⟩
    · exact hseen.sound address hmem
    · obtain ⟨index, hfind⟩ := Option.isSome_iff_exists.mp hcontains
      obtain ⟨found, hfound, rfl⟩ :=
        (hplaces _).mp (OrderedMap.find?_eq_some.mp hfind)
      have hfoundMem : found ∈ instructions := by
        rw [hsplit, ← List.singleton_append, ← List.append_assoc]
        exact List.mem_append_left _ (List.mem_of_getElem? hfound)
      obtain ⟨hstart, hpositive, hlast⟩ := htiles.within hfoundMem
      refine .inr (.inl ⟨instruction, hmem, htarget, ?_, ?_⟩)
      · rw [UInt64.le_iff_toNat_le]
        exact hstart
      · rw [UInt64.lt_iff_toNat_lt]
        omega
    · exact .inr (.inr ⟨instruction, hmem, hbranch, hterminal, hbehind⟩)
  · exact (mem_noteInstruction hbehind).mpr (.inl (.inl hseen.start))
  · intro found hfound hbranch hterminal address haddress
    rcases List.mem_append.mp hfound with hfound | hfound
    · exact (mem_noteInstruction hbehind).mpr
        (.inl (.inl
          (hseen.behind found hfound hbranch hterminal address haddress)))
    · rw [List.mem_singleton.mp hfound] at hbranch hterminal haddress
      rw [hbehind] at haddress
      exact (mem_noteInstruction hbehind).mpr
        (.inr ⟨⟨hbranch, hterminal⟩, (Option.some.inj haddress).symm⟩)
  · intro entry
    rw [← hplaces entry]
    simp only [noteInstruction]

theorem Collected.run {seen rest : List Instruction} {marks : Marks}
    (hseen : Collected start last instructions seen marks)
    (htiles : InstructionsTile start.toNat instructions last.toNat)
    (hsplit : instructions = seen ++ rest) :
    Collected start last instructions instructions
      ((rest.zipIdx seen.length).foldl noteInstruction marks) := by
  induction rest generalizing seen marks with
  | nil =>
      rw [List.append_nil] at hsplit
      rw [hsplit]
      rw [hsplit] at hseen
      exact hseen
  | cons instruction rest ih =>
      have hstep := hseen.step htiles hsplit
      rw [List.zipIdx_cons, List.foldl_cons]
      have hlength : seen.length + 1 = (seen ++ [instruction]).length := by
        simp
      rw [hlength]
      apply ih hstep
      rw [hsplit, List.append_assoc, List.singleton_append]

theorem collected_start : Collected start last instructions []
    { leaders := insertLeader OrderedMap.empty start
      instructionAt := OrderedMap.empty } where
  sound := by
    intro address haddress
    rcases mem_insertLeader.mp haddress with rfl | hnone
    · exact .inl rfl
    · simp [keysOf, OrderedMap.empty] at hnone
  start := mem_insertLeader.mpr (.inl rfl)
  behind := by
    intro instruction hinstruction
    contradiction
  places := by
    intro entry
    simp [OrderedMap.empty]

/-! ## The second loop -/

theorem mem_noteTarget {leaders : OrderedMap UInt64 Unit} :
    address ∈ keysOf (noteTarget start last leaders instruction) ↔
      address ∈ keysOf leaders ∨
        instruction.target = some address ∧ start ≤ address ∧
          address < last := by
  unfold noteTarget
  cases instruction.target with
  | none => simp
  | some target =>
      simp only [Option.some.injEq, ge_iff_le]
      apply mem_insertIf.trans
      constructor
      · rintro (hmem | ⟨hinside, rfl⟩)
        · exact .inl hmem
        · exact .inr ⟨rfl, hinside⟩
      · rintro (hmem | ⟨rfl, hinside⟩)
        · exact .inl hmem
        · exact .inr ⟨hinside, rfl⟩

theorem mem_foldl_noteTarget {leaders : OrderedMap UInt64 Unit} :
    address ∈ keysOf (instructions.foldl (noteTarget start last) leaders) ↔
      address ∈ keysOf leaders ∨
        ∃ instruction ∈ instructions, instruction.target = some address ∧
          start ≤ address ∧ address < last := by
  induction instructions generalizing leaders with
  | nil => simp
  | cons instruction instructions ih =>
      rw [List.foldl_cons, ih, mem_noteTarget]
      simp only [List.exists_mem_cons_iff, or_assoc]

/-! ## Both loops -/

variable (htiles : InstructionsTile start.toNat instructions last.toNat)
include htiles

theorem marksOf_collected : Collected start last instructions instructions
    (instructions.zipIdx.foldl noteInstruction
      { leaders := insertLeader OrderedMap.empty start
        instructionAt := OrderedMap.empty }) :=
  collected_start.run htiles rfl

/-- The places of the instructions. -/
theorem marksOf_find? {index : ℕ} :
    (marksOf start last instructions).instructionAt.find? address =
        some index ↔
      ∃ instruction, instructions[index]? = some instruction ∧
        instruction.address = address := by
  rw [OrderedMap.find?_eq_some]
  exact (marksOf_collected htiles).places (address, index)

theorem mem_leaders :
    address ∈ keysOf (marksOf start last instructions).leaders ↔
      Leads start last instructions address := by
  have hcollected := marksOf_collected htiles
  simp only [marksOf]
  rw [mem_foldl_noteTarget]
  constructor
  · rintro (hmem | htarget)
    · exact hcollected.sound address hmem
    · exact .inr (.inl htarget)
  · rintro (rfl | htarget | ⟨instruction, hmem, hbranch, hterminal, hbehind⟩)
    · exact .inl hcollected.start
    · exact .inr htarget
    · exact .inl (hcollected.behind instruction hmem hbranch hterminal address
        hbehind)

end DisassemblyAnalyzer
end BinForge
