import BinForge.LoadFailure
import BinForge.StoredInteger

/-!
# PC-relative relocations

The displacement of a PC-relative relocation is a signed number.  The processor
computes it modulo `2 ^ 64` and accepts what is below `2 ^ 32`, so it accepts
displacements that do not fit a signed word and refuses the negative ones.
-/

namespace BinForge

open StatefulExcept
open AddressSpace

namespace RelocationProcessor

variable {image : BinaryImage} {bias target symbol : UInt64}
  {resolver : Option SymbolResolver} {memory : AddressSpace}
  {relocation : Relocation}

/-- The distance from the target to symbol plus addend. -/
def displacement (symbol : UInt64) (addend : Int64) (target : UInt64) : ℤ :=
  symbol.toNat + addend.toInt - target.toNat

def Signed32 (value : ℤ) : Prop := -2 ^ 31 ≤ value ∧ value < 2 ^ 31

instance (value : ℤ) : Decidable (Signed32 value) :=
  inferInstanceAs (Decidable (_ ∧ _))

/-- A value of the signed range is stored in two's complement, any other value
is refused without a trace. -/
def StoresSigned (relocation : Relocation) (image : BinaryImage)
    (bias : UInt64) (resolver : Option SymbolResolver) (memory : AddressSpace)
    (target : UInt64) (value : ℤ) : Prop :=
  (Signed32 value →
    ∃ next, applyOne relocation image bias resolver memory = .ok () next ∧
      ((storedInteger next image.header.byteOrder target 4).toNat : ℤ) =
        value % 2 ^ 32) ∧
    (¬Signed32 value →
      ∃ why, applyOne relocation image bias resolver memory =
        .error why memory)

theorem toInt_eq_toNat (value : Int64) :
    value.toInt = value.toUInt64.toNat ∨
      value.toInt = value.toUInt64.toNat - 2 ^ 64 := by
  have hcases := BitVec.toInt_eq_toNat_cond (x := value.toBitVec)
  rw [Int64.toInt_toBitVec, Int64.toNat_toBitVec] at hcases
  split_ifs at hcases
  · exact Or.inl hcases
  · exact Or.inr hcases

/-- The machine computes the displacement modulo `2 ^ 64`. -/
theorem displacement_emod (symbol target : UInt64) (addend : Int64) :
    ((symbol + addend.toUInt64 - target).toNat : ℤ) =
      displacement symbol addend target % 2 ^ 64 := by
  have hsymbol := symbol.toNat_lt
  have htarget := target.toNat_lt
  have haddend := addend.toUInt64.toNat_lt
  unfold displacement
  rw [UInt64.toNat_sub, UInt64.toNat_add]
  rcases toInt_eq_toNat addend with hsigned | hsigned <;>
    rw [hsigned] <;>
    omega

/-- What a PC-relative relocation of a mapped word does: a check of the value
modulo `2 ^ 64`, and the store. -/
theorem applyOne_pcRelative (hkind : relocation.kind = .pcRelative32)
    (hwidth : relocation.width = 4 ∨ relocation.width = 0)
    (htarget : checkedAdd relocation.offset bias = some target)
    (hsymbol : symbolValue relocation image bias target resolver =
      .ok symbol) :
    applyOne relocation image bias resolver memory =
      if 2 ^ 32 ≤ (symbol + relocation.addend.toUInt64 - target).toNat then
        .error (failure .addressOverflow target
          "relocation result does not fit") memory
      else
        writeInteger target 4 image.header.byteOrder
          (symbol + relocation.addend.toUInt64 - target) true memory := by
  have hvalue : computeValue relocation bias target symbol =
      .ok (some (symbol + relocation.addend.toUInt64 - target, 4)) := by
    unfold computeValue
    rcases hwidth with hwidth | hwidth <;>
      simp [hkind, hwidth, defaultWidth]
  unfold applyOne
  rw [demand_bind_of_some htarget, liftExcept_bind_of_ok hsymbol,
    liftExcept_bind_of_ok hvalue]
  dsimp only
  split_ifs with hlarge
  · rw [bind_apply, rejectIf_of _ _ ⟨by decide, hlarge⟩]
  · exact rejectIf_bind_of_not fun hover => hlarge hover.2

/-- The signed range is served exactly where the displacement is not negative,
and what lies outside is refused exactly when it does not wrap into the low
`2 ^ 32` values. -/
theorem pcRelative_signed_iff (hmemory : memory.Reachable)
    (hkind : relocation.kind = .pcRelative32)
    (hwidth : relocation.width = 4 ∨ relocation.width = 0)
    (htarget : checkedAdd relocation.offset bias = some target)
    (hsymbol : symbolValue relocation image bias target resolver = .ok symbol)
    (hmapped : Mapped memory target 4) :
    StoresSigned relocation image bias resolver memory target
        (displacement symbol relocation.addend target) ↔
      (0 ≤ displacement symbol relocation.addend target ∧
          displacement symbol relocation.addend target < 2 ^ 31) ∨
        (¬Signed32 (displacement symbol relocation.addend target) ∧
          2 ^ 32 ≤ displacement symbol relocation.addend target % 2 ^ 64) := by
  have hrun := @applyOne_pcRelative _ _ _ _ _ memory _ hkind hwidth htarget
    hsymbol
  have hwrapped := displacement_emod symbol target relocation.addend
  generalize displacement symbol relocation.addend target = value at *
  generalize symbol + relocation.addend.toUInt64 - target = stored at *
  unfold StoresSigned Signed32
  by_cases hlarge : 2 ^ 32 ≤ stored.toNat
  · -- The value is refused.
    rw [if_pos hlarge] at hrun
    constructor
    · rintro ⟨hserved, _⟩
      right
      refine ⟨fun hsigned => ?_, by omega⟩
      obtain ⟨next, hnext, _⟩ := hserved hsigned
      rw [hrun] at hnext
      contradiction
    · intro hcondition
      refine ⟨fun hsigned => ?_, fun _ => ⟨_, hrun⟩⟩
      omega
  · -- The value is stored.
    rw [if_neg hlarge] at hrun
    have hfits : stored.toNat < 256 ^ (4 : UInt8).toNat := by
      show stored.toNat < 256 ^ 4
      omega
    obtain ⟨next, hwrite, _, hstored⟩ := writeInteger_mapped hmemory.wellFormed
      image.header.byteOrder rfl hmapped hfits
    rw [hwrite] at hrun
    rw [hrun]
    constructor
    · rintro ⟨hserved, hrefused⟩
      by_cases hsigned : -2 ^ 31 ≤ value ∧ value < 2 ^ 31
      · left
        obtain ⟨after, hafter, hword⟩ := hserved hsigned
        injection hafter with _ hstate
        rw [← hstate, hstored] at hword
        omega
      · obtain ⟨why, hwhy⟩ := hrefused hsigned
        contradiction
    · intro hcondition
      refine ⟨fun hsigned => ⟨next, rfl, ?_⟩, fun hunsigned => ?_⟩
      · rw [hstored]
        omega
      · omega

/-- The word at `0x1000` refers to the first symbol. -/
def wordReference : Relocation :=
  { kind := .pcRelative32, symbolIndex := 1, offset := 0x1000, width := 4 }

/-- A reference sixteen bytes forward is stored. -/
theorem pcRelative_signed_iff_forward :
    let memory := (new {}).run [.map 0x1000 0x10 permissionRead "code"]
    let image : BinaryImage := { symbols := [{}, { value := 0x1010 }] }
    StoresSigned wordReference image 0 none memory 0x1000 0x10 := by
  intro memory image
  have hmapped : Mapped memory 0x1000 4 := by decide +kernel
  have hsymbol : symbolValue wordReference image 0 0x1000 none =
      .ok 0x1010 := by
    decide +kernel
  exact (pcRelative_signed_iff ⟨_, _, rfl⟩ rfl (Or.inl rfl)
    (by decide +kernel) hsymbol hmapped).mpr (Or.inl (by decide))

/-- A reference four bytes back is refused. -/
theorem pcRelative_refuses_backward :
    ¬∀ (relocation : Relocation) (image : BinaryImage) (bias : UInt64)
      (resolver : Option SymbolResolver) (memory : AddressSpace)
      (target symbol : UInt64), memory.Reachable →
      relocation.kind = .pcRelative32 → relocation.width = 4 →
      checkedAdd relocation.offset bias = some target →
      symbolValue relocation image bias target resolver = .ok symbol →
      Mapped memory target 4 →
      StoresSigned relocation image bias resolver memory target
        (displacement symbol relocation.addend target) := by
  intro hlaw
  let memory := (new {}).run [.map 0x1000 0x10 permissionRead "code"]
  let image : BinaryImage := { symbols := [{}, { value := 0xffc }] }
  have hmapped : Mapped memory 0x1000 4 := by decide +kernel
  have htarget : checkedAdd wordReference.offset 0 = some 0x1000 := by
    decide +kernel
  have hsymbol : symbolValue wordReference image 0 0x1000 none = .ok 0xffc := by
    decide +kernel
  obtain ⟨hserved, _⟩ := hlaw wordReference image 0 none memory 0x1000 0xffc
    ⟨_, _, rfl⟩ rfl rfl htarget hsymbol hmapped
  obtain ⟨next, hrun, _⟩ := hserved (by decide)
  rw [applyOne_pcRelative rfl (Or.inl rfl) htarget hsymbol,
    if_pos (by decide)] at hrun
  contradiction

end RelocationProcessor
end BinForge
