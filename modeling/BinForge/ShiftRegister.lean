import Mathlib

/-!
# Linear feedback shift registers

A register of `w` bits is shifted down one place at a time; a bit that falls
out at the low end feeds the taps back in.  One step is linear over exclusive
or and, when the highest tap is set, injective.  Absorbing a run of blocks is
therefore the same as absorbing their packing in one go, and as long as the
packing fits into the register no two runs of one length lead to the same
state.
-/

namespace ShiftRegister

variable {w : ℕ} (taps : BitVec w)

def step (state : BitVec w) : BitVec w :=
  (state >>> 1) ^^^ (if state.getLsbD 0 then taps else 0#w)

/-- Absorb a block of `k` bits. -/
def absorb (k : ℕ) (state block : BitVec w) : BitVec w :=
  (step taps)^[k] (state ^^^ block)

/-- The blocks side by side, the first one lowest. -/
def pack (k : ℕ) : List (BitVec w) → BitVec w
  | [] => 0#w
  | block :: blocks => block ^^^ (pack k blocks <<< k)

/-! ## One step -/

theorem step_xor (left right : BitVec w) :
    step taps (left ^^^ right) = step taps left ^^^ step taps right := by
  have hfeedback : ∀ a b : Bool, (if a ^^ b then taps else 0#w) =
      (if a then taps else 0#w) ^^^ (if b then taps else 0#w) := by
    intro a b
    cases a <;> cases b <;> simp
  unfold step
  rw [BitVec.ushiftRight_xor_distrib, BitVec.getLsbD_xor, hfeedback]
  ac_rfl

variable {taps}

/-- The highest bit of the successor tells whether the taps were fed back. -/
theorem eq_zero_of_step_eq_zero (htaps : taps.msb = true) {state : BitVec w}
    (hstep : step taps state = 0#w) : state = 0#w := by
  have hpositive : 0 < w := by
    rw [BitVec.msb_eq_getLsbD_last] at htaps
    exact Nat.pos_of_ne_zero fun hzero => by simp [hzero] at htaps
  unfold step at hstep
  have hlow : state.getLsbD 0 = false := by
    by_contra hset
    rw [Bool.not_eq_false] at hset
    rw [if_pos hset] at hstep
    have hhigh := congrArg BitVec.msb hstep
    rw [BitVec.msb_xor, htaps, BitVec.msb_ushiftRight] at hhigh
    simp at hhigh
  rw [hlow, if_neg Bool.false_ne_true, BitVec.xor_zero] at hstep
  refine BitVec.eq_of_getLsbD_eq fun i hi => ?_
  cases i with
  | zero => simp [hlow]
  | succ i =>
      have hbit := congrArg (fun bits => bits.getLsbD i) hstep
      simpa [BitVec.getLsbD_ushiftRight, Nat.add_comm] using hbit

theorem step_injective (htaps : taps.msb = true) :
    Function.Injective (step taps) := by
  intro left right hsame
  have hdifference : step taps (left ^^^ right) = 0#w := by
    rw [step_xor, hsame, BitVec.xor_self]
  exact BitVec.xor_eq_zero_iff.mp (eq_zero_of_step_eq_zero htaps hdifference)

/-! ## Several steps -/

theorem iterate_xor (n : ℕ) (left right : BitVec w) :
    (step taps)^[n] (left ^^^ right) =
      (step taps)^[n] left ^^^ (step taps)^[n] right := by
  induction n generalizing left right with
  | zero => rfl
  | succ n ih => rw [Function.iterate_succ_apply, step_xor, ih]; rfl

theorem shiftLeft_toNat {n : ℕ} {bits : BitVec w} (hn : n ≤ w)
    (hbits : bits.toNat < 2 ^ (w - n)) :
    (bits <<< n).toNat = bits.toNat * 2 ^ n := by
  have hlt : bits.toNat * 2 ^ n < 2 ^ w := by
    calc bits.toNat * 2 ^ n < 2 ^ (w - n) * 2 ^ n :=
          Nat.mul_lt_mul_of_pos_right hbits (Nat.two_pow_pos n)
      _ = 2 ^ w := by rw [← pow_add, Nat.sub_add_cancel hn]
  rw [BitVec.toNat_shiftLeft, Nat.shiftLeft_eq, Nat.mod_eq_of_lt hlt]

/-- A state with a clear low bit only moves down. -/
theorem step_shiftLeft_one {bits : BitVec w} (hw : 1 ≤ w)
    (hbits : bits.toNat < 2 ^ (w - 1)) : step taps (bits <<< 1) = bits := by
  have hshift := shiftLeft_toNat hw hbits
  rw [pow_one] at hshift
  have hlow : (bits <<< 1).getLsbD 0 = false := by simp
  rw [step, hlow, if_neg Bool.false_ne_true, BitVec.xor_zero]
  apply BitVec.eq_of_toNat_eq
  rw [BitVec.toNat_ushiftRight, hshift, Nat.shiftRight_one]
  omega

/-- Bits that start `n` places up arrive unchanged after `n` steps. -/
theorem iterate_shiftLeft {n : ℕ} {bits : BitVec w} (hn : n ≤ w)
    (hbits : bits.toNat < 2 ^ (w - n)) :
    (step taps)^[n] (bits <<< n) = bits := by
  induction n with
  | zero => simp
  | succ n ih =>
      have hless : bits.toNat < 2 ^ (w - n) :=
        hbits.trans_le (Nat.pow_le_pow_right two_pos (by omega))
      have htop : (bits <<< n).toNat < 2 ^ (w - 1) := by
        rw [shiftLeft_toNat (by omega) hless]
        calc bits.toNat * 2 ^ n < 2 ^ (w - (n + 1)) * 2 ^ n :=
              Nat.mul_lt_mul_of_pos_right hbits (Nat.two_pow_pos n)
          _ = 2 ^ (w - 1) := by
              rw [← pow_add]
              congr 1
              omega
      rw [Function.iterate_succ_apply, BitVec.shiftLeft_add,
        step_shiftLeft_one (by omega) htop, ih (by omega) hless]

/-! ## Runs of blocks -/

theorem pack_lt {k : ℕ} {blocks : List (BitVec w)}
    (hblocks : ∀ block ∈ blocks, block.toNat < 2 ^ k)
    (hfit : k * blocks.length ≤ w) :
    (pack k blocks).toNat < 2 ^ (k * blocks.length) := by
  induction blocks with
  | nil => simp [pack]
  | cons block blocks ih =>
      rw [List.length_cons, Nat.mul_succ] at hfit ⊢
      have htail := ih (fun other hother =>
        hblocks other (List.mem_cons_of_mem _ hother)) (by omega)
      have hhead := hblocks block List.mem_cons_self
      rw [pack, BitVec.toNat_xor, shiftLeft_toNat (by omega) (htail.trans_le
        (Nat.pow_le_pow_right two_pos (by omega)))]
      refine Nat.xor_lt_two_pow ?_ ?_
      · exact hhead.trans_le (Nat.pow_le_pow_right two_pos (by omega))
      · rw [pow_add]
        exact Nat.mul_lt_mul_of_pos_right htail (Nat.two_pow_pos k)

theorem foldl_absorb {k : ℕ} {blocks : List (BitVec w)} (state : BitVec w)
    (hblocks : ∀ block ∈ blocks, block.toNat < 2 ^ k)
    (hfit : k * blocks.length ≤ w) :
    blocks.foldl (absorb taps k) state =
      (step taps)^[k * blocks.length] (state ^^^ pack k blocks) := by
  induction blocks generalizing state with
  | nil => simp [pack]
  | cons block blocks ih =>
      rw [List.length_cons, Nat.mul_succ] at hfit ⊢
      have hrest : ∀ other ∈ blocks, other.toNat < 2 ^ k := fun other hother =>
        hblocks other (List.mem_cons_of_mem _ hother)
      have hpack : (pack k blocks).toNat < 2 ^ (w - k) :=
        (pack_lt hrest (by omega)).trans_le
          (Nat.pow_le_pow_right two_pos (by omega))
      rw [List.foldl_cons, ih _ hrest (by omega), Function.iterate_add_apply,
        pack, ← BitVec.xor_assoc, iterate_xor k,
        iterate_shiftLeft (by omega) hpack]
      rfl

theorem getLsbD_eq_false {k i : ℕ} {bits : BitVec w} (hbits : bits.toNat < 2 ^ k)
    (hi : k ≤ i) : bits.getLsbD i = false := by
  rw [BitVec.getLsbD, Nat.testBit_lt_two_pow
    (hbits.trans_le (Nat.pow_le_pow_right two_pos hi))]

/-- The low block of a packing is its first one. -/
theorem pack_injective {k : ℕ} {left right : List (BitVec w)}
    (hleft : ∀ block ∈ left, block.toNat < 2 ^ k)
    (hright : ∀ block ∈ right, block.toNat < 2 ^ k)
    (hlength : left.length = right.length) (hfit : k * left.length ≤ w)
    (hsame : pack k left = pack k right) : left = right := by
  induction left generalizing right with
  | nil => exact (List.eq_nil_of_length_eq_zero hlength.symm).symm
  | cons first left ih =>
      cases right with
      | nil => contradiction
      | cons second right =>
          rw [List.length_cons, List.length_cons, Nat.succ_inj] at hlength
          rw [List.length_cons, Nat.mul_succ] at hfit
          have hleftRest : ∀ other ∈ left, other.toNat < 2 ^ k :=
            fun other hother => hleft other (List.mem_cons_of_mem _ hother)
          have hrightRest : ∀ other ∈ right, other.toNat < 2 ^ k :=
            fun other hother => hright other (List.mem_cons_of_mem _ hother)
          have hroom : k * left.length ≤ w - k := by omega
          have hleftPack := (pack_lt hleftRest (by omega)).trans_le
            (Nat.pow_le_pow_right two_pos hroom)
          have hrightPack := (pack_lt hrightRest (by rw [← hlength]; omega)
            ).trans_le (Nat.pow_le_pow_right two_pos (hlength ▸ hroom))
          have hhead : first = second := by
            refine BitVec.eq_of_getLsbD_eq fun i _ => ?_
            by_cases hi : i < k
            · have hbit := congrArg (fun bits => bits.getLsbD i) hsame
              simpa [pack, BitVec.getLsbD_xor, hi] using hbit
            · rw [getLsbD_eq_false (hleft _ List.mem_cons_self) (not_lt.mp hi),
                getLsbD_eq_false (hright _ List.mem_cons_self) (not_lt.mp hi)]
          rw [pack, pack, hhead, BitVec.xor_right_inj] at hsame
          have htail : pack k left = pack k right :=
            calc pack k left = (step 0#w)^[k] (pack k left <<< k) :=
                  (iterate_shiftLeft (by omega) hleftPack).symm
              _ = (step 0#w)^[k] (pack k right <<< k) := by rw [hsame]
              _ = pack k right := iterate_shiftLeft (by omega) hrightPack
          rw [hhead, ih hleftRest hrightRest hlength (by omega) htail]

/-! ## Bursts -/

theorem absorb_injective (htaps : taps.msb = true) (k : ℕ) (block : BitVec w) :
    Function.Injective fun state => absorb taps k state block := by
  intro left right hsame
  have hxor := (step_injective htaps).iterate k hsame
  exact (BitVec.xor_left_inj block).mp hxor

theorem foldl_absorb_injective (htaps : taps.msb = true) (k : ℕ)
    (blocks : List (BitVec w)) :
    Function.Injective fun state => blocks.foldl (absorb taps k) state := by
  induction blocks with
  | nil => exact fun _ _ hsame => hsame
  | cons block blocks ih =>
      exact fun _ _ hsame => absorb_injective htaps k block (ih hsame)

/-- Two messages that differ in one run of blocks, no longer than the register,
end in different states. -/
theorem burst_detected (htaps : taps.msb = true) {k : ℕ} {state : BitVec w}
    {front left right back : List (BitVec w)}
    (hleft : ∀ block ∈ left, block.toNat < 2 ^ k)
    (hright : ∀ block ∈ right, block.toNat < 2 ^ k)
    (hlength : left.length = right.length) (hfit : k * left.length ≤ w)
    (hsame : (front ++ left ++ back).foldl (absorb taps k) state =
      (front ++ right ++ back).foldl (absorb taps k) state) :
    left = right := by
  simp only [List.foldl_append] at hsame
  have hwindow := foldl_absorb_injective htaps k back hsame
  rw [foldl_absorb _ hleft hfit, foldl_absorb _ hright (hlength ▸ hfit),
    hlength] at hwindow
  have hpacked := (step_injective htaps).iterate _ hwindow
  exact pack_injective hleft hright hlength hfit
    ((BitVec.xor_right_inj _).mp hpacked)

end ShiftRegister
